import LedgerSigning.Proofs.Json.Document
import LedgerSigning.Proofs.Text.Units

/-! Members in canonical order. Sorting permutes the members at every depth, and the order in
which they were is lost. -/
namespace LedgerSigning

namespace Json

/-- Keys in strictly increasing order of their UTF-16 units. -/
def Increasing (keys : List String) : Prop := keys.Pairwise fun a b => precedes a b = true

theorem Increasing.nodup {keys : List String} (h : Increasing keys) : keys.Nodup := by
  refine List.Pairwise.imp (fun hPrecedes hEq => ?_) h
  rw [hEq, precedes_irrefl] at hPrecedes
  exact absurd hPrecedes (by decide)

variable {α : Type}

theorem place_perm (key : String) (value : α) (members : List (String × α)) :
    (place key value members).Perm ((key, value) :: members) := by
  induction members with
  | nil => exact .refl _
  | cons m rest ih =>
      obtain ⟨k, v⟩ := m
      unfold place
      split_ifs with hPrecedes
      · exact (ih.cons (k, v)).trans (.swap _ _ _)
      · exact .refl _

theorem mem_keys_place {key k : String} {value : α} {members : List (String × α)} :
    k ∈ (place key value members).map Prod.fst ↔ k = key ∨ k ∈ members.map Prod.fst := by
  rw [((place_perm key value members).map Prod.fst).mem_iff, List.map_cons, List.mem_cons]

/-- A new key is placed so that the keys stay in order. -/
theorem place_increasing {key : String} {value : α} {members : List (String × α)}
    (hKeys : Increasing (members.map Prod.fst)) (hNew : key ∉ members.map Prod.fst) :
    Increasing ((place key value members).map Prod.fst) := by
  induction members with
  | nil => exact List.pairwise_singleton _ _
  | cons m rest ih =>
      obtain ⟨k, v⟩ := m
      rw [List.map_cons, List.mem_cons, not_or] at hNew
      obtain ⟨hFirst, hRest⟩ := List.pairwise_cons.mp hKeys
      unfold place
      split_ifs with hPrecedes
      · refine List.pairwise_cons.mpr ⟨fun other hOther => ?_, ih hRest hNew.2⟩
        rcases mem_keys_place.mp hOther with rfl | hOther
        · exact hPrecedes
        · exact hFirst other hOther
      · have hBefore : precedes key k = true :=
          precedes_total (by simpa using hPrecedes) (Ne.symm hNew.1)
        refine List.pairwise_cons.mpr ⟨fun other hOther => ?_, hKeys⟩
        rcases List.mem_cons.mp hOther with rfl | hOther
        · exact hBefore
        · exact precedes_trans hBefore (hFirst other hOther)

/-- Members in increasing order of their keys are determined by which members they are. -/
theorem eq_of_perm_of_increasing {members others : List (String × α)}
    (hPerm : members.Perm others) (hMembers : Increasing (members.map Prod.fst))
    (hOthers : Increasing (others.map Prod.fst)) : members = others := by
  refine hPerm.eq_of_pairwise ?_ (List.pairwise_map.mp hMembers) (List.pairwise_map.mp hOthers)
  intro m n _ _ hBefore hAfter
  rw [precedes_asymm hBefore] at hAfter
  exact absurd hAfter (by decide)

theorem sortItems_eq (items : List Json) : sorted.sortItems items = items.map sorted := by
  induction items with
  | nil => rfl
  | cons item rest ih => rw [sorted.sortItems, ih, List.map_cons]

theorem sorted_array (items : List Json) : sorted (.array items) = .array (items.map sorted) := by
  rw [sorted, sortItems_eq]

/-- Sorting permutes the members and sorts their values. -/
theorem sortMembers_perm (members : List (String × Json)) :
    (sorted.sortMembers members).Perm (members.map fun m => (m.1, m.2.sorted)) := by
  induction members with
  | nil => exact .refl _
  | cons m rest ih =>
      obtain ⟨key, value⟩ := m
      exact (place_perm key value.sorted _).trans (ih.cons _)

theorem mem_sortMembers {members : List (String × Json)} {key : String} {value : Json} :
    (key, value) ∈ sorted.sortMembers members ↔
      ∃ v, (key, v) ∈ members ∧ value = v.sorted := by
  rw [(sortMembers_perm members).mem_iff, List.mem_map]
  constructor
  · rintro ⟨⟨k, v⟩, hMem, hEq⟩
    cases hEq
    exact ⟨v, hMem, rfl⟩
  · rintro ⟨v, hMem, rfl⟩
    exact ⟨(key, v), hMem, rfl⟩

theorem keys_sortMembers_perm (members : List (String × Json)) :
    ((sorted.sortMembers members).map Prod.fst).Perm (members.map Prod.fst) := by
  have hPerm := (sortMembers_perm members).map Prod.fst
  rwa [List.map_map] at hPerm

theorem sortMembers_increasing {members : List (String × Json)}
    (hDistinct : (members.map Prod.fst).Nodup) :
    Increasing ((sorted.sortMembers members).map Prod.fst) := by
  induction members with
  | nil => exact List.Pairwise.nil
  | cons m rest ih =>
      obtain ⟨key, value⟩ := m
      obtain ⟨hNew, hRest⟩ := List.nodup_cons.mp hDistinct
      refine place_increasing (ih hRest) ?_
      rw [(keys_sortMembers_perm rest).mem_iff]
      exact hNew

theorem mem_map_sortMembers {f : Json → α} {members : List (String × Json)} {key : String} {a : α} :
    (key, a) ∈ (sorted.sortMembers members).map (fun m => (m.1, f m.2)) ↔
      ∃ v, (key, v) ∈ members ∧ a = f v.sorted := by
  rw [List.mem_map]
  constructor
  · rintro ⟨⟨k, value⟩, hMem, hEq⟩
    cases hEq
    obtain ⟨v, hv, rfl⟩ := mem_sortMembers.mp hMem
    exact ⟨v, hv, rfl⟩
  · rintro ⟨v, hv, rfl⟩
    exact ⟨(key, v.sorted), mem_sortMembers.mpr ⟨v, hv, rfl⟩, rfl⟩

/-- What is computed from each value of sorted members depends on the members as a set. -/
theorem map_sortMembers_eq {f : Json → α} {members others : List (String × Json)}
    (hMembers : (members.map Prod.fst).Nodup) (hOthers : (others.map Prod.fst).Nodup)
    (hKeys : ∀ key, key ∈ members.map Prod.fst ↔ key ∈ others.map Prod.fst)
    (hValues : ∀ key v w, (key, v) ∈ members → (key, w) ∈ others → f v.sorted = f w.sorted) :
    (sorted.sortMembers members).map (fun m => (m.1, f m.2)) =
      (sorted.sortMembers others).map (fun m => (m.1, f m.2)) := by
  have hIncreasing {ms : List (String × Json)} (hNodup : (ms.map Prod.fst).Nodup) :
      Increasing (((sorted.sortMembers ms).map fun m => (m.1, f m.2)).map Prod.fst) := by
    rw [List.map_map]
    exact sortMembers_increasing hNodup
  have hLeft := hIncreasing hMembers
  have hRight := hIncreasing hOthers
  refine eq_of_perm_of_increasing ?_ hLeft hRight
  rw [List.perm_ext_iff_of_nodup (hLeft.nodup.of_map _) (hRight.nodup.of_map _)]
  rintro ⟨key, a⟩
  rw [mem_map_sortMembers, mem_map_sortMembers]
  constructor
  · rintro ⟨v, hMem, rfl⟩
    obtain ⟨w, hOther⟩ := exists_member hKeys hMem
    exact ⟨w, hOther, hValues key v w hMem hOther⟩
  · rintro ⟨w, hOther, rfl⟩
    obtain ⟨v, hMem⟩ := exists_member (fun key => (hKeys key).symm) hOther
    exact ⟨v, hMem, (hValues key v w hMem hOther).symm⟩

/-- The same members at every depth, in whatever order. -/
def Reordered : Json → Json → Prop := Alike Eq

/-- Sorting forgets in which order the members were. -/
theorem sorted_eq_of_reordered {d e : Json} (hd : d.Distinct) (he : e.Distinct)
    (h : Reordered d e) : d.sorted = e.sorted := by
  induction d generalizing e with
  | null => cases h; rfl
  | bool b => cases h; rfl
  | number n => cases h with | number hEq => rw [hEq]
  | string s => cases h; rfl
  | array items ih =>
      cases h with
      | array hItems =>
          rw [distinct_array_iff] at hd he
          rw [sorted_array, sorted_array]
          congr 1
          rw [← List.forall₂_eq_eq_eq, List.forall₂_map_left_iff, List.forall₂_map_right_iff]
          rw [List.forall₂_iff_zip] at hItems ⊢
          refine ⟨hItems.1, fun hMem => ?_⟩
          obtain ⟨hLeft, hRight⟩ := List.of_mem_zip hMem
          exact ih _ hLeft (hd _ hLeft) (he _ hRight) (hItems.2 hMem)
  | object members ih =>
      cases h with
      | object hKeys hValues =>
          obtain ⟨hMembers, hdValues⟩ := distinct_object_iff.mp hd
          obtain ⟨hOthers, heValues⟩ := distinct_object_iff.mp he
          have hSorted := map_sortMembers_eq (f := id) hMembers hOthers hKeys
            fun key v w hMem hOther => ih key v hMem (hdValues key v hMem)
              (heValues key w hOther) (hValues key v w hMem hOther)
          rw [sorted, sorted]
          simpa using hSorted

/-- Sorting keeps the numbers. -/
theorem part_number_sorted_iff {doc : Json} {n : Number} :
    Part (.number n) doc.sorted ↔ Part (.number n) doc := by
  induction doc with
  | null => rfl
  | bool b => rfl
  | number m => rfl
  | string s => rfl
  | array items ih =>
      rw [sorted_array]
      constructor
      · intro hPart
        cases hPart with
        | item hItem hPart =>
            obtain ⟨item, hMem, rfl⟩ := List.mem_map.mp hItem
            exact .item hMem ((ih item hMem).mp hPart)
      · intro hPart
        cases hPart with
        | item hItem hPart =>
            exact .item (List.mem_map_of_mem hItem) ((ih _ hItem).mpr hPart)
  | object members ih =>
      rw [sorted]
      constructor
      · intro hPart
        cases hPart with
        | member hMember hPart =>
            obtain ⟨v, hMem, rfl⟩ := mem_sortMembers.mp hMember
            exact .member hMem ((ih _ v hMem).mp hPart)
      · intro hPart
        cases hPart with
        | member hMember hPart =>
            exact .member (mem_sortMembers.mpr ⟨_, hMember, rfl⟩) ((ih _ _ hMember).mpr hPart)

theorem mem_itemIntegers {n : Int} {items : List Json} :
    n ∈ integers.itemIntegers items ↔ ∃ item ∈ items, n ∈ item.integers := by
  induction items with
  | nil => simp [integers.itemIntegers]
  | cons item rest ih => simp [integers.itemIntegers, ih]

theorem mem_memberIntegers {n : Int} {members : List (String × Json)} :
    n ∈ integers.memberIntegers members ↔ ∃ key value, (key, value) ∈ members ∧
      n ∈ value.integers := by
  induction members with
  | nil => simp [integers.memberIntegers]
  | cons m rest ih =>
      obtain ⟨key, value⟩ := m
      simp only [integers.memberIntegers, List.mem_append, ih, List.mem_cons]
      constructor
      · rintro (hFirst | ⟨k, v, hMem, hRest⟩)
        · exact ⟨key, value, .inl rfl, hFirst⟩
        · exact ⟨k, v, .inr hMem, hRest⟩
      · rintro ⟨k, v, hEq | hMem, hIn⟩
        · rw [(Prod.mk.inj hEq).2] at hIn
          exact .inl hIn
        · exact .inr ⟨k, v, hMem, hIn⟩

/-- The integers of a document are its parts that are integers. -/
theorem mem_integers_iff {n : Int} {doc : Json} :
    n ∈ doc.integers ↔ ∃ range, Part (.number (.integer n range)) doc := by
  induction doc with
  | null => simp only [integers, List.not_mem_nil, false_iff]; rintro ⟨_, ⟨⟩⟩
  | bool b => simp only [integers, List.not_mem_nil, false_iff]; rintro ⟨_, ⟨⟩⟩
  | string s => simp only [integers, List.not_mem_nil, false_iff]; rintro ⟨_, ⟨⟩⟩
  | number m =>
      cases m with
      | integer m range =>
          simp only [integers, List.mem_singleton]
          constructor
          · rintro rfl
            exact ⟨range, .self⟩
          · rintro ⟨_, hPart⟩
            cases hPart
            rfl
      | float x finite =>
          simp only [integers, List.not_mem_nil, false_iff]
          rintro ⟨_, ⟨⟩⟩
  | array items ih =>
      rw [integers, mem_itemIntegers]
      constructor
      · rintro ⟨item, hItem, hIn⟩
        obtain ⟨range, hPart⟩ := (ih item hItem).mp hIn
        exact ⟨range, .item hItem hPart⟩
      · rintro ⟨range, hPart⟩
        cases hPart with
        | item hItem hPart => exact ⟨_, hItem, (ih _ hItem).mpr ⟨range, hPart⟩⟩
  | object members ih =>
      rw [integers, mem_memberIntegers]
      constructor
      · rintro ⟨key, value, hMem, hIn⟩
        obtain ⟨range, hPart⟩ := (ih key value hMem).mp hIn
        exact ⟨range, .member hMem hPart⟩
      · rintro ⟨range, hPart⟩
        cases hPart with
        | member hMem hPart => exact ⟨_, _, hMem, (ih _ _ hMem).mpr ⟨range, hPart⟩⟩

theorem safe_iff {doc : Json} :
    doc.Safe ↔ ∀ n range, Part (.number (.integer n range)) doc → n.natAbs ≤ maxSafe := by
  constructor
  · intro hSafe n range hPart
    exact hSafe _ hPart _ rfl
  · intro hIntegers part hPart n hEq
    subst hEq
    cases n with
    | integer n range => exact hIntegers n range hPart
    | float x finite => trivial

/-- A document has a canonical text if and only if its numbers are safe, and then it is the
sorted document in canonical style. -/
theorem canonical_eq_ok_iff {doc : Json} {text : List Char} :
    doc.canonical = .ok text ↔ doc.Safe ∧ text = Writer.write Writer.canonical 0 doc.sorted := by
  have hSafe : doc.Safe ↔ doc.sorted.integers.find? (maxSafe < ·.natAbs) = none := by
    rw [safe_iff, List.find?_eq_none]
    constructor
    · intro hAll n hn
      obtain ⟨range, hPart⟩ := mem_integers_iff.mp hn
      have hLe := hAll n range (part_number_sorted_iff.mp hPart)
      simpa using hLe
    · intro hAll n range hPart
      have hLe := hAll n (mem_integers_iff.mpr ⟨range, part_number_sorted_iff.mpr hPart⟩)
      simpa using hLe
  rw [hSafe, canonical]
  cases doc.sorted.integers.find? (maxSafe < ·.natAbs) with
  | some n => simp
  | none => simp [eq_comm]

end Json

end LedgerSigning
