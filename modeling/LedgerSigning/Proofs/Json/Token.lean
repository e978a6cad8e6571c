import LedgerSigning.Proofs.Json.Reread

/-! Tokens and the numbers they stand for. The parts of a tree that repeats no key are the parts
of its document, and two trees that differ in one token stand for the same document only if both
tokens are read as the same number. -/
namespace LedgerSigning

/-- Lists that differ in one element are related to lists that differ in one element, where no
element is related to two values. -/
theorem exists_append_cons_of_rightUnique {α β : Type} {R : α → β → Prop}
    (hUnique : Relator.RightUnique R) {before after : List α} {a b : α} {values others : List β}
    (h : List.Forall₂ R (before ++ a :: after) values)
    (h' : List.Forall₂ R (before ++ b :: after) others) :
    ∃ first v w last,
      values = first ++ v :: last ∧ others = first ++ w :: last ∧ R a v ∧ R b w := by
  induction before generalizing values others with
  | nil =>
      obtain ⟨v, last, hMark, hAfter, rfl⟩ := List.forall₂_cons_left_iff.mp h
      obtain ⟨w, last', hMark', hAfter', rfl⟩ := List.forall₂_cons_left_iff.mp h'
      obtain rfl := hUnique.forall₂ hAfter hAfter'
      exact ⟨[], v, w, last, rfl, rfl, hMark, hMark'⟩
  | cons c before ih =>
      obtain ⟨d, rest, hFirst, hRest, rfl⟩ := List.forall₂_cons_left_iff.mp h
      obtain ⟨d', rest', hFirst', hRest', rfl⟩ := List.forall₂_cons_left_iff.mp h'
      obtain rfl := hUnique hFirst hFirst'
      obtain ⟨first, v, w, last, rfl, rfl, hMark, hMark'⟩ := ih hRest hRest'
      exact ⟨d :: first, v, w, last, rfl, rfl, hMark, hMark'⟩

/-- Around a marked element the lists are one. -/
theorem forall₂_append_cons_iff {α : Type} {R : α → α → Prop} {first last : List α} {a b : α}
    (hFirst : ∀ c ∈ first, R c c) (hLast : ∀ c ∈ last, R c c) :
    List.Forall₂ R (first ++ a :: last) (first ++ b :: last) ↔ R a b := by
  induction first with
  | nil =>
      rw [List.nil_append, List.nil_append, List.forall₂_cons]
      exact and_iff_left (List.forall₂_same.mpr hLast)
  | cons c first ih =>
      rw [List.cons_append, List.cons_append, List.forall₂_cons,
        ih fun d hd => hFirst d (List.mem_cons_of_mem _ hd)]
      exact and_iff_right (hFirst c List.mem_cons_self)

namespace Tree

variable {levels : Nat}

/-- A tree that stands somewhere in another, at any depth. -/
inductive Part (part : Tree) : Tree → Prop
  | self : Part part part
  | item {items : List Tree} {item : Tree} (hItem : item ∈ items) (hPart : Part part item) :
      Part part (.array items)
  | member {members : List (Option String × Tree)} {key : Option String} {value : Tree}
      (hMember : (key, value) ∈ members) (hPart : Part part value) : Part part (.object members)

/-- No object of the tree repeats a key. -/
def Distinct (tree : Tree) : Prop :=
  ∀ members, Part (.object members) tree → (members.map Prod.fst).Nodup

theorem Distinct.item {items : List Tree} (h : Distinct (.array items)) {item : Tree}
    (hItem : item ∈ items) : item.Distinct :=
  fun members hPart => h members (.item hItem hPart)

theorem Distinct.member {members : List (Option String × Tree)} (h : Distinct (.object members))
    {key : Option String} {value : Tree} (hMember : (key, value) ∈ members) : value.Distinct :=
  fun others hPart => h others (.member hMember hPart)

/-- A member is read in one way. -/
theorem isMember_rightUnique : Relator.RightUnique (IsMember levels) := by
  intro m value other hValue hOther
  apply Prod.ext
  · exact Option.some.inj (hValue.1.symm.trans hOther.1)
  · exact Option.some.inj (hValue.2.symm.trans hOther.2)

/-- The values that are read for keys that are not repeated are those of the object. -/
theorem mem_ofList_iff {members : List (Option String × Tree)} {values : List (String × Json)}
    (hKeys : (members.map Prod.fst).Nodup) (hValues : List.Forall₂ (IsMember levels) members values)
    {m : String × Json} : m ∈ Members.ofList values ↔ m ∈ values := by
  have hFirst : (values.map Prod.fst).map some = members.map Prod.fst := by
    rw [List.map_map, ← List.forall₂_eq_eq_eq, List.forall₂_map_left_iff,
      List.forall₂_map_right_iff]
    exact hValues.flip.imp fun value m hMember => hMember.1.symm
  have hNodup : (values.map Prod.fst).Nodup := by
    rw [← hFirst] at hKeys
    exact hKeys.of_map _
  exact (Members.ofList_perm hNodup).mem_iff

/-- Only arrays are read as arrays. -/
theorem exists_of_toJson?_array {tree : Tree} {values : List Json}
    (h : tree.toJson? levels = some (.array values)) : ∃ below items, levels = below + 1 ∧
      tree = .array items ∧ List.Forall₂ (fun t w => t.toJson? below = some w) items values := by
  cases levels with
  | zero => cases tree <;> simp [toJson?] at h
  | succ below =>
      cases tree with
      | array items =>
          obtain ⟨others, hEq, hItems⟩ := toJson?_array_eq_some_iff.mp h
          cases hEq
          exact ⟨below, items, rfl, rfl, hItems⟩
      | _ => simp [toJson?] at h

/-- Only objects are read as objects. -/
theorem exists_of_toJson?_object {tree : Tree} {members : List (String × Json)}
    (h : tree.toJson? levels = some (.object members)) : ∃ below named values,
      levels = below + 1 ∧ tree = .object named ∧ members = Members.ofList values ∧
        List.Forall₂ (IsMember below) named values := by
  cases levels with
  | zero => cases tree <;> simp [toJson?] at h
  | succ below =>
      cases tree with
      | object named =>
          obtain ⟨values, hEq, hMembers⟩ := toJson?_object_eq_some_iff.mp h
          cases hEq
          exact ⟨below, named, values, rfl, rfl, rfl, hMembers⟩
      | _ => simp [toJson?] at h

/-- Only number tokens are read as numbers. -/
theorem number?_of_toJson? {tree : Tree} {n : Number}
    (h : tree.toJson? levels = some (.number n)) : tree.number? = some n := by
  cases tree with
  | integer negative magnitude => simpa [toJson?, number?] using h
  | decimal negative significand exponent => simpa [toJson?, number?] using h
  | array items => cases levels <;> simp [toJson?] at h
  | object members => cases levels <;> simp [toJson?] at h
  | _ => simp [toJson?] at h

/-- Each part of a tree stands for a part of its document, as no member is replaced by a later
one. -/
theorem Part.toJson? {part tree : Tree} (h : Part part tree) (hDistinct : tree.Distinct)
    {doc : Json} (hRead : tree.toJson? levels = some doc) :
    ∃ below d, part.toJson? below = some d ∧ Json.Part d doc := by
  induction h generalizing levels doc with
  | self => exact ⟨levels, doc, hRead, .self⟩
  | @item items item hItem _ ih =>
      cases levels with
      | zero => simp [Tree.toJson?] at hRead
      | succ below =>
          obtain ⟨values, rfl, hValues⟩ := toJson?_array_eq_some_iff.mp hRead
          obtain ⟨value, hValue, hItemRead⟩ := exists_of_forall₂ hValues.flip hItem
          obtain ⟨deeper, d, hPartRead, hPart⟩ := ih (hDistinct.item hItem) hItemRead
          exact ⟨deeper, d, hPartRead, .item hValue hPart⟩
  | @member members key value hMember _ ih =>
      cases levels with
      | zero => simp [Tree.toJson?] at hRead
      | succ below =>
          obtain ⟨values, rfl, hValues⟩ := toJson?_object_eq_some_iff.mp hRead
          obtain ⟨⟨k, w⟩, hValue, -, hMemberRead⟩ := exists_of_forall₂ hValues.flip hMember
          obtain ⟨deeper, d, hPartRead, hPart⟩ := ih (hDistinct.member hMember) hMemberRead
          exact ⟨deeper, d, hPartRead,
            .member ((mem_ofList_iff (hDistinct _ .self) hValues).mpr hValue) hPart⟩

/-- Each part of a document is what some part of its tree stands for. -/
theorem exists_part {tree : Tree} {d doc : Json} (h : Json.Part d doc)
    (hRead : tree.toJson? levels = some doc) :
    ∃ below part, Part part tree ∧ part.toJson? below = some d := by
  induction h generalizing tree levels with
  | self => exact ⟨levels, tree, .self, hRead⟩
  | item hItem _ ih =>
      obtain ⟨below, items, rfl, rfl, hItems⟩ := exists_of_toJson?_array hRead
      obtain ⟨item, hFound, hItemRead⟩ := exists_of_forall₂ hItems hItem
      obtain ⟨deeper, part, hPart, hPartRead⟩ := ih hItemRead
      exact ⟨deeper, part, .item hFound hPart, hPartRead⟩
  | member hMember _ ih =>
      obtain ⟨below, named, values, rfl, rfl, rfl, hValues⟩ := exists_of_toJson?_object hRead
      obtain ⟨⟨key, value⟩, hFound, -, hMemberRead⟩ :=
        exists_of_forall₂ hValues (Members.mem_of_mem_ofList hMember)
      obtain ⟨deeper, part, hPart, hPartRead⟩ := ih hMemberRead
      exact ⟨deeper, part, .member hFound hPart, hPartRead⟩

/-- Two trees that differ at one place only, where `a` stands in one and `b` in the other. -/
inductive Replaced (a b : Tree) : Tree → Tree → Prop
  | self : Replaced a b a b
  | item (before after : List Tree) {x y : Tree} (h : Replaced a b x y) :
      Replaced a b (.array (before ++ x :: after)) (.array (before ++ y :: after))
  | member (before after : List (Option String × Tree)) (key : Option String) {x y : Tree}
      (h : Replaced a b x y) :
      Replaced a b (.object (before ++ (key, x) :: after)) (.object (before ++ (key, y) :: after))

theorem Replaced.part_left {a b tree other : Tree} (h : Replaced a b tree other) :
    Part a tree := by
  induction h with
  | self => exact .self
  | item before after _ ih => exact .item (List.mem_append_right _ List.mem_cons_self) ih
  | member before after key _ ih =>
      exact .member (List.mem_append_right _ List.mem_cons_self) ih

theorem Replaced.part_right {a b tree other : Tree} (h : Replaced a b tree other) :
    Part b other := by
  induction h with
  | self => exact .self
  | item before after _ ih => exact .item (List.mem_append_right _ List.mem_cons_self) ih
  | member before after key _ ih =>
      exact .member (List.mem_append_right _ List.mem_cons_self) ih

end Tree

namespace Json

theorem Same.refl {doc : Json} (hDistinct : doc.Distinct) : Same doc doc := by
  induction doc with
  | null => exact .null
  | bool b => exact .bool b
  | number n => exact .number rfl
  | string s => exact .string s
  | array items ih =>
      rw [distinct_array_iff] at hDistinct
      exact .array (List.forall₂_same.mpr fun item hItem => ih item hItem (hDistinct item hItem))
  | object members ih =>
      obtain ⟨hKeys, hValues⟩ := distinct_object_iff.mp hDistinct
      refine .object (fun _ => Iff.rfl) fun key value other hMember hOther => ?_
      rw [member_unique hKeys hOther hMember]
      exact ih key value hMember (hValues key value hMember)

/-- Arrays that differ in one item are the same if and only if these items are. -/
theorem same_array_iff {first last : List Json} {item other : Json}
    (hItems : Distinct (.array (first ++ item :: last))) :
    Same (.array (first ++ item :: last)) (.array (first ++ other :: last)) ↔ Same item other := by
  rw [distinct_array_iff] at hItems
  have hMarked : List.Forall₂ Same (first ++ item :: last) (first ++ other :: last) ↔
      Same item other :=
    forall₂_append_cons_iff (fun c hc => Same.refl (hItems c (List.mem_append_left _ hc)))
      (fun c hc => Same.refl (hItems c (List.mem_append_right _ (List.mem_cons_of_mem _ hc))))
  rw [← hMarked]
  constructor
  · intro hSame
    cases hSame with
    | array hPairs => exact hPairs
  · intro hPairs
    exact .array hPairs

/-- Objects that differ in the value of one key are the same if and only if its values are. -/
theorem same_object_iff {members others first last : List (String × Json)} {key : String}
    {value other : Json} (hMembers : Distinct (.object members))
    (hOthers : (others.map Prod.fst).Nodup)
    (hLeft : ∀ m, m ∈ members ↔ m ∈ first ++ (key, value) :: last)
    (hRight : ∀ m, m ∈ others ↔ m ∈ first ++ (key, other) :: last) :
    Same (.object members) (.object others) ↔ Same value other := by
  obtain ⟨hKeys, hValues⟩ := distinct_object_iff.mp hMembers
  have hMember : (key, value) ∈ members := (hLeft _).mpr (by simp)
  have hOther : (key, other) ∈ others := (hRight _).mpr (by simp)
  constructor
  · intro hSame
    cases hSame with
    | object _ hPairs => exact hPairs key value other hMember hOther
  · intro hSame
    refine .object (fun k => ?_) fun k v w hv hw => ?_
    · simp only [List.mem_map, hLeft, hRight, List.mem_append, List.mem_cons]
      constructor
      · rintro ⟨m, hFirst | rfl | hLast, rfl⟩
        · exact ⟨m, .inl hFirst, rfl⟩
        · exact ⟨(key, other), .inr (.inl rfl), rfl⟩
        · exact ⟨m, .inr (.inr hLast), rfl⟩
      · rintro ⟨m, hFirst | rfl | hLast, rfl⟩
        · exact ⟨m, .inl hFirst, rfl⟩
        · exact ⟨(key, value), .inr (.inl rfl), rfl⟩
        · exact ⟨m, .inr (.inr hLast), rfl⟩
    · by_cases hKey : k = key
      · subst hKey
        rw [member_unique hKeys hv hMember, member_unique hOthers hw hOther]
        exact hSame
      · have hBoth : (k, w) ∈ members := by
          rw [hLeft]
          rw [hRight] at hw
          simpa [hKey] using hw
        rw [member_unique hKeys hBoth hv]
        exact Same.refl (hValues k v hv)

end Json

open Json

namespace Tree

/-- Trees that differ in one number token stand for the same document if and only if the tokens
denote the same number. -/
theorem Replaced.same_iff {a b : Tree} {m n : Number} (ha : a.number? = some m)
    (hb : b.number? = some n) {tree other : Tree} (h : Replaced a b tree other)
    (hTree : tree.Distinct) (hOther : other.Distinct) {levels : Nat} {doc doc' : Json}
    (hRead : tree.toJson? levels = some doc) (hRead' : other.toJson? levels = some doc') :
    Same doc doc' ↔ m.double = n.double := by
  induction h generalizing levels doc doc' with
  | self =>
      rw [toJson?_of_number? ha] at hRead
      rw [toJson?_of_number? hb] at hRead'
      cases hRead
      cases hRead'
      constructor
      · intro hSame
        cases hSame with
        | number hDouble => exact hDouble
      · intro hDouble
        exact .number hDouble
  | @item before after x y _ ih =>
      have hDocs := (toJson?_wellFormed hRead).1
      cases levels with
      | zero => simp [toJson?] at hRead
      | succ below =>
          obtain ⟨values, rfl, hValues⟩ := toJson?_array_eq_some_iff.mp hRead
          obtain ⟨values', rfl, hValues'⟩ := toJson?_array_eq_some_iff.mp hRead'
          have hUnique : Relator.RightUnique fun (t : Tree) w => t.toJson? below = some w :=
            fun t w w' hw hw' => Option.some.inj (hw.symm.trans hw')
          obtain ⟨first, v, w, last, rfl, rfl, hv, hw⟩ :=
            exists_append_cons_of_rightUnique hUnique hValues hValues'
          rw [← ih (hTree.item (by simp)) (hOther.item (by simp)) hv hw]
          exact same_array_iff hDocs
  | @member before after key x y _ ih =>
      have hDocs := (toJson?_wellFormed hRead).1
      cases levels with
      | zero => simp [toJson?] at hRead
      | succ below =>
          obtain ⟨values, rfl, hValues⟩ := toJson?_object_eq_some_iff.mp hRead
          obtain ⟨values', rfl, hValues'⟩ := toJson?_object_eq_some_iff.mp hRead'
          have hLeft {m : String × Json} := mem_ofList_iff (m := m) (hTree _ .self) hValues
          have hRight {m : String × Json} := mem_ofList_iff (m := m) (hOther _ .self) hValues'
          obtain ⟨first, ⟨k, v⟩, ⟨k', w⟩, last, rfl, rfl, ⟨hk, hv⟩, ⟨hk', hw⟩⟩ :=
            exists_append_cons_of_rightUnique isMember_rightUnique hValues hValues'
          obtain rfl : k = k' := Option.some.inj (hk.symm.trans hk')
          have hx : (key, x) ∈ before ++ (key, x) :: after := by simp
          have hy : (key, y) ∈ before ++ (key, y) :: after := by simp
          rw [← ih (hTree.member hx) (hOther.member hy) hv hw]
          exact same_object_iff hDocs (Members.ofList_nodup _) (fun _ => hLeft) (fun _ => hRight)

end Tree

end LedgerSigning
