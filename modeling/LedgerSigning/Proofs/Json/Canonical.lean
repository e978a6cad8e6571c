import LedgerSigning.Proofs.Json.Solid
import LedgerSigning.Proofs.Json.Sorted
import LedgerSigning.Proofs.Json.Tree

/-! Canonical texts. A document has one if its integers are safe; the text has no white space
outside strings and its keys in increasing order, it is read as the same document, and it is
shared by exactly the documents that are the same. -/
namespace LedgerSigning

/-- The tree of a text that spells a document canonically: an object lists each of its keys
once, in increasing order, an array its items in order, and a number is in canonical form. -/
inductive Tree.Spells : Tree → Json → Prop
  | null : Spells .null .null
  | bool (b : Bool) : Spells (.bool b) (.bool b)
  | number (n : Number) : Spells (n.token .canonical) (.number n)
  | string (s : String) : Spells (.string (some s)) (.string s)
  | array {trees : List Tree} {items : List Json} (hItems : List.Forall₂ Spells trees items) :
      Spells (.array trees) (.array items)
  | object {named : List (String × Tree)} {members : List (String × Json)}
      (hOrder : Json.Increasing (named.map Prod.fst))
      (hKeys : ∀ key, key ∈ named.map Prod.fst ↔ key ∈ members.map Prod.fst)
      (hValues : ∀ key tree value, (key, tree) ∈ named → (key, value) ∈ members →
        Spells tree value) :
      Spells (.object (named.map fun m => (some m.1, m.2))) (.object members)

namespace Json

/-- The tree of the sorted document spells the document. -/
theorem spells_tree {doc : Json} (hDistinct : doc.Distinct) :
    (doc.sorted.tree .canonical).Spells doc := by
  induction doc with
  | null => exact .null
  | bool b => exact .bool b
  | number n => exact .number n
  | string s => exact .string s
  | array items ih =>
      rw [distinct_array_iff] at hDistinct
      rw [sorted_array, tree_array, List.map_map]
      refine .array (List.forall₂_map_left_iff.mpr (List.forall₂_same.mpr fun item hItem => ?_))
      exact ih item hItem (hDistinct item hItem)
  | object members ih =>
      obtain ⟨hKeys, hValues⟩ := distinct_object_iff.mp hDistinct
      have hNamed : ((sorted.sortMembers members).map fun m => (some m.1, m.2.tree .canonical)) =
          ((sorted.sortMembers members).map fun m => (m.1, m.2.tree .canonical)).map
            fun m => (some m.1, m.2) := by
        rw [List.map_map]
        rfl
      have hFirst : ((sorted.sortMembers members).map fun m => (m.1, m.2.tree .canonical)).map
          Prod.fst = (sorted.sortMembers members).map Prod.fst := by
        rw [List.map_map]
        rfl
      rw [sorted, tree_object, hNamed]
      refine .object ?_ ?_ ?_
      · rw [hFirst]
        exact sortMembers_increasing hKeys
      · intro key
        rw [hFirst]
        exact (keys_sortMembers_perm members).mem_iff
      · intro key tree value hTree hMember
        obtain ⟨⟨k, v⟩, hMem, hEq⟩ := List.mem_map.mp hTree
        cases hEq
        obtain ⟨w, hw, rfl⟩ := mem_sortMembers.mp hMem
        rw [member_unique hKeys hw hMember]
        exact ih k value hMember (hValues k value hMember)

/-- The number that is read from the canonical text of another. -/
def Reread (m n : Number) : Prop := (m.token .canonical).number? = some n

end Json

open Json

theorem Tree.toJson?_of_number? {tree : Tree} {n : Number} (h : tree.number? = some n)
    (levels : Nat) : tree.toJson? levels = some (.number n) := by
  cases tree with
  | integer negative magnitude => exact Option.map_eq_some_iff.mpr ⟨n, h, rfl⟩
  | decimal negative significand exponent => exact Option.map_eq_some_iff.mpr ⟨n, h, rfl⟩
  | _ => cases h

/-- What spells a document is read as it, each number from its canonical text. -/
theorem Tree.Spells.toJson? {tree : Tree} {doc : Json} (h : tree.Spells doc) {levels : Nat}
    (hDepth : doc.depth ≤ levels) :
    ∃ w, tree.toJson? levels = some w ∧ Alike Reread doc w := by
  induction doc generalizing tree levels with
  | null => cases h; exact ⟨.null, rfl, .null⟩
  | bool b => cases h; exact ⟨.bool b, rfl, .bool b⟩
  | string s => cases h; exact ⟨.string s, rfl, .string s⟩
  | number n =>
      cases h with
      | number n =>
          obtain ⟨m, hRead, -⟩ := Number.token_double .canonical n
          exact ⟨.number m, toJson?_of_number? hRead levels, .number hRead⟩
  | array items ih =>
      have hLevels : 0 < levels := by simp only [depth] at hDepth; omega
      obtain ⟨levels, rfl⟩ := Nat.exists_eq_add_one.mpr hLevels
      have hItemDepth := itemDepth_le_iff.mp (Nat.le_of_succ_le_succ hDepth)
      cases h with
      | @array trees _ hItems =>
          obtain ⟨hLength, hZip⟩ := List.forall₂_iff_zip.mp hItems
          have hRead : List.Forall₂ (fun t d => ∃ w, t.toJson? levels = some w ∧ Alike Reread d w)
              trees items := by
            refine List.forall₂_iff_zip.mpr ⟨hLength, fun {t d} hMem => ?_⟩
            have hItem := (List.of_mem_zip hMem).2
            exact ih d hItem (hZip hMem) (hItemDepth d hItem)
          obtain ⟨values, hValues, hAlike⟩ := exists_forall₂_of_exists hRead
          exact ⟨.array values, toJson?_array_eq_some_iff.mpr ⟨values, rfl, hValues⟩, .array hAlike⟩
  | object members ih =>
      have hLevels : 0 < levels := by simp only [depth] at hDepth; omega
      obtain ⟨levels, rfl⟩ := Nat.exists_eq_add_one.mpr hLevels
      have hMemberDepth := memberDepth_le_iff.mp (Nat.le_of_succ_le_succ hDepth)
      cases h with
      | @object named _ hOrder hKeys hValues =>
          have hRead (key : String) (t : Tree) (hMem : (key, t) ∈ named) :
              ∃ w, t.toJson? levels = some w := by
            obtain ⟨value, hMember⟩ : ∃ value, (key, value) ∈ members := by
              have hKey := (hKeys key).mp (List.mem_map_of_mem hMem)
              simpa using hKey
            obtain ⟨w, hRead, -⟩ := ih key value hMember (hValues key t value hMem hMember)
              (hMemberDepth key value hMember)
            exact ⟨w, hRead⟩
          obtain ⟨others, hObject, hOthers, hOrigin⟩ := toJson?_named hOrder.nodup hRead
          refine ⟨.object others, hObject, .object (fun key => ?_) ?_⟩
          · rw [hOthers, hKeys]
          · intro key value other hMember hOther
            obtain ⟨t, hMem, hRead⟩ := hOrigin key other hOther
            obtain ⟨w, hRead', hAlike⟩ := ih key value hMember (hValues key t value hMem hMember)
              (hMemberDepth key value hMember)
            rw [hRead] at hRead'
            rw [Option.some.inj hRead']
            exact hAlike

namespace Json

theorem Reread.double {m n : Number} (h : Reread m n) : m.double = n.double := by
  obtain ⟨k, hRead, hDouble⟩ := Number.token_double .canonical m
  rw [Reread, hRead] at h
  rw [← hDouble, Option.some.inj h]

/-- The canonical text of a document that has one is read as a tree that spells it. -/
theorem ofText?_canonical {doc : Json} (hDistinct : doc.Distinct) {s : List Char}
    (hText : doc.canonical = .ok s) : ∃ tree, Tree.ofText? s = some tree ∧ tree.Spells doc := by
  rw [canonical_eq_ok_iff] at hText
  rw [hText.2]
  exact ⟨_, Tree.ofText?_write Writer.readable_canonical doc.sorted, spells_tree hDistinct⟩

/-- Documents without repeated keys that are the same are written alike once sorted. -/
theorem write_sorted_eq {d e : Json} (hd : d.Distinct) (he : e.Distinct) (hdSafe : d.Safe)
    (heSafe : e.Safe) (hSame : Same d e) (depth : Nat) :
    Writer.write Writer.canonical depth d.sorted =
      Writer.write Writer.canonical depth e.sorted := by
  induction d generalizing e depth with
  | null => cases hSame; rfl
  | bool b => cases hSame; rfl
  | string s => cases hSame; rfl
  | number n =>
      cases hSame with
      | number hDouble =>
          rw [safe_number_iff] at hdSafe heSafe
          exact (Number.text_eq_iff hdSafe heSafe).mpr hDouble
  | array items ih =>
      cases hSame with
      | @array _ others hItems =>
          rw [distinct_array_iff] at hd he
          rw [safe_array_iff] at hdSafe heSafe
          rw [sorted_array, sorted_array, Writer.write_array, Writer.write_array, List.map_map,
            List.map_map]
          congr 1
          rw [← List.forall₂_eq_eq_eq, List.forall₂_map_left_iff, List.forall₂_map_right_iff]
          rw [List.forall₂_iff_zip] at hItems ⊢
          refine ⟨hItems.1, fun hMem => ?_⟩
          obtain ⟨hLeft, hRight⟩ := List.of_mem_zip hMem
          exact ih _ hLeft (hd _ hLeft) (he _ hRight) (hdSafe _ hLeft) (heSafe _ hRight)
            (hItems.2 hMem) _
  | object members ih =>
      cases hSame with
      | @object _ others hKeys hValues =>
          obtain ⟨hMembers, hdValues⟩ := distinct_object_iff.mp hd
          obtain ⟨hOthers, heValues⟩ := distinct_object_iff.mp he
          rw [safe_object_iff] at hdSafe heSafe
          have hSorted := map_sortMembers_eq (f := Writer.write Writer.canonical (depth + 1))
            hMembers hOthers hKeys fun key v w hMem hOther =>
              ih key v hMem (hdValues key v hMem) (heValues key w hOther) (hdSafe key v hMem)
                (heSafe key w hOther) (hValues key v w hMem hOther) _
          have hText := congrArg (List.map fun m : String × List Char =>
            Writer.quoted m.1 ++ (Writer.canonical.colon ++ m.2)) hSorted
          rw [List.map_map, List.map_map] at hText
          rw [sorted, sorted, Writer.write_object, Writer.write_object]
          exact congrArg _ hText

/-- Documents without repeated keys share a canonical text if and only if they are the same. -/
theorem canonical_eq_iff {d e : Json} {s t : List Char} (hd : d.Distinct) (he : e.Distinct)
    (hs : d.canonical = .ok s) (ht : e.canonical = .ok t) : s = t ↔ Same d e := by
  constructor
  · rintro rfl
    obtain ⟨tree, hTree, hSpells⟩ := ofText?_canonical hd hs
    obtain ⟨other, hOther, hSpells'⟩ := ofText?_canonical he ht
    rw [hTree] at hOther
    cases hOther
    -- The reader of texts allows 127 levels, but a tree can be read with as many as it needs.
    obtain ⟨w, hRead, hAlike⟩ := hSpells.toJson? (Nat.le_max_left d.depth e.depth)
    obtain ⟨w', hRead', hAlike'⟩ := hSpells'.toJson? (Nat.le_max_right d.depth e.depth)
    rw [hRead] at hRead'
    cases hRead'
    have hLeft : Same d w := hAlike.imp fun _ _ hReread => hReread.double
    have hRight : Same e w := hAlike'.imp fun _ _ hReread => hReread.double
    exact hLeft.trans hRight.symm
  · intro hSame
    rw [canonical_eq_ok_iff] at hs ht
    rw [hs.2, ht.2]
    exact write_sorted_eq hd he hs.1 ht.1 hSame 0

/-- The canonical form of a document whose objects repeat no key. It exists if and only if every
integer is safe. The text has no white space outside strings, spells each object with its keys
in increasing order of UTF-16 units, and is read as the same document; the order in which the
members were does not matter. -/
theorem canonical_form {doc : Json} (hDistinct : doc.Distinct)
    (hDepth : doc.depth ≤ Tree.maxLevels) :
    ((∃ s, doc.canonical = .ok s) ↔
      ∀ n range, Part (.number (.integer n range)) doc → n.natAbs ≤ maxSafe) ∧
    ∀ s, doc.canonical = .ok s →
      (∀ c ∈ outside false s, Blank.isBlank c = false) ∧
      (∃ tree, Tree.ofText? s = some tree ∧ tree.Spells doc) ∧
      (∃ w, Json.ofText? (String.ofList s) = some w ∧ Same doc w) ∧
      ∀ other : Json, other.Distinct → Reordered doc other → other.canonical = .ok s := by
  refine ⟨?_, fun s hText => ⟨?_, ?_, ?_, ?_⟩⟩
  · rw [← safe_iff]
    constructor
    · rintro ⟨s, hText⟩
      exact (canonical_eq_ok_iff.mp hText).1
    · intro hSafe
      exact ⟨_, canonical_eq_ok_iff.mpr ⟨hSafe, rfl⟩⟩
  · obtain ⟨marks, hMarks, hScan⟩ := Writer.solid_write 0 doc.sorted
    have hOutside := hScan []
    rw [(canonical_eq_ok_iff.mp hText).2]
    rw [List.append_nil, outside, List.append_nil] at hOutside
    rw [hOutside]
    exact hMarks
  · exact ofText?_canonical hDistinct hText
  · obtain ⟨tree, hTree, hSpells⟩ := ofText?_canonical hDistinct hText
    obtain ⟨w, hRead, hAlike⟩ := hSpells.toJson? hDepth
    refine ⟨w, ?_, hAlike.imp fun _ _ hReread => hReread.double⟩
    simp [Json.ofText?, hTree, hRead]
  · intro other hOther hReordered
    rw [← hText, canonical, canonical, sorted_eq_of_reordered hDistinct hOther hReordered]

/-- U+E000 comes before U+10000 as a code point, but after it in UTF-16. -/
theorem canonical_form_surrogate :
    let doc : Json := .object [("\uE000", .null),
      ("𐀀", .array [.bool true, .number (.integer (-7) (by decide))])]
    let text := "\x7b\"𐀀\":[true,-7],\"\uE000\":null\x7d"
    doc.Distinct ∧ doc.depth ≤ Tree.maxLevels ∧ doc.canonical = .ok text.toList ∧
      ∃ w, Json.ofText? text = some w ∧ Same doc w := by
  intro doc text
  have hDistinct : doc.Distinct := by
    simp [doc, distinct_object_iff, distinct_array_iff, or_imp, forall_and]
  have hDepth : doc.depth ≤ Tree.maxLevels := by decide
  have hText : doc.canonical = .ok text.toList := by decide +kernel
  obtain ⟨w, hRead, hSame⟩ := ((canonical_form hDistinct hDepth).2 _ hText).2.2.1
  rw [String.ofList_toList] at hRead
  exact ⟨hDistinct, hDepth, hText, w, hRead, hSame⟩

end Json

end LedgerSigning
