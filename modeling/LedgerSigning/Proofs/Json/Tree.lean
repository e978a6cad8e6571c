import LedgerSigning.Json.Reader
import LedgerSigning.Proofs.Json.Document
import LedgerSigning.Proofs.Json.Members

/-! Trees as documents. A document that a tree stands for repeats no key and is nested no
deeper than the levels that were allowed. -/
namespace LedgerSigning

namespace Tree

variable {levels : Nat}

theorem itemsToJson?_eq_some_iff {items : List Tree} {values : List Json} :
    toJson?.itemsToJson? levels items = some values ↔
      List.Forall₂ (fun item value => item.toJson? levels = some value) items values := by
  induction items generalizing values with
  | nil => simp [toJson?.itemsToJson?, eq_comm]
  | cons item rest ih =>
      simp only [toJson?.itemsToJson?, Option.bind_eq_bind, Option.bind_eq_some_iff,
        Option.some.injEq, List.forall₂_cons_left_iff, ih]
      constructor
      · rintro ⟨value, hItem, others, hRest, rfl⟩
        exact ⟨value, others, hItem, hRest, rfl⟩
      · rintro ⟨value, others, hItem, hRest, rfl⟩
        exact ⟨value, hItem, others, hRest, rfl⟩

/-- A key is read if its text is one, and its value if it stands for a document. -/
def IsMember (levels : Nat) (m : Option String × Tree) (value : String × Json) : Prop :=
  m.1 = some value.1 ∧ m.2.toJson? levels = some value.2

theorem membersToJson?_eq_some_iff {members : List (Option String × Tree)}
    {values : List (String × Json)} : toJson?.membersToJson? levels members = some values ↔
      List.Forall₂ (IsMember levels) members values := by
  induction members generalizing values with
  | nil => simp [toJson?.membersToJson?, eq_comm]
  | cons m rest ih =>
      obtain ⟨key, item⟩ := m
      simp only [toJson?.membersToJson?, Option.bind_eq_bind, Option.bind_eq_some_iff,
        Option.some.injEq, List.forall₂_cons_left_iff, ih]
      constructor
      · rintro ⟨k, hKey, value, hItem, others, hRest, rfl⟩
        exact ⟨(k, value), others, ⟨hKey, hItem⟩, hRest, rfl⟩
      · rintro ⟨⟨k, value⟩, others, ⟨hKey, hItem⟩, hRest, rfl⟩
        exact ⟨k, hKey, value, hItem, others, hRest, rfl⟩

theorem toJson?_array_eq_some_iff {items : List Tree} {doc : Json} :
    (Tree.array items).toJson? (levels + 1) = some doc ↔ ∃ values, doc = .array values ∧
      List.Forall₂ (fun item value => item.toJson? levels = some value) items values := by
  simp only [toJson?, Option.map_eq_some_iff, itemsToJson?_eq_some_iff]
  constructor
  · rintro ⟨values, hValues, rfl⟩
    exact ⟨values, rfl, hValues⟩
  · rintro ⟨values, rfl, hValues⟩
    exact ⟨values, hValues, rfl⟩

theorem toJson?_object_eq_some_iff {members : List (Option String × Tree)} {doc : Json} :
    (Tree.object members).toJson? (levels + 1) = some doc ↔
      ∃ values, doc = .object (Members.ofList values) ∧
        List.Forall₂ (IsMember levels) members values := by
  simp only [toJson?, Option.map_eq_some_iff, membersToJson?_eq_some_iff]
  constructor
  · rintro ⟨values, hValues, rfl⟩
    exact ⟨values, rfl, hValues⟩
  · rintro ⟨values, rfl, hValues⟩
    exact ⟨values, hValues, rfl⟩

end Tree

/-- What is related to a list item by item contains a counterpart of each item. -/
theorem exists_of_forall₂ {α β : Type} {R : α → β → Prop} {l : List α} {l' : List β}
    (h : List.Forall₂ R l l') {b : β} (hb : b ∈ l') : ∃ a ∈ l, R a b := by
  induction h with
  | nil => cases hb
  | cons hFirst hRest ih =>
      rcases List.mem_cons.mp hb with rfl | hb
      · exact ⟨_, List.mem_cons_self, hFirst⟩
      · obtain ⟨a, ha, hRelated⟩ := ih hb
        exact ⟨a, List.mem_cons_of_mem _ ha, hRelated⟩

theorem exists_forall₂ {α β : Type} {R : α → β → Prop} {l : List α}
    (h : ∀ a ∈ l, ∃ b, R a b) : ∃ l', List.Forall₂ R l l' := by
  induction l with
  | nil => exact ⟨[], .nil⟩
  | cons a l ih =>
      obtain ⟨b, hFirst⟩ := h a (by simp)
      obtain ⟨l', hRest⟩ := ih fun a ha => h a (List.mem_cons_of_mem _ ha)
      exact ⟨b :: l', .cons hFirst hRest⟩

/-- Elements that have common relatives, pair by pair, have a list of them. -/
theorem exists_forall₂_of_exists {α β γ : Type} {R : α → γ → Prop} {S : β → γ → Prop}
    {l : List α} {l' : List β} (h : List.Forall₂ (fun a b => ∃ c, R a c ∧ S b c) l l') :
    ∃ k, List.Forall₂ R l k ∧ List.Forall₂ S l' k := by
  induction h with
  | nil => exact ⟨[], .nil, .nil⟩
  | cons hFirst _ ih =>
      obtain ⟨c, hR, hS⟩ := hFirst
      obtain ⟨k, hRs, hSs⟩ := ih
      exact ⟨c :: k, .cons hR hRs, .cons hS hSs⟩

namespace Tree

/-- An object with texts as keys, none of them repeated, stands for the object of its members. -/
theorem toJson?_named {named : List (String × Tree)} (hKeys : (named.map Prod.fst).Nodup)
    (hRead : ∀ key tree, (key, tree) ∈ named → ∃ w, tree.toJson? levels = some w) :
    ∃ members, (Tree.object (named.map fun m => (some m.1, m.2))).toJson? (levels + 1) =
        some (.object members) ∧ (∀ key, key ∈ members.map Prod.fst ↔ key ∈ named.map Prod.fst) ∧
      ∀ key w, (key, w) ∈ members → ∃ tree, (key, tree) ∈ named ∧ tree.toJson? levels = some w := by
  have hMember : ∀ m ∈ named, ∃ value : String × Json,
      m.1 = value.1 ∧ m.2.toJson? levels = some value.2 := by
    rintro ⟨key, tree⟩ hMem
    obtain ⟨w, hw⟩ := hRead key tree hMem
    exact ⟨(key, w), rfl, hw⟩
  obtain ⟨values, hValues⟩ := exists_forall₂ hMember
  have hFirst : values.map Prod.fst = named.map Prod.fst := by
    rw [← List.forall₂_eq_eq_eq, List.forall₂_map_left_iff, List.forall₂_map_right_iff]
    exact hValues.flip.imp fun value m hEq => hEq.1.symm
  have hPerm : (Members.ofList values).Perm values := Members.ofList_perm (hFirst ▸ hKeys)
  refine ⟨_, toJson?_object_eq_some_iff.mpr ⟨values, rfl, ?_⟩, fun key => ?_, ?_⟩
  · rw [List.forall₂_map_left_iff]
    exact hValues.imp fun m value hEq => ⟨congrArg some hEq.1, hEq.2⟩
  · rw [(hPerm.map Prod.fst).mem_iff, hFirst]
  · intro key w hMem
    obtain ⟨⟨k, tree⟩, hNamed, hEq, hTree⟩ := exists_of_forall₂ hValues (hPerm.mem_iff.mp hMem)
    cases hEq
    exact ⟨tree, hNamed, hTree⟩

/-- Trees other than arrays and objects stand for documents without parts. -/
theorem toJson?_leaf {tree : Tree} {doc : Json} (hArray : ∀ items, tree ≠ .array items)
    (hObject : ∀ members, tree ≠ .object members) (h : tree.toJson? levels = some doc) :
    doc.Distinct ∧ doc.depth ≤ levels := by
  cases tree with
  | null => cases h; exact ⟨Json.distinct_null, Nat.zero_le _⟩
  | bool b => cases h; exact ⟨Json.distinct_bool b, Nat.zero_le _⟩
  | integer negative magnitude =>
      obtain ⟨n, -, rfl⟩ := Option.map_eq_some_iff.mp h
      exact ⟨Json.distinct_number n, Nat.zero_le _⟩
  | decimal negative significand exponent =>
      obtain ⟨n, -, rfl⟩ := Option.map_eq_some_iff.mp h
      exact ⟨Json.distinct_number n, Nat.zero_le _⟩
  | string text =>
      obtain ⟨s, -, rfl⟩ := Option.map_eq_some_iff.mp h
      exact ⟨Json.distinct_string s, Nat.zero_le _⟩
  | array items => exact absurd rfl (hArray items)
  | object members => exact absurd rfl (hObject members)

/-- A document that is read repeats no key, because the last value of a key replaces those
before it, and each array or object takes one of the levels. -/
theorem toJson?_wellFormed {tree : Tree} {doc : Json} (h : tree.toJson? levels = some doc) :
    doc.Distinct ∧ doc.depth ≤ levels := by
  induction levels generalizing tree doc with
  | zero =>
      apply toJson?_leaf _ _ h
      · rintro items rfl
        cases h
      · rintro members rfl
        cases h
  | succ levels ih =>
      by_cases hArray : ∃ items, tree = .array items
      · obtain ⟨items, rfl⟩ := hArray
        obtain ⟨values, rfl, hValues⟩ := toJson?_array_eq_some_iff.mp h
        have hAll : ∀ value ∈ values, value.Distinct ∧ value.depth ≤ levels := by
          intro value hMem
          obtain ⟨item, -, hRead⟩ := exists_of_forall₂ hValues hMem
          exact ih hRead
        refine ⟨Json.distinct_array_iff.mpr fun value hMem => (hAll value hMem).1, ?_⟩
        exact Nat.succ_le_succ (Json.itemDepth_le_iff.mpr fun value hMem => (hAll value hMem).2)
      by_cases hObject : ∃ members, tree = .object members
      · obtain ⟨members, rfl⟩ := hObject
        obtain ⟨values, rfl, hValues⟩ := toJson?_object_eq_some_iff.mp h
        have hAll : ∀ key value, (key, value) ∈ Members.ofList values →
            value.Distinct ∧ value.depth ≤ levels := by
          intro key value hMem
          obtain ⟨m, -, -, hRead⟩ := exists_of_forall₂ hValues (Members.mem_of_mem_ofList hMem)
          exact ih hRead
        refine ⟨Json.distinct_object_iff.mpr ⟨Members.ofList_nodup values,
          fun key value hMem => (hAll key value hMem).1⟩, ?_⟩
        exact Nat.succ_le_succ (Json.memberDepth_le_iff.mpr fun key value hMem =>
          (hAll key value hMem).2)
      · exact toJson?_leaf (fun items hEq => hArray ⟨items, hEq⟩)
          (fun members hEq => hObject ⟨members, hEq⟩) h

end Tree

end LedgerSigning
