import LedgerSigning.Json.Value
import LedgerSigning.Proofs.Json.Members

/-! Places in documents. A path of keys leads through nested objects, and members that are inserted
are found at their key without any other member being lost. -/
namespace LedgerSigning

namespace Members

variable {α : Type}

theorem find?_cons (key k : String) (value : α) (rest : List (String × α)) :
    find? key ((k, value) :: rest) = if k = key then some value else find? key rest := by
  by_cases hKey : k = key <;> simp [find?, hKey]

theorem find?_eq_none_iff {key : String} {members : List (String × α)} :
    find? key members = none ↔ key ∉ members.map Prod.fst := by
  rw [find?, Option.map_eq_none_iff, List.find?_eq_none]
  simp only [List.mem_map, decide_eq_true_eq, not_exists, not_and]

theorem find?_insert (key k : String) (value : α) (members : List (String × α)) :
    find? k (insert key value members) = if key = k then some value else find? k members := by
  induction members with
  | nil => exact find?_cons k key value []
  | cons m rest ih =>
      obtain ⟨first, v⟩ := m
      rw [insert, find?_cons]
      by_cases hEq : key = first
      · subst hEq
        rw [if_pos rfl, find?_cons]
        by_cases hKey : key = k <;> simp [hKey]
      rw [if_neg hEq]
      by_cases hLess : key < first
      · rw [if_pos hLess, find?_cons, find?_cons]
      · rw [if_neg hLess, find?_cons, ih]
        by_cases hKey : first = k
        · subst hKey
          rw [if_pos rfl, if_neg hEq, if_pos rfl]
        · rw [if_neg hKey, if_neg hKey]

/-- The value that was set last for a key stays. -/
theorem insert_insert (key : String) (value old : α) (members : List (String × α)) :
    insert key value (insert key old members) = insert key value members := by
  induction members with
  | nil => simp [insert]
  | cons m rest ih =>
      obtain ⟨first, v⟩ := m
      rw [insert]
      split_ifs with hEq hLess
      · subst hEq
        simp [insert]
      · simp [insert, hEq, hLess]
      · simp [insert, hEq, hLess, ih]

theorem insert_comm {key other : String} (hKey : key ≠ other) (value more : α)
    (members : List (String × α)) :
    insert key value (insert other more members) = insert other more (insert key value members) := by
  induction members with
  | nil =>
      rcases lt_or_gt_of_ne hKey with hLess | hLess
      · simp [insert, hKey, hKey.symm, hLess, hLess.asymm]
      · simp [insert, hKey, hKey.symm, hLess, hLess.asymm]
  | cons m rest ih =>
      obtain ⟨first, v⟩ := m
      -- Each of the two keys goes before the first member, at it, or into the rest.
      simp only [insert]
      grind [insert]

/-- Setting the value that a key has already changes nothing. -/
theorem insert_self {key : String} {value : α} {members : List (String × α)}
    (hSorted : (members.map Prod.fst).Pairwise (· < ·)) (h : find? key members = some value) :
    insert key value members = members := by
  induction members with
  | nil => cases h
  | cons m rest ih =>
      obtain ⟨first, v⟩ := m
      obtain ⟨hFirst, hRest⟩ := List.pairwise_cons.mp hSorted
      rw [find?_cons] at h
      split_ifs at h with hEq
      · cases h
        rw [insert, if_pos hEq.symm, hEq]
      · have hMem : key ∈ rest.map Prod.fst := by
          by_contra hNone
          rw [find?_eq_none_iff.mpr hNone] at h
          cases h
        rw [insert, if_neg (Ne.symm hEq), if_neg (hFirst key hMem).asymm, ih hRest h]

/-- Members that are laid over others are found, and the others where there is none of them. -/
theorem find?_extend {members more : List (String × α)} (hMore : (more.map Prod.fst).Nodup)
    (key : String) : find? key (extend members more) = (find? key more).or (find? key members) := by
  induction more generalizing members with
  | nil => rfl
  | cons m more ih =>
      obtain ⟨k, v⟩ := m
      obtain ⟨hFirst, hRest⟩ := List.nodup_cons.mp hMore
      have hExtend := @ih (insert k v members) hRest
      rw [find?_insert] at hExtend
      have hStep : extend members ((k, v) :: more) = extend (insert k v members) more := rfl
      rw [find?_cons, hStep, hExtend]
      by_cases hKey : k = key
      · have hNone : find? key more = none := by
          exact hKey ▸ find?_eq_none_iff.mpr hFirst
        rw [hNone, if_pos hKey, if_pos hKey]
        rfl
      · rw [if_neg hKey, if_neg hKey]

end Members

/-- One of two paths leads through the place that the other leads to. -/
def Comparable (p q : List String) : Prop := p <+: q ∨ q <+: p

theorem comparable_cons {k l : String} {p q : List String} :
    Comparable (k :: p) (l :: q) ↔ k = l ∧ Comparable p q := by
  simp only [Comparable, List.cons_prefix_cons, eq_comm (a := l)]
  exact and_or_left.symm

theorem comparable_nil (p : List String) : Comparable p [] := .inr p.nil_prefix

namespace Json

/-- What stands at a path of keys. -/
def get? : List String → Json → Option Json
  | [], doc => some doc
  | key :: path, .object members => (Members.find? key members).bind (get? path)
  | _ :: _, _ => none

theorem get?_object (key : String) (path : List String) (members : List (String × Json)) :
    get? (key :: path) (.object members) = (Members.find? key members).bind (get? path) := rfl

/-- A path leads on from where its start leads. -/
theorem get?_append (path more : List String) (doc : Json) :
    get? (path ++ more) doc = (get? path doc).bind (get? more) := by
  induction path generalizing doc with
  | nil => rfl
  | cons key path ih =>
      cases doc with
      | object members =>
          rw [List.cons_append, get?_object, get?_object, Option.bind_assoc]
          exact congrArg (Members.find? key members).bind (funext ih)
      | _ => rfl

end Json

end LedgerSigning
