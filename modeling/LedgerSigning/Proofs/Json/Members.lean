import LedgerSigning.Json.Members
import Mathlib.Data.List.Perm.Basic
import Mathlib.Data.String.Basic

/-! Members sorted by key. Whatever list they come from, no key is repeated; and if the list
repeats none, its members are only put in order. -/
namespace LedgerSigning

namespace Members

variable {α : Type}

theorem mem_keys_insert {key k : String} {value : α} {members : List (String × α)} :
    k ∈ (insert key value members).map Prod.fst ↔ k = key ∨ k ∈ members.map Prod.fst := by
  induction members with
  | nil => simp [insert]
  | cons m rest ih =>
      obtain ⟨first, v⟩ := m
      unfold insert
      split_ifs with hEq hLess
      · subst hEq
        simp
      · simp
      · rw [List.map_cons, List.mem_cons, ih, List.map_cons, List.mem_cons]
        exact or_left_comm

/-- Inserting keeps the keys in strictly increasing order. -/
theorem insert_sorted {key : String} {value : α} {members : List (String × α)}
    (hSorted : (members.map Prod.fst).Pairwise (· < ·)) :
    ((insert key value members).map Prod.fst).Pairwise (· < ·) := by
  induction members with
  | nil => exact List.pairwise_singleton _ _
  | cons m rest ih =>
      obtain ⟨first, v⟩ := m
      obtain ⟨hFirst, hRest⟩ := List.pairwise_cons.mp hSorted
      unfold insert
      split_ifs with hEq hLess
      · subst hEq
        exact hSorted
      · refine List.pairwise_cons.mpr ⟨fun k hk => ?_, hSorted⟩
        rcases List.mem_cons.mp hk with rfl | hk
        · exact hLess
        · exact lt_trans hLess (hFirst k hk)
      · refine List.pairwise_cons.mpr ⟨fun k hk => ?_, ih hRest⟩
        rcases mem_keys_insert.mp hk with rfl | hk
        · exact lt_of_le_of_ne (not_lt.mp hLess) (Ne.symm hEq)
        · exact hFirst k hk

/-- A new key is added to the members that are there. -/
theorem insert_perm {key : String} {value : α} {members : List (String × α)}
    (hNew : key ∉ members.map Prod.fst) :
    (insert key value members).Perm ((key, value) :: members) := by
  induction members with
  | nil => exact .refl _
  | cons m rest ih =>
      obtain ⟨first, v⟩ := m
      rw [List.map_cons, List.mem_cons, not_or] at hNew
      unfold insert
      split_ifs with hEq hLess
      · exact absurd hEq hNew.1
      · exact .refl _
      · exact ((ih hNew.2).cons _).trans (.swap _ _ _)

theorem extend_sorted {members : List (String × α)} (more : List (String × α))
    (hSorted : (members.map Prod.fst).Pairwise (· < ·)) :
    ((extend members more).map Prod.fst).Pairwise (· < ·) := by
  induction more generalizing members with
  | nil => exact hSorted
  | cons m more ih => exact ih (insert_sorted hSorted)

theorem extend_perm {members more : List (String × α)} (hMore : (more.map Prod.fst).Nodup)
    (hNew : ∀ key ∈ more.map Prod.fst, key ∉ members.map Prod.fst) :
    (extend members more).Perm (members ++ more) := by
  induction more generalizing members with
  | nil =>
      rw [List.append_nil]
      exact .refl _
  | cons m more ih =>
      obtain ⟨hFirst, hRest⟩ := List.nodup_cons.mp hMore
      have hInsert : (insert m.1 m.2 members).Perm (m :: members) :=
        insert_perm (hNew m.1 (by simp))
      refine (@ih (insert m.1 m.2 members) hRest fun key hKey => ?_).trans ?_
      · rw [mem_keys_insert, not_or]
        refine ⟨?_, hNew key (by simp [List.mem_cons.mpr (.inr hKey)])⟩
        rintro rfl
        exact hFirst hKey
      · exact (hInsert.append_right more).trans List.perm_middle.symm

theorem ofList_sorted (members : List (String × α)) :
    ((ofList members).map Prod.fst).Pairwise (· < ·) :=
  extend_sorted members List.Pairwise.nil

theorem ofList_nodup (members : List (String × α)) : ((ofList members).map Prod.fst).Nodup :=
  (ofList_sorted members).imp fun hLess => ne_of_lt hLess

/-- A list that repeats no key is put in order. -/
theorem ofList_perm {members : List (String × α)} (hKeys : (members.map Prod.fst).Nodup) :
    (ofList members).Perm members :=
  extend_perm hKeys (by simp)

/-- Every member comes from the list. -/
theorem mem_of_mem_insert {key : String} {value : α} {members : List (String × α)}
    {m : String × α} (hMem : m ∈ insert key value members) : m = (key, value) ∨ m ∈ members := by
  induction members with
  | nil => exact .inl (by simpa [insert] using hMem)
  | cons first rest ih =>
      obtain ⟨k, v⟩ := first
      unfold insert at hMem
      split_ifs at hMem
      · rcases List.mem_cons.mp hMem with hEq | hMem
        · exact .inl hEq
        · exact .inr (List.mem_cons_of_mem _ hMem)
      · rcases List.mem_cons.mp hMem with hEq | hMem
        · exact .inl hEq
        · exact .inr hMem
      · rcases List.mem_cons.mp hMem with hEq | hMem
        · exact .inr (hEq ▸ List.mem_cons_self)
        · exact (ih hMem).imp_right (List.mem_cons_of_mem _)

theorem mem_of_mem_extend {members more : List (String × α)} {m : String × α}
    (hMem : m ∈ extend members more) : m ∈ members ∨ m ∈ more := by
  induction more generalizing members with
  | nil => exact .inl hMem
  | cons first more ih =>
      rcases @ih (insert first.1 first.2 members) hMem with hOld | hMore
      · rcases mem_of_mem_insert hOld with hEq | hOld
        · exact .inr (hEq ▸ List.mem_cons_self)
        · exact .inl hOld
      · exact .inr (List.mem_cons_of_mem _ hMore)

theorem mem_of_mem_ofList {members : List (String × α)} {m : String × α}
    (hMem : m ∈ ofList members) : m ∈ members :=
  (mem_of_mem_extend hMem).resolve_left (by simp)

end Members

end LedgerSigning
