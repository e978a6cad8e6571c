import LedgerSigning.Proofs.Outcome
import Mathlib.Data.List.Basic

/-! Runs whose steps are reordered. Steps that are not related may change places: where any two of them
that follow each other can be swapped, every order that keeps that of related steps leads to the same
state. -/
namespace LedgerSigning

variable {α σ ε : Type} {related : α → α → Prop} {xs ys : List α}

/-- The same elements in an order in which related ones follow each other as before. They are taken
with their positions, which tell equal elements apart. -/
def Reordered (related : α → α → Prop) (xs ys : List α) : Prop :=
  ∃ placed : List (α × Nat), placed.Perm xs.zipIdx ∧ placed.map Prod.fst = ys ∧
    placed.Pairwise fun x y => related x.1 y.1 → x.2 < y.2

section Run

variable {f : σ → α → Except ε σ}

/-- Two steps that follow each other may change places unless they are related. -/
def Swaps (related : α → α → Prop) (f : σ → α → Except ε σ) : Prop :=
  ∀ {x y : α} {s t u : σ}, ¬related y x → f s x = .ok t → f t y = .ok u →
    ∃ v, f s y = .ok v ∧ f v x = .ok u

/-- The first step may come behind others that it is not related to. -/
theorem Swaps.foldlM_append (hSwaps : Swaps related f) {x : α} {before after : List α}
    (hApart : ∀ y ∈ before, ¬related y x) {s u : σ}
    (hRun : (x :: (before ++ after)).foldlM f s = .ok u) :
    (before ++ x :: after).foldlM f s = .ok u := by
  induction before generalizing s with
  | nil => exact hRun
  | cons y before ih =>
      obtain ⟨hFirst, hOthers⟩ := List.forall_mem_cons.mp hApart
      obtain ⟨t, hx, hRest⟩ := Except.bind_eq_ok_iff.mp hRun
      obtain ⟨v, hy, hRest⟩ := Except.bind_eq_ok_iff.mp hRest
      obtain ⟨w, hy', hx'⟩ := hSwaps hFirst hx hy
      exact Except.bind_eq_ok_iff.mpr
        ⟨w, hy', ih hOthers (Except.bind_eq_ok_iff.mpr ⟨v, hx', hRest⟩)⟩

/-- By induction on the steps in their first order: the first of them is moved to its new place, and
what then stands before it came behind it and is not related to it. -/
theorem Swaps.foldlM_placed (hSwaps : Swaps related f) {k : Nat} {placed : List (α × Nat)}
    (hPerm : placed.Perm (xs.zipIdx k))
    (hOrder : placed.Pairwise fun x y => related x.1 y.1 → x.2 < y.2) {s u : σ}
    (hRun : xs.foldlM f s = .ok u) : (placed.map Prod.fst).foldlM f s = .ok u := by
  induction xs generalizing k placed s with
  | nil =>
      rw [List.zipIdx_nil, List.perm_nil] at hPerm
      rw [hPerm]
      exact hRun
  | cons x xs ih =>
      rw [List.zipIdx_cons] at hPerm
      have hMem : (x, k) ∈ placed := hPerm.mem_iff.mpr List.mem_cons_self
      obtain ⟨before, after, rfl⟩ := List.append_of_mem hMem
      have hRest : (before ++ after).Perm (xs.zipIdx (k + 1)) :=
        (List.perm_middle.symm.trans hPerm).cons_inv
      have hApart : ∀ y ∈ before.map Prod.fst, ¬related y x := by
        intro y hy hRelated
        obtain ⟨⟨y, j⟩, hj, rfl⟩ := List.mem_map.mp hy
        have hEarlier : j < k :=
          (List.pairwise_append.mp hOrder).2.2 (y, j) hj (x, k) List.mem_cons_self hRelated
        have hLater := List.le_snd_of_mem_zipIdx (hRest.mem_iff.mp (List.mem_append_left _ hj))
        simp only at hLater
        omega
      have hSublist : (before ++ after).Sublist (before ++ (x, k) :: after) :=
        (List.sublist_cons_self _ _).append_left before
      obtain ⟨t, hx, hOthers⟩ := Except.bind_eq_ok_iff.mp hRun
      have hAll := ih hRest (hOrder.sublist hSublist) hOthers
      rw [List.map_append] at hAll
      rw [List.map_append, List.map_cons]
      exact hSwaps.foldlM_append hApart (Except.bind_eq_ok_iff.mpr ⟨t, hx, hAll⟩)

theorem Swaps.foldlM_reordered (hSwaps : Swaps related f) (h : Reordered related xs ys) {s u : σ}
    (hRun : xs.foldlM f s = .ok u) : ys.foldlM f s = .ok u := by
  obtain ⟨placed, hPerm, rfl, hOrder⟩ := h
  exact hSwaps.foldlM_placed hPerm hOrder hRun

end Run

end LedgerSigning
