import Mathlib.Data.List.TakeWhile

/-! Texts that are split at the first place where a mark stands. -/
namespace LedgerSigning

namespace Text

variable {mark : Char} {before : List Char}

theorem decide_ne_of_mem (hBefore : mark ∉ before) : ∀ c ∈ before, decide (c ≠ mark) = true := by
  intro c hc
  rw [decide_eq_true_iff]
  rintro rfl
  exact hBefore hc

/-- What stands before the first mark, and the mark with what follows it. -/
theorem split_mark (hBefore : mark ∉ before) (rest : List Char) :
    (before ++ mark :: rest).takeWhile (fun c => decide (c ≠ mark)) = before ∧
      (before ++ mark :: rest).dropWhile (fun c => decide (c ≠ mark)) = mark :: rest := by
  have hOthers := decide_ne_of_mem hBefore
  rw [List.takeWhile_append_of_pos hOthers, List.dropWhile_append_of_pos hOthers]
  simp

theorem dropWhile_of_not_mem (hNone : mark ∉ before) :
    before.dropWhile (fun c => decide (c ≠ mark)) = [] :=
  List.dropWhile_eq_nil_iff.mpr (decide_ne_of_mem hNone)

end Text

end LedgerSigning
