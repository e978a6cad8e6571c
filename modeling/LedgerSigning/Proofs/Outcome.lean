/-! Outcomes of computations that may be refused: how their steps are taken apart, and what guards in
front of them decide. -/
namespace LedgerSigning

namespace Except

variable {ε η α β : Type}

theorem bind_eq_ok_iff {x : Except ε α} {f : α → Except ε β} {b : β} :
    x >>= f = .ok b ↔ ∃ a, x = .ok a ∧ f a = .ok b := by
  cases x <;> simp [bind, Except.bind]

theorem bind_eq_error_iff {x : Except ε α} {f : α → Except ε β} {cause : ε} :
    x >>= f = .error cause ↔ x = .error cause ∨ ∃ a, x = .ok a ∧ f a = .error cause := by
  cases x <;> simp [bind, Except.bind]

@[simp] theorem mapError_ok (f : ε → η) (a : α) :
    (.ok a : Except ε α).mapError f = .ok a := rfl

@[simp] theorem mapError_error (f : ε → η) (fault : ε) :
    (.error fault : Except ε α).mapError f = .error (f fault) := rfl

theorem mapError_eq_ok_iff {x : Except ε α} {f : ε → η} {a : α} :
    x.mapError f = .ok a ↔ x = .ok a := by
  cases x <;> simp

theorem mapError_eq_error_iff {x : Except ε α} {f : ε → η} {cause : η} :
    x.mapError f = .error cause ↔ ∃ fault, x = .error fault ∧ cause = f fault := by
  cases x <;> simp [eq_comm]

theorem map_eq_ok_iff {x : Except ε α} {f : α → β} {b : β} :
    x.map f = .ok b ↔ ∃ a, x = .ok a ∧ b = f a := by
  cases x <;> simp [Except.map, eq_comm]

theorem map_eq_error_iff {x : Except ε α} {f : α → β} {cause : ε} :
    x.map f = .error cause ↔ x = .error cause := by
  cases x <;> simp [Except.map]

/-- A list is refused for the first of its elements that is. -/
theorem mapM_eq_error_iff {f : α → Except ε β} {xs : List α} {cause : ε} :
    xs.mapM f = .error cause ↔ ∃ before x after, xs = before ++ x :: after ∧
      (∀ y ∈ before, ∃ b, f y = .ok b) ∧ f x = .error cause := by
  induction xs with
  | nil => simp [List.mapM_nil, pure, Except.pure]
  | cons first xs ih =>
      rw [List.mapM_cons, bind_eq_error_iff]
      constructor
      · rintro (hFirst | ⟨b, hFirst, hRest⟩)
        · exact ⟨[], first, xs, rfl, by simp, hFirst⟩
        · rcases bind_eq_error_iff.mp hRest with hRest | ⟨bs, -, hNone⟩
          · obtain ⟨before, x, after, rfl, hBefore, hx⟩ := ih.mp hRest
            exact ⟨first :: before, x, after, rfl,
              List.forall_mem_cons.mpr ⟨⟨b, hFirst⟩, hBefore⟩, hx⟩
          · cases hNone
      · rintro ⟨before, x, after, hSplit, hBefore, hx⟩
        cases before with
        | nil =>
            cases hSplit
            exact .inl hx
        | cons y before =>
            cases hSplit
            obtain ⟨⟨b, hFirst⟩, hBefore⟩ := List.forall_mem_cons.mp hBefore
            exact .inr ⟨b, hFirst, bind_eq_error_iff.mpr
              (.inl (ih.mpr ⟨before, x, after, rfl, hBefore, hx⟩))⟩

/-- A run stops at the first of its steps that is refused. -/
theorem foldlM_eq_error_iff {σ : Type} {f : σ → α → Except ε σ} {s : σ} {xs : List α}
    {cause : ε} : xs.foldlM f s = .error cause ↔ ∃ before x after t, xs = before ++ x :: after ∧
      before.foldlM f s = .ok t ∧ f t x = .error cause := by
  induction xs generalizing s with
  | nil => simp [pure, Except.pure]
  | cons first xs ih =>
      rw [List.foldlM_cons, bind_eq_error_iff]
      constructor
      · rintro (hFirst | ⟨middle, hFirst, hRest⟩)
        · exact ⟨[], first, xs, s, rfl, rfl, hFirst⟩
        · obtain ⟨before, x, after, t, rfl, hBefore, hx⟩ := ih.mp hRest
          exact ⟨first :: before, x, after, t, rfl, bind_eq_ok_iff.mpr ⟨middle, hFirst, hBefore⟩, hx⟩
      · rintro ⟨before, x, after, t, hSplit, hBefore, hx⟩
        cases before with
        | nil =>
            cases hSplit
            cases hBefore
            exact .inl hx
        | cons y before =>
            cases hSplit
            obtain ⟨middle, hFirst, hBefore⟩ := bind_eq_ok_iff.mp hBefore
            exact .inr ⟨middle, hFirst, ih.mpr ⟨before, x, after, t, rfl, hBefore, hx⟩⟩

end Except

/-- A condition, and the cause of refusal where it does not hold. -/
structure Guard (ε : Type) where
  holds : Prop
  cause : ε

/-- A guard whose cause is reported as a cause of another kind. -/
def Guard.wrap {ε η : Type} (f : ε → η) (guard : Guard ε) : Guard η := ⟨guard.holds, f guard.cause⟩

/-- The cause of a guard that fails behind guards that hold. -/
inductive FirstFailing {ε : Type} : List (Guard ε) → ε → Prop
  | here {guard : Guard ε} {guards : List (Guard ε)} (hFails : ¬guard.holds) :
      FirstFailing (guard :: guards) guard.cause
  | later {guard : Guard ε} {guards : List (Guard ε)} {cause : ε} (hHolds : guard.holds)
      (hRest : FirstFailing guards cause) : FirstFailing (guard :: guards) cause

namespace FirstFailing

variable {ε : Type} {guards : List (Guard ε)} {cause : ε}

theorem not_all (h : FirstFailing guards cause) : ¬∀ guard ∈ guards, guard.holds := by
  intro hAll
  induction h with
  | here hFails => exact hFails (hAll _ (by simp))
  | later _ _ ih => exact ih fun guard hMem => hAll guard (by simp [hMem])

theorem exists_or_all (guards : List (Guard ε)) :
    (∃ cause, FirstFailing guards cause) ∨ ∀ guard ∈ guards, guard.holds := by
  induction guards with
  | nil => exact .inr (by simp)
  | cons guard guards ih =>
      by_cases hHolds : guard.holds
      · rcases ih with ⟨cause, hFirst⟩ | hAll
        · exact .inl ⟨cause, .later hHolds hFirst⟩
        · exact .inr (by simpa using ⟨hHolds, hAll⟩)
      · exact .inl ⟨guard.cause, .here hHolds⟩

theorem of_append {more : List (Guard ε)} (h : FirstFailing (guards ++ more) cause) :
    FirstFailing guards cause ∨ (∀ guard ∈ guards, guard.holds) ∧ FirstFailing more cause := by
  induction guards with
  | nil => exact .inr ⟨by simp, h⟩
  | cons guard guards ih =>
      cases h with
      | here hFails => exact .inl (.here hFails)
      | later hHolds hRest =>
          rcases ih hRest with hFirst | ⟨hAll, hMore⟩
          · exact .inl (.later hHolds hFirst)
          · exact .inr ⟨by simpa using ⟨hHolds, hAll⟩, hMore⟩

theorem of_wrap {η : Type} {f : ε → η} {fault : η}
    (h : FirstFailing (guards.map (Guard.wrap f)) fault) :
    ∃ cause, FirstFailing guards cause ∧ fault = f cause := by
  induction guards with
  | nil => cases h
  | cons guard guards ih =>
      cases h with
      | here hFails => exact ⟨guard.cause, .here hFails, rfl⟩
      | later hHolds hRest =>
          obtain ⟨cause, hFirst, rfl⟩ := ih hRest
          exact ⟨cause, .later hHolds hFirst, rfl⟩

end FirstFailing

/-- A computation is refused with the cause of the first guard that fails, and where all hold so does
`passed`. -/
structure Guarded {ε α : Type} (guards : List (Guard ε)) (outcome : Except ε α) (passed : Prop) :
    Prop where
  refused : ∀ cause, FirstFailing guards cause → outcome = .error cause
  passed : (∀ guard ∈ guards, guard.holds) → passed

namespace Guarded

variable {ε α : Type} {guards : List (Guard ε)} {outcome : Except ε α} {passed : Prop}

theorem nil (h : passed) : Guarded [] outcome passed := ⟨by rintro _ ⟨⟩, fun _ => h⟩

theorem cons {holds : Prop} {cause : ε} (hFails : ¬holds → outcome = .error cause)
    (hHolds : holds → Guarded guards outcome passed) :
    Guarded (⟨holds, cause⟩ :: guards) outcome passed := by
  constructor
  · intro cause hFirst
    cases hFirst with
    | here h => exact hFails h
    | later h hRest => exact (hHolds h).refused _ hRest
  · intro hAll
    obtain ⟨h, hRest⟩ := List.forall_mem_cons.mp hAll
    exact (hHolds h).passed hRest

/-- What is not refused has passed its guards. -/
theorem all_of_ok {a : α} (h : Guarded guards outcome passed) (hOk : outcome = .ok a) :
    ∀ guard ∈ guards, guard.holds := by
  rcases FirstFailing.exists_or_all guards with ⟨cause, hFirst⟩ | hAll
  · cases hOk.symm.trans (h.refused cause hFirst)
  · exact hAll

theorem imp {other : Prop} (h : Guarded guards outcome passed) (hImp : passed → other) :
    Guarded guards outcome other := ⟨h.refused, fun hAll => hImp (h.passed hAll)⟩

/-- Guards of a step come before those of what follows it. -/
theorem bind {η β : Type} {f : ε → η} {next : α → Except η β} {more : List (Guard η)}
    (h : Guarded guards outcome (∃ a, outcome = .ok a ∧ Guarded more (next a) passed)) :
    Guarded (guards.map (Guard.wrap f) ++ more) (outcome.mapError f >>= next) passed := by
  constructor
  · intro fault hFirst
    rcases hFirst.of_append with hWrapped | ⟨hAll, hMore⟩
    · obtain ⟨cause, hCause, rfl⟩ := hWrapped.of_wrap
      rw [h.refused cause hCause]
      rfl
    · obtain ⟨a, hOutcome, hNext⟩ := h.passed (by simpa [Guard.wrap] using hAll)
      rw [hOutcome]
      exact hNext.refused fault hMore
  · intro hAll
    obtain ⟨hWrapped, hMore⟩ := List.forall_mem_append.mp hAll
    obtain ⟨a, -, hNext⟩ := h.passed (by simpa [Guard.wrap] using hWrapped)
    exact hNext.passed hMore

end Guarded

end LedgerSigning
