import LedgerSigning.Cli.Script
import LedgerSigning.Proofs.Cli.Files

/-! Scripts that run one after the other, and what they do to the files. Whatever may fail comes
before the one write, but for the last step of that write, which sets the mode of the file. So a
script that fails has changed no file, unless it is this step that failed. -/
namespace LedgerSigning

namespace Script

variable {α β : Type} {script : Script α} {f : α → Script β} {world after last : World}

theorem bind_done (script : Script α) : script.bind .done = script := by
  induction script with
  | done value => rfl
  | fail failure => rfl
  | readFile path next ih => exact congrArg (readFile path) (funext ih)
  | isFile path next ih => exact congrArg (isFile path) (funext ih)
  | writeFile path bytes next ih => exact congrArg (writeFile path bytes) (funext ih)
  | setMode path mode next ih => exact congrArg (setMode path mode) (funext ih)
  | print channel line next ih => exact congrArg (print channel line) ih
  | random count next ih => exact congrArg (random count) (funext ih)

theorem bind_assoc {γ : Type} (script : Script α) (f : α → Script β) (g : β → Script γ) :
    (script.bind f).bind g = script.bind fun value => (f value).bind g := by
  induction script with
  | done value => rfl
  | fail failure => rfl
  | readFile path next ih => exact congrArg (readFile path) (funext ih)
  | isFile path next ih => exact congrArg (isFile path) (funext ih)
  | writeFile path bytes next ih => exact congrArg (writeFile path bytes) (funext ih)
  | setMode path mode next ih => exact congrArg (setMode path mode) (funext ih)
  | print channel line next ih => exact congrArg (print channel line) ih
  | random count next ih => exact congrArg (random count) (funext ih)

instance : LawfulMonad Script := LawfulMonad.mk' Script bind_done (fun _ _ => rfl) bind_assoc

/-- A script in sequence goes on in the world that the first one leaves. -/
theorem run_bind (script : Script α) (f : α → Script β) (world : World) :
    (script >>= f).run world = match script.run world with
      | (.ok value, after) => (f value).run after
      | (.error failure, after) => (.error failure, after) := by
  change (script.bind f).run world = _
  induction script generalizing world with
  | done value => rfl
  | fail failure => rfl
  | readFile path next ih => exact ih _ world
  | isFile path next ih => exact ih _ world
  | writeFile path bytes next ih =>
      rw [Script.bind, run, run]
      cases world.files.write path bytes with
      | ok files => exact ih _ _
      | error cause => exact ih _ _
  | setMode path mode next ih =>
      rw [Script.bind, run, run]
      cases world.files.setMode path mode with
      | ok files => exact ih _ _
      | error cause => exact ih _ _
  | print channel line next ih => exact ih _
  | random count next ih => exact ih _ _

theorem run_bind_eq_ok_iff {value : β} : (script >>= f).run world = (.ok value, last) ↔
    ∃ first after, script.run world = (.ok first, after) ∧
      (f first).run after = (.ok value, last) := by
  rw [run_bind]
  rcases script.run world with ⟨_ | first, after⟩ <;> simp [and_assoc]

theorem run_bind_eq_error_iff {failure : Failure} :
    (script >>= f).run world = (.error failure, last) ↔
      script.run world = (.error failure, last) ∨
      ∃ first after, script.run world = (.ok first, after) ∧
        (f first).run after = (.error failure, last) := by
  rw [run_bind]
  rcases script.run world with ⟨_ | first, after⟩ <;> simp [and_assoc]

theorem run_ofExcept (result : Except Failure α) (world : World) :
    (ofExcept result).run world = (result, world) := by
  cases result <;> rfl

theorem run_attempt_eq_ok_iff {result : Except Error α} {value : α} :
    (attempt result).run world = (.ok value, after) ↔ result = .ok value ∧ world = after := by
  rw [attempt, run_ofExcept, Prod.mk.injEq, Except.mapError_eq_ok_iff]

section Files

variable {target : Option String} {path text : String}

/-- The end of a run that did not fail before its last step: it succeeded, or the mode of the file
it had written could not be set. -/
def Finished : Except Failure α → Prop
  | .ok _ => True
  | .error failure => ∃ cause, failure = .modeUnset cause

theorem finished_iff {result : Except Failure Unit} :
    Finished result ↔ ∃ answer : Except FileError Unit, result = answer.mapError .modeUnset := by
  cases result with
  | ok value => exact ⟨fun _ => ⟨.ok value, rfl⟩, fun _ => trivial⟩
  | error failure =>
      constructor
      · rintro ⟨cause, rfl⟩
        exact ⟨.error cause, rfl⟩
      · rintro ⟨value | cause, hResult⟩
        · exact ⟨value, Except.error.inj hResult⟩
        · cases hResult

theorem finished_mapError (answer : Except FileError Unit) :
    Finished (answer.mapError .modeUnset) := finished_iff.mpr ⟨answer, rfl⟩

/-- The script does not fail at the last step of a write, which sets a mode. -/
def Early (script : Script α) : Prop :=
  ∀ world cause, (script.run world).1 ≠ .error (.modeUnset cause)

/-- The world is the same after the script, which fails early if it fails. -/
structure Still (script : Script α) : Prop where
  early : Early script
  same : ∀ world, (script.run world).2 = world

/-- The files are the same after the script, which fails early if it fails. -/
structure Keeps (script : Script α) : Prop where
  early : Early script
  files : ∀ world, (script.run world).2.files = world.files

/-- The script does not fail, and keeps the files. -/
def Reports (script : Script α) : Prop :=
  ∀ world, ∃ value after, script.run world = (.ok value, after) ∧ after.files = world.files

/-- The script fails, whatever it has done before. -/
def Fails (script : Script α) : Prop :=
  ∀ world, ∃ failure after, script.run world = (.error failure, after)

/-- How a script ends whose target is to be written, and the files after it. -/
inductive Ends (target : Option String) (before : Files) : Except Failure Unit → Files → Prop
  | refused {failure : Failure} (hEarly : ∀ cause, failure ≠ .modeUnset cause) :
      Ends target before (.error failure) before
  | kept (hTarget : target = none) : Ends target before (.ok ()) before
  | stored {path : String} {bytes : List UInt8} {after : Files} {answer : Except FileError Unit}
      (hTarget : target = some path) (hStores : before.Stores path bytes publicMode after answer) :
      Ends target before (answer.mapError .modeUnset) after

/-- The script writes the target, if there is one, and does nothing else to the files. -/
def Writes (target : Option String) (script : Script Unit) : Prop :=
  ∀ world, Ends target world.files (script.run world).1 (script.run world).2.files

section Ends

variable {before after : Files} {result : Except Failure Unit}

theorem Ends.eq_of_not_finished (h : Ends target before result after) (hEarly : ¬Finished result) :
    after = before := by
  cases h with
  | refused => rfl
  | kept => rfl
  | @stored _ _ _ answer => exact absurd (finished_mapError answer) hEarly

theorem Ends.kept_of_finished (h : Ends none before result after) (hFinished : Finished result) :
    result = .ok () ∧ after = before := by
  cases h with
  | refused hEarly =>
      obtain ⟨cause, hLate⟩ := hFinished
      exact absurd hLate (hEarly cause)
  | kept => exact ⟨rfl, rfl⟩
  | stored hTarget => cases hTarget

theorem Ends.stored_of_finished (h : Ends (some path) before result after)
    (hFinished : Finished result) : ∃ bytes answer,
      before.Stores path bytes publicMode after answer ∧ result = answer.mapError .modeUnset := by
  cases h with
  | refused hEarly =>
      obtain ⟨cause, hLate⟩ := hFinished
      exact absurd hLate (hEarly cause)
  | kept hTarget => cases hTarget
  | stored hTarget hStores =>
      cases hTarget
      exact ⟨_, _, hStores, rfl⟩

end Ends

theorem Early.bind (h : Early script) (h' : ∀ value, Early (f value)) : Early (script >>= f) := by
  intro world cause
  have hFirst := h world cause
  rw [run_bind]
  generalize script.run world = outcome at hFirst
  rcases outcome with ⟨failure | value, after⟩
  · simpa using hFirst
  · exact h' value after cause

theorem still_done (value : α) : Still (.done value) := ⟨fun _ _ => nofun, fun _ => rfl⟩

theorem still_fail {failure : Failure} (h : ∀ cause, failure ≠ .modeUnset cause) :
    Still (.fail failure : Script α) :=
  ⟨fun _ cause hLate => h cause (Except.error.inj hLate), fun _ => rfl⟩

theorem still_ofExcept {result : Except Failure α}
    (h : ∀ cause, result ≠ .error (.modeUnset cause)) : Still (ofExcept result) where
  early world cause := by
    rw [run_ofExcept]
    exact h cause
  same world := congrArg Prod.snd (run_ofExcept result world)

theorem still_mapError {ε : Type} {onError : ε → Failure}
    (h : ∀ fault cause, onError fault ≠ .modeUnset cause) (result : Except ε α) :
    Still (ofExcept (result.mapError onError)) := by
  refine still_ofExcept fun cause hLate => ?_
  obtain ⟨fault, -, hCause⟩ := Except.mapError_eq_error_iff.mp hLate
  exact h fault cause hCause.symm

theorem still_attempt (result : Except Error α) : Still (attempt result) := still_mapError nofun _

theorem still_readFile {next : Except FileError (List UInt8) → Script α}
    (h : ∀ answer, Still (next answer)) (path : String) : Still (.readFile path next) :=
  ⟨fun world => (h _).early world, fun world => (h _).same world⟩

theorem still_isFile {next : Bool → Script α} (h : ∀ answer, Still (next answer)) (path : String) :
    Still (.isFile path next) :=
  ⟨fun world => (h _).early world, fun world => (h _).same world⟩

theorem still_readText {onError : FileError → Failure}
    (h : ∀ fault cause, onError fault ≠ .modeUnset cause) (path : String) :
    Still (readText path onError) := by
  refine still_readFile (fun answer => ?_) path
  cases answer with
  | error fault => exact still_fail (h fault)
  | ok bytes =>
      dsimp only
      cases Utf8.decode bytes with
      | ok chars => exact still_done _
      | error _ => exact still_fail (h .notText)

theorem Still.bind (h : Still script) (h' : ∀ value, Still (f value)) : Still (script >>= f) := by
  refine ⟨h.early.bind fun value => (h' value).early, fun world => ?_⟩
  have hFirst := h.same world
  rw [run_bind]
  generalize script.run world = outcome at hFirst
  rcases outcome with ⟨failure | value, after⟩
  · exact hFirst
  · exact ((h' value).same after).trans hFirst

/-- What comes after a script that leaves the world starts in the same world, and decides whether
the run is finished. -/
theorem Still.run_bind_eq_iff (h : Still script) {result : Except Failure β}
    (hFinished : Finished result) : (script >>= f).run world = (result, last) ↔
      ∃ first, script.run world = (.ok first, world) ∧ (f first).run world = (result, last) := by
  have hSame := h.same world
  have hEarly := h.early world
  rw [run_bind]
  generalize script.run world = outcome at hSame hEarly
  obtain ⟨failure | first, after⟩ := outcome
  · simp only [Prod.mk.injEq, reduceCtorEq, false_and, exists_false, iff_false, not_and]
    rintro rfl
    obtain ⟨cause, rfl⟩ := hFinished
    exact absurd rfl (hEarly cause)
  · obtain rfl : after = world := hSame
    simp

theorem Still.run_bind_eq_ok_iff (h : Still script) {value : β} :
    (script >>= f).run world = (.ok value, last) ↔
      ∃ first, script.run world = (.ok first, world) ∧ (f first).run world = (.ok value, last) :=
  h.run_bind_eq_iff trivial

theorem Still.run_bind_ok_iff (h : Still script) {value : β} :
    ((script >>= f).run world).1 = .ok value ↔
      ∃ first, script.run world = (.ok first, world) ∧ ((f first).run world).1 = .ok value := by
  have hSame := h.same world
  rw [run_bind]
  generalize script.run world = outcome at hSame ⊢
  obtain ⟨failure | first, after⟩ := outcome
  · simp
  · obtain rfl : after = world := hSame
    simp

theorem reports_done (value : α) : Reports (.done value) := fun world => ⟨value, world, rfl, rfl⟩

theorem reports_printLine (line : String) : Reports (printLine line) :=
  fun world => ⟨(), world.print .out line, rfl, rfl⟩

theorem reports_warnLine (line : String) : Reports (warnLine line) :=
  fun world => ⟨(), world.print .err line, rfl, rfl⟩

theorem reports_randomBytes (count : Nat) : Reports (randomBytes count) :=
  fun world => ⟨world.draw count, { world with used := world.used + count }, rfl, rfl⟩

theorem Reports.bind (h : Reports script) (h' : ∀ value, Reports (f value)) :
    Reports (script >>= f) := by
  intro world
  obtain ⟨value, after, hRun, hFiles⟩ := h world
  obtain ⟨other, last, hRest, hLast⟩ := h' value after
  exact ⟨other, last, run_bind_eq_ok_iff.mpr ⟨value, after, hRun, hRest⟩, hLast.trans hFiles⟩

theorem Reports.forM {γ : Type} {step : γ → Script PUnit} (h : ∀ c, Reports (step c)) (l : List γ) :
    Reports (l.forM step) := by
  induction l with
  | nil => exact reports_done _
  | cons c l ih => exact (h c).bind fun _ => ih

theorem Reports.mapM {γ : Type} {step : γ → Script α} (h : ∀ c, Reports (step c)) (l : List γ) :
    Reports (l.mapM step) := by
  induction l with
  | nil => exact reports_done _
  | cons c l ih =>
      rw [List.mapM_cons]
      exact (h c).bind fun _ => ih.bind fun _ => reports_done _

theorem fails_fail (failure : Failure) : Fails (.fail failure : Script α) :=
  fun world => ⟨failure, world, rfl⟩

/-- A script that goes on with one that fails does not succeed. -/
theorem Fails.bind (h : ∀ value, Fails (f value)) : Fails (script >>= f) := by
  intro world
  rw [run_bind]
  rcases script.run world with ⟨failure | value, after⟩
  · exact ⟨failure, after, rfl⟩
  · exact h value after

theorem Still.keeps (h : Still script) : Keeps script :=
  ⟨h.early, fun world => congrArg World.files (h.same world)⟩

theorem Reports.keeps (h : Reports script) : Keeps script := by
  constructor
  · intro world cause
    obtain ⟨value, after, hRun, -⟩ := h world
    rw [hRun]
    nofun
  · intro world
    obtain ⟨value, after, hRun, hFiles⟩ := h world
    rw [hRun, hFiles]

theorem Keeps.bind (h : Keeps script) (h' : ∀ value, Keeps (f value)) : Keeps (script >>= f) := by
  refine ⟨h.early.bind fun value => (h' value).early, fun world => ?_⟩
  have hFirst := h.files world
  rw [run_bind]
  generalize script.run world = outcome at hFirst
  rcases outcome with ⟨failure | value, after⟩
  · exact hFirst
  · exact ((h' value).files after).trans hFirst

/-- What keeps the files may come before a write, and may fail. -/
theorem Keeps.bind_writes {f : α → Script Unit} (h : Keeps script)
    (h' : ∀ value, Writes target (f value)) : Writes target (script >>= f) := by
  intro world
  have hFiles := h.files world
  have hEarly := h.early world
  rw [run_bind]
  generalize script.run world = outcome at hFiles hEarly
  rcases outcome with ⟨failure | value, after⟩
  · rw [← hFiles]
    exact .refused fun cause hLate => hEarly cause (congrArg Except.error hLate)
  · rw [← hFiles]
    exact h' value after

theorem Keeps.writes {script : Script Unit} (h : Keeps script) : Writes none script := by
  have hDone (value : Unit) : Writes none (.done value) := fun _ => .kept rfl
  rw [← bind_pure script]
  exact h.bind_writes hDone

section WriteText

variable {files : Files} {answer : Except FileError Unit} {rest : Unit → Script Unit}

/-- A text that can be written is in its file after the run, whether or not the mode is set. -/
theorem run_writeText_of_stores
    (h : world.files.Stores path (Utf8.encode text.toList) publicMode files answer) :
    (writeText path text).run world = (answer.mapError .modeUnset, { world with files }) := by
  obtain ⟨place, hLeads, hNode, rfl, rfl⟩ := h
  rw [writeText, run, Files.write_eq_ok_iff.mpr ⟨place, hLeads, hNode, rfl⟩]
  dsimp only
  rw [run, Files.setMode_put hLeads hNode, Files.stored]
  cases world.files.unlocked place <;> rfl

/-- A text is not written and the world is left, or it is stored. -/
theorem run_writeText (path text : String) (world : World) :
    (∃ cause, (writeText path text).run world = (.error (.unwritten path cause), world)) ∨
      ∃ files answer,
        world.files.Stores path (Utf8.encode text.toList) publicMode files answer := by
  rw [writeText, run]
  cases hWrite : world.files.write path (Utf8.encode text.toList) with
  | error cause => exact .inl ⟨cause, rfl⟩
  | ok written =>
      obtain ⟨place, hLeads, hNode, -⟩ := Files.write_eq_ok_iff.mp hWrite
      exact .inr ⟨_, _, place, hLeads, hNode, rfl, rfl⟩

/-- A text that is stored before a report. What comes after the write does not fail. -/
theorem run_writeText_bind_of_stores (h : ∀ value, Reports (rest value))
    (hStores : world.files.Stores path (Utf8.encode text.toList) publicMode files answer) :
    ∃ after, (writeText path text >>= rest).run world = (answer.mapError .modeUnset, after) ∧
      after.files = files := by
  rw [run_bind, run_writeText_of_stores hStores]
  cases answer with
  | ok value =>
      obtain ⟨value, last, hRest, hFiles⟩ := h value { world with files }
      exact ⟨last, hRest, hFiles⟩
  | error cause => exact ⟨_, rfl, rfl⟩

theorem run_writeText_bind_iff (h : ∀ value, Reports (rest value)) :
    (∃ after, (writeText path text >>= rest).run world = (answer.mapError .modeUnset, after) ∧
      after.files = files) ↔
      world.files.Stores path (Utf8.encode text.toList) publicMode files answer := by
  refine ⟨?_, run_writeText_bind_of_stores h⟩
  rintro ⟨after, hRun, rfl⟩
  rcases run_writeText path text world with ⟨cause, hFails⟩ | ⟨files, given, hStores⟩
  · rw [run_bind, hFails] at hRun
    cases answer <;> cases hRun
  · obtain ⟨last, hLast, rfl⟩ := run_writeText_bind_of_stores h hStores
    obtain ⟨hAnswer, rfl⟩ := Prod.mk.inj (hLast.symm.trans hRun)
    have hSame : given = answer := by
      cases given <;> cases answer <;> simp_all
    exact hSame ▸ hStores

theorem writes_writeText_bind (h : ∀ value, Reports (rest value)) :
    Writes (some path) (writeText path text >>= rest) := by
  intro world
  rcases run_writeText path text world with ⟨cause, hFails⟩ | ⟨files, answer, hStores⟩
  · rw [run_bind, hFails]
    exact .refused nofun
  · obtain ⟨last, hLast, rfl⟩ := run_writeText_bind_of_stores h hStores
    rw [hLast]
    exact .stored rfl hStores

end WriteText

end Files

end Script

end LedgerSigning
