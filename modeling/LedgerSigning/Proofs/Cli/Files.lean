import LedgerSigning.Cli.Files
import LedgerSigning.Proofs.Key
import Mathlib.Data.List.Basic

/-! Files that are written. What was written at a path is read there, its mode can be set unless the
place is locked, the files at all other places stay, and no directory goes away. -/
namespace LedgerSigning

namespace Placed

variable {α : Type}

theorem get?_set (table : Placed α) (place other : List String) (value : α) :
    (table.set place value).get? other =
      if place = other then some value else table.get? other := by
  by_cases hPlace : place = other
  · subst hPlace
    have hNone : (table.filter (·.1 ≠ place)).find? (·.1 = place) = none := by
      rw [List.find?_eq_none]
      intro entry hEntry
      simpa using (List.mem_filter.mp hEntry).2
    rw [get?, set, List.find?_append, hNone, if_pos rfl]
    simp
  · have hSame : (table.filter (·.1 ≠ place)).find? (·.1 = other) =
        table.find? (·.1 = other) := by
      rw [List.find?_filter]
      congr 1
      funext entry
      by_cases hEntry : entry.1 = other <;> simp [hEntry, Ne.symm hPlace]
    rw [get?, set, List.find?_append, hSame, if_neg hPlace, get?]
    simp [hPlace]

end Placed

namespace Files

variable {files after : Files} {path : String} {place other last : List String}
  {bytes : List UInt8} {mode : Nat} {answer : Except FileError Unit}

/-- What is in the file at a place. -/
def content (files : Files) (place : List String) : Option (List UInt8) := files.entries.get? place

/-- The mode that was set at a place, if one was. -/
def mode? (files : Files) (place : List String) : Option Nat := files.modes.get? place

theorem content_put (files : Files) (place other : List String) (bytes : List UInt8) :
    (files.put place bytes).content other =
      if place = other then some bytes else files.content other :=
  Placed.get?_set files.entries place other bytes

theorem node_eq_file_iff : files.node place = .file ↔ place ∈ files.entries.map Prod.fst := by
  unfold node
  split_ifs <;> simp_all

theorem node_eq_directory_iff : files.node place = .directory ↔
    place ∉ files.entries.map Prod.fst ∧
      (Path.isAbove place = true ∨ ∃ entry ∈ files.entries, place <+: entry.1) := by
  rw [← node_eq_file_iff]
  have hAbove : (∃ entry ∈ files.entries, place <+: entry.1) ↔
      files.entries.any (place.isPrefixOf ·.1) = true := by simp
  rw [hAbove]
  unfold node
  split_ifs with hFile hDirectory
  · simp
  · simpa using hDirectory
  · simpa using hDirectory

theorem mem_keys_put : other ∈ (files.put place bytes).entries.map Prod.fst ↔
    other = place ∨ other ∈ files.entries.map Prod.fst := by
  simp only [put, Placed.set, List.map_append, List.mem_append, List.map_cons, List.map_nil,
    List.mem_singleton, List.mem_map, List.mem_filter, decide_eq_true_eq]
  constructor
  · rintro (⟨entry, ⟨hEntry, -⟩, hOther⟩ | hOther)
    · exact .inr ⟨entry, hEntry, hOther⟩
    · exact .inl hOther
  · rintro (hOther | ⟨entry, hEntry, rfl⟩)
    · exact .inr hOther
    · by_cases hPlace : entry.1 = place
      · exact .inr hPlace
      · exact .inl ⟨entry, ⟨hEntry, hPlace⟩, rfl⟩

theorem node_put_self : (files.put place bytes).node place = .file :=
  node_eq_file_iff.mpr (mem_keys_put.mpr (.inl rfl))

/-- A file never takes the place of a directory, so directories stay. -/
theorem node_put_of_directory (hPlace : files.node place ≠ .directory)
    (hOther : files.node other = .directory) :
    (files.put place bytes).node other = .directory := by
  have hNe : other ≠ place := by
    rintro rfl
    exact hPlace hOther
  obtain ⟨hKeys, hAbove⟩ := node_eq_directory_iff.mp hOther
  refine node_eq_directory_iff.mpr ⟨?_, hAbove.imp_right ?_⟩
  · rw [mem_keys_put, not_or]
    exact ⟨hNe, hKeys⟩
  · rintro ⟨entry, hEntry, hStart⟩
    have hKey : entry.1 ∈ (files.put place bytes).entries.map Prod.fst :=
      mem_keys_put.mpr (.inr (List.mem_map_of_mem hEntry))
    obtain ⟨kept, hKept, hEq⟩ := List.mem_map.mp hKey
    exact ⟨kept, hKept, hEq ▸ hStart⟩

theorem follow_put (hPlace : files.node place ≠ .directory) {names : List String}
    (hFollow : files.follow other names = .ok last) :
    (files.put place bytes).follow other names = .ok last := by
  induction names generalizing other with
  | nil => exact hFollow
  | cons name names ih =>
      obtain ⟨next, hNext, hRest⟩ := Except.bind_eq_ok_iff.mp hFollow
      refine Except.bind_eq_ok_iff.mpr ⟨next, hNext, ?_⟩
      -- All names on the way are directories, and those stay.
      split at hRest
      · rename_i hNode
        rw [node_put_of_directory hPlace hNode]
        exact ih hRest
      · cases hRest
      · cases hRest

theorem locate_put (hPlace : files.node place ≠ .directory) {target : Target}
    (hLocate : files.locate path = .ok target) :
    (files.put place bytes).locate path = .ok target := by
  unfold locate at hLocate ⊢
  dsimp only at hLocate ⊢
  split_ifs at hLocate ⊢
  split at hLocate
  · cases hLocate
  · obtain ⟨parent, hParent, hTarget⟩ := Except.bind_eq_ok_iff.mp hLocate
    exact Except.bind_eq_ok_iff.mpr ⟨parent, follow_put hPlace hParent, hTarget⟩

/-- A path leads to the place of a file, which may have to be made. -/
def LeadsTo (files : Files) (path : String) (place : List String) : Prop :=
  ∃ target, files.locate path = .ok target ∧ target.slashed = false ∧
    lookup target.parent target.name = .ok place

theorem LeadsTo.put (h : files.LeadsTo path other) (hPlace : files.node place ≠ .directory) :
    (files.put place bytes).LeadsTo path other := by
  obtain ⟨target, hLocate, hRest⟩ := h
  exact ⟨target, locate_put hPlace hLocate, hRest⟩

theorem write_eq_ok_iff : files.write path bytes = .ok after ↔ ∃ place,
    files.LeadsTo path place ∧ files.node place ≠ .directory ∧ after = files.put place bytes := by
  rw [write, Except.bind_eq_ok_iff]
  constructor
  · rintro ⟨target, hLocate, h⟩
    split_ifs at h with hSlashed
    obtain ⟨place, hLookup, h⟩ := Except.bind_eq_ok_iff.mp h
    split at h
    · cases h
    · rename_i hNode
      cases h
      exact ⟨place, ⟨target, hLocate, by simpa using hSlashed, hLookup⟩, hNode, rfl⟩
  · rintro ⟨place, ⟨target, hLocate, hSlashed, hLookup⟩, hNode, rfl⟩
    refine ⟨target, hLocate, ?_⟩
    rw [if_neg (by simp [hSlashed])]
    refine Except.bind_eq_ok_iff.mpr ⟨place, hLookup, ?_⟩
    split
    · rename_i hDirectory
      exact absurd hDirectory hNode
    · rfl

/-- A path that leads to the place of a file finds the file. -/
theorem LeadsTo.find (h : files.LeadsTo path place) (hNode : files.node place = .file) :
    files.find path = .ok ⟨place, false⟩ := by
  obtain ⟨target, hLocate, hSlashed, hLookup⟩ := h
  refine Except.bind_eq_ok_iff.mpr ⟨target, hLocate, Except.bind_eq_ok_iff.mpr ⟨place, hLookup, ?_⟩⟩
  simp [hNode, hSlashed]

theorem LeadsTo.read (h : files.LeadsTo path place) (hContent : files.content place = some bytes) :
    files.read path = .ok bytes := by
  obtain ⟨entry, hEntry, -⟩ := Option.map_eq_some_iff.mp hContent
  have hNode : files.node place = .file := by
    refine node_eq_file_iff.mpr (List.mem_map.mpr ⟨entry, List.mem_of_find?_eq_some hEntry, ?_⟩)
    simpa using List.find?_some hEntry
  refine Except.bind_eq_ok_iff.mpr ⟨_, h.find hNode, ?_⟩
  change files.entries.get? place = some bytes at hContent
  simp [hContent]

/-- A file that was just written is found by its path, so only a lock keeps its mode from being
set. -/
theorem setMode_put (hLeads : files.LeadsTo path place) (hNode : files.node place ≠ .directory) :
    (files.put place bytes).setMode path mode =
      (files.unlocked place).map fun _ => (files.put place bytes).putMode place mode := by
  rw [setMode, (hLeads.put hNode).find node_put_self]
  cases hUnlocked : files.unlocked place <;> simp_all [unlocked, put, Except.map, bind, Except.bind]

/-- The files after bytes were written at a place and a mode was set there, unless the place is
locked. -/
def stored (files : Files) (place : List String) (bytes : List UInt8) (mode : Nat) : Files :=
  match files.unlocked place with
  | .ok _ => (files.put place bytes).putMode place mode
  | .error _ => files.put place bytes

/-- A path leads to a place where a file can be written. What is written stays also where the
answer is that its mode cannot be set. -/
def Stores (before : Files) (path : String) (bytes : List UInt8) (mode : Nat) (after : Files)
    (answer : Except FileError Unit) : Prop :=
  ∃ place, before.LeadsTo path place ∧ before.node place ≠ .directory ∧
    before.unlocked place = answer ∧ before.stored place bytes mode = after

theorem content_stored (files : Files) (place other : List String) (bytes : List UInt8)
    (mode : Nat) : (files.stored place bytes mode).content other =
      if place = other then some bytes else files.content other := by
  rw [← content_put files place other bytes, stored]
  cases files.unlocked place <;> rfl

theorem mode?_stored (files : Files) (place other : List String) (bytes : List UInt8)
    (mode : Nat) : (files.stored place bytes mode).mode? other =
      if place = other ∧ files.unlocked place = .ok () then some mode else files.mode? other := by
  rw [stored]
  cases files.unlocked place with
  | ok answer =>
      simp only [and_true]
      exact Placed.get?_set files.modes place other mode
  | error cause =>
      rw [if_neg (by simp)]
      rfl

theorem unlocked_stored (files : Files) (place other : List String) (bytes : List UInt8)
    (mode : Nat) : (files.stored place bytes mode).unlocked other = files.unlocked other := by
  rw [stored]
  cases files.unlocked place <;> rfl

theorem node_stored_self : (files.stored place bytes mode).node place = .file := by
  refine node_eq_file_iff.mpr ?_
  rw [stored]
  cases files.unlocked place <;> exact mem_keys_put.mpr (.inl rfl)

theorem follow_putMode (files : Files) (names : List String) :
    (files.putMode place mode).follow other names = files.follow other names := by
  induction names generalizing other with
  | nil => rfl
  | cons name names ih =>
      rw [follow, follow]
      simp only [ih]
      rfl

theorem locate_putMode (files : Files) (path : String) :
    (files.putMode place mode).locate path = files.locate path := by
  simp only [locate, follow_putMode]

theorem LeadsTo.stored (h : files.LeadsTo path other) (hPlace : files.node place ≠ .directory) :
    (files.stored place bytes mode).LeadsTo path other := by
  rw [Files.stored]
  cases files.unlocked place with
  | ok answer =>
      obtain ⟨target, hLocate, hRest⟩ := h.put hPlace
      exact ⟨target, (locate_putMode _ _).trans hLocate, hRest⟩
  | error cause => exact h.put hPlace

/-- What was stored is read at its path. -/
theorem Stores.read (h : files.Stores path bytes mode after answer) :
    after.read path = .ok bytes := by
  obtain ⟨place, hLeads, hNode, -, rfl⟩ := h
  refine (hLeads.stored hNode).read ?_
  rw [content_stored, if_pos rfl]

/-- A file that was stored can be stored again, with the same answer. -/
theorem Stores.again (h : files.Stores path bytes mode after answer) (more : List UInt8) :
    ∃ last, after.Stores path more mode last answer := by
  obtain ⟨place, hLeads, hNode, hAnswer, rfl⟩ := h
  refine ⟨_, place, hLeads.stored hNode, ?_, ?_, rfl⟩
  · simp [node_stored_self]
  · rw [unlocked_stored, hAnswer]

end Files

end LedgerSigning
