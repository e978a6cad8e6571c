import LedgerSigning.Proofs.Cli.Assignments
import LedgerSigning.Proofs.Text.Mark

/-! Which assignments are accepted. An argument is read unless it has no equals sign, no key or an
empty segment, and its value is put unless a value that is no object stands in the way. What is
refused leaves the members as they were, also where objects are made on the way. -/
namespace LedgerSigning

/-- A value that is no object stands at a place. -/
def Json.Occupied (place : List String) (doc : Json) : Prop :=
  ∃ value, Json.get? place doc = some value ∧ ∀ inner, value ≠ .object inner

namespace Json

variable {key : String} {place : List String} {members : List (String × Json)}

theorem not_occupied_nil : ¬Occupied [] (.object members) := by
  rintro ⟨_, ⟨⟩, hValue⟩
  exact hValue members rfl

theorem not_occupied_empty : ¬Occupied place (.object []) := by
  cases place with
  | nil => exact not_occupied_nil
  | cons key place =>
      rintro ⟨value, hValue, -⟩
      cases hValue

theorem occupied_append {more : List String} {doc : Json} :
    Occupied (place ++ more) doc ↔ ∃ inner, get? place doc = some inner ∧ Occupied more inner := by
  simp only [Occupied, get?_append, Option.bind_eq_some_iff]
  constructor
  · rintro ⟨value, ⟨inner, hInner, hValue⟩, hNone⟩
    exact ⟨inner, hInner, value, hValue, hNone⟩
  · rintro ⟨inner, hInner, value, hValue, hNone⟩
    exact ⟨value, ⟨inner, hInner, hValue⟩, hNone⟩

/-- Below a key that is absent nothing is occupied, as in an empty object. -/
theorem occupied_cons : Occupied (key :: place) (.object members) ↔
    Occupied place ((Members.find? key members).getD (.object [])) := by
  rw [Occupied, get?_object]
  cases Members.find? key members with
  | some value => rfl
  | none => exact iff_of_false (by simp) not_occupied_empty

end Json

namespace Assignments

variable {key : String} {value : Json} {path place : List String}
  {members after : List (String × Json)}

/-- A value is put unless a proper start of the path is occupied. -/
theorem exists_put_iff : (∃ after, put key value path members = .ok after) ↔
    ∀ place, place <+: path → place ≠ path → ¬Json.Occupied place (.object members) := by
  induction path generalizing members with
  | nil =>
      refine iff_of_true ⟨members, rfl⟩ fun place hStart hProper => ?_
      exact absurd (List.prefix_nil.mp hStart) hProper
  | cons segment path ih =>
      cases path with
      | nil =>
          refine iff_of_true ⟨_, rfl⟩ fun place hStart hProper => ?_
          rcases List.prefix_cons_iff.mp hStart with rfl | ⟨rest, rfl, hRest⟩
          · exact Json.not_occupied_nil
          · exact absurd (congrArg _ (List.prefix_nil.mp hRest)) hProper
      | cons next path =>
          have hBelow : (∀ place, place <+: segment :: next :: path →
              place ≠ segment :: next :: path → ¬Json.Occupied place (.object members)) ↔
              ∀ place, place <+: next :: path → place ≠ next :: path → ¬Json.Occupied place
                ((Members.find? segment members).getD (.object [])) := by
            constructor
            · intro h place hStart hProper
              rw [← Json.occupied_cons]
              exact h _ ((List.prefix_cons_inj segment).mpr hStart) (by simpa using hProper)
            · intro h place hStart hProper
              rcases List.prefix_cons_iff.mp hStart with rfl | ⟨rest, rfl, hRest⟩
              · exact Json.not_occupied_nil
              · rw [Json.occupied_cons]
                exact h rest hRest (by simpa using hProper)
          rw [hBelow, put]
          generalize (Members.find? segment members).getD (.object []) = found
          split
          · rename_i inner
            rw [← ih]
            simp only [Except.bind_eq_ok_iff]
            constructor
            · rintro ⟨_, changed, hChanged, -⟩
              exact ⟨changed, hChanged⟩
            · rintro ⟨changed, hChanged⟩
              exact ⟨_, changed, hChanged, rfl⟩
          · rename_i hNone
            refine iff_of_false (by simp) fun h => h [] (by simp) (by simp) ⟨found, rfl, ?_⟩
            exact fun inner hInner => hNone inner hInner

/-- At a place above the end of the path stands an object in which the rest of the path was
followed. -/
theorem exists_of_put_above {rest : List String} (hRest : rest ≠ [])
    (h : put key value (place ++ rest) members = .ok after) : ∃ inner changed,
      (Json.get? place (.object members)).getD (.object []) = .object inner ∧
        put key value rest inner = .ok changed ∧
        Json.get? place (.object after) = some (.object changed) := by
  induction place generalizing members after with
  | nil => exact ⟨members, after, rfl, h, rfl⟩
  | cons segment place ih =>
      obtain ⟨item, rfl, ⟨hNil, -⟩ | ⟨-, below, filled, hBelow, hFilled, rfl⟩⟩ := exists_of_put h
      · exact absurd (List.append_eq_nil_iff.mp hNil).2 hRest
      · obtain ⟨inner, changed, hInner, hChanged, hFound⟩ := ih hFilled
        refine ⟨inner, changed, ?_, hChanged, ?_⟩
        · rw [← hInner, ← hBelow, Json.get?_object]
          cases Members.find? segment members with
          | some found => rfl
          | none => cases place <;> rfl
        · rw [Json.get?_object, Members.find?_insert, if_pos rfl, Option.bind_some, hFound]

/-- What is occupied after a value was put: below the path what is in the value, and apart from it
what was before. -/
theorem occupied_put_iff (hPath : path ≠ []) (h : put key value path members = .ok after) :
    Json.Occupied place (.object after) ↔
      (∃ rest, place = path ++ rest ∧ Json.Occupied rest value) ∨
      ¬path <+: place ∧ Json.Occupied place (.object members) := by
  by_cases hBelow : path <+: place
  · obtain ⟨rest, rfl⟩ := hBelow
    rw [Json.occupied_append, get?_put hPath h]
    simp
  have hApart : ¬∃ rest, place = path ++ rest ∧ Json.Occupied rest value := by
    rintro ⟨rest, rfl, -⟩
    exact hBelow (List.prefix_append path rest)
  rw [or_iff_right hApart, and_iff_right hBelow]
  by_cases hAbove : place <+: path
  · have hProper : place ≠ path := by
      rintro rfl
      exact hBelow List.prefix_rfl
    refine iff_of_false ?_ (exists_put_iff.mp ⟨after, h⟩ place hAbove hProper)
    obtain ⟨rest, rfl⟩ := hAbove
    have hRest : rest ≠ [] := by
      rintro rfl
      exact hProper (List.append_nil place).symm
    obtain ⟨inner, changed, -, -, hFound⟩ := exists_of_put_above hRest h
    rintro ⟨found, hObject, hNone⟩
    rw [hFound] at hObject
    exact hNone changed (Option.some.inj hObject).symm
  · have hNot : ¬Comparable path place := not_or.mpr ⟨hBelow, hAbove⟩
    rw [Json.Occupied, get?_put_of_not_comparable hNot h, Json.Occupied]

/-- The segments of a key are those between its dots. -/
theorem segments_eq_splitOn (chars : List Char) : segments chars = chars.splitOn '.' := by
  induction chars with
  | nil => rfl
  | cons c rest ih =>
      have hStep : (c :: rest).splitOn '.' = if c = '.' then [] :: rest.splitOn '.'
          else (rest.splitOn '.').modifyHead (c :: ·) := by
        simp [List.splitOn, List.splitOnP_cons_eq_if_modifyHead]
      obtain ⟨first, others, hRest⟩ := List.exists_cons_of_ne_nil (segments_ne_nil rest)
      rw [hStep, ← ih, segments, hRest]
      rfl

/-- What an argument may be that is not read. Its key stands before the first equals sign. -/
inductive Malformed (argument : String) : Prop
  | noEquals (hNone : '=' ∉ argument.toList)
  | emptyKey {key raw : List Char} (hSplit : argument.toList = key ++ '=' :: raw)
      (hFirst : '=' ∉ key) (hEmpty : Blank.trim key = [])
  | emptySegment {key raw : List Char} (hSplit : argument.toList = key ++ '=' :: raw)
      (hFirst : '=' ∉ key) (hSegment : [] ∈ (Blank.trim key).splitOn '.')

theorem read_of_not_mem {argument : String} (hNone : '=' ∉ argument.toList) :
    read argument = .error (.noEquals argument) := by
  rw [read, Text.dropWhile_of_not_mem hNone]

theorem read_of_split {argument : String} {key raw : List Char}
    (hSplit : argument.toList = key ++ '=' :: raw) (hFirst : '=' ∉ key) :
    read argument =
      if (Blank.trim key).isEmpty then .error (.emptyKey argument)
      else if (segments (Blank.trim key)).any List.isEmpty then
        .error (.emptySegment (String.ofList (Blank.trim key)))
      else .ok ⟨String.ofList (Blank.trim key), (segments (Blank.trim key)).map String.ofList,
        (Json.ofText? (String.ofList (Blank.trim raw))).getD
          (.string (String.ofList (Blank.trim raw)))⟩ := by
  obtain ⟨hTake, hDrop⟩ := Text.split_mark hFirst raw
  rw [read, hSplit, hTake, hDrop]

theorem exists_read_error_iff {argument : String} :
    (∃ cause, read argument = .error cause) ↔ Malformed argument := by
  constructor
  · rintro ⟨cause, hRead⟩
    by_cases hEquals : '=' ∈ argument.toList
    · obtain ⟨key, raw, hSplit, hFirst⟩ := List.eq_append_cons_of_mem hEquals
      rw [read_of_split hSplit hFirst] at hRead
      split_ifs at hRead with hEmpty hSegment
      · exact .emptyKey hSplit hFirst (List.isEmpty_iff.mp hEmpty)
      · refine .emptySegment hSplit hFirst ?_
        rw [← segments_eq_splitOn]
        simpa using hSegment
    · exact .noEquals hEquals
  · rintro (hNone | ⟨hSplit, hFirst, hEmpty⟩ | ⟨hSplit, hFirst, hSegment⟩)
    · exact ⟨_, read_of_not_mem hNone⟩
    · exact ⟨_, by rw [read_of_split hSplit hFirst, if_pos (List.isEmpty_iff.mpr hEmpty)]⟩
    · rw [← segments_eq_splitOn] at hSegment
      rw [read_of_split hSplit hFirst]
      split_ifs with hEmpty hAny
      · exact ⟨_, rfl⟩
      · exact ⟨_, rfl⟩
      · exact absurd (List.any_eq_true.mpr ⟨[], hSegment, rfl⟩) hAny

/-- Arguments are refused if and only if one of them is not read, or one meets, in the members that
those before it make, a value that is no object at a proper start of its path. -/
theorem exists_ofArguments_error_iff {arguments : List String} :
    (∃ cause, ofArguments arguments = .error cause) ↔
      (∃ argument ∈ arguments, Malformed argument) ∨
      ∃ before argument later built a, arguments = before ++ argument :: later ∧
        ofArguments before = .ok built ∧ read argument = .ok a ∧
        ∃ place, place <+: a.path ∧ place ≠ a.path ∧ Json.Occupied place (.object built) := by
  constructor
  · rintro ⟨cause, hRefused⟩
    obtain ⟨before, argument, later, built, hSplit, hBuilt, hAssign⟩ :=
      Except.foldlM_eq_error_iff.mp hRefused
    rcases Except.bind_eq_error_iff.mp hAssign with hRead | ⟨a, hRead, hPut⟩
    · exact .inl ⟨argument, by simp [hSplit], exists_read_error_iff.mp ⟨cause, hRead⟩⟩
    · refine .inr ⟨before, argument, later, built, a, hSplit, hBuilt, hRead, ?_⟩
      by_contra hFree
      obtain ⟨after, hAfter⟩ := (@exists_put_iff a.key a.value a.path built).mpr
        fun place hStart hProper hOccupied => hFree ⟨place, hStart, hProper, hOccupied⟩
      cases hPut.symm.trans hAfter
  · intro h
    cases hOutcome : ofArguments arguments with
    | error cause => exact ⟨cause, rfl⟩
    | ok members =>
        exfalso
        rcases h with ⟨argument, hMem, hMalformed⟩ |
          ⟨before, argument, later, built, a, rfl, hBuilt, hRead, place, hStart, hProper, hOccupied⟩
        · obtain ⟨assignments, hReads, -⟩ := exists_of_foldlM_assign hOutcome
          obtain ⟨a, -, hRead⟩ := exists_of_forall₂ hReads.flip hMem
          obtain ⟨cause, hRefused⟩ := exists_read_error_iff.mpr hMalformed
          cases hRefused.symm.trans hRead
        · rw [ofArguments, List.foldlM_append] at hOutcome
          obtain ⟨_, hBuilt', hRest⟩ := Except.bind_eq_ok_iff.mp hOutcome
          cases hBuilt.symm.trans hBuilt'
          obtain ⟨after, hAssign, -⟩ := Except.bind_eq_ok_iff.mp hRest
          obtain ⟨_, hRead', hPut⟩ := Except.bind_eq_ok_iff.mp hAssign
          cases hRead.symm.trans hRead'
          exact exists_put_iff.mp ⟨after, hPut⟩ place hStart hProper hOccupied

/-- The members with an object at a key, which is made if nothing stands there. -/
def enter (segment : String) (members : List (String × Json)) : List (String × Json) :=
  match Members.find? segment members with
  | some _ => members
  | none => Members.insert segment (.object []) members

/-- Puts a value at the end of a path in members that are changed on the way. An object that is
missing is made before the rest of the path is looked at, and what was made stays where a value that
is no object stops the walk. -/
def walk (key : String) (value : Json) :
    List String → List (String × Json) → Except AssignmentError Unit × List (String × Json)
  | [], members => (.ok (), members)
  | [last], members => (.ok (), Members.insert last value members)
  | segment :: next :: path, members =>
    match Members.find? segment (enter segment members) with
    | some (.object inner) =>
      let (outcome, changed) := walk key value (next :: path) inner
      (outcome, Members.insert segment (.object changed) (enter segment members))
    | _ => (.error (.occupied key segment), enter segment members)

/-- What a step leaves behind: the members that it makes, or else those from before. -/
def left (members : List (String × Json)) :
    Except AssignmentError (List (String × Json)) →
      Except AssignmentError Unit × List (String × Json)
  | .ok after => (.ok (), after)
  | .error cause => (.error cause, members)

/-- A walk that is stopped has not changed the members. -/
theorem walk_eq (hMembers : (Json.object members).Ordered) :
    walk key value path members = left members (put key value path members) := by
  induction path generalizing members with
  | nil => rfl
  | cons segment path ih =>
      cases path with
      | nil => rfl
      | cons next path =>
          have hInner := hMembers.getD_find? segment
          rw [walk, put, enter]
          cases hFind : Members.find? segment members with
          | none =>
              -- The object that is made is empty, so nothing in it can stop the walk.
              obtain ⟨changed, hChanged⟩ := (@exists_put_iff key value (next :: path) []).mpr
                fun place _ _ => Json.not_occupied_empty
              simp only [Members.find?_insert, if_true, ih Json.ordered_empty, hChanged, left,
                Option.getD_none, bind, Except.bind, Members.insert_insert]
          | some found =>
              rw [hFind, Option.getD_some] at hInner
              cases found with
              | object inner =>
                  have hSame : Members.insert segment (.object inner) members = members :=
                    Members.insert_self (Json.ordered_object_iff.mp hMembers).1 hFind
                  simp only [hFind, Option.getD_some, ih hInner]
                  cases put key value (next :: path) inner with
                  | ok changed => rfl
                  | error cause => simp only [left, hSame, bind, Except.bind]
              | _ => simp only [hFind, Option.getD_some, left]

end Assignments

end LedgerSigning
