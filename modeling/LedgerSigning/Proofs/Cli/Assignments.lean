import Mathlib
import LedgerSigning.Proofs.Cli.Inputs
import LedgerSigning.Proofs.Json.Path
import LedgerSigning.Proofs.Json.Tree
import LedgerSigning.Proofs.Key

/-! Documents from assignments. Among themselves assignments change what stands at the places that
their paths lead through or to, and no other. Laid over a document they replace its members by the
first keys of their paths, with all that stands below. -/
namespace LedgerSigning

namespace Json

/-- Below a place where nothing stands there is as much as below an empty object. -/
theorem get?_getD {path : List String} (hPath : path ≠ []) (found : Option Json) :
    get? path (found.getD (.object [])) = found.bind (get? path) := by
  cases found with
  | some doc => rfl
  | none =>
      cases path with
      | nil => exact absurd rfl hPath
      | cons key path => rfl

variable {key : String} {value : Json} {members more : List (String × Json)}

theorem ordered_string (s : String) : Ordered (.string s) := by rintro _ ⟨⟩ _ ⟨⟩

theorem ordered_empty : Ordered (.object []) := by simp [ordered_object_iff]

theorem Ordered.getD_find? (h : Ordered (.object members)) (key : String) :
    ((Members.find? key members).getD (.object [])).Ordered := by
  cases hFind : Members.find? key members with
  | none => exact ordered_empty
  | some value =>
      obtain ⟨m, hm, rfl⟩ := Option.map_eq_some_iff.mp hFind
      exact (ordered_object_iff.mp h).2 m.1 m.2 (List.mem_of_find?_eq_some hm)

theorem Ordered.insert (h : Ordered (.object members)) (hValue : value.Ordered) :
    Ordered (.object (Members.insert key value members)) := by
  obtain ⟨hSorted, hInner⟩ := ordered_object_iff.mp h
  refine ordered_object_iff.mpr ⟨Members.insert_sorted hSorted, fun k item hMem => ?_⟩
  rcases Members.mem_of_mem_insert hMem with hEq | hMem
  · cases hEq
    exact hValue
  · exact hInner k item hMem

theorem Ordered.extend (h : Ordered (.object members)) (hMore : Ordered (.object more)) :
    Ordered (.object (Members.extend members more)) := by
  obtain ⟨hSorted, hInner⟩ := ordered_object_iff.mp h
  refine ordered_object_iff.mpr ⟨Members.extend_sorted more hSorted, fun k item hMem => ?_⟩
  rcases Members.mem_of_mem_extend hMem with hMem | hMem
  · exact hInner k item hMem
  · exact (ordered_object_iff.mp hMore).2 k item hMem

end Json

namespace Assignments

variable {key : String} {value : Json} {path place : List String}
  {members after : List (String × Json)}

/-- All that putting a value does to the members: one of them is set, to the value itself at the end
of the path, and else to an object in which the rest of the path is followed. -/
theorem exists_of_put {segment : String} (h : put key value (segment :: path) members = .ok after) :
    ∃ item, after = Members.insert segment item members ∧
      (path = [] ∧ item = value ∨ path ≠ [] ∧ ∃ inner changed,
        (Members.find? segment members).getD (.object []) = .object inner ∧
        put key value path inner = .ok changed ∧ item = .object changed) := by
  cases path with
  | nil =>
      cases h
      exact ⟨value, rfl, .inl ⟨rfl, rfl⟩⟩
  | cons next path =>
      rw [put] at h
      split at h
      · rename_i inner hInner
        obtain ⟨changed, hChanged, hAfter⟩ := Except.bind_eq_ok_iff.mp h
        cases hAfter
        exact ⟨_, rfl, .inr ⟨by simp, inner, changed, hInner, hChanged, rfl⟩⟩
      · cases h

theorem mem_keys_put (h : put key value path members = .ok after) {k : String} :
    k ∈ after.map Prod.fst ↔ path.head? = some k ∨ k ∈ members.map Prod.fst := by
  cases path with
  | nil =>
      cases h
      simp
  | cons segment path =>
      obtain ⟨item, rfl, -⟩ := exists_of_put h
      rw [Members.mem_keys_insert, List.head?_cons, Option.some.injEq, eq_comm]

theorem ordered_of_put (hValue : value.Ordered) (h : put key value path members = .ok after)
    (hMembers : (Json.object members).Ordered) : (Json.object after).Ordered := by
  induction path generalizing members after with
  | nil =>
      cases h
      exact hMembers
  | cons segment path ih =>
      obtain ⟨item, rfl, ⟨-, rfl⟩ | ⟨-, inner, changed, hInner, hChanged, rfl⟩⟩ := exists_of_put h
      · exact hMembers.insert hValue
      · exact hMembers.insert (ih hChanged (hInner ▸ hMembers.getD_find? segment))

/-- A value is found at the path where it was put. -/
theorem get?_put (hPath : path ≠ []) (h : put key value path members = .ok after) :
    Json.get? path (.object after) = some value := by
  induction path generalizing members after with
  | nil => exact absurd rfl hPath
  | cons segment path ih =>
      obtain ⟨item, rfl, hItem⟩ := exists_of_put h
      rw [Json.get?_object, Members.find?_insert, if_pos rfl, Option.bind_some]
      rcases hItem with ⟨rfl, rfl⟩ | ⟨hMore, inner, changed, -, hChanged, rfl⟩
      · rfl
      · exact ih hMore hChanged

/-- Everything stays at a place that the path neither leads through nor stops before. -/
theorem get?_put_of_not_comparable (hApart : ¬Comparable path place)
    (h : put key value path members = .ok after) :
    Json.get? place (.object after) = Json.get? place (.object members) := by
  induction path generalizing place members after with
  | nil =>
      cases h
      rfl
  | cons segment path ih =>
      cases place with
      | nil => exact absurd (comparable_nil _) hApart
      | cons k place =>
          obtain ⟨item, rfl, hItem⟩ := exists_of_put h
          rw [comparable_cons, not_and] at hApart
          rw [Json.get?_object, Json.get?_object, Members.find?_insert]
          -- Below a shared key the rests are not comparable either; where the path makes a new
          -- object, nothing stood at the place before.
          by_cases hKey : segment = k
          · subst hKey
            rw [if_pos rfl, Option.bind_some]
            have hPlace : place ≠ [] := by
              rintro rfl
              exact hApart rfl (comparable_nil _)
            rcases hItem with ⟨rfl, rfl⟩ | ⟨-, inner, changed, hInner, hChanged, rfl⟩
            · exact absurd (.inl place.nil_prefix) (hApart rfl)
            · rw [ih (hApart rfl) hChanged, ← hInner, Json.get?_getD hPlace]
          · rw [if_neg hKey]

theorem segments_ne_nil (chars : List Char) : segments chars ≠ [] := by
  cases chars with
  | nil => simp [segments]
  | cons c rest =>
      rw [segments]
      split
      · simp
      · split_ifs <;> simp

/-- What every assignment that is read has: a path, and a value in order. -/
theorem of_read {argument : String} {assignment : Assignment}
    (h : read argument = .ok assignment) :
    assignment.path ≠ [] ∧ assignment.value.Ordered := by
  unfold read at h
  dsimp only at h
  split at h
  · cases h
  · rename_i rest hRest
    split_ifs at h
    cases h
    refine ⟨by simpa using segments_ne_nil _, ?_⟩
    cases hText : Json.ofText? (String.ofList (Blank.trim rest)) with
    | none => exact Json.ordered_string _
    | some doc => exact Json.ordered_of_ofText? hText

/-- Puts the values of assignments one after the other. -/
def putAll (assignments : List Assignment) (members : List (String × Json)) :
    Except AssignmentError (List (String × Json)) :=
  assignments.foldlM (fun members a => put a.key a.value a.path members) members

variable {assignments : List Assignment}

theorem putAll_cons_eq_ok_iff {a : Assignment} : putAll (a :: assignments) members = .ok after ↔
    ∃ middle, put a.key a.value a.path members = .ok middle ∧
      putAll assignments middle = .ok after :=
  Except.bind_eq_ok_iff

/-- Arguments that make members are all read, and what they assign is put in order. -/
theorem exists_of_foldlM_assign {arguments : List String}
    (h : arguments.foldlM assign members = .ok after) : ∃ assignments,
      List.Forall₂ (fun argument a => read argument = .ok a) arguments assignments ∧
        putAll assignments members = .ok after := by
  induction arguments generalizing members with
  | nil => exact ⟨[], .nil, h⟩
  | cons argument arguments ih =>
      obtain ⟨middle, hAssign, hRest⟩ := Except.bind_eq_ok_iff.mp h
      obtain ⟨a, hRead, hPut⟩ := Except.bind_eq_ok_iff.mp hAssign
      obtain ⟨assignments, hReads, hAll⟩ := ih hRest
      exact ⟨a :: assignments, .cons hRead hReads, putAll_cons_eq_ok_iff.mpr ⟨middle, hPut, hAll⟩⟩

theorem mem_keys_putAll (h : putAll assignments members = .ok after) {k : String} :
    k ∈ after.map Prod.fst ↔
      (∃ a ∈ assignments, a.path.head? = some k) ∨ k ∈ members.map Prod.fst := by
  induction assignments generalizing members with
  | nil =>
      cases h
      simp
  | cons a assignments ih =>
      obtain ⟨middle, hPut, hRest⟩ := putAll_cons_eq_ok_iff.mp h
      rw [ih hRest, mem_keys_put hPut, List.exists_mem_cons_iff, or_assoc, or_left_comm]

theorem ordered_of_putAll (hValues : ∀ a ∈ assignments, a.value.Ordered)
    (h : putAll assignments members = .ok after) (hMembers : (Json.object members).Ordered) :
    (Json.object after).Ordered := by
  induction assignments generalizing members with
  | nil =>
      cases h
      exact hMembers
  | cons a assignments ih =>
      obtain ⟨middle, hPut, hRest⟩ := putAll_cons_eq_ok_iff.mp h
      obtain ⟨hFirst, hOthers⟩ := List.forall_mem_cons.mp hValues
      exact ih hOthers hRest (ordered_of_put hFirst hPut hMembers)

theorem ordered_of_ofArguments {arguments : List String}
    (h : ofArguments arguments = .ok members) : (Json.object members).Ordered := by
  obtain ⟨assignments, hReads, hAll⟩ := exists_of_foldlM_assign h
  refine ordered_of_putAll (fun a ha => ?_) hAll Json.ordered_empty
  obtain ⟨argument, -, hRead⟩ := exists_of_forall₂ hReads ha
  exact (of_read hRead).2

/-- A run of assignments keeps what stands apart from all of their paths. -/
theorem get?_putAll_of_not_comparable (hApart : ∀ a ∈ assignments, ¬Comparable a.path place)
    (h : putAll assignments members = .ok after) :
    Json.get? place (.object after) = Json.get? place (.object members) := by
  induction assignments generalizing members with
  | nil =>
      cases h
      rfl
  | cons a assignments ih =>
      obtain ⟨middle, hPut, hRest⟩ := putAll_cons_eq_ok_iff.mp h
      obtain ⟨hFirst, hOthers⟩ := List.forall_mem_cons.mp hApart
      rw [ih hOthers hRest, get?_put_of_not_comparable hFirst hPut]

/-- A value stays where it was put unless a later path is comparable. -/
theorem get?_putAll {before later : List Assignment} {a : Assignment} (hPath : a.path ≠ [])
    (hApart : ∀ b ∈ later, ¬Comparable b.path a.path)
    (h : putAll (before ++ a :: later) members = .ok after) :
    Json.get? a.path (.object after) = some a.value := by
  induction before generalizing members with
  | nil =>
      obtain ⟨middle, hPut, hRest⟩ := putAll_cons_eq_ok_iff.mp h
      rw [get?_putAll_of_not_comparable hApart hRest, get?_put hPath hPut]
  | cons b before ih =>
      obtain ⟨middle, -, hRest⟩ := putAll_cons_eq_ok_iff.mp h
      exact ih hRest

end Assignments

namespace Commands

open Assignments

variable {members more : List (String × Json)} {assignments : List Assignment}

theorem overlay_object {fields : List String} (hFields : ofArguments fields = .ok more) :
    overlay (.object members) fields = .ok (.object (Members.extend members more)) := by
  cases fields with
  | nil =>
      cases hFields
      rfl
  | cons field fields => exact Except.bind_eq_ok_iff.mpr ⟨more, by rw [hFields]; rfl, rfl⟩

/-- A member that is laid over a document hides the one below it, at all places in it. -/
theorem get?_extend (hMore : putAll assignments [] = .ok more)
    (hOrdered : (Json.object more).Ordered) (k : String) (place : List String) :
    Json.get? (k :: place) (.object (Members.extend members more)) =
      if assignments.any (·.path.head? = some k) then Json.get? (k :: place) (.object more)
      else Json.get? (k :: place) (.object members) := by
  have hNodup : (more.map Prod.fst).Nodup :=
    (Json.ordered_object_iff.mp hOrdered).1.imp fun hLess => ne_of_lt hLess
  have hKeys : assignments.any (·.path.head? = some k) = true ↔ k ∈ more.map Prod.fst := by
    rw [mem_keys_putAll hMore]
    simp
  rw [Json.get?_object, Json.get?_object, Json.get?_object, Members.find?_extend hNodup]
  split_ifs with hAny
  · have hSome : Members.find? k more ≠ none := by
      rw [Ne, Members.find?_eq_none_iff, not_not]
      exact hKeys.mp hAny
    obtain ⟨item, hItem⟩ := Option.ne_none_iff_exists'.mp hSome
    rw [hItem, Option.some_or]
  · have hNone : Members.find? k more = none :=
      Members.find?_eq_none_iff.mpr (mt hKeys.mpr hAny)
    rw [hNone, Option.none_or]

theorem overlay_ne_modeUnset (doc : Json) (fields : List String) (cause : FileError) :
    overlay doc fields ≠ .error (.modeUnset cause) := by
  unfold overlay
  split_ifs
  · nofun
  · split
    · intro hLate
      rcases Except.bind_eq_error_iff.mp hLate with hLate | ⟨more, -, hLate⟩
      · obtain ⟨fault, -, hCause⟩ := Except.mapError_eq_error_iff.mp hLate
        cases hCause
      · cases hLate
    · nofun

theorem still_buildDocument (path : Option String) (fields : List String) :
    Script.Still (buildDocument path fields) := by
  have hOverlay (doc : Json) : Script.Still (Script.ofExcept (overlay doc fields)) :=
    Script.still_ofExcept (overlay_ne_modeUnset doc fields)
  cases path with
  | some path => exact (still_readAs _ _).bind hOverlay
  | none =>
      unfold buildDocument
      dsimp only
      split_ifs
      · exact (Script.still_fail (by simp)).bind hOverlay
      · exact (Script.still_done _).bind hOverlay

theorem ordered_of_overlay {doc result : Json} {fields : List String} (hDoc : doc.Ordered)
    (h : overlay doc fields = .ok result) : result.Ordered := by
  unfold overlay at h
  split_ifs at h
  · cases h
    exact hDoc
  · split at h
    · obtain ⟨more, hMore, hResult⟩ := Except.bind_eq_ok_iff.mp h
      cases hResult
      exact hDoc.extend (ordered_of_ofArguments (Except.mapError_eq_ok_iff.mp hMore))
    · cases h

/-- A document that is built is in order, whatever file and fields it is built from. -/
theorem ordered_of_buildDocument {path : Option String} {fields : List String}
    {world after : Script.World} {doc : Json}
    (h : (buildDocument path fields).run world = (.ok doc, after)) : doc.Ordered := by
  cases path with
  | some path =>
      obtain ⟨file, middle, hFile, hOverlay⟩ := Script.run_bind_eq_ok_iff.mp h
      rw [Script.run_ofExcept] at hOverlay
      exact ordered_of_overlay (ordered_of_readDocument hFile) (Prod.mk.inj hOverlay).1
  | none =>
      unfold buildDocument at h
      dsimp only at h
      split_ifs at h
      · cases h
      · obtain ⟨file, middle, hFile, hOverlay⟩ := Script.run_bind_eq_ok_iff.mp h
        cases hFile
        rw [Script.run_ofExcept] at hOverlay
        exact ordered_of_overlay Json.ordered_empty (Prod.mk.inj hOverlay).1

/-- A document under assigned fields. Each field is found at its path, unless a later path is
comparable. At a place that is comparable with no path, what the file holds is found again if and
only if no path starts with the same key; else nothing is left there, because a member that is laid
over the document replaces the whole member below. -/
theorem get?_buildDocument {path : String} {fields : List String} {world after : Script.World}
    (hRead : (readDocument path).run world = (.ok (.object members), after))
    (hFields : ofArguments fields = .ok more) :
    ∃ assignments doc, List.Forall₂ (fun field a => read field = .ok a) fields assignments ∧
      (buildDocument (some path) fields).run world = (.ok doc, after) ∧
      (∀ place, (∀ a ∈ assignments, ¬Comparable a.path place) →
        Json.get? place doc = if assignments.any (·.path.head? = place.head?) then none
          else Json.get? place (.object members)) ∧
      ∀ before a later, assignments = before ++ a :: later →
        (∀ b ∈ later, ¬Comparable b.path a.path) → Json.get? a.path doc = some a.value := by
  have hOrdered := ordered_of_ofArguments hFields
  obtain ⟨assignments, hReads, hMore⟩ := exists_of_foldlM_assign hFields
  refine ⟨assignments, .object (Members.extend members more), hReads,
    Script.run_bind_eq_ok_iff.mpr ⟨_, after, hRead, ?_⟩, ?_, ?_⟩
  · rw [Script.run_ofExcept, overlay_object hFields]
  · intro place hApart
    cases place with
    | nil =>
        -- The whole document is comparable with every path, so nothing is assigned.
        cases assignments with
        | nil =>
            cases hMore
            rfl
        | cons a assignments => exact absurd (comparable_nil _) (hApart a List.mem_cons_self)
    | cons k place =>
        rw [get?_extend hMore hOrdered, List.head?_cons]
        split_ifs
        · rw [get?_putAll_of_not_comparable hApart hMore]
          rfl
        · rfl
  · rintro before a later rfl hApart
    have hMem : a ∈ before ++ a :: later := by simp
    obtain ⟨field, -, hField⟩ := exists_of_forall₂ hReads hMem
    have hPath := (of_read hField).1
    obtain ⟨k, place, hSplit⟩ := List.exists_cons_of_ne_nil hPath
    have hFound := get?_putAll hPath hApart hMore
    rw [hSplit] at hFound ⊢
    rw [get?_extend hMore hOrdered, if_pos, hFound]
    simp [hSplit]

/-- The member `c` that a file holds below `a` is lost when `a.b` is assigned. -/
theorem get?_buildDocument_sibling :
    let two : Json := .number (.integer 2 (by decide))
    let text : Json := .string "text"
    let file : Json := .object [("a", .object [("c", text)]), ("d", text)]
    let files : Files := .ofList [("doc", Utf8.encode file.compact.toList)]
    let world : Script.World := ⟨files, "", "", fun _ => 0, 0⟩
    ∃ doc, (readDocument "doc").run world = (.ok file, world) ∧
      (buildDocument (some "doc") ["a.b=2"]).run world = (.ok doc, world) ∧
      Json.get? ["a", "b"] doc = some two ∧ Json.get? ["d"] doc = some text ∧
      ¬Comparable ["a", "b"] ["a", "c"] ∧ Json.get? ["a", "c"] file = some text ∧
      Json.get? ["a", "c"] doc = none := by
  intro two text file files world
  have hText : world.files.read "doc" = .ok (Utf8.encode file.compact.toList) := by cbv
  have hRead : (readDocument "doc").run world = (.ok file, world) := by
    have hOrdered : file.Ordered := by
      have hInner : (Json.object [("c", text)]).Ordered :=
        Json.ordered_object_iff.mpr ⟨by decide, by simp [text, Json.ordered_string]⟩
      refine Json.ordered_object_iff.mpr ⟨by decide, fun key value hMem => ?_⟩
      simp only [List.mem_cons, List.not_mem_nil, or_false, Prod.mk.injEq] at hMem
      rcases hMem with ⟨-, rfl⟩ | ⟨-, rfl⟩
      · exact hInner
      · exact Json.ordered_string _
    rw [readDocument, run_readAs hText, ofText?_compact, Option.bind_some,
      Json.toJson?_tree_document hOrdered, if_pos (by decide)]
  have hFields : ofArguments ["a.b=2"] = .ok [("a", .object [("b", two)])] := by cbv
  have hAssign : read "a.b=2" = .ok ⟨"a.b", ["a", "b"], two⟩ := by cbv
  obtain ⟨assignments, doc, hReads, hDoc, hPlaces, hValues⟩ := get?_buildDocument hRead hFields
  obtain ⟨a, _, ha, hNil, rfl⟩ := List.forall₂_cons_left_iff.mp hReads
  cases hNil
  cases hAssign.symm.trans ha
  have hApart (place : List String) (h : ¬Comparable ["a", "b"] place) :=
    hPlaces place (by simpa using h)
  have hSibling : ¬Comparable ["a", "b"] ["a", "c"] := by simp [Comparable]
  refine ⟨doc, hRead, hDoc, hValues [] _ [] rfl (by simp), ?_, hSibling, by rfl, ?_⟩
  · rw [hApart ["d"] (by simp [Comparable])]
    rfl
  · rw [hApart _ hSibling]
    rfl

end Commands

end LedgerSigning
