import LedgerSigning.Proofs.Cli.Assignments.Acceptance
import LedgerSigning.Proofs.Reordering

/-! What a list of assignments makes. What stands at a place is decided by the arguments alone whose
paths are comparable with it, in their order, and by none that comes before one whose path leads to
the place. So arguments may change places unless their paths are comparable. -/
namespace LedgerSigning

instance : DecidableRel Comparable := fun p q => inferInstanceAs (Decidable (p <+: q ∨ q <+: p))

namespace Assignments

variable {key other : String} {value more : Json} {path road place : List String}
  {members after others : List (String × Json)}

/-- Setting a member to what is put below its key, or to the value at the end of the path. -/
theorem put_of_item {segment : String} {item : Json}
    (h : path = [] ∧ item = value ∨ path ≠ [] ∧ ∃ inner changed,
      (Members.find? segment members).getD (.object []) = .object inner ∧
      put key value path inner = .ok changed ∧ item = .object changed) :
    put key value (segment :: path) members = .ok (Members.insert segment item members) := by
  rcases h with ⟨rfl, rfl⟩ | ⟨hPath, inner, changed, hInner, hChanged, rfl⟩
  · rfl
  · obtain ⟨next, path, rfl⟩ := List.exists_cons_of_ne_nil hPath
    rw [put, hInner]
    exact Except.bind_eq_ok_iff.mpr ⟨changed, hChanged, rfl⟩

/-- Values whose paths are not comparable may be put in either order. -/
theorem put_comm {middle : List (String × Json)} (hApart : ¬Comparable path road)
    (hFirst : put key value path members = .ok middle)
    (hSecond : put other more road middle = .ok after) :
    ∃ early, put other more road members = .ok early ∧ put key value path early = .ok after := by
  induction path generalizing road members middle after with
  | nil => exact absurd (.inl road.nil_prefix) hApart
  | cons k path ih =>
      cases road with
      | nil => exact absurd (comparable_nil _) hApart
      | cons l road =>
          obtain ⟨item, rfl, hItem⟩ := exists_of_put hFirst
          obtain ⟨second, rfl, hSecondItem⟩ := exists_of_put hSecond
          by_cases hKey : k = l
          · -- Both paths lead on below one key, and what they lead to there can be swapped.
            subst hKey
            have hBelow : ¬Comparable path road := fun h => hApart (comparable_cons.mpr ⟨rfl, h⟩)
            obtain ⟨rfl, -⟩ | ⟨hPath, inner, changed, hInner, hChanged, rfl⟩ := hItem
            · exact absurd (.inl road.nil_prefix) hBelow
            obtain ⟨rfl, -⟩ | ⟨hRoad, reached, last, hReached, hLast, rfl⟩ := hSecondItem
            · exact absurd (comparable_nil _) hBelow
            rw [Members.find?_insert, if_pos rfl, Option.getD_some] at hReached
            cases hReached
            obtain ⟨early, hEarly, hLate⟩ := ih hBelow hChanged hLast
            have hFound : (Members.find? k (Members.insert k (.object early) members)).getD
                (.object []) = .object early := by
              rw [Members.find?_insert, if_pos rfl, Option.getD_some]
            have hAfter := put_of_item (.inr ⟨hPath, early, last, hFound, hLate, rfl⟩)
            rw [Members.insert_insert] at hAfter ⊢
            exact ⟨_, put_of_item (.inr ⟨hRoad, inner, early, hInner, hEarly, rfl⟩), hAfter⟩
          · rw [Members.find?_insert, if_neg hKey] at hSecondItem
            refine ⟨_, put_of_item hSecondItem, ?_⟩
            rw [Members.insert_comm (Ne.symm hKey)]
            refine put_of_item ?_
            rw [Members.find?_insert, if_neg (Ne.symm hKey)]
            exact hItem

/-- What stands at a place after a value was put depends on the members only through what stood there
before. -/
theorem get?_put_congr {last : List (String × Json)} (hPath : path ≠ [])
    (h : put key value path members = .ok after) (h' : put key value path others = .ok last)
    (hSame : Json.get? place (.object members) = Json.get? place (.object others)) :
    Json.get? place (.object after) = Json.get? place (.object last) := by
  by_cases hBelow : path <+: place
  · obtain ⟨rest, rfl⟩ := hBelow
    rw [Json.get?_append, Json.get?_append, get?_put hPath h, get?_put hPath h']
  by_cases hAbove : place <+: path
  · obtain ⟨rest, rfl⟩ := hAbove
    have hRest : rest ≠ [] := by
      rintro rfl
      exact hBelow (by rw [List.append_nil])
    obtain ⟨inner, changed, hInner, hChanged, hFound⟩ := exists_of_put_above hRest h
    obtain ⟨inner', changed', hInner', hChanged', hFound'⟩ := exists_of_put_above hRest h'
    rw [hSame, hInner'] at hInner
    cases hInner
    rw [hFound, hFound', Except.ok.inj (hChanged.symm.trans hChanged')]
  · have hNot : ¬Comparable path place := not_or.mpr ⟨hBelow, hAbove⟩
    rw [get?_put_of_not_comparable hNot h, get?_put_of_not_comparable hNot h', hSame]

/-- At the places in question nothing is in the way in the other members that is not in the way in the
members. -/
def Clearer (places : List String → Prop) (members others : List (String × Json)) : Prop :=
  ∀ place, places place → Json.Occupied place (.object others) → Json.Occupied place (.object members)

section Run

variable {places : List String → Prop} {argument : String} {a : Assignment}

theorem assign_eq_ok_iff : assign members argument = .ok after ↔
    ∃ a, read argument = .ok a ∧ put a.key a.value a.path members = .ok after :=
  Except.bind_eq_ok_iff

/-- An assignment that is accepted is accepted where less is in the way, and leaves it so. -/
theorem Clearer.put (hClearer : Clearer places members others) (hPath : path ≠ [])
    (hStarts : ∀ start, start <+: path → places start)
    (h : put key value path members = .ok after) : ∃ last,
      Assignments.put key value path others = .ok last ∧ Clearer places after last := by
  have hFree := exists_put_iff.mp ⟨after, h⟩
  obtain ⟨last, hLast⟩ : ∃ last, Assignments.put key value path others = .ok last :=
    exists_put_iff.mpr fun start hStart hProper hOccupied =>
      hFree start hStart hProper (hClearer start (hStarts start hStart) hOccupied)
  refine ⟨last, hLast, fun place hPlace hOccupied => ?_⟩
  rw [occupied_put_iff hPath hLast] at hOccupied
  rw [occupied_put_iff hPath h]
  exact hOccupied.imp_right fun ⟨hApart, hOther⟩ => ⟨hApart, hClearer place hPlace hOther⟩

/-- An assignment may be left out if its path leads to none of the places. -/
theorem Clearer.skip (hClearer : Clearer places members others) (hPath : path ≠ [])
    (hApart : ∀ place, places place → ¬path <+: place)
    (h : Assignments.put key value path members = .ok after) : Clearer places after others :=
  fun place hPlace hOccupied =>
    (occupied_put_iff hPath h).mpr (.inr ⟨hApart place hPlace, hClearer place hPlace hOccupied⟩)

/-- A run in which some arguments are left out, by induction on the arguments. Those that are kept
start among the places, and those that are left out lead to none of them. -/
theorem exists_foldlM_filter (places : List String → Prop) (keep : String → Bool)
    {arguments : List String}
    (hKeep : ∀ argument a, read argument = .ok a → keep argument = true →
      ∀ start, start <+: a.path → places start)
    (hSkip : ∀ argument a, read argument = .ok a → keep argument = false →
      ∀ place, places place → ¬a.path <+: place)
    (hClearer : Clearer places members others)
    (h : arguments.foldlM assign members = .ok after) : ∃ alone,
      (arguments.filter keep).foldlM assign others = .ok alone ∧
      ∀ place, (∀ argument a, read argument = .ok a → keep argument = false →
          ¬Comparable a.path place) →
        Json.get? place (.object members) = Json.get? place (.object others) →
        Json.get? place (.object after) = Json.get? place (.object alone) := by
  induction arguments generalizing members others with
  | nil =>
      cases h
      exact ⟨others, rfl, fun _ _ hSame => hSame⟩
  | cons argument arguments ih =>
      obtain ⟨middle, hAssign, hRest⟩ := Except.bind_eq_ok_iff.mp h
      obtain ⟨a, hRead, hPut⟩ := assign_eq_ok_iff.mp hAssign
      have hPath := (of_read hRead).1
      cases hArgument : keep argument with
      | true =>
          rw [List.filter_cons_of_pos hArgument]
          obtain ⟨last, hLast, hClearer⟩ :=
            hClearer.put hPath (hKeep argument a hRead hArgument) hPut
          obtain ⟨alone, hAlone, hSame⟩ := ih hClearer hRest
          refine ⟨alone, Except.bind_eq_ok_iff.mpr
            ⟨last, assign_eq_ok_iff.mpr ⟨a, hRead, hLast⟩, hAlone⟩, fun place hPlace hEqual => ?_⟩
          exact hSame place hPlace (get?_put_congr hPath hPut hLast hEqual)
      | false =>
          rw [List.filter_cons_of_neg (by simp [hArgument])]
          obtain ⟨alone, hAlone, hSame⟩ :=
            ih (hClearer.skip hPath (hSkip argument a hRead hArgument) hPut) hRest
          refine ⟨alone, hAlone, fun place hPlace hEqual => hSame place hPlace ?_⟩
          rw [get?_put_of_not_comparable (hPlace argument a hRead hArgument) hPut, hEqual]

/-- An assignment that comes last in a run decides what stands at its path and below it, whatever came
before. -/
theorem exists_foldlM_of_read {later : List String} (hRead : read argument = .ok a)
    (h : (argument :: later).foldlM assign members = .ok after) : ∃ tail,
      ofArguments (argument :: later) = .ok tail ∧ ∀ place, a.path <+: place →
        Json.get? place (.object after) = Json.get? place (.object tail) := by
  have hPath := (of_read hRead).1
  obtain ⟨middle, hAssign, hRest⟩ := Except.bind_eq_ok_iff.mp h
  obtain ⟨_, hRead', hPut⟩ := assign_eq_ok_iff.mp hAssign
  cases hRead.symm.trans hRead'
  have hEmpty : Clearer (fun _ => True) members [] := fun _ _ hOccupied =>
    absurd hOccupied Json.not_occupied_empty
  obtain ⟨first, hFirst, hClearer⟩ := hEmpty.put hPath (fun _ _ => trivial) hPut
  obtain ⟨tail, hTail, hSame⟩ := exists_foldlM_filter (fun _ => True) (fun _ => true)
    (fun _ _ _ _ _ _ => trivial) (fun _ _ _ hSkipped => by cases hSkipped) hClearer hRest
  rw [List.filter_eq_self.mpr fun _ _ => rfl] at hTail
  refine ⟨tail, Except.bind_eq_ok_iff.mpr
    ⟨first, assign_eq_ok_iff.mpr ⟨a, hRead, hFirst⟩, hTail⟩, ?_⟩
  rintro place ⟨rest, rfl⟩
  refine hSame _ (fun _ _ _ hSkipped => by cases hSkipped) ?_
  rw [Json.get?_append, Json.get?_append, get?_put hPath hPut, get?_put hPath hFirst]

end Run

theorem comparable_start {start : List String} (hStart : start <+: path)
    (h : Comparable path place) : Comparable start place := by
  rcases h with hPath | hPlace
  · exact .inl (hStart.trans hPath)
  · exact List.prefix_or_prefix_of_prefix hStart hPlace

/-- Whether the path of an argument is comparable with a place. -/
def touches (place : List String) (argument : String) : Bool :=
  match read argument with
  | .ok a => Comparable a.path place
  | .error _ => false

section Touches

variable {arguments : List String}

theorem touches_of_read {argument : String} {a : Assignment} (hRead : read argument = .ok a) :
    touches place argument = true ↔ Comparable a.path place := by
  rw [touches, hRead, decide_eq_true_iff]

/-- What stands at a place after a run is what the arguments make that are comparable with it. -/
theorem exists_foldlM_touches (place : List String)
    (h : arguments.foldlM assign members = .ok after) : ∃ alone,
      (arguments.filter (touches place)).foldlM assign members = .ok alone ∧
        Json.get? place (.object after) = Json.get? place (.object alone) := by
  have hSkipped : ∀ argument a, read argument = .ok a → touches place argument = false →
      ¬Comparable a.path place := fun argument a hRead hSkip hComparable =>
    Bool.eq_false_iff.mp hSkip ((touches_of_read hRead).mpr hComparable)
  obtain ⟨alone, hAlone, hSame⟩ := exists_foldlM_filter (Comparable · place) (touches place)
    (fun argument a hRead hKeep start hStart =>
      comparable_start hStart ((touches_of_read hRead).mp hKeep))
    (fun argument a hRead hSkip start hStart hPath =>
      hSkipped argument a hRead hSkip (comparable_start hPath hStart))
    (fun _ _ hOccupied => hOccupied) h
  exact ⟨alone, hAlone, hSame place hSkipped rfl⟩

theorem get?_of_not_touches (hApart : ∀ argument ∈ arguments, touches place argument = false)
    (h : arguments.foldlM assign members = .ok after) :
    Json.get? place (.object after) = Json.get? place (.object members) := by
  obtain ⟨alone, hAlone, hSame⟩ := exists_foldlM_touches place h
  have hNone : arguments.filter (touches place) = [] := by
    rw [List.filter_eq_nil_iff]
    exact fun argument hMem => Bool.eq_false_iff.mp (hApart argument hMem)
  rw [hNone] at hAlone
  cases hAlone
  exact hSame

end Touches

/-- Two arguments that are read have comparable paths. -/
def Related (x y : String) : Prop :=
  ∃ a b, read x = .ok a ∧ read y = .ok b ∧ Comparable a.path b.path

theorem swaps_assign : Swaps Related assign := by
  intro x y s t u hApart hx hy
  obtain ⟨a, hReadX, hPutX⟩ := assign_eq_ok_iff.mp hx
  obtain ⟨b, hReadY, hPutY⟩ := assign_eq_ok_iff.mp hy
  have hNot : ¬Comparable a.path b.path := fun h => hApart ⟨b, a, hReadY, hReadX, h.symm⟩
  obtain ⟨early, hEarly, hLate⟩ := put_comm hNot hPutX hPutY
  exact ⟨early, assign_eq_ok_iff.mpr ⟨b, hReadY, hEarly⟩, assign_eq_ok_iff.mpr ⟨a, hReadX, hLate⟩⟩

/-- Assignments as updates of places. Where arguments are accepted: what stands at a place is what the
arguments that are comparable with it make alone. The value of an argument is found at its path if no
later argument is comparable with the path, and in any case what stands there or below is what the
argument and the later ones make, so that the last of several with one path wins. At a place that is
comparable with no argument nothing stands. Arguments may be reordered unless their paths are
comparable. And a value that is put into the members on the way makes them what `put` does, or leaves
them as they were. Arguments are refused if and only if one of them is not read, or one meets at a
proper start of its path a value that is no object. -/
theorem ofArguments_updates (arguments : List String) :
    (∀ members, ofArguments arguments = .ok members →
      (∀ place, ∃ alone, ofArguments (arguments.filter (touches place)) = .ok alone ∧
        Json.get? place (.object members) = Json.get? place (.object alone)) ∧
      (∀ before argument later a, arguments = before ++ argument :: later →
        read argument = .ok a →
          ((∀ other ∈ later, touches a.path other = false) →
            Json.get? a.path (.object members) = some a.value) ∧
          ∃ tail, ofArguments (argument :: later) = .ok tail ∧ ∀ place, a.path <+: place →
            Json.get? place (.object members) = Json.get? place (.object tail)) ∧
      (∀ place, place ≠ [] → (∀ argument ∈ arguments, touches place argument = false) →
        Json.get? place (.object members) = none) ∧
      (∀ others, Reordered Related arguments others → ofArguments others = .ok members) ∧
      ∀ key value path,
        walk key value path members = left members (put key value path members)) ∧
    ((∃ cause, ofArguments arguments = .error cause) ↔
      (∃ argument ∈ arguments, Malformed argument) ∨
      ∃ before argument later built a, arguments = before ++ argument :: later ∧
        ofArguments before = .ok built ∧ read argument = .ok a ∧
        ∃ place, place <+: a.path ∧ place ≠ a.path ∧ Json.Occupied place (.object built)) := by
  refine ⟨fun members h => ⟨fun place => exists_foldlM_touches place h, ?_, ?_,
    fun others hOthers => swaps_assign.foldlM_reordered hOthers h,
    fun key value path => walk_eq (ordered_of_ofArguments h)⟩, exists_ofArguments_error_iff⟩
  · rintro before argument later a rfl hRead
    rw [ofArguments, List.foldlM_append] at h
    obtain ⟨built, -, hRest⟩ := Except.bind_eq_ok_iff.mp h
    refine ⟨fun hApart => ?_, exists_foldlM_of_read hRead hRest⟩
    obtain ⟨middle, hAssign, hLater⟩ := Except.bind_eq_ok_iff.mp hRest
    obtain ⟨_, hRead', hPut⟩ := assign_eq_ok_iff.mp hAssign
    cases hRead.symm.trans hRead'
    rw [get?_of_not_touches hApart hLater, get?_put (of_read hRead).1 hPut]
  · intro place hPlace hApart
    rw [get?_of_not_touches hApart h]
    obtain ⟨k, rest, rfl⟩ := List.exists_cons_of_ne_nil hPlace
    rfl

end Assignments

end LedgerSigning
