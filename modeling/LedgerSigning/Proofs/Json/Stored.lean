import LedgerSigning.Proofs.Json.Settled

/-! Documents that are stored. In the layout of documents a number keeps what kind of number it is
and all its bits, so a document is read from its text as it was, if it is nested no deeper than the
reader goes. If its members are not in order, they are put in order. -/
namespace LedgerSigning

namespace Number

/-- Where whole floats have a point and zero its sign, a number is read from its token as it was. -/
theorem number?_token {l : Layout} (hPointed : l.pointed = true) (hSign : l.signsZero = true)
    (n : Number) : (n.token l).number? = some n := by
  cases n with
  | integer n range => exact token_integer l n range
  | float x finite =>
      obtain ⟨significand, exponent, hToken⟩ : ∃ significand exponent,
          (float x finite).token l = .decimal x.negative significand exponent := by
        simp only [token, Layout.token, hPointed, hSign, if_true, Bool.and_true]
        split_ifs <;> exact ⟨_, _, rfl⟩
      obtain ⟨v, hDenotes, hNear⟩ : ∃ v, ((float x finite).token l).Denotes x.negative v ∧
          Binary64.codeNear v = x.code := by
        have hCode := (Binary64.code_lt_of_isFinite finite).le
        rcases Nat.eq_zero_or_pos x.code with hZero | hPos
        · refine ⟨0, ?_, by rw [Binary64.codeNear_zero, hZero]⟩
          rw [token, if_pos hZero, if_pos hPointed, hSign, Bool.and_true]
          exact ⟨rfl, by simp⟩
        · exact ⟨_, token_float_denotes l finite hPos, (Decimal.shortest_spec l.ties hCode hPos).1⟩
      rw [hToken] at hDenotes ⊢
      obtain ⟨-, rfl⟩ := hDenotes
      have hFloat : Binary64.ofDecimal x.negative significand exponent = x :=
        Binary64.ext (Binary64.ofDecimal_negative _ _ _)
          ((Binary64.ofDecimal_code _ _ _).trans hNear)
      rw [Tree.number?, ofDecimal?, hFloat, ofBinary64?_eq finite]

end Number

theorem Members.ofList_eq_self {α : Type} {members : List (String × α)}
    (hSorted : (members.map Prod.fst).Pairwise (· < ·)) : ofList members = members :=
  eq_of_mem_iff (ofList_sorted members) hSorted fun _ =>
    (ofList_perm (hSorted.imp fun hLess => ne_of_lt hLess)).mem_iff

/-- Lists of items that are each related to themselves, or to nothing. -/
theorem forall₂_iff_eq {α : Type} {R : α → α → Prop} {p : α → Prop} {l l' : List α}
    (h : ∀ a ∈ l, ∀ b, R a b ↔ p a ∧ b = a) :
    List.Forall₂ R l l' ↔ (∀ a ∈ l, p a) ∧ l' = l := by
  induction l generalizing l' with
  | nil => simp
  | cons a l ih =>
      obtain ⟨hFirst, hRest⟩ := List.forall_mem_cons.mp h
      rw [List.forall₂_cons_left_iff, List.forall_mem_cons]
      constructor
      · rintro ⟨b, others, hb, hOthers, rfl⟩
        obtain ⟨hp, rfl⟩ := (hFirst b).mp hb
        obtain ⟨hAll, rfl⟩ := (ih hRest).mp hOthers
        exact ⟨⟨hp, hAll⟩, rfl⟩
      · rintro ⟨⟨hp, hAll⟩, rfl⟩
        exact ⟨a, l, (hFirst a).mpr ⟨hp, rfl⟩, (ih hRest).mpr ⟨hAll, rfl⟩, rfl⟩

namespace Json

variable {l : Layout} {doc w : Json} {levels : Nat}

/-- The tree of an ordered document stands for the document and no other, and for none where the
levels are too few. -/
theorem toJson?_tree_iff (hPointed : l.pointed = true) (hSign : l.signsZero = true)
    (hOrdered : doc.Ordered) :
    (doc.tree l).toJson? levels = some w ↔ doc.depth ≤ levels ∧ w = doc := by
  induction doc generalizing levels w with
  | null => simp [tree, Tree.toJson?, depth, eq_comm]
  | bool b => simp [tree, Tree.toJson?, depth, eq_comm]
  | string s => simp [tree, Tree.toJson?, depth, eq_comm]
  | number n =>
      rw [tree, Tree.toJson?_of_number? (Number.number?_token hPointed hSign n)]
      simp [depth, eq_comm]
  | array items ih =>
      rw [tree_array]
      cases levels with
      | zero => simp [Tree.toJson?, depth]
      | succ levels =>
          rw [ordered_array_iff] at hOrdered
          rw [Tree.toJson?_array_eq_some_iff]
          simp only [List.forall₂_map_left_iff,
            forall₂_iff_eq fun item hItem _ => ih item hItem (hOrdered item hItem)]
          rw [depth, Nat.succ_le_succ_iff, itemDepth_le_iff]
          constructor
          · rintro ⟨_, rfl, hDepth, rfl⟩
            exact ⟨hDepth, rfl⟩
          · rintro ⟨hDepth, rfl⟩
            exact ⟨items, rfl, hDepth, rfl⟩
  | object members ih =>
      rw [tree_object]
      cases levels with
      | zero => simp [Tree.toJson?, depth]
      | succ levels =>
          obtain ⟨hSorted, hInner⟩ := ordered_object_iff.mp hOrdered
          have hMember : ∀ m ∈ members, ∀ value : String × Json,
              Tree.IsMember levels (some m.1, m.2.tree l) value ↔
                m.2.depth ≤ levels ∧ value = m := by
            rintro ⟨key, item⟩ hMem ⟨k, value⟩
            rw [Tree.IsMember, ih key item hMem (hInner key item hMem), Prod.mk.injEq,
              Option.some.injEq, eq_comm (a := key)]
            exact and_left_comm
          rw [Tree.toJson?_object_eq_some_iff]
          simp only [List.forall₂_map_left_iff, forall₂_iff_eq hMember]
          rw [depth, Nat.succ_le_succ_iff, memberDepth_le_iff]
          constructor
          · rintro ⟨_, rfl, hDepth, rfl⟩
            exact ⟨fun key value => hDepth (key, value), by rw [Members.ofList_eq_self hSorted]⟩
          · rintro ⟨hDepth, rfl⟩
            exact ⟨members, by rw [Members.ofList_eq_self hSorted], fun m => hDepth m.1 m.2, rfl⟩

/-- How the tree of a written document is read. -/
theorem toJson?_tree_document (hOrdered : doc.Ordered) (levels : Nat) :
    (doc.tree .document).toJson? levels = if doc.depth ≤ levels then some doc else none := by
  have hIff {w : Json} := @toJson?_tree_iff .document doc w levels rfl rfl hOrdered
  split_ifs with hDepth
  · exact hIff.mpr ⟨hDepth, rfl⟩
  · exact Option.eq_none_iff_forall_ne_some.mpr fun w hw => hDepth (hIff.mp hw).1

/-- A document without repeated keys is read from its tree with the members in another order, if
the levels are enough. -/
theorem exists_toJson?_tree (hPointed : l.pointed = true) (hSign : l.signsZero = true)
    (hDistinct : doc.Distinct) (hDepth : doc.depth ≤ levels) :
    ∃ w, (doc.tree l).toJson? levels = some w ∧ Reordered doc w := by
  induction doc generalizing levels with
  | null => exact ⟨.null, rfl, .null⟩
  | bool b => exact ⟨.bool b, rfl, .bool b⟩
  | string s => exact ⟨.string s, rfl, .string s⟩
  | number n =>
      exact ⟨.number n, Tree.toJson?_of_number? (Number.number?_token hPointed hSign n) levels,
        .number rfl⟩
  | array items ih =>
      have hLevels : 0 < levels := by simp only [depth] at hDepth; omega
      obtain ⟨levels, rfl⟩ := Nat.exists_eq_add_one.mpr hLevels
      have hItemDepth := itemDepth_le_iff.mp (Nat.le_of_succ_le_succ hDepth)
      rw [distinct_array_iff] at hDistinct
      have hRead : List.Forall₂ (fun t d => ∃ w, t.toJson? levels = some w ∧ Reordered d w)
          (items.map (tree l)) items :=
        List.forall₂_map_left_iff.mpr (List.forall₂_same.mpr fun item hItem =>
          ih item hItem (hDistinct item hItem) (hItemDepth item hItem))
      obtain ⟨values, hValues, hAlike⟩ := exists_forall₂_of_exists hRead
      rw [tree_array]
      exact ⟨.array values, Tree.toJson?_array_eq_some_iff.mpr ⟨values, rfl, hValues⟩,
        .array hAlike⟩
  | object members ih =>
      have hLevels : 0 < levels := by simp only [depth] at hDepth; omega
      obtain ⟨levels, rfl⟩ := Nat.exists_eq_add_one.mpr hLevels
      have hMemberDepth := memberDepth_le_iff.mp (Nat.le_of_succ_le_succ hDepth)
      obtain ⟨hKeys, hInner⟩ := distinct_object_iff.mp hDistinct
      have hValue {key : String} {value : Json} (hMem : (key, value) ∈ members) :=
        ih key value hMem (hInner key value hMem) (hMemberDepth key value hMem)
      have hNamed : (members.map fun m => (m.1, m.2.tree l)).map Prod.fst =
          members.map Prod.fst := by
        rw [List.map_map]
        rfl
      have hRead (key : String) (t : Tree) (hMem : (key, t) ∈ members.map fun m =>
          (m.1, m.2.tree l)) : ∃ w, t.toJson? levels = some w := by
        obtain ⟨⟨k, value⟩, hMember, hEq⟩ := List.mem_map.mp hMem
        cases hEq
        obtain ⟨w, hw, -⟩ := hValue hMember
        exact ⟨w, hw⟩
      obtain ⟨others, hObject, hOthers, hOrigin⟩ := Tree.toJson?_named (hNamed ▸ hKeys) hRead
      rw [List.map_map] at hObject
      rw [tree_object]
      refine ⟨.object others, hObject, .object (fun key => ?_) ?_⟩
      · rw [hOthers, hNamed]
      · intro key value other hMember hOther
        obtain ⟨t, hMem, hTree⟩ := hOrigin key other hOther
        obtain ⟨⟨k, v⟩, hFound, hEq⟩ := List.mem_map.mp hMem
        cases hEq
        obtain ⟨w, hw, hAlike⟩ := hValue hFound
        rw [hTree] at hw
        rw [Option.some.inj hw, ← member_unique hKeys hFound hMember]
        exact hAlike

/-- The canonical text forgets in which order the members were. -/
theorem canonical_eq_of_reordered {d e : Json} (hd : d.Distinct) (he : e.Distinct)
    (h : Reordered d e) : e.canonical = d.canonical := by
  rw [canonical, canonical, sorted_eq_of_reordered hd he h]

/-- A document without repeated keys is read from its text as one with the same canonical text. -/
theorem exists_toJson?_document (hDistinct : doc.Distinct) (hDepth : doc.depth ≤ levels) :
    ∃ w, (doc.tree .document).toJson? levels = some w ∧ w.canonical = doc.canonical := by
  obtain ⟨w, hRead, hReordered⟩ := @exists_toJson?_tree .document doc levels rfl rfl hDistinct hDepth
  exact ⟨w, hRead,
    canonical_eq_of_reordered hDistinct (Tree.toJson?_wellFormed hRead).1 hReordered⟩

end Json

end LedgerSigning
