import LedgerSigning.Json.Record
import LedgerSigning.Proofs.Json.Written

/-! Records that are written as documents are read from their trees. -/
namespace LedgerSigning

theorem mapM_eq_some_iff {α β : Type} {f : α → Option β} {l : List α} {values : List β} :
    l.mapM f = some values ↔ List.Forall₂ (fun a b => f a = some b) l values := by
  induction l generalizing values with
  | nil => simp [eq_comm]
  | cons a l ih =>
      simp only [List.mapM_cons, Option.bind_eq_bind, Option.bind_eq_some_iff, Option.pure_def,
        Option.some.injEq, List.forall₂_cons_left_iff, ih]
      constructor
      · rintro ⟨b, hFirst, others, hOthers, rfl⟩
        exact ⟨b, others, hFirst, hOthers, rfl⟩
      · rintro ⟨b, others, hFirst, hOthers, rfl⟩
        exact ⟨b, hFirst, others, hOthers, rfl⟩

theorem mapM_eq_some {α β : Type} {f : α → Option β} {g : α → β} {l : List α}
    (h : ∀ a ∈ l, f a = some (g a)) : l.mapM f = some (l.map g) :=
  mapM_eq_some_iff.mpr (List.forall₂_map_right_iff.mpr (List.forall₂_same.mpr h))

theorem mapM_congr {α β : Type} {f g : α → Option β} {l : List α} (h : ∀ a ∈ l, f a = g a) :
    l.mapM f = l.mapM g := by
  induction l with
  | nil => rfl
  | cons a l ih =>
      rw [List.mapM_cons, List.mapM_cons, h a List.mem_cons_self,
        ih fun b hb => h b (List.mem_cons_of_mem _ hb)]

namespace Tree

/-- The member of a key that is not repeated is found. -/
theorem field?_of_mem {members : List (String × Tree)} (hKeys : (members.map Prod.fst).Nodup)
    {key : String} {tree : Tree} (hMem : (key, tree) ∈ members) :
    field? (members.map fun m => (some m.1, m.2)) key = some (some tree) := by
  have hFilter : (members.map fun m => (some m.1, m.2)).filter (·.1 = some key) =
      [(some key, tree)] := by
    induction members with
    | nil => cases hMem
    | cons m rest ih =>
        obtain ⟨hFirst, hRest⟩ := List.nodup_cons.mp hKeys
        rcases List.mem_cons.mp hMem with rfl | hMem
        · have hNone : (rest.map fun m => (some m.1, m.2)).filter (·.1 = some key) = [] := by
            rw [List.filter_eq_nil_iff]
            rintro _ hOther hEq
            obtain ⟨m, hm, rfl⟩ := List.mem_map.mp hOther
            simp only [decide_eq_true_eq, Option.some.injEq] at hEq
            exact hFirst (List.mem_map.mpr ⟨m, hm, hEq⟩)
          rw [List.map_cons, List.filter_cons_of_pos (by simp), hNone]
        · have hNe : m.1 ≠ key := by
            rintro rfl
            exact hFirst (List.mem_map.mpr ⟨_, hMem, rfl⟩)
          rw [List.map_cons, List.filter_cons_of_neg (by simpa using hNe)]
          exact ih hRest hMem
  rw [field?, hFilter]

/-- An object is read as a record of the fields that it has, in their order. -/
theorem fields?_object (l : Layout) {members : List (String × Json)}
    (hKeys : (members.map Prod.fst).Nodup) :
    ((Json.object members).tree l).fields? (members.map Prod.fst) =
      some (members.map fun m => some (m.2.tree l)) := by
  have hTrees : (members.map fun m => (some m.1, m.2.tree l)) =
      (members.map fun m => (m.1, m.2.tree l)).map fun m => (some m.1, m.2) := by
    rw [List.map_map]
    rfl
  have hFirst : (members.map fun m => (m.1, m.2.tree l)).map Prod.fst = members.map Prod.fst := by
    rw [List.map_map]
    rfl
  rw [Json.tree_object, fields?, if_pos (by simp), List.mapM_map]
  refine mapM_eq_some fun m hMem => ?_
  rw [hTrees]
  exact field?_of_mem (by rwa [hFirst]) (List.mem_map_of_mem hMem)

theorem list?_tree {α : Type} (l : Layout) {write : α → Json} {read : Tree → Option α}
    {values : List α} (hRead : ∀ value ∈ values, read ((write value).tree l) = some value) :
    ((Json.array (values.map write)).tree l).list? read = some values := by
  rw [Json.tree_array, List.map_map, list?, List.mapM_map]
  have hValues := mapM_eq_some (g := id) hRead
  rwa [List.map_id] at hValues

theorem text?_tree (l : Layout) (s : String) : ((Json.string s).tree l).text? = some s := rfl

theorem numeralText?_tree (l : Layout) (s : String) :
    ((Json.string s).tree l).numeralText? = some s := rfl

theorem unsigned64?_tree (l : Layout) (n : UInt64) :
    ((Json.ofUInt64 n).tree l).unsigned64? = some n := by
  have hLess : n.toNat < Numeral.words := n.toNat_lt
  have hSign : decide ((n.toNat : Int) < 0) = false := by simp
  simp [Json.ofUInt64, Json.tree, Number.token, unsigned64?, hSign, hLess]

section Differing

variable {before after : List String} {name : String} {R : Tree → Tree → Prop} {tree other : Tree}

/-- Records that are the same but for the field of a name, which is related. Both are objects, or
both are arrays of the fields in order. -/
inductive SameBut (before after : List String) (name : String) (R : Tree → Tree → Prop) :
    Tree → Tree → Prop
  | member (init rest : List (Option String × Tree)) {x y : Tree} (h : R x y) :
      SameBut before after name R (.object (init ++ (some name, x) :: rest))
        (.object (init ++ (some name, y) :: rest))
  | item (init rest : List Tree) {x y : Tree} (hPlace : init.length = before.length) (h : R x y) :
      SameBut before after name R (.array (init ++ x :: rest)) (.array (init ++ y :: rest))

theorem field?_of_ne {init rest : List (Option String × Tree)} {x y : Tree} {key : String}
    (hNe : key ≠ name) : field? (init ++ (some name, x) :: rest) key =
      field? (init ++ (some name, y) :: rest) key := by
  have hOther : ¬some name = some key := fun h => hNe (Option.some.inj h).symm
  simp only [field?, List.filter_append, List.filter_cons, hOther, decide_false, Bool.false_eq_true,
    if_false]

/-- The named field is found in both records, or repeated in both. -/
theorem field?_replaced (name : String) (init rest : List (Option String × Tree)) :
    (∀ x, field? (init ++ (some name, x) :: rest) name = none) ∨
      ∀ x, field? (init ++ (some name, x) :: rest) name = some (some x) := by
  simp only [field?, List.filter_append, List.filter_cons, decide_true, if_true]
  generalize init.filter (·.1 = some name) = before
  generalize rest.filter (·.1 = some name) = after
  match before, after with
  | [], [] => exact .inr fun _ => rfl
  | [], _ :: _ => exact .inl fun _ => rfl
  | [_], _ => exact .inl fun _ => rfl
  | _ :: _ :: _, _ => exact .inl fun _ => rfl

/-- Neither is a record, or both have the same fields but for the one of the name. -/
theorem SameBut.fields? (hNames : (before ++ name :: after).Nodup)
    (h : SameBut before after name R tree other) :
    (tree.fields? (before ++ name :: after) = none ∧
      other.fields? (before ++ name :: after) = none) ∨
    ∃ fs gs x y, fs.length = before.length ∧ gs.length = after.length ∧ R x y ∧
      tree.fields? (before ++ name :: after) = some (fs ++ some x :: gs) ∧
      other.fields? (before ++ name :: after) = some (fs ++ some y :: gs) := by
  cases h with
  | @member init rest x y hField =>
      have hNe {key : String} (hMem : key ∈ before ∨ key ∈ after) : key ≠ name := by
        rintro rfl
        rw [List.nodup_append, List.nodup_cons] at hNames
        rcases hMem with hMem | hMem
        · exact hNames.2.2 key hMem key (by simp) rfl
        · exact hNames.2.1.1 hMem
      have hBefore : before.mapM (field? (init ++ (some name, x) :: rest)) =
          before.mapM (field? (init ++ (some name, y) :: rest)) :=
        mapM_congr fun key hMem => field?_of_ne (hNe (.inl hMem))
      have hAfter : after.mapM (field? (init ++ (some name, x) :: rest)) =
          after.mapM (field? (init ++ (some name, y) :: rest)) :=
        mapM_congr fun key hMem => field?_of_ne (hNe (.inr hMem))
      have hKeys (z : Tree) : (init ++ (some name, z) :: rest).all (·.1.isSome) =
          (init ++ rest).all (·.1.isSome) := by simp
      simp only [Tree.fields?, hKeys]
      split_ifs
      · simp only [List.mapM_append, List.mapM_cons, hBefore, hAfter]
        cases hFs : before.mapM (field? (init ++ (some name, y) :: rest)) with
        | none => exact .inl ⟨rfl, rfl⟩
        | some fs =>
            have hFew := (mapM_eq_some_iff.mp hFs).length_eq.symm
            rcases field?_replaced name init rest with hNone | hFound
            · rw [hNone, hNone]
              exact .inl ⟨rfl, rfl⟩
            · rw [hFound, hFound]
              cases hGs : after.mapM (field? (init ++ (some name, y) :: rest)) with
              | none => exact .inl ⟨rfl, rfl⟩
              | some gs =>
                  have hMore := (mapM_eq_some_iff.mp hGs).length_eq.symm
                  exact .inr ⟨fs, gs, x, y, hFew, hMore, hField, rfl, rfl⟩
      · exact .inl ⟨rfl, rfl⟩
  | @item init rest x y hPlace hField =>
      have hLength (z : Tree) : (init ++ z :: rest).length = before.length + (rest.length + 1) := by
        simp [hPlace]
      simp only [Tree.fields?, hLength]
      split_ifs with hShort
      · simp only [List.length_append, List.length_cons] at hShort
        refine .inr ⟨init.map some, rest.map some ++ List.replicate (after.length - rest.length) none,
          x, y, by simp [hPlace], by simp; omega, hField, ?_⟩
        have hMissing : before.length + (after.length + 1) - (before.length + (rest.length + 1)) =
            after.length - rest.length := by omega
        simp [hMissing]
      · exact .inl ⟨rfl, rfl⟩

end Differing

end Tree

/-- What is written as a document is read from its tree, in any layout of numbers. -/
def ReadBack {α : Type} (write : α → Json) (read : Tree → Option α) : Prop :=
  ∀ l value, read ((write value).tree l) = some value

end LedgerSigning
