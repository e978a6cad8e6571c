import LedgerSigning.Proofs.Json.Canonical
import LedgerSigning.Proofs.Json.Token

/-! What becomes of a document that is written canonically and read again. Its floats are replaced
by the numbers that their texts are read as, and everything else stays where it is. -/
namespace LedgerSigning

theorem Members.eq_of_mem_iff {α : Type} {members others : List (String × α)}
    (hMembers : (members.map Prod.fst).Pairwise (· < ·))
    (hOthers : (others.map Prod.fst).Pairwise (· < ·))
    (hMem : ∀ m, m ∈ members ↔ m ∈ others) : members = others := by
  have hNodup {ms : List (String × α)} (h : (ms.map Prod.fst).Pairwise (· < ·)) : ms.Nodup :=
    List.Nodup.of_map _ (h.imp fun hLess => ne_of_lt hLess)
  have hPerm : members.Perm others :=
    (List.perm_ext_iff_of_nodup (hNodup hMembers) (hNodup hOthers)).mpr hMem
  refine hPerm.eq_of_pairwise ?_ (List.pairwise_map.mp hMembers) (List.pairwise_map.mp hOthers)
  intro m n _ _ hBefore hAfter
  exact absurd (lt_trans hBefore hAfter) (lt_irrefl _)

/-- The number that stands for another once its canonical text was read: an integer stays, and a
float becomes what its text is read as. -/
def Number.settled : Number → Number
  | .integer n range => .integer n range
  | .float x finite =>
    match Json.ofText? (String.ofList (Layout.canonical.text x)) with
    | some (.number n) => n
    | _ => .float x finite

namespace Json

/-- The document with all its numbers settled. -/
def settled : Json → Json
  | .null => .null
  | .bool b => .bool b
  | .number n => .number n.settled
  | .string s => .string s
  | .array items => .array (settleItems items)
  | .object members => .object (settleMembers members)
where
  settleItems : List Json → List Json
    | [] => []
    | item :: rest => settled item :: settleItems rest
  settleMembers : List (String × Json) → List (String × Json)
    | [] => []
    | (key, value) :: rest => (key, settled value) :: settleMembers rest

theorem settled_number (n : Number) : settled (.number n) = .number n.settled := rfl

theorem settled_array (items : List Json) :
    settled (.array items) = .array (items.map settled) := by
  have hItems (items : List Json) : settled.settleItems items = items.map settled := by
    induction items with
    | nil => rfl
    | cons item rest ih => rw [settled.settleItems, ih, List.map_cons]
  rw [settled, hItems]

theorem settled_object (members : List (String × Json)) :
    settled (.object members) = .object (members.map fun m => (m.1, m.2.settled)) := by
  have hMembers (members : List (String × Json)) :
      settled.settleMembers members = members.map fun m => (m.1, m.2.settled) := by
    induction members with
    | nil => rfl
    | cons m rest ih =>
        obtain ⟨key, value⟩ := m
        rw [settled.settleMembers, ih, List.map_cons]
  rw [settled, hMembers]

/-- The members of every object stand in increasing order of their keys. -/
def Ordered : Json → Prop :=
  Everywhere fun part => ∀ members, part = .object members →
    (members.map Prod.fst).Pairwise (· < ·)

theorem ordered_array_iff {items : List Json} :
    Ordered (.array items) ↔ ∀ item ∈ items, Ordered item := by
  simp [Ordered, everywhere_array_iff]

theorem ordered_object_iff {members : List (String × Json)} :
    Ordered (.object members) ↔ (members.map Prod.fst).Pairwise (· < ·) ∧
      ∀ key value, (key, value) ∈ members → Ordered value := by
  simp [Ordered, everywhere_object_iff]

/-- The canonical text of a number is read as the number that its token stands for. -/
theorem Reread.ofText? {m n : Number} (h : Reread m n) :
    Json.ofText? (String.ofList (Writer.number .canonical m)) = some (.number n) := by
  have hTree : Tree.ofText? (Writer.number .canonical m) = some (m.token .canonical) :=
    Tree.ofText?_write Writer.readable_canonical (.number m)
  simp [Json.ofText?, hTree, Tree.toJson?_of_number? h]

theorem Reread.eq_settled {m n : Number} (h : Reread m n) : n = m.settled := by
  cases m with
  | integer k range =>
      rw [Reread, Number.token_integer] at h
      exact (Option.some.inj h).symm
  | float x finite =>
      have hText : Json.ofText? (String.ofList (Layout.canonical.text x)) = some (.number n) :=
        h.ofText?
      simp only [Number.settled, hText]

/-- Of two ordered documents that are alike, one is determined by the other. -/
theorem eq_settled {doc w : Json} (hDoc : doc.Ordered) (hw : w.Ordered)
    (h : Alike Reread doc w) : w = doc.settled := by
  induction doc generalizing w with
  | null => cases h; rfl
  | bool b => cases h; rfl
  | string s => cases h; rfl
  | number n => cases h with | number hNumber => rw [settled_number, hNumber.eq_settled]
  | array items ih =>
      cases h with
      | @array _ others hItems =>
          rw [ordered_array_iff] at hDoc hw
          rw [settled_array]
          congr 1
          rw [← List.forall₂_eq_eq_eq, List.forall₂_map_right_iff]
          rw [List.forall₂_iff_zip] at hItems
          refine (List.forall₂_iff_zip.mpr ⟨hItems.1, fun {item other} hMem => ?_⟩).flip
          obtain ⟨hLeft, hRight⟩ := List.of_mem_zip hMem
          exact ih item hLeft (hDoc item hLeft) (hw other hRight) (hItems.2 hMem)
  | object members ih =>
      cases h with
      | @object _ others hKeys hValues =>
          obtain ⟨hMembers, hInner⟩ := ordered_object_iff.mp hDoc
          obtain ⟨hOthers, hInner'⟩ := ordered_object_iff.mp hw
          have hUnique : (members.map Prod.fst).Nodup := hMembers.imp fun hLess => ne_of_lt hLess
          have hUnique' : (others.map Prod.fst).Nodup := hOthers.imp fun hLess => ne_of_lt hLess
          have hSettled {key : String} {value other : Json} (hMem : (key, value) ∈ members)
              (hOther : (key, other) ∈ others) : other = value.settled :=
            ih key value hMem (hInner key value hMem) (hInner' key other hOther)
              (hValues key value other hMem hOther)
          rw [settled_object]
          congr 1
          refine Members.eq_of_mem_iff hOthers (by rwa [List.map_map]) ?_
          rintro ⟨key, other⟩
          constructor
          · intro hOther
            obtain ⟨value, hMem⟩ := exists_member (fun key => (hKeys key).symm) hOther
            exact List.mem_map.mpr ⟨(key, value), hMem, by rw [hSettled hMem hOther]⟩
          · intro hImage
            obtain ⟨⟨k, value⟩, hMem, hEq⟩ := List.mem_map.mp hImage
            cases hEq
            obtain ⟨other, hOther⟩ := exists_member hKeys hMem
            rwa [← hSettled hMem hOther]

end Json

namespace Tree

/-- A document that is read has the members of its objects in order. -/
theorem toJson?_ordered {tree : Tree} {levels : Nat} {doc : Json}
    (h : tree.toJson? levels = some doc) : doc.Ordered := by
  rintro _ hPart members rfl
  obtain ⟨below, part, -, hRead⟩ := exists_part hPart h
  obtain ⟨below, named, values, rfl, -, rfl, -⟩ := exists_of_toJson?_object hRead
  exact Members.ofList_sorted values

end Tree

theorem Json.ordered_of_ofText? {text : String} {doc : Json} (h : Json.ofText? text = some doc) :
    doc.Ordered := by
  obtain ⟨tree, -, hTree⟩ := Option.bind_eq_some_iff.mp h
  exact Tree.toJson?_ordered hTree

end LedgerSigning
