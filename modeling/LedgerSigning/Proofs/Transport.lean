import Mathlib
import LedgerSigning.Proofs.Json.Record
import LedgerSigning.Proofs.Json.Stored
import LedgerSigning.Signing

/-! Signed objects in transport. The proofs of a signed object are read from its text as they are,
and its value as it is read from a text of its own, at one level more. So a signed document is read
as it was written, and whoever verifies it or adds a signature finds what the sender would. -/
namespace LedgerSigning

theorem Proof.readBack : ReadBack Proof.toJson Proof.ofTree? := by
  rintro l ⟨id, signature⟩
  have hFields := @Tree.fields?_object l
    [("id", .string id), ("signature", .string signature)] (by simp)
  simp only [List.map_cons, List.map_nil] at hFields
  simp [Proof.toJson, Proof.ofTree?, hFields, Tree.text?_tree]

namespace Signed

/-- A signed object is read from a record of its value and its proofs. -/
theorem ofTree?_eq_some_iff {α : Type} {read : Tree → Option α} {tree : Tree} {signed : Signed α} :
    ofTree? read tree = some signed ↔ ∃ value proofs : Tree,
      tree.fields? ["value", "proofs"] = some [some value, some proofs] ∧
      read value = some signed.value ∧ proofs.list? Proof.ofTree? = some signed.proofs := by
  rw [ofTree?, Option.bind_eq_bind, Option.bind_eq_some_iff]
  constructor
  · rintro ⟨fields, hFields, hRead⟩
    split at hRead
    next value proofs =>
      simp only [Option.bind_eq_bind, Option.bind_eq_some_iff, Option.some.injEq] at hRead
      obtain ⟨_, hValue, _, hProofs, rfl⟩ := hRead
      exact ⟨value, proofs, hFields, hValue, hProofs⟩
    next => cases hRead
  · rintro ⟨value, proofs, hFields, hValue, hProofs⟩
    refine ⟨_, hFields, ?_⟩
    simp only [hValue, hProofs, Option.bind_eq_bind, Option.bind_some]

/-- A signed object is read as far as its value is read. -/
theorem ofTree?_toJson {α β : Type} {write : α → Json} {read : Tree → Option β} (l : Layout)
    (signed : Signed α) : ofTree? read ((toJson write signed).tree l) =
      (read ((write signed.value).tree l)).map fun value => ⟨value, signed.proofs⟩ := by
  obtain ⟨value, proofs⟩ := signed
  have hFields := @Tree.fields?_object l
    [("value", write value), ("proofs", .array (proofs.map Proof.toJson))] (by simp)
  simp only [List.map_cons, List.map_nil] at hFields
  have hProofs := Tree.list?_tree l fun proof (_ : proof ∈ proofs) => Proof.readBack l proof
  cases hValue : read ((write value).tree l) <;> simp [toJson, ofTree?, hFields, hValue, hProofs]

theorem readBack {α : Type} {write : α → Json} {read : Tree → Option α}
    (hValue : ReadBack write read) : ReadBack (toJson write) (ofTree? read) := by
  intro l signed
  rw [ofTree?_toJson, hValue]
  rfl

/-- A signed document is read as it was, if it is nested no deeper than the levels allow. -/
theorem ofTree?_document {signed : Signed Json} (hOrdered : signed.value.Ordered) (levels : Nat) :
    ofTree? (Tree.toJson? levels) (signed.document.tree .document) =
      if signed.value.depth ≤ levels then some signed else none := by
  rw [document, ofTree?_toJson, id, Json.toJson?_tree_document hOrdered]
  split_ifs <;> rfl

variable {signed : Signed Json}

/-- The levels that a text may have are one more than its value may have. -/
theorem ofText?_write {style : Writer.Style} (hStyle : style.Readable)
    (hLayout : style.layout = .document) (hOrdered : signed.value.Ordered) :
    ofText? (String.ofList (Writer.write style 0 signed.document)) =
      if signed.value.depth < Tree.maxLevels then some signed else none := by
  have hTree := Tree.ofText?_write hStyle signed.document
  rw [hLayout] at hTree
  have hLevels : signed.value.depth ≤ Tree.maxLevels - 1 ↔ signed.value.depth < Tree.maxLevels :=
    Nat.le_sub_one_iff_lt (by decide)
  rw [ofText?, String.toList_ofList, hTree, Option.bind_eq_bind, Option.bind_some,
    ofTree?_document hOrdered]
  simp only [hLevels]

/-- A signed document whose value was read from a text, and leaves one level for the object around
it, is read from its compact and from its pretty text as it was: integers and floats as such and to
the last bit, and all proofs in order. So the verdict on what was read is the verdict on what was
written, and adding a signature to it has the same outcome. -/
theorem ofText?_written {text written : String} (hValue : Json.ofText? text = some signed.value)
    (hDepth : signed.value.depth < Tree.maxLevels)
    (hWritten : written = signed.document.compact ∨ written = signed.document.pretty) :
    ofText? written = some signed ∧
      (∀ mode, (ofText? written).map (verdict mode) = some (signed.verdict mode)) ∧
      ∀ mode key, (ofText? written).map (addSignature mode · key) =
        some (signed.addSignature mode key) := by
  have hOrdered := Json.ordered_of_ofText? hValue
  have hRead : ofText? written = some signed := by
    rcases hWritten with rfl | rfl
    · exact (ofText?_write Writer.readable_compact rfl hOrdered).trans (if_pos hDepth)
    · exact (ofText?_write Writer.readable_pretty rfl hOrdered).trans (if_pos hDepth)
  rw [hRead]
  exact ⟨rfl, fun _ => rfl, fun _ _ => rfl⟩

/-- Minus zero, a whole float beside the integer, a control character, a character beyond 16 bits,
and a proof that stands twice. -/
theorem ofText?_written_minusZero :
    let proof : Proof := ⟨"\x00\"", "𐀀"⟩
    let signed : Signed Json := ⟨.array [.number (.float (.zero true) (by decide)),
      .number (.float (.ofBits 0x3FF0000000000000) (by decide)),
      .number (.integer 1 (by decide)), .string "\x01𐀀"], [proof, proof]⟩
    signed.document.compact = "\x7b\"value\":[-0.0,1.0,1,\"\\u0001𐀀\"],\"proofs\":[" ++
      "\x7b\"id\":\"\\u0000\\\"\",\"signature\":\"𐀀\"\x7d," ++
      "\x7b\"id\":\"\\u0000\\\"\",\"signature\":\"𐀀\"\x7d]\x7d" ∧
    ofText? signed.document.compact = some signed ∧
      ofText? signed.document.pretty = some signed := by
  intro proof signed
  have hTree : Tree.ofText? "[-0.0,1.0,1,\"\\u0001𐀀\"]".toList = some (.array
      [.decimal true 0 (-1), .decimal false 10 (-1), .integer false 1,
        .string (some "\x01𐀀")]) := by cbv
  have hZero : Number.ofDecimal? true 0 (-1) = some (.float (.zero true) (by decide)) := by
    decide +kernel
  have hOne : Number.ofDecimal? false 10 (-1) =
      some (.float (.ofBits 0x3FF0000000000000) (by decide)) := by decide +kernel
  have hInteger : Number.ofInteger? false 1 = some (.integer 1 (by decide)) := by decide +kernel
  have hValue : Json.ofText? "[-0.0,1.0,1,\"\\u0001𐀀\"]" = some signed.value := by
    rw [Json.ofText?, hTree]
    simp [Tree.toJson?, Tree.toJson?.itemsToJson?, Tree.maxLevels, hZero, hOne, hInteger, signed]
  have hDepth : signed.value.depth < Tree.maxLevels := by decide
  exact ⟨by decide +kernel, (ofText?_written hValue hDepth (.inl rfl)).1,
    (ofText?_written hValue hDepth (.inr rfl)).1⟩

end Signed

end LedgerSigning
