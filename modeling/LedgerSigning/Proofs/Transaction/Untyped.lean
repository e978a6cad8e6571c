import LedgerSigning.Proofs.Transport
import LedgerSigning.Transaction.Basic

/-! Records read as free documents. The text of a record is read as a document whose members stand in
another order, and which has the same canonical text. So who knows nothing of records finds the hash
that was signed. -/
namespace LedgerSigning

namespace Json

/-- Two documents with the same canonical text, or refused for the same cause, and so the same for
those who sign and verify. -/
structure Agrees (w doc : Json) : Prop where
  canonical : w.canonical = doc.canonical
  hash : ∀ mode, w.hash mode = doc.hash mode
  sign : ∀ mode key, w.sign mode key = doc.sign mode key
  verifiesProof : ∀ mode proof, w.verifiesProof mode proof = doc.verifiesProof mode proof

theorem agrees_of_canonical {w doc : Json} (h : w.canonical = doc.canonical) : Agrees w doc := by
  have hHash (mode : Mode) : w.hash mode = doc.hash mode := by
    rw [Json.hash, preimage, h]
    rfl
  refine ⟨h, hHash, fun mode key => ?_, fun mode proof => ?_⟩
  · rw [Json.sign, hHash]
    rfl
  · rw [Json.verifiesProof, hHash]
    rfl

variable {doc : Json} {style : Writer.Style}

theorem exists_ofText?_write (hStyle : style.Readable) (hLayout : style.layout = .document)
    (hDistinct : doc.Distinct) (hDepth : doc.depth ≤ Tree.maxLevels) :
    ∃ w, ofText? (String.ofList (Writer.write style 0 doc)) = some w ∧ Agrees w doc := by
  obtain ⟨w, hRead, hCanonical⟩ := exists_toJson?_document hDistinct hDepth
  have hTree := Tree.ofText?_write hStyle doc
  rw [hLayout] at hTree
  refine ⟨w, ?_, agrees_of_canonical hCanonical⟩
  rw [ofText?, String.toList_ofList, hTree]
  exact hRead

end Json

/-- A document that repeats no key and is nested no deeper than the levels. -/
def Json.WellFormed (levels : Nat) (doc : Json) : Prop := doc.Distinct ∧ doc.depth ≤ levels

namespace Json.WellFormed

variable {levels : Nat}

theorem string (s : String) : (Json.string s).WellFormed levels :=
  ⟨distinct_string s, Nat.zero_le _⟩

theorem number (n : Number) : (Json.number n).WellFormed levels :=
  ⟨distinct_number n, Nat.zero_le _⟩

theorem ofUInt64 (n : UInt64) : (Json.ofUInt64 n).WellFormed levels := number _

theorem ofBinary64 (x : Binary64) : (Json.ofBinary64 x).WellFormed levels := by
  unfold Json.ofBinary64
  split
  · exact number _
  · exact ⟨distinct_null, Nat.zero_le _⟩

theorem array {items : List Json} (h : ∀ item ∈ items, item.WellFormed levels) :
    (Json.array items).WellFormed (levels + 1) :=
  ⟨distinct_array_iff.mpr fun item hItem => (h item hItem).1,
    Nat.succ_le_succ (itemDepth_le_iff.mpr fun item hItem => (h item hItem).2)⟩

theorem object {members : List (String × Json)} (hKeys : (members.map Prod.fst).Nodup)
    (h : ∀ m ∈ members, m.2.WellFormed levels) : (Json.object members).WellFormed (levels + 1) :=
  ⟨distinct_object_iff.mpr ⟨hKeys, fun key value hMem => (h (key, value) hMem).1⟩,
    Nat.succ_le_succ (memberDepth_le_iff.mpr fun key value hMem => (h (key, value) hMem).2)⟩

theorem mono {more : Nat} {doc : Json} (h : doc.WellFormed levels) (hLe : levels ≤ more) :
    doc.WellFormed more := ⟨h.1, h.2.trans hLe⟩

end Json.WellFormed

/-- A signed record is read as a signed document with the same proofs. -/
theorem Signed.exists_ofText?_write {α : Type} {write : α → Json} {signed : Signed α}
    {style : Writer.Style} (hStyle : style.Readable) (hLayout : style.layout = .document)
    (hDistinct : (write signed.value).Distinct)
    (hDepth : (write signed.value).depth < Tree.maxLevels) :
    ∃ w, ofText? (String.ofList (Writer.write style 0 (signed.toJson write))) =
        some ⟨w, signed.proofs⟩ ∧ w.Agrees (write signed.value) := by
  obtain ⟨w, hRead, hCanonical⟩ :=
    Json.exists_toJson?_document hDistinct (Nat.le_sub_one_of_lt hDepth)
  have hTree := Tree.ofText?_write hStyle (signed.toJson write)
  rw [hLayout] at hTree
  refine ⟨w, ?_, Json.agrees_of_canonical hCanonical⟩
  rw [ofText?, String.toList_ofList, hTree, Option.bind_eq_bind, Option.bind_some,
    ofTree?_toJson, hRead]
  rfl

/-- What is signed as a record: a requested transfer, a reference, the body of a transaction, or a
transaction with its proofs. -/
inductive Message where
  | transfer (t : Transfer)
  | reference (r : Reference)
  | body (b : Body)
  | transaction (tx : Transaction)

namespace Message

def toJson : Message → Json
  | transfer t => t.toJson
  | reference r => r.toJson
  | body b => b.toJson
  | transaction tx => Transaction.toJson tx

/-- The fields of a record have different names, and its parts are plain values and records. -/
theorem wellFormed (m : Message) : m.toJson.WellFormed 3 := by
  have hReference (r : Reference) : r.toJson.WellFormed 1 :=
    .object (by simp) (by simp [Json.WellFormed.string, Json.WellFormed.ofUInt64])
  have hBody (b : Body) : b.toJson.WellFormed 2 :=
    .object (by simp) (by simp [Json.WellFormed.string, Json.WellFormed.ofUInt64, hReference])
  have hProof (proof : Proof) : proof.toJson.WellFormed 1 :=
    .object (by simp) (by simp [Json.WellFormed.string])
  cases m with
  | transfer t =>
      exact .object (by simp) (by simp [Json.WellFormed.string, Json.WellFormed.ofBinary64])
  | reference r => exact (hReference r).mono (by decide)
  | body b => exact (hBody b).mono (by decide)
  | transaction tx =>
      have hProofs : (Json.array (tx.proofs.map Proof.toJson)).WellFormed 2 :=
        .array (by simpa using fun proof _ => hProof proof)
      exact .object (by simp) (by simp [hBody, hProofs])

/-- Whoever reads the text of a message as a free document, alone or as the value of a signed
document, finds the canonical text of the message, or the cause for which it has none, and so its
hash, its proofs and their verdict. -/
theorem read_agrees (m : Message) (pretty : Bool) :
    let written (doc : Json) := if pretty then doc.pretty else doc.compact
    (∃ w, Json.ofText? (written m.toJson) = some w ∧ w.Agrees m.toJson) ∧
    ∀ proofs, ∃ w, w.Agrees m.toJson ∧
      Signed.ofText? (written (Signed.toJson toJson ⟨m, proofs⟩)) = some ⟨w, proofs⟩ ∧
      ∀ mode, (⟨w, proofs⟩ : Signed Json).verdict mode =
        .ofHash (m.toJson.hash mode) proofs := by
  intro written
  obtain ⟨style, hStyle, hLayout, hWritten⟩ : ∃ style : Writer.Style, style.Readable ∧
      style.layout = .document ∧
      ∀ doc, written doc = String.ofList (Writer.write style 0 doc) := by
    cases pretty with
    | true => exact ⟨_, Writer.readable_pretty, rfl, fun _ => rfl⟩
    | false => exact ⟨_, Writer.readable_compact, rfl, fun _ => rfl⟩
  obtain ⟨hDistinct, hDepth⟩ := m.wellFormed
  have hLevels : m.toJson.depth < Tree.maxLevels := Nat.lt_of_le_of_lt hDepth (by decide)
  rw [hWritten]
  refine ⟨Json.exists_ofText?_write hStyle hLayout hDistinct hLevels.le, fun proofs => ?_⟩
  obtain ⟨w, hRead, hAgrees⟩ := @Signed.exists_ofText?_write _ toJson ⟨m, proofs⟩ style hStyle
    hLayout hDistinct hLevels
  refine ⟨w, hAgrees, (congrArg Signed.ofText? (hWritten _)).trans hRead, fun mode => ?_⟩
  rw [Signed.verdict, hAgrees.hash]

end Message

end LedgerSigning
