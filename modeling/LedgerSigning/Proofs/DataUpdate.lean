import Mathlib
import LedgerSigning.Proofs.Json.Reread
import LedgerSigning.Proofs.Json.Settled
import LedgerSigning.Proofs.Preimage
import LedgerSigning.Proofs.Text.Mark
import LedgerSigning.Proofs.Text.Numeral
import LedgerSigning.Signing

/-! Data updates received. A receiver opens what was wrapped and reads the document again, with its
floats settled; its bytes, and with them the proofs, are those of the sender unless a number is
unstable. -/
namespace LedgerSigning

namespace DataUpdate

variable {line payload : List Char} {declared : Nat}

theorem isPrefixOf?_header (rest : List Char) : header.isPrefixOf? (header ++ rest) = some rest :=
  List.isPrefixOf?_eq_some_iff_append_eq.mpr rfl

theorem unwrap_of_line_none (hLine : '\n' ∉ line)
    (hLength : Numeral.below? Numeral.words line = none) :
    unwrap (Utf8.encode (header ++ (line ++ '\n' :: payload))) =
      .error (.badLength (String.ofList line)) := by
  obtain ⟨hTake, hDrop⟩ := Text.split_mark hLine payload
  simp only [unwrap, Utf8.decode_encode, Except.mapError, bind, Except.bind, isPrefixOf?_header,
    hTake, hDrop, hLength]

/-- Only a payload of the length that the line gives is opened. -/
theorem unwrap_of_line_some (hLine : '\n' ∉ line)
    (hLength : Numeral.below? Numeral.words line = some declared) :
    unwrap (Utf8.encode (header ++ (line ++ '\n' :: payload))) =
      if declared ≠ payload.length then .error (.lengthMismatch declared payload.length)
      else (Base64.decode (Utf8.encode payload)).mapError .base64 >>= fun bytes =>
        (Utf8.decode bytes).mapError .utf8 := by
  obtain ⟨hTake, hDrop⟩ := Text.split_mark hLine payload
  simp only [unwrap, Utf8.decode_encode, Except.mapError, bind, Except.bind, isPrefixOf?_header,
    hTake, hDrop, hLength]

/-- What was wrapped is unwrapped, if its length fits the 64 bits in which it is read. -/
theorem unwrap_wrap {s : List Char}
    (hFits : (Base64.encode (Utf8.encode s)).length < Numeral.words) :
    unwrap (wrap (Utf8.encode s)) = .ok s := by
  have hLine : '\n' ∉ Numeral.ofNat (Base64.encode (Utf8.encode s)).length := fun hFeed =>
    absurd ((Reader.isRow_toDigits _).digit _ hFeed) (by decide)
  have hLength : (Base64.encode (Utf8.encode s)).length =
      (payloadText (Utf8.encode s)).length := by
    rw [payloadText, List.length_map]
  rw [wrap_eq, wrapText, unwrap_of_line_some hLine (Numeral.below?_ofNat hFits),
    if_neg (not_not.mpr hLength), encode_payloadText, Base64.decode_encode]
  simp only [Except.mapError, bind, Except.bind, Utf8.decode_encode]

theorem length_encode_le_wrap (payload : List UInt8) :
    (Base64.encode payload).length ≤ (wrap payload).length := by
  simp [wrap]

theorem decode_wrap {s : List Char}
    (hFits : (Base64.encode (Utf8.encode s)).length < Numeral.words) {doc : Json}
    (hRead : Json.ofText? (String.ofList s) = some doc) :
    decode (wrap (Utf8.encode s)) = .ok doc := by
  have hTree : (Tree.ofText? s).bind (Tree.toJson? Tree.maxLevels) = some doc := by
    simpa [Json.ofText?, Option.bind] using hRead
  rw [decode, decodeAs, unwrap_wrap hFits]
  simp [bind, Except.bind, hTree]

end DataUpdate

namespace Json

/-- Without a canonical text a document has no preimage, and no proof verifies for it. -/
theorem preimage_of_unsafe {doc : Json} (hUnsafe : ¬doc.Safe) (mode : Mode) :
    ∃ cause, doc.preimage mode = .error cause ∧
      ∀ proof, doc.verifiesProof mode proof = false := by
  cases hText : doc.canonical with
  | ok s => exact absurd (canonical_eq_ok_iff.mp hText).1 hUnsafe
  | error cause =>
      have hPreimage : doc.preimage mode = .error (.canonical cause) := by
        rw [preimage, hText]
        rfl
      refine ⟨_, hPreimage, fun proof => ?_⟩
      rw [verifiesProof, hash, hPreimage]
      rfl

/-- The canonical text of a document that was read is read again as a document with this text,
and a data update as one with these bytes and these valid proofs, if and only if no float of the
document is unstable. -/
theorem fixed_point_iff {text : String} {doc : Json} {s : List Char}
    (hRead : Json.ofText? text = some doc) (hText : doc.canonical = .ok s) :
    ∃ w, Json.ofText? (String.ofList s) = some w ∧ (w.canonical = .ok s ↔ ¬doc.Unstable) ∧
      ((Base64.encode (Utf8.encode s)).length < Numeral.words →
        ∃ octets, doc.preimage .dataUpdate = .ok octets ∧ DataUpdate.decode octets = .ok w ∧
          (w.preimage .dataUpdate = .ok octets ↔ ¬doc.Unstable) ∧
          ∀ proof, w.verifiesProof .dataUpdate proof = true ↔
            doc.verifiesProof .dataUpdate proof = true ∧ ¬doc.Unstable) := by
  obtain ⟨tree, -, hTree⟩ : ∃ tree, Tree.ofText? text.toList = some tree ∧
      tree.toJson? Tree.maxLevels = some doc := by
    simpa [Json.ofText?, Option.bind_eq_some_iff] using hRead
  obtain ⟨hDistinct, hDepth⟩ := Tree.toJson?_wellFormed hTree
  obtain ⟨w, hAgain, -, hSafe, hFixed⟩ := reread_canonical hDistinct hDepth hText
  refine ⟨w, hAgain, hFixed, fun hFits => ?_⟩
  have hSent := preimage_of_canonical hText .dataUpdate
  refine ⟨_, hSent, DataUpdate.decode_wrap hFits hAgain, ?_⟩
  by_cases hUnstable : doc.Unstable
  · have hUnsafe : ¬w.Safe := fun hwSafe => hSafe.mp hwSafe hUnstable
    obtain ⟨cause, hNone, hInvalid⟩ := preimage_of_unsafe hUnsafe .dataUpdate
    simp [hNone, hInvalid, hUnstable]
  · have hReceived := preimage_of_canonical (hFixed.mpr hUnstable) .dataUpdate
    simp [hReceived, verifiesProof, hash, hSent, hUnstable]

/-- Ten to the sixteenth is unstable: its text is read as an integer beyond the safe ones. -/
theorem fixed_point_iff_whole : ∃ doc w,
    Json.ofText? "[1e16]" = some doc ∧ doc.canonical = .ok "[10000000000000000]".toList ∧
    Json.ofText? "[10000000000000000]" = some w ∧
    w.canonical = .error (.unsafeInteger 10000000000000000) ∧ doc.Unstable := by
  have hDoc : (Json.ofText? "[1e16]").map canonical =
      some (.ok "[10000000000000000]".toList) := by decide +kernel
  have hAgain : (Json.ofText? "[10000000000000000]").map canonical =
      some (.error (.unsafeInteger 10000000000000000)) := by decide +kernel
  obtain ⟨doc, hRead, hText⟩ := Option.map_eq_some_iff.mp hDoc
  obtain ⟨w, hReread, hError⟩ := Option.map_eq_some_iff.mp hAgain
  obtain ⟨w', hReread', hFixed, -⟩ := fixed_point_iff hRead hText
  rw [String.ofList_toList, hReread] at hReread'
  cases hReread'
  refine ⟨doc, w, hRead, hText, hReread, hError, ?_⟩
  by_contra hStable
  rw [hFixed.mpr hStable] at hError
  cases hError

/-- The bytes of a document are decoded to the document with its floats settled. The text of a
float is read as a number of the same value, minus zero as zero. -/
theorem decode_preimage {text : String} {doc : Json} {octets : List UInt8}
    (hRead : ofText? text = some doc) (hSent : doc.preimage .dataUpdate = .ok octets)
    (hFits : octets.length < Numeral.words) : DataUpdate.decode octets = .ok doc.settled ∧
      ∀ x finite, ∃ n, ofText? (String.ofList (Layout.canonical.text x)) = some (.number n) ∧
        (Number.float x finite).settled = n ∧ n.double = x.unsignedZero := by
  obtain ⟨first, -, hFirst⟩ : ∃ tree, Tree.ofText? text.toList = some tree ∧
      tree.toJson? Tree.maxLevels = some doc := by
    simpa [ofText?, Option.bind_eq_some_iff] using hRead
  obtain ⟨hDistinct, hDepth⟩ := Tree.toJson?_wellFormed hFirst
  refine ⟨?_, fun x finite => ?_⟩
  · cases hText : doc.canonical with
    | error cause =>
        rw [preimage, hText] at hSent
        cases hSent
    | ok s =>
        rw [preimage_of_canonical hText] at hSent
        cases hSent
        have hPayload : (Base64.encode (Utf8.encode s)).length < Numeral.words :=
          (DataUpdate.length_encode_le_wrap _).trans_lt hFits
        obtain ⟨tree, hTree, hSpells⟩ := ofText?_canonical hDistinct hText
        obtain ⟨w, hAgain, hAlike⟩ := hSpells.toJson? hDepth
        rw [← eq_settled (Tree.toJson?_ordered hFirst) (Tree.toJson?_ordered hAgain) hAlike]
        exact DataUpdate.decode_wrap hPayload (by simp [ofText?, hTree, hAgain])
  · obtain ⟨n, hReread, -⟩ := Number.token_double .canonical (.float x finite)
    have hNumber : Reread (.float x finite) n := hReread
    exact ⟨n, hNumber.ofText?, hNumber.eq_settled.symm, hNumber.double.symm⟩

/-- Two and minus zero come back as integers, and a half as a float. -/
theorem decode_preimage_whole :
    let two := Binary64.ofBits 0x4000000000000000
    let zero := Binary64.ofBits 0x8000000000000000
    let half := Binary64.ofBits 0x3FE0000000000000
    let doc : Json := .array [.number (.float two (by decide)),
      .number (.float zero (by decide)), .number (.float half (by decide))]
    let settled : Json := .array [.number (.integer 2 (by decide)),
      .number (.integer 0 (by decide)), .number (.float half (by decide))]
    ofText? "[2.0,-0.0,0.5]" = some doc ∧ doc.canonical = .ok "[2,0,0.5]".toList ∧
      DataUpdate.decode (DataUpdate.wrap (Utf8.encode "[2,0,0.5]".toList)) = .ok settled := by
  intro two zero half doc settled
  have hTree : Tree.ofText? "[2.0,-0.0,0.5]".toList = some (.array
      [.decimal false 20 (-1), .decimal true 0 (-1), .decimal false 5 (-1)]) := by cbv
  have hTwo : Number.ofDecimal? false 20 (-1) = some (.float two (by decide)) := by
    decide +kernel
  have hZero : Number.ofDecimal? true 0 (-1) = some (.float zero (by decide)) := by
    decide +kernel
  have hHalf : Number.ofDecimal? false 5 (-1) = some (.float half (by decide)) := by
    decide +kernel
  have hRead : ofText? "[2.0,-0.0,0.5]" = some doc := by
    rw [ofText?, hTree]
    simp [Tree.toJson?, Tree.toJson?.itemsToJson?, Tree.maxLevels, hTwo, hZero, hHalf, doc]
  have hText : doc.canonical = .ok "[2,0,0.5]".toList := by decide +kernel
  have hDecoded := (decode_preimage hRead (preimage_of_canonical hText .dataUpdate)
    (by decide +kernel)).1
  have hTwo' : Reread (.float two (by decide)) (.integer 2 (by decide)) := by
    unfold Reread
    decide +kernel
  have hZero' : Reread (.float zero (by decide)) (.integer 0 (by decide)) := by
    unfold Reread
    decide +kernel
  have hHalf' : Reread (.float half (by decide)) (.float half (by decide)) := by
    unfold Reread
    decide +kernel
  have hSettled : doc.settled = settled := by
    simp only [doc, settled, settled_array, settled_number, List.map_cons, List.map_nil,
      ← hTwo'.eq_settled, ← hZero'.eq_settled, ← hHalf'.eq_settled]
  rw [hSettled] at hDecoded
  exact ⟨hRead, hText, hDecoded⟩

end Json

end LedgerSigning
