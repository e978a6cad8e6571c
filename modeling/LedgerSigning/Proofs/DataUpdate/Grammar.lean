import LedgerSigning.Proofs.DataUpdate

/-! Which octets are data updates. What is accepted is what could have been written, but for the
zeros and the sign that the length may start with. What is refused is refused for its outermost layer
that is broken. -/
namespace LedgerSigning

namespace DataUpdate

/-- A text that is split into the header, a line with the length, and a payload. -/
structure Framed (octets : List UInt8) (line payload : List Char) : Prop where
  octets_eq : octets = Utf8.encode (header ++ (line ++ '\n' :: payload))
  not_mem : '\n' ∉ line

/-- The line stands for the number of characters in the payload. -/
structure Measured (octets : List UInt8) (line payload : List Char) : Prop
    extends Framed octets line payload where
  denotes : Numeral.Denotes line payload.length
  bound : payload.length < Numeral.words

/-- The payload is the base64 text of the octets of a text. -/
def Wraps (octets : List UInt8) (text : List Char) : Prop :=
  ∃ line payload, Measured octets line payload ∧
    Utf8.encode payload = Base64.encode (Utf8.encode text)

/-- The first layer that is broken, from the outside in. -/
inductive Broken (octets : List UInt8) : EncodingError → Prop
  | utf8 {fault : Utf8Error} (hBroken : ∀ text, octets ≠ Utf8.encode text)
      (hFault : Utf8.decode octets = .error fault) : Broken octets (.utf8 fault)
  | header {text : List Char} (hText : octets = Utf8.encode text)
      (hBroken : ∀ rest, text ≠ header ++ rest) : Broken octets .missingHeader
  | delimiter {rest : List Char} (hText : octets = Utf8.encode (header ++ rest))
      (hBroken : '\n' ∉ rest) : Broken octets .missingDelimiter
  | length {line payload : List Char} (hFramed : Framed octets line payload)
      (hBroken : ∀ n < Numeral.words, ¬Numeral.Denotes line n) :
      Broken octets (.badLength (String.ofList line))
  | mismatch {line payload : List Char} {declared : Nat} (hFramed : Framed octets line payload)
      (hLength : Numeral.Denotes line declared) (hBound : declared < Numeral.words)
      (hBroken : declared ≠ payload.length) :
      Broken octets (.lengthMismatch declared payload.length)
  | base64 {line payload : List Char} {fault : Base64Error}
      (hMeasured : Measured octets line payload)
      (hBroken : ∀ bytes, Utf8.encode payload ≠ Base64.encode bytes)
      (hFault : Base64.decode (Utf8.encode payload) = .error fault) : Broken octets (.base64 fault)
  | payload {line payload : List Char} {bytes : List UInt8} {fault : Utf8Error}
      (hMeasured : Measured octets line payload) (hBytes : Utf8.encode payload = Base64.encode bytes)
      (hBroken : ∀ text, bytes ≠ Utf8.encode text) (hFault : Utf8.decode bytes = .error fault) :
      Broken octets (.utf8 fault)
  | json {text : List Char} (hWraps : Wraps octets text)
      (hBroken : Json.ofText? (String.ofList text) = none) : Broken octets .json

variable {octets : List UInt8} {text line payload : List Char} {doc : Json} {cause : EncodingError}

theorem decode_of_unwrap_error (h : unwrap octets = .error cause) :
    decode octets = .error cause := by
  rw [decode, decodeAs, h]
  rfl

/-- What is left to open when the length is right. -/
theorem Measured.unwrap (h : Measured octets line payload) : unwrap octets =
    ((Base64.decode (Utf8.encode payload)).mapError .base64 >>= fun bytes =>
      (Utf8.decode bytes).mapError .utf8) := by
  rw [h.octets_eq, unwrap_of_line_some h.not_mem
    (Numeral.below?_eq_some_iff.mpr ⟨h.denotes, h.bound⟩), if_neg (not_not.mpr rfl)]

theorem Wraps.unwrap (h : Wraps octets text) : unwrap octets = .ok text := by
  obtain ⟨line, payload, hMeasured, hPayload⟩ := h
  rw [hMeasured.unwrap, hPayload, Base64.decode_encode]
  simp only [Except.mapError, bind, Except.bind, Utf8.decode_encode]

/-- What was unwrapped is a document or no JSON. -/
theorem Wraps.decode (h : Wraps octets text) :
    decode octets = (Json.ofText? (String.ofList text)).elim (.error .json) .ok := by
  have hRead : Json.ofText? (String.ofList text) =
      (Tree.ofText? text).bind (Tree.toJson? Tree.maxLevels) := by
    rw [Json.ofText?, String.toList_ofList]
    rfl
  rw [hRead, DataUpdate.decode, decodeAs, h.unwrap]
  cases hTree : (Tree.ofText? text).bind (Tree.toJson? Tree.maxLevels) with
  | none => simp only [bind, Except.bind, hTree, Option.elim]
  | some doc => simp only [bind, Except.bind, hTree, Option.elim]

/-- The outermost broken layer decides, whatever is inside. -/
theorem decode_of_broken (h : Broken octets cause) : decode octets = .error cause := by
  cases h with
  | utf8 _ hFault =>
      apply decode_of_unwrap_error
      rw [unwrap, hFault]
      rfl
  | @header text hText hBroken =>
      have hPrefix : header.isPrefixOf? text = none := by
        rw [Option.eq_none_iff_forall_ne_some]
        exact fun rest hRest =>
          hBroken rest (List.isPrefixOf?_eq_some_iff_append_eq.mp hRest).symm
      apply decode_of_unwrap_error
      simp only [unwrap, hText, Utf8.decode_encode, Except.mapError, bind, Except.bind, hPrefix]
  | @delimiter rest hText hBroken =>
      have hDrop := Text.dropWhile_of_not_mem hBroken
      apply decode_of_unwrap_error
      simp only [unwrap, hText, Utf8.decode_encode, Except.mapError, bind, Except.bind,
        isPrefixOf?_header, hDrop]
  | @length line payload hFramed hBroken =>
      have hNone : Numeral.below? Numeral.words line = none := by
        rw [Option.eq_none_iff_forall_ne_some]
        intro n hn
        obtain ⟨hDenotes, hBound⟩ := Numeral.below?_eq_some_iff.mp hn
        exact hBroken n hBound hDenotes
      apply decode_of_unwrap_error
      rw [hFramed.octets_eq, unwrap_of_line_none hFramed.not_mem hNone]
  | mismatch hFramed hLength hBound hBroken =>
      apply decode_of_unwrap_error
      rw [hFramed.octets_eq, unwrap_of_line_some hFramed.not_mem
        (Numeral.below?_eq_some_iff.mpr ⟨hLength, hBound⟩), if_pos hBroken]
  | base64 hMeasured _ hFault =>
      apply decode_of_unwrap_error
      rw [hMeasured.unwrap, hFault]
      rfl
  | payload hMeasured hBytes _ hFault =>
      apply decode_of_unwrap_error
      rw [hMeasured.unwrap, hBytes, Base64.decode_encode]
      simp only [Except.mapError, bind, Except.bind, hFault]
  | json hWraps hBroken =>
      rw [hWraps.decode, hBroken]
      rfl

/-- Either some layer is broken or a text is wrapped. -/
theorem broken_or_wraps (octets : List UInt8) :
    (∃ cause, Broken octets cause) ∨ ∃ text, Wraps octets text := by
  by_cases hText : ∃ text, octets = Utf8.encode text
  case neg =>
    cases hFault : Utf8.decode octets with
    | ok text => exact absurd ⟨text, Utf8.decode_eq_ok_iff.mp hFault⟩ hText
    | error fault => exact .inl ⟨_, .utf8 (not_exists.mp hText) hFault⟩
  obtain ⟨text, hText⟩ := hText
  by_cases hHeader : ∃ rest, text = header ++ rest
  case neg => exact .inl ⟨_, .header hText (not_exists.mp hHeader)⟩
  obtain ⟨rest, rfl⟩ := hHeader
  by_cases hLine : '\n' ∈ rest
  case neg => exact .inl ⟨_, .delimiter hText hLine⟩
  obtain ⟨line, payload, rfl, hFeed⟩ := List.eq_append_cons_of_mem hLine
  have hFramed : Framed octets line payload := ⟨hText, hFeed⟩
  by_cases hLength : ∃ n < Numeral.words, Numeral.Denotes line n
  case neg => exact .inl ⟨_, .length hFramed (by simpa using hLength)⟩
  obtain ⟨declared, hBound, hDenotes⟩ := hLength
  by_cases hSame : declared = payload.length
  case neg => exact .inl ⟨_, .mismatch hFramed hDenotes hBound hSame⟩
  have hMeasured : Measured octets line payload := ⟨hFramed, hSame ▸ hDenotes, hSame ▸ hBound⟩
  by_cases hBytes : ∃ bytes, Utf8.encode payload = Base64.encode bytes
  case neg =>
    cases hFault : Base64.decode (Utf8.encode payload) with
    | ok bytes => exact absurd ⟨bytes, Base64.decode_eq_ok_iff.mp hFault⟩ hBytes
    | error fault => exact .inl ⟨_, .base64 hMeasured (not_exists.mp hBytes) hFault⟩
  obtain ⟨bytes, hBytes⟩ := hBytes
  by_cases hInner : ∃ text, bytes = Utf8.encode text
  case neg =>
    cases hFault : Utf8.decode bytes with
    | ok text => exact absurd ⟨text, Utf8.decode_eq_ok_iff.mp hFault⟩ hInner
    | error fault => exact .inl ⟨_, .payload hMeasured hBytes (not_exists.mp hInner) hFault⟩
  obtain ⟨text, rfl⟩ := hInner
  exact .inr ⟨text, line, payload, hMeasured, hBytes⟩

/-- Octets are decoded to a document if and only if they wrap a text that is read as the document.
Otherwise the cause is that of the first layer that is broken. -/
theorem decode_eq_iff (octets : List UInt8) :
    (∀ doc, decode octets = .ok doc ↔
      ∃ text, Wraps octets text ∧ Json.ofText? (String.ofList text) = some doc) ∧
    ∀ cause, decode octets = .error cause ↔ Broken octets cause := by
  have hOk {text : List Char} {doc : Json} (hWraps : Wraps octets text)
      (hRead : Json.ofText? (String.ofList text) = some doc) : decode octets = .ok doc := by
    rw [hWraps.decode, hRead]
    rfl
  refine ⟨fun doc => ⟨fun h => ?_, fun ⟨text, hWraps, hRead⟩ => hOk hWraps hRead⟩,
    fun cause => ⟨fun h => ?_, decode_of_broken⟩⟩
  · rcases broken_or_wraps octets with ⟨cause, hBroken⟩ | ⟨text, hWraps⟩
    · cases h.symm.trans (decode_of_broken hBroken)
    · cases hRead : Json.ofText? (String.ofList text) with
      | none => cases h.symm.trans (decode_of_broken (.json hWraps hRead))
      | some other =>
          cases h.symm.trans (hOk hWraps hRead)
          exact ⟨text, hWraps, hRead⟩
  · rcases broken_or_wraps octets with ⟨other, hBroken⟩ | ⟨text, hWraps⟩
    · cases h.symm.trans (decode_of_broken hBroken)
      exact hBroken
    · cases hRead : Json.ofText? (String.ofList text) with
      | none =>
          cases h.symm.trans (decode_of_broken (.json hWraps hRead))
          exact .json hWraps hRead
      | some doc => cases h.symm.trans (hOk hWraps hRead)

end DataUpdate

end LedgerSigning
