import LedgerSigning.Framing
import LedgerSigning.Preimage
import LedgerSigning.Proofs.Bytes.Base64
import LedgerSigning.Proofs.Json.Canonical
import LedgerSigning.Proofs.Text.Utf8

/-! The bytes that are hashed for a document. They determine the mode and the document, and
none of them is a framed text. -/
namespace LedgerSigning

namespace DataUpdate

/-- The octets of a payload in base64, as characters. -/
def payloadText (payload : List UInt8) : List Char :=
  (Base64.encode payload).map fun b => Char.ofNat b.toNat

/-- A data update as a text. -/
def wrapText (payload : List UInt8) : List Char :=
  header ++ (Numeral.ofNat (Base64.encode payload).length ++ '\n' :: payloadText payload)

theorem encode_payloadText (payload : List UInt8) :
    Utf8.encode (payloadText payload) = Base64.encode payload :=
  Utf8.encode_octets Base64.encode_ascii

theorem wrap_eq (payload : List UInt8) : wrap payload = Utf8.encode (wrapText payload) := by
  have hText : wrapText payload = header ++
      Numeral.ofNat (Base64.encode payload).length ++ ['\n'] ++ payloadText payload := by
    simp [wrapText]
  rw [hText, Utf8.encode_append, encode_payloadText]
  rfl

/-- The line with the length ends at the first line feed, so the payload is what follows it. -/
theorem wrapText_injective : Function.Injective wrapText := by
  intro payload other hText
  have hLine := List.append_cancel_left hText
  have hFeed (text : List Char) : ∀ c ∈ ('\n' :: text).head?, c.isDigit = false := by simp
  have hRow := Reader.row?_append (Reader.isRow_toDigits (Base64.encode payload).length)
    (hFeed (payloadText payload))
  have hRow' := Reader.row?_append (Reader.isRow_toDigits (Base64.encode other).length)
    (hFeed (payloadText other))
  rw [Numeral.ofNat, Numeral.ofNat] at hLine
  rw [hLine, hRow'] at hRow
  have hPayload : payloadText payload = payloadText other := by
    simpa using (Prod.mk.inj (Option.some.inj hRow)).2.symm
  apply Base64.encode_injective
  rw [← encode_payloadText, hPayload, encode_payloadText]

theorem wrap_injective : Function.Injective wrap := by
  intro payload other hWrap
  rw [wrap_eq, wrap_eq] at hWrap
  exact wrapText_injective (Utf8.encode_injective hWrap)

/-- A data update starts with a control character. -/
theorem wrap_head (payload : List UInt8) : ∃ rest, wrap payload = 0x19 :: rest := by
  rw [wrap_eq]
  exact ⟨_, Utf8.encode_cons_ascii (by decide) _⟩

end DataUpdate

namespace Writer

/-- A written document starts with a visible ASCII character. -/
theorem write_head {style : Style} (hStyle : style.Readable) (depth : Nat) (doc : Json) :
    ∃ c rest, write style depth doc = c :: rest ∧ 0x20 < c.toNat ∧ c.toNat < 128 := by
  have hEnclosed (opening closing : Char) (inner outer : List Char) (texts : List (List Char)) :
      ∃ rest, enclosed opening closing inner outer texts = opening :: rest := by
    cases texts with
    | nil => exact ⟨_, rfl⟩
    | cons text texts => exact ⟨_, rfl⟩
  cases doc with
  | null => exact ⟨'n', _, rfl, by decide, by decide⟩
  | bool b =>
      cases b with
      | false => exact ⟨'f', _, rfl, by decide, by decide⟩
      | true => exact ⟨'t', _, rfl, by decide, by decide⟩
  | number n =>
      obtain ⟨c, rest, hText, hHead⟩ := Reader.number_head hStyle.layout n
      refine ⟨c, rest, hText, ?_⟩
      rcases hHead with rfl | hDigit
      · decide
      · have hCode := Reader.digit_bounds hDigit
        omega
  | string s => exact ⟨'"', _, rfl, by decide, by decide⟩
  | array items =>
      obtain ⟨rest, hText⟩ := hEnclosed '[' ']' (style.gap (depth + 1)) (style.gap depth)
        (items.map (write style (depth + 1)))
      exact ⟨'[', rest, by rw [write_array, hText], by decide, by decide⟩
  | object members =>
      obtain ⟨rest, hText⟩ := hEnclosed '\x7b' '\x7d' (style.gap (depth + 1)) (style.gap depth)
        (members.map (memberText style (depth + 1)))
      exact ⟨'\x7b', rest, by rw [write_object, hText], by decide, by decide⟩

end Writer

namespace Json

theorem preimage_of_canonical {doc : Json} {s : List Char} (hText : doc.canonical = .ok s)
    (mode : Mode) : doc.preimage mode = .ok (match mode with
      | .plain => Utf8.encode s
      | .dataUpdate => DataUpdate.wrap (Utf8.encode s)) := by
  rw [preimage, hText]
  cases mode <;> rfl

/-- The octets of a canonical text start with a visible character. -/
theorem encode_canonical_head {doc : Json} {s : List Char} (hText : doc.canonical = .ok s) :
    ∃ b rest, Utf8.encode s = b :: rest ∧ 0x20 < b.toNat := by
  obtain ⟨c, rest, hWrite, hVisible, hAscii⟩ :=
    Writer.write_head Writer.readable_canonical 0 doc.sorted
  rw [(canonical_eq_ok_iff.mp hText).2, hWrite, Utf8.encode_cons_ascii hAscii]
  refine ⟨_, _, rfl, ?_⟩
  rw [Utf8.toNat_octet (by omega)]
  exact hVisible

/-- Preimages do not collide. Those of two documents are equal if and only if the modes are and
the documents are the same, and no preimage is a framed text. -/
theorem preimage_eq_iff {d e : Json} {s t : List Char} (hd : d.Distinct) (he : e.Distinct)
    (hs : d.canonical = .ok s) (ht : e.canonical = .ok t) (m n : Mode) :
    ∃ bytes octets, d.preimage m = .ok bytes ∧ e.preimage n = .ok octets ∧
      (bytes = octets ↔ m = n ∧ Same d e) ∧
      ∀ flagged text, bytes ≠ Framing.frame flagged text := by
  obtain ⟨b, rest, hPlain, hVisible⟩ := encode_canonical_head hs
  obtain ⟨c, more, hOther, hVisible'⟩ := encode_canonical_head ht
  obtain ⟨tail, hWrap⟩ := DataUpdate.wrap_head (Utf8.encode s)
  obtain ⟨tail', hWrap'⟩ := DataUpdate.wrap_head (Utf8.encode t)
  refine ⟨_, _, preimage_of_canonical hs m, preimage_of_canonical ht n, ?_, ?_⟩
  · rw [← canonical_eq_iff hd he hs ht]
    cases m with
    | plain =>
        cases n with
        | plain => simp [Utf8.encode_injective.eq_iff]
        | dataUpdate =>
            simp only [hPlain, hWrap', List.cons.injEq, reduceCtorEq, false_and, iff_false, not_and]
            rintro rfl
            exact absurd hVisible (by decide)
    | dataUpdate =>
        cases n with
        | plain =>
            simp only [hWrap, hOther, List.cons.injEq, reduceCtorEq, false_and, iff_false, not_and]
            rintro rfl
            exact absurd hVisible' (by decide)
        | dataUpdate =>
            simp [DataUpdate.wrap_injective.eq_iff, Utf8.encode_injective.eq_iff]
  · intro flagged text hFrame
    cases m with
    | plain =>
        rw [hPlain] at hFrame
        rw [(List.cons.inj hFrame).1] at hVisible
        exact absurd hVisible (by decide)
    | dataUpdate =>
        rw [hWrap] at hFrame
        exact absurd (List.cons.inj hFrame).1 (by decide)

/-- The integer one and the float one are one document, but its two modes differ. -/
theorem preimage_eq_iff_one :
    let d : Json := .array [.number (.integer 1 (by decide))]
    let e : Json := .array [.number (.float (.ofBits 0x3FF0000000000000) (by decide))]
    d.canonical = .ok "[1]".toList ∧ e.canonical = .ok "[1]".toList ∧ Same d e ∧
      ∃ bytes octets, d.preimage .plain = .ok bytes ∧ e.preimage .dataUpdate = .ok octets ∧
        bytes ≠ octets := by
  intro d e
  have hd : d.Distinct := by simp [d, distinct_array_iff]
  have he : e.Distinct := by simp [e, distinct_array_iff]
  have hs : d.canonical = .ok "[1]".toList := by decide +kernel
  have ht : e.canonical = .ok "[1]".toList := by decide +kernel
  have hSame : Same d e := (canonical_eq_iff hd he hs ht).mp rfl
  obtain ⟨bytes, octets, hBytes, hOctets, hModes, -⟩ :=
    preimage_eq_iff hd he hs ht .plain .dataUpdate
  refine ⟨hs, ht, hSame, bytes, octets, hBytes, hOctets, fun hEq => ?_⟩
  exact absurd (hModes.mp hEq).1 (by decide)

end Json

end LedgerSigning
