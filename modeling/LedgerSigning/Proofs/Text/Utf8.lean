import LedgerSigning.Text.Utf8
import LedgerSigning.Proofs.Text.Units

/-! UTF-8 octets of a text are read back as the text, so no two texts have the same octets. Nothing
else is read: an octet that does not continue the shortest form of a character is a fault. -/
namespace LedgerSigning

namespace Utf8

theorem toNat_octet {n : Nat} (hn : n < 256) : (UInt8.ofNat n).toNat = n := by
  simp [Nat.mod_eq_of_lt hn]

/-- A continuation octet in its range adds six bits. -/
theorem continuation_octet {low high : UInt8} {bits : Nat} (hBits : bits < 64)
    (hLow : low.toNat ≤ bits + 0x80) (hHigh : bits + 0x80 ≤ high.toNat) (seen code more : Nat)
    (rest : List UInt8) :
    continuation seen code low high (more + 1) (UInt8.ofNat (bits + 0x80) :: rest) =
      continuation (seen + 1) (code * 64 + bits) 0x80 0xBF more rest := by
  have hNat := toNat_octet (show bits + 0x80 < 256 by omega)
  have hRange : low ≤ UInt8.ofNat (bits + 0x80) ∧ UInt8.ofNat (bits + 0x80) ≤ high := by
    rw [UInt8.le_iff_toNat_le, UInt8.le_iff_toNat_le, hNat]
    exact ⟨hLow, hHigh⟩
  have hMod : (bits + 0x80) % 64 = bits := by omega
  rw [continuation, if_pos hRange, hNat, hMod]

/-- Every further octet of a sequence but the first of them has the full range. -/
theorem continuation_full {bits : Nat} (hBits : bits < 64) (seen code more : Nat)
    (rest : List UInt8) :
    continuation seen code 0x80 0xBF (more + 1) (UInt8.ofNat (bits + 0x80) :: rest) =
      continuation (seen + 1) (code * 64 + bits) 0x80 0xBF more rest := by
  have hHigh : bits + 0x80 ≤ (0xBF : UInt8).toNat := by
    change bits + 0x80 ≤ 191
    omega
  exact continuation_octet hBits (by simp) hHigh seen code more rest

/-- What a leading octet announces, by its number. -/
theorem lead?_octet {n : Nat} (hn : n < 256) : lead? (UInt8.ofNat n) =
    if n < 0x80 then some ⟨n, 0, 0x80, 0xBF⟩
    else if n < 0xC2 then none
    else if n < 0xE0 then some ⟨n - 0xC0, 1, 0x80, 0xBF⟩
    else if n < 0xF0 then
      some ⟨n - 0xE0, 2, if n = 0xE0 then 0xA0 else 0x80, if n = 0xED then 0x9F else 0xBF⟩
    else if n < 0xF5 then
      some ⟨n - 0xF0, 3, if n = 0xF0 then 0x90 else 0x80, if n = 0xF4 then 0x8F else 0xBF⟩
    else none := by
  simp only [lead?, UInt8.lt_iff_toNat_lt, ← UInt8.toNat_inj, toNat_octet hn]
  rfl

/-- The octets of a character are read as the character, whatever follows them. The ranges of
the second octet leave out only long forms and surrogates. -/
theorem first_encode (c : Char) (rest : List UInt8) : ∃ b more,
    String.utf8EncodeChar c = b :: more ∧ first b (more ++ rest) = .ok (c, rest) := by
  have hChar : Char.ofNat c.toNat = c := Char.ofNat_toNat c
  have hNat : c.toNat = c.val.toNat := rfl
  have hBounds := Units.char_bounds c
  unfold String.utf8EncodeChar
  rw [← hNat]
  generalize c.toNat = n at *
  simp only
  split_ifs with hOne hTwo hThree
  · refine ⟨_, [], rfl, ?_⟩
    rw [first, lead?_octet (by omega), if_pos (by omega)]
    simp [continuation, Except.map, hChar]
  · refine ⟨_, [_], rfl, ?_⟩
    have hCode : (n / 64 % 0x20 + 0xc0 - 0xC0) * 64 + n % 0x40 = n := by omega
    rw [first, lead?_octet (by omega), if_neg (by omega), if_neg (by omega), if_pos (by omega)]
    simp only [List.cons_append, List.nil_append]
    rw [continuation_full (by omega), hCode]
    simp [continuation, Except.map, hChar]
  · refine ⟨_, [_, _], rfl, ?_⟩
    have hCode : ((n / 4096 % 0x10 + 0xe0 - 0xE0) * 64 + n / 64 % 0x40) * 64 + n % 0x40 = n := by
      omega
    rw [first, lead?_octet (by omega), if_neg (by omega), if_neg (by omega), if_neg (by omega),
      if_pos (by omega)]
    simp only [List.cons_append, List.nil_append]
    rw [continuation_octet (by omega), continuation_full (by omega), hCode]
    · simp [continuation, Except.map, hChar]
    · split_ifs
      · change 0xA0 ≤ _
        omega
      · change 0x80 ≤ _
        omega
    · split_ifs
      · change _ ≤ 0x9F
        omega
      · change _ ≤ 0xBF
        omega
  · refine ⟨_, [_, _, _], rfl, ?_⟩
    have hCode : (((n / 262144 % 0x08 + 0xf0 - 0xF0) * 64 + n / 4096 % 0x40) * 64 +
        n / 64 % 0x40) * 64 + n % 0x40 = n := by omega
    rw [first, lead?_octet (by omega), if_neg (by omega), if_neg (by omega), if_neg (by omega),
      if_neg (by omega), if_pos (by omega)]
    simp only [List.cons_append, List.nil_append]
    rw [continuation_octet (by omega), continuation_full (by omega), continuation_full (by omega),
      hCode]
    · simp [continuation, Except.map, hChar]
    · split_ifs
      · change 0x90 ≤ _
        omega
      · change 0x80 ≤ _
        omega
    · split_ifs
      · change _ ≤ 0x8F
        omega
      · change _ ≤ 0xBF
        omega

/-- Each octet that is read carries six bits. -/
theorem exists_of_continuation {seen code more : Nat} {low high : UInt8}
    (hLow : 0x80 ≤ low.toNat) (hHigh : high.toNat ≤ 0xBF) {octets : List UInt8}
    {outcome : Nat × List UInt8}
    (hRead : continuation seen code low high (more + 1) octets = .ok outcome) :
    ∃ bits rest, bits < 64 ∧ low.toNat ≤ bits + 0x80 ∧ bits + 0x80 ≤ high.toNat ∧
      octets = UInt8.ofNat (bits + 0x80) :: rest ∧
      continuation (seen + 1) (code * 64 + bits) 0x80 0xBF more rest = .ok outcome := by
  cases octets with
  | nil => simp [continuation] at hRead
  | cons b rest =>
      rw [continuation] at hRead
      split_ifs at hRead with hRange
      rw [UInt8.le_iff_toNat_le, UInt8.le_iff_toNat_le] at hRange
      refine ⟨b.toNat % 64, rest, Nat.mod_lt _ (by decide), by omega, by omega, ?_, hRead⟩
      rw [show b.toNat % 64 + 0x80 = b.toNat by omega, UInt8.ofNat_toNat]

theorem encodeChar_ofNat {n : Nat} (hValid : n < 0xD800 ∨ 0xE000 ≤ n ∧ n < 0x110000) :
    String.utf8EncodeChar (Char.ofNat n) =
      if n ≤ 0x7F then [UInt8.ofNat n]
      else if n ≤ 0x7FF then [UInt8.ofNat (n / 64 % 0x20 + 0xC0), UInt8.ofNat (n % 64 + 0x80)]
      else if n ≤ 0xFFFF then [UInt8.ofNat (n / 4096 % 16 + 0xE0),
        UInt8.ofNat (n / 64 % 64 + 0x80), UInt8.ofNat (n % 64 + 0x80)]
      else [UInt8.ofNat (n / 262144 % 8 + 0xF0), UInt8.ofNat (n / 4096 % 64 + 0x80),
        UInt8.ofNat (n / 64 % 64 + 0x80), UInt8.ofNat (n % 64 + 0x80)] := by
  have hNat : (Char.ofNat n).val.toNat = n := by
    rw [Char.ofNat, dif_pos (show n.isValidChar by unfold Nat.isValidChar; omega)]
    rfl
  unfold String.utf8EncodeChar
  rw [hNat]

theorem exists_of_first {b : UInt8} {rest after : List UInt8} {c : Char}
    (hFirst : first b rest = .ok (c, after)) : ∃ l n, lead? b = some l ∧
      continuation 1 l.code l.low l.high l.more rest = .ok (n, after) ∧ c = Char.ofNat n := by
  rw [first] at hFirst
  cases hLead : lead? b with
  | none => simp [hLead] at hFirst
  | some l =>
      simp only [hLead] at hFirst
      cases hRead : continuation 1 l.code l.low l.high l.more rest with
      | error fault => simp [hRead, Except.map] at hFirst
      | ok outcome =>
          simp only [hRead, Except.map, Except.ok.injEq, Prod.mk.injEq] at hFirst
          obtain ⟨rfl, rfl⟩ := hFirst
          exact ⟨l, outcome.1, rfl, hRead, rfl⟩

/-- A leading octet announces one of four lengths. The next octet is a continuation, and lies in a
part of their range where other values would make a long form, a surrogate or too large a number. -/
theorem lead?_cases {n : Nat} (hn : n < 256) {l : Lead} (hLead : lead? (UInt8.ofNat n) = some l) :
    (0x80 ≤ l.low.toNat ∧ l.high.toNat ≤ 0xBF) ∧
    ((n < 0x80 ∧ l.code = n ∧ l.more = 0) ∨
      (0xC2 ≤ n ∧ n < 0xE0 ∧ l.code = n - 0xC0 ∧ l.more = 1) ∨
      (0xE0 ≤ n ∧ n < 0xF0 ∧ l.code = n - 0xE0 ∧ l.more = 2 ∧
        (n = 0xE0 → 0xA0 ≤ l.low.toNat) ∧ (n = 0xED → l.high.toNat ≤ 0x9F)) ∨
      (0xF0 ≤ n ∧ n < 0xF5 ∧ l.code = n - 0xF0 ∧ l.more = 3 ∧
        (n = 0xF0 → 0x90 ≤ l.low.toNat) ∧ (n = 0xF4 → l.high.toNat ≤ 0x8F))) := by
  rw [lead?_octet hn] at hLead
  split_ifs at hLead <;> obtain rfl := Option.some.inj hLead <;> simp <;> omega

/-- A character is read only from the octets that are written for it. -/
theorem encodeChar_of_first {b : UInt8} {rest after : List UInt8} {c : Char}
    (hFirst : first b rest = .ok (c, after)) : b :: rest = String.utf8EncodeChar c ++ after := by
  obtain ⟨l, code, hLead, hRead, rfl⟩ := exists_of_first hFirst
  obtain ⟨n, hn, rfl⟩ : ∃ n, n < 256 ∧ b = UInt8.ofNat n :=
    ⟨b.toNat, b.toNat_lt, UInt8.ofNat_toNat.symm⟩
  obtain ⟨⟨hLow, hHigh⟩, hLength⟩ := lead?_cases hn hLead
  rcases hLength with ⟨hOne, hCode, hMore⟩ | ⟨hGap, hTwo, hCode, hMore⟩ |
    ⟨hTwo, hThree, hCode, hMore, hLong, hSurrogate⟩ |
    ⟨hThree, hFour, hCode, hMore, hLong, hLarge⟩ <;> rw [hMore, hCode] at hRead
  · simp only [continuation, Except.ok.injEq, Prod.mk.injEq] at hRead
    obtain ⟨rfl, rfl⟩ := hRead
    rw [encodeChar_ofNat (by omega), if_pos (by omega)]
    rfl
  · obtain ⟨x, _, hx, -, -, rfl, hNext⟩ := exists_of_continuation hLow hHigh hRead
    simp only [continuation, Except.ok.injEq, Prod.mk.injEq] at hNext
    obtain ⟨hValue, rfl⟩ := hNext
    rw [encodeChar_ofNat (by omega), if_neg (by omega), if_pos (by omega),
      show code / 64 % 0x20 + 0xC0 = n by omega, show code % 64 = x by omega]
    rfl
  · obtain ⟨x, _, hx, hxLow, hxHigh, rfl, hNext⟩ := exists_of_continuation hLow hHigh hRead
    obtain ⟨y, _, hy, -, -, rfl, hThird⟩ := exists_of_continuation (by simp) (by simp) hNext
    simp only [continuation, Except.ok.injEq, Prod.mk.injEq] at hThird
    obtain ⟨hValue, rfl⟩ := hThird
    rw [encodeChar_ofNat (by omega), if_neg (by omega), if_neg (by omega), if_pos (by omega),
      show code / 4096 % 16 + 0xE0 = n by omega, show code / 64 % 64 = x by omega,
      show code % 64 = y by omega]
    rfl
  · obtain ⟨x, _, hx, hxLow, hxHigh, rfl, hNext⟩ := exists_of_continuation hLow hHigh hRead
    obtain ⟨y, _, hy, -, -, rfl, hThird⟩ := exists_of_continuation (by simp) (by simp) hNext
    obtain ⟨z, _, hz, -, -, rfl, hLast⟩ := exists_of_continuation (by simp) (by simp) hThird
    simp only [continuation, Except.ok.injEq, Prod.mk.injEq] at hLast
    obtain ⟨hValue, rfl⟩ := hLast
    rw [encodeChar_ofNat (by omega), if_neg (by omega), if_neg (by omega), if_neg (by omega),
      show code / 262144 % 8 + 0xF0 = n by omega, show code / 4096 % 64 = x by omega,
      show code / 64 % 64 = y by omega, show code % 64 = z by omega]
    rfl

theorem decodeFrom_encode (text : List Char) (steps index : Nat) (acc : List Char)
    (hSteps : (encode text).length ≤ steps) :
    decodeFrom steps index acc (encode text) = .ok (acc.reverse ++ text) := by
  induction text generalizing steps index acc with
  | nil => simp [encode, decodeFrom]
  | cons c text ih =>
      obtain ⟨b, more, hOctets, hFirst⟩ := first_encode c (encode text)
      have hEncode : encode (c :: text) = b :: (more ++ encode text) := by
        rw [encode, List.flatMap_cons, hOctets]
        rfl
      rw [hEncode] at hSteps ⊢
      rw [List.length_cons, List.length_append] at hSteps
      obtain ⟨steps, rfl⟩ : ∃ others, steps = others + 1 := ⟨steps - 1, by omega⟩
      rw [decodeFrom, hFirst]
      simp only
      rw [ih _ _ _ (by omega)]
      simp

/-- The octets of a text are read back as the text. -/
theorem decode_encode (text : List Char) : decode (encode text) = .ok text :=
  decodeFrom_encode text (encode text).length 0 [] (Nat.le_refl _)

theorem exists_of_decodeFrom {steps index : Nat} {acc text : List Char} {octets : List UInt8}
    (hRead : decodeFrom steps index acc octets = .ok text) :
    ∃ more, text = acc.reverse ++ more ∧ octets = encode more := by
  induction steps generalizing index acc octets with
  | zero =>
      cases octets with
      | nil => exact ⟨[], by simpa [decodeFrom] using hRead.symm, rfl⟩
      | cons b rest => simp [decodeFrom] at hRead
  | succ steps ih =>
      cases octets with
      | nil => exact ⟨[], by simpa [decodeFrom] using hRead.symm, rfl⟩
      | cons b rest =>
          rw [decodeFrom] at hRead
          split at hRead
          next c after hFirst =>
            obtain ⟨more, rfl, rfl⟩ := ih hRead
            exact ⟨c :: more, by simp, encodeChar_of_first hFirst⟩
          next => cases hRead
          next => cases hRead

/-- Octets are read as a text if and only if they are its octets. -/
theorem decode_eq_ok_iff {octets : List UInt8} {text : List Char} :
    decode octets = .ok text ↔ octets = encode text := by
  constructor
  · intro hRead
    obtain ⟨more, hText, hOctets⟩ := exists_of_decodeFrom hRead
    rw [hText]
    exact hOctets
  · rintro rfl
    exact decode_encode text

theorem encode_injective : Function.Injective encode := by
  intro text other hOctets
  have hDecode := decode_encode text
  rw [hOctets, decode_encode] at hDecode
  exact (Except.ok.inj hDecode).symm

theorem encode_append (text more : List Char) :
    encode (text ++ more) = encode text ++ encode more :=
  List.flatMap_append

/-- A character below 128 is one octet. -/
theorem encode_cons_ascii {c : Char} (hAscii : c.toNat < 128) (text : List Char) :
    encode (c :: text) = UInt8.ofNat c.toNat :: encode text := by
  have hNat : c.toNat = c.val.toNat := rfl
  have hChar : String.utf8EncodeChar c = [UInt8.ofNat c.toNat] := by
    unfold String.utf8EncodeChar
    simp only
    rw [if_pos (by omega), hNat]
  rw [encode, List.flatMap_cons, hChar]
  rfl

/-- A text of such characters has one octet for each. -/
theorem encode_ascii {text : List Char} (hAscii : ∀ c ∈ text, c.toNat < 128) :
    encode text = text.map fun c => UInt8.ofNat c.toNat := by
  induction text with
  | nil => rfl
  | cons c text ih =>
      rw [encode_cons_ascii (hAscii c (by simp)), List.map_cons,
        ih fun d hd => hAscii d (List.mem_cons_of_mem _ hd)]

/-- Octets below 128 are the characters of the same numbers. -/
theorem encode_octets {octets : List UInt8} (hAscii : ∀ b ∈ octets, b.toNat < 128) :
    encode (octets.map fun b => Char.ofNat b.toNat) = octets := by
  induction octets with
  | nil => rfl
  | cons b octets ih =>
      have hOctet := hAscii b (by simp)
      have hNat : (Char.ofNat b.toNat).toNat = b.toNat := by
        rw [Char.ofNat, dif_pos (show b.toNat.isValidChar from .inl (by omega))]
        rfl
      rw [List.map_cons, encode_cons_ascii (by omega), hNat, UInt8.ofNat_toNat,
        ih fun d hd => hAscii d (List.mem_cons_of_mem _ hd)]

/-- A text whose octets are below 128 is the characters of their numbers. -/
theorem eq_of_octets {text : List Char} (hAscii : ∀ b ∈ encode text, b.toNat < 128) :
    text = (encode text).map fun b => Char.ofNat b.toNat :=
  encode_injective (encode_octets hAscii).symm

/-- An octet below 128 at the start of a text is a character of its own. -/
theorem of_encode_cons_eq {c : Char} {text : List Char} {b : UInt8} {octets : List UInt8}
    (hOctets : encode (c :: text) = b :: octets) (hb : b < 0x80) :
    c = Char.ofNat b.toNat ∧ encode text = octets := by
  obtain ⟨lead, more, hChar, hFirst⟩ := first_encode c (encode text)
  have hEncode : encode (c :: text) = lead :: (more ++ encode text) := by
    rw [encode, List.flatMap_cons, hChar]
    rfl
  obtain ⟨hLead, hRest⟩ := List.cons.inj (hEncode.symm.trans hOctets)
  rw [hLead, first, lead?, if_pos hb] at hFirst
  obtain ⟨hChar, hMore⟩ := Prod.mk.inj (Except.ok.inj hFirst)
  exact ⟨hChar.symm, hMore.symm.trans hRest⟩

/-- A text that begins with octets below 128 begins with the characters of their numbers. -/
theorem exists_of_encode_eq {text : List Char} {octets : List UInt8} (front : List UInt8)
    (hAscii : ∀ b ∈ front, b < 0x80) (hOctets : encode text = front ++ octets) :
    ∃ rest, text = front.map (fun b => Char.ofNat b.toNat) ++ rest ∧ encode rest = octets := by
  induction front generalizing text with
  | nil => exact ⟨text, rfl, hOctets⟩
  | cons b front ih =>
      obtain ⟨hb, hFront⟩ := List.forall_mem_cons.mp hAscii
      cases text with
      | nil => cases hOctets
      | cons c text =>
          obtain ⟨rfl, hText⟩ := of_encode_cons_eq hOctets hb
          obtain ⟨rest, rfl, hRest⟩ := ih hFront hText
          exact ⟨rest, rfl, hRest⟩

/-- The characters from an octet on. There are none where the offset is out of range or inside a
character. -/
def dropOctets? : Nat → List Char → Option (List Char)
  | 0, text => some text
  | _ + 1, [] => none
  | offset + 1, c :: text =>
    if c.utf8Size ≤ offset + 1 then dropOctets? (offset + 1 - c.utf8Size) text else none

/-- A text is cut at an offset if it has a front of as many octets. -/
theorem dropOctets?_eq_some_iff {offset : Nat} {text rest : List Char} :
    dropOctets? offset text = some rest ↔
      ∃ front, text = front ++ rest ∧ (encode front).length = offset := by
  induction text generalizing offset with
  | nil =>
      cases offset with
      | zero => simp [dropOctets?, encode, eq_comm]
      | succ offset =>
        simp [dropOctets?, encode]
  | cons c text ih =>
      have hSize := c.utf8Size_pos
      have hFront (front : List Char) :
          (encode (c :: front)).length = c.utf8Size + (encode front).length := by
        rw [encode, List.flatMap_cons, List.length_append, String.length_utf8EncodeChar]
        rfl
      cases offset with
      | zero =>
          rw [dropOctets?, Option.some.injEq]
          constructor
          · rintro rfl
            exact ⟨[], rfl, rfl⟩
          · rintro ⟨front, hText, hLength⟩
            cases front with
            | nil => exact hText
            | cons d front =>
                cases hText
                rw [hFront] at hLength
                omega
      | succ offset =>
          rw [dropOctets?]
          constructor
          · intro hRest
            split_ifs at hRest with hFits
            obtain ⟨front, rfl, hLength⟩ := ih.mp hRest
            exact ⟨c :: front, rfl, by rw [hFront]; omega⟩
          · rintro ⟨front, hText, hLength⟩
            cases front with
            | nil => cases hLength
            | cons d front =>
                cases hText
                rw [hFront] at hLength
                rw [if_pos (by omega), ih]
                exact ⟨front, rfl, by omega⟩

end Utf8

end LedgerSigning
