import LedgerSigning.Bytes.Base64
import LedgerSigning.Proofs.Outcome
import Mathlib.Tactic.SplitIfs

/-! Base64 texts of bytes are read back as the bytes, so no two byte strings have the same
text. Nothing else is read: symbols, padding and unused bits must be as they are written. -/
namespace LedgerSigning

namespace Base64

theorem value?_symbol {n : Nat} (hn : n < 64) : value? (symbol n) = some n := by
  revert n
  decide

theorem symbol_ne_pad {n : Nat} (hn : n < 64) : symbol n ≠ pad := by
  revert n
  decide

theorem symbol_toNat_lt {n : Nat} (hn : n < 64) : (symbol n).toNat < 128 := by
  revert n
  decide

theorem read_symbol (offset : Nat) {n : Nat} (hn : n < 64) : read offset (symbol n) = .ok n := by
  rw [read, value?_symbol hn]

theorem toUInt8_eq {n : Nat} {b : UInt8} (hn : n = b.toNat) : n.toUInt8 = b := by
  rw [hn]
  exact UInt8.ofNat_toNat

/-- Bytes are written in groups of three, the last of which may be shorter. -/
@[elab_as_elim]
theorem groups_induct {motive : List UInt8 → Prop} (nil : motive []) (one : ∀ a, motive [a])
    (two : ∀ a b, motive [a, b])
    (three : ∀ a b c rest, motive rest → motive (a :: b :: c :: rest)) (bytes : List UInt8) :
    motive bytes := by
  induction hLength : bytes.length using Nat.strongRecOn generalizing bytes with
  | ind n ih =>
      subst hLength
      match bytes with
      | [] => exact nil
      | [a] => exact one a
      | [a, b] => exact two a b
      | a :: b :: c :: rest =>
          exact three a b c rest (ih rest.length (by simp only [List.length_cons]; omega) rest rfl)

theorem encodeOnto_eq (acc bytes : List UInt8) :
    encodeOnto acc bytes = acc.reverse ++ encode bytes := by
  unfold encode
  induction bytes using groups_induct generalizing acc with
  | nil => simp [encodeOnto]
  | one a => simp [encodeOnto]
  | two a b => simp [encodeOnto]
  | three a b c rest ih =>
      rw [encodeOnto, ih, encodeOnto, ih ((group a b c).reverse ++ [])]
      simp

theorem encode_group (a b c : UInt8) (rest : List UInt8) :
    encode (a :: b :: c :: rest) = group a b c ++ encode rest := by
  rw [encode, encodeOnto, encodeOnto_eq]
  simp

@[simp] theorem encode_nil : encode [] = [] := by simp [encode, encodeOnto]

theorem encode_one (a : UInt8) :
    encode [a] = [symbol (a.toNat / 4), symbol (a.toNat % 4 * 16), pad, pad] := by
  simp [encode, encodeOnto]

theorem encode_two (a b : UInt8) :
    encode [a, b] = [symbol (a.toNat / 4), symbol (a.toNat % 4 * 16 + b.toNat / 16),
      symbol (b.toNat % 16 * 4), pad] := by
  simp [encode, encodeOnto]

/-- The text has four octets for each group. -/
theorem length_encode_mod (bytes : List UInt8) : (encode bytes).length % 4 = 0 := by
  induction bytes using groups_induct with
  | nil => simp
  | one a => simp [encode_one]
  | two a b => simp [encode_two]
  | three a b c rest ih =>
      rw [encode_group, List.length_append]
      simp only [group, List.length_cons, List.length_nil]
      omega

theorem encode_ascii {bytes : List UInt8} : ∀ octet ∈ encode bytes, octet.toNat < 128 := by
  have hByte (b : UInt8) : b.toNat < 256 := b.toNat_lt
  induction bytes using groups_induct with
  | nil => simp
  | one a =>
      have ha := hByte a
      simp only [encode_one, List.forall_mem_cons]
      exact ⟨symbol_toNat_lt (by omega), symbol_toNat_lt (by omega), by decide, by decide, by simp⟩
  | two a b =>
      have ha := hByte a
      have hb := hByte b
      simp only [encode_two, List.forall_mem_cons]
      exact ⟨symbol_toNat_lt (by omega), symbol_toNat_lt (by omega), symbol_toNat_lt (by omega),
        by decide, by simp⟩
  | three a b c rest ih =>
      have ha := hByte a
      have hb := hByte b
      have hc := hByte c
      simp only [encode_group, group, List.cons_append, List.nil_append, List.forall_mem_cons]
      exact ⟨symbol_toNat_lt (by omega), symbol_toNat_lt (by omega), symbol_toNat_lt (by omega),
        symbol_toNat_lt (by omega), ih⟩

theorem eq_nil_of_encode_eq_nil {bytes : List UInt8} (hEmpty : encode bytes = []) : bytes = [] := by
  induction bytes using groups_induct with
  | nil => rfl
  | one a => simp [encode_one] at hEmpty
  | two a b => simp [encode_two] at hEmpty
  | three a b c rest ih => simp [encode_group, group] at hEmpty

/-- A last group without padding. -/
theorem lastGroup_three (offset : Nat) (a b c : UInt8) :
    lastGroup offset (group a b c) = .ok [a, b, c] := by
  have ha := a.toNat_lt
  have hb := b.toNat_lt
  have hc := c.toNat_lt
  have hw : a.toNat / 4 < 64 := by omega
  have hx : a.toNat % 4 * 16 + b.toNat / 16 < 64 := by omega
  have hy : b.toNat % 16 * 4 + c.toNat / 64 < 64 := by omega
  have hz : c.toNat % 64 < 64 := by omega
  have hValues : lastValues offset 0 (group a b c) = .ok [a.toNat / 4,
      a.toNat % 4 * 16 + b.toNat / 16, b.toNat % 16 * 4 + c.toNat / 64, c.toNat % 64] := by
    simp [group, lastValues, symbol_ne_pad hw, symbol_ne_pad hx, symbol_ne_pad hy,
      symbol_ne_pad hz, read_symbol _ hw, read_symbol _ hx, read_symbol _ hy, read_symbol _ hz,
      bind, Except.bind]
  simp only [lastGroup, hValues, bind, Except.bind, List.length_cons, List.length_nil]
  rw [if_neg (by omega), if_neg (by simp [group])]
  simp only [Except.ok.injEq, List.cons.injEq, and_true]
  exact ⟨toUInt8_eq (by omega), toUInt8_eq (by omega), toUInt8_eq (by omega)⟩

/-- A last group of two bytes leaves two bits unused. -/
theorem lastGroup_two (offset : Nat) (a b : UInt8) :
    lastGroup offset (encode [a, b]) = .ok [a, b] := by
  have ha := a.toNat_lt
  have hb := b.toNat_lt
  have hw : a.toNat / 4 < 64 := by omega
  have hx : a.toNat % 4 * 16 + b.toNat / 16 < 64 := by omega
  have hy : b.toNat % 16 * 4 < 64 := by omega
  have hValues : lastValues offset 0 (encode [a, b]) = .ok [a.toNat / 4,
      a.toNat % 4 * 16 + b.toNat / 16, b.toNat % 16 * 4] := by
    simp [encode_two, lastValues, symbol_ne_pad hw, symbol_ne_pad hx, symbol_ne_pad hy,
      read_symbol _ hw, read_symbol _ hx, read_symbol _ hy, bind, Except.bind]
  simp only [lastGroup, hValues, bind, Except.bind, List.length_cons, List.length_nil]
  rw [if_neg (by omega), if_neg (by simp [encode_two]), if_neg (by omega)]
  simp only [Except.ok.injEq, List.cons.injEq, and_true]
  exact ⟨toUInt8_eq (by omega), toUInt8_eq (by omega)⟩

/-- A last group of one byte leaves four bits unused. -/
theorem lastGroup_one (offset : Nat) (a : UInt8) :
    lastGroup offset (encode [a]) = .ok [a] := by
  have ha := a.toNat_lt
  have hw : a.toNat / 4 < 64 := by omega
  have hx : a.toNat % 4 * 16 < 64 := by omega
  have hValues : lastValues offset 0 (encode [a]) = .ok [a.toNat / 4, a.toNat % 4 * 16] := by
    simp [encode_one, lastValues, symbol_ne_pad hw, symbol_ne_pad hx, read_symbol _ hw,
      read_symbol _ hx, bind, Except.bind]
  simp only [lastGroup, hValues, bind, Except.bind, List.length_cons, List.length_nil]
  rw [if_neg (by omega), if_neg (by simp [encode_one]), if_neg (by omega)]
  simp only [Except.ok.injEq, List.cons.injEq, and_true]
  exact toUInt8_eq (by omega)

theorem decodeFrom_encode (offset : Nat) (acc bytes : List UInt8) :
    decodeFrom offset acc (encode bytes) = .ok (acc.reverse ++ bytes) := by
  induction bytes using groups_induct generalizing offset acc with
  | nil => simp [decodeFrom]
  | one a =>
      have hLast := lastGroup_one offset a
      rw [encode_one] at hLast ⊢
      simp [decodeFrom, hLast, bind, Except.bind]
  | two a b =>
      have hLast := lastGroup_two offset a b
      rw [encode_two] at hLast ⊢
      simp [decodeFrom, hLast, bind, Except.bind]
  | three a b c rest ih =>
      have ha := a.toNat_lt
      have hb := b.toNat_lt
      have hc := c.toNat_lt
      rw [encode_group]
      cases hMore : encode rest with
      | nil =>
          have hLast := lastGroup_three offset a b c
          rw [List.append_nil, eq_nil_of_encode_eq_nil hMore]
          simp only [group] at hLast ⊢
          simp [decodeFrom, hLast, bind, Except.bind]
      | cons e more =>
          have hRest := ih (offset + 4) (c :: b :: a :: acc)
          rw [hMore] at hRest
          simp only [group, List.cons_append, List.nil_append, decodeFrom, bind, Except.bind]
          rw [read_symbol _ (by omega), read_symbol _ (by omega), read_symbol _ (by omega),
            read_symbol _ (by omega)]
          simp only
          rw [toUInt8_eq (show _ = c.toNat by omega), toUInt8_eq (show _ = b.toNat by omega),
            toUInt8_eq (show _ = a.toNat by omega), hRest]
          simp

/-- The text of bytes is read back as the bytes. -/
theorem decode_encode (bytes : List UInt8) : decode (encode bytes) = .ok bytes := by
  unfold decode
  split
  next hEmpty => rw [eq_nil_of_encode_eq_nil (List.getLast?_eq_none_iff.mp hEmpty)]
  next last hLast =>
    rw [if_neg (by rw [length_encode_mod]; simp)]
    exact decodeFrom_encode 0 [] bytes

theorem eq_symbol_of_value? {b : UInt8} {n : Nat} (hValue : value? b = some n) :
    n < 64 ∧ b = symbol n := by
  have hByte (m : Nat) (hm : m = b.toNat) : b = m.toUInt8 := by
    rw [hm]
    exact UInt8.ofNat_toNat.symm
  simp only [value?, UInt8.le_iff_toNat_le] at hValue
  split_ifs at hValue with hUpper hLower hDigit hPlus hSlash <;> obtain rfl := Option.some.inj hValue
  · have hRange : 65 ≤ b.toNat ∧ b.toNat ≤ 90 := hUpper
    refine ⟨by omega, ?_⟩
    rw [symbol, if_pos (by omega)]
    exact hByte _ (by omega)
  · have hRange : 97 ≤ b.toNat ∧ b.toNat ≤ 122 := hLower
    refine ⟨by omega, ?_⟩
    rw [symbol, if_neg (by omega), if_pos (by omega)]
    exact hByte _ (by omega)
  · have hRange : 48 ≤ b.toNat ∧ b.toNat ≤ 57 := hDigit
    refine ⟨by omega, ?_⟩
    rw [symbol, if_neg (by omega), if_neg (by omega), if_pos (by omega)]
    exact hByte _ (by omega)
  · exact ⟨by decide, hPlus⟩
  · exact ⟨by decide, hSlash⟩

theorem eq_symbol_of_read {offset : Nat} {b : UInt8} {n : Nat} (hRead : read offset b = .ok n) :
    n < 64 ∧ b = symbol n := by
  rw [read] at hRead
  split at hRead
  next m hValue =>
    obtain rfl := Except.ok.inj hRead
    exact eq_symbol_of_value? hValue
  next => cases hRead

/-- The values of a last group are those of its symbols, and padding follows them. -/
theorem eq_symbols_of_lastValues {offset seen : Nat} {octets : List UInt8} {values : List Nat}
    (hRead : lastValues offset seen octets = .ok values) : (∀ n ∈ values, n < 64) ∧
      ∃ count, octets = values.map symbol ++ List.replicate count pad := by
  induction octets generalizing seen values with
  | nil =>
      obtain rfl := Except.ok.inj hRead
      exact ⟨by simp, 0, rfl⟩
  | cons b rest ih =>
      rw [lastValues] at hRead
      split_ifs at hRead with hPad hFault
      · obtain rfl := Except.ok.inj hRead
        obtain ⟨-, hRest⟩ := not_or.mp hFault
        have hAll : ∀ c ∈ rest, c = pad := by simpa using hRest
        refine ⟨by simp, rest.length + 1, ?_⟩
        rw [hPad, List.eq_replicate_of_mem hAll]
        simp [List.replicate_succ]
      · obtain ⟨n, hn, hRest⟩ := Except.bind_eq_ok_iff.mp hRead
        obtain ⟨more, hMore, hValues⟩ := Except.bind_eq_ok_iff.mp hRest
        obtain rfl := Except.ok.inj hValues
        obtain ⟨hBound, count, rfl⟩ := ih hMore
        obtain ⟨hLt, rfl⟩ := eq_symbol_of_read hn
        exact ⟨by simpa using ⟨hLt, hBound⟩, count, rfl⟩

theorem toNat_byte {n : Nat} (hn : n < 256) : n.toUInt8.toNat = n := by
  simp [Nat.mod_eq_of_lt hn]

/-- Four values below 64 make three bytes, of which they are the text. -/
theorem group_ofValues {a b c d : Nat} (ha : a < 64) (hb : b < 64) (hc : c < 64) (hd : d < 64) :
    group (a * 4 + b / 16).toUInt8 (b % 16 * 16 + c / 4).toUInt8 (c % 4 * 64 + d).toUInt8 =
      [symbol a, symbol b, symbol c, symbol d] := by
  rw [group, toNat_byte (by omega), toNat_byte (by omega), toNat_byte (by omega),
    show (a * 4 + b / 16) / 4 = a by omega,
    show (a * 4 + b / 16) % 4 * 16 + (b % 16 * 16 + c / 4) / 16 = b by omega,
    show (b % 16 * 16 + c / 4) % 16 * 4 + (c % 4 * 64 + d) / 64 = c by omega,
    show (c % 4 * 64 + d) % 64 = d by omega]

/-- A last group is read only if it is the text of the bytes. -/
theorem eq_encode_of_lastGroup {offset : Nat} {octets bytes : List UInt8}
    (hRead : lastGroup offset octets = .ok bytes) : octets = encode bytes := by
  obtain ⟨values, hValues, hBytes⟩ := Except.bind_eq_ok_iff.mp hRead
  obtain ⟨hBound, count, hOctets⟩ := eq_symbols_of_lastValues hValues
  split_ifs at hBytes with hShort hLength
  have hFour : octets.length = 4 := Decidable.not_not.mp hLength
  have hPads (k : Nat) (hk : octets.length = values.length + k) :
      octets = values.map symbol ++ List.replicate k pad := by
    rw [hOctets, List.length_append, List.length_map, List.length_replicate] at hk
    rw [hOctets, show count = k by omega]
  match values with
  | [] => simp at hShort
  | [a] => simp at hShort
  | [a, b] =>
      simp only at hBytes
      split_ifs at hBytes with hUnused
      obtain rfl := Except.ok.inj hBytes
      have ha := hBound a (by simp)
      have hb := hBound b (by simp)
      rw [hPads 2 hFour, encode_one, toNat_byte (by omega),
        show (a * 4 + b / 16) / 4 = a by omega, show (a * 4 + b / 16) % 4 * 16 = b by omega]
      rfl
  | [a, b, c] =>
      simp only at hBytes
      split_ifs at hBytes with hUnused
      obtain rfl := Except.ok.inj hBytes
      have ha := hBound a (by simp)
      have hb := hBound b (by simp)
      have hc := hBound c (by simp)
      rw [hPads 1 hFour, encode_two, toNat_byte (by omega), toNat_byte (by omega),
        show (a * 4 + b / 16) / 4 = a by omega,
        show (a * 4 + b / 16) % 4 * 16 + (b % 16 * 16 + c / 4) / 16 = b by omega,
        show (b % 16 * 16 + c / 4) % 16 * 4 = c by omega]
      rfl
  | [a, b, c, d] =>
      obtain rfl := Except.ok.inj hBytes
      have ha := hBound a (by simp)
      have hb := hBound b (by simp)
      have hc := hBound c (by simp)
      have hd := hBound d (by simp)
      rw [hPads 0 hFour, encode_group, group_ofValues ha hb hc hd, encode_nil]
      rfl
  | _ :: _ :: _ :: _ :: _ :: _ => cases hBytes

theorem exists_of_decodeFrom {offset : Nat} {acc octets bytes : List UInt8}
    (hRead : decodeFrom offset acc octets = .ok bytes) :
    ∃ more, bytes = acc.reverse ++ more ∧ octets = encode more := by
  induction offset, acc, octets using decodeFrom.induct with
  | case1 offset acc =>
      obtain rfl := Except.ok.inj hRead
      exact ⟨[], by simp, by simp⟩
  | case2 offset acc a b c d e rest ih =>
      rw [decodeFrom] at hRead
      obtain ⟨p, hp, hMore⟩ := Except.bind_eq_ok_iff.mp hRead
      obtain ⟨q, hq, hMore⟩ := Except.bind_eq_ok_iff.mp hMore
      obtain ⟨r, hr, hMore⟩ := Except.bind_eq_ok_iff.mp hMore
      obtain ⟨s, hs, hMore⟩ := Except.bind_eq_ok_iff.mp hMore
      obtain ⟨hpLt, ha⟩ := eq_symbol_of_read hp
      obtain ⟨hqLt, hb⟩ := eq_symbol_of_read hq
      obtain ⟨hrLt, hc⟩ := eq_symbol_of_read hr
      obtain ⟨hsLt, hd⟩ := eq_symbol_of_read hs
      obtain ⟨more, rfl, hRest⟩ := ih p q r s hMore
      refine ⟨(p * 4 + q / 16).toUInt8 :: (q % 16 * 16 + r / 4).toUInt8 ::
        (r % 4 * 64 + s).toUInt8 :: more, ?_, ?_⟩
      · simp only [List.reverse_cons, List.append_assoc, List.cons_append, List.nil_append]
      rw [encode_group, group_ofValues hpLt hqLt hrLt hsLt, hRest, ha, hb, hc, hd]
      rfl
  | case3 offset acc last =>
      rw [decodeFrom] at hRead
      obtain ⟨more, hLast, hBytes⟩ := Except.bind_eq_ok_iff.mp hRead
      exact ⟨more, (Except.ok.inj hBytes).symm, eq_encode_of_lastGroup hLast⟩
      all_goals assumption

/-- Octets are read as bytes if and only if they are the text of the bytes. -/
theorem decode_eq_ok_iff {octets bytes : List UInt8} :
    decode octets = .ok bytes ↔ octets = encode bytes := by
  constructor
  · intro hRead
    unfold decode at hRead
    split at hRead
    next hEmpty =>
      obtain rfl := Except.ok.inj hRead
      rw [List.getLast?_eq_none_iff.mp hEmpty, encode_nil]
    next last hLast =>
      split_ifs at hRead with hStray
      obtain ⟨more, hBytes, hOctets⟩ := exists_of_decodeFrom hRead
      rw [hBytes]
      exact hOctets
  · rintro rfl
    exact decode_encode bytes

theorem encode_injective : Function.Injective encode := by
  intro bytes others hText
  have hDecode := decode_encode bytes
  rw [hText, decode_encode] at hDecode
  exact (Except.ok.inj hDecode).symm

end Base64

end LedgerSigning
