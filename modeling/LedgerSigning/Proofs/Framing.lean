import LedgerSigning.Framing
import LedgerSigning.Proofs.Text.Utf8
import Mathlib.Algebra.Group.Nat.Defs

/-! Frames describe themselves: a reader takes the flag, the length and that many characters from the
front of its input, and stops where the frame ends. Among all the ways in which the reader takes a
length, the one that is written has the fewest bytes. -/
namespace LedgerSigning

namespace Framing

/-- Reads groups of seven bits, the lowest first, up to one whose highest bit is clear. -/
def takeGroups? : List UInt8 → Option (Nat × List UInt8)
  | [] => none
  | b :: rest =>
    if b.toNat < 128 then some (b.toNat, rest)
    else (takeGroups? rest).map fun (high, after) => (b.toNat % 128 + 128 * high, after)

/-- Reads six bits, and where the bit above them is set the groups that follow. -/
def takeLength? : List UInt8 → Option (Nat × List UInt8)
  | [] => none
  | b :: rest =>
    if b.toNat / 64 % 2 = 0 then some (b.toNat % 64, rest)
    else (takeGroups? rest).map fun (high, after) => (b.toNat % 64 + 64 * high, after)

/-- Reads a number of characters. -/
def takeText? : Nat → List UInt8 → Option (List Char × List UInt8)
  | 0, octets => some ([], octets)
  | _ + 1, [] => none
  | count + 1, b :: rest =>
    match Utf8.first b rest with
    | .ok (c, after) => (takeText? count after).map fun (text, after) => (c :: text, after)
    | .error _ => none

/-- Takes the flag away if it comes next. -/
def takeFlag : List UInt8 → Bool × List UInt8
  | [] => (false, [])
  | b :: rest => if b = flag then (true, rest) else (false, b :: rest)

/-- Reads what stands after the marker of a frame. The length is one more than the number of
characters. -/
def takeMarked? (octets : List UInt8) : Option ((Bool × List Char) × List UInt8) :=
  let (flagged, rest) := takeFlag octets
  match takeLength? rest with
  | some (count + 1, rest) =>
    (takeText? count rest).map fun (text, after) => ((flagged, text), after)
  | _ => none

/-- Reads a frame, and returns what follows it too. -/
def take? : List UInt8 → Option ((Bool × List Char) × List UInt8)
  | [] => none
  | b :: rest => if b = marker then takeMarked? rest else none

/-- The bytes of a length below 2^34, by the number of bits that it needs. -/
def lengthTable (n : Nat) : List UInt8 :=
  if n < 2 ^ 6 then [(n ||| 0x80).toUInt8]
  else if n < 2 ^ 13 then [(n ||| 0xC0).toUInt8, (n >>> 6).toUInt8]
  else if n < 2 ^ 20 then
    [(n ||| 0xC0).toUInt8, (n >>> 6 ||| 0x80).toUInt8, (n >>> 13).toUInt8]
  else if n < 2 ^ 27 then
    [(n ||| 0xC0).toUInt8, (n >>> 6 ||| 0x80).toUInt8, (n >>> 13 ||| 0x80).toUInt8,
      (n >>> 20).toUInt8]
  else
    [(n ||| 0xC0).toUInt8, (n >>> 6 ||| 0x80).toUInt8, (n >>> 13 ||| 0x80).toUInt8,
      (n >>> 20 ||| 0x80).toUInt8, (n >>> 27).toUInt8]

theorem toNat_toUInt8 {n : Nat} (hn : n < 256) : n.toUInt8.toNat = n := Utf8.toNat_octet hn

section Groups

variable {steps n : Nat}

theorem groups_of_lt (hn : n < 128) : groups steps n = [n.toUInt8] := by
  cases steps with
  | zero => rfl
  | succ steps => exact if_pos hn

/-- The bound on the steps is never reached. -/
theorem groups_steps {others : Nat} (hSteps : n ≤ steps) (hOthers : n ≤ others) :
    groups steps n = groups others n := by
  induction steps generalizing n others with
  | zero => rw [groups_of_lt (by omega), groups_of_lt (by omega)]
  | succ steps ih =>
      by_cases hn : n < 128
      · rw [groups_of_lt hn, groups_of_lt hn]
      · obtain ⟨others, rfl⟩ : ∃ k, others = k + 1 := ⟨others - 1, by omega⟩
        rw [groups, if_neg hn, groups, if_neg hn, @ih (n / 128) others (by omega) (by omega)]

theorem groups_of_ge (hn : 128 ≤ n) :
    groups n n = (n % 128 + 128).toUInt8 :: groups (n / 128) (n / 128) := by
  obtain ⟨k, rfl⟩ : ∃ k, n = k + 1 := ⟨n - 1, by omega⟩
  rw [groups, if_neg (not_lt.mpr hn), groups_steps (by omega) le_rfl]

/-- Groups are read back, whatever follows them. -/
theorem takeGroups?_groups (n : Nat) (rest : List UInt8) :
    takeGroups? (groups n n ++ rest) = some (n, rest) := by
  induction n using Nat.strongRecOn with
  | ind n ih =>
      by_cases hn : n < 128
      · have hByte : n.toUInt8.toNat = n := toNat_toUInt8 (by omega)
        rw [groups_of_lt hn, List.singleton_append, takeGroups?, hByte, if_pos hn]
      · have hByte : (n % 128 + 128).toUInt8.toNat = n % 128 + 128 := toNat_toUInt8 (by omega)
        rw [groups_of_ge (by omega), List.cons_append, takeGroups?, hByte, if_neg (by omega),
          ih (n / 128) (by omega), Option.map_some, Option.some.injEq, Prod.mk.injEq]
        exact ⟨by omega, rfl⟩

/-- So many groups hold seven times as many bits. -/
theorem length_groups_le_iff (hPos : 0 < n) {k : Nat} :
    (groups n n).length ≤ k ↔ n < 2 ^ (7 * k) := by
  induction n using Nat.strongRecOn generalizing k with
  | ind n ih =>
      by_cases hn : n < 128
      · rw [groups_of_lt hn, List.length_singleton]
        cases k with
        | zero => omega
        | succ k =>
            have hPower : 2 ^ 7 ≤ 2 ^ (7 * (k + 1)) := Nat.pow_le_pow_right (by decide) (by omega)
            omega
      · rw [groups_of_ge (by omega), List.length_cons]
        cases k with
        | zero => omega
        | succ k =>
            rw [Nat.add_le_add_iff_right, ih (n / 128) (by omega) (by omega),
              Nat.div_lt_iff_lt_mul (by decide), Nat.mul_succ 7 k, Nat.pow_add]

/-- A number that is read from groups has no more bits than they hold. -/
theorem lt_of_takeGroups? {bytes rest : List UInt8} (h : takeGroups? bytes = some (n, rest)) :
    ∃ k, bytes.length = rest.length + k ∧ n < 2 ^ (7 * k) := by
  induction bytes generalizing n with
  | nil => cases h
  | cons b bytes ih =>
      rw [takeGroups?] at h
      split_ifs at h with hb
      · cases h
        exact ⟨1, rfl, hb⟩
      · obtain ⟨⟨high, after⟩, hHigh, hValue⟩ := Option.map_eq_some_iff.mp h
        cases hValue
        obtain ⟨k, hLength, hBits⟩ := ih hHigh
        refine ⟨k + 1, by rw [List.length_cons, hLength, Nat.add_assoc], ?_⟩
        rw [Nat.mul_succ, Nat.pow_add]
        omega

end Groups

section Length

variable {n : Nat}

theorem length_of_lt (hn : n < 64) : length n = [(n + 128).toUInt8] := if_pos hn

theorem length_of_ge (hn : 64 ≤ n) :
    length n = (n % 64 + 192).toUInt8 :: groups (n / 64) (n / 64) := if_neg (not_lt.mpr hn)

/-- A length is read back, whatever follows it. -/
theorem takeLength?_length (n : Nat) (rest : List UInt8) :
    takeLength? (length n ++ rest) = some (n, rest) := by
  by_cases hn : n < 64
  · have hByte : (n + 128).toUInt8.toNat = n + 128 := toNat_toUInt8 (by omega)
    rw [length_of_lt hn, List.singleton_append, takeLength?, hByte, if_pos (by omega),
      Option.some.injEq, Prod.mk.injEq]
    exact ⟨by omega, rfl⟩
  · have hByte : (n % 64 + 192).toUInt8.toNat = n % 64 + 192 := toNat_toUInt8 (by omega)
    rw [length_of_ge (by omega), List.cons_append, takeLength?, hByte, if_neg (by omega),
      takeGroups?_groups, Option.map_some, Option.some.injEq, Prod.mk.injEq]
    exact ⟨by omega, rfl⟩

/-- The first byte holds six bits and each other one seven. -/
theorem length_length_le_iff {k : Nat} : (length n).length ≤ k + 1 ↔ n < 2 ^ (7 * k + 6) := by
  by_cases hn : n < 64
  · have hPower : 2 ^ 6 ≤ 2 ^ (7 * k + 6) := Nat.pow_le_pow_right (by decide) (by omega)
    rw [length_of_lt hn, List.length_singleton]
    omega
  · rw [length_of_ge (by omega), List.length_cons, Nat.add_le_add_iff_right,
      length_groups_le_iff (by omega), Nat.div_lt_iff_lt_mul (by decide), Nat.pow_add]

/-- No other bytes from which the reader takes the same length are fewer. -/
theorem length_length_le {bytes rest : List UInt8} (h : takeLength? bytes = some (n, rest)) :
    (length n).length + rest.length ≤ bytes.length := by
  cases bytes with
  | nil => cases h
  | cons b bytes =>
      rw [takeLength?] at h
      split_ifs at h
      · cases h
        have hOne : (length (b.toNat % 64)).length ≤ 0 + 1 :=
          length_length_le_iff.mpr (Nat.mod_lt _ (by decide))
        rw [List.length_cons]
        omega
      · obtain ⟨⟨high, after⟩, hHigh, hValue⟩ := Option.map_eq_some_iff.mp h
        cases hValue
        obtain ⟨k, hLength, hBits⟩ := lt_of_takeGroups? hHigh
        have hMore : (length (b.toNat % 64 + 64 * high)).length ≤ k + 1 := by
          rw [length_length_le_iff, Nat.pow_add]
          omega
        rw [List.length_cons]
        omega

/-- A written length is not taken for the flag, because its first byte has the highest bit set. -/
theorem takeFlag_length (n : Nat) (rest : List UInt8) :
    takeFlag (length n ++ rest) = (false, length n ++ rest) := by
  have hHead : ∃ k more, length n = k.toUInt8 :: more ∧ 128 ≤ k ∧ k < 256 := by
    by_cases hn : n < 64
    · exact ⟨_, _, length_of_lt hn, by omega, by omega⟩
    · exact ⟨_, _, length_of_ge (by omega), by omega, by omega⟩
  obtain ⟨k, more, hLength, hLow, hHigh⟩ := hHead
  have hFlag : k.toUInt8 ≠ flag := by
    intro hEq
    have hNat := congrArg UInt8.toNat hEq
    rw [toNat_toUInt8 hHigh, show flag.toNat = 1 from rfl] at hNat
    omega
  rw [hLength, List.cons_append, takeFlag, if_neg hFlag]

/-- Setting the highest bits of a byte forgets what they were. -/
theorem toUInt8_or (n : Nat) : (n ||| 0x80).toUInt8 = (n % 128 + 128).toUInt8 ∧
    (n ||| 0xC0).toUInt8 = (n % 64 + 192).toUInt8 := by
  have hByte : ∀ k < 256, (k ||| 0x80) = k % 128 + 128 ∧ (k ||| 0xC0) = k % 64 + 192 := by
    decide +kernel
  obtain ⟨hOne, hTwo⟩ := hByte (n % 256) (Nat.mod_lt _ (by decide))
  have hSet {k m : Nat} (hk : k < 256) (hm : m < 256) (h : (n % 256 ||| k) = m) :
      (n ||| k).toUInt8 = m.toUInt8 := by
    apply UInt8.toNat_inj.mp
    rw [toNat_toUInt8 hm, ← h]
    change (n ||| k) % 2 ^ 8 = _
    rw [Nat.or_mod_two_pow, Nat.mod_eq_of_lt hk]
  exact ⟨hSet (by decide) (by omega) (by omega), hSet (by decide) (by omega) (by omega)⟩

/-- A length below 2^34 has the bytes of the table. -/
theorem length_eq_table (hn : n < 2 ^ 34) : length n = lengthTable n := by
  simp only [lengthTable, toUInt8_or, Nat.shiftRight_eq_div_pow]
  split_ifs with hSix hThirteen hTwenty hTwentySeven
  · rw [length_of_lt hSix, Nat.mod_eq_of_lt (by omega)]
  · rw [length_of_ge (by omega), groups_of_lt (by omega)]
  · rw [length_of_ge (by omega), groups_of_ge (by omega), groups_of_lt (by omega),
      Nat.div_div_eq_div_mul]
  · rw [length_of_ge (by omega), groups_of_ge (by omega), groups_of_ge (by omega),
      groups_of_lt (by omega)]
    simp only [Nat.div_div_eq_div_mul]
  · rw [length_of_ge (by omega), groups_of_ge (by omega), groups_of_ge (by omega),
      groups_of_ge (by omega), groups_of_lt (by omega)]
    simp only [Nat.div_div_eq_div_mul]

end Length

/-- As many characters as were written are read back. -/
theorem takeText?_encode (text : List Char) (rest : List UInt8) :
    takeText? text.length (Utf8.encode text ++ rest) = some (text, rest) := by
  induction text with
  | nil => rfl
  | cons c text ih =>
      obtain ⟨b, more, hOctets, hFirst⟩ := Utf8.first_encode c (Utf8.encode text ++ rest)
      have hEncode : Utf8.encode (c :: text) ++ rest = b :: (more ++ (Utf8.encode text ++ rest)) := by
        rw [Utf8.encode, List.flatMap_cons, hOctets, List.append_assoc]
        rfl
      rw [hEncode, List.length_cons, takeText?, hFirst]
      simp only [ih, Option.map_some]

/-- A frame is read back, whatever follows it. -/
theorem take?_frame (flagged : Bool) (text : List Char) (rest : List UInt8) :
    take? (frame flagged text ++ rest) = some ((flagged, text), rest) := by
  have hFrame : frame flagged text ++ rest = marker :: ((if flagged then [flag] else []) ++
      (length (text.length + 1) ++ (Utf8.encode text ++ rest))) := by
    simp only [frame, List.cons_append, List.append_assoc]
  have hFlag : takeFlag ((if flagged then [flag] else []) ++
      (length (text.length + 1) ++ (Utf8.encode text ++ rest))) =
      (flagged, length (text.length + 1) ++ (Utf8.encode text ++ rest)) := by
    cases flagged with
    | false => exact takeFlag_length _ _
    | true => rfl
  rw [hFrame, take?, if_pos rfl, takeMarked?, hFlag]
  simp only [takeLength?_length, takeText?_encode, Option.map_some]

/-- A frame describes itself. The reader takes back the flag and the text, and leaves what follows;
so no two frames are equal, and none is the start of another. The length between the flag and the
text is one more than the number of characters. It is read back as such, and no other bytes that are
read so are fewer; one byte holds six bits and each further one seven; and its bytes are those of the
table. -/
theorem frame_describes (flagged : Bool) (text : List Char) :
    (∀ rest, take? (frame flagged text ++ rest) = some ((flagged, text), rest)) ∧
    (∀ other more, frame flagged text = frame other more ↔ flagged = other ∧ text = more) ∧
    ∃ size, frame flagged text =
        [marker] ++ (if flagged then [flag] else []) ++ size ++ Utf8.encode text ∧
      takeLength? size = some (text.length + 1, []) ∧
      (∀ bytes rest, takeLength? bytes = some (text.length + 1, rest) →
        size.length + rest.length ≤ bytes.length) ∧
      (∀ k, size.length ≤ k + 1 ↔ text.length + 1 < 2 ^ (7 * k + 6)) ∧
      (text.length + 1 < 2 ^ 34 → size = lengthTable (text.length + 1)) := by
  refine ⟨take?_frame flagged text, fun other more => ⟨fun hFrame => ?_, ?_⟩,
    length (text.length + 1), rfl, ?_, fun _ _ => length_length_le,
    fun k => length_length_le_iff, length_eq_table⟩
  · have hTake := take?_frame flagged text []
    rw [hFrame, take?_frame] at hTake
    simpa [eq_comm] using hTake
  · rintro ⟨rfl, rfl⟩
    rfl
  · simpa using takeLength?_length (text.length + 1) []

end Framing

end LedgerSigning
