/-! UTF-16 code units of a text, by which canonical documents order their keys. -/
namespace LedgerSigning

namespace Units

/-- One unit below 2^16, a high and a low surrogate above. -/
def ofChar (c : Char) : List Nat :=
  if c.toNat < 0x10000 then [c.toNat]
  else [0xD800 + (c.toNat - 0x10000) / 0x400, 0xDC00 + (c.toNat - 0x10000) % 0x400]

def ofText (text : List Char) : List Nat := text.flatMap ofChar

def isHigh (unit : Nat) : Bool := 0xD800 ≤ unit && unit < 0xDC00

def isLow (unit : Nat) : Bool := 0xDC00 ≤ unit && unit < 0xE000

/-- The character of a high and a low surrogate. -/
def pair (high low : Nat) : Char :=
  Char.ofNat (0x10000 + (high - 0xD800) * 0x400 + (low - 0xDC00))

/-- Joins surrogate pairs among code points; a surrogate that is in no pair has no character. -/
def join? : List Nat → Option (List Char)
  | [] => some []
  | high :: low :: rest =>
    if isHigh high && isLow low then (join? rest).map (pair high low :: ·)
    else if isHigh high || isLow high then none
    else (join? (low :: rest)).map (Char.ofNat high :: ·)
  | [unit] => if isHigh unit || isLow unit then none else some [Char.ofNat unit]

end Units

end LedgerSigning
