/-! UTF-8 octets of a text. Main operations: `encode` writes a text, `decode` reads one
back or tells where the octets stop being UTF-8. -/
namespace LedgerSigning

/-- Where octets stop being UTF-8: at an ill-formed sequence, whose longest well-formed start
and the octet that breaks it make up `count` octets, or at the end of the input. -/
inductive Utf8Error where
  | invalid (count index : Nat)
  | incomplete (index : Nat)
deriving DecidableEq

namespace Utf8Error

def message : Utf8Error → String
  | invalid count index => s!"invalid utf-8 sequence of {count} bytes from index {index}"
  | incomplete index => s!"incomplete utf-8 byte sequence from index {index}"

end Utf8Error

namespace Utf8

def encode (text : List Char) : List UInt8 := text.flatMap String.utf8EncodeChar

/-- What a leading octet announces: its share of the code point, how many octets follow, and
the range of the first of them, which excludes long forms and surrogates. -/
structure Lead where
  code : Nat
  more : Nat
  low : UInt8
  high : UInt8

def lead? (b : UInt8) : Option Lead :=
  if b < 0x80 then some ⟨b.toNat, 0, 0x80, 0xBF⟩
  else if b < 0xC2 then none
  else if b < 0xE0 then some ⟨b.toNat - 0xC0, 1, 0x80, 0xBF⟩
  else if b < 0xF0 then
    some ⟨b.toNat - 0xE0, 2, if b = 0xE0 then 0xA0 else 0x80, if b = 0xED then 0x9F else 0xBF⟩
  else if b < 0xF5 then
    some ⟨b.toNat - 0xF0, 3, if b = 0xF0 then 0x90 else 0x80, if b = 0xF4 then 0x8F else 0xBF⟩
  else none

/-- Reads `more` continuation octets onto `code`, the first of them within its range. A fault
is `none` at the end of the input, or the number of octets accepted so far. -/
def continuation (seen code : Nat) (low high : UInt8) :
    Nat → List UInt8 → Except (Option Nat) (Nat × List UInt8)
  | 0, rest => .ok (code, rest)
  | _ + 1, [] => .error none
  | more + 1, b :: rest =>
    if low ≤ b ∧ b ≤ high then
      continuation (seen + 1) (code * 64 + b.toNat % 64) 0x80 0xBF more rest
    else .error (some seen)

/-- The first character and the octets after it. -/
def first (b : UInt8) (rest : List UInt8) : Except (Option Nat) (Char × List UInt8) :=
  match lead? b with
  | none => .error (some 1)
  | some l => (continuation 1 l.code l.low l.high l.more rest).map fun (code, after) =>
      (Char.ofNat code, after)

/-- Reads characters until the input ends. Each takes at least one octet, so the number of
octets bounds the steps. -/
def decodeFrom : Nat → Nat → List Char → List UInt8 → Except Utf8Error (List Char)
  | _, _, acc, [] => .ok acc.reverse
  | 0, index, _, _ :: _ => .error (.incomplete index)
  | steps + 1, index, acc, b :: rest =>
    match first b rest with
    | .ok (c, after) => decodeFrom steps (index + c.utf8Size) (c :: acc) after
    | .error (some count) => .error (.invalid count index)
    | .error none => .error (.incomplete index)

def decode (octets : List UInt8) : Except Utf8Error (List Char) :=
  decodeFrom octets.length 0 [] octets

end Utf8

end LedgerSigning
