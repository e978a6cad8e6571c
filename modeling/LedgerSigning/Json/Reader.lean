import LedgerSigning.Json.Tree
import LedgerSigning.Text.Numeral
import LedgerSigning.Text.Units

/-! Reads JSON texts by the strict grammar. Each reader takes the characters that remain and
returns what it read with the characters after it. -/
namespace LedgerSigning

namespace Reader

def isSpace (c : Char) : Bool := c == ' ' || c == '\t' || c == '\n' || c == '\r'

def skip (text : List Char) : List Char := text.dropWhile isSpace

/-- A nonempty row of digits. -/
def row? (text : List Char) : Option (List Char × List Char) :=
  let row := text.takeWhile Char.isDigit
  if row.isEmpty then none else some (row, text.dropWhile Char.isDigit)

/-- Digits before the point: a zero alone, or a row. -/
def whole? : List Char → Option (List Char × List Char)
  | '0' :: rest => some (['0'], rest)
  | text => row? text

/-- A point and a row of digits, if there is a point. -/
def fraction? : List Char → Option (Option (List Char) × List Char)
  | '.' :: rest => (row? rest).map fun (row, after) => (some row, after)
  | text => some (none, text)

/-- The row of an exponent after its mark. -/
def power? : List Char → Option (Int × List Char)
  | '-' :: rest => (row? rest).map fun (row, after) => (-(Nat.ofDigitChars 10 row 0 : Int), after)
  | '+' :: rest => (row? rest).map fun (row, after) => ((Nat.ofDigitChars 10 row 0 : Int), after)
  | text => (row? text).map fun (row, after) => ((Nat.ofDigitChars 10 row 0 : Int), after)

/-- An exponent, if its mark is there. -/
def exponent? : List Char → Option (Option Int × List Char)
  | [] => some (none, [])
  | c :: rest =>
    if c = 'e' ∨ c = 'E' then (power? rest).map fun (power, after) => (some power, after)
    else some (none, c :: rest)

/-- How many digits of a number count one by one. -/
def exactDigits : Nat := 768

/-- The significand and the exponent of digits before and after the point. Of more than 768
digits, zeros at the start and at the end of the fraction apart, a one stands for all that
come later. -/
def significand (whole fraction : List Char) : Nat × Int :=
  let kept := (fraction.reverse.dropWhile (· == '0')).reverse
  let digits := (whole ++ kept).dropWhile (· == '0')
  if digits.length ≤ exactDigits then
    (Nat.ofDigitChars 10 (whole ++ fraction) 0, -fraction.length)
  else
    (Nat.ofDigitChars 10 (digits.take exactDigits ++ ['1']) 0,
      (digits.length : Int) - (exactDigits + 1 + kept.length : Nat))

def unsigned? (negative : Bool) (text : List Char) : Option (Tree × List Char) := do
  let (whole, text) ← whole? text
  let (fraction, text) ← fraction? text
  let (exponent, text) ← exponent? text
  match fraction, exponent with
  | none, none => some (.integer negative (Nat.ofDigitChars 10 whole 0), text)
  | _, _ =>
    let (digits, places) := significand whole (fraction.getD [])
    some (.decimal negative digits (exponent.getD 0 + places), text)

def numeral? : List Char → Option (Tree × List Char)
  | '-' :: rest => unsigned? true rest
  | text => unsigned? false text

def hexDigit? (c : Char) : Option Nat :=
  if c.isDigit then some (c.toNat - 48)
  else if 'a' ≤ c ∧ c ≤ 'f' then some (c.toNat - 87)
  else if 'A' ≤ c ∧ c ≤ 'F' then some (c.toNat - 55)
  else none

/-- The unit of four hexadecimal digits. -/
def unit? (a b c d : Char) : Option Nat := do
  let a ← hexDigit? a
  let b ← hexDigit? b
  let c ← hexDigit? c
  let d ← hexDigit? d
  some (((a * 16 + b) * 16 + c) * 16 + d)

/-- The code point of an escape of one letter. -/
def escape? (c : Char) : Option Nat :=
  if c = '"' ∨ c = '\\' ∨ c = '/' then some c.toNat
  else if c = 'b' then some 8
  else if c = 't' then some 9
  else if c = 'n' then some 10
  else if c = 'f' then some 12
  else if c = 'r' then some 13
  else none

/-- The code points up to the closing quote, onto those read before. -/
def codes? (acc : List Nat) : List Char → Option (List Nat × List Char)
  | [] => none
  | '"' :: rest => some (acc.reverse, rest)
  | '\\' :: 'u' :: a :: b :: c :: d :: rest =>
    match unit? a b c d with
    | some unit => codes? (unit :: acc) rest
    | none => none
  | '\\' :: c :: rest =>
    match escape? c with
    | some code => codes? (code :: acc) rest
    | none => none
  | c :: rest => if c < ' ' ∨ c = '\\' then none else codes? (c.toNat :: acc) rest

/-- A string after its opening quote. -/
def string? (text : List Char) : Option (Option String × List Char) :=
  (codes? [] text).map fun (codes, rest) => ((Units.join? codes).map String.ofList, rest)

def word? (word : List Char) (tree : Tree) (text : List Char) : Option (Tree × List Char) :=
  (word.isPrefixOf? text).map fun rest => (tree, rest)

mutual

/-- A value, after any white space. -/
def value? : Nat → List Char → Option (Tree × List Char)
  | 0, _ => none
  | fuel + 1, text =>
    match skip text with
    | [] => none
    | c :: rest =>
      if c = '"' then (string? rest).map fun (text, rest) => (.string text, rest)
      else if c = '[' then
        match skip rest with
        | ']' :: rest => some (.array [], rest)
        | _ => (items? fuel rest).map fun (items, rest) => (.array items, rest)
      else if c = '{' then
        match skip rest with
        | '}' :: rest => some (.object [], rest)
        | _ => (members? fuel rest).map fun (members, rest) => (.object members, rest)
      else if c = 'n' then word? "ull".toList .null rest
      else if c = 't' then word? "rue".toList (.bool true) rest
      else if c = 'f' then word? "alse".toList (.bool false) rest
      else numeral? (c :: rest)

/-- The items of an array and its closing bracket. -/
def items? : Nat → List Char → Option (List Tree × List Char)
  | 0, _ => none
  | fuel + 1, text => do
    let (item, rest) ← value? fuel text
    match skip rest with
    | ',' :: rest =>
      let (items, rest) ← items? fuel rest
      some (item :: items, rest)
    | ']' :: rest => some ([item], rest)
    | _ => none

/-- The members of an object and its closing brace. -/
def members? : Nat → List Char → Option (List (Option String × Tree) × List Char)
  | 0, _ => none
  | fuel + 1, text =>
    match skip text with
    | '"' :: rest => do
      let (key, rest) ← string? rest
      match skip rest with
      | ':' :: rest =>
        let (item, rest) ← value? fuel rest
        match skip rest with
        | ',' :: rest =>
          let (members, rest) ← members? fuel rest
          some ((key, item) :: members, rest)
        | '\x7d' :: rest => some ([(key, item)], rest)
        | _ => none
      | _ => none
    | _ => none

end

end Reader

/-- The tree of a whole text. Every step but the one at the end of a list reads a character,
so twice the length of the text bounds the steps. -/
def Tree.ofText? (text : List Char) : Option Tree := do
  let (tree, rest) ← Reader.value? (2 * text.length + 2) text
  if (Reader.skip rest).isEmpty then some tree else none

/-- The free document of a text. -/
def Json.ofText? (text : String) : Option Json := do
  let tree ← Tree.ofText? text.toList
  tree.toJson? Tree.maxLevels

end LedgerSigning
