import LedgerSigning.Json.Value
import LedgerSigning.Number.Layout
import LedgerSigning.Text.Numeral

/-! Writes documents as text. A style fixes the space between tokens and the layout of
numbers; strings are written with the fewest escapes. -/
namespace LedgerSigning

namespace Writer

/-- What a style leaves open: the space before an item at a depth, the mark between a key and
its value, and the layout of floats. -/
structure Style where
  gap : Nat → List Char
  colon : List Char
  layout : Layout

/-- No space at all. -/
def compact : Style := ⟨fun _ => [], [':'], .document⟩

/-- One item a line, two spaces deeper at each level. -/
def pretty : Style := ⟨fun depth => '\n' :: List.replicate (2 * depth) ' ', [':', ' '], .document⟩

/-- No space, and canonical numbers. -/
def canonical : Style := ⟨fun _ => [], [':'], .canonical⟩

/-- A character inside quotes. Only the quote, the backslash and controls are escaped. -/
def escape (c : Char) : List Char :=
  if c = '"' then ['\\', '"']
  else if c = '\\' then ['\\', '\\']
  else if c = '\x08' then ['\\', 'b']
  else if c = '\t' then ['\\', 't']
  else if c = '\n' then ['\\', 'n']
  else if c = '\x0c' then ['\\', 'f']
  else if c = '\r' then ['\\', 'r']
  else if c < ' ' then
    ['\\', 'u', '0', '0', Nat.digitChar (c.toNat / 16), Nat.digitChar (c.toNat % 16)]
  else [c]

def quoted (s : String) : List Char := '"' :: s.toList.flatMap escape ++ ['"']

def number (layout : Layout) : Number → List Char
  | .integer n _ => Numeral.ofInt n
  | .float x _ => layout.text x

/-- A document whose items, if it has any, stand at `depth + 1`. -/
def write (style : Style) (depth : Nat) : Json → List Char
  | .null => "null".toList
  | .bool true => "true".toList
  | .bool false => "false".toList
  | .number n => number style.layout n
  | .string s => quoted s
  | .array [] => ['[', ']']
  | .array (item :: rest) =>
    '[' :: style.gap (depth + 1) ++ write style (depth + 1) item ++
      items style depth rest ++ style.gap depth ++ [']']
  | .object [] => ['\x7b', '\x7d']
  | .object ((key, value) :: rest) =>
    '\x7b' :: style.gap (depth + 1) ++ quoted key ++ style.colon ++ write style (depth + 1) value ++
      members style depth rest ++ style.gap depth ++ ['\x7d']
where
  /-- The items after the first. -/
  items (style : Style) (depth : Nat) : List Json → List Char
    | [] => []
    | item :: rest =>
      ',' :: style.gap (depth + 1) ++ write style (depth + 1) item ++ items style depth rest
  /-- The members after the first. -/
  members (style : Style) (depth : Nat) : List (String × Json) → List Char
    | [] => []
    | (key, value) :: rest =>
      ',' :: style.gap (depth + 1) ++ quoted key ++ style.colon ++
        write style (depth + 1) value ++ members style depth rest

end Writer

namespace Json

def compact (doc : Json) : String := String.ofList (Writer.write Writer.compact 0 doc)

def pretty (doc : Json) : String := String.ofList (Writer.write Writer.pretty 0 doc)

end Json

end LedgerSigning
