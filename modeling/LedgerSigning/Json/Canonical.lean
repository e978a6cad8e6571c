import LedgerSigning.Error
import LedgerSigning.Json.Writer
import LedgerSigning.Json.Members
import LedgerSigning.Text.Units

/-! Canonical texts of documents: no space, members in the order of their keys' UTF-16 units,
and one spelling for each number. An integer that binary64 may not hold exactly has none. -/
namespace LedgerSigning

namespace Json

/-- The greatest integer up to which binary64 holds every integer. -/
def maxSafe : Nat := 0x1FFFFFFFFFFFFF

/-- Whether a key is written before another. -/
def precedes (a b : String) : Bool := Units.ofText a.toList < Units.ofText b.toList

/-- Puts a member before the first whose key does not precede its own. -/
def place {α : Type} (key : String) (value : α) : List (String × α) → List (String × α)
  | [] => [(key, value)]
  | (k, v) :: rest =>
    if precedes k key then (k, v) :: place key value rest else (key, value) :: (k, v) :: rest

/-- The document with its members in canonical order at every depth. -/
def sorted : Json → Json
  | .array items => .array (sortItems items)
  | .object members => .object (sortMembers members)
  | .null => .null
  | .bool b => .bool b
  | .number n => .number n
  | .string s => .string s
where
  sortItems : List Json → List Json
    | [] => []
    | item :: rest => sorted item :: sortItems rest
  sortMembers : List (String × Json) → List (String × Json)
    | [] => []
    | (key, value) :: rest => place key (sorted value) (sortMembers rest)

/-- The integers of a document in the order in which they are written. -/
def integers : Json → List Int
  | .number (.integer n _) => [n]
  | .array items => itemIntegers items
  | .object members => memberIntegers members
  | _ => []
where
  itemIntegers : List Json → List Int
    | [] => []
    | item :: rest => integers item ++ itemIntegers rest
  memberIntegers : List (String × Json) → List Int
    | [] => []
    | (_, value) :: rest => integers value ++ memberIntegers rest

/-- The canonical text. The first unsafe integer in canonical order is reported. -/
def canonical (doc : Json) : Except CanonicalError (List Char) :=
  let doc := doc.sorted
  match doc.integers.find? (maxSafe < ·.natAbs) with
  | some n => .error (.unsafeInteger n)
  | none => .ok (Writer.write Writer.canonical 0 doc)

/-- A key of a map that is to become an object. -/
inductive Key where
  | text (s : String)
  | integer (n : Int)
  | bool (b : Bool)
  | compound

/-- Integers and truth values are keys by their text; compound keys have none. -/
def Key.text? : Key → Option String
  | .text s => some s
  | .integer n => some (String.ofList (Numeral.ofInt n))
  | .bool true => some "true"
  | .bool false => some "false"
  | .compound => none

/-- The object of a map; of two entries with one key text the later stays. -/
def ofEntries (entries : List (Key × Json)) : Except CanonicalError Json :=
  match entries.mapM fun (key, value) => key.text?.map fun text => (text, value) with
  | some members => .ok (.object (Members.ofList members))
  | none => .error .keyNotText

/-- An integer as a document; it must fit 64 bits, signed or not. -/
def ofInt (n : Int) : Except CanonicalError Json :=
  match Number.ofInt? n with
  | some n => .ok (.number n)
  | none => .error .integerRange

end Json

end LedgerSigning
