import LedgerSigning.Json.Value
import LedgerSigning.Json.Members

/-! The syntax tree of a JSON text: numbers are tokens, repeated keys are kept, and a string
with an unpaired surrogate has no text. What a tree means depends on where it stands: as a
free document it becomes a `Json` value, and in a record it is read by the type of a field. -/
namespace LedgerSigning

inductive Tree where
  | null
  | bool (b : Bool)
  /-- A number without point and exponent. -/
  | integer (negative : Bool) (magnitude : Nat)
  /-- A number with a point or an exponent: the significand times ten to the exponent. -/
  | decimal (negative : Bool) (significand : Nat) (exponent : Int)
  | string (text : Option String)
  | array (items : List Tree)
  | object (members : List (Option String × Tree))

namespace Tree

/-- How many arrays and objects may stand inside each other. -/
def maxLevels : Nat := 127

/-- The document a tree stands for, with at most `levels` levels of arrays and objects. -/
def toJson? (levels : Nat) : Tree → Option Json
  | .null => some .null
  | .bool b => some (.bool b)
  | .integer negative magnitude => (Number.ofInteger? negative magnitude).map .number
  | .decimal negative significand exponent =>
    (Number.ofDecimal? negative significand exponent).map .number
  | .string text => text.map .string
  | .array items =>
    match levels with
    | 0 => none
    | levels + 1 => (itemsToJson? levels items).map .array
  | .object members =>
    match levels with
    | 0 => none
    | levels + 1 => (membersToJson? levels members).map fun ms => .object (Members.ofList ms)
where
  itemsToJson? (levels : Nat) : List Tree → Option (List Json)
    | [] => some []
    | item :: rest => do
      let value ← toJson? levels item
      let values ← itemsToJson? levels rest
      some (value :: values)
  membersToJson? (levels : Nat) : List (Option String × Tree) → Option (List (String × Json))
    | [] => some []
    | (key, item) :: rest => do
      let key ← key
      let value ← toJson? levels item
      let values ← membersToJson? levels rest
      some ((key, value) :: values)

end Tree

end LedgerSigning
