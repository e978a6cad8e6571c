import LedgerSigning.Json.Tree
import LedgerSigning.Text.Numeral

/-! Reading trees as records and as the types of their fields. A record is an object, whose
unknown members are skipped whatever they hold, or the array of its fields in order. -/
namespace LedgerSigning

namespace Tree

/-- The field of a name; none at all if it is repeated. -/
def field? (members : List (Option String × Tree)) (name : String) : Option (Option Tree) :=
  match members.filter (·.1 = some name) with
  | [] => some none
  | [(_, tree)] => some (some tree)
  | _ => none

/-- The trees of the named fields, `none` standing for an absent one. An array may stop early,
but not go on after the last field. -/
def fields? (names : List String) : Tree → Option (List (Option Tree))
  | .array items =>
    if items.length ≤ names.length then
      some (items.map some ++ List.replicate (names.length - items.length) none)
    else none
  | .object members =>
    if members.all (·.1.isSome) then names.mapM (field? members) else none
  | _ => none

def text? : Tree → Option String
  | .string text => text
  | _ => none

def bool? : Tree → Option Bool
  | .bool b => some b
  | _ => none

/-- Any number, rounded; none if it rounds to infinity. -/
def binary64? : Tree → Option Binary64
  | .integer negative magnitude => (Binary64.ofDecimal negative magnitude 0).finite?
  | .decimal negative significand exponent =>
    (Binary64.ofDecimal negative significand exponent).finite?
  | _ => none

/-- An integer token without a sign, below 2^64. -/
def unsigned64? : Tree → Option UInt64
  | .integer false n => if n < Numeral.words then some n.toUInt64 else none
  | _ => none

/-- An integer as text: any string, or the digits of an integer token of 64 bits. -/
def numeralText? : Tree → Option String
  | .string text => text
  | .integer negative magnitude =>
    match Number.ofInteger? negative magnitude with
    | some (.integer n _) => some (String.ofList (Numeral.ofInt n))
    | _ => none
  | _ => none

def list? {α : Type} (read : Tree → Option α) : Tree → Option (List α)
  | .array items => items.mapM read
  | _ => none

end Tree

end LedgerSigning
