import LedgerSigning.Cli.Failure
import LedgerSigning.Json.Reader
import LedgerSigning.Text.Blank

/-! Documents built from `key=value` assignments. A dot in a key leads into a nested object,
and a value that is JSON keeps its type; any other is a string. -/
namespace LedgerSigning

namespace Assignments

/-- The segments of a key between its dots. -/
def segments : List Char → List (List Char)
  | [] => [[]]
  | c :: rest =>
    match segments rest with
    | [] => [[c]]
    | first :: others => if c = '.' then [] :: first :: others else (c :: first) :: others

/-- A path of keys and the value to put there. -/
structure Assignment where
  key : String
  path : List String
  value : Json

/-- Reads an assignment; key and value are trimmed. -/
def read (argument : String) : Except AssignmentError Assignment :=
  let chars := argument.toList
  match chars.dropWhile (· ≠ '=') with
  | [] => .error (.noEquals argument)
  | _ :: rest =>
    let key := Blank.trim (chars.takeWhile (· ≠ '='))
    let raw := String.ofList (Blank.trim rest)
    if key.isEmpty then .error (.emptyKey argument)
    else if (segments key).any List.isEmpty then .error (.emptySegment (String.ofList key))
    else .ok ⟨String.ofList key, (segments key).map String.ofList,
      (Json.ofText? raw).getD (.string raw)⟩

/-- Puts a value at the end of a path, making the objects on the way. `key` names the path in
the error for a value in the way that is no object. -/
def put (key : String) (value : Json) :
    List String → List (String × Json) → Except AssignmentError (List (String × Json))
  | [], members => .ok members
  | [last], members => .ok (Members.insert last value members)
  | segment :: next :: path, members =>
    match (Members.find? segment members).getD (.object []) with
    | .object inner => do
      let inner ← put key value (next :: path) inner
      .ok (Members.insert segment (.object inner) members)
    | _ => .error (.occupied key segment)

def assign (members : List (String × Json)) (argument : String) :
    Except AssignmentError (List (String × Json)) := do
  let assignment ← read argument
  put assignment.key assignment.value assignment.path members

/-- The members that assignments make one after the other. -/
def ofArguments (arguments : List String) : Except AssignmentError (List (String × Json)) :=
  arguments.foldlM assign []

end Assignments

end LedgerSigning
