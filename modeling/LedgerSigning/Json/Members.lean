/-! Members sorted by key, each key once. `<` on strings compares code points. -/
namespace LedgerSigning

namespace Members

variable {α : Type}

/-- Sets the value of a key, in place if the key is there already. -/
def insert (key : String) (value : α) : List (String × α) → List (String × α)
  | [] => [(key, value)]
  | (k, v) :: rest =>
    if key = k then (key, value) :: rest
    else if key < k then (key, value) :: (k, v) :: rest
    else (k, v) :: insert key value rest

def find? (key : String) (members : List (String × α)) : Option α :=
  (members.find? (·.1 = key)).map (·.2)

/-- Inserts the members of a list one after the other, so that the last of a key stays. -/
def extend (members : List (String × α)) (more : List (String × α)) : List (String × α) :=
  more.foldl (fun acc (key, value) => insert key value acc) members

def ofList (members : List (String × α)) : List (String × α) := extend [] members

end Members

end LedgerSigning
