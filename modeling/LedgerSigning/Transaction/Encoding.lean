import LedgerSigning.Framing
import LedgerSigning.Transaction.Basic

/-! The text of a transaction that is framed and hashed: the number of parents, then each
field after its length in characters. -/
namespace LedgerSigning

namespace Salt

/-- The hexadecimal digits of a salt. A negative one is written modulo 2^64. -/
def hex (salt : String) : Except EncodingError (List Char) :=
  match salt.toList with
  | '-' :: digits =>
    match (Numeral.digits? digits).filter (2 * · ≤ Numeral.words) with
    | some n => .ok (Numeral.hex ((Numeral.words - n) % Numeral.words))
    | none => .error (.badSalt salt)
  | text =>
    match Numeral.below? (Numeral.words * Numeral.words) text with
    | some n => .ok (Numeral.hex n)
    | none => .error (.badSalt salt)

end Salt

namespace Body

/-- A field after its length. -/
def counted (field : List Char) : List Char := Numeral.ofNat field.length ++ field

/-- The fields of a transaction in the order in which they are hashed. -/
def fields (b : Body) : Except EncodingError (List (List Char)) := do
  let salt ← Salt.hex b.salt
  .ok [b.source.toList, b.destination.toList, Numeral.hex b.amount.toNat, b.parent.hash.toList,
    Numeral.ofNat b.parent.ordinal.toNat, Numeral.ofNat b.fee.toNat, salt]

/-- Every transaction declares two parents. -/
def encode (b : Body) : Except EncodingError (List Char) := do
  let fields ← b.fields
  .ok ('2' :: fields.flatMap counted)

def hash (b : Body) : Except EncodingError Hash := do
  let text ← b.encode
  .ok (Hash.ofMessage (Framing.frame false text))

end Body

end LedgerSigning
