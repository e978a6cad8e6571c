import LedgerSigning.Curve.Der
import LedgerSigning.Error
import LedgerSigning.Hash.Digest

/-! Keys as text. A private key is 64 hexadecimal digits; a public key is the two coordinates
of a point in 128 digits, which identify a signer, or those after `04`. -/
namespace LedgerSigning

/-- A text of exactly `count` hexadecimal digits. -/
def isHexOf (count : Nat) (text : String) : Bool :=
  text.toList.length == count && text.toList.all Hex.isDigit

/-- The bytes that a text spells in hexadecimal. -/
def hexBytes (text : String) : Except KeyError (List UInt8) :=
  (Hex.decode (Utf8.encode text.toList)).mapError .hex

namespace PublicKey

def isShaped (text : String) : Bool := isHexOf 128 text || isHexOf 130 text

/-- Puts `04` before a text of 128 bytes. -/
def withMark (text : String) : String := if text.utf8ByteSize = 128 then "04" ++ text else text

/-- Takes a leading `04` from a text of 130 bytes. -/
def withoutMark (text : String) : String :=
  match text.toList with
  | '0' :: '4' :: rest => if text.utf8ByteSize = 130 then String.ofList rest else text
  | _ => text

/-- The point of 65 bytes: the mark 4 and two coordinates. -/
def point? : List UInt8 → Option Curve.Affine
  | 4 :: coordinates =>
    let point : Curve.Affine :=
      ⟨BigEndian.toNat (coordinates.take 32), BigEndian.toNat (coordinates.drop 32)⟩
    if coordinates.length = 64 ∧ point.isOnCurve then some point else none
  | _ => none

/-- The point of a public key with or without its mark. -/
def point (text : String) : Except KeyError Curve.Affine :=
  if isShaped text then do
    let bytes ← hexBytes (withMark text)
    match point? bytes with
    | some point => .ok point
    | none => .error .notOnCurve
  else .error .publicShape

/-- The mark 4 and both coordinates. -/
def bytes (point : Curve.Affine) : List UInt8 :=
  4 :: (BigEndian.ofNat 32 point.x ++ BigEndian.ofNat 32 point.y)

def text (point : Curve.Affine) : String := String.ofList (Hex.encode (bytes point))

/-- The first coordinate after a mark that tells whether the second is odd. -/
def compressed (point : Curve.Affine) : String :=
  String.ofList
    (Hex.encode ((if point.y % 2 = 0 then 2 else 3) :: BigEndian.ofNat 32 point.x))

/-- The text by which a proof names its signer. -/
def id (point : Curve.Affine) : String := withoutMark (text point)

end PublicKey

/-- A scalar between zero and the number of points. -/
structure PrivateKey where
  scalar : Nat
  inRange : 0 < scalar ∧ scalar < Curve.n
deriving DecidableEq

namespace PrivateKey

/-- Whether a text has the shape of a private key; its range is not looked at. -/
def isShaped (text : String) : Bool := isHexOf 64 text

def ofScalar? (scalar : Nat) : Option PrivateKey :=
  if inRange : 0 < scalar ∧ scalar < Curve.n then some ⟨scalar, inRange⟩ else none

def ofText (text : String) : Except KeyError PrivateKey :=
  if isShaped text then do
    let bytes ← hexBytes text
    match ofScalar? (BigEndian.toNat bytes) with
    | some key => .ok key
    | none => .error .privateRange
  else .error .privateShape

/-- The key of a row of random bytes. With eight bytes more than a scalar has, all scalars are
equally likely up to one part in 2^64. -/
def ofRandom (bytes : List UInt8) : PrivateKey where
  scalar := BigEndian.toNat bytes % (Curve.n - 1) + 1
  inRange := by
    have hRest := Nat.mod_lt (BigEndian.toNat bytes) (y := Curve.n - 1) (by decide)
    have hPositive : 0 < Curve.n := by decide
    omega

def text (key : PrivateKey) : String :=
  String.ofList (Hex.encode (BigEndian.ofNat 32 key.scalar))

/-- The public point. No multiple of the generator by a scalar in range is at infinity. -/
def point (key : PrivateKey) : Curve.Affine :=
  ((Curve.generator.toProjective.mul key.scalar).toAffine?).getD Curve.generator

def id (key : PrivateKey) : String := PublicKey.id key.point

/-- The signature of a digest as hexadecimal text. -/
def sign (key : PrivateKey) (digest : List UInt8) : Except Error String :=
  match Signature.sign? key.scalar digest with
  | some sig => .ok (String.ofList (Hex.encode (Der.encode sig)))
  | none => .error .unsignable

end PrivateKey

/-- Whether a signature text verifies for a digest and a public key text. Malformed texts
verify nothing. -/
def verifies (digest : List UInt8) (signature publicKey : String) : Bool :=
  match PublicKey.point publicKey, hexBytes signature with
  | .ok point, .ok bytes =>
    match Der.decode? bytes with
    | some sig => sig.lowS.satisfies point digest
    | none => false
  | _, _ => false

end LedgerSigning
