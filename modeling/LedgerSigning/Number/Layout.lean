import LedgerSigning.Number.Shortest

/-! Texts of binary64 numbers. All are the shortest digits that read back; a layout fixes
when the point is written among them and when an exponent follows. -/
namespace LedgerSigning

/-- How digits are laid out. Of a number with its point after `p` digits, the positional form
is used when `lowest < p` and `p ≤ highest`, an absent bound excluding nothing. -/
structure Layout where
  lowest : Option Int
  highest : Option Int
  /-- A whole number keeps one zero after its point. -/
  pointed : Bool
  /-- Negative zero keeps its sign. -/
  signsZero : Bool
  ties : TieRule

namespace Layout

/-- Canonical JSON numbers. -/
def canonical : Layout := ⟨some (-6), some 21, false, false, .even⟩

/-- Numbers in written JSON documents. -/
def document : Layout := ⟨some (-5), some 16, true, true, .even⟩

/-- Numbers in messages: never an exponent. -/
def message : Layout := ⟨none, none, false, true, .up⟩

def isPositional (l : Layout) (point : Int) : Bool :=
  (l.lowest.all (· < point)) && (l.highest.all (point ≤ ·))

/-- Drops the zeros a digit list ends with, but not its first digit. -/
def trimZeros (digits : List Char) : List Char :=
  match (digits.reverse.dropWhile (· == '0')).reverse with
  | [] => ['0']
  | trimmed => trimmed

/-- The point stands after `point` digits, zeros filling the gap on either side. -/
def positional (l : Layout) (digits : List Char) (point : Int) : List Char :=
  if point ≤ 0 then '0' :: '.' :: (List.replicate (-point).toNat '0' ++ digits)
  else if digits.length ≤ point.toNat then
    digits ++ List.replicate (point.toNat - digits.length) '0' ++
      (if l.pointed then ['.', '0'] else [])
  else digits.take point.toNat ++ '.' :: digits.drop point.toNat

/-- One digit, the others after a point, and the signed power of ten. -/
def scientific (digits : List Char) (point : Int) : List Char :=
  let power := point - 1
  digits.take 1 ++ (if digits.length ≤ 1 then [] else '.' :: digits.drop 1) ++
    'e' :: (if power < 0 then '-' else '+') :: Nat.toDigits 10 power.natAbs

/-- The text of a finite magnitude. -/
def magnitude (l : Layout) (code : Nat) : List Char :=
  if code = 0 then '0' :: (if l.pointed then ['.', '0'] else [])
  else
    let shortest := Decimal.shortest l.ties code
    let all := Nat.toDigits 10 shortest.significand
    let point := (all.length : Int) + shortest.exponent
    let digits := trimZeros all
    if l.isPositional point then l.positional digits point else scientific digits point

/-- The text of a number. Documents and canonical texts hold finite numbers only. -/
def text (l : Layout) (x : Binary64) : List Char :=
  if x.isNaN then "NaN".toList
  else
    let sign := if x.negative && (x.code != 0 || l.signsZero) then ['-'] else []
    sign ++ (if x.isFinite then l.magnitude x.code else "inf".toList)

end Layout

end LedgerSigning
