import LedgerSigning.Bytes.BigEndian

/-! SHA-256 and SHA-512. Both are one construction over words of 32 and of 64 bits: a class
holds what differs, and `digest` pads a message and absorbs it block by block. -/
namespace LedgerSigning

namespace Sha2

/-- The eight words that a block is mixed into. -/
structure State (α : Type) where
  a : α
  b : α
  c : α
  d : α
  e : α
  f : α
  g : α
  h : α

/-- The words of one variant, its four mixing functions and its constants. -/
class Word (α : Type) where
  /-- Bytes in a word. -/
  width : Nat
  ofNat : Nat → α
  toNat : α → Nat
  add : α → α → α
  choose : α → α → α → α
  majority : α → α → α → α
  sumA : α → α
  sumE : α → α
  mixEarly : α → α
  mixLate : α → α
  /-- The fractional parts of the square roots of the first eight primes. -/
  initial : State α
  rounds : List α

export Word (width)

section

variable {α : Type} [Word α]

/-- The words of a row of bytes, `count` of them. -/
@[specialize] def words : Nat → List UInt8 → List α
  | 0, _ => []
  | count + 1, bytes =>
    Word.ofNat (BigEndian.toNat (bytes.take (width α))) :: words count (bytes.drop (width α))

/-- Puts `more` words before a schedule that is listed from its latest word on. -/
@[specialize] def extend : Nat → List α → List α
  | 0, schedule => schedule
  | more + 1, schedule =>
    let latest := fun i => schedule.getD i (Word.ofNat 0)
    extend more (Word.add (Word.add (Word.mixLate (latest 1)) (latest 6))
      (Word.add (Word.mixEarly (latest 14)) (latest 15)) :: schedule)

/-- The scheduled words of a block, one for each round. -/
@[specialize] def schedule (block : List UInt8) : List α :=
  (extend ((Word.rounds : List α).length - 16) (words 16 block).reverse).reverse

@[specialize] def round (s : State α) (constant word : α) : State α :=
  let t := Word.add (Word.add s.h (Word.sumE s.e))
    (Word.add (Word.choose s.e s.f s.g) (Word.add constant word))
  let u := Word.add (Word.sumA s.a) (Word.majority s.a s.b s.c)
  ⟨Word.add t u, s.a, s.b, s.c, Word.add s.d t, s.e, s.f, s.g⟩

@[specialize] def State.add (s t : State α) : State α :=
  ⟨Word.add s.a t.a, Word.add s.b t.b, Word.add s.c t.c, Word.add s.d t.d,
   Word.add s.e t.e, Word.add s.f t.f, Word.add s.g t.g, Word.add s.h t.h⟩

@[specialize] def compress (s : State α) (block : List UInt8) : State α :=
  s.add (((Word.rounds : List α).zip (schedule block)).foldl (fun t (k, w) => round t k w) s)

/-- Absorbs `blocks` blocks of sixteen words. -/
@[specialize] def absorb : Nat → State α → List UInt8 → State α
  | 0, s, _ => s
  | blocks + 1, s, bytes =>
    absorb blocks (compress s (bytes.take (16 * width α))) (bytes.drop (16 * width α))

/-- Fills the last block up: a one bit, zeros, and the length in bits as two words. -/
def padding (width length : Nat) : List UInt8 :=
  let block := 16 * width
  let zeros := (block - (length + 1 + 2 * width) % block) % block
  0x80 :: (List.replicate zeros 0 ++ BigEndian.ofNat (2 * width) (8 * length))

@[specialize] def State.bytes (s : State α) : List UInt8 :=
  [s.a, s.b, s.c, s.d, s.e, s.f, s.g, s.h].flatMap fun w =>
    BigEndian.ofNat (width α) (Word.toNat w)

@[specialize] def digest (α : Type) [Word α] (message : List UInt8) : List UInt8 :=
  let padded := message ++ padding (width α) message.length
  (absorb (padded.length / (16 * width α)) (Word.initial : State α) padded).bytes

end

/-- Rotates to the right. -/
def rotate32 (x : UInt32) (count : UInt32) : UInt32 := x >>> count ||| x <<< (32 - count)

/-- The fractional parts of the cube roots of the first 64 primes. -/
def rounds32 : List UInt32 :=
  [0x428a2f98, 0x71374491, 0xb5c0fbcf, 0xe9b5dba5, 0x3956c25b, 0x59f111f1,
   0x923f82a4, 0xab1c5ed5, 0xd807aa98, 0x12835b01, 0x243185be, 0x550c7dc3,
   0x72be5d74, 0x80deb1fe, 0x9bdc06a7, 0xc19bf174, 0xe49b69c1, 0xefbe4786,
   0x0fc19dc6, 0x240ca1cc, 0x2de92c6f, 0x4a7484aa, 0x5cb0a9dc, 0x76f988da,
   0x983e5152, 0xa831c66d, 0xb00327c8, 0xbf597fc7, 0xc6e00bf3, 0xd5a79147,
   0x06ca6351, 0x14292967, 0x27b70a85, 0x2e1b2138, 0x4d2c6dfc, 0x53380d13,
   0x650a7354, 0x766a0abb, 0x81c2c92e, 0x92722c85, 0xa2bfe8a1, 0xa81a664b,
   0xc24b8b70, 0xc76c51a3, 0xd192e819, 0xd6990624, 0xf40e3585, 0x106aa070,
   0x19a4c116, 0x1e376c08, 0x2748774c, 0x34b0bcb5, 0x391c0cb3, 0x4ed8aa4a,
   0x5b9cca4f, 0x682e6ff3, 0x748f82ee, 0x78a5636f, 0x84c87814, 0x8cc70208,
   0x90befffa, 0xa4506ceb, 0xbef9a3f7, 0xc67178f2]

instance : Word UInt32 where
  width := 4
  ofNat := UInt32.ofNat
  toNat := UInt32.toNat
  add := (· + ·)
  choose e f g := (e &&& f) ^^^ (~~~e &&& g)
  majority a b c := (a &&& b) ^^^ (a &&& c) ^^^ (b &&& c)
  sumA x := rotate32 x 2 ^^^ rotate32 x 13 ^^^ rotate32 x 22
  sumE x := rotate32 x 6 ^^^ rotate32 x 11 ^^^ rotate32 x 25
  mixEarly x := rotate32 x 7 ^^^ rotate32 x 18 ^^^ x >>> 3
  mixLate x := rotate32 x 17 ^^^ rotate32 x 19 ^^^ x >>> 10
  initial := ⟨0x6a09e667, 0xbb67ae85, 0x3c6ef372, 0xa54ff53a,
    0x510e527f, 0x9b05688c, 0x1f83d9ab, 0x5be0cd19⟩
  rounds := rounds32

/-- Rotates to the right. -/
def rotate64 (x : UInt64) (count : UInt64) : UInt64 := x >>> count ||| x <<< (64 - count)

/-- The fractional parts of the cube roots of the first 80 primes. -/
def rounds64 : List UInt64 :=
  [0x428a2f98d728ae22, 0x7137449123ef65cd, 0xb5c0fbcfec4d3b2f, 0xe9b5dba58189dbbc,
   0x3956c25bf348b538, 0x59f111f1b605d019, 0x923f82a4af194f9b, 0xab1c5ed5da6d8118,
   0xd807aa98a3030242, 0x12835b0145706fbe, 0x243185be4ee4b28c, 0x550c7dc3d5ffb4e2,
   0x72be5d74f27b896f, 0x80deb1fe3b1696b1, 0x9bdc06a725c71235, 0xc19bf174cf692694,
   0xe49b69c19ef14ad2, 0xefbe4786384f25e3, 0x0fc19dc68b8cd5b5, 0x240ca1cc77ac9c65,
   0x2de92c6f592b0275, 0x4a7484aa6ea6e483, 0x5cb0a9dcbd41fbd4, 0x76f988da831153b5,
   0x983e5152ee66dfab, 0xa831c66d2db43210, 0xb00327c898fb213f, 0xbf597fc7beef0ee4,
   0xc6e00bf33da88fc2, 0xd5a79147930aa725, 0x06ca6351e003826f, 0x142929670a0e6e70,
   0x27b70a8546d22ffc, 0x2e1b21385c26c926, 0x4d2c6dfc5ac42aed, 0x53380d139d95b3df,
   0x650a73548baf63de, 0x766a0abb3c77b2a8, 0x81c2c92e47edaee6, 0x92722c851482353b,
   0xa2bfe8a14cf10364, 0xa81a664bbc423001, 0xc24b8b70d0f89791, 0xc76c51a30654be30,
   0xd192e819d6ef5218, 0xd69906245565a910, 0xf40e35855771202a, 0x106aa07032bbd1b8,
   0x19a4c116b8d2d0c8, 0x1e376c085141ab53, 0x2748774cdf8eeb99, 0x34b0bcb5e19b48a8,
   0x391c0cb3c5c95a63, 0x4ed8aa4ae3418acb, 0x5b9cca4f7763e373, 0x682e6ff3d6b2b8a3,
   0x748f82ee5defb2fc, 0x78a5636f43172f60, 0x84c87814a1f0ab72, 0x8cc702081a6439ec,
   0x90befffa23631e28, 0xa4506cebde82bde9, 0xbef9a3f7b2c67915, 0xc67178f2e372532b,
   0xca273eceea26619c, 0xd186b8c721c0c207, 0xeada7dd6cde0eb1e, 0xf57d4f7fee6ed178,
   0x06f067aa72176fba, 0x0a637dc5a2c898a6, 0x113f9804bef90dae, 0x1b710b35131c471b,
   0x28db77f523047d84, 0x32caab7b40c72493, 0x3c9ebe0a15c9bebc, 0x431d67c49c100d4c,
   0x4cc5d4becb3e42b6, 0x597f299cfc657e2a, 0x5fcb6fab3ad6faec, 0x6c44198c4a475817]

instance : Word UInt64 where
  width := 8
  ofNat := UInt64.ofNat
  toNat := UInt64.toNat
  add := (· + ·)
  choose e f g := (e &&& f) ^^^ (~~~e &&& g)
  majority a b c := (a &&& b) ^^^ (a &&& c) ^^^ (b &&& c)
  sumA x := rotate64 x 28 ^^^ rotate64 x 34 ^^^ rotate64 x 39
  sumE x := rotate64 x 14 ^^^ rotate64 x 18 ^^^ rotate64 x 41
  mixEarly x := rotate64 x 1 ^^^ rotate64 x 8 ^^^ x >>> 7
  mixLate x := rotate64 x 19 ^^^ rotate64 x 61 ^^^ x >>> 6
  initial := ⟨0x6a09e667f3bcc908, 0xbb67ae8584caa73b, 0x3c6ef372fe94f82b, 0xa54ff53a5f1d36f1,
    0x510e527fade682d1, 0x9b05688c2b3e6c1f, 0x1f83d9abfb41bd6b, 0x5be0cd19137e2179⟩
  rounds := rounds64

end Sha2

def sha256 (message : List UInt8) : List UInt8 := Sha2.digest UInt32 message

def sha512 (message : List UInt8) : List UInt8 := Sha2.digest UInt64 message

end LedgerSigning
