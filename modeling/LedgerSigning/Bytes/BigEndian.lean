/-! Naturals as bytes, the most significant first. -/
namespace LedgerSigning

namespace BigEndian

def toNat (bytes : List UInt8) : Nat := bytes.foldl (fun n b => n * 256 + b.toNat) 0

/-- The lowest `count` bytes of a natural. -/
def ofNat : Nat → Nat → List UInt8
  | 0, _ => []
  | count + 1, n => (n / Nat.pow 256 count % 256).toUInt8 :: ofNat count n

end BigEndian

end LedgerSigning
