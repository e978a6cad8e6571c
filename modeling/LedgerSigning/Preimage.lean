import LedgerSigning.Bytes.Base64
import LedgerSigning.Hash.Digest
import LedgerSigning.Json.Canonical
import LedgerSigning.Json.Reader

/-! The bytes of a document that are hashed for signing: its canonical text, or that text
wrapped as a data update. A data update is a header, a line with the length of the payload,
and the payload in base64. -/
namespace LedgerSigning

/-- Whether a document is signed as it is or as a data update. -/
inductive Mode where
  | plain
  | dataUpdate
deriving DecidableEq

def Mode.ofFlag (dataUpdate : Bool) : Mode := if dataUpdate then .dataUpdate else .plain

namespace DataUpdate

def header : List Char := "\x19Constellation Signed Data:\n".toList

def wrap (payload : List UInt8) : List UInt8 :=
  let encoded := Base64.encode payload
  Utf8.encode (header ++ Numeral.ofNat encoded.length ++ ['\n']) ++ encoded

/-- The text that a data update wraps. Layers are opened from the outside in, and the first
that does not fit is reported. -/
def unwrap (octets : List UInt8) : Except EncodingError (List Char) := do
  let text ← (Utf8.decode octets).mapError .utf8
  match header.isPrefixOf? text with
  | none => .error .missingHeader
  | some rest =>
    let line := rest.takeWhile (· ≠ '\n')
    match rest.dropWhile (· ≠ '\n') with
    | [] => .error .missingDelimiter
    | _ :: payload =>
      match Numeral.below? Numeral.words line with
      | none => .error (.badLength (String.ofList line))
      | some declared =>
        if declared ≠ payload.length then .error (.lengthMismatch declared payload.length)
        else do
          let bytes ← (Base64.decode (Utf8.encode payload)).mapError .base64
          (Utf8.decode bytes).mapError .utf8

/-- Reads the wrapped text by the type of its value. -/
def decodeAs {α : Type} (read : Tree → Option α) (octets : List UInt8) :
    Except EncodingError α := do
  let text ← unwrap octets
  match (Tree.ofText? text).bind read with
  | some value => .ok value
  | none => .error .json

/-- The document that a data update wraps. -/
def decode (octets : List UInt8) : Except EncodingError Json :=
  decodeAs (Tree.toJson? Tree.maxLevels) octets

end DataUpdate

namespace Json

def preimage (mode : Mode) (doc : Json) : Except EncodingError (List UInt8) := do
  let text ← doc.canonical.mapError .canonical
  match mode with
  | .plain => .ok (Utf8.encode text)
  | .dataUpdate => .ok (DataUpdate.wrap (Utf8.encode text))

def hash (mode : Mode) (doc : Json) : Except EncodingError Hash :=
  (doc.preimage mode).map Hash.ofMessage

end Json

end LedgerSigning
