import LedgerSigning.Number.Binary64
import LedgerSigning.Text.Numeral

/-! Command line arguments. A level of the command line has options, positional arguments and
commands; `scan` reads the tokens of one level up to the name of a command. -/
namespace LedgerSigning

/-- Why a command line is not carried out. -/
inductive Rejection where
  | invalidSubcommand
  | unknownArgument
  | missingRequired
  | missingSubcommand
  | valueValidation
  | invalidValue
  | tooManyValues
  | conflict
  | nothingGiven
  | help
  | version
deriving DecidableEq

/-- Asking for help or for the version is no fault. -/
def Rejection.exitCode : Rejection → Nat
  | .help => 0
  | .version => 0
  | _ => 2

/-- What an argument takes. -/
inductive Kind where
  | flag
  | text
  | path
  | number
  | natural
deriving DecidableEq

structure Argument where
  name : String
  short : Option Char
  kind : Kind
  repeats : Bool
deriving DecidableEq

/-- The value of an argument; a path is a text. -/
inductive Value where
  | flag
  | text (s : String)
  | number (x : Binary64)
  | natural (n : UInt64)
deriving DecidableEq

/-- What may stand at one place of the command line. -/
structure Level where
  options : List Argument
  positionals : List Argument
  commands : List String
  /-- Whether the version may be asked for. -/
  versioned : Bool

namespace Decimals

/-- A row of digits, possibly empty, and what follows it. -/
def row (text : List Char) : List Char × List Char :=
  (text.takeWhile Char.isDigit, text.dropWhile Char.isDigit)

/-- The power of ten after a mark, which must be all that remains. -/
def power? : List Char → Option Int
  | [] => some 0
  | c :: rest => if c = 'e' ∨ c = 'E' then Numeral.integer? rest else none

/-- A number without its sign: digits with at most one point among them, at least one digit,
and an optional power of ten; or infinity or NaN by name. -/
def magnitude? (negative : Bool) (text : List Char) : Option Binary64 :=
  let lower := text.map Char.toLower
  if lower = "inf".toList ∨ lower = "infinity".toList then some (.infinity negative)
  else if lower = "nan".toList then some .nan
  else
    let (whole, rest) := row text
    let (fraction, rest) := match rest with
      | '.' :: after => row after
      | _ => ([], rest)
    if whole.isEmpty && fraction.isEmpty then none
    else (power? rest).map fun power =>
      .ofDecimal negative (Nat.ofDigitChars 10 (whole ++ fraction) 0) (power - fraction.length)

def binary64? : List Char → Option Binary64
  | '-' :: rest => magnitude? true rest
  | '+' :: rest => magnitude? false rest
  | text => magnitude? false text

end Decimals

/-- The value of a text for an argument. A path may not be empty. -/
def Kind.value (kind : Kind) (raw : String) : Except Rejection Value :=
  match kind with
  | .flag => .ok .flag
  | .text => .ok (.text raw)
  | .path => if raw.isEmpty then .error .invalidValue else .ok (.text raw)
  | .number =>
    match Decimals.binary64? raw.toList with
    | some x => .ok (.number x)
    | none => .error .valueValidation
  | .natural =>
    match Numeral.unsigned64? raw.toList with
    | some n => .ok (.natural n)
    | none => .error .valueValidation

/-- What a level has read: values, the argument that is being read with its text if that is
there, and how many positional arguments there were. -/
structure Scan where
  found : List (Argument × Value)
  pending : Option (Argument × Option String)
  positions : Nat

namespace Scan

def start : Scan := ⟨[], none, 0⟩

def has (s : Scan) (arg : Argument) : Bool := s.found.any (·.1.name = arg.name)

/-- Adds a value. An argument that does not repeat may come once. -/
def add (s : Scan) (arg : Argument) (raw : String) : Except Rejection Scan :=
  if !arg.repeats && s.has arg then .error .conflict
  else do
    let value ← arg.kind.value raw
    .ok { s with found := s.found ++ [(arg, value)] }

/-- Finishes the argument that is being read. -/
def settle (s : Scan) : Except Rejection Scan :=
  match s.pending with
  | none => .ok s
  | some (_, none) => .error .invalidValue
  | some (arg, some raw) => { s with pending := none }.add arg raw

/-- Whether the next token is the text of an option. -/
def expects (s : Scan) : Bool :=
  match s.pending with
  | some (_, none) => true
  | _ => false

/-- Reads an option that stands alone or has its text attached. -/
def option (s : Scan) (arg : Argument) (attached : Option String) : Except Rejection Scan :=
  match arg.kind, attached with
  | .flag, some _ => .error .tooManyValues
  | .flag, none => do
    let s ← s.settle
    s.add arg ""
  | _, some raw => do
    let s ← s.settle
    s.add arg raw
  | _, none => do
    let s ← s.settle
    .ok { s with pending := some (arg, none) }

/-- Reads `--name` or `--name=text`. -/
def long (level : Level) (s : Scan) (name : String) (attached : Option String) :
    Except Rejection Scan :=
  let builtIn (r : Rejection) : Except Rejection Scan :=
    if attached.isSome then .error .tooManyValues
    else do
      let _ ← s.settle
      .error r
  if name = "help" then builtIn .help
  else if name = "version" ∧ level.versioned then builtIn .version
  else match level.options.find? (·.name = name) with
    | some arg => s.option arg attached
    | none => .error .unknownArgument

/-- Reads `-c`, with the text of an option attached after it or after an equals sign. -/
def short (level : Level) (s : Scan) (c : Char) (rest : List Char) : Except Rejection Scan :=
  let builtIn (r : Rejection) : Except Rejection Scan := do
    let _ ← s.settle
    .error r
  if c = 'h' then builtIn .help
  else if c = 'V' ∧ level.versioned then builtIn .version
  else match level.options.find? (·.short = some c) with
    | some arg =>
      s.option arg (match rest with
        | [] => none
        | '=' :: raw => some (String.ofList raw)
        | raw => some (String.ofList raw))
    | none => .error .unknownArgument

/-- Reads a positional argument. -/
def positional (level : Level) (s : Scan) (trailing : Bool) (token : String) :
    Except Rejection Scan :=
  match level.positionals[s.positions]? with
  | some arg => do
    let s ← s.settle
    .ok { s with pending := some (arg, some token), positions := s.positions + 1 }
  | none =>
    if level.commands.isEmpty ∨ (trailing ∧ token ∈ level.commands) then .error .unknownArgument
    else .error .invalidSubcommand

/-- Reads one token that is neither the name of a command nor `--`. -/
def token (level : Level) (s : Scan) (token : String) : Except Rejection Scan :=
  match token.toList with
  | '-' :: '-' :: rest =>
    s.long level (String.ofList (rest.takeWhile (· ≠ '=')))
      (match rest.dropWhile (· ≠ '=') with
        | [] => none
        | _ :: raw => some (String.ofList raw))
  | '-' :: c :: rest => s.short level c rest
  | _ =>
    match s.pending with
    | some (arg, none) => .ok { s with pending := some (arg, some token) }
    | _ => s.positional level false token

end Scan

/-- Reads tokens until one is the name of a command, which is returned with the tokens after
it. After `--` all tokens are positional. -/
def scan (level : Level) (trailing : Bool) (s : Scan) :
    List String → Except Rejection (Scan × Option (String × List String))
  | [] => .ok (s, none)
  | token :: rest =>
    if trailing then do
      let s ← s.positional level true token
      scan level true s rest
    else if !s.expects && token ∈ level.commands then .ok (s, some (token, rest))
    else if token = "--" then scan level true s rest
    else do
      let s ← s.token level token
      scan level false s rest

namespace Scan

def values (s : Scan) (name : String) : List Value :=
  (s.found.filter (·.1.name = name)).map (·.2)

def texts (s : Scan) (name : String) : List String :=
  (s.values name).filterMap fun
    | .text raw => some raw
    | _ => none

def text? (s : Scan) (name : String) : Option String := (s.texts name).head?

def number? (s : Scan) (name : String) : Option Binary64 :=
  (s.values name).findSome? fun
    | .number x => some x
    | _ => none

def natural? (s : Scan) (name : String) : Option UInt64 :=
  (s.values name).findSome? fun
    | .natural n => some n
    | _ => none

def flag (s : Scan) (name : String) : Bool := !(s.values name).isEmpty

end Scan

end LedgerSigning
