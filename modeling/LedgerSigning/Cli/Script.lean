import LedgerSigning.Cli.Failure

/-! What a command does to the world, as data: a script asks for files, output and random
bytes one request at a time. Main operation: `run` answers the requests from a world that
is a value. -/
namespace LedgerSigning

inductive Channel where
  | out
  | err
deriving DecidableEq

inductive Script (α : Type) where
  | done (value : α)
  | fail (failure : Failure)
  | readFile (path : String) (next : Except FileError (List UInt8) → Script α)
  | isFile (path : String) (next : Bool → Script α)
  | writeFile (path : String) (bytes : List UInt8) (next : Except FileError Unit → Script α)
  | setMode (path : String) (mode : Nat) (next : Except FileError Unit → Script α)
  | print (channel : Channel) (line : String) (next : Script α)
  | random (count : Nat) (next : List UInt8 → Script α)

namespace Script

variable {α β : Type}

def bind : Script α → (α → Script β) → Script β
  | .done value, f => f value
  | .fail failure, _ => .fail failure
  | .readFile path next, f => .readFile path fun answer => (next answer).bind f
  | .isFile path next, f => .isFile path fun answer => (next answer).bind f
  | .writeFile path bytes next, f => .writeFile path bytes fun answer => (next answer).bind f
  | .setMode path mode next, f => .setMode path mode fun answer => (next answer).bind f
  | .print channel line next, f => .print channel line (next.bind f)
  | .random count next, f => .random count fun bytes => (next bytes).bind f

instance : Monad Script where
  pure := .done
  bind := .bind

/-- Goes on with a value or fails. -/
def ofExcept : Except Failure α → Script α
  | .ok value => .done value
  | .error failure => .fail failure

/-- Goes on with the value of an operation or fails because it is refused. -/
def attempt (result : Except Error α) : Script α := ofExcept (result.mapError .refused)

def printLine (line : String) : Script Unit := .print .out line (.done ())

def warnLine (line : String) : Script Unit := .print .err line (.done ())

def randomBytes (count : Nat) : Script (List UInt8) := .random count .done

/-- The text of a file, or the failure that `onError` makes of the cause. -/
def readText (path : String) (onError : FileError → Failure) : Script String :=
  .readFile path fun answer =>
    match answer with
    | .error cause => .fail (onError cause)
    | .ok bytes =>
      match Utf8.decode bytes with
      | .ok text => .done (String.ofList text)
      | .error _ => .fail (onError .notText)

/-- Files that are written may be read by all and written by their owner. -/
def publicMode : Nat := 0o644

/-- Writes a text and then sets the mode of the file. Where the second step fails the first one has
taken effect. -/
def writeText (path text : String) : Script Unit :=
  .writeFile path (Utf8.encode text.toList) fun written =>
    match written with
    | .error cause => .fail (.unwritten path cause)
    | .ok _ => .setMode path publicMode fun set =>
      match set with
      | .error cause => .fail (.modeUnset cause)
      | .ok _ => .done ()

/-- Files, what has been printed, and an endless row of random bytes of which some are used. -/
structure World where
  files : Files
  out : String
  err : String
  random : Nat → UInt8
  used : Nat

namespace World

def print (world : World) (channel : Channel) (line : String) : World :=
  match channel with
  | .out => { world with out := world.out ++ line ++ "\n" }
  | .err => { world with err := world.err ++ line ++ "\n" }

/-- The next random bytes. -/
def draw (world : World) (count : Nat) : List UInt8 :=
  (List.range count).map fun i => world.random (world.used + i)

end World

/-- The outcome of a script and the world after it. A request that fails changes nothing. -/
def run : Script α → World → Except Failure α × World
  | .done value, world => (.ok value, world)
  | .fail failure, world => (.error failure, world)
  | .readFile path next, world => (next (world.files.read path)).run world
  | .isFile path next, world => (next (world.files.isFile path)).run world
  | .writeFile path bytes next, world =>
    match world.files.write path bytes with
    | .ok files => (next (.ok ())).run { world with files }
    | .error cause => (next (.error cause)).run world
  | .setMode path mode next, world =>
    match world.files.setMode path mode with
    | .ok files => (next (.ok ())).run { world with files }
    | .error cause => (next (.error cause)).run world
  | .print channel line next, world => next.run (world.print channel line)
  | .random count next, world =>
    (next (world.draw count)).run { world with used := world.used + count }

end Script

end LedgerSigning
