import RadioAccess.Config.Format
import RadioAccess.Emulator.Basic

/-!
# The Command Line

The program takes the path of a configuration and a number of intervals, both of which may be left out,
runs the emulation and prints a table with a row for each link.  Everything it does is computed here
from its arguments and from what reading a file gives; the program itself only reads and prints.
-/

namespace RadioAccess

inductive CountError where
  | empty
  | notDigit
  | tooLarge
deriving DecidableEq

def CountError.message : CountError → String
  | empty => "cannot parse integer from empty string"
  | notDigit => "invalid digit found in string"
  | tooLarge => "number too large to fit in target type"

/-- What a run of the program amounts to. -/
structure Outcome where
  exitCode : UInt8
  /-- The log. -/
  notices : List Notice
  /-- The printed lines. -/
  output : List String

namespace CommandLine

/-! ## Arguments -/

/-- Reads digits onto a count that fits 64 bits; the first digit that does not belong there decides the
error. -/
def readDigits (count : Nat) : List Char → Except CountError UInt64
  | [] => .ok count.toUInt64
  | c :: text =>
    match Digit.ofChar? c with
    | none => .error .notDigit
    | some digit =>
      if 10 * count + digit.val < UInt64.size then readDigits (10 * count + digit.val) text
      else .error .tooLarge

/-- Reads a count, which may have a plus sign in front of its digits. -/
def readCount (text : String) : Except CountError UInt64 :=
  match text.toList with
  | [] => .error .empty
  | ['+'] => .error .notDigit
  | '+' :: digits => readDigits 0 digits
  | digits => readDigits 0 digits

def standardCount : UInt64 := 1000

/-- The configuration at a path, or the standard one.  `read` gives the text at a path or the reason why
there is none. -/
def loadConfig (read : String → Except ReadError String) :
    Option String → Except ConfigError Config
  | none => .ok .standard
  | some path =>
    match read path with
    | .ok text => Config.ofText text
    | .error reason => .error (.unreadable path reason)

def loadCount : Option String → Except CountError UInt64
  | none => .ok standardCount
  | some text => readCount text

/-! ## Table -/

def tableHead : String :=
  "user dir  generated  throughput  errors   latency(ms)  rtx(Mbit)"

def column (width places : Nat) (x : Float) : String := Decimal.padLeft width (Decimal.fixed places x)

def tableRow (user : Nat) (direction : Direction) (s : LinkStatistics) : String :=
  " ".intercalate
    [Decimal.padLeft 4 (toString user), Decimal.padLeft 3 direction.label, column 10 2 s.generated,
      column 11 2 s.throughput, column 7 2 s.lost, column 12 3 (s.delay * 1e3),
      column 10 3 s.retransmitted]

def userRows (user : Nat) (links : PerDirection Link) : List String :=
  Direction.all.map fun direction ↦
    tableRow user direction ((links.get direction).statistics .cumulative).1

/-- The rows of users, numbered from `user` on. -/
def tableRows (user : Nat) : List User → List String
  | [] => []
  | entry :: users => userRows user entry.links ++ tableRows (user + 1) users

def grantsOf (ticks : List Tick) (direction : Direction) : Nat :=
  ticks.foldl (fun sum tick ↦ sum + (tick.directions.get direction).pass.grants) 0

def grantLine (ticks : List Tick) : String :=
  "grants: DL " ++ toString (grantsOf ticks .downlink) ++ " UL " ++ toString (grantsOf ticks .uplink)

/-! ## Runs -/

/-- The exit code of a run that was refused. -/
def refused : UInt8 := 1

/-- The exit code of a run that a fault ended. -/
def faulted : UInt8 := 101

def refusal (notices : List Notice) (reason : String) : Outcome :=
  { exitCode := refused, notices := notices ++ [.error reason], output := [] }

def failure (notices : List Notice) : Outcome := { exitCode := faulted, notices, output := [] }

def gridNotice (layout : GridLayout) : Notice :=
  .info (layout.direction.label ++ ": " ++ toString layout.blocks ++ " RBs in " ++
    toString layout.groups ++ " groups, " ++ toString layout.rows ++ " row(s) of " ++
    toString layout.symbolsPerRow ++ " symbols")

def endNotice (count : UInt64) (emulator : Emulator) : Notice :=
  .info ("ran " ++ toString count.toNat ++ " TTIs (" ++ Decimal.fixed 3 emulator.clock.now ++ " s)")

def emulate (notices : List Notice) (emulator : Emulator) (count : UInt64) : Outcome :=
  let notices := notices ++ Direction.all.map fun direction ↦ gridNotice (emulator.layout direction)
  match emulator.run count.toNat with
  | .error stopped => failure (notices ++ stopped.notices)
  | .ok (ticks, emulator) =>
    { exitCode := 0
      notices := notices ++ [endNotice count emulator]
      output := tableHead :: tableRows 0 emulator.network.users.toList ++ [grantLine ticks] }

/-- Runs the program on its arguments. -/
def run (read : String → Except ReadError String) (arguments : List String) : Outcome :=
  match loadConfig read arguments[0]? with
  | .error reason => refusal [] reason.message
  | .ok config =>
    match loadCount arguments[1]? with
    | .error reason => refusal [] ("invalid TTI count: " ++ reason.message)
    | .ok count =>
      match Emulator.ofConfig config with
      | (notices, .error _) => failure notices
      | (notices, .ok (.error reason)) => refusal notices reason.message
      | (notices, .ok (.ok emulator)) => emulate notices emulator count

end CommandLine

end RadioAccess
