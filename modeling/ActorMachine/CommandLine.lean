import ActorMachine.Machine.Schedule
import ActorMachine.Program.Counter
import ActorMachine.Program.Echo
/-! The command line: what the arguments ask for, and what a session answers. Options may stand
before and after the command, as `--name value` or `--name=value`; one that stands after it wins. -/

namespace ActorMachine.CommandLine

inductive Command where
  | echo (interactive : Bool)
  | clock (seconds : Nat)
  deriving DecidableEq, Repr

structure Options where
  heap : Nat := ({} : Config).heapCapacity
  strategy : Strategy := .markSweep
  logLevel : String := "warn"
  traceDispatch : Bool := false
  stats : Bool := false

inductive Request where
  | run (options : Options) (command : Command)
  | version
  | help
  | invalid

def parseCount? (s : String) : Option Nat :=
  let digits := match s.toList with
    | '+' :: cs => cs
    | cs => cs
  if digits ≠ [] ∧ digits.all Char.isDigit then
    let n := digits.foldl (fun n c => 10 * n + (c.toNat - '0'.toNat)) 0
    if n < UInt64.size then some n else none
  else none

/-- What has been read: the settings, the command if there is one, and the options seen since the
last command. -/
structure Parse where
  options : Options := {}
  command : Option Command := none
  seen : List String := []

namespace Parse

def setSwitch (p : Parse) (name : String) : Option Parse :=
  match name, p.command with
  | "trace-dispatch", _ => some { p with options.traceDispatch := true }
  | "stats", _ => some { p with options.stats := true }
  | "interactive", some (.echo _) => some { p with command := some (.echo true) }
  | _, _ => none

def setValue (p : Parse) (name value : String) : Option Parse :=
  match name, p.command with
  | "heap", _ => (parseCount? value).map fun n => { p with options.heap := n }
  | "gc", _ =>
    match Strategy.parse value with
    | .ok s => some { p with options.strategy := s }
    | .error _ => none
  | "log-level", _ => some { p with options.logLevel := value }
  | "seconds", some (.clock _) =>
    (parseCount? value).map fun n => { p with command := some (.clock n) }
  | _, _ => none

def see (p : Parse) (name : String) : Option Parse :=
  if name ∈ p.seen then none else some { p with seen := name :: p.seen }

def choose (p : Parse) (name : String) : Option Parse :=
  match name, p.command with
  | "echo", none => some { p with command := some (.echo false), seen := [] }
  | "clock", none => some { p with command := some (.clock 3), seen := [] }
  | _, _ => none

def finish (p : Parse) : Request :=
  match p.command with
  | some c => .run p.options c
  | none => .invalid

end Parse

def takesValue (name : String) : Bool := name ∈ ["heap", "gc", "log-level", "seconds"]

def isOption (arg : String) : Bool :=
  match arg.toList with
  | '-' :: _ :: _ => true
  | _ => false

def splitOption (name : List Char) : String × Option String :=
  let value := match name.dropWhile (· ≠ '=') with
    | [] => none
    | _ :: v => some (String.ofList v)
  (String.ofList (name.takeWhile (· ≠ '=')), value)

def isHelpTopic : List String → Bool
  | [] => true
  | [name] => name ∈ ["echo", "clock", "help"]
  | _ => false

def parseFrom (p : Parse) : List String → Request
  | [] => p.finish
  | arg :: rest =>
    match arg.toList with
    | ['-', '-'] => if rest.isEmpty then p.finish else .invalid
    | '-' :: '-' :: name =>
      match splitOption name with
      | ("help", none) => .help
      | ("version", none) => if p.command.isNone then .version else .invalid
      | (name, some value) =>
        match takesValue name, (p.see name).bind fun p => p.setValue name value with
        | true, some p => parseFrom p rest
        | _, _ => .invalid
      | (name, none) =>
        if takesValue name then
          match rest with
          | value :: rest =>
            match isOption value, (p.see name).bind fun p => p.setValue name value with
            | false, some p => parseFrom p rest
            | _, _ => .invalid
          | [] => .invalid
        else
          match (p.see name).bind fun p => p.setSwitch name with
          | some p => parseFrom p rest
          | none => .invalid
    | '-' :: 'h' :: _ => .help
    | '-' :: 'V' :: _ => if p.command.isNone then .version else .invalid
    | '-' :: _ :: _ => .invalid
    | _ =>
      if arg = "help" ∧ p.command = none then if isHelpTopic rest then .help else .invalid
      else match p.choose arg with
        | some p => parseFrom p rest
        | none => .invalid

def parse (args : List String) : Request := parseFrom {} args

structure Outcome where
  exit : UInt8 := 0
  stdout : List UInt8 := []
  stderr : String := ""

def versionText : String := "ufork 0.1.0\n"

def usageText : String :=
  "Usage: ufork [OPTIONS] <COMMAND>\n\n" ++
  "Commands:\n" ++
  "  echo   Copy input to output through an echo actor\n" ++
  "  clock  Count clock events for a while\n\n" ++
  "Options:\n" ++
  "      --heap <HEAP>            Heap size in cells\n" ++
  "      --gc <GC>                Garbage collector: mark-sweep, incremental or manual\n" ++
  "      --log-level <LOG_LEVEL>  Least urgent notices to log\n" ++
  "      --trace-dispatch         Log every dispatch decision\n" ++
  "      --stats                  Print runtime statistics on exit\n" ++
  "  -h, --help                   Print help\n" ++
  "  -V, --version                Print version\n"

def statsText (s : Stats) : String :=
  "dispatched:   " ++ toString s.dispatched ++ "\n" ++
  "requeued:     " ++ toString s.requeued ++ "\n" ++
  "dropped:      " ++ toString s.dropped ++ "\n" ++
  "instructions: " ++ toString s.instructions ++ "\n" ++
  "commits:      " ++ toString s.commits ++ "\n" ++
  "aborts:       " ++ toString s.aborts ++ "\n" ++
  "releases:     " ++ toString s.releases ++ "\n" ++
  "stops:        " ++ toString s.stops ++ "\n" ++
  "clock events: " ++ toString s.clockEvents ++ "\n" ++
  "gc cycles:    " ++ toString s.collections ++ "\n"

def Options.config (o : Options) : Config :=
  { heapCapacity := o.heap, strategy := o.strategy, traceDispatch := o.traceDispatch }

def failure (message : String) (stdout : List UInt8) : Outcome :=
  { exit := 1, stdout, stderr := "Error: " ++ message ++ "\n" }

def conclude (o : Options) (written shown : Machine → List UInt8) :
    EStateM.Result Fault Machine Unit → Outcome
  | .error e m => failure e.message (written m)
  | .ok _ m =>
    { stdout := written m ++ shown m, stderr := if o.stats then statsText m.statistics else "" }

def silent (_ : Machine) : List UInt8 := []

def session (o : Options) (act : MachineM Unit) (written shown : Machine → List UInt8) : Outcome :=
  match Machine.new o.config with
  | .error e => failure e.message []
  | .ok m => conclude o written shown (act m)

def echoFuel (n : Nat) : Nat := 16 * n + 64

def echoSession (o : Options) (input : List UInt8) : Outcome :=
  session o
    (do
      Machine.setConsole (.ofInput input)
      let echo ← Program.echo false
      Machine.send echo .unit
      let _ ← Machine.run (echoFuel input.length))
    (·.console.output) silent

def startInteractive : MachineM Unit := do
  let echo ← Program.echo true
  Machine.send echo .unit

def feedInteractive (input : List UInt8) : MachineM Bool := do
  Machine.setConsole (.ofInput input)
  Machine.runFor (echoFuel input.length)

def startClock (now : UInt64) : MachineM Unit := do
  let counter ← Program.counter
  Machine.attachClock now counter

def clockRound (now : UInt64) : MachineM Bool := do
  Machine.onClock (·.set now)
  Machine.tick

def traceOutput (m : Machine) : List UInt8 :=
  m.trace.output.flatMap fun s => (s ++ "\n").toUTF8.toList

def clockSession (o : Options) (start : UInt64) (readings : List UInt64) : Outcome :=
  session o
    (do
      startClock start
      readings.forM fun now => discard (clockRound now))
    silent traceOutput

def respond (args : List String) (input : List UInt8) (start : UInt64) (readings : List UInt64) :
    Outcome :=
  match parse args with
  | .version => { stdout := versionText.toUTF8.toList }
  | .help => { stdout := usageText.toUTF8.toList }
  | .invalid => { exit := 2, stderr := usageText }
  | .run o (.echo _) => echoSession o input
  | .run o (.clock _) => clockSession o start readings

end ActorMachine.CommandLine
