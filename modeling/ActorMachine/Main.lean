import ActorMachine.CommandLine
import Std.Time.DateTime.Timestamp

namespace ActorMachine

def currentMillis : IO UInt64 := do
  let now ← Std.Time.Timestamp.now
  return .ofInt now.toMillisecondsSinceUnixEpoch.toInt

def writeBytes (bytes : List UInt8) : IO Unit := do
  let out ← IO.getStdout
  out.write ⟨bytes.toArray⟩
  out.flush

def deliverOutcome (o : CommandLine.Outcome) : IO UInt32 := do
  writeBytes o.stdout
  IO.eprint o.stderr
  return o.exit.toUInt32

def interactiveLoop (m : Machine) : IO (EStateM.Result Fault Machine Unit) := do
  let stdin ← IO.getStdin
  let mut m := m
  repeat
    let line ← stdin.getLine
    let bytes :=
      if line.isEmpty then [UInt8.ofInt Program.endOfTransmission] else line.toUTF8.toList
    match CommandLine.feedInteractive bytes m with
    | .ok finished next =>
      writeBytes next.console.output
      m := next
      if finished then break
    | .error e next =>
      writeBytes next.console.output
      return .error e next
  return .ok () m

def clockLoop (seconds : Nat) (m : Machine) : IO (EStateM.Result Fault Machine Unit) := do
  let deadline := (← IO.monoMsNow) + 1000 * seconds
  let mut m := m
  while (← IO.monoMsNow) < deadline do
    match CommandLine.clockRound (← currentMillis) m with
    | .ok busy next =>
      m := next
      if !busy then IO.sleep 10
    | .error e next => return .error e next
  return .ok () m

def liveSession (o : CommandLine.Options) (start : MachineM Unit)
    (live : Machine → IO (EStateM.Result Fault Machine Unit)) (shown : Machine → List UInt8) :
    IO UInt32 := do
  match Machine.new o.config with
  | .error e => deliverOutcome (CommandLine.failure e.message [])
  | .ok m =>
    let result ← match start m with
      | .ok _ m => live m
      | r => pure r
    deliverOutcome (CommandLine.conclude o CommandLine.silent shown result)

end ActorMachine

open ActorMachine in
def main (args : List String) : IO UInt32 := do
  match CommandLine.parse args with
  | .run o (.echo true) =>
    liveSession o CommandLine.startInteractive interactiveLoop CommandLine.silent
  | .run o (.clock seconds) =>
    liveSession o (CommandLine.startClock (← currentMillis)) (clockLoop seconds)
      CommandLine.traceOutput
  | .run _ (.echo false) =>
    let input ← (← IO.getStdin).readBinToEnd
    deliverOutcome (CommandLine.respond args input.toList 0 [])
  | _ => deliverOutcome (CommandLine.respond args [] 0 [])
