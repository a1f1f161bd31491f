import ActorMachine.Cell
import ActorMachine.Fault
import ActorMachine.Collector.Basic

namespace ActorMachine

inductive Level where
  | error | warn | info | debug
  deriving DecidableEq, Repr

namespace Level

def text : Level → String
  | error => "ERROR"
  | warn => "WARN"
  | info => "INFO"
  | debug => "DEBUG"

def rank : Level → Nat
  | error => 1
  | warn => 2
  | info => 3
  | debug => 4

end Level

def Field.text : Field → String
  | .t => "T"
  | .x => "X"
  | .y => "Y"
  | .z => "Z"

inductive Notice where
  | fatalFault (fault : Fault) (ip : Word)
  | instructionFailed (fault : Fault) (ip : Word)
  | stackUnderflow (ip : Word)
  | getFromNonCell (cell : Word) (field : Field)
  | setOnNonCell (cell : Word) (field : Field)
  | setCarOnNonPair (target : Word)
  | setCdrOnNonPair (target : Word)
  | droppedEvent (event target : Word)
  | droppedSend (event target : Word)
  | permanentRelease (actor : Word)
  | lowMemory (free : Nat)
  | trace (tag : Word) (value : String)
  | memoryMap (map : String)
  | created (capacity : Nat) (collector : String)
  | imageSealed (boundary : Nat)
  | clockEvent (seconds : Nat)
  | busy (event target : Word)
  | spawned (thread ip event : Word)
  | aborted (actor reason : Word)
  | stopped (actor : Word)
  | committed (actor : Word) (sent : Nat)
  | released (actor : Word) (sent : Nat)
  | safepoint (report : Report)
  | swept (report : Report) (cycle available : Nat)
  | cycleComplete (cycle free : Nat)

namespace Notice

def level : Notice → Level
  | fatalFault .. | instructionFailed .. => .error
  | stackUnderflow .. | getFromNonCell .. | setOnNonCell .. | setCarOnNonPair ..
  | setCdrOnNonPair .. | droppedEvent .. | droppedSend .. | permanentRelease ..
  | lowMemory .. => .warn
  | trace .. | memoryMap .. => .info
  | created .. | imageSealed .. | clockEvent .. | busy .. | spawned .. | aborted .. | stopped ..
  | committed .. | released .. | safepoint .. | swept .. | cycleComplete .. => .debug

def message : Notice → String
  | fatalFault .. => "fatal fault"
  | instructionFailed .. => "instruction failed, aborting transaction"
  | stackUnderflow .. => "stack underflow"
  | getFromNonCell .. => "get from a non-cell"
  | setOnNonCell .. => "set on a non-cell"
  | setCarOnNonPair .. => "set_car defined only for pairs"
  | setCdrOnNonPair .. => "set_cdr defined only for pairs"
  | droppedEvent .. => "dropping event for missing actor"
  | droppedSend .. => "dropping send to missing actor"
  | permanentRelease .. => "permanent actor cannot be released"
  | lowMemory .. => "low on cell memory"
  | trace tag value => "[" ++ tag.text ++ "] " ++ value
  | memoryMap map => "memory map\n" ++ map
  | created .. => "vm created"
  | imageSealed .. => "heap sealed"
  | clockEvent .. => "clock event"
  | busy .. => "dispatch busy"
  | spawned .. => "thread spawn"
  | aborted .. => "abort"
  | stopped .. => "stop"
  | committed .. => "commit"
  | released .. => "release"
  | safepoint .. => "safepoint collection"
  | swept report .. => report.text
  | cycleComplete .. => "incremental gc cycle complete"

def fields : Notice → List (String × String)
  | fatalFault fault ip => [("err", fault.message), ("ip", ip.text)]
  | instructionFailed fault ip => [("err", fault.message), ("ip", ip.text)]
  | stackUnderflow ip => [("ip", ip.text)]
  | getFromNonCell cell field => [("cell", cell.text), ("field", field.text)]
  | setOnNonCell cell field => [("cell", cell.text), ("field", field.text)]
  | setCarOnNonPair target => [("target_cell", target.text)]
  | setCdrOnNonPair target => [("target_cell", target.text)]
  | droppedEvent event target => [("event", event.text), ("target", target.text)]
  | droppedSend event target => [("event", event.text), ("target", target.text)]
  | permanentRelease actor => [("actor", actor.text)]
  | lowMemory free => [("free", toString free)]
  | trace .. | memoryMap .. => []
  | created capacity collector => [("capacity", toString capacity), ("gc", collector)]
  | imageSealed boundary => [("boundary", toString boundary)]
  | clockEvent seconds => [("seconds", toString seconds)]
  | busy event target => [("event", event.text), ("target", target.text)]
  | spawned thread ip event => [("cont", thread.text), ("ip", ip.text), ("event", event.text)]
  | aborted actor reason => [("actor", actor.text), ("reason", reason.text)]
  | stopped actor => [("actor", actor.text)]
  | committed actor sent => [("actor", actor.text), ("sent", toString sent)]
  | released actor sent => [("actor", actor.text), ("sent", toString sent)]
  | safepoint report => [("report", report.text)]
  | swept _ cycle available => [("cycle", toString cycle), ("available", toString available)]
  | cycleComplete cycle free => [("cycle", toString cycle), ("free", toString free)]

def line (n : Notice) : String :=
  n.fields.foldl (fun s f => s ++ " " ++ f.1 ++ "=" ++ f.2) (n.level.text ++ " " ++ n.message)

end Notice

end ActorMachine
