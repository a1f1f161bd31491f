import ActorMachine.Clock
import ActorMachine.Collector
import ActorMachine.Console
import ActorMachine.Queue
import ActorMachine.Symbol
import ActorMachine.Trace

namespace ActorMachine

structure Stats where
  dispatched : Nat := 0
  requeued : Nat := 0
  dropped : Nat := 0
  instructions : Nat := 0
  commits : Nat := 0
  aborts : Nat := 0
  releases : Nat := 0
  stops : Nat := 0
  clockEvents : Nat := 0
  collections : Nat := 0
  deriving DecidableEq, Repr

structure Machine where
  config : Config
  heap : Heap
  events : Queue
  /-- Transactions under way; the first one runs. -/
  threads : Queue
  symbols : SymbolTable
  pinned : Array Word
  collector : Collector
  console : Console
  clock : Option Clock
  trace : Trace
  stats : Stats
  log : Array Notice

abbrev MachineM := EStateM Fault Machine

namespace Machine

def new (config : Config) : Except ConfigError Machine := do
  config.validate
  let heap := (Heap.new config.heapCapacity).withSanity config.effectiveSanity
  let collector := Collector.ofConfig config
  return {
    config, collector
    heap := if collector.usesColors then heap.enableColors else heap
    events := .empty
    threads := .empty
    symbols := .empty
    pinned := #[]
    console := .null
    clock := none
    trace := {}
    stats := {}
    log := #[.created config.heapCapacity collector.name] }

@[noinline] def lendHeap (m : Machine) : Machine := { m with heap := default }

def onHeap (act : HeapM α) : MachineM α := fun m =>
  let h := m.heap
  let m := m.lendHeap
  match act h with
  | .ok a h => .ok a { m with heap := h }
  | .error e h => .error e { m with heap := h }

instance : MonadLift HeapM MachineM := ⟨onHeap⟩

def onLexicon (act : LexiconM α) : MachineM α := fun m =>
  let lexicon : Lexicon := ⟨m.heap, m.symbols⟩
  let m := m.lendHeap
  match act lexicon with
  | .ok a l => .ok a { m with heap := l.heap, symbols := l.table }
  | .error e l => .error e { m with heap := l.heap, symbols := l.table }

def look (f : Heap → α) : MachineM α := fun m => .ok (f m.heap) m

def ask (f : Heap → Except Fault α) : MachineM α := Heap.query f

def note (n : Notice) : MachineM Unit := modify fun m => { m with log := m.log.push n }

def noteAll (ns : List Notice) : MachineM Unit :=
  modify fun m => { m with log := m.log ++ ns }

def noteDispatch (n : Notice) : MachineM Unit := do
  if (← get).config.traceDispatch then note n

def count (f : Stats → Stats) : MachineM Unit := modify fun m => { m with stats := f m.stats }

def takeLog (m : Machine) : List Notice × Machine := (m.log.toList, { m with log := #[] })

def putEvent (event : Word) : MachineM Unit := do
  let events ← (← get).events.putEvent event
  modify fun m => { m with events }

def popEvent : MachineM (Option Word) := do
  let (event, events) ← (← get).events.pop
  modify fun m => { m with events }
  return event

def putThread (thread : Word) : MachineM Unit := do
  let threads ← (← get).threads.put thread
  modify fun m => { m with threads }

def popThread : MachineM (Option Word) := do
  let (thread, threads) ← (← get).threads.pop
  modify fun m => { m with threads }
  return thread

def roots (m : Machine) : Roots where
  events := m.events.head
  threads := m.threads.head
  symbols := m.symbols.buckets.toArray
  pinned := m.pinned

def resume (m : Machine) (t : Turn Collector) : Machine :=
  { m with collector := t.collector, heap := t.heap, log := m.log ++ t.notices }

def collect : MachineM Report := fun m =>
  let h := m.heap
  let m := m.lendHeap
  match m.collector.collect m.roots h with
  | (.ok r, t) => .ok r (m.resume t)
  | (.error e, t) => .error e (m.resume t)

def collectorStep : MachineM Unit := fun m =>
  let h := m.heap
  let m := m.lendHeap
  .ok () (m.resume (m.collector.step m.roots h))

def safepoint : MachineM Unit := fun m =>
  let h := m.heap
  let m := m.lendHeap
  match m.collector.safepoint m.roots h with
  | (none, t) => .ok () (m.resume t)
  | (some r, t) => (note (.safepoint r)) (m.resume t)

def statistics (m : Machine) : Stats := { m.stats with collections := m.collector.cycles }

def isIdle (m : Machine) : Bool := m.events.isEmpty && m.threads.isEmpty

def pendingEvents (m : Machine) : Except Fault (List Word) := m.events.toList m.heap

def pendingThreads (m : Machine) : Except Fault (List Word) := m.threads.toList m.heap

def internList (chars : Word) : MachineM Word := onLexicon (Lexicon.intern chars)

def intern (name : String) : MachineM Word := onLexicon (Lexicon.internText name)

def pin (v : Word) : MachineM Unit :=
  modify fun m => { m with heap := m.heap.shade v, pinned := m.pinned.push v }

def sealImage : MachineM Unit := do
  let n ← Heap.sealCells
  note n

def newActor (beh state : Word) : MachineM Word := do
  if !(← look (·.isCode beh)) then throw (.notCode "new_actor" beh)
  if state ≠ .nil ∧ !(← look (·.isPair state)) then
    throw (.typeMismatch "new_actor" "state list" state)
  let actor ← Heap.alloc ⟨.actorT, beh, state, .undefined⟩
  return actor.toCap

def send (target message : Word) : MachineM Unit := do
  if !(← look (·.isActor target)) then throw (.notAnActor target)
  let event ← Heap.alloc ⟨.eventT, target, message, .nil⟩
  putEvent event

def attachClock (now : UInt64) (handler : Word) : MachineM Unit := do
  if !(← look (·.isActor handler)) then throw (.notAnActor handler)
  pin handler
  modify fun m => { m with clock := some (.start now handler) }

def onClock (f : Clock → Clock) : MachineM Unit :=
  modify fun m => { m with clock := m.clock.map f }

def setConsole (console : Console) : MachineM Unit := modify fun m => { m with console }

end Machine

end ActorMachine
