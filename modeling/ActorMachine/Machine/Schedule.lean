import ActorMachine.Machine.Operation
/-! The loop of the machine. In each round the clock may send an event, one event may open a
transaction, and the first thread performs one instruction and goes to the end of the line. The
machine rests when there is no thread left. -/

namespace ActorMachine.Machine

inductive Dispatch where
  | idle
  /-- Its target has a transaction open; it went to the end of the line. -/
  | busy (event : Word)
  | dropped (event : Word)
  | spawned (thread : Word)

inductive Step where
  | noThreads
  | continued
  | retired (e : Ending)

def interrupt : MachineM Bool := do
  match (← get).clock with
  | none => return false
  | some clock =>
    match clock.poll with
    | (none, _) => return false
    | (some seconds, clock) =>
      modify fun m => { m with clock := some clock }
      if ← look (·.isActor clock.handler) then
        let event ← Heap.alloc ⟨.eventT, clock.handler, .fix seconds.toNat, .nil⟩
        putEvent event
        count fun s => { s with clockEvents := s.clockEvents + 1 }
        note (.clockEvent seconds.toNat)
      return true

def copyList (v : Word) : MachineM Word := do
  let items ← ask (·.items v)
  Heap.ofItems items

def spawn (event actor : Word) : MachineM Dispatch := do
  let ip ← Heap.fetch actor .x
  if !(← look (·.isCode ip)) then throw (.assertion "actor behavior is not code")
  let state ← Heap.fetch actor .y
  Heap.store actor .z .nil
  let sp ← copyList state
  let thread ← Heap.alloc ⟨ip, sp, event, .nil⟩
  putThread thread
  count fun s => { s with dispatched := s.dispatched + 1 }
  noteDispatch (.spawned thread ip event)
  return .spawned thread

def dispatch : MachineM Dispatch := do
  match ← popEvent with
  | none => return .idle
  | some event =>
    let target ← Heap.fetch event .x
    if !(← look (·.isActor target)) then
      note (.droppedEvent event target)
      Heap.free event
      count fun s => { s with dropped := s.dropped + 1 }
      return .dropped event
    else if (← Heap.fetch target.toRef .z) ≠ .undefined then
      noteDispatch (.busy event target)
      putEvent event
      count fun s => { s with requeued := s.requeued + 1 }
      return .busy event
    else spawn event target.toRef

def performAt (ip : Word) : MachineM Flow := do
  let (i, next) ← ask (·.instruction ip)
  match ← perform i next with
  | .next ip =>
    if !(← look (·.isCode ip)) then throw (.notCode "next instruction" ip)
    return .next ip
  | .ended e => return .ended e

def attempt (act : MachineM α) : MachineM (Except Fault α) := fun m =>
  match act m with
  | .ok a m => .ok (.ok a) m
  | .error e m => .ok (.error e) m

def retire : MachineM Unit := do
  match ← popThread with
  | none => throw (.assertion "no continuation to retire")
  | some thread =>
    let event ← Heap.fetch thread .y
    Heap.free event
    Heap.free thread

def rotate : MachineM Unit := do
  if let some thread ← popThread then putThread thread

def nextAddress (thread : Word) : MachineM Word := do
  let ip ← Heap.fetch thread .t
  count fun s => { s with instructions := s.instructions + 1 }
  return ip

/-- Perform one instruction of the thread, which is the first one. A fault that is not fatal aborts
its transaction. -/
def advance (thread : Word) : MachineM Step := do
  let ip ← nextAddress thread
  match ← attempt (performAt ip) with
  | .ok (.next ip) =>
    Heap.store thread .t ip
    rotate
    return .continued
  | .ok (.ended e) =>
    retire
    return .retired e
  | .error fault =>
    if fault.isFatal then
      note (.fatalFault fault ip)
      throw fault
    note (.instructionFailed fault ip)
    abortTransaction
    retire
    return .retired .abort

/-- Advance the first thread. The collector may do a little before, and decide whether to collect
once the transaction has ended. -/
def execute : MachineM Step := do
  let thread ← thread
  if thread = .nil then return .noThreads
  collectorStep
  match ← advance thread with
  | .retired e =>
    safepoint
    return .retired e
  | step => return step

def dispatchNext (b : Budget) : MachineM Unit := do
  match ← dispatch with
  | .dropped _ =>
    match _hb : b.spend with
    | .error e => throw e
    | .ok b => dispatchNext b
  | _ => return
termination_by b.left
decreasing_by exact Budget.left_lt ‹_›

def prepare : MachineM Unit := do
  let _ ← interrupt
  dispatchNext (← look (·.budget "dispatch"))

def tick : MachineM Bool := do
  prepare
  match ← execute with
  | .noThreads => return false
  | _ => return true

def runFor : Nat → MachineM Bool
  | 0 => return false
  | n + 1 => do if ← tick then runFor n else return true

def run (fuel : Nat) : MachineM Stats := do
  let _ ← runFor fuel
  return (← get).statistics

end ActorMachine.Machine
