import ActorMachine.Instruction.Text
import ActorMachine.Machine.Stack
/-! Transactions. Dispatching an event opens one on its target: the actor's marker, its Z field,
goes from `#?` (idle) to `()` (busy, nothing sent yet). What the actor sends is linked into the
marker, newest first, and what it wants to become is kept on the event it handles. Nobody else sees
any of it until the transaction ends. -/

namespace ActorMachine

def Heap.eventChain (h : Heap) (b : Budget) (p : Word) : Except Fault (List Word) :=
  if h.isEvent p then
    match _hb : b.spend with
    | .error e => .error e
    | .ok b => do return p :: (← h.eventChain b (← h.field p .z))
  else .ok []
termination_by b.left
decreasing_by exact Budget.left_lt ‹_›

namespace Machine

def event : MachineM Word := do Heap.fetch (← thread) .y

def me : MachineM Word := do
  let target ← Heap.fetch (← event) .x
  if !(← look (·.isActor target)) then throw (.assertion "running continuation has no actor")
  return target.toRef

/-- Behaviour and state that the actor wanted to take on, which are unhooked from the event. -/
def takeBecome : MachineM (Option (Word × Word)) := do
  let event ← event
  let staged ← Heap.fetch event .z
  if ← look (·.isPair staged) then
    let beh ← look (·.car staged)
    let state ← look (·.cdr staged)
    Heap.store event .z .nil
    Heap.free staged
    return some (beh, state)
  else return none

def discardBecome : MachineM Unit := do
  match ← takeBecome with
  | some (_, state) => Heap.freeSpine state
  | none => return

def stageBecome (beh state : Word) : MachineM Unit := do
  discardBecome
  let staged ← Heap.cons beh state
  Heap.store (← event) .z staged

def pendingSends (actor : Word) : MachineM (List Word) := ask fun h => do
  return (← h.eventChain (h.budget "pending events") (← h.field actor .z)).reverse

/-- Put a sent event on its way. If its target is gone, drop it. -/
def deliver (event : Word) : MachineM Bool := do
  let target ← Heap.fetch event .x
  if ← look (·.isActor target) then
    putEvent event
    return true
  else
    note (.droppedSend event target)
    Heap.free event
    count fun s => { s with dropped := s.dropped + 1 }
    return false

def flushSends (actor : Word) : MachineM Nat := do
  let delivered ← (← pendingSends actor).mapM deliver
  return delivered.count true

def abortTransaction : MachineM Unit := do
  let me ← me
  discardBecome
  clearStack
  (← pendingSends me).forM fun e => Heap.free e
  Heap.store me .z .undefined
  count fun s => { s with aborts := s.aborts + 1 }

def stopTransaction (me : Word) : MachineM Unit := do
  discardBecome
  clearStack
  count fun s => { s with stops := s.stops + 1 }
  note (.stopped me.toCap)

def commitTransaction (me : Word) : MachineM Unit := do
  clearStack
  if let some (beh, state) ← takeBecome then
    Heap.store me .x beh
    Heap.store me .y state
  let sent ← flushSends me
  Heap.store me .z .undefined
  count fun s => { s with commits := s.commits + 1 }
  noteDispatch (.committed me.toCap sent)

def releaseActor (me : Word) : MachineM Unit := do
  discardBecome
  clearStack
  let sent ← flushSends me
  Heap.store me .y .nil
  if ← look (·.isPermanent me) then
    note (.permanentRelease me.toCap)
    Heap.store me .z .undefined
  else Heap.free me
  count fun s => { s with releases := s.releases + 1 }
  note (.released me.toCap sent)

def endTransaction (e : Ending) : MachineM Unit := do
  let me ← me
  match e with
  | .abort =>
    let reason ← pop
    note (.aborted me.toCap reason)
    abortTransaction
  | .stop => stopTransaction me
  | .commit => commitTransaction me
  | .release => releaseActor me

end Machine

end ActorMachine
