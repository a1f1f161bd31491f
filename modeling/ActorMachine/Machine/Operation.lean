import ActorMachine.Heap.Printer
import ActorMachine.Machine.Transaction

namespace ActorMachine.Machine

inductive Flow where
  | next (ip : Word)
  | ended (e : Ending)

def typeTest (t : Word) : MachineM Unit := do
  let v ← pop
  let holds ←
    if t = .fixnumT then pure v.isFixnum
    else if t = .actorT then look (·.isActor v)
    else look (·.hasType t v)
  push (.ofBool holds)

/-- Actors are made by `new` alone, and free cells by nobody. -/
def checkType (op : String) (t : Word) : MachineM Unit := do
  if t = .actorT then throw .actorViaCell
  if t = .freeT then throw (.typeMismatch op "allocatable type" t)

def makeCell (n : Int) : MachineM Unit := do
  if n < 0 ∨ 4 < n then throw (.invalidCount "cell" n)
  let z ← if 3 < n then pop else pure .undefined
  let y ← if 2 < n then pop else pure .undefined
  let x ← if 1 < n then pop else pure .undefined
  let t ← pop
  checkType "cell" t
  let cell ← Heap.alloc ⟨t, x, y, z⟩
  push cell

def getField (f : Field) : MachineM Unit := do
  let cell ← pop
  if ← look (·.isCell cell) then push (← Heap.fetch cell f)
  else
    note (.getFromNonCell cell f)
    push .undefined

def setField (f : Field) : MachineM Unit := do
  let v ← pop
  let sp ← stack
  let cell ← look (·.car sp)
  if f = .t then checkType "set" v
  if ← look fun h => !h.inHeap cell || cell.isCap || h.isFree cell then
    note (.setOnNonCell cell f)
  else Heap.store cell f v

def makeList (n : Int) : MachineM Unit := do
  let n ← stackCount "pair" n
  let items ← popN n
  let tail ← pop
  let list ← Heap.prepend items tail
  push list

/-- Take a list apart: push its rest after `n` items, then the items, the first one last. -/
def splitList (n : Int) : MachineM Unit := do
  if n < 0 then throw (.invalidCount "part" n)
  let list ← pop
  let (items, rest) ← ask (·.splitItems n.toNat list)
  push rest
  pushAll items

def indexList (n : Int) : MachineM Unit := do
  let list ← pop
  push (← look (·.nth list n))

def arithmetic (op : Alu) : MachineM Unit := do
  let m ← if op = .not then pure 0 else popNumber "alu"
  let n ← popNumber "alu"
  push (.fix (op.apply (.ofInt n) (.ofInt m)).toInt)

def compare (r : Relation) : MachineM Unit := do
  match r with
  | .eq | .ne =>
    let m ← pop
    let n ← pop
    push (.ofBool ((n == m) == (r == .eq)))
  | _ =>
    let m ← popNumber "cmp"
    let n ← popNumber "cmp"
    push (.ofBool (r.holds n m))

def message (n : Int) : MachineM Unit := do
  let msg ← Heap.fetch (← event) .y
  push (← look (·.nth msg n))

def own (o : Own) : MachineM Unit := do
  let me ← me
  match o with
  | .self => push me.toCap
  | .beh => push (← Heap.fetch me .x)
  | .state => push (← Heap.fetch me .y)

def composeMessage (n : Int) : MachineM (Word × Word) := do
  let target ← pop
  if !(← look (·.isActor target)) then throw (.notAnActor target)
  let msg ←
    if n = 0 then pop
    else do
      let items ← popN (← stackCount "send" n)
      Heap.ofItems items
  return (target, msg)

/-- Send a message. The event is held back until the transaction ends. -/
def holdBack (target msg : Word) : MachineM Unit := do
  let me ← me
  let pending ← Heap.fetch me .z
  let event ← Heap.alloc ⟨.eventT, target, msg, pending⟩
  Heap.store me .z event

def popBehavior (op : String) : MachineM Word := do
  let beh ← pop
  if !(← look (·.isCode beh)) then throw (.notCode op beh)
  return beh

def createActor (n : Int) : MachineM Unit := do
  let beh ← popBehavior "new"
  let state ← carve "new" n
  let actor ← Heap.alloc ⟨.actorT, beh, state, .undefined⟩
  push actor.toCap

/-- Choose the behaviour and `n` items of state to go on with after a commit. -/
def become (n : Int) : MachineM Unit := do
  let beh ← popBehavior "beh"
  let state ← carve "beh" n
  stageBecome beh state

def convert (c : Conversion) : MachineM Unit := do
  let chars ← pop
  match c with
  | .listToNumber => push (← ask (·.parseFixnum chars))
  | .listToSymbol => push (← internList chars)

def writeByte : MachineM Unit := do
  let n ← popNumber "putc"
  modify fun m => { m with console := m.console.putc (.ofNat (n % 256).toNat) }

def readByte : MachineM Unit := do
  let (byte, console) := (← get).console.getc
  modify fun m => { m with console }
  match byte with
  | some b => push (.fix b.toNat)
  | none => push (.fix (-1))

def showValue (tag : Word) : MachineM Unit := do
  let v ← pop
  let text ← ask (·.render v)
  note (.trace tag text)
  modify fun m => { m with trace := m.trace.record tag text }

def perform (i : Instruction) (next : Word) : MachineM Flow := do
  match i with
  | .typeq t => typeTest t
  | .cell n => makeCell n
  | .get f => getField f
  | .set f => setField f
  | .pair n => makeList n
  | .part n => splitList n
  | .nth n => indexList n
  | .push v => push v
  | .depth => push (.fix (← depth))
  | .drop n => dropItems n
  | .pick n => pick n
  | .dup n => dup n
  | .roll n => roll n
  | .alu op => arithmetic op
  | .eq v => push (.ofBool ((← pop) == v))
  | .cmp r => compare r
  | .branch target =>
    let condition ← pop
    return .next (if condition.truthy then target else next)
  | .msg n => message n
  | .my o => own o
  | .send n =>
    let (target, msg) ← composeMessage n
    holdBack target msg
  | .new n => createActor n
  | .beh n => become n
  | .finish e =>
    endTransaction e
    return .ended e
  | .convert c => convert c
  | .putc => writeByte
  | .getc => readByte
  | .debug tag => showValue tag
  return .next next

end ActorMachine.Machine
