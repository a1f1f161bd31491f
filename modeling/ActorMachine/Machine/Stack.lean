import ActorMachine.Machine.Basic

namespace ActorMachine.Machine

def thread : MachineM Word := return (← get).threads.head

def stack : MachineM Word := do Heap.fetch (← thread) .x

def setStack (sp : Word) : MachineM Unit := do Heap.store (← thread) .x sp

def push (v : Word) : MachineM Unit := do
  let sp ← stack
  let sp ← Heap.cons v sp
  setStack sp

def pushAll (vs : List Word) : MachineM Unit := vs.reverse.forM push

/-- Take the top item. An empty stack gives `#?` and a notice. -/
def pop : MachineM Word := do
  let sp ← stack
  if ← look (·.isPair sp) then
    let item ← look (·.car sp)
    setStack (← look (·.cdr sp))
    Heap.free sp
    return item
  else
    note (.stackUnderflow (← Heap.fetch (← thread) .t))
    return .undefined

def popN : Nat → MachineM (List Word)
  | 0 => return []
  | n + 1 => do return (← pop) :: (← popN n)

def popNumber (op : String) : MachineM Int := do
  let v ← pop
  match v.number? with
  | some n => return n
  | none => throw (.typeMismatch op "fixnum" v)

def depth : MachineM Nat := do
  let sp ← stack
  ask (·.listLength sp)

def stackCount (op : String) (n : Int) : MachineM Nat := do
  if n < 0 then throw (.invalidCount op n)
  if (← depth) < n.toNat then throw (.stackUnderflow op)
  return n.toNat

def clearStack : MachineM Unit := do
  let sp ← stack
  setStack .nil
  Heap.freeSpine sp

def setCdr (v y : Word) : MachineM Unit := do
  let n ← Heap.setCdr v y
  noteAll n.toList

def carve (op : String) (n : Int) : MachineM Word := do
  if n < 0 then throw (.invalidCount op n)
  if n = 0 then return .nil
  if (← depth) < n.toNat then throw (.stackUnderflow op)
  let top ← stack
  let last ← look fun h => Nat.repeat h.cdr (n.toNat - 1) top
  setStack (← look (·.cdr last))
  setCdr last .nil
  return top

def dropItems (n : Int) : MachineM Unit := do
  let d ← depth
  let _ ← popN (min n.toNat d)
  if d < n.toNat then discard pop

def pick (n : Int) : MachineM Unit := do
  if 0 < n then
    let sp ← stack
    push (← look (·.nth sp n))
  else push .undefined

def dup (n : Int) : MachineM Unit := do
  if (← depth) < n.toNat then throw (.stackUnderflow "dup")
  let sp ← stack
  pushAll (← look (·.firstItems n.toNat sp))

/-- Bring item number `n` to the top, or for a negative number sink the top item to that place.
Beyond the bottom there is only `#?`, and what sinks there is lost. -/
def roll (n : Int) : MachineM Unit := do
  let d ← depth
  let m := n.natAbs
  if 1 < m then
    if d < m then
      if 0 < n then push .undefined else discard pop
    else
      let sp ← stack
      if 0 < n then
        let before ← look fun h => Nat.repeat h.cdr (m - 2) sp
        let moved ← look (·.cdr before)
        setCdr before (← look (·.cdr moved))
        setCdr moved sp
        setStack moved
      else
        let after ← look fun h => Nat.repeat h.cdr (m - 1) sp
        setStack (← look (·.cdr sp))
        setCdr sp (← look (·.cdr after))
        setCdr after sp

end ActorMachine.Machine
