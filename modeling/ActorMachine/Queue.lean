import ActorMachine.Heap.Basic

namespace ActorMachine

structure Queue where
  head : Word
  tail : Word
  deriving DecidableEq, Repr

namespace Queue

def empty : Queue := ⟨.nil, .nil⟩

def isEmpty (q : Queue) : Bool := q.head = .nil

def put (q : Queue) (cell : Word) : HeapM Queue := do
  Heap.store cell .z .nil
  if !q.isEmpty then Heap.store q.tail .z cell
  modify fun h => h.shade cell
  return ⟨if q.isEmpty then cell else q.head, cell⟩

def putEvent (q : Queue) (event : Word) : HeapM Queue := do
  if !(← get).isEvent event then throw (.assertion "event queue accepts only events")
  let target ← Heap.fetch event .x
  if !(← get).isActor target then throw (.assertion "event target must be an actor")
  q.put event

def pop (q : Queue) : HeapM (Option Word × Queue) := do
  if q.isEmpty then return (none, q)
  let head ← Heap.fetch q.head .z
  Heap.store q.head .z .nil
  return (some q.head, ⟨head, if head = .nil then .nil else q.tail⟩)

def toList (q : Queue) (h : Heap) : Except Fault (List Word) :=
  go (h.budget "queue walk") q.head
where
  go (b : Budget) (p : Word) : Except Fault (List Word) :=
    if p = .nil then .ok []
    else match _hb : b.spend with
      | .error e => .error e
      | .ok b => do return p :: (← go b (← h.field p .z))
  termination_by b.left
  decreasing_by exact Budget.left_lt ‹_›

end Queue

end ActorMachine
