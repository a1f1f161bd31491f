import ActorMachine.Color
import ActorMachine.Notice

namespace ActorMachine

structure Heap where
  cells : Array Cell
  /-- One past the highest cell ever handed out. -/
  top : Nat
  freeHead : Word
  freeCount : Nat
  /-- Cells below this index are never freed. -/
  permanent : Nat
  /-- What one traversal may spend. -/
  sanity : Nat
  colors : Option ColorMap
  deriving Inhabited

/-- An action on a heap. A failed action keeps what it has changed so far. -/
abbrev HeapM := EStateM Fault Heap

namespace Heap

def new (capacity : Nat) : Heap where
  cells := (Array.range (max capacity (Word.reserved + 1))).map Cell.initial
  top := Word.reserved
  freeHead := .nil
  freeCount := 0
  permanent := Word.reserved
  sanity := max capacity (Word.reserved + 1)
  colors := none

def withSanity (h : Heap) (sanity : Nat) : Heap := { h with sanity }

def capacity (h : Heap) : Nat := h.cells.size

def unallocated (h : Heap) : Nat := h.capacity - h.top

def inUse (h : Heap) : Nat := h.top - h.freeCount

abbrev budget (h : Heap) (task : String) : Budget := ⟨h.sanity, task⟩

def cellAt (h : Heap) (i : Nat) : Cell := h.cells.getD i .blank

def putCell (h : Heap) (i : Nat) (c : Cell) : Heap :=
  { h with cells := h.cells.setIfInBounds i c }

@[simp] theorem capacity_putCell (h : Heap) (i : Nat) (c : Cell) :
    (h.putCell i c).capacity = h.capacity := by
  simp only [putCell, capacity, Array.size_setIfInBounds]

theorem cellAt_putCell_self (h : Heap) {i : Nat} (c : Cell) (hi : i < h.capacity) :
    (h.putCell i c).cellAt i = c := by
  unfold capacity at hi
  simp [putCell, cellAt, Array.getD_eq_getD_getElem?, hi]

theorem cellAt_putCell_ne (h : Heap) {i j : Nat} (c : Cell) (hij : i ≠ j) :
    (h.putCell i c).cellAt j = h.cellAt j := by
  simp [putCell, cellAt, Array.getD_eq_getD_getElem?, Array.getElem?_setIfInBounds_ne hij]

def query (f : Heap → Except Fault α) : HeapM α := fun h =>
  match f h with
  | .ok a => .ok a h
  | .error e => .error e h

/-- A plain reference below `top`, reserved cells included. -/
def isCell (h : Heap) : Word → Bool
  | .ref i => i < h.top
  | _ => false

/-- A reference or capability to a cell that was handed out. -/
def inHeap (h : Heap) (v : Word) : Bool :=
  !v.isFixnum && Word.reserved ≤ v.index && v.index < h.top

def isPermanent (h : Heap) (v : Word) : Bool := !v.isFixnum && v.index < h.permanent

def hasType (h : Heap) (t v : Word) : Bool := h.isCell v && (h.cellAt v.index).t = t

def isFree (h : Heap) : Word → Bool := h.hasType .freeT
def isPair (h : Heap) : Word → Bool := h.hasType .pairT
def isEvent (h : Heap) : Word → Bool := h.hasType .eventT
def isCode (h : Heap) : Word → Bool := h.hasType .instrT
def isSymbol (h : Heap) : Word → Bool := h.hasType .symbolT

def isActor (h : Heap) (v : Word) : Bool := v.isCap && h.hasType .actorT v.toRef

def cell (h : Heap) (v : Word) : Except Fault Cell :=
  if h.isCell v then .ok (h.cellAt v.index) else .error (.invalidRef v)

def field (h : Heap) (v : Word) (f : Field) : Except Fault Word :=
  (fun c => c.get f) <$> h.cell v

def enableColors (h : Heap) : Heap :=
  match h.colors with
  | some _ => h
  | none => { h with colors := some (.ofCells h.cells h.top) }

def shade (h : Heap) (v : Word) : Heap :=
  match h.colors with
  | some m => { h with colors := some (m.markLive h.cells h.top v) }
  | none => h

def fetch (v : Word) (f : Field) : HeapM Word := query fun h => h.field v f

def store (v : Word) (f : Field) (value : Word) : HeapM Unit := fun h =>
  if h.isCell v then
    .ok () ((h.putCell v.index ((h.cellAt v.index).set f value)).shade value)
  else .error (.invalidRef v) h

def alloc (c : Cell) : HeapM Word := fun h =>
  if h.freeHead ≠ .nil then
    let v := h.freeHead
    let next := (h.cellAt v.index).z
    .ok v ((({ h with freeHead := next, freeCount := h.freeCount - 1 } : Heap).putCell
      v.index c).shade v)
  else if h.top < h.capacity then
    let v := .ref h.top
    .ok v ((({ h with top := h.top + 1 } : Heap).putCell v.index c).shade v)
  else .error (.heapExhausted h.capacity) h

def reclaim (h : Heap) (i : Nat) : Heap :=
  { h with
    cells := h.cells.setIfInBounds i ⟨.freeT, .undefined, .undefined, h.freeHead⟩
    freeHead := .ref i
    freeCount := h.freeCount + 1
    colors := h.colors.map fun m => m.paint i .free }

def free (v : Word) : HeapM Unit := fun h =>
  if v.index < h.permanent ∨ h.top ≤ v.index then .error (.invalidRef v.toRef) h
  else if (h.cellAt v.index).t = .freeT then .error (.doubleFree v.toRef) h
  else .ok () (h.reclaim v.index)

def clearFreeList (h : Heap) : Heap := { h with freeHead := .nil, freeCount := 0 }

/-- Walk the free list from `p` on and link its cells at or above the boundary in front of `kept`,
the last one first. Gives the head of the new list and its length. Cells are relinked as the walk
goes, so one that runs away has already relinked those it met. -/
def sift (boundary : Nat) (b : Budget) (p kept : Word) (count : Nat) : HeapM (Word × Nat) :=
  if p = .nil then return (kept, count)
  else match _hb : b.spend with
    | .error e => throw e
    | .ok b => do
      let c := (← get).cellAt p.index
      if boundary ≤ p.index then
        modify fun h => h.putCell p.index (c.set .z kept)
        sift boundary b c.z p (count + 1)
      else sift boundary b c.z kept count
termination_by b.left
decreasing_by all_goals exact Budget.left_lt ‹_›

/-- Make every cell handed out so far permanent. Free cells below the new boundary are never handed
out again. -/
def sealCells : HeapM Notice := do
  let h ← get
  let (freeHead, freeCount) ← sift h.top (h.budget "seal") h.freeHead .nil 0
  modify fun h => { h with freeHead, freeCount, permanent := h.top }
  return .imageSealed h.top

def freeListLength (h : Heap) : Except Fault Nat :=
  go (h.budget "free list walk") h.freeHead
where
  go (b : Budget) (p : Word) : Except Fault Nat :=
    if p = .nil then .ok 0
    else match _hb : b.spend with
      | .error e => .error e
      | .ok b => do
        let c ← h.cell p
        if c.t = .freeT then return (← go b c.z) + 1
        else throw (.assertion "free list links a live cell")
  termination_by b.left
  decreasing_by exact Budget.left_lt ‹_›

def freeListContains (h : Heap) (v : Word) : Except Fault Bool :=
  go (h.budget "free list walk") h.freeHead
where
  go (b : Budget) (p : Word) : Except Fault Bool :=
    if p = .nil then .ok false
    else match _hb : b.spend with
      | .error e => .error e
      | .ok b => do
        if p = v.toRef then return true
        go b (← h.cell p).z
  termination_by b.left
  decreasing_by exact Budget.left_lt ‹_›

end Heap

end ActorMachine
