import ActorMachine.Collector.Turn
import ActorMachine.Config
/-! The incremental collector. It goes round four phases, a bounded amount of work at a time: swap
the generations and shade the direct roots; shade the symbols and the permanent cells; scan what was
marked for scanning until nothing is left; reclaim what still has the label of the previous
generation. In between, the heap shades whatever is stored or allocated. -/

namespace ActorMachine

inductive Phase where
  | flip | roots | scan | sweep
  deriving DecidableEq, Repr

structure Incremental where
  phase : Phase
  /-- Symbols and permanent cells shaded so far in this cycle. -/
  index : Nat
  /-- Where the last search through the heap ended. -/
  cursor : Nat
  stride : Nat
  cycles : Nat
  completed : Nat
  deriving DecidableEq, Repr

namespace Incremental

def ofConfig (c : Config) : Incremental where
  phase := .flip
  index := 0
  cursor := Word.reserved
  stride := c.stride
  cycles := 0
  completed := 0

/-- The word that comes at an index among the symbols and then the permanent cells. -/
def later? (roots : Roots) (h : Heap) (i : Nat) : Option Word :=
  match roots.symbols[i]? with
  | some v => some v
  | none =>
    if i < roots.symbols.size + (h.permanent - Word.reserved) then
      some (.ref (Word.reserved + i - roots.symbols.size))
    else none

def flip (roots : Roots) (t : Turn Incremental) : Turn Incremental :=
  match t.heap.colors with
  | none => t
  | some m =>
    { t with
      heap := roots.direct.foldl Heap.shade { t.heap with colors := some m.flip }
      collector :=
        { t.collector with cycles := t.collector.cycles + 1, phase := .roots, index := 0 } }

def shadeRoots (roots : Roots) : Nat → Turn Incremental → Turn Incremental
  | 0, t => t
  | n + 1, t =>
    match later? roots t.heap t.collector.index with
    | some v =>
      shadeRoots roots n
        { t with
          heap := t.heap.shade v
          collector := { t.collector with index := t.collector.index + 1 } }
    | none => { t with collector := { t.collector with phase := .scan, cursor := Word.reserved } }

def scan : Nat → Turn Incremental → Turn Incremental
  | 0, t => t
  | n + 1, t =>
    match t.heap.colors with
    | none => t
    | some m =>
      match m.find .scan Word.reserved t.heap.top t.collector.cursor with
      | some i =>
        scan n
          { t with heap := t.heap.shade (.ref i), collector := { t.collector with cursor := i } }
      | none =>
        { t with collector := { t.collector with phase := .sweep, cursor := t.heap.permanent } }

def sweep : Nat → Turn Incremental → Turn Incremental
  | 0, t => t
  | n + 1, t =>
    let found := t.heap.colors.bind fun m =>
      m.find m.prev t.heap.permanent t.heap.top t.collector.cursor
    match found with
    | some i =>
      sweep n { t with heap := t.heap.reclaim i, collector := { t.collector with cursor := i } }
    | none =>
      let gc := { t.collector with completed := t.collector.completed + 1, phase := .flip }
      { t with collector := gc }.note (.cycleComplete gc.cycles t.heap.freeCount)

def step (roots : Roots) (t : Turn Incremental) : Turn Incremental :=
  match t.collector.phase with
  | .flip => flip roots t
  | .roots => if t.heap.colors.isSome then shadeRoots roots t.collector.stride t else t
  | .scan => scan t.collector.stride t
  | .sweep => sweep t.collector.stride t

def report (h : Heap) : Report where
  top := h.top
  marked := Word.reserved +
    match h.colors with
    | some m =>
      (List.range' Word.reserved (h.top - Word.reserved)).countP fun i => m.color i = m.next
    | none => 0
  free := h.freeCount

def stepUntil (roots : Roots) (goal : Nat) (b : Budget) (t : Turn Incremental) :
    Except Fault Report × Turn Incremental :=
  if t.collector.completed < goal then
    match _hb : b.spend with
    | .error e => (.error e, t)
    | .ok b => stepUntil roots goal b (step roots t)
  else (.ok (report t.heap), t)
termination_by b.left
decreasing_by exact Budget.left_lt ‹_›

/-- Finish the cycle in progress, then run a complete one. -/
def collect (gc : Incremental) (roots : Roots) (h : Heap) :
    Except Fault Report × Turn Incremental :=
  let goal := gc.completed + if gc.phase = .flip then 1 else 2
  stepUntil roots goal ⟨h.capacity * 8 + 1024, "incremental collect"⟩
    { collector := gc, heap := h.enableColors }

end Incremental

end ActorMachine
