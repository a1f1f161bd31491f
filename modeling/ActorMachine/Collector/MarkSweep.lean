import ActorMachine.Collector.Turn
import ActorMachine.Config
/-!
Mark and sweep: mark every cell that can be reached from the roots or from a permanent cell, then
reclaim all others, from the top down. The free list is built anew and runs upwards.
-/

namespace ActorMachine

structure MarkSweep where
  marks : Array Bool
  topMargin : Nat
  lowWater : Nat
  critical : Nat
  /-- Does it run by itself when memory gets tight? -/
  automatic : Bool
  cycles : Nat

namespace MarkSweep

def markCount (capacity : Nat) : Nat := (capacity + 63) / 64 * 64

def ofConfig (c : Config) (automatic : Bool) : MarkSweep where
  marks := Array.replicate (markCount c.heapCapacity) false
  topMargin := c.topMargin
  lowWater := c.lowWater
  critical := c.critical
  automatic := automatic
  cycles := 0

def name (gc : MarkSweep) : String := if gc.automatic then "mark-sweep" else "manual"

def clear (gc : MarkSweep) (h : Heap) : Array Bool :=
  let size := if gc.marks.size < h.capacity then markCount h.capacity else gc.marks.size
  (Array.range size).map fun i => i < Word.reserved

theorem count_set_lt {marks : Array Bool} {i : Nat} (hi : i < marks.size)
    (hf : marks[i] = false) : (marks.set i true).count false < marks.count false := by
  have hpos : 0 < marks.count false := Array.count_pos_iff.2 (hf ▸ Array.getElem_mem hi)
  rw [Array.count_set, hf]
  change marks.count false - 1 + 0 < marks.count false
  omega

def mark (h : Heap) (marks : Array Bool) : List Word → Array Bool
  | [] => marks
  | v :: work =>
    match collectable? h.cells h.top v with
    | none => mark h marks work
    | some i =>
      if hi : i < marks.size then
        if hf : marks[i] = false then
          let c := h.cellAt i
          mark h (marks.set i true) (c.y :: c.z :: c.x :: c.t :: work)
        else mark h marks work
      else mark h marks work
termination_by work => (marks.count false, work.length)
decreasing_by
  · exact Prod.Lex.right _ (Nat.lt_succ_self _)
  · exact Prod.Lex.left _ _ (count_set_lt hi hf)
  · exact Prod.Lex.right _ (Nat.lt_succ_self _)
  · exact Prod.Lex.right _ (Nat.lt_succ_self _)

def sources (roots : Roots) (h : Heap) : List Word :=
  roots.symbols.toList ++ roots.direct ++
    (List.range' Word.reserved (h.permanent - Word.reserved)).map .ref

def unmarked (marks : Array Bool) (h : Heap) : List Nat :=
  (List.range' h.permanent (h.top - h.permanent)).filter fun i => !marks.getD i false

def mapLetter (marks : Array Bool) (h : Heap) (i : Nat) : Char :=
  if !marks.getD i false then '.'
  else match (h.cellAt i).t with
    | .undefined => 'l'
    | .typeT => 't'
    | .eventT => 'E'
    | .instrT => 'i'
    | .actorT => 'A'
    | .symbolT => 'S'
    | .pairT => 'p'
    | .freeT => '?'
    | _ => 'K'

def memoryMap (gc : MarkSweep) (h : Heap) : String :=
  let letters := (List.range h.top).flatMap fun i =>
    if 0 < i ∧ i % 64 = 0 then ['\n', mapLetter gc.marks h i] else [mapLetter gc.marks h i]
  String.ofList letters ++ "\ntop=" ++ toString h.top ++ " free=" ++ toString h.freeCount

def markAndSweep (gc : MarkSweep) (roots : Roots) (dump : Bool) (h : Heap) :
    Report × Turn MarkSweep :=
  let h := h.clearFreeList
  let gc := { gc with marks := mark h (gc.clear h) (sources roots h), cycles := gc.cycles + 1 }
  let map := if dump then [Notice.memoryMap (gc.memoryMap h)] else []
  let dead := unmarked gc.marks h
  let h := dead.foldr (fun i h => h.reclaim i) h
  let report : Report := ⟨h.top, gc.marks.count true, h.freeCount⟩
  (report, ⟨gc, h, map ++ [.swept report gc.cycles dead.length]⟩)

def collect (gc : MarkSweep) (roots : Roots) (h : Heap) : Report × Turn MarkSweep :=
  gc.markAndSweep roots false h

/-- Collect if both the untouched and the free cells have run low. Should that not help enough,
collect once more and draw a map. -/
def safepoint (gc : MarkSweep) (roots : Roots) (h : Heap) : Option Report × Turn MarkSweep :=
  if !gc.automatic || gc.topMargin ≤ h.unallocated || gc.lowWater ≤ h.freeCount then
    (none, ⟨gc, h, []⟩)
  else
    let (report, first) := gc.collect roots h
    if first.heap.freeCount < gc.critical then
      let low := Notice.lowMemory first.heap.freeCount
      let (report, second) := first.collector.markAndSweep roots true first.heap
      (some report, { second with notices := first.notices ++ low :: second.notices })
    else (some report, first)

end MarkSweep

end ActorMachine
