import ActorMachine.Cell
/-!
Colours of cells. A cell is labelled with one of two generations, marked for scanning, or free. The
labels swap roles with every collection, so that nothing has to be cleared in between.
-/

namespace ActorMachine

inductive Color where
  | genX | genY | scan | free
  deriving DecidableEq, Repr, Inhabited

structure ColorMap where
  marks : Array Color
  /-- Label of cells not yet proven live in this cycle. -/
  prev : Color
  /-- Label of cells proven live in this cycle. -/
  next : Color
  deriving DecidableEq, Repr

namespace ColorMap

def ofCells (cells : Array Cell) (top : Nat) : ColorMap where
  marks := cells.mapIdx fun i c => if i < top ∧ c.t ≠ .freeT then .genX else .free
  prev := .genY
  next := .genX

def color (m : ColorMap) (i : Nat) : Color := m.marks.getD i .free

def paint (m : ColorMap) (i : Nat) (c : Color) : ColorMap :=
  { m with marks := m.marks.setIfInBounds i c }

/-- Swap the generations: what was live has to be proven live again. -/
def flip (m : ColorMap) : ColorMap := { m with prev := m.next, next := m.prev }

def queueChild (cells : Array Cell) (top : Nat) (m : ColorMap) (v : Word) : ColorMap :=
  match collectable? cells top v with
  | some i => if m.color i = m.prev then m.paint i .scan else m
  | none => m

def markLive (cells : Array Cell) (top : Nat) (m : ColorMap) (v : Word) : ColorMap :=
  match collectable? cells top v with
  | some i => (cells.getD i .blank).words.foldl (queueChild cells top) (m.paint i m.next)
  | none => m

def findFrom (m : ColorMap) (c : Color) (lo span : Nat) : (steps offset : Nat) → Option Nat
  | 0, _ => none
  | n + 1, offset =>
    if m.color (lo + offset % span) = c then some (lo + offset % span)
    else m.findFrom c lo span n (offset + 1)

/-- First cell of the colour in `lo ≤ i < hi`, starting just after the cursor and going round
once. -/
def find (m : ColorMap) (c : Color) (lo hi cursor : Nat) : Option Nat :=
  if lo < hi then
    m.findFrom c lo (hi - lo) (hi - lo) (min (max cursor lo) (hi - 1) - lo + 1)
  else none

end ColorMap

end ActorMachine
