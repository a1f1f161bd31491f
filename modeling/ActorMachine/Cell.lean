import ActorMachine.Word

namespace ActorMachine

inductive Field where
  | t | x | y | z
  deriving DecidableEq, Repr

structure Cell where
  t : Word
  x : Word
  y : Word
  z : Word
  deriving DecidableEq, Repr

namespace Cell

def blank : Cell := ⟨.undefined, .undefined, .undefined, .undefined⟩

instance : Inhabited Cell := ⟨blank⟩

def get (c : Cell) : Field → Word
  | .t => c.t
  | .x => c.x
  | .y => c.y
  | .z => c.z

def set (c : Cell) : Field → Word → Cell
  | .t, v => { c with t := v }
  | .x, v => { c with x := v }
  | .y, v => { c with y := v }
  | .z, v => { c with z := v }

def words (c : Cell) : List Word := [c.t, c.x, c.y, c.z]

@[simp] theorem get_set_self (c : Cell) (f : Field) (v : Word) : (c.set f v).get f = v := by
  cases f <;> rfl

theorem get_set_ne (c : Cell) {f g : Field} (v : Word) (h : g ≠ f) :
    (c.set f v).get g = c.get g := by
  cases f <;> cases g <;> simp_all [set, get]

/-- What a new heap holds at an index: type markers are cells of type `Type_T`, literals and unused
cells are blank. -/
def initial (i : Nat) : Cell :=
  if Word.typeT.index ≤ i ∧ i < Word.reserved then { blank with t := .typeT } else blank

end Cell

/-- The index of the collectable cell that a word addresses, if it addresses one: a cell above the
reserved ones, below `top`, and not free. -/
def collectable? (cells : Array Cell) (top : Nat) : Word → Option Nat
  | .fixnum _ => none
  | .ref i | .cap i =>
    if Word.reserved ≤ i ∧ i < top ∧ (cells.getD i .blank).t ≠ .freeT then some i else none

end ActorMachine
