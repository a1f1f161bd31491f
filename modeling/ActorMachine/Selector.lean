import ActorMachine.Fault

namespace ActorMachine

/-- A closed set of choices. Each has a number, and a table of its own says which choice a number
reads as. -/
class Selector (α : Type) where
  number : α → Int
  ofNumber? : Int → Option α

namespace Selector

variable {α : Type} [Selector α]

def word (a : α) : Word := .fix (number a)

def ofWord? (v : Word) : Option α := v.number?.bind ofNumber?

def read (op : String) (v : Word) : Except Fault α :=
  match ofWord? v with
  | some a => .ok a
  | none => .error (.unknownSelector op v)

end Selector

end ActorMachine
