import ActorMachine.Machine.Basic
import ActorMachine.Instruction.Basic

namespace ActorMachine.Assembler

/-- Lay out instructions in order and go on to `next` after the last one, unless it ends the
transaction. Gives the entry point. -/
def chain (code : List Instruction) (next : Word) : MachineM Word :=
  code.foldrM (fun i next => Heap.alloc (i.toCell (if i.isTerminal then .undefined else next))) next

def block (code : List Instruction) : MachineM Word :=
  match code.getLast? with
  | some last =>
    if last.isTerminal then chain code .undefined
    else throw (.assertion "block must finish with `end`")
  | none => throw (.assertion "block must finish with `end`")

def list (items : List Word) : MachineM Word := Heap.ofItems items

def string (s : String) : MachineM Word := Heap.ofText s

def actor (beh : Word) (state : List Word) : MachineM Word := do
  let state ← list state
  Machine.newActor beh state

structure Labels where
  entries : List (String × Word) := []

namespace Labels

def insert (name : String) (v : Word) : List (String × Word) → List (String × Word)
  | [] => [(name, v)]
  | e :: rest =>
    if name < e.1 then (name, v) :: e :: rest
    else if name = e.1 then (name, v) :: rest
    else e :: insert name v rest

def define (labels : Labels) (name : String) (v : Word) : Labels := ⟨insert name v labels.entries⟩

def find? (labels : Labels) (name : String) : Option Word := labels.entries.lookup name

theorem lookup_insert_self (name : String) (v : Word) (es : List (String × Word)) :
    (insert name v es).lookup name = some v := by
  induction es with
  | nil => exact List.lookup_cons_self
  | cons e rest ih =>
    obtain ⟨key, w⟩ := e
    simp only [insert]
    split
    · exact List.lookup_cons_self
    · split
      · exact List.lookup_cons_self
      · next hne => simp only [List.lookup_cons, beq_false_of_ne hne, ih]

theorem lookup_insert_ne {name other : String} (v : Word) (h : other ≠ name)
    (es : List (String × Word)) : (insert name v es).lookup other = es.lookup other := by
  induction es with
  | nil => simp only [insert, List.lookup_cons, beq_false_of_ne h]
  | cons e rest ih =>
    obtain ⟨key, w⟩ := e
    simp only [insert]
    split
    · simp only [List.lookup_cons, beq_false_of_ne h]
    · split
      · next he =>
        subst he
        simp only [List.lookup_cons, beq_false_of_ne h]
      · simp only [List.lookup_cons, ih]

@[simp] theorem find?_define_self (labels : Labels) (name : String) (v : Word) :
    (labels.define name v).find? name = some v :=
  lookup_insert_self name v labels.entries

theorem find?_define_ne (labels : Labels) {name other : String} (v : Word) (h : other ≠ name) :
    (labels.define name v).find? other = labels.find? other :=
  lookup_insert_ne v h labels.entries

end Labels

end ActorMachine.Assembler
