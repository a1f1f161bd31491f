import ActorMachine.Word

namespace ActorMachine

inductive Fault where
  | typeMismatch (op expected : String) (got : Word)
  | illegalOpcode (got : Word)
  | unknownSelector (op : String) (got : Word)
  | invalidCount (op : String) (count : Int)
  | stackUnderflow (op : String)
  | notAnActor (got : Word)
  | actorViaCell
  | notCode (op : String) (got : Word)
  | heapExhausted (capacity : Nat)
  | runaway (task : String)
  | invalidRef (got : Word)
  | doubleFree (got : Word)
  | assertion (what : String)
  deriving DecidableEq, Repr

namespace Fault

def message : Fault → String
  | typeMismatch op expected got => op ++ ": expected " ++ expected ++ ", got " ++ got.text
  | illegalOpcode got => "illegal instruction: opcode " ++ got.text
  | unknownSelector op got => op ++ ": unknown selector " ++ got.text
  | invalidCount op count => op ++ ": invalid count " ++ toString count
  | stackUnderflow op => op ++ ": stack underflow"
  | notAnActor got => "send requires an actor, got " ++ got.text
  | actorViaCell => "use `new` to create actors"
  | notCode op got => op ++ ": expected code, got " ++ got.text
  | heapExhausted capacity => "out of cell memory (" ++ toString capacity ++ " cells)"
  | runaway task => "run-away loop in " ++ task
  | invalidRef got => "invalid cell reference " ++ got.text
  | doubleFree got => "double free of " ++ got.text
  | assertion what => "assertion failed: " ++ what

def isFatal : Fault → Bool
  | heapExhausted _ | runaway _ | invalidRef _ | doubleFree _ | assertion _ => true
  | _ => false

end Fault

/-- What a traversal may still spend before it counts as a run-away loop. -/
structure Budget where
  left : Nat
  task : String
  deriving DecidableEq, Repr

def Budget.spend (b : Budget) : Except Fault Budget :=
  match b.left with
  | 0 => .error (.runaway b.task)
  | n + 1 => .ok { b with left := n }

namespace Budget

variable {b b' : Budget} {f : Fault}

theorem left_eq (hb : b.spend = .ok b') : b.left = b'.left + 1 := by
  obtain ⟨_ | n, task⟩ := b
  · cases hb
  · cases hb
    rfl

theorem left_lt (hb : b.spend = .ok b') : b'.left < b.left := by
  rw [left_eq hb]
  exact Nat.lt_succ_self _

theorem exhausted (hb : b.spend = .error f) : b.left = 0 ∧ f = .runaway b.task := by
  obtain ⟨_ | n, task⟩ := b
  · cases hb
    exact ⟨rfl, rfl⟩
  · cases hb

end Budget

end ActorMachine
