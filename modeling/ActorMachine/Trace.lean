import ActorMachine.Word

namespace ActorMachine

structure TraceLine where
  tag : Word
  value : String
  deriving DecidableEq, Repr

def TraceLine.text (l : TraceLine) : String := "[" ++ l.tag.text ++ "] " ++ l.value

structure Trace where
  lines : Array TraceLine := #[]

namespace Trace

def record (t : Trace) (tag : Word) (value : String) : Trace := ⟨t.lines.push ⟨tag, value⟩⟩

def clear (_ : Trace) : Trace := {}

def output (t : Trace) : List String := t.lines.toList.map TraceLine.text

def valuesFor (t : Trace) (tag : Word) : List String :=
  (t.lines.toList.filter fun l => l.tag = tag).map TraceLine.value

end Trace

end ActorMachine
