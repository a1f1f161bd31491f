import ActorMachine.Word

namespace ActorMachine

/-- Where reachability starts, permanent cells apart: the heads of the two queues, the symbol
buckets and the pinned words. -/
structure Roots where
  events : Word := .nil
  threads : Word := .nil
  symbols : Array Word := #[]
  pinned : Array Word := #[]

def Roots.direct (r : Roots) : List Word := r.events :: r.threads :: r.pinned.toList

structure Report where
  top : Nat
  marked : Nat
  free : Nat
  deriving DecidableEq, Repr

def Report.text (r : Report) : String :=
  "gc: top=" ++ toString r.top ++ " used=" ++ toString r.marked ++ " free=" ++ toString r.free

end ActorMachine
