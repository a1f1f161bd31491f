import ActorMachine.Heap.Basic

namespace ActorMachine

structure Turn (γ : Type) where
  collector : γ
  heap : Heap
  notices : List Notice := []

def Turn.note (t : Turn γ) (n : Notice) : Turn γ := { t with notices := t.notices ++ [n] }

end ActorMachine
