import ActorMachine.Collector.Incremental
import ActorMachine.Collector.MarkSweep

namespace ActorMachine

inductive Collector where
  | markSweep (gc : MarkSweep)
  | incremental (gc : Incremental)

namespace Collector

def ofConfig (c : Config) : Collector :=
  match c.strategy with
  | .markSweep => .markSweep (.ofConfig c true)
  | .manual => .markSweep (.ofConfig c false)
  | .incremental => .incremental (.ofConfig c)

def usesColors : Collector → Bool
  | markSweep _ => false
  | incremental _ => true

def name : Collector → String
  | markSweep gc => gc.name
  | incremental _ => "incremental"

def cycles : Collector → Nat
  | markSweep gc => gc.cycles
  | incremental gc => gc.cycles

def collect (roots : Roots) (h : Heap) : Collector → Except Fault Report × Turn Collector
  | markSweep gc =>
    let (r, t) := gc.collect roots h
    (.ok r, ⟨.markSweep t.collector, t.heap, t.notices⟩)
  | incremental gc =>
    let (r, t) := gc.collect roots h
    (r, ⟨.incremental t.collector, t.heap, t.notices⟩)

def safepoint (roots : Roots) (h : Heap) : Collector → Option Report × Turn Collector
  | markSweep gc =>
    let (r, t) := gc.safepoint roots h
    (r, ⟨.markSweep t.collector, t.heap, t.notices⟩)
  | incremental gc => (none, ⟨.incremental gc, h, []⟩)

def step (roots : Roots) (h : Heap) : Collector → Turn Collector
  | markSweep gc => ⟨.markSweep gc, h, []⟩
  | incremental gc =>
    let t := Incremental.step roots ⟨gc, h, []⟩
    ⟨.incremental t.collector, t.heap, t.notices⟩

end Collector

end ActorMachine
