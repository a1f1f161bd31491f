import ActorMachine.Machine.Basic

namespace ActorMachine

def recordText (name : String) (fields : List (String × String)) : String :=
  name ++ " \x7b " ++ ", ".intercalate (fields.map fun f => f.1 ++ ": " ++ f.2) ++ " \x7d"

def Queue.summary (q : Queue) : String :=
  recordText "Fifo" [("head", q.head.text), ("tail", q.tail.text)]

def Stats.summary (s : Stats) : String :=
  recordText "Stats"
    [("dispatched", toString s.dispatched), ("requeued", toString s.requeued),
      ("dropped", toString s.dropped), ("instructions", toString s.instructions),
      ("commits", toString s.commits), ("aborts", toString s.aborts),
      ("releases", toString s.releases), ("stops", toString s.stops),
      ("clock_events", toString s.clockEvents), ("gc_cycles", toString s.collections)]

def Phase.text : Phase → String
  | flip => "Flip"
  | roots => "Roots"
  | scan => "Scan"
  | sweep => "Sweep"

def Incremental.summary (gc : Incremental) : String :=
  recordText "Incremental"
    [("phase", gc.phase.text), ("index", toString gc.index), ("cursor", toString gc.cursor),
      ("stride", toString gc.stride), ("cycles", toString gc.cycles),
      ("completed", toString gc.completed)]

def MarkSweep.markWords (gc : MarkSweep) : List Nat :=
  (List.range (gc.marks.size / 64)).map fun w =>
    (List.range 64).foldr (fun i n => 2 * n + (gc.marks.getD (64 * w + i) false).toNat) 0

def MarkSweep.summary (gc : MarkSweep) : String :=
  recordText "MarkSweep"
    [("bits", "[" ++ ", ".intercalate (gc.markWords.map fun n => toString n) ++ "]"),
      ("top_margin", toString gc.topMargin), ("low_water", toString gc.lowWater),
      ("critical", toString gc.critical), ("automatic", toString gc.automatic),
      ("cycles", toString gc.cycles)]

def Collector.summary : Collector → String
  | markSweep gc => gc.summary
  | incremental gc => gc.summary

def Machine.summary (m : Machine) : String :=
  recordText "Vm"
    [("top", toString m.heap.top), ("free", toString m.heap.freeCount),
      ("events", "EventQueue(" ++ m.events.summary ++ ")"), ("conts", m.threads.summary),
      ("gc", m.collector.summary), ("stats", m.stats.summary)]

end ActorMachine
