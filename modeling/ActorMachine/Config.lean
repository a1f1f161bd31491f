import ActorMachine.Word

namespace ActorMachine

/-- Who reclaims unreachable cells, and when. -/
inductive Strategy where
  | markSweep
  | incremental
  | manual
  deriving DecidableEq, Repr

inductive ConfigError where
  | heapTooSmall (capacity minimum : Nat)
  | unknownStrategy (name : String)
  | zero (setting : String)
  deriving DecidableEq, Repr

def ConfigError.message : ConfigError → String
  | heapTooSmall capacity minimum =>
    "heap capacity " ++ toString capacity ++ " is too small (minimum " ++ toString minimum ++ ")"
  | unknownStrategy name =>
    "unknown gc strategy `" ++ name ++ "` (expected mark-sweep, incremental or manual)"
  | zero setting => setting ++ " must be greater than zero"

namespace Strategy

def text : Strategy → String
  | markSweep => "mark-sweep"
  | incremental => "incremental"
  | manual => "manual"

def parse (s : String) : Except ConfigError Strategy :=
  if s ∈ ["mark-sweep", "marksweep", "ms"] then .ok markSweep
  else if s ∈ ["incremental", "inc"] then .ok incremental
  else if s ∈ ["manual", "off"] then .ok manual
  else .error (.unknownStrategy s)

end Strategy

structure Config where
  heapCapacity : Nat := 16384
  strategy : Strategy := .markSweep
  /-- No collection while more untouched cells than this remain. -/
  topMargin : Nat := 256
  /-- No collection while more free cells than this remain. -/
  lowWater : Nat := 64
  /-- A collection that leaves fewer free cells is repeated, with a map of the memory. -/
  critical : Nat := 128
  stride : Nat := 16
  /-- What a traversal may spend; zero stands for the size of the heap. -/
  sanity : Nat := 0
  traceDispatch : Bool := false
  deriving DecidableEq, Repr

namespace Config

def minHeap : Nat := Word.reserved + 64

def effectiveSanity (c : Config) : Nat := if c.sanity = 0 then c.heapCapacity else c.sanity

def validate (c : Config) : Except ConfigError Unit :=
  if c.heapCapacity < minHeap then .error (.heapTooSmall c.heapCapacity minHeap)
  else if c.stride = 0 then .error (.zero "gc_stride")
  else .ok ()

end Config

end ActorMachine
