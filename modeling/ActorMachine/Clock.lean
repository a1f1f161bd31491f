import ActorMachine.Word

namespace ActorMachine

structure Clock where
  now : UInt64
  handler : Word
  /-- When the next signal is due. -/
  deadline : UInt64

namespace Clock

def period : UInt64 := 1000

def start (now : UInt64) (handler : Word) : Clock := ⟨now, handler, now⟩

def set (c : Clock) (now : UInt64) : Clock := { c with now }

def advance (c : Clock) (ms : UInt64) : Clock := { c with now := c.now + ms }

def poll (c : Clock) : Option UInt64 × Clock :=
  if c.now < c.deadline then (none, c)
  else
    let missed := (c.now - c.deadline) / period
    (some (c.now / 1000), { c with deadline := c.deadline + (missed + 1) * period })

end Clock

end ActorMachine
