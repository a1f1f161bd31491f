
namespace ActorMachine.Checksum

def polynomial : UInt32 := 0x04c11db7

def shift (crc : UInt32) : UInt32 :=
  if crc &&& 0x80000000 ≠ 0 then (crc <<< 1) ^^^ polynomial else crc <<< 1

/-- The effect of eight shifts on a register that holds nothing but the byte at its top. -/
def entry (byte : Nat) : UInt32 := Nat.repeat shift 8 (UInt32.ofNat byte <<< 24)

def table : Vector UInt32 256 := Vector.ofFn fun i => entry i.val

def feed (crc : UInt32) (byte : UInt8) : UInt32 :=
  (crc <<< 8) ^^^ table.get (byte ^^^ (crc >>> 24).toUInt8).toFin

def lengthBytes (n : Nat) : List UInt8 :=
  if n = 0 then [] else UInt8.ofNat n :: lengthBytes (n / 256)
termination_by n
decreasing_by omega

def checksum (bytes : List UInt8) : UInt32 :=
  ~~~((bytes ++ lengthBytes bytes.length).foldl feed 0)

end ActorMachine.Checksum
