import ActorMachine.Text.Utf8

namespace ActorMachine

inductive Console where
  | null
  | scripted (input : List UInt8) (output : Array UInt8)

namespace Console

def ofInput (input : List UInt8) : Console := scripted input #[]

def getc : Console → Option UInt8 × Console
  | scripted (b :: input) output => (some b, scripted input output)
  | c => (none, c)

def putc (b : UInt8) : Console → Console
  | scripted input output => scripted input (output.push b)
  | null => null

def output : Console → List UInt8
  | scripted _ output => output.toList
  | null => []

def outputText (c : Console) : String := Utf8.decode c.output

end Console

end ActorMachine
