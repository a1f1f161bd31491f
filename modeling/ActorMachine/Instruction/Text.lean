import ActorMachine.Instruction.Basic
import ActorMachine.Notice

namespace ActorMachine

def Opcode.text : Opcode → String
  | .typeq => "Typeq"
  | .cell => "Cell"
  | .get => "Get"
  | .set => "Set"
  | .pair => "Pair"
  | .part => "Part"
  | .nth => "Nth"
  | .push => "Push"
  | .depth => "Depth"
  | .drop => "Drop"
  | .pick => "Pick"
  | .dup => "Dup"
  | .roll => "Roll"
  | .alu => "Alu"
  | .eq => "Eq"
  | .cmp => "Cmp"
  | .branch => "If"
  | .msg => "Msg"
  | .my => "My"
  | .send => "Send"
  | .new => "New"
  | .beh => "Beh"
  | .finish => "End"
  | .convert => "Cvt"
  | .putc => "Putc"
  | .getc => "Getc"
  | .debug => "Debug"

def Alu.text : Alu → String
  | .not => "Not"
  | .and => "And"
  | .or => "Or"
  | .xor => "Xor"
  | .add => "Add"
  | .sub => "Sub"
  | .mul => "Mul"

def Relation.text : Relation → String
  | .eq => "Eq"
  | .ge => "Ge"
  | .gt => "Gt"
  | .lt => "Lt"
  | .le => "Le"
  | .ne => "Ne"
  | .cls => "Cls"

def Own.text : Own → String
  | .self => "SelfCap"
  | .beh => "Beh"
  | .state => "State"

def Ending.text : Ending → String
  | .abort => "Abort"
  | .stop => "Stop"
  | .commit => "Commit"
  | .release => "Release"

def Conversion.text : Conversion → String
  | .listToNumber => "ListToNumber"
  | .listToSymbol => "ListToSymbol"

namespace Instruction

def operandText? : Instruction → Option String
  | typeq v | push v | eq v | branch v | debug v => some v.text
  | cell n | pair n | part n | nth n | drop n | pick n | dup n | roll n | msg n | send n | new n
  | beh n => some (toString n)
  | get f | set f => some f.text
  | alu op => some op.text
  | cmp r => some r.text
  | my o => some o.text
  | finish e => some e.text
  | convert c => some c.text
  | depth | putc | getc => none

def text (i : Instruction) : String :=
  match i.operandText? with
  | some s => i.opcode.text ++ "(" ++ s ++ ")"
  | none => i.opcode.text

end Instruction

end ActorMachine
