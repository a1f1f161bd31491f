import ActorMachine.Assembler

namespace ActorMachine.Program

def timeTag : Word := .fix 1

def countTag : Word := .fix 2

def counter : MachineM Word := do
  let beh ← Assembler.block
    [.msg 0, .debug timeTag, .push (.fix 1), .alu .add, .dup 1, .debug countTag, .my .beh, .beh 1,
      .finish .commit]
  let actor ← Assembler.actor beh [.fix 0]
  Machine.sealImage
  return actor

end ActorMachine.Program
