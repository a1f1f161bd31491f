import ActorMachine.Assembler

namespace ActorMachine.Program

def endOfTransmission : Int := 4

/-- Build the echo actor. An interactive one takes missing input for a pause, and stops at the end
of transmission only. -/
def echo (interactive : Bool) : MachineM Word := do
  let done ← Assembler.block [.drop 1, .finish .commit]
  let again ← Assembler.block [.push .unit, .my .self, .send 0, .finish .commit]
  let write ← Assembler.chain [.putc] again
  let beh ←
    if interactive then do
      let pause ← Assembler.chain [.drop 1] again
      let check ← Assembler.chain [.dup 1, .eq (.fix endOfTransmission), .branch done] write
      Assembler.chain [.getc, .dup 1, .eq (.fix (-1)), .branch pause] check
    else Assembler.chain [.getc, .dup 1, .eq (.fix (-1)), .branch done] write
  let actor ← Assembler.actor beh []
  Machine.sealImage
  return actor

end ActorMachine.Program
