import ActorMachine.Heap.Basic
import ActorMachine.Instruction.Operand

namespace ActorMachine

inductive Instruction where
  | typeq (t : Word)
  | cell (n : Int)
  | get (f : Field)
  | set (f : Field)
  | pair (n : Int)
  | part (n : Int)
  | nth (n : Int)
  | push (v : Word)
  | depth
  | drop (n : Int)
  | pick (n : Int)
  | dup (n : Int)
  | roll (n : Int)
  | alu (op : Alu)
  | eq (v : Word)
  | cmp (r : Relation)
  /-- Go to the target if the value taken off the stack is not `#f`. -/
  | branch (target : Word)
  | msg (n : Int)
  | my (o : Own)
  | send (n : Int)
  | new (n : Int)
  | beh (n : Int)
  | finish (e : Ending)
  | convert (c : Conversion)
  | putc
  | getc
  | debug (tag : Word)
  deriving DecidableEq, Repr

namespace Instruction

def opcode : Instruction → Opcode
  | typeq _ => .typeq
  | cell _ => .cell
  | get _ => .get
  | set _ => .set
  | pair _ => .pair
  | part _ => .part
  | nth _ => .nth
  | push _ => .push
  | depth => .depth
  | drop _ => .drop
  | pick _ => .pick
  | dup _ => .dup
  | roll _ => .roll
  | alu _ => .alu
  | eq _ => .eq
  | cmp _ => .cmp
  | branch _ => .branch
  | msg _ => .msg
  | my _ => .my
  | send _ => .send
  | new _ => .new
  | beh _ => .beh
  | finish _ => .finish
  | convert _ => .convert
  | putc => .putc
  | getc => .getc
  | debug _ => .debug

def operand : Instruction → Word
  | typeq v | push v | eq v | branch v | debug v => v
  | cell n | pair n | part n | nth n | drop n | pick n | dup n | roll n | msg n | send n | new n
  | beh n => .fix n
  | get f | set f => Selector.word f
  | alu op => Selector.word op
  | cmp r => Selector.word r
  | my o => Selector.word o
  | finish e => Selector.word e
  | convert c => Selector.word c
  | depth | putc | getc => .undefined

def isTerminal : Instruction → Bool
  | finish _ => true
  | _ => false

def toCell (i : Instruction) (next : Word) : Cell :=
  ⟨.instrT, Selector.word i.opcode, i.operand, next⟩

def readCount (op : String) (v : Word) : Except Fault Int :=
  match v.number? with
  | some n => .ok n
  | none => .error (.typeMismatch op "fixnum immediate" v)

def ofOperand : Opcode → Word → Except Fault Instruction
  | .typeq, v => .ok (typeq v)
  | .cell, v => cell <$> readCount "cell" v
  | .get, v => get <$> Selector.read "field" v
  | .set, v => set <$> Selector.read "field" v
  | .pair, v => pair <$> readCount "pair" v
  | .part, v => part <$> readCount "part" v
  | .nth, v => nth <$> readCount "nth" v
  | .push, v => .ok (push v)
  | .depth, _ => .ok depth
  | .drop, v => drop <$> readCount "drop" v
  | .pick, v => pick <$> readCount "pick" v
  | .dup, v => dup <$> readCount "dup" v
  | .roll, v => roll <$> readCount "roll" v
  | .alu, v => alu <$> Selector.read "alu" v
  | .eq, v => .ok (eq v)
  | .cmp, v => cmp <$> Selector.read "cmp" v
  | .branch, v => .ok (branch v)
  | .msg, v => msg <$> readCount "msg" v
  | .my, v => my <$> Selector.read "my" v
  | .send, v => send <$> readCount "send" v
  | .new, v => new <$> readCount "new" v
  | .beh, v => beh <$> readCount "beh" v
  | .finish, v => finish <$> Selector.read "end" v
  | .convert, v => convert <$> Selector.read "cvt" v
  | .putc, _ => .ok putc
  | .getc, _ => .ok getc
  | .debug, v => .ok (debug v)

def ofCell (c : Cell) : Except Fault Instruction :=
  match Selector.ofWord? c.x with
  | some op => ofOperand op c.y
  | none => .error (.illegalOpcode c.x)

end Instruction

def Heap.instruction (h : Heap) (ip : Word) : Except Fault (Instruction × Word) :=
  if h.isCode ip then
    let c := h.cellAt ip.index
    (·, c.z) <$> Instruction.ofCell c
  else .error (.notCode "execute" ip)

end ActorMachine
