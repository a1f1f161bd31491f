import ActorMachine.Cell
import ActorMachine.Selector
import ActorMachine.Text.Class

namespace ActorMachine

instance : Selector Field where
  number
    | .t => 0
    | .x => 1
    | .y => 2
    | .z => 3
  ofNumber? n := List.lookup n [(0, .t), (1, .x), (2, .y), (3, .z)]

inductive Opcode where
  | typeq | cell | get | set | pair | part | nth | push | depth | drop | pick | dup | roll | alu
  | eq | cmp | branch | msg | my | send | new | beh | finish | convert | putc | getc | debug
  deriving DecidableEq, Repr

namespace Opcode

def number : Opcode → Int
  | typeq => 0
  | cell => 1
  | get => 2
  | set => 3
  | pair => 4
  | part => 5
  | nth => 6
  | push => 7
  | depth => 8
  | drop => 9
  | pick => 10
  | dup => 11
  | roll => 12
  | alu => 13
  | eq => 14
  | cmp => 15
  | branch => 16
  | msg => 17
  | my => 18
  | send => 19
  | new => 20
  | beh => 21
  | finish => 22
  | convert => 23
  | putc => 24
  | getc => 25
  | debug => 26

/-- Opcodes are read by their place in this list. -/
def all : List Opcode :=
  [typeq, cell, get, set, pair, part, nth, push, depth, drop, pick, dup, roll, alu, eq, cmp, branch,
    msg, my, send, new, beh, finish, convert, putc, getc, debug]

instance : Selector Opcode where
  number := number
  ofNumber? n := if 0 ≤ n then all[n.toNat]? else none

end Opcode

inductive Alu where
  | not | and | or | xor | add | sub | mul
  deriving DecidableEq, Repr

instance : Selector Alu where
  number
    | .not => 0
    | .and => 1
    | .or => 2
    | .xor => 3
    | .add => 4
    | .sub => 5
    | .mul => 6
  ofNumber? n := List.lookup n [(0, .not), (1, .and), (2, .or), (3, .xor), (4, .add), (5, .sub),
    (6, .mul)]

/-- Apply an operator to words of 64 bits, wrapping. `not` ignores the second one. -/
def Alu.apply : Alu → Int64 → Int64 → Int64
  | .not, n, _ => ~~~n
  | .and, n, m => n &&& m
  | .or, n, m => n ||| m
  | .xor, n, m => n ^^^ m
  | .add, n, m => n + m
  | .sub, n, m => n - m
  | .mul, n, m => n * m

inductive Relation where
  | eq | ge | gt | lt | le | ne
  -- Membership in a set of character classes.
  | cls
  deriving DecidableEq, Repr

instance : Selector Relation where
  number
    | .eq => 0
    | .ge => 1
    | .gt => 2
    | .lt => 3
    | .le => 4
    | .ne => 5
    | .cls => 6
  ofNumber? n := List.lookup n [(0, .eq), (1, .ge), (2, .gt), (3, .lt), (4, .le), (5, .ne),
    (6, .cls)]

def Relation.holds (r : Relation) (n m : Int) : Bool :=
  match r with
  | .eq => n = m
  | .ge => m ≤ n
  | .gt => m < n
  | .lt => n < m
  | .le => n ≤ m
  | .ne => n ≠ m
  | .cls => CharClass.contains m n

inductive Own where
  | self | beh | state
  deriving DecidableEq, Repr

instance : Selector Own where
  number
    | .self => 0
    | .beh => 1
    | .state => 2
  ofNumber? n := List.lookup n [(0, .self), (1, .beh), (2, .state)]

inductive Ending where
  | abort | stop | commit | release
  deriving DecidableEq, Repr

instance : Selector Ending where
  number
    | .abort => -1
    | .stop => 0
    | .commit => 1
    | .release => 2
  ofNumber? n := List.lookup n [(-1, .abort), (0, .stop), (1, .commit), (2, .release)]

inductive Conversion where
  | listToNumber | listToSymbol
  deriving DecidableEq, Repr

instance : Selector Conversion where
  number
    | .listToNumber => 0
    | .listToSymbol => 1
  ofNumber? n := List.lookup n [(0, .listToNumber), (1, .listToSymbol)]

end ActorMachine
