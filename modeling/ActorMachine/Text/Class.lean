
namespace ActorMachine

inductive CharClass where
  | control | digit | upper | lower | delimiter | symbol | hex | blank
  deriving DecidableEq, Repr

namespace CharClass

def bit : CharClass → Nat
  | control => 0
  | digit => 1
  | upper => 2
  | lower => 3
  | delimiter => 4
  | symbol => 5
  | hex => 6
  | blank => 7

def delimiters : List Char := ['"', '\'', '(', ')', ',', ';', '[', ']', '\x60', '\x7b', '|', '\x7d']

def ofCode (n : Nat) : List CharClass :=
  if 0x09 ≤ n ∧ n ≤ 0x0d then [control, blank]
  else if n < 0x20 ∨ n = 0x7f then [control]
  else if n = 0x20 then [blank]
  else if delimiters.any fun c => c.toNat = n then [delimiter]
  else if '0'.toNat ≤ n ∧ n ≤ '9'.toNat then [digit, hex]
  else if 'A'.toNat ≤ n ∧ n ≤ 'F'.toNat then [upper, hex]
  else if 'G'.toNat ≤ n ∧ n ≤ 'Z'.toNat then [upper]
  else if 'a'.toNat ≤ n ∧ n ≤ 'f'.toNat then [lower, hex]
  else if 'g'.toNat ≤ n ∧ n ≤ 'z'.toNat then [lower]
  else [symbol]

def mask (k : CharClass) : Int := (1 <<< k.bit : Nat)

def contains (set code : Int) : Bool :=
  0 ≤ code && code < 128 && (ofCode code.toNat).any fun k => (set % 256).toNat.testBit k.bit

end CharClass

end ActorMachine
