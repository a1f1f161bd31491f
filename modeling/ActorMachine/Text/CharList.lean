import ActorMachine.Heap.Pair
import ActorMachine.Text.Class
import ActorMachine.Text.Checksum

namespace ActorMachine

/-- The character that a word is the code of; `~` if it is no character code. -/
def Word.toChar : Word → Char
  | .fixnum n =>
    if 0 ≤ n.toInt ∧ n.toInt.toNat.isValidChar then Char.ofNat n.toInt.toNat else '~'
  | _ => '~'

def Word.lowByte : Word → UInt8
  | .fixnum n => UInt8.ofNat n.toNat
  | _ => 0

/-- What has been read of a number: its sign, once settled, and its digits. -/
structure Numeral where
  negative? : Option Bool := none
  magnitude : Int64 := 0

namespace Numeral

def settle (m : Numeral) : Numeral := { m with negative? := some (m.negative?.getD false) }

def read? (m : Numeral) (item : Word) : Option Numeral :=
  let code := item.number?.getD (-1)
  if CharClass.contains CharClass.digit.mask code then
    some { m.settle with magnitude := m.magnitude * 10 + .ofInt (code - '0'.toNat) }
  else if code = '_'.toNat then some m.settle
  else if m.negative? = none ∧ code = '-'.toNat then some { m with negative? := some true }
  else if m.negative? = none ∧ code = '+'.toNat then some { m with negative? := some false }
  else none

/-- Digits add up in 64 bits, and so does the sign; a word keeps 63 of them. -/
def value (m : Numeral) : Word :=
  .fix (if m.negative? = some true then -m.magnitude else m.magnitude).toInt

end Numeral

namespace Heap

def ofText (s : String) : HeapM Word := ofItems (s.toList.map fun c => .fix c.toNat)

def toText (h : Heap) (v : Word) : Except Fault String :=
  (fun ps => String.ofList (ps.map fun p => (h.car p).toChar)) <$>
    h.spine (h.budget "list_to_string") v

def checksum (h : Heap) (v : Word) : Except Fault UInt32 :=
  (fun ps => Checksum.checksum (ps.map fun p => (h.car p).lowByte)) <$>
    h.spine (h.budget "list_crc") v

/-- Read a decimal number off the front of a list: a sign, if any, then digits and `_` as far as
they go. -/
def parseFixnum (h : Heap) (v : Word) : Except Fault Word :=
  go (h.budget "parse_fixnum") {} v
where
  go (b : Budget) (m : Numeral) (v : Word) : Except Fault Word :=
    if h.isPair v then
      match _hb : b.spend with
      | .error e => .error e
      | .ok b =>
        match m.read? (h.car v) with
        | some m => go b m (h.cdr v)
        | none => .ok m.value
    else .ok m.value
  termination_by b.left
  decreasing_by exact Budget.left_lt ‹_›

end Heap

end ActorMachine
