import ActorMachine.Proofs.Traversal
import Mathlib.Data.Nat.Digits.Defs
/-! Checksums one bit at a time. A register of 32 bits takes the bits in one by one; whenever what
it shifts out at the top differs from the bit that comes in, the polynomial is subtracted. Main
statement: the table, which takes in a byte at once, does the same for every register and every
byte, so the checksum of a list is that of the bits of its items and of its length. -/

namespace ActorMachine

namespace Checksum

variable {bits : List Bool} {bytes : List UInt8} {n : Nat}

def multiple (bit : Bool) : UInt32 := if bit then polynomial else 0

def feedBit (crc : UInt32) (bit : Bool) :
    UInt32 := (crc <<< 1) ^^^ multiple (crc.toBitVec.msb ^^ bit)

def octet (n : Nat) : List Bool := [7, 6, 5, 4, 3, 2, 1, 0].map n.testBit

/-- What is left in the register after all the bits, complemented. -/
def bitwise (bits : List Bool) : UInt32 := ~~~(bits.foldl feedBit 0)

theorem multiple_xor (p q : Bool) : multiple (p ^^ q) = multiple p ^^^ multiple q := by
  cases p <;> cases q <;> decide

theorem xor_xor_xor_comm (a b c d : UInt32) :
    (a ^^^ b) ^^^ (c ^^^ d) = (a ^^^ c) ^^^ (b ^^^ d) := by
  ac_rfl

theorem and_top_ne_zero_iff (x : UInt32) : x &&& 0x80000000 ≠ 0 ↔ x.toBitVec.msb = true := by
  have hand := BitVec.and_twoPow x.toBitVec 31
  rw [Ne, ← UInt32.toBitVec_inj, BitVec.msb_eq_getLsbD_last, UInt32.toBitVec_and,
    show (0x80000000 : UInt32).toBitVec = BitVec.twoPow 32 31 by decide, hand]
  cases x.toBitVec.getLsbD 31 <;> simp

theorem shift_eq (x : UInt32) : shift x = (x <<< 1) ^^^ multiple x.toBitVec.msb := by
  unfold shift multiple
  rw [if_congr (and_top_ne_zero_iff x) rfl rfl]
  cases x.toBitVec.msb <;> simp

theorem shift_xor (x y : UInt32) : shift (x ^^^ y) = shift x ^^^ shift y := by
  rw [shift_eq, shift_eq, shift_eq, UInt32.toBitVec_xor, BitVec.msb_xor, multiple_xor,
    UInt32.shiftLeft_xor, xor_xor_xor_comm]

theorem feedBit_eq (crc : UInt32) (bit : Bool) : feedBit crc bit = shift crc ^^^ multiple bit := by
  rw [feedBit, multiple_xor, shift_eq, UInt32.xor_assoc]

def shifts (n : Nat) (x : UInt32) : UInt32 := Nat.repeat shift n x

theorem shifts_xor (n : Nat) (x y : UInt32) : shifts n (x ^^^ y) = shifts n x ^^^ shifts n y := by
  induction n with
  | zero => rfl
  | succ n ih =>
    change shift (shifts n (x ^^^ y)) = _
    rw [ih, shift_xor]
    rfl

theorem shifts_shift (n : Nat) (x : UInt32) : shifts n (shift x) = shifts (n + 1) x := by
  induction n with
  | zero => rfl
  | succ n ih => exact congrArg shift ih

theorem foldl_feedBit (bits : List Bool) (crc : UInt32) :
    bits.foldl feedBit crc = shifts bits.length crc ^^^ bits.foldl feedBit 0 := by
  -- What is in the register at first is shifted, whatever comes in.
  induction bits generalizing crc with
  | nil => exact (UInt32.xor_zero).symm
  | cons bit bits ih =>
    rw [List.foldl_cons, List.foldl_cons, ih, ih (feedBit 0 bit), feedBit_eq, feedBit_eq,
      shifts_xor, shifts_shift]
    have hzero : shift 0 = 0 := by decide
    rw [hzero, UInt32.zero_xor, UInt32.xor_assoc]
    rfl

theorem shifts_clear {x : UInt32} (hx : ∀ i, 24 ≤ i → x.toBitVec.getLsbD i = false) (hn : n ≤ 8) :
    (shifts n x).toBitVec = x.toBitVec <<< n := by
  induction n with
  | zero => exact (BitVec.shiftLeft_zero _).symm
  | succ n ih =>
    have ih := ih (by omega)
    have hmsb : (shifts n x).toBitVec.msb = false := by
      rw [ih, BitVec.msb_eq_getLsbD_last, BitVec.getLsbD_shiftLeft, hx _ (by omega), Bool.and_false]
    change (shift (shifts n x)).toBitVec = _
    rw [shift_eq, hmsb, BitVec.shiftLeft_add, ← ih]
    exact congrArg UInt32.toBitVec UInt32.xor_zero

theorem shifts_eight (crc : UInt32) : shifts 8 crc = (crc <<< 8) ^^^ entry (crc >>> 24).toNat := by
  generalize htop : (crc >>> 24) <<< 24 = top
  have hclear : ∀ i, 24 ≤ i → (crc ^^^ top).toBitVec.getLsbD i = false := by
    intro i hi
    have hplace : 24 + (i - 24) = i := by omega
    simp [← htop, hplace, Nat.not_lt.2 hi]
    exact BitVec.lt_of_getLsbD
  have hout : top.toBitVec <<< 8 = 0#32 := by
    rw [← htop]
    change (crc >>> 24).toBitVec <<< 24 <<< 8 = 0
    rw [← BitVec.shiftLeft_add]
    exact BitVec.shiftLeft_eq_zero (by decide)
  have hrest : shifts 8 (crc ^^^ top) = crc <<< 8 := by
    apply UInt32.toBitVec_inj.1
    rw [shifts_clear hclear (Nat.le_refl 8), UInt32.toBitVec_xor, BitVec.shiftLeft_xor_distrib,
      hout, BitVec.xor_zero]
    rfl
  calc shifts 8 crc = shifts 8 ((crc ^^^ top) ^^^ top) := by rw [UInt32.xor_assoc, UInt32.xor_self,
    UInt32.xor_zero]
    _ = (crc <<< 8) ^^^ shifts 8 top := by rw [shifts_xor, hrest]
    _ = (crc <<< 8) ^^^ entry (crc >>> 24).toNat := by
      rw [← htop, entry, UInt32.ofNat_toNat]
      rfl

theorem entry_xor (a b : Nat) : entry (a ^^^ b) = entry a ^^^ entry b := by
  change shifts 8 _ = shifts 8 _ ^^^ shifts 8 _
  rw [← shifts_xor, ← UInt32.shiftLeft_xor, UInt32.ofNat_xor]

theorem foldl_octet (byte : UInt8) : (octet byte.toNat).foldl feedBit 0 = entry byte.toNat := by
  have hall : ∀ i : Fin 256, (octet i).foldl feedBit 0 = entry i := by decide +kernel
  exact hall byte.toFin

theorem get_table (byte : UInt8) : table.get byte.toFin = entry byte.toNat := by
  have hget : ∀ i : Fin 256, table.get i = entry i := by
    intro i
    change table[(i : Nat)] = entry i
    rw [table, Vector.getElem_ofFn]
  exact hget byte.toFin

theorem feed_eq (crc : UInt32) (byte : UInt8) :
    feed crc byte = (octet byte.toNat).foldl feedBit crc := by
  have hlt : (crc >>> 24).toNat < 256 := by
    have := crc.toNat_lt
    simp [Nat.shiftRight_eq_div_pow]
    omega
  rw [feed, get_table, UInt8.toNat_xor, UInt32.toNat_toUInt8, Nat.mod_eq_of_lt hlt, entry_xor,
    foldl_feedBit, foldl_octet]
  change _ = shifts 8 crc ^^^ _
  rw [shifts_eight]
  ac_rfl

theorem foldl_feed (bytes : List UInt8) (crc : UInt32) :
    bytes.foldl feed crc = (bytes.flatMap fun b => octet b.toNat).foldl feedBit crc := by
  induction bytes generalizing crc with
  | nil => rfl
  | cons byte bytes ih => rw [List.foldl_cons, ih, List.flatMap_cons, List.foldl_append, feed_eq]

theorem octet_ofNat (n : Nat) : octet (UInt8.ofNat n).toNat = octet n := by
  unfold octet
  refine List.map_congr_left fun i hi => ?_
  have hlt : i < 8 := by
    simp at hi
    omega
  rw [UInt8.toNat_ofNat', Nat.testBit_mod_two_pow, decide_eq_true hlt, Bool.true_and]

theorem flatMap_lengthBytes (n : Nat) :
    (lengthBytes n).flatMap (fun b => octet b.toNat) = (Nat.digits 256 n).flatMap octet := by
  fun_induction lengthBytes n with
  | case1 => rfl
  | case2 n hn ih =>
    have hmod : octet (n % 256) = octet n := by
      rw [← octet_ofNat n, UInt8.toNat_ofNat']
    rw [Nat.digits_def' (by decide) (Nat.pos_of_ne_zero hn), List.flatMap_cons, List.flatMap_cons,
      ih, octet_ofNat, hmod]

end Checksum

def Word.lowBits : Word → List Bool
  | .fixnum n => Checksum.octet n.toNat
  | _ => Checksum.octet 0

theorem Word.octet_lowByte (v : Word) : Checksum.octet v.lowByte.toNat = v.lowBits := by
  cases v with
  | fixnum n => exact Checksum.octet_ofNat n.toNat
  | ref | cap => rfl

/-- The checksum of a list is taken bit by bit of its items and then of its length. -/
theorem Heap.checksum_bitwise {h : Heap} {v : Word} {ps : List Word} (he : h.Ends v ps)
    (hb : ps.length ≤ h.sanity) :
    h.checksum v = .ok (Checksum.bitwise ((ps.map h.car).flatMap Word.lowBits ++
      (Nat.digits 256 ps.length).flatMap Checksum.octet)) := by
  have hbits : (ps.map fun p => (h.car p).lowByte).flatMap (fun b => Checksum.octet b.toNat) =
      (ps.map h.car).flatMap Word.lowBits := by
    simp only [List.flatMap_map, Word.octet_lowByte]
  unfold Heap.checksum
  rw [he.spine hb]
  change Except.ok (Checksum.checksum _) = _
  rw [Checksum.checksum, Checksum.foldl_feed, List.flatMap_append, hbits, List.length_map,
    Checksum.flatMap_lengthBytes]
  rfl

theorem Heap.checksum_bitwise_digits : ∃ v h ps, ofText "123456789" (new 40) = .ok v h ∧
    h.Ends v ps ∧ ps.length ≤ h.sanity ∧ h.checksum v = .ok 930766865 := by
  -- The check value that is published for the utility: the nine digits in a row.
  have hroom : (new 40).inUse + ("123456789".toList.map fun c => Word.fix c.toNat).length ≤
      (new 40).capacity := by
    decide +kernel
  obtain ⟨v, h, ps, hr, he, hps, hs⟩ :=
    FreeList.ends_ofItems (freeList_new 40 40) (fun _ => literals_new 40 40) hroom
  have hlen : ps.length = 9 := by
    rw [← List.length_map h.car, hps]
    decide +kernel
  have hb : ps.length ≤ h.sanity := by
    rw [hs, hlen]
    decide
  refine ⟨v, h, ps, hr, he, hb, (checksum_bitwise he hb).trans (congrArg Except.ok ?_)⟩
  have hdigits : Nat.digits 256 9 = [9] := by simp
  rw [hps, hlen, hdigits]
  decide +kernel

end ActorMachine
