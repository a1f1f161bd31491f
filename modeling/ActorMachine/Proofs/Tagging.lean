import ActorMachine.Proofs.Encoding

namespace ActorMachine.Word

def numberTag : UInt64 := 0x8000000000000000

def capTag : UInt64 := 0x4000000000000000

def tags : UInt64 := numberTag ||| capTag

/-- The number in the low 63 bits, its sign extended to all 64. -/
def payload (b : UInt64) : Int64 := (b <<< 1).toInt64 >>> 1

def address (b : UInt64) : Nat := (b &&& ~~~tags).toNat

section Tags

variable (b : UInt64)

theorem and_mul_capBit (n m : Nat) : n &&& m * capBit = (n / capBit &&& m) * capBit := by
  change n &&& m * 2 ^ 62 = (n / 2 ^ 62 &&& m) * 2 ^ 62
  rw [← Nat.shiftLeft_eq, ← Nat.shiftLeft_eq, ← Nat.shiftRight_eq_div_pow]
  refine Nat.eq_of_testBit_eq fun i => ?_
  by_cases hi : 62 ≤ i <;> simp [Nat.testBit_shiftLeft, hi]

theorem div_capBit_lt : b.toNat / capBit < 4 := by
  have := b.toNat_lt
  unfold capBit
  omega

theorem and_numberTag : b &&& numberTag ≠ 0 ↔ fixnumBit ≤ b.toNat := by
  have hbit : ∀ q < 4, (q &&& 2) * capBit ≠ 0 ↔ 2 ≤ q := by decide
  calc b &&& numberTag ≠ 0 ↔ b.toNat &&& 2 * capBit ≠ 0 := not_congr UInt64.toNat_inj.symm
    _ ↔ (b.toNat / capBit &&& 2) * capBit ≠ 0 := by rw [and_mul_capBit]
    _ ↔ 2 ≤ b.toNat / capBit := hbit _ (div_capBit_lt b)
    _ ↔ fixnumBit ≤ b.toNat := Nat.le_div_iff_mul_le (by decide)

theorem and_tags {t : UInt64} {k : Nat} (ht : t.toNat = k * capBit) :
    b &&& tags = t ↔ b.toNat / capBit = k := by
  calc b &&& tags = t ↔ b.toNat &&& 3 * capBit = k * capBit := by
        rw [← ht]
        exact UInt64.toNat_inj.symm
    _ ↔ b.toNat / capBit * capBit = k * capBit := by
      rw [and_mul_capBit, Nat.and_two_pow_sub_one_of_lt_two_pow (n := 2) (div_capBit_lt b)]
    _ ↔ b.toNat / capBit = k := Nat.mul_left_inj (by decide)

theorem and_tags_eq_capTag : b &&& tags = capTag ↔ b.toNat / capBit = 1 := and_tags b rfl

theorem kinds_ofBits : ((ofBits b).isFixnum = true ↔ b &&& numberTag ≠ 0) ∧
    ((ofBits b).isCap = true ↔ b &&& tags = capTag) ∧
    ((ofBits b).isRef = true ↔ b &&& tags = 0) := by
  rw [and_numberTag, and_tags_eq_capTag, and_tags b (t := 0) (k := 0) rfl, ofBits]
  unfold capBit fixnumBit
  split
  · exact ⟨iff_of_true rfl ‹_›, iff_of_false nofun (by omega), iff_of_false nofun (by omega)⟩
  · split
    · exact ⟨iff_of_false nofun ‹_›, iff_of_true rfl (by omega), iff_of_false nofun (by omega)⟩
    · exact ⟨iff_of_false nofun ‹_›, iff_of_false nofun (by omega), iff_of_true rfl (by omega)⟩

theorem address_eq : address b = b.toNat % capBit :=
  (UInt64.toNat_and b _).trans (Nat.and_two_pow_sub_one_eq_mod _ 62)

theorem toInt_payload : (payload b).toInt = wrap b.toNat := by
  change ((b.toBitVec <<< 1).sshiftRight 1).toInt = wrap b.toNat
  rw [BitVec.toInt_sshiftRight, BitVec.toInt_shiftLeft, Nat.shiftLeft_eq, Int.shiftRight_eq_div_pow,
    UInt64.toNat_toBitVec, wrap, Int.bmod_def, Int.bmod_def]
  omega

theorem fix_payload : fix (payload b).toInt = fix b.toNat := by
  rw [toInt_payload, fix_of_number? (number?_fix _)]

theorem ofBits_eq : ofBits b = if b &&& numberTag ≠ 0 then fix (payload b).toInt
    else if b &&& tags = capTag then cap (address b) else ref (address b) := by
  simp only [ofBits, and_numberTag, and_tags_eq_capTag, fix_payload, address_eq]
  unfold capBit fixnumBit
  split
  · rw [fix, BitVec.ofInt_natCast]
  · split
    · rw [if_pos (by omega)]
      exact congrArg cap (by omega)
    · rw [if_neg (by omega)]
      exact congrArg ref (by omega)

theorem index_ofBits_lt : (ofBits b).index < capBit := by
  rw [ofBits_eq, address_eq]
  have hlt : b.toNat % capBit < capBit := Nat.mod_lt _ (by decide)
  split
  · exact Nat.mod_lt _ (by decide)
  · split <;> exact hlt

end Tags

theorem toNat_toBits_fixnum (n : BitVec 63) : (fixnum n).toBits.toNat = fixnumBit + n.toNat := by
  have := n.isLt
  rw [toBits, UInt64.toNat_ofNat', fixnumBit]
  omega

theorem toNat_toBits_cap (i : Nat) : (cap i).toBits.toNat = capBit + i % capBit := by
  rw [toBits, UInt64.toNat_ofNat', capBit]
  omega

theorem toNat_toBits_ref (i : Nat) : (ref i).toBits.toNat = i % capBit := by
  rw [toBits, UInt64.toNat_ofNat', capBit]
  omega

theorem ofBits_toBits_iff (v : Word) : ofBits v.toBits = v ↔ v.index < capBit := by
  constructor
  · intro h
    rw [← h]
    exact index_ofBits_lt _
  · intro h
    cases v with
    | fixnum n =>
      rw [ofBits, toNat_toBits_fixnum, if_pos (Nat.le_add_right _ _)]
      refine congrArg fixnum (BitVec.eq_of_toNat_eq ?_)
      have := n.isLt
      rw [BitVec.toNat_ofNat, fixnumBit]
      omega
    | cap i =>
      have hlt : i < capBit := h
      rw [ofBits, toNat_toBits_cap, Nat.mod_eq_of_lt hlt, if_pos (Nat.le_add_right _ _),
        Nat.add_sub_cancel_left, if_neg]
      unfold capBit fixnumBit at *
      omega
    | ref i =>
      have hlt : i < capBit := h
      rw [ofBits, toNat_toBits_ref, Nat.mod_eq_of_lt hlt, if_neg (Nat.not_le.2 hlt), if_neg]
      unfold capBit fixnumBit at *
      omega

theorem toBits_fix (n : Int64) : (fix n.toInt).toBits = n.toUInt64 ||| numberTag := by
  have hor : (n.toUInt64 ||| numberTag).toNat = n.toUInt64.toNat ||| 2 ^ 63 := UInt64.toNat_or _ _
  -- The tag covers the sign of the 64 bits, and the sign of the 63 below it stays.
  have hlow : (n.toUInt64.toNat ||| 2 ^ 63) % 2 ^ 63 = n.toUInt64.toNat % 2 ^ 63 := by
    rw [Nat.or_mod_two_pow, Nat.mod_self, Nat.or_zero]
  have hint : n.toInt = (n.toUInt64.toNat : Int).bmod (2 ^ 64) := BitVec.toInt_eq_toNat_bmod _
  have hread : ofBits (n.toUInt64 ||| numberTag) = fix n.toInt := by
    rw [ofBits, if_pos (hor ▸ Nat.right_le_or), fix, hor]
    refine congrArg fixnum (BitVec.eq_of_toNat_eq ?_)
    rw [BitVec.toNat_ofNat, BitVec.toNat_ofInt, hlow, hint, Int.bmod_def]
    omega
  rw [← hread, toBits_ofBits]

theorem toBits_ref (i : Nat) : (ref i).toBits = .ofNat i &&& ~~~tags := by
  apply UInt64.toNat.inj
  calc (ref i).toBits.toNat = i % capBit := toNat_toBits_ref i
    _ = (UInt64.ofNat i).toNat % capBit := by rw [UInt64.toNat_ofNat',
      Nat.mod_mod_of_dvd _ (by decide)]
    _ = address (.ofNat i) := (address_eq _).symm

theorem toBits_cap (i : Nat) : (cap i).toBits = (ref i).toBits &&& ~~~numberTag ||| capTag := by
  have hlt : i % capBit < 2 ^ 62 := Nat.mod_lt _ (by decide)
  apply UInt64.toNat.inj
  calc (cap i).toBits.toNat = 2 ^ 62 + i % capBit := toNat_toBits_cap i
    _ = i % capBit ||| 2 ^ 62 := by
      rw [Nat.or_comm]
      simpa using Nat.two_pow_add_eq_or_of_lt hlt 1
    _ = (i % capBit &&& 2 ^ 63 - 1) ||| 2 ^ 62 := by
      rw [Nat.and_two_pow_sub_one_of_lt_two_pow (by omega)]
    _ = ((ref i).toBits &&& ~~~numberTag ||| capTag).toNat := by
      rw [UInt64.toNat_or, UInt64.toNat_and, toNat_toBits_ref]
      rfl

theorem signed_eq (n : Int) : signed n = (if 0 ≤ n then "+" else "") ++ toString n := by
  rw [Int.toString_eq_repr, Int.repr_eq_if, signed]
  by_cases hn : 0 ≤ n
  · rw [if_neg (by omega), if_pos hn, if_pos hn, show n.natAbs = n.toNat by omega]
    rfl
  · rw [if_pos (by omega), if_neg hn, if_neg hn, show n.natAbs = (-n).toNat by omega,
      String.empty_append]
    rfl

theorem text_ref (i : Nat) :
    (ref i).text = if i < 13 then reservedNames[i]! else "^" ++ toString i := by
  change reservedNames[i]?.getD ("^" ++ toString i) = _
  split
  · next hi =>
    rw [List.getElem!_eq_getElem?_getD, List.getElem?_eq_getElem hi]
    rfl
  · next hi =>
    rw [List.getElem?_eq_none (Nat.le_of_not_lt hi)]
    rfl

theorem text_ofBits (b : UInt64) : (ofBits b).text =
    if b &&& numberTag ≠ 0 then (if 0 ≤ (payload b).toInt then "+" else "") ++
      toString (payload b).toInt
    else if b &&& tags = capTag then "@" ++ toString (address b)
    else if address b < 13 then reservedNames[address b]! else "^" ++ toString (address b) := by
  rw [ofBits_eq]
  split
  · rw [← signed_eq, fix_payload, toInt_payload, wrap, fix, text, BitVec.toInt_ofInt]
  · split
    · rfl
    · exact text_ref _

def ofText (s : String) : Word :=
  match s.toList with
  | '+' :: ds => fix (Nat.ofDigitChars 10 ds 0)
  | '-' :: ds => fix (-Nat.ofDigitChars 10 ds 0)
  | '@' :: ds => cap (Nat.ofDigitChars 10 ds 0)
  | '^' :: ds => ref (Nat.ofDigitChars 10 ds 0)
  | _ => ref (reservedNames.idxOf s)

theorem ofText_signed (n : Int) : ofText (signed n) = fix n := by
  unfold signed
  split
  · have habs : -(n.natAbs : Int) = n := by omega
    generalize n.natAbs = k at habs ⊢
    subst habs
    simp [ofText]
  · have habs : (n.natAbs : Int) = n := by omega
    generalize n.natAbs = k at habs ⊢
    subst habs
    simp [ofText]

theorem ofText_reserved : ∀ i < reserved, ofText (ref i).text = ref i := by
  -- The names differ from each other, and none starts like the text of another word.
  decide +kernel

theorem ofText_text (v : Word) : ofText v.text = v := by
  cases v with
  | fixnum n => exact (ofText_signed n.toInt).trans (congrArg fixnum BitVec.ofInt_toInt)
  | cap i => simp [text, ofText]
  | ref i =>
    by_cases hi : i < reserved
    · exact ofText_reserved i hi
    · have hname : reservedNames[i]? = none := List.getElem?_eq_none (Nat.le_of_not_lt hi)
      simp [text, ofText, hname]

/-- Nothing is lost of a word of 64 bits, neither in what it is read as nor in its text. -/
theorem loses_nothing (b : UInt64) :
    -- The kind, by the tags.
    [(ofBits b).isFixnum, (ofBits b).isCap, (ofBits b).isRef].count true = 1 ∧
    ((ofBits b).isFixnum = true ↔ b &&& numberTag ≠ 0) ∧
    ((ofBits b).isCap = true ↔ b &&& tags = capTag) ∧
    ((ofBits b).isRef = true ↔ b &&& tags = 0) ∧
    -- What the bits are read as, how that is packed, and that the two undo each other.
    (ofBits b = if b &&& numberTag ≠ 0 then fix (payload b).toInt
      else if b &&& tags = capTag then cap (address b) else ref (address b)) ∧
    (∀ n : Int64, (fix n.toInt).toBits = n.toUInt64 ||| numberTag) ∧
    (∀ i, (ref i).toBits = .ofNat i &&& ~~~tags) ∧
    (∀ i, (cap i).toBits = (ref i).toBits &&& ~~~numberTag ||| capTag) ∧
    (ofBits b).toBits = b ∧ (∀ v : Word, ofBits v.toBits = v ↔ v.index < capBit) ∧
    -- The text.
    ((ofBits b).text =
      if b &&& numberTag ≠ 0 then (if 0 ≤ (payload b).toInt then "+" else "") ++
        toString (payload b).toInt
      else if b &&& tags = capTag then "@" ++ toString (address b)
      else if address b < 13 then reservedNames[address b]! else "^" ++ toString (address b)) ∧
    ∀ b', (ofBits b).text = (ofBits b').text ↔ b = b' := by
  obtain ⟨hfix, hcap, href⟩ := kinds_ofBits b
  refine ⟨?_, hfix, hcap, href, ofBits_eq b, toBits_fix, toBits_ref, toBits_cap, toBits_ofBits b,
    ofBits_toBits_iff, text_ofBits b, fun b' => ⟨fun h => ?_, fun h => h ▸ rfl⟩⟩
  · cases ofBits b <;> rfl
  · calc b = (ofText (ofBits b).text).toBits := by rw [ofText_text, toBits_ofBits]
      _ = (ofText (ofBits b').text).toBits := by rw [h]
      _ = b' := by rw [ofText_text, toBits_ofBits]

end ActorMachine.Word
