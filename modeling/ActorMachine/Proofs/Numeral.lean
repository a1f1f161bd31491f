import ActorMachine.Proofs.Encoding
import ActorMachine.Proofs.Traversal

namespace ActorMachine

variable {c : Char} {s t : List Char} {w : Word} {ws : List Word} {m : Numeral} {k : Nat}

namespace Text

def code (c : Char) : Word := .fix c.toNat

def isFigure (c : Char) : Bool := c.isDigit || c = '_'

def IsNumeral : List Char → Prop
  | [] => True
  | c :: s => (c = '+' ∨ c = '-' ∨ isFigure c = true) ∧ ∀ d ∈ s, isFigure d = true

/-- The number that a numeral stands for. Separators are left out; without digits it is zero. -/
def numeralValue (s : List Char) : Int :=
  (if s.head? = some '-' then -1 else 1) * (Nat.ofDigitChars 10 (s.filter Char.isDigit) 0 : Nat)

/-- The longest numeral that the words begin with. -/
structure Heads (s : List Char) (ws : List Word) : Prop where
  numeral : IsNumeral s
  front : s.map code <+: ws
  longest : ∀ t, IsNumeral t → t.map code <+: ws → t.length ≤ s.length

theorem exists_heads (ws : List Word) : ∃ s, Heads s ws := by
  obtain ⟨s, ⟨hs, hfront⟩, hmin⟩ := (measure fun s : List Char => ws.length - s.length).wf.has_min
    {s | IsNumeral s ∧ s.map code <+: ws} ⟨[], trivial, List.nil_prefix⟩
  refine ⟨s, hs, hfront, fun t ht hfront' => ?_⟩
  have hlen := hfront'.length_le
  have hle : ¬ ws.length - t.length < ws.length - s.length := hmin t ⟨ht, hfront'⟩
  rw [List.length_map] at hlen
  omega

theorem IsNumeral.snoc (hs : IsNumeral s) (hc : isFigure c = true ∨ s = [] ∧ (c = '+' ∨ c = '-')) :
    IsNumeral (s ++ [c]) := by
  cases s with
  | nil =>
    refine ⟨?_, by simp⟩
    obtain hc | ⟨-, hc | hc⟩ := hc
    · exact .inr (.inr hc)
    · exact .inl hc
    · exact .inr (.inl hc)
  | cons d s =>
    refine ⟨hs.1, fun e he => ?_⟩
    obtain he | he := List.mem_append.1 he
    · exact hs.2 e he
    · rw [List.mem_singleton.1 he]
      exact hc.resolve_right fun h => by cases h.1

end Text

open Text

theorem Word.number?_code (c : Char) : (code c).number? = some (c.toNat : Int) := by
  have := toNat_lt_fix c
  rw [code, number?_fix, wrap_eq (k := c.toNat) ⟨by omega, by omega⟩ rfl]

theorem Word.fix_toInt_ofInt (n : Int) : fix (Int64.ofInt n).toInt = fix n := by
  have hwrap : ((Int64.ofInt n).toInt).bmod (2 ^ 63) = n.bmod (2 ^ 63) := by
    rw [Int64.toInt_ofInt, Int.bmod_bmod_of_dvd (by decide)]
  rw [fix, fix, Word.fixnum.injEq]
  apply BitVec.eq_of_toInt_eq
  rw [BitVec.toInt_ofInt, BitVec.toInt_ofInt, hwrap]

theorem CharClass.contains_digit (n : Int) : contains digit.mask n = true ↔ 48 ≤ n ∧ n ≤ 57 := by
  have hall : ∀ i : Fin 128, contains digit.mask (i.val : Int) = true ↔ 48 ≤ i.val ∧
    i.val ≤ 57 := by decide +kernel
  by_cases hn : 0 ≤ n ∧ n < 128
  · have h := hall ⟨n.toNat, by omega⟩
    rw [Int.toNat_of_nonneg hn.1] at h
    rw [h]
    dsimp only
    omega
  · have hout : contains digit.mask n = false := by
      simp only [contains, Bool.and_eq_false_iff, decide_eq_false_iff_not]
      omega
    rw [hout]
    simp only [Bool.false_eq_true, false_iff]
    omega

theorem isDigit_iff : c.isDigit = true ↔ 48 ≤ c.toNat ∧ c.toNat ≤ 57 := by
  simp only [Char.isDigit, Bool.and_eq_true, decide_eq_true_eq]
  exact Iff.rfl

namespace Numeral

def Accepts (m : Numeral) (c : Char) : Prop :=
  isFigure c = true ∨ m.negative? = none ∧ (c = '+' ∨ c = '-')

theorem read?_figure (hc : isFigure c = true) (neg : Option Bool) (k : Nat) :
    read? ⟨neg, .ofNat k⟩ (code c) =
      some ⟨some (neg.getD false), .ofNat (Nat.ofDigitChars 10 ([c].filter Char.isDigit) k)⟩ := by
  unfold read?
  rw [Word.number?_code, Option.getD_some]
  dsimp only
  cases hd : c.isDigit with
  | true =>
    have hrange := isDigit_iff.1 hd
    have hdigit : (c.toNat : Int) - '0'.toNat = ((c.toNat - 48 : Nat) : Int) := by
      rw [show '0'.toNat = 48 from rfl]
      omega
    rw [if_pos ((CharClass.contains_digit _).2 (by omega)), List.filter_cons_of_pos hd, hdigit,
      Int64.ofInt_eq_ofNat]
    simp [settle, Nat.ofDigitChars_cons, Int64.ofNat_add, Int64.ofNat_mul, mul_comm]
  | false =>
    have hunderscore : c = '_' := by simpa [isFigure, hd] using hc
    subst hunderscore
    rw [if_neg (by decide), if_pos rfl]
    rfl

theorem read?_sign (hc : c = '+' ∨ c = '-') (k : Int64) :
    read? ⟨none, k⟩ (code c) = some ⟨some (c = '-'), k⟩ := by
  obtain rfl | rfl := hc <;> rfl

theorem eq_code_of_getD (hw : w.number?.getD (-1) = (c.toNat : Int)) : w = code c := by
  cases hn : w.number? with
  | none =>
    rw [hn, Option.getD_none] at hw
    omega
  | some n =>
    rw [hn, Option.getD_some] at hw
    subst hw
    exact (Word.fix_of_number? hn).symm

theorem read?_eq_none (hw : ∀ c, w = code c → ¬ m.Accepts c) : m.read? w = none := by
  unfold read?
  dsimp only
  rw [if_neg fun hd => ?digit, if_neg fun hu => ?separator, if_neg fun hs => ?minus,
    if_neg fun hs => ?plus]
  case digit =>
    obtain ⟨hlow, hhigh⟩ := (CharClass.contains_digit _).1 hd
    obtain ⟨c, hc⟩ : ∃ c : Char, w.number?.getD (-1) = (c.toNat : Int) := by
      refine ⟨Nat.digitChar ((w.number?.getD (-1)).toNat - 48), ?_⟩
      rw [Nat.toNat_digitChar_of_lt_ten (by omega)]
      omega
    refine hw c (eq_code_of_getD hc) (.inl ?_)
    rw [isFigure, isDigit_iff.2 (by omega), Bool.true_or]
  case separator => exact hw '_' (eq_code_of_getD hu) (.inl rfl)
  case minus => exact hw '-' (eq_code_of_getD hs.2) (.inr ⟨hs.1, .inr rfl⟩)
  case plus => exact hw '+' (eq_code_of_getD hs.2) (.inr ⟨hs.1, .inl rfl⟩)

def readAll (m : Numeral) : List Word → Numeral
  | [] => m
  | w :: ws => (m.read? w).elim m fun m' => m'.readAll ws

theorem readAll_some {m' : Numeral} (hr : m.read? w = some m') (ws : List Word) :
    m.readAll (w :: ws) = m'.readAll ws := by
  rw [readAll, hr, Option.elim_some]

theorem readAll_end (hw : ∀ w ∈ ws.head?, m.read? w = none) : m.readAll ws = m := by
  cases ws with
  | nil => rfl
  | cons w ws => rw [readAll, hw w rfl, Option.elim_none]

theorem readAll_figures (hs : ∀ c ∈ s, isFigure c = true) (neg : Option Bool) (k : Nat)
    (ws : List Word) :
    readAll ⟨neg, .ofNat k⟩ (s.map code ++ ws) =
      readAll ⟨if s = [] then neg else some (neg.getD false),
        .ofNat (Nat.ofDigitChars 10 (s.filter Char.isDigit) k)⟩ ws := by
  induction s generalizing neg k with
  | nil => rfl
  | cons c s ih =>
    obtain ⟨hc, hs⟩ := List.forall_mem_cons.1 hs
    have happend : (c :: s).filter Char.isDigit = [c].filter Char.isDigit ++
      s.filter Char.isDigit :=
      List.filter_append [c] s
    rw [List.map_cons, List.cons_append, readAll_some (read?_figure hc neg k), ih hs, happend,
      Nat.ofDigitChars_append, if_neg (List.cons_ne_nil c s), Option.getD_some, ite_self]

theorem readAll_numeral (hs : IsNumeral s) (ws : List Word) : ∃ neg, (neg = none → s = []) ∧
    (neg = some true ↔ s.head? = some '-') ∧ readAll {} (s.map code ++ ws) =
      readAll ⟨neg, .ofNat (Nat.ofDigitChars 10 (s.filter Char.isDigit) 0)⟩ ws := by
  cases s with
  | nil => exact ⟨none, fun _ => rfl, by simp, rfl⟩
  | cons c s =>
    obtain ⟨hc, hs⟩ := hs
    by_cases hfigure : isFigure c = true
    · refine ⟨some false, by simp, ?_,
        readAll_figures (List.forall_mem_cons.2 ⟨hfigure, hs⟩) none 0 ws⟩
      simp only [Option.some.injEq, Bool.false_eq_true, List.head?_cons, false_iff]
      rintro rfl
      cases hfigure
    · have hsign : c = '+' ∨ c = '-' := by grind
      have hdigit : ¬ c.isDigit = true := fun h => hfigure (by simp [isFigure, h])
      refine ⟨some (c = '-'), by simp, by simp, ?_⟩
      rw [List.map_cons, List.cons_append, readAll_some (read?_sign hsign _),
        List.filter_cons_of_neg hdigit]
      refine (readAll_figures hs (some (c = '-')) 0 ws).trans ?_
      rw [Option.getD_some, ite_self]

theorem value_eq {neg : Option Bool} (hn : neg = some true ↔ s.head? = some '-') :
    value ⟨neg, .ofNat (Nat.ofDigitChars 10 (s.filter Char.isDigit) 0)⟩ =
      .fix (numeralValue s) := by
  unfold value numeralValue
  dsimp only
  -- The sign is put on what is left of the digits, which has wrapped already.
  by_cases hneg : neg = some true
  · rw [if_pos hneg, if_pos (hn.1 hneg), Int.neg_one_mul, ← Int64.ofInt_eq_ofNat, ← Int64.ofInt_neg,
      Word.fix_toInt_ofInt]
  · rw [if_neg hneg, if_neg fun h => hneg (hn.2 h), Int.one_mul, ← Int64.ofInt_eq_ofNat,
      Word.fix_toInt_ofInt]

theorem readAll_heads (hh : Heads s ws) : (readAll {} ws).value = .fix (numeralValue s) := by
  obtain ⟨rest, rfl⟩ := hh.front
  obtain ⟨neg, hnone, hneg, hread⟩ := readAll_numeral hh.numeral rest
  rw [hread, readAll_end, value_eq hneg]
  -- One more item that belonged to the number would make the numeral longer.
  intro w hw
  refine read?_eq_none fun c hc haccepts => ?_
  obtain ⟨rest, rfl⟩ : ∃ ws, rest = w :: ws := by
    cases rest with
    | nil => cases hw
    | cons v rest =>
      cases hw
      exact ⟨rest, rfl⟩
  have hlong :=
    hh.longest (s ++ [c]) (hh.numeral.snoc (haccepts.imp_right fun h => ⟨hnone h.1, h.2⟩)) ?_
  · simp at hlong
  · rw [List.map_append, hc, List.append_cons (s.map code)]
    exact List.prefix_append _ rest

end Numeral

namespace Heap

variable {h : Heap} {v : Word} {ps : List Word}

theorem Ends.parseFixnum_go {b : Budget} (he : h.Ends v ps) (hb : ps.length ≤ b.left)
    (m : Numeral) :
    parseFixnum.go h b m v = .ok (m.readAll (ps.map h.car)).value := by
  induction ps generalizing v b m with
  | nil =>
    unfold parseFixnum.go
    rw [he.isPair_eq]
    rfl
  | cons p ps ih =>
    obtain ⟨rfl, hp, hrest⟩ := he.uncons
    obtain ⟨_ | n, task⟩ := b
    · cases hb
    · unfold parseFixnum.go
      rw [if_pos hp, List.map_cons, Numeral.readAll]
      cases m.read? (h.car v) with
      | none => rfl
      | some m' => exact ih (b := ⟨n, task⟩) hrest (Nat.le_of_succ_le_succ hb) m'

theorem exists_numeral (n : BitVec 63) :
    ∃ s, codes (Word.fixnum n).text = s.map code ∧ IsNumeral s ∧
    numeralValue s = n.toInt := by
  have hdigits : ∀ d ∈ Nat.toDigits 10 n.toInt.natAbs, d.isDigit = true := fun d hd =>
    Nat.isDigit_of_mem_toDigits (by decide) (by decide) hd
  have hvalue : Nat.ofDigitChars 10 (Nat.toDigits 10 n.toInt.natAbs) 0 = n.toInt.natAbs :=
    Nat.ofDigitChars_toDigits (by decide) (by decide)
  have htext : (Word.fixnum n).text.toList = (if n.toInt < 0 then '-' else '+') :: Nat.toDigits 10
      n.toInt.natAbs := by
    rw [Word.text, Word.signed, String.toList_append]
    by_cases hneg : n.toInt < 0 <;> simp [hneg]
  refine ⟨_, congrArg (List.map code) htext, ⟨?_, fun d hd => ?_⟩, ?_⟩
  · split
    · exact .inr (.inl rfl)
    · exact .inl rfl
  · rw [isFigure, hdigits d hd, Bool.true_or]
  · unfold numeralValue
    split
    · rw [List.filter_cons_of_neg (by decide), List.filter_eq_self.2 hdigits, hvalue,
        List.head?_cons, if_pos rfl]
      omega
    · rw [List.filter_cons_of_neg (by decide), List.filter_eq_self.2 hdigits, hvalue,
        List.head?_cons, if_neg (by decide)]
      omega

/-- What is read off the front of a list is the number of its longest numeral, reduced to what
fits. -/
theorem parses_numeral (he : h.Ends v ps) (hb : ps.length ≤ h.sanity) :
    (∃ s, Heads s (ps.map h.car)) ∧
    (∀ s, Heads s (ps.map h.car) → ∃ n : BitVec 63, h.parseFixnum v = .ok (.fixnum n) ∧
      Word.Fits n.toInt ∧ n.toInt % 2 ^ 63 = numeralValue s % 2 ^ 63) ∧
    ∀ n : BitVec 63, ps.map h.car = codes (Word.fixnum n).text →
      h.parseFixnum v = .ok (.fixnum n) := by
  have hparse : ∀ {s}, Heads s (ps.map h.car) →
      h.parseFixnum v = .ok (.fix (numeralValue s)) := fun hh => by
    rw [parseFixnum, he.parseFixnum_go hb, Numeral.readAll_heads hh]
  refine ⟨exists_heads _, fun s hh => ⟨_, hparse hh, ?_, ?_⟩, fun n hn => ?_⟩
  · rw [BitVec.toInt_ofInt]
    exact Word.fits_wrap _
  · rw [BitVec.toInt_ofInt]
    exact Word.wrap_emod _
  · obtain ⟨s, hs, hnum, hval⟩ := exists_numeral n
    have hh : Heads s (ps.map h.car) := by
      rw [hn, hs]
      exact ⟨hnum, List.prefix_rfl, fun t _ ht => by simpa using ht.length_le⟩
    rw [hparse hh, hval, Word.fix, BitVec.ofInt_toInt]

theorem parses_numeral_least : ∃ v h ps, ofText (Word.fixnum (.intMin 63)).text (new 40) = .ok v h ∧
    h.Ends v ps ∧ ps.length ≤ h.sanity ∧ h.parseFixnum v = .ok (.fixnum (.intMin 63)) := by
  -- The least number of all, whose digits alone would not fit, comes back.
  have hlen : (codes (Word.fixnum (.intMin 63)).text).length = 20 := by decide +kernel
  have hroom : (new 40).inUse + (codes (Word.fixnum (.intMin 63)).text).length ≤
      (new 40).capacity := by
    rw [hlen]
    decide +kernel
  obtain ⟨v, h, ps, hr, he, hps, hs⟩ :=
    FreeList.ends_ofItems (freeList_new 40 40) (fun _ => literals_new 40 40) hroom
  have hb : ps.length ≤ h.sanity := by
    rw [hs, ← List.length_map h.car, hps, hlen]
    decide
  exact ⟨v, h, ps, hr, he, hb, (parses_numeral he hb).2.2 _ hps⟩

end Heap

end ActorMachine
