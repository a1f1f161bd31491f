import ActorMachine.Proofs.Encoding
import ActorMachine.Proofs.StackRearrangement

namespace ActorMachine

open Machine

namespace Alu

def result : Alu → BitVec 63 → BitVec 63 → BitVec 63
  | .not, n, _ => ~~~n
  | .and, n, m => n &&& m
  | .or, n, m => n ||| m
  | .xor, n, m => n ^^^ m
  | .add, n, m => n + m
  | .sub, n, m => n - m
  | .mul, n, m => n * m

theorem fix_apply (op : Alu) (n m : BitVec 63) :
    Word.fix (op.apply (.ofInt n.toInt) (.ofInt m.toInt)).toInt = .fixnum (op.result n m) := by
  -- Nothing of the first 63 bits depends on those above, to which the sign was extended.
  have hle : 63 ≤ 64 := by decide
  have hback (x : BitVec 63) : (BitVec.ofInt 64 x.toInt).setWidth 63 = x := by
    change (x.signExtend 64).setWidth 63 = x
    rw [← BitVec.signExtend_eq_setWidth_of_le _ hle, BitVec.signExtend,
      BitVec.toInt_signExtend_of_le hle, BitVec.ofInt_toInt]
  change Word.fixnum (BitVec.signExtend 63 (op.apply (.ofInt n.toInt) (.ofInt m.toInt)).toBitVec) =
    _
  rw [BitVec.signExtend_eq_setWidth_of_le _ hle]
  cases op <;> simp only [apply, result, Int64.toBitVec_not, Int64.toBitVec_and, Int64.toBitVec_or,
    Int64.toBitVec_xor, Int64.toBitVec_add, Int64.toBitVec_sub, Int64.toBitVec_mul,
    Int64.toBitVec_ofInt, BitVec.sub_eq_add_neg, BitVec.setWidth_not hle, BitVec.setWidth_and,
    BitVec.setWidth_or, BitVec.setWidth_xor, BitVec.setWidth_add _ _ hle,
    BitVec.setWidth_mul _ _ hle, BitVec.setWidth_neg_of_le hle, hback]

/-- The result is the exact one: of the integers, up to a multiple of 2 ^ 63, or of each bit. -/
def Exact : Alu → BitVec 63 → BitVec 63 → BitVec 63 → Prop
  | .not, n, _, r => ∀ i < 63, r.getLsbD i = !n.getLsbD i
  | .and, n, m, r => ∀ i, r.getLsbD i = (n.getLsbD i && m.getLsbD i)
  | .or, n, m, r => ∀ i, r.getLsbD i = (n.getLsbD i || m.getLsbD i)
  | .xor, n, m, r => ∀ i, r.getLsbD i = (n.getLsbD i ^^ m.getLsbD i)
  | .add, n, m, r => r.toInt = Word.wrap (n.toInt + m.toInt)
  | .sub, n, m, r => r.toInt = Word.wrap (n.toInt - m.toInt)
  | .mul, n, m, r => r.toInt = Word.wrap (n.toInt * m.toInt)

theorem exact_result (op : Alu) (n m : BitVec 63) : op.Exact n m (op.result n m) := by
  cases op with
  | not =>
    intro i hi
    rw [result, BitVec.getLsbD_not, decide_eq_true hi, Bool.true_and]
  | and => exact fun i => BitVec.getLsbD_and
  | or => exact fun i => BitVec.getLsbD_or
  | xor => exact fun i => BitVec.getLsbD_xor
  | add => exact BitVec.toInt_add _ _
  | sub => exact BitVec.toInt_sub
  | mul => exact BitVec.toInt_mul _ _

end Alu

namespace Holds

variable {t : Nat} {l : List Nat} {s : List Word} {m : Machine} {n k : BitVec 63}

theorem achieves_popNumber (hs : Holds t l (.fixnum n :: s) m) (op : String) :
    Achieves (popNumber op) m fun r m' =>
    r = n.toInt ∧ ∃ i l', l = i :: l' ∧ Holds t l' s m' ∧ Restacks t l l' m m' := by
  cases l with
  | nil => cases hs.length_eq
  | cons i l =>
    refine hs.achieves_pop.bind ?_
    rintro - m₁ ⟨rfl, hs₁⟩
    exact ⟨_, m₁, rfl, rfl, i, l, rfl, hs₁⟩

theorem achieves_replace {l' : List Nat} {s' : List Word} {m' : Machine} (hs : Holds t l s m)
    (hs' : Holds t l' s' m')
    (hr : Restacks t l l' m m') (hl : l' ⊆ l) (hlt : l'.length < l.length) (v : Word) :
    Achieves (push v) m' fun _ m'' => ∃ l'', Holds t l'' (v :: s') m'' ∧
      Restacks t l l'' m m'' := by
  have huse := hr.inUse
  have hcap := hr.capacity
  have hle := hs.inUse_le
  refine (hs'.achieves_push (by omega) v).mono ?_
  rintro - m'' ⟨i, hs'', hr'⟩
  exact ⟨i :: l', hs'', hr.trans hr' hs''.apart fun j hj => .inl (hl hj)⟩

theorem achieves_combine (hs : Holds t l (.fixnum k :: .fixnum n :: s) m) (op : String)
    (f : Int → Int → Word) :
    Achieves (do
      let y ← popNumber op
      let x ← popNumber op
      push (f x y)) m fun _ m' => ∃ l', Holds t l' (f n.toInt k.toInt :: s) m' ∧
      Restacks t l l' m m' := by
  refine (hs.achieves_popNumber op).bind ?_
  rintro - m₁ ⟨rfl, i, l₁, rfl, hs₁, hr₁⟩
  refine (hs₁.achieves_popNumber op).bind ?_
  rintro - m₂ ⟨rfl, j, l₂, rfl, hs₂, hr₂⟩
  exact hs.achieves_replace hs₂ (hr₁.trans hr₂ hs₂.apart fun _ h => .inl (.tail _ h))
    (fun _ h => .tail _ (.tail _ h)) (by simp) _

theorem achieves_complement (hs : Holds t l (.fixnum k :: s) m) :
    Achieves (arithmetic .not) m fun _ m' => ∃ l', Holds t l' (.fixnum (~~~k) :: s) m' ∧
      Restacks t l l' m m' := by
  refine (hs.achieves_popNumber _).bind ?_
  rintro - m₁ ⟨rfl, i, l₁, rfl, hs₁, hr₁⟩
  change Achieves
    (push (.fix (Alu.not.apply (.ofInt k.toInt) (.ofInt (0 : BitVec 63).toInt)).toInt)) m₁ _
  rw [Alu.fix_apply]
  exact hs.achieves_replace hs₁ hr₁ (fun _ h => .tail _ h) (by simp) _

/-- What an operator does to the numbers on the stack is exact arithmetic, and so is what the order
relations say. -/
theorem calculates (hs : Holds t l (.fixnum k :: .fixnum n :: s) m) (next : Word) :
    let Leaves i s' := Achieves (perform i next) m fun flow m' => flow = .next next ∧
      ∃ l', Holds t l' s' m' ∧ Restacks t l l' m m'
    (∀ op, op ≠ .not → ∃ r, op.Exact n k r ∧ Leaves (.alu op) (.fixnum r :: s)) ∧
    (∃ r, Alu.not.Exact k k r ∧ Leaves (.alu .not) (.fixnum r :: .fixnum n :: s)) ∧
    Leaves (.cmp .lt) ((if n.toInt < k.toInt then .truth else .falsity) :: s) ∧
    Leaves (.cmp .le) ((if n.toInt ≤ k.toInt then .truth else .falsity) :: s) ∧
    Leaves (.cmp .gt) ((if n.toInt > k.toInt then .truth else .falsity) :: s) ∧
    Leaves (.cmp .ge) ((if n.toInt ≥ k.toInt then .truth else .falsity) :: s) := by
  intro Leaves
  have hcompare (r : Relation) (f : Int → Int → Bool) (hr : Machine.compare r = do
      let y ← popNumber "cmp"
      let x ← popNumber "cmp"
      push (.ofBool (f x y))) : Leaves (.cmp r) (.ofBool (f n.toInt k.toInt) :: s) := by
    refine achieves_flow ?_
    rw [hr]
    exact hs.achieves_combine "cmp" fun x y => .ofBool (f x y)
  refine ⟨fun op hop => ⟨op.result n k, op.exact_result n k, ?_⟩,
    ⟨~~~k, Alu.not.exact_result k k, achieves_flow hs.achieves_complement⟩, ?_, ?_, ?_, ?_⟩
  · have hcombine := hs.achieves_combine "alu" fun x y =>
      .fix (op.apply (.ofInt x) (.ofInt y)).toInt
    rw [Alu.fix_apply] at hcombine
    cases op with
    | not => cases hop rfl
    | _ => exact achieves_flow hcombine
  · simpa [Word.ofBool] using hcompare .lt (fun x y => decide (x < y)) rfl
  · simpa [Word.ofBool] using hcompare .le (fun x y => decide (x ≤ y)) rfl
  · simpa [Word.ofBool] using hcompare .gt (fun x y => decide (x > y)) rfl
  · simpa [Word.ofBool] using hcompare .ge (fun x y => decide (x ≥ y)) rfl

theorem calculates_least : ∃ l s m, Holds 13 l (.fix (-1) :: .fix (-2 ^ 62) :: s) m ∧
    Achieves (perform (.alu .add) .nil) m (fun _ m' =>
      ∃ l', Holds 13 l' (.fix (2 ^ 62 - 1) :: s) m') ∧
    Achieves (perform (.cmp .lt) .nil) m fun _ m' => ∃ l', Holds 13 l' (.truth :: s) m' := by
  obtain ⟨m, hs, hheap⟩ := exists_holds_piled
  have hroom : m.heap.inUse + 2 ≤ m.heap.capacity := by
    rw [hheap]
    decide +kernel
  obtain ⟨-, m₁, -, i, hs₁, hr₁⟩ := hs.achieves_push (by omega) (.fix (-2 ^ 62))
  have huse := hr₁.inUse
  have hcap := hr₁.capacity
  simp only [List.length_cons] at huse
  obtain ⟨-, m₂, -, j, hs₂, -⟩ := hs₁.achieves_push (by omega) (.fix (-1))
  obtain ⟨halu, -, hlt, -⟩ := hs₂.calculates .nil
  obtain ⟨r, hr, hadd⟩ := halu .add nofun
  have hr : r = BitVec.ofInt 63 (2 ^ 62 - 1) := BitVec.eq_of_toInt_eq (hr.trans (by decide))
  rw [hr] at hadd
  rw [if_pos (by decide)] at hlt
  refine ⟨_, _, m₂, hs₂, hadd.mono ?_, hlt.mono ?_⟩
  all_goals
    rintro - m' ⟨-, l', h, -⟩
    exact ⟨l', h⟩

end Holds

end ActorMachine
