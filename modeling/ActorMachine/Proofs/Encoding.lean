import ActorMachine.Instruction.Basic
import ActorMachine.Proofs.Heap
import Mathlib.Algebra.Group.Nat.Defs
import Mathlib.Algebra.Ring.Int.Defs

namespace ActorMachine

namespace Word

def Fits (n : Int) : Prop := -2 ^ 62 ≤ n ∧ n < 2 ^ 62

instance (n : Int) : Decidable (Fits n) := inferInstanceAs (Decidable (_ ∧ _))

def wrap (n : Int) : Int := n.bmod (2 ^ 63)

theorem number?_fix (n : Int) : (fix n).number? = some (wrap n) := by
  simp only [fix, number?, wrap, BitVec.toInt_ofInt]

theorem fix_of_number? {v : Word} {n : Int} (h : v.number? = some n) : fix n = v := by
  cases v with
  | fixnum b =>
    obtain rfl := Option.some.inj h
    simp only [fix, BitVec.ofInt_toInt]
  | ref | cap => cases h

theorem fits_wrap (n : Int) : Fits (wrap n) := by
  have hlow := Int.le_bmod (x := n) (m := 2 ^ 63) (by decide)
  have hhigh := Int.bmod_lt (x := n) (m := 2 ^ 63) (by decide)
  unfold Fits wrap
  omega

theorem wrap_emod (n : Int) : wrap n % 2 ^ 63 = n % 2 ^ 63 := Int.bmod_emod

theorem wrap_eq {n k : Int} (hk : Fits k) (h : k % 2 ^ 63 = n % 2 ^ 63) : wrap n = k := by
  have hfits := fits_wrap n
  have hmod := wrap_emod n
  unfold Fits at hk hfits
  omega

end Word

/-- What an opcode asks of its operand, and what complaints about it call it. -/
inductive Operand where
  /-- Nothing; it is not looked at. -/
  | none
  | any
  | count (name : String)
  | choice (name : String) (numbers : List Int)
  deriving DecidableEq

namespace Opcode

def operand : Opcode → Operand
  | .depth | .putc | .getc => .none
  | .typeq | .push | .eq | .branch | .debug => .any
  | .cell => .count "cell"
  | .pair => .count "pair"
  | .part => .count "part"
  | .nth => .count "nth"
  | .drop => .count "drop"
  | .pick => .count "pick"
  | .dup => .count "dup"
  | .roll => .count "roll"
  | .msg => .count "msg"
  | .send => .count "send"
  | .new => .count "new"
  | .beh => .count "beh"
  | .get | .set => .choice "field" [0, 1, 2, 3]
  | .alu => .choice "alu" [0, 1, 2, 3, 4, 5, 6]
  | .cmp => .choice "cmp" [0, 1, 2, 3, 4, 5, 6]
  | .my => .choice "my" [0, 1, 2]
  | .finish => .choice "end" [-1, 0, 1, 2]
  | .convert => .choice "cvt" [0, 1]

/-- What is wrong with the operand of an opcode. -/
inductive Refuses (op : Opcode) (v : Word) : Fault → Prop
  | count {name : String} : op.operand = .count name → v.number? = none →
    Refuses op v (.typeMismatch name "fixnum immediate" v)
  | choice {name : String} {numbers : List Int} : op.operand = .choice name numbers →
    (∀ n ∈ numbers, v.number? ≠ some n) → Refuses op v (.unknownSelector name v)

theorem number_all : ∀ i, ∀ hi : i < all.length, (all.get ⟨i, hi⟩).number = i := by decide

end Opcode

namespace Selector

/-- The table from which choices are read agrees with their numbers, which fit into a word. -/
class Lawful (α : Type) [Selector α] : Prop where
  ofNumber?_number (a : α) : ofNumber? (number a) = some a
  number_of_ofNumber? {n : Int} {a : α} : ofNumber? n = some a → number a = n
  fits (a : α) : Word.Fits (number a)

instance : Lawful Opcode where
  ofNumber?_number op := by cases op <;> rfl
  number_of_ofNumber? {n op} h := by
    obtain ⟨hn, hop⟩ := Option.ite_none_right_eq_some.1 h
    obtain ⟨hi, rfl⟩ := List.getElem?_eq_some_iff.1 hop
    exact (Opcode.number_all n.toNat hi).trans (Int.toNat_of_nonneg hn)
  fits op := by cases op <;> decide

theorem lawful_of_lookup {α : Type} [Selector α] (table : List (Int × α))
    (htable : ∀ n, (ofNumber? n : Option α) = table.lookup n)
    (hnumber : ∀ p ∈ table, number p.2 = p.1)
    (hread : ∀ a : α, ofNumber? (number a) = some a) (hfits : ∀ a : α, Word.Fits (number a)) :
    Lawful α := by
  refine ⟨hread, fun {n a} h => ?_, hfits⟩
  rw [htable, List.lookup_eq_some_iff] at h
  obtain ⟨before, after, rfl, -⟩ := h
  exact hnumber (n, a) (by simp)

instance : Lawful Field :=
  lawful_of_lookup _ (fun _ => rfl) (by decide) (by rintro ⟨⟩ <;> rfl) (by rintro ⟨⟩ <;> decide)

instance : Lawful Alu :=
  lawful_of_lookup _ (fun _ => rfl) (by decide) (by rintro ⟨⟩ <;> rfl) (by rintro ⟨⟩ <;> decide)

instance : Lawful Relation :=
  lawful_of_lookup _ (fun _ => rfl) (by decide) (by rintro ⟨⟩ <;> rfl) (by rintro ⟨⟩ <;> decide)

instance : Lawful Own :=
  lawful_of_lookup _ (fun _ => rfl) (by decide) (by rintro ⟨⟩ <;> rfl) (by rintro ⟨⟩ <;> decide)

instance : Lawful Ending :=
  lawful_of_lookup _ (fun _ => rfl) (by decide) (by rintro ⟨⟩ <;> rfl) (by rintro ⟨⟩ <;> decide)

instance : Lawful Conversion :=
  lawful_of_lookup _ (fun _ => rfl) (by decide) (by rintro ⟨⟩ <;> rfl) (by rintro ⟨⟩ <;> decide)

variable {α : Type} [Selector α] [Lawful α] {v : Word} {a : α} {numbers : List Int}

theorem number?_word (a : α) : (word a).number? = some (number a) := by
  rw [word, Word.number?_fix, Word.wrap_eq (Lawful.fits a) rfl]

theorem ofWord?_eq_some_iff : ofWord? v = some a ↔ word a = v := by
  constructor
  · intro h
    obtain ⟨n, hv, hn⟩ := Option.bind_eq_some_iff.1 h
    rw [word, Lawful.number_of_ofNumber? hn]
    exact Word.fix_of_number? hv
  · rintro rfl
    rw [ofWord?, number?_word, Option.bind_some, Lawful.ofNumber?_number]

@[simp] theorem ofWord?_word (a : α) : ofWord? (word a) = some a := ofWord?_eq_some_iff.2 rfl

theorem ofWord?_eq_none_iff (hmem : ∀ a : α, number a ∈ numbers)
    (hread : ∀ n ∈ numbers, (ofNumber? n : Option α).isSome = true) :
    (ofWord? v : Option α) = none ↔ ∀ n ∈ numbers, v.number? ≠ some n := by
  simp only [Option.eq_none_iff_forall_ne_some, ne_eq, ofWord?_eq_some_iff]
  constructor
  · intro h n hn hv
    obtain ⟨a, ha⟩ := Option.isSome_iff_exists.1 (hread n hn)
    refine h a (Word.fix_of_number? ?_)
    rw [hv, Lawful.number_of_ofNumber? ha]
  · rintro h a rfl
    exact h _ (hmem a) (number?_word a)

end Selector

namespace Instruction

variable {α : Type} [Selector α] [Selector.Lawful α] {name : String} {numbers : List Int}
  {v z : Word} {n k : Int} {e : Fault}
  {i : Instruction} {op : Opcode} {c : Cell}

theorem readCount_ok {f : Int → Instruction} (h : f <$> readCount name v = .ok i) :
    ∃ n, .fix n = v ∧ i = f n := by
  unfold readCount at h
  cases hv : v.number? with
  | none =>
    rw [hv] at h
    cases h
  | some n =>
    rw [hv] at h
    cases h
    exact ⟨n, Word.fix_of_number? hv, rfl⟩

theorem readCount_error {f : Int → Instruction} (ho : op.operand = .count name) :
    f <$> readCount name v = .error e ↔ op.Refuses v e := by
  unfold readCount
  constructor
  · intro h
    cases hv : v.number? with
    | none =>
      rw [hv] at h
      cases h
      exact .count ho hv
    | some n =>
      rw [hv] at h
      cases h
  · rintro (⟨hr, hv⟩ | ⟨hr, -⟩)
    · cases ho.symm.trans hr
      rw [hv]
      rfl
    · cases ho.symm.trans hr

theorem read_ok {f : α → Instruction} (h : f <$> Selector.read name v = .ok i) :
    ∃ a, Selector.word a = v ∧ i = f a := by
  unfold Selector.read at h
  cases hv : (Selector.ofWord? v : Option α) with
  | none =>
    rw [hv] at h
    cases h
  | some a =>
    rw [hv] at h
    cases h
    exact ⟨a, Selector.ofWord?_eq_some_iff.1 hv, rfl⟩

theorem read_error {f : α → Instruction} (ho : op.operand = .choice name numbers)
    (hmem : ∀ a : α, Selector.number a ∈ numbers)
    (hread : ∀ n ∈ numbers, (Selector.ofNumber? n : Option α).isSome = true) :
    f <$> Selector.read name v = .error e ↔ op.Refuses v e := by
  unfold Selector.read
  constructor
  · intro h
    cases hv : (Selector.ofWord? v : Option α) with
    | none =>
      rw [hv] at h
      cases h
      exact .choice ho ((Selector.ofWord?_eq_none_iff hmem hread).1 hv)
    | some a =>
      rw [hv] at h
      cases h
  · rintro (⟨hr, -⟩ | ⟨hr, hv⟩)
    · cases ho.symm.trans hr
    · cases ho.symm.trans hr
      rw [(Selector.ofWord?_eq_none_iff hmem hread).2 hv]
      rfl

theorem ofOperand_ok (h : ofOperand op v = .ok i) :
    i.opcode = op ∧ i.operand = if op.operand = .none then .undefined else v := by
  cases op with
  | typeq | push | eq | branch | debug | depth | putc | getc =>
    cases h
    exact ⟨rfl, rfl⟩
  | cell | pair | part | nth | drop | pick | dup | roll | msg | send | new | beh =>
    obtain ⟨n, rfl, rfl⟩ := readCount_ok h
    exact ⟨rfl, rfl⟩
  | get | set | alu | cmp | my | finish | convert =>
    obtain ⟨a, rfl, rfl⟩ := read_ok h
    exact ⟨rfl, rfl⟩

theorem ofOperand_error : ofOperand op v = .error e ↔ op.Refuses v e := by
  cases op with
  | typeq | push | eq | branch | debug | depth | putc | getc =>
    constructor
    · exact nofun
    · rintro (⟨h, -⟩ | ⟨h, -⟩) <;> cases h
  | cell | pair | part | nth | drop | pick | dup | roll | msg | send | new | beh =>
    exact readCount_error rfl
  | get | set | alu | cmp | my | finish | convert =>
    exact read_error rfl (by rintro ⟨⟩ <;> decide) (by decide)

def count? : Instruction → Option Int
  | cell n | pair n | part n | nth n | drop n | pick n | dup n | roll n | msg n | send n | new n
  | beh n => some n
  | _ => none

def withCount (k : Int) : Instruction → Instruction
  | cell _ => cell k
  | pair _ => pair k
  | part _ => part k
  | nth _ => nth k
  | drop _ => drop k
  | pick _ => pick k
  | dup _ => dup k
  | roll _ => roll k
  | msg _ => msg k
  | send _ => send k
  | new _ => new k
  | beh _ => beh k
  | i => i

theorem withCount_self (hk : ∀ n, i.count? = some n → n = k) : i.withCount k = i := by
  cases i with
  | cell n | pair n | part n | nth n | drop n | pick n | dup n | roll n | msg n | send n | new n
  | beh n =>
    rw [← hk n rfl]
    rfl
  | _ => rfl

theorem ofOperand_operand (hk : ∀ n, i.count? = some n → Word.wrap n = k) :
    ofOperand i.opcode i.operand = .ok (i.withCount k) := by
  cases i with
  | typeq | push | eq | branch | debug | depth | putc | getc => rfl
  | cell n | pair n | part n | nth n | drop n | pick n | dup n | roll n | msg n | send n | new n
  | beh n =>
    simp only [opcode, operand, ofOperand, readCount, Word.number?_fix, hk n rfl]
    rfl
  | get | set | alu | cmp | my | finish | convert =>
    simp only [opcode, operand, ofOperand, Selector.read, Selector.ofWord?_word]
    rfl

theorem ofCell_toCell (hk : ∀ n, i.count? = some n → Word.wrap n = k) :
    ofCell (i.toCell z) = .ok (i.withCount k) := by
  unfold ofCell toCell
  rw [Selector.ofWord?_word]
  exact ofOperand_operand hk

theorem ofCell_toCell_of_fits (hk : ∀ n, i.count? = some n → Word.Fits n) :
    ofCell (i.toCell z) = .ok i := by
  cases hc : i.count? with
  | none =>
    rw [ofCell_toCell (k := 0) (by simp [hc]), withCount_self (by simp [hc])]
  | some n =>
    rw [ofCell_toCell (k := n) fun m hm => ?_, withCount_self fun m hm => ?_]
    · exact Option.some.inj (hm.symm.trans hc)
    · cases hc.symm.trans hm
      exact Word.wrap_eq (hk n hc) rfl

theorem ofCell_ok (h : ofCell c = .ok i) :
    Selector.word i.opcode = c.x ∧ i.operand = if i.opcode.operand =
      .none then .undefined else c.y := by
  unfold ofCell at h
  cases hx : (Selector.ofWord? c.x : Option Opcode) with
  | none =>
    rw [hx] at h
    cases h
  | some op =>
    rw [hx] at h
    obtain ⟨rfl, hy⟩ := ofOperand_ok h
    exact ⟨Selector.ofWord?_eq_some_iff.1 hx, hy⟩

theorem ofCell_error : ofCell c = .error e ↔
    (∀ n, c.x.number? = some n → n < 0 ∨ 26 < n) ∧ e = .illegalOpcode c.x ∨
      ∃ op : Opcode, c.x = Selector.word op ∧ op.Refuses c.y e := by
  have hmem : ∀ op : Opcode, Selector.number op ∈ (List.range 27).map Nat.cast := by
    rintro ⟨⟩ <;> decide
  have hnone : (Selector.ofWord? c.x : Option Opcode) = none ↔
      ∀ n, c.x.number? = some n → n < 0 ∨ 26 < n := by
    rw [Selector.ofWord?_eq_none_iff hmem (by decide)]
    constructor
    · intro h n hn
      refine Decidable.byContradiction fun hout => ?_
      have hlt : n.toNat < 27 := by omega
      exact h n (List.mem_map.2 ⟨n.toNat, List.mem_range.2 hlt, Int.toNat_of_nonneg (by omega)⟩) hn
    · intro h n hn hx
      obtain ⟨k, hk, rfl⟩ := List.mem_map.1 hn
      have := List.mem_range.1 hk
      have := h k hx
      omega
  rw [← hnone]
  unfold ofCell
  constructor
  · intro h
    cases hx : (Selector.ofWord? c.x : Option Opcode) with
    | none =>
      rw [hx] at h
      cases h
      exact .inl ⟨rfl, rfl⟩
    | some op =>
      rw [hx] at h
      exact .inr ⟨op, (Selector.ofWord?_eq_some_iff.1 hx).symm, ofOperand_error.1 h⟩
  · rintro (⟨hx, rfl⟩ | ⟨op, hx, hr⟩)
    · rw [hx]
    · rw [hx, Selector.ofWord?_word]
      exact ofOperand_error.2 hr

end Instruction

namespace Heap

variable {h : Heap} {ip : Word}

theorem instruction_eq (hip : h.isCode ip = true) :
    h.instruction ip = (·, (h.cellAt ip.index).z) <$> Instruction.ofCell (h.cellAt ip.index) := by
  unfold Heap.instruction
  rw [if_pos hip]

theorem instruction_ok {i : Instruction} {z : Word} (hip : h.isCode ip = true) :
    h.instruction ip = .ok (i, z) ↔ Instruction.ofCell (h.cellAt ip.index) = .ok i ∧
      (h.cellAt ip.index).z = z := by
  rw [instruction_eq hip]
  cases Instruction.ofCell (h.cellAt ip.index) <;> simp [Functor.map, Except.map]

theorem instruction_error {e : Fault} (hip : h.isCode ip = true) :
    h.instruction ip = .error e ↔ Instruction.ofCell (h.cellAt ip.index) = .error e := by
  rw [instruction_eq hip]
  cases Instruction.ofCell (h.cellAt ip.index) <;> simp [Functor.map, Except.map]

/-- The format of instructions. -/
theorem instruction_format (hip : h.isCode ip = true) :
    (∀ (i : Instruction) (z : Word), h.cellAt ip.index = i.toCell z →
      ((∀ n, i.count? = some n → Word.Fits n) → h.instruction ip = .ok (i, z)) ∧
      ∀ n, i.count? = some n →
        ∃ k, Word.Fits k ∧ k % 2 ^ 63 = n % 2 ^ 63 ∧ h.instruction ip = .ok (i.withCount k, z)) ∧
    (∀ (i : Instruction) (z : Word), h.instruction ip = .ok (i, z) →
      i.toCell z = { h.cellAt ip.index with
        y := if i.opcode.operand = .none then .undefined else (h.cellAt ip.index).y }) ∧
    ∀ e, h.instruction ip = .error e ↔
      (∀ n, (h.cellAt ip.index).x.number? = some n → n < 0 ∨ 26 < n) ∧
      e = .illegalOpcode (h.cellAt ip.index).x ∨
        ∃ op : Opcode, (h.cellAt ip.index).x = Selector.word op ∧
          op.Refuses (h.cellAt ip.index).y e := by
  refine ⟨fun i z hc => ⟨fun hfits => ?_, fun n hn => ?_⟩, fun i z hi => ?_, fun e => ?_⟩
  · rw [instruction_ok hip, hc]
    exact ⟨Instruction.ofCell_toCell_of_fits hfits, rfl⟩
  · refine ⟨Word.wrap n, Word.fits_wrap n, Word.wrap_emod n, ?_⟩
    rw [instruction_ok hip, hc]
    refine ⟨Instruction.ofCell_toCell fun m hm => ?_, rfl⟩
    cases hn.symm.trans hm
    rfl
  · obtain ⟨hcell, rfl⟩ := (instruction_ok hip).1 hi
    obtain ⟨hx, hy⟩ := Instruction.ofCell_ok hcell
    obtain ⟨j, rfl, -, ht⟩ := hasType_iff.1 hip
    rw [Instruction.toCell, hx, hy]
    exact congrArg (Cell.mk · _ _ _) ht.symm
  · rw [instruction_error hip, Instruction.ofCell_error]

theorem instruction_format_wrapped :
    let h := ({ Heap.new 14 with top := 14 } : Heap).putCell 13
      ((Instruction.roll (2 ^ 62)).toCell .nil)
    h.isCode (.ref 13) = true ∧ h.instruction (.ref 13) = .ok (.roll (-2 ^ 62), .nil) := by
  intro h
  have hcode : h.isCode (.ref 13) = true := by decide +kernel
  have hcell : h.cellAt 13 = (Instruction.roll (2 ^ 62)).toCell .nil := by decide +kernel
  obtain ⟨k, hfits, hmod, hk⟩ := ((instruction_format hcode).1 (.roll (2 ^ 62)) .nil hcell).2
    (2 ^ 62) rfl
  obtain rfl : k = -2 ^ 62 := by
    unfold Word.Fits at hfits
    omega
  exact ⟨hcode, hk⟩

end Heap

end ActorMachine
