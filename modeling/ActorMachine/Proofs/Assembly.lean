import ActorMachine.Assembler
import ActorMachine.Proofs.Encoding
import ActorMachine.Proofs.Success

namespace ActorMachine

variable {m : Machine} {l : List Nat} {code : List Instruction} {next w z : Word}

namespace Heap

variable {h h' : Heap} {F : Nat → Prop}

/-- From a word on there are these instructions, one after the other, and the last one leads to
another word. -/
def Follows (h : Heap) : Word → List Instruction → Word → Prop
  | w, [], z => w = z
  | w, i :: code, z => ∃ next, h.instruction w = .ok (i, next) ∧ h.Follows next code z

theorem isCode_of_instruction {r : Instruction × Word} (hi : h.instruction w = .ok r) :
    h.isCode w = true := by
  unfold Heap.instruction at hi
  split at hi
  · assumption
  · cases hi

theorem Reworks.instruction {r : Instruction × Word} (hr : h.Reworks (fun _ => False) h')
    (hi : h.instruction w = .ok r) : h'.instruction w = .ok r := by
  have hcode := isCode_of_instruction hi
  obtain ⟨i, rfl, htop, ht⟩ := hasType_iff.1 hcode
  have hcell : h'.cellAt i = h.cellAt i := hr.same i ⟨htop, by rw [ht]; decide⟩ id
  have hcode' : h'.isCode (.ref i) = true :=
    hasType_iff.2 ⟨i, rfl, Nat.lt_of_lt_of_le htop hr.top_le, by rw [hcell, ht]⟩
  rw [instruction_eq hcode] at hi
  rw [instruction_eq hcode', ← hi]
  exact congrArg (fun c : Cell => (·, c.z) <$> Instruction.ofCell c) hcell

theorem Follows.reworks (hr : h.Reworks (fun _ => False) h') (hc : h.Follows w code z) :
    h'.Follows w code z := by
  induction code generalizing w with
  | nil => exact hc
  | cons i code ih =>
    obtain ⟨next, hi, hc⟩ := hc
    exact ⟨next, hr.instruction hi, ih hc⟩

theorem Takes.instruction {i : Nat} {ins : Instruction} (ht : h.Takes i (ins.toCell z) h')
    (hfits : ∀ n, ins.count? = some n → Word.Fits n) : h'.instruction (.ref i) = .ok (ins, z) := by
  have hcode : h'.isCode (.ref i) = true := hasType_iff.2 ⟨i, rfl, ht.lt_top, by rw [ht.self]; rfl⟩
  have hcell : h'.cellAt (Word.ref i).index = ins.toCell z := ht.self
  rw [instruction_ok hcode, hcell]
  exact ⟨Instruction.ofCell_toCell_of_fits hfits, rfl⟩

end Heap

namespace Instruction

def reached : List Instruction → List Instruction
  | [] => []
  | i :: code => if i.isTerminal then [i] else i :: reached code

def exit (next : Word) (code : List Instruction) :
    Word := if code.any isTerminal then .undefined else next

end Instruction

namespace Assembler

/-- The code was laid out in cells that nobody had. -/
structure Lays (code : List Instruction) (next : Word) (m : Machine) (entry : Word) (m' : Machine) :
    Prop where
  rest : m' = { m with heap := m'.heap }
  reworks : m.heap.Reworks (fun _ => False) m'.heap
  inUse : m'.heap.inUse = m.heap.inUse + code.length
  follows : m'.heap.Follows entry (Instruction.reached code) (Instruction.exit next code)

theorem Lays.cons {i : Instruction} {m₁ m₂ : Machine} {v : Word} {j : Nat}
    (hl : Lays code next m w m₁)
    (hrest : m₂ = { m₁ with heap := m₂.heap }) (hre : m₁.heap.Reworks (fun _ => False) m₂.heap)
    (huse : m₂.heap.inUse = m₁.heap.inUse + 1) (hv : v = .ref j)
    (ht : m₁.heap.Takes j (i.toCell (if i.isTerminal then .undefined else w)) m₂.heap)
    (hfits : ∀ n, i.count? = some n → Word.Fits n) : Lays (i :: code) next m v m₂ := by
  subst hv
  refine ⟨by rw [hrest, hl.rest], hl.reworks.trans hre fun _ _ => id,
    by rw [huse, hl.inUse]; rfl, ?_⟩
  have hread := ht.instruction hfits
  unfold Instruction.reached Instruction.exit
  cases hi : i.isTerminal with
  | true =>
    rw [hi] at hread
    simp only [if_true, List.any_cons, hi, Bool.true_or]
    exact ⟨_, hread, rfl⟩
  | false =>
    rw [hi] at hread
    simp only [Bool.false_eq_true, if_false, List.any_cons, hi, Bool.false_or]
    exact ⟨w, hread, hl.follows.reworks hre⟩

theorem achieves_chain (hf : m.heap.FreeList l)
    (hfits : ∀ i ∈ code, ∀ n, i.count? = some n → Word.Fits n)
    (hroom : m.heap.inUse + code.length ≤ m.heap.capacity) (next : Word) :
    Achieves (chain code next) m fun entry m' => Lays code next m entry m' := by
  unfold chain
  induction code with
  | nil => exact ⟨next, m, rfl, rfl, .refl hf, rfl, rfl⟩
  | cons i code ih =>
    rw [List.length_cons] at hroom
    rw [List.foldrM_cons]
    refine (ih (fun j hj => hfits j (List.mem_cons_of_mem i hj)) (by omega)).bind fun w m₁ hl => ?_
    obtain ⟨l₁, hf₁⟩ := hl.reworks.allocator
    have hlt : m₁.heap.inUse < m₁.heap.capacity := by
      rw [hl.inUse, hl.reworks.capacity]
      omega
    refine Machine.achieves_onHeap ((hf₁.achieves_take hlt ?_).mono ?_)
    · exact nofun
    · rintro v h₂ ⟨j, hv, ht, hre, huse⟩
      exact hl.cons rfl hre huse hv ht (hfits i List.mem_cons_self)

theorem block_eq {e : Ending} (he : code.getLast? = some (.finish e)) :
    block code = chain code .undefined := by
  unfold block
  rw [he]
  rfl

theorem block_fails (he : ∀ e, code.getLast? ≠ some (.finish e)) :
    block code m = .error (.assertion "block must finish with `end`") m := by
  unfold block
  cases hlast : code.getLast? with
  | none => rfl
  | some i =>
    have hi : i.isTerminal = false := by
      cases i with
      | finish e => exact absurd hlast (he e)
      | _ => rfl
    simp only [hi]
    rfl

/-- Code is laid out in order, and a block is code that ends in an `end`. -/
theorem lays_out (hf : m.heap.FreeList l) (hfits : ∀ i ∈ code, ∀ n, i.count? = some n → Word.Fits n)
    (hroom : m.heap.inUse + code.length ≤ m.heap.capacity) (next : Word) :
    (∃ entry m', chain code next m = .ok entry m' ∧ m' = { m with heap := m'.heap } ∧
      (∀ i, m.heap.Live i → m'.heap.cellAt i = m.heap.cellAt i) ∧
      m'.heap.Follows entry (Instruction.reached code) (Instruction.exit next code)) ∧
    ((∃ entry m', block code m = .ok entry m') ↔ ∃ e, code.getLast? = some (.finish e)) := by
  refine ⟨?_, ?_, ?_⟩
  · obtain ⟨entry, m', hr, hl⟩ := achieves_chain hf hfits hroom next
    exact ⟨entry, m', hr, hl.rest, fun i hi => hl.reworks.same i hi id, hl.follows⟩
  · rintro ⟨entry, m', hr⟩
    by_contra he
    rw [block_fails fun e h => he ⟨e, h⟩] at hr
    cases hr
  · rintro ⟨e, he⟩
    obtain ⟨entry, m', hr, -⟩ := achieves_chain hf hfits hroom .undefined
    exact ⟨entry, m', by rw [block_eq he, hr]⟩

def scattered : Heap := (({ Heap.new 80 with top := 16 } : Heap).reclaim 13).reclaim 15

theorem freeList_scattered : scattered.FreeList [15, 13] := by
  have hnone : ({ Heap.new 80 with top := 16 } : Heap).FreeList [] := by
    refine ⟨by decide, by decide, by decide +kernel, rfl, fun i =>
      iff_of_false List.not_mem_nil ?_, rfl⟩
    rintro ⟨hp, ht, hf⟩
    have hi : i = 13 ∨ i = 14 ∨ i = 15 := by
      change 13 ≤ i at hp
      change i < 16 at ht
      omega
    obtain rfl | rfl | rfl := hi <;> revert hf <;> decide +kernel
  refine (hnone.reclaim (i := 13) ?_ ?_ ?_).reclaim ?_ ?_ ?_ <;> decide +kernel

theorem lays_out_scattered : ∃ m : Machine, m.heap.FreeList [15, 13] ∧ ∃ entry m',
    chain [.push (.fix 1), .alu .not, .finish .stop, .depth] .nil m = .ok entry m' ∧
      m'.heap.Follows entry [.push (.fix 1), .alu .not, .finish .stop] .undefined := by
  -- The cells of the code are neither in order nor next to each other, and it ends before its last
  -- instruction.
  obtain ⟨m, -⟩ : ∃ m, Machine.new { heapCapacity := 80 } = .ok m := ⟨_, rfl⟩
  have hroom : scattered.inUse + 4 ≤ scattered.capacity := by decide +kernel
  have hfits : ∀ i ∈ ([.push (.fix 1), .alu .not, .finish .stop, .depth] : List Instruction),
      ∀ n, i.count? = some n → Word.Fits n := by decide
  obtain ⟨⟨entry, m', hr, -, -, hfollows⟩, -⟩ :=
    lays_out (m := { m with heap := scattered }) freeList_scattered hfits hroom .nil
  exact ⟨_, freeList_scattered, entry, m', hr, hfollows⟩

end Assembler

end ActorMachine
