import ActorMachine.Proofs.MarkSweep
import Mathlib.Logic.Relation

namespace ActorMachine

open Heap

variable {σ α β : Type} {h h' : Heap} {l : List Nat}
variable {f : Fault} {v w : Word} {c : Cell}

def final (act : EStateM Fault σ α) (s : σ) : σ :=
  match act s with
  | .ok _ s' | .error _ s' => s'

theorem final_bind_cases {P : σ → Prop} {act : EStateM Fault σ α}
    {k : α → EStateM Fault σ β} {s : σ}
    (hok : ∀ a s', act s = .ok a s' → P (final (k a) s'))
    (herr : ∀ e s', act s = .error e s' → P s') :
    P (final (act >>= k) s) := by
  change P (match EStateM.bind act k s with | .ok _ s' | .error _ s' => s')
  unfold EStateM.bind
  cases hr : act s with
  | ok a s' => exact hok a s' hr
  | error e s' => exact herr e s' hr

theorem final_bind (R : σ → σ → Prop) (htrans : ∀ {a b c}, R a b → R b c → R a c)
    {act : EStateM Fault σ α}
    {k : α → EStateM Fault σ β} {s : σ} (ha : R s (final act s))
    (hk : ∀ a s', act s = .ok a s' → R s' (final (k a) s')) : R s (final (act >>= k) s) := by
  unfold final at ha
  refine final_bind_cases (P := R s) (fun a s' hr => ?_) fun e s' hr => ?_
  · rw [hr] at ha
    exact htrans ha (hk a s' hr)
  · rw [hr] at ha
    exact ha

namespace Heap

theorem alloc_error (he : alloc c h = .error f h') :
    h.freeHead = .nil ∧ h.capacity ≤ h.top ∧ f = .heapExhausted h.capacity ∧ h' = h := by
  unfold alloc at he
  split at he
  · cases he
  · next hn =>
    split at he
    · cases he
    · next ht =>
      cases he
      exact ⟨Decidable.not_not.1 hn, Nat.not_lt.1 ht, rfl, rfl⟩

theorem free_error (he : free v h = .error f h') : h' = h := by
  unfold free at he
  split at he
  · cases he
    rfl
  · split at he
    · cases he
      rfl
    · cases he

theorem store_error {f : Field} {e : Fault} (he : store v f w h = .error e h') : h' = h := by
  unfold store at he
  split at he
  · cases he
  · cases he
    rfl

/-- A cell is taken, given back or written to, or all cells are sealed. Only a cell that is given
back turns free. -/
inductive Changes : Heap → Heap → Prop
  | take {h h' : Heap} {c : Cell} {v : Word} : c.t ≠ .freeT → alloc c h = .ok v h' → Changes h h'
  | give {h h' : Heap} {v : Word} : free v h = .ok () h' → Changes h h'
  | write {h h' : Heap} {v w : Word} {f : Field} : (h.cellAt v.index).t ≠ .freeT →
    (f = .t → w ≠ .freeT) →
      store v f w h = .ok () h' → Changes h h'
  | sealCells {h h' : Heap} {n : Notice} : sealCells h = .ok n h' → Changes h h'

def Evolves : Heap → Heap → Prop := Relation.ReflTransGen Changes

namespace Evolves

theorem refl (h : Heap) : h.Evolves h := Relation.ReflTransGen.refl

theorem trans {h'' : Heap} (h₁ : h.Evolves h') (h₂ : h'.Evolves h'') : h.Evolves h'' :=
  Relation.ReflTransGen.trans h₁ h₂

theorem alloc (hc : c.t ≠ .freeT) : h.Evolves (final (alloc c) h) := by
  unfold final
  cases hr : Heap.alloc c h with
  | ok v h' => exact .single (.take hc hr)
  | error f h' =>
    rw [(alloc_error hr).2.2.2]
    exact refl h

theorem cons (head tail : Word) : h.Evolves (final (cons head tail) h) :=
  alloc (show Word.pairT ≠ .freeT by decide)

theorem free (v : Word) : h.Evolves (final (free v) h) := by
  unfold final
  cases hr : Heap.free v h with
  | ok u h' => exact .single (.give hr)
  | error f h' =>
    rw [free_error hr]
    exact refl h

theorem store {f : Field} (hv : h.isCell v = true → (h.cellAt v.index).t ≠ .freeT)
    (hw : f = .t → w ≠ .freeT) : h.Evolves (final (store v f w) h) := by
  unfold final
  cases hr : Heap.store v f w h with
  | ok u h' =>
    refine .single (.write (hv ?_) hw hr)
    unfold Heap.store at hr
    split at hr
    · assumption
    · cases hr
  | error e h' =>
    rw [store_error hr]
    exact refl h

theorem storePair {f : Field} (hv : h.isPair v = true) (hf : f ≠ .t) :
    h.Evolves (final (Heap.store v f w) h) := by
  refine store (fun _ => ?_) fun e => absurd e hf
  obtain ⟨i, rfl, -, ht⟩ := hasType_iff.1 hv
  change (h.cellAt i).t ≠ .freeT
  rw [ht]
  decide

theorem setCar (v x : Word) : h.Evolves (final (Heap.setCar v x) h) := by
  change h.Evolves (final (if h.isPair v = true then _ else _) h)
  split
  · next hv => exact final_bind Evolves trans (storePair hv (by decide)) fun _ h' _ => refl h'
  · exact refl h

theorem setCdr (v y : Word) : h.Evolves (final (Heap.setCdr v y) h) := by
  change h.Evolves (final (if h.isPair v = true then _ else _) h)
  split
  · next hv => exact final_bind Evolves trans (storePair hv (by decide)) fun _ h' _ => refl h'
  · exact refl h

theorem prepend (items : List Word) (tail : Word) : h.Evolves (final (prepend items tail) h) := by
  unfold Heap.prepend
  induction items with
  | nil => exact refl h
  | cons w items ih =>
    rw [List.foldrM_cons]
    exact final_bind Evolves trans ih fun v h' _ => cons w v

theorem freeSpine (v : Word) : h.Evolves (final (freeSpine v) h) := by
  change h.Evolves (final (freeSpine.go ⟨h.sanity, "free spine"⟩ v) h)
  generalize h.sanity = n
  induction n generalizing h v with
  | zero =>
    unfold freeSpine.go
    change h.Evolves
      (final (if (h.isPair v && decide (h.permanent ≤ v.index)) = true then _ else _) h)
    split <;> exact refl h
  | succ n ih =>
    unfold freeSpine.go
    change h.Evolves
      (final (if (h.isPair v && decide (h.permanent ≤ v.index)) = true then _ else _) h)
    split
    · exact final_bind Evolves trans (free v) fun _ h' _ => ih (h.cdr v)
    · exact refl h

end Evolves

/-- Permanent cells that are in use stay so, and the size of the heap is fixed. -/
structure Endures (h h' : Heap) : Prop where
  permanent_le : h.permanent ≤ h'.permanent
  inUse : ∀ i < h.permanent, (h.cellAt i).t ≠ .freeT → (h'.cellAt i).t ≠ .freeT
  capacity : h'.capacity = h.capacity
  sanity : h'.sanity = h.sanity

namespace Endures

theorem refl (h : Heap) : h.Endures h := ⟨Nat.le_refl _, fun _ _ hi => hi, rfl, rfl⟩

theorem trans {h'' : Heap} (h₁ : h.Endures h') (h₂ : h'.Endures h'') : h.Endures h'' :=
  ⟨Nat.le_trans h₁.permanent_le h₂.permanent_le,
    fun i hi hu => h₂.inUse i (Nat.lt_of_lt_of_le hi h₁.permanent_le) (h₁.inUse i hi hu),
    h₂.capacity.trans h₁.capacity, h₂.sanity.trans h₁.sanity⟩

theorem of_same (hp : h'.permanent = h.permanent)
    (hsame : ∀ i < h.permanent, h'.cellAt i = h.cellAt i)
    (hc : h'.capacity = h.capacity) (hs : h'.sanity = h.sanity) : h.Endures h' :=
  ⟨Nat.le_of_eq hp.symm, fun i hi hu => by rwa [hsame i hi], hc, hs⟩

end Endures

theorem sealCells_ok {n : Notice} (hf : h.FreeList l) (he : sealCells h = .ok n h') :
    h' = h.sealed := by
  rw [hf.sealCells_eq] at he
  split at he
  · cases he
    rfl
  · cases he

theorem Changes.freeList (hc : h.Changes h') (hf : h.FreeList l) : ∃ l', h'.FreeList l' := by
  cases hc with
  | take ht he =>
    obtain ⟨i, -, -, hl⟩ := hf.alloc he ht
    exact hl
  | give he => exact ⟨_, hf.free he⟩
  | write hu hw he =>
    obtain ⟨i, rfl, -, hset⟩ := store_ok hf.top_le he
    refine ⟨l, hf.sets hset hu ?_⟩
    rename_i f
    cases f with
    | t => exact hw rfl
    | x | y | z => exact hu
  | sealCells he =>
    rw [sealCells_ok hf he]
    exact ⟨[], hf.sealed⟩

theorem Changes.endures (hc : h.Changes h') (hf : h.FreeList l) : h.Endures h' := by
  cases hc with
  | take ht he =>
    obtain ⟨i, -, htake, -⟩ := hf.alloc he ht
    refine .of_same htake.permanent (fun j hj => htake.ne ?_) htake.capacity htake.sanity
    have := htake.permanent_le
    omega
  | give he =>
    obtain ⟨hp, htop, -, rfl⟩ := free_ok he
    refine .of_same rfl (fun j hj => ?_) (capacity_reclaim ..) rfl
    rw [cellAt_reclaim h (Nat.lt_of_lt_of_le htop hf.top_le), if_neg (by omega)]
  | write hu hw he =>
    obtain ⟨i, rfl, -, hset⟩ := store_ok hf.top_le he
    refine ⟨Nat.le_of_eq hset.permanent.symm, fun j hj hju => ?_, hset.capacity, hset.sanity⟩
    by_cases hji : j = i
    · subst hji
      rw [hset.self]
      rename_i f
      cases f with
      | t => exact hw rfl
      | x | y | z => exact hu
    · rwa [hset.ne hji]
  | sealCells he =>
    rw [sealCells_ok hf he]
    exact ⟨hf.permanent_le, fun _ _ hi => hi, rfl, rfl⟩

theorem Evolves.endures (he : h.Evolves h') (hf : h.FreeList l) :
    (∃ l', h'.FreeList l') ∧ h.Endures h' := by
  induction he with
  | refl => exact ⟨⟨l, hf⟩, .refl h⟩
  | tail _ hc ih =>
    obtain ⟨⟨l', hf'⟩, hend⟩ := ih
    exact ⟨hc.freeList hf', hend.trans (hc.endures hf')⟩

end Heap

inductive Request
  | alloc (c : Cell)
  | cons (head tail : Word)
  | free (v : Word)
  | store (v : Word) (f : Field) (w : Word)
  | setCar (v x : Word)
  | setCdr (v y : Word)
  | list (items : List Word)
  | freeSpine (v : Word)
  | sealCells

namespace Request

def run : Request → HeapM Unit
  | alloc c => do
    let _ ← Heap.alloc c
    return ()
  | cons head tail => do
    let _ ← Heap.cons head tail
    return ()
  | free v => Heap.free v
  | store v f w => Heap.store v f w
  | setCar v x => do
    let _ ← Heap.setCar v x
    return ()
  | setCdr v y => do
    let _ ← Heap.setCdr v y
    return ()
  | list items => do
    let _ ← ofItems items
    return ()
  | freeSpine v => Heap.freeSpine v
  | sealCells => do
    let _ ← Heap.sealCells
    return ()

def Lawful (h : Heap) : Request → Prop
  | alloc c => c.t ≠ .freeT
  | store v f w => (h.isCell v = true → (h.cellAt v.index).t ≠ .freeT) ∧ (f = .t → w ≠ .freeT)
  | _ => True

instance (h : Heap) : (r : Request) → Decidable (r.Lawful h)
  | alloc _ => inferInstanceAs (Decidable (_ ≠ _))
  | store .. => inferInstanceAs (Decidable (_ ∧ _))
  | cons .. | free _ | setCar .. | setCdr .. | list _ | freeSpine _ | sealCells => isTrue trivial

def isAtomic : Request → Bool
  | alloc _ | cons .. | free _ | store .. | sealCells => true
  | setCar .. | setCdr .. | list _ | freeSpine _ => false

theorem evolves (r : Request) (hr : r.Lawful h) (hf : h.FreeList l) :
    h.Evolves (final r.run h) := by
  have hdone : ∀ {γ : Type} {act : HeapM γ}, h.Evolves (final act h) →
      h.Evolves (final (act >>= fun _ => pure ()) h) := fun ha =>
    final_bind Heap.Evolves Heap.Evolves.trans ha fun _ h' _ => .refl h'
  cases r with
  | alloc c => exact hdone (.alloc hr)
  | cons head tail => exact hdone (.cons head tail)
  | free v => exact .free v
  | store v f w => exact .store hr.1 hr.2
  | setCar v x => exact hdone (.setCar v x)
  | setCdr v y => exact hdone (.setCdr v y)
  | list items => exact hdone (.prepend items .nil)
  | freeSpine v => exact .freeSpine v
  | sealCells =>
    refine hdone ?_
    unfold final
    cases he : Heap.sealCells h with
    | ok n h' => exact .single (.sealCells he)
    | error f h' =>
      rw [hf.sealCells_eq] at he
      split at he
      · cases he
      · cases he
        exact .refl h

theorem unchanged_of_error {r : Request} (ha : r.isAtomic = true) (hf : h.FreeList l)
    (he : r.run h = .error f h') : h' = h := by
  have hinv : ∀ {γ : Type} {act : HeapM γ}, (act >>= fun _ => pure ()) h = .error f h' →
      act h = .error f h' := by
    intro γ act hr
    change EStateM.bind act _ h = _ at hr
    unfold EStateM.bind at hr
    cases hact : act h with
    | ok a h'' =>
      rw [hact] at hr
      cases hr
    | error e h'' =>
      rw [hact] at hr
      cases hr
      rfl
  cases r with
  | alloc c => exact (Heap.alloc_error (hinv he)).2.2.2
  | cons head tail => exact (Heap.alloc_error (hinv he)).2.2.2
  | free v => exact Heap.free_error he
  | store v f w => exact Heap.store_error he
  | sealCells =>
    have he := hinv he
    rw [hf.sealCells_eq] at he
    split at he
    · cases he
    · cases he
      rfl
  | setCar | setCdr | list | freeSpine => cases ha

end Request

namespace Heap

/-- Requests were made of the heap and collections have swept it, whether or not they succeeded. -/
inductive Worked : Heap → Heap → Prop
  | refl (h : Heap) : Worked h h
  | request {h h' : Heap} (r : Request) : Worked h h' → r.Lawful h' → Worked h (final r.run h')
  | collect {h h' : Heap} (gc : MarkSweep) (roots : Roots) (dump : Bool) : Worked h h' →
      Worked h (gc.markAndSweep roots dump h').2.heap

theorem Worked.endures (hw : Worked h h') (hf : h.FreeList l) :
    (∃ l', h'.FreeList l') ∧ h.Endures h' := by
  induction hw with
  | refl => exact ⟨⟨l, hf⟩, .refl h⟩
  | request r _ hr ih =>
    obtain ⟨⟨l', hf'⟩, hend⟩ := ih
    obtain ⟨hl, hend'⟩ := (r.evolves hr hf').endures hf'
    exact ⟨hl, hend.trans hend'⟩
  | collect gc roots dump _ ih =>
    obtain ⟨⟨l', hf'⟩, hend⟩ := ih
    have hs := MarkSweep.swept_markAndSweep gc roots dump hf'
    refine ⟨⟨_, MarkSweep.freeList_markAndSweep gc roots dump hf'⟩, hend.trans ?_⟩
    exact .of_same hs.permanent (fun i hi => MarkSweep.kept_markAndSweep gc roots dump hf'
      (.inl hi))
      hs.capacity (MarkSweep.sanity_markAndSweep ..)

namespace FreeList

theorem length_le (hf : h.FreeList l) : l.length ≤ h.top - h.permanent := by
  have hsub : l ⊆ List.range' h.permanent (h.top - h.permanent) := by
    intro i hi
    have := (hf.mem_iff i).1 hi
    rw [List.mem_range'_1]
    omega
  simpa using (List.subperm_of_subset hf.chain.nodup hsub).length_le

theorem inUse_add (hf : h.FreeList l) : h.inUse + h.freeCount = h.top := by
  have := hf.length_le
  have := hf.count
  unfold inUse
  omega

theorem freeListLength_eq (hf : h.FreeList l) (hs : l.length ≤ h.sanity) :
    h.freeListLength = .ok l.length := by
  have hfree : ∀ i ∈ l, i < h.top ∧ (h.cellAt i).t = .freeT := fun i hi => ((hf.mem_iff i).1 hi).2
  have hc := hf.chain
  unfold freeListLength budget
  generalize h.freeHead = p, h.sanity = n at hc hs
  clear hf
  induction l generalizing p n with
  | nil =>
    unfold freeListLength.go
    rw [if_pos (show p = .nil from hc)]
    rfl
  | cons i l ih =>
    have hne := hc.ne_nil
    obtain ⟨rfl, -, hc⟩ := hc
    obtain ⟨ht, hu⟩ := hfree i List.mem_cons_self
    cases n with
    | zero => exact absurd hs (Nat.not_succ_le_zero _)
    | succ n =>
      have ih := ih (fun j hj => hfree j (List.mem_cons_of_mem i hj)) _ n hc
        (Nat.le_of_succ_le_succ hs)
      have hcell : h.cell (.ref i) = .ok (h.cellAt i) := if_pos (decide_eq_true ht)
      unfold freeListLength.go
      rw [if_neg hne]
      change Except.bind (h.cell (.ref i)) _ = _
      rw [hcell]
      change (if (h.cellAt i).t = .freeT then _ else _ : Except Fault Nat) = _
      rw [if_pos hu]
      change Except.bind (freeListLength.go h ⟨n, "free list walk"⟩ ((h.cellAt i).get .z)) _ = _
      rw [ih]
      rfl

theorem alloc_error_iff (hf : h.FreeList l) :
    Heap.alloc c h = .error f h' ↔ h.inUse = h.capacity ∧ f = .heapExhausted h.capacity ∧
      h' = h := by
  have hadd := hf.inUse_add
  have htop := hf.top_le
  constructor
  · intro he
    obtain ⟨hn, hle, hfault, hsame⟩ := alloc_error he
    cases l with
    | nil =>
      have : h.freeCount = 0 := hf.count
      exact ⟨by omega, hfault, hsame⟩
    | cons i l => exact absurd hn hf.chain.ne_nil
  · rintro ⟨hu, hfault, hsame⟩
    have hzero : h.freeCount = 0 := by omega
    obtain rfl : l = [] := List.length_eq_zero_iff.1 (hf.count.symm.trans hzero)
    have hn : h.freeHead = .nil := hf.chain
    unfold Heap.alloc
    rw [if_neg (fun e => e hn), if_neg (by omega), hfault, hsame]

end FreeList

/-- The free list of a heap that was worked on consists of exactly the free cells above the
permanent ones. Nothing sealed or in use is handed out, what is sealed stays in use, memory runs out
when every cell is in use and only then, and a request that is met at once or not at all changes
nothing if it fails. -/
theorem Worked.allocates {capacity : Nat} (hw : Worked (Heap.new capacity) h) :
    Word.reserved ≤ h.permanent ∧ h.permanent ≤ h.top ∧ h.top ≤ h.capacity ∧
    (∃ l, h.Chain .z h.freeHead l ∧ l.Nodup ∧
      (∀ i, i ∈ l ↔ h.permanent ≤ i ∧ i < h.top ∧ (h.cellAt i).t = .freeT) ∧
      h.freeCount = l.length ∧ h.freeListLength = .ok l.length) ∧
    h.inUse + h.freeCount = h.top ∧
    (∀ c v h', c.t ≠ .freeT → alloc c h = .ok v h' →
      ∃ i, v = .ref i ∧ h.permanent ≤ i ∧ (h.top ≤ i ∨ (h.cellAt i).t = .freeT) ∧ h'.cellAt i = c) ∧
    (∀ c f h', alloc c h = .error f h' ↔
      h.inUse = h.capacity ∧ f = .heapExhausted h.capacity ∧ h' = h) ∧
    (∀ h', Worked h h' → ∀ i < h.permanent, (h.cellAt i).t ≠ .freeT →
      i < h'.permanent ∧ (h'.cellAt i).t ≠ .freeT) ∧
    ∀ r : Request, r.isAtomic = true → ∀ f h', r.run h = .error f h' → h' = h := by
  obtain ⟨⟨l, hf⟩, hend⟩ := hw.endures (freeList_new capacity (max capacity (Word.reserved + 1)))
  have hsanity : h.sanity = h.capacity := by
    rw [hend.sanity, hend.capacity]
    simp [Heap.new, Heap.capacity]
  have hlen : l.length ≤ h.sanity := by
    have := hf.length_le
    have := hf.top_le
    omega
  refine ⟨hf.reserved_le, hf.permanent_le, hf.top_le,
    ⟨l, hf.chain, hf.chain.nodup, hf.mem_iff, hf.count, hf.freeListLength_eq hlen⟩, hf.inUse_add,
    ?_, ?_, ?_, ?_⟩
  · intro c v h' hc he
    obtain ⟨i, rfl, htake, -⟩ := hf.alloc he hc
    refine ⟨i, rfl, htake.permanent_le, ?_, htake.self⟩
    exact (Nat.lt_or_ge i h.top).symm.imp_right htake.fresh
  · intro c f h'
    exact hf.alloc_error_iff
  · intro h' hw' i hi hu
    obtain ⟨-, hend'⟩ := hw'.endures hf
    exact ⟨Nat.lt_of_lt_of_le hi hend'.permanent_le, hend'.inUse i hi hu⟩
  · intro r ha f h' he
    exact Request.unchanged_of_error ha hf he

theorem Worked.allocates_exhausted :
    ∃ h, Worked (Heap.new 17) h ∧ (h.cellAt 14).t = .freeT ∧ h.freeCount = 0 ∧
    ∀ c, alloc c h = .error (.heapExhausted 17) h := by
  -- A cell is sealed while it is free, a list is taken and given back, and a longer one fails half
  -- way. Then nothing is left, although one of the permanent cells is free.
  have h₁ : Worked (Heap.new 17) _ := .request (.free (.ref 14)) (.request (.cons .nil .nil)
    (.request (.cons .nil .nil) (.refl _) trivial) trivial) trivial
  have h₂ : Worked (Heap.new 17) _ := .request (.freeSpine (.ref 16))
    (.request (.list [.fix 1, .fix 2])
    (.request .sealCells h₁ trivial) trivial) trivial
  have h₃ : Worked (Heap.new 17) _ := .request (.list [.fix 1, .fix 2, .fix 3]) h₂ trivial
  refine ⟨_, h₃, by decide +kernel, by decide +kernel, fun c => ?_⟩
  obtain ⟨-, -, -, -, -, -, hfail, -⟩ := h₃.allocates
  exact (hfail c _ _).2 ⟨by decide +kernel, by decide +kernel, rfl⟩

end Heap

end ActorMachine
