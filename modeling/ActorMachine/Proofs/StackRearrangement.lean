import ActorMachine.Proofs.OpenTransaction
import ActorMachine.Proofs.Spelling
import ActorMachine.Proofs.Success
import Mathlib.Data.List.InsertIdx

namespace ActorMachine

open Machine

variable {α β : Type} {t i : Nat} {l l' l'' : List Nat} {s s' : List Word} {m m' m'' : Machine}
  {v w : Word}
variable {n : Int}

/-- The thread runs, and has the pairs of its stack for itself. They hold these words. -/
structure Holds (t : Nat) (l : List Nat) (s : List Word) (m : Machine) : Prop where
  allocator : ∃ k, m.heap.FreeList k
  pristine : m.heap.Pristine
  head : m.threads.head = .ref t
  live : m.heap.Live t
  pairs : m.heap.Pairs (m.heap.cellAt t).x l
  apart : t ∉ l
  loose : ∀ i ∈ l, m.heap.permanent ≤ i
  values : l.map (fun i => (m.heap.cellAt i).x) = s

/-- The thread has another stack. Only its pairs have changed, and where the thread finds them. -/
structure Restacks (t : Nat) (l l' : List Nat) (m m' : Machine) : Prop where
  rest : m' = { m with heap := m'.heap, log := m'.log }
  same : ∀ i, i ≠ t → i ∉ l → i ∉ l' → m'.heap.cellAt i = m.heap.cellAt i
  thread : ∀ f, f ≠ .x → (m'.heap.cellAt t).get f = (m.heap.cellAt t).get f
  fresh : ∀ i ∈ l', i ∈ l ∨ ¬ m.heap.Live i
  top_le : m.heap.top ≤ m'.heap.top
  permanent : m'.heap.permanent = m.heap.permanent
  capacity : m'.heap.capacity = m.heap.capacity
  sanity : m'.heap.sanity = m.heap.sanity
  inUse : m'.heap.inUse + l.length = m.heap.inUse + l'.length

theorem Machine.achieves_setStack (hf : ∃ k, m.heap.FreeList k) (hh : m.threads.head = .ref t)
    (ht : m.heap.Live t) :
    Achieves (setStack w) m fun _ m' => m' = { m with heap := m'.heap } ∧
      m.heap.Sets t ((m.heap.cellAt t).set .x w) m'.heap ∧ ∃ k, m'.heap.FreeList k := by
  obtain ⟨k, hk⟩ := hf
  have hthread : thread m = .ok (.ref t) m := by
    change EStateM.Result.ok m.threads.head m = _
    rw [hh]
  unfold setStack
  rw [achieves_bind hthread]
  refine achieves_onHeap ((hk.achieves_write (f := .x) (w := w) ht nofun).mono ?_)
  rintro - h ⟨hset, hf⟩
  exact ⟨rfl, hset, k, hf⟩

theorem Machine.achieves_setCdr (hf : ∃ k, m.heap.FreeList k) (hp : m.heap.isPair (.ref i) = true) :
    Achieves (setCdr (.ref i) w) m fun _ m' => m' = { m with heap := m'.heap } ∧
      m.heap.Sets i ((m.heap.cellAt i).set .y w) m'.heap ∧ ∃ k, m'.heap.FreeList k := by
  obtain ⟨k, hk⟩ := hf
  unfold setCdr Heap.setCdr
  refine Achieves.bind (Q := fun n m' => n = none ∧ m' = { m with heap := m'.heap } ∧
    m.heap.Sets i ((m.heap.cellAt i).set .y w) m'.heap ∧ ∃ k,
    m'.heap.FreeList k) (achieves_onHeap ?_) ?_
  · rw [achieves_get_bind, hp, if_pos rfl]
    refine (hk.achieves_write (f := .y) (w := w) (Heap.live_of_isPair hp) nofun).bind ?_
    rintro - h ⟨hset, hf⟩
    exact ⟨none, h, rfl, rfl, rfl, hset, k, hf⟩
  · rintro n m' ⟨rfl, hrest, hset, hf⟩
    exact ⟨(), m', by simp [noteAll]; rfl, hrest, hset, hf⟩

theorem Cell.ext_get {c c' : Cell} (h : ∀ f, c.get f = c'.get f) : c = c' := by
  obtain ⟨t, x, y, z⟩ := c
  obtain ⟨t', x', y', z'⟩ := c'
  have ht := h .t
  have hx := h .x
  have hy := h .y
  have hz := h .z
  simp only [Cell.get] at ht hx hy hz
  rw [ht, hx, hy, hz]

theorem Restacks.refl (t : Nat) (l : List Nat) (m : Machine) : Restacks t l l m m :=
  ⟨rfl, fun _ _ _ _ => rfl, fun _ _ => rfl, fun _ => .inl, Nat.le_refl _, rfl, rfl, rfl, rfl⟩

theorem Restacks.trans (h₁ : Restacks t l l' m m') (h₂ : Restacks t l' l'' m' m'') (ha : t ∉ l'')
    (hl : ∀ i ∈ l', i ∈ l ∨ i ∈ l'') : Restacks t l l'' m m'' where
  rest := by rw [h₂.rest, h₁.rest]
  same i ht hi hi'' := by
    have hi' : i ∉ l' := fun h => (hl i h).elim hi hi''
    rw [h₂.same i ht hi' hi'', h₁.same i ht hi hi']
  thread f hf := by rw [h₂.thread f hf, h₁.thread f hf]
  fresh i hi := by
    obtain hi' | hdead := h₂.fresh i hi
    · exact h₁.fresh i hi'
    · by_cases hi' : i ∈ l'
      · exact h₁.fresh i hi'
      · by_cases hil : i ∈ l
        · exact .inl hil
        · refine .inr fun hlive => hdead ⟨Nat.lt_of_lt_of_le hlive.1 h₁.top_le, ?_⟩
          rw [h₁.same i (fun h => ha (h ▸ hi)) hil hi']
          exact hlive.2
  top_le := Nat.le_trans h₁.top_le h₂.top_le
  permanent := h₂.permanent.trans h₁.permanent
  capacity := h₂.capacity.trans h₁.capacity
  sanity := h₂.sanity.trans h₁.sanity
  inUse := by
    have := h₁.inUse
    have := h₂.inUse
    omega

namespace Holds

section Holds

variable (hs : Holds t l s m)

include hs

theorem length_eq : l.length = s.length := by rw [← hs.values, List.length_map]

theorem inUse_le : m.heap.inUse ≤ m.heap.capacity := by
  obtain ⟨k, hk⟩ := hs.allocator
  have := hk.inUse_add
  have := hk.top_le
  omega

theorem reserved_le : Word.reserved ≤ t := by
  refine Nat.le_of_not_lt fun hlt => ?_
  have hx : (m.heap.cellAt t).x = .undefined := by
    rw [hs.pristine t hlt]
    unfold Cell.initial
    split <;> rfl
  have hp := hs.pairs.1
  rw [hx] at hp
  cases l with
  | nil => exact absurd (show Word.undefined = .nil from hp) (by decide)
  | cons i l =>
    obtain ⟨hi, hle, -⟩ := hp
    cases hi
    exact absurd hle (by decide)

theorem next (hrest : m' = { m with heap := m'.heap, log := m'.log })
    (hf : ∃ k, m'.heap.FreeList k) (hsame : ∀ i, i ≠ t → i ∉ l → i ∉ l' →
      m'.heap.cellAt i = m.heap.cellAt i)
    (hthread : m'.heap.cellAt t = (m.heap.cellAt t).set .x w) (hp : m'.heap.Pairs w l')
    (hl : ∀ i ∈ l', i ≠ t ∧ m.heap.permanent ≤ i ∧ (i ∈ l ∨ ¬ m.heap.Live i))
    (hv : l'.map (fun i => (m'.heap.cellAt i).x) = s') (htop : m.heap.top ≤ m'.heap.top)
    (hperm : m'.heap.permanent = m.heap.permanent) (hcap : m'.heap.capacity = m.heap.capacity)
    (hsan : m'.heap.sanity = m.heap.sanity)
    (huse : m'.heap.inUse + l.length = m.heap.inUse + l'.length) :
    Holds t l' s' m' ∧ Restacks t l l' m m' := by
  obtain ⟨k, hk⟩ := hs.allocator
  have hx : (m'.heap.cellAt t).x = w := by
    rw [hthread]
    rfl
  have hlive : m'.heap.Live t := by
    refine ⟨Nat.lt_of_lt_of_le hs.live.1 htop, ?_⟩
    rw [hthread]
    exact hs.live.2
  have hreserved : ∀ i, i < Word.reserved → i ≠ t ∧ i ∉ l ∧ i ∉ l' := fun i hi => by
    have hle := Nat.lt_of_lt_of_le hi hk.reserved_le
    refine ⟨fun h => Nat.not_le.2 hi (h ▸ hs.reserved_le), fun h => ?_, fun h => ?_⟩
    · exact Nat.not_le.2 hle (hs.loose i h)
    · exact Nat.not_le.2 hle (hl i h).2.1
  refine ⟨⟨hf, fun i hi => ?_, ?_, hlive, hx ▸ hp, fun h => (hl t h).1 rfl, fun i hi => ?_, hv⟩,
    hrest, hsame, fun f hf => ?_, fun i hi => (hl i hi).2.2, htop, hperm, hcap, hsan, huse⟩
  · obtain ⟨h1, h2, h3⟩ := hreserved i hi
    rw [hsame i h1 h2 h3]
    exact hs.pristine i hi
  · rw [hrest]
    exact hs.head
  · rw [hperm]
    exact (hl i hi).2.1
  · rw [hthread, Cell.get_set_ne _ _ hf]

theorem stack_eq : stack m = .ok (m.heap.cellAt t).x m := by
  have ht : thread m = .ok (.ref t) m := by
    change EStateM.Result.ok m.threads.head m = _
    rw [hs.head]
  unfold stack
  rw [run_bind ht]
  exact fetch_eq hs.live.1

theorem depth_eq (hd : s.length ≤ m.heap.sanity) : depth m = .ok s.length m := by
  unfold depth
  rw [run_bind hs.stack_eq]
  refine ask_eq_ok.2 ⟨rfl, ?_⟩
  unfold Heap.listLength
  rw [hs.pairs.spine_ok hs.pristine.not_isPair_nil (hs.length_eq ▸ hd), ← hs.length_eq]
  simp [Functor.map, Except.map]

theorem achieves_push (hroom : m.heap.inUse < m.heap.capacity) (v : Word) :
    Achieves (push v) m fun _ m' => ∃ i, Holds t (i :: l) (v :: s) m' ∧
      Restacks t l (i :: l) m m' := by
  obtain ⟨k, hk⟩ := hs.allocator
  unfold push Heap.cons
  rw [achieves_bind hs.stack_eq]
  have htake := achieves_onHeap (m := m) (Q := fun v' m' => ∃ i, v' = .ref i ∧
      m' = { m with heap := m'.heap } ∧ m.heap.Takes i ⟨.pairT, v, (m.heap.cellAt t).x,
        .undefined⟩ m'.heap ∧
      m.heap.Reworks (fun _ => False) m'.heap ∧ m'.heap.inUse = m.heap.inUse + 1)
    ((hk.achieves_take hroom (show Word.pairT ≠ .freeT by decide)).mono
      fun _ h ⟨i, hv, ht, hr, hu⟩ => ⟨i, hv, rfl, ht, hr, hu⟩)
  refine htake.bind ?_
  rintro w m₁ ⟨i, rfl, hrest₁, ht, hr, hu⟩
  have hit : i ≠ t := fun h => ht.not_live (h ▸ hs.live)
  have hil : ∀ j ∈ l, j ≠ i := fun j hj h => ht.not_live (h ▸ Heap.live_of_isPair (hs.pairs.2 j hj))
  have hthread := ht.ne hit.symm
  have hs₁ : Holds t l s m₁ := by
    refine ⟨hr.allocator, fun j hj => ?_, by rw [hrest₁]; exact hs.head, hr.live hs.live id,
      ?_, hs.apart, fun j hj => ?_, ?_⟩
    · rw [ht.ne fun h => ?_, hs.pristine j hj]
      exact Nat.not_le.2 hj (h ▸ Nat.le_trans hk.reserved_le ht.permanent_le)
    · rw [hthread]
      exact hr.pairs hs.pairs fun _ _ => id
    · rw [hr.permanent]
      exact hs.loose j hj
    · rw [← hs.values]
      exact List.map_congr_left fun j hj => by rw [ht.ne (hil j hj)]
  refine (achieves_setStack hs₁.allocator hs₁.head hs₁.live).mono ?_
  rintro - m₂ ⟨hrest₂, hset, hf⟩
  have hsame : ∀ j ∈ l, m₂.heap.cellAt j = m.heap.cellAt j := fun j hj => by
    rw [hset.ne fun h => hs.apart (h ▸ hj), ht.ne (hil j hj)]
  have hcell : m₂.heap.cellAt i = ⟨.pairT, v, (m.heap.cellAt t).x, .undefined⟩ := by
    rw [hset.ne hit, ht.self]
  have htop : m.heap.top ≤ m₂.heap.top := Nat.le_trans hr.top_le (Nat.le_of_eq hset.top.symm)
  refine ⟨i, hs.next (w := .ref i) ?_ hf ?_ ?_ ?_ ?_ ?_ htop ?_ ?_ ?_ ?_⟩
  · rw [hrest₂, hrest₁]
  · intro j hjt _ hj
    rw [hset.ne hjt, ht.ne fun h => hj (by simp [h])]
  · rw [hset.self, hthread]
  · have hrest := hs.pairs.congr htop hsame
    refine ⟨⟨rfl, Nat.le_trans hk.reserved_le ht.permanent_le, ?_⟩,
      List.forall_mem_cons.2 ⟨?_, hrest.2⟩⟩
    · rw [hcell]
      exact hrest.1
    · exact Heap.isPair_iff.2 ⟨i, rfl, hset.top ▸ ht.lt_top, by rw [hcell]⟩
  · intro j hj
    obtain rfl | hj := List.mem_cons.1 hj
    · exact ⟨hit, ht.permanent_le, .inr ht.not_live⟩
    · exact ⟨fun h => hs.apart (h ▸ hj), hs.loose j hj, .inl hj⟩
  · rw [List.map_cons, hcell, ← hs.values]
    exact congrArg _ (List.map_congr_left fun j hj => by rw [hsame j hj])
  · rw [hset.permanent, hr.permanent]
  · rw [hset.capacity, hr.capacity]
  · rw [hset.sanity, hr.sanity]
  · rw [hset.inUse, hu, List.length_cons]
    omega

end Holds

theorem achieves_pop (hs : Holds t (i :: l) (v :: s) m) :
    Achieves pop m fun w m' => w = v ∧ Holds t l s m' ∧ Restacks t (i :: l) l m m' := by
  obtain ⟨hx, hcdr, hrest⟩ := hs.pairs.cdr
  have hpair := hs.pairs.2 i List.mem_cons_self
  have hil : i ∉ l := (List.nodup_cons.1 hs.pairs.1.nodup).1
  have hit : i ≠ t := fun h => hs.apart (by simp [h])
  have hlt : ∀ j ∈ l, j ≠ t := fun j hj h => hs.apart (h ▸ List.mem_cons_of_mem i hj)
  obtain ⟨hv, hvs⟩ := List.cons.inj hs.values
  unfold pop
  rw [achieves_bind hs.stack_eq, achieves_look_bind]
  rw [hx] at hcdr ⊢
  rw [hpair, if_pos rfl]
  simp only [achieves_look_bind]
  rw [hcdr, Heap.car_eq hpair]
  refine (achieves_setStack hs.allocator hs.head hs.live).bind ?_
  rintro - m₁ ⟨hrest₁, hset, k, hf⟩
  have hi₁ : m₁.heap.Live i := hset.live nofun (Heap.live_of_isPair hpair)
  have hp₁ : m₁.heap.permanent ≤ i := hset.permanent ▸ hs.loose i List.mem_cons_self
  refine Achieves.bind (achieves_onHeap (Q := fun _ m' => m' = { m₁ with heap := m'.heap } ∧
    m'.heap = m₁.heap.reclaim i ∧ m'.heap.FreeList (i :: k) ∧ m'.heap.inUse + 1 = m₁.heap.inUse)
    ((hf.achieves_give hp₁ hi₁).mono fun _ h ⟨h1, h2, h3⟩ => ⟨rfl, h1, h2, h3⟩)) ?_
  rintro - m₂ ⟨hrest₂, hheap, hf₂, hu⟩
  have hsame : ∀ j, j ≠ i → m₂.heap.cellAt j = m₁.heap.cellAt j := fun j hj => by
    rw [hheap, Heap.cellAt_reclaim _ (Nat.lt_of_lt_of_le hi₁.1 hf.top_le), if_neg hj]
  have hsame₂ : ∀ j ∈ l, m₂.heap.cellAt j = m.heap.cellAt j := fun j hj => by
    rw [hsame j fun h => hil (h ▸ hj), hset.ne (hlt j hj)]
  have htop : m₂.heap.top = m.heap.top := by rw [hheap, Heap.top_reclaim, hset.top]
  refine ⟨v, m₂, by rw [← hv]; rfl, rfl, hs.next (w := (m.heap.cellAt i).y) ?_ ⟨_,
    hf₂⟩ ?_ ?_ ?_ ?_ ?_
    (Nat.le_of_eq htop.symm) ?_ ?_ ?_ ?_⟩
  · rw [hrest₂, hrest₁]
  · intro j hjt hj _
    rw [hsame j fun h => hj (by simp [h]), hset.ne hjt]
  · rw [hsame t hit.symm, hset.self]
  · exact hrest.congr (Nat.le_of_eq htop.symm) hsame₂
  · intro j hj
    exact ⟨hlt j hj, hs.loose j (List.mem_cons_of_mem i hj), .inl (List.mem_cons_of_mem i hj)⟩
  · rw [← hvs]
    exact List.map_congr_left fun j hj => by rw [hsame₂ j hj]
  · rw [hheap, Heap.permanent_reclaim, hset.permanent]
  · rw [hheap, Heap.capacity_reclaim, hset.capacity]
  · rw [hheap, Heap.sanity_reclaim, hset.sanity]
  · have := hset.inUse
    rw [List.length_cons]
    omega

theorem achieves_pop_nil (hs : Holds t [] [] m) :
    Achieves pop m fun _ m' => Holds t [] [] m' ∧ Restacks t [] [] m m' := by
  have hn := hs.pristine.not_isPair_nil
  rw [← (hs.pairs.1 : _ = Word.nil)] at hn
  have ht : thread m = .ok (.ref t) m := by
    change EStateM.Result.ok m.threads.head m = _
    rw [hs.head]
  unfold pop
  rw [achieves_bind hs.stack_eq, achieves_look_bind, hn]
  simp only [Bool.false_eq_true, if_false]
  rw [achieves_bind ht, achieves_bind (fetch_eq hs.live.1)]
  refine ⟨_, { m with log := _ }, rfl, ⟨hs.allocator, hs.pristine, hs.head, hs.live, hs.pairs,
    hs.apart, hs.loose, hs.values⟩, ?_⟩
  exact ⟨rfl, fun _ _ _ _ => rfl, fun _ _ => rfl, fun _ => .inl, Nat.le_refl _, rfl, rfl, rfl, rfl⟩

theorem achieves_popN (hs : Holds t l s m) {n : Nat} (hn : n ≤ s.length) :
    Achieves (popN n) m fun vs m' =>
      vs = s.take n ∧ Holds t (l.drop n) (s.drop n) m' ∧ Restacks t l (l.drop n) m m' := by
  induction n generalizing l s m with
  | zero => exact ⟨[], m, rfl, rfl, hs, .refl t l m⟩
  | succ n ih =>
    have hlen := hs.length_eq
    cases l with
    | nil => simp at hlen; omega
    | cons i l =>
      cases s with
      | nil => simp at hlen
      | cons v s =>
        unfold popN
        refine hs.achieves_pop.bind ?_
        rintro w m₁ ⟨rfl, hs₁, hr₁⟩
        refine (ih hs₁ (Nat.le_of_succ_le_succ hn)).bind ?_
        rintro vs m₂ ⟨rfl, hs₂, hr₂⟩
        exact ⟨_, m₂, rfl, rfl, hs₂, hr₁.trans hr₂ hs₂.apart fun j hj =>
          .inl (List.mem_cons_of_mem i hj)⟩

theorem achieves_forM_push (hs : Holds t l s m) (vs : List Word)
    (hroom : m.heap.inUse + vs.length ≤ m.heap.capacity) :
    Achieves (vs.forM push) m fun _ m' =>
      ∃ l', Holds t l' (vs.reverse ++ s) m' ∧ Restacks t l l' m m' ∧ l ⊆ l' := by
  induction vs generalizing l s m with
  | nil => exact ⟨(), m, rfl, l, hs, .refl t l m, List.Subset.refl l⟩
  | cons v vs ih =>
    rw [List.length_cons] at hroom
    refine (hs.achieves_push (by omega) v).bind ?_
    rintro - m₁ ⟨i, hs₁, hr₁⟩
    have huse := hr₁.inUse
    have hcap := hr₁.capacity
    rw [List.length_cons] at huse
    refine (ih hs₁ (by omega)).mono ?_
    rintro - m₂ ⟨l', hs₂, hr₂, hl'⟩
    refine ⟨l', ?_, hr₁.trans hr₂ hs₂.apart fun j hj => .inr (hl' hj), fun j hj =>
      hl' (List.mem_cons_of_mem i hj)⟩
    rw [List.reverse_cons, List.append_assoc]
    exact hs₂

end Holds

def raise (n : Nat) (s : List α) : List α := s[n]?.toList ++ s.eraseIdx n

def sink (n : Nat) : List α → List α
  | [] => []
  | x :: s => s.insertIdx n x

theorem raise_append (s : List α) (x : α) (r : List α) :
    raise s.length (s ++ x :: r) = x :: (s ++ r) := by
  unfold raise
  rw [List.getElem?_append_right (Nat.le_refl _), List.eraseIdx_append_of_length_le (Nat.le_refl _)]
  simp

theorem sink_append (s : List α) (x : α) (r : List α) :
    sink s.length (x :: (s ++ r)) = s ++ x :: r := by
  induction s with
  | nil => rfl
  | cons y s ih => exact congrArg (y :: ·) ih

theorem map_raise (f : α → β) (n : Nat) (s : List α) : (raise n s).map f = raise n (s.map f) := by
  unfold raise
  rw [List.map_append, List.eraseIdx_map, List.getElem?_map]
  cases s[n]? <;> rfl

theorem map_sink (f : α → β) (n : Nat) (s : List α) : (sink n s).map f = sink n (s.map f) := by
  cases s with
  | nil => rfl
  | cons x s => exact List.map_insertIdx f s n x

theorem exists_append {n : Nat} {s : List α} (hn : n < s.length) :
    ∃ a x b, s = a ++ x :: b ∧ a.length = n := by
  refine ⟨s.take n, s[n], s.drop (n + 1), by simp, ?_⟩
  rw [List.length_take]
  omega

theorem sink_raise {n : Nat} {s : List α} (hn : n < s.length) : sink n (raise n s) = s := by
  obtain ⟨a, x, b, rfl, rfl⟩ := exists_append hn
  rw [raise_append, sink_append]

theorem raise_sink {n : Nat} {s : List α} (hn : n < s.length) : raise n (sink n s) = s := by
  cases s with
  | nil => cases hn
  | cons x s =>
    obtain rfl | hlt := Nat.eq_or_lt_of_le (Nat.le_of_lt_succ hn)
    · have := sink_append s x []
      rw [List.append_nil] at this
      rw [this, raise_append, List.append_nil]
    · obtain ⟨a, y, b, rfl, rfl⟩ := exists_append hlt
      rw [sink_append, raise_append]

/-- Item number `n`, counting from one, comes first, or for a negative number the first item goes to
that place. -/
def rolled (n : Int) (s : List α) : List α :=
  if 0 < n then raise (n.toNat - 1) s else sink (n.natAbs - 1) s

theorem map_rolled (f : α → β) (n : Int) (s : List α) :
    (rolled n s).map f = rolled n (s.map f) := by
  unfold rolled
  split
  · exact map_raise ..
  · exact map_sink ..

theorem rolled_neg_rolled {s : List α} (h1 : n ≠ 0) (hn : n.natAbs ≤ s.length) :
    rolled (-n) (rolled n s) = s := by
  have hlt : n.natAbs - 1 < s.length := by omega
  unfold rolled
  by_cases hpos : 0 < n
  · rw [if_neg (by omega), if_pos hpos, Int.natAbs_neg, show n.toNat = n.natAbs by omega,
      sink_raise hlt]
  · rw [if_pos (by omega), if_neg hpos, show (-n).toNat = n.natAbs by omega, raise_sink hlt]

namespace Heap

variable {F : Nat → Field → Prop} {h h' h'' : Heap} {f : Field}

structure Rewires (F : Nat → Field → Prop) (h h' : Heap) : Prop where
  same : ∀ i f, ¬ F i f → (h'.cellAt i).get f = (h.cellAt i).get f
  top : h'.top = h.top
  freeHead : h'.freeHead = h.freeHead
  freeCount : h'.freeCount = h.freeCount
  permanent : h'.permanent = h.permanent
  capacity : h'.capacity = h.capacity
  sanity : h'.sanity = h.sanity

theorem Sets.rewires (hs : h.Sets i ((h.cellAt i).set f w) h') (hF : F i f) : h.Rewires F h' := by
  refine ⟨fun j g hg => ?_, hs.top, hs.freeHead, hs.freeCount, hs.permanent, hs.capacity, hs.sanity⟩
  by_cases hj : j = i
  · subst hj
    have hgf : g ≠ f := by
      rintro rfl
      exact hg hF
    rw [hs.self, Cell.get_set_ne _ _ hgf]
  · rw [hs.ne hj]

namespace Rewires

theorem trans (h₁ : h.Rewires F h') (h₂ : h'.Rewires F h'') : h.Rewires F h'' where
  same i f hf := (h₂.same i f hf).trans (h₁.same i f hf)
  top := h₂.top.trans h₁.top
  freeHead := h₂.freeHead.trans h₁.freeHead
  freeCount := h₂.freeCount.trans h₁.freeCount
  permanent := h₂.permanent.trans h₁.permanent
  capacity := h₂.capacity.trans h₁.capacity
  sanity := h₂.sanity.trans h₁.sanity

theorem cellAt (hr : h.Rewires F h') (hi : ∀ f, ¬ F i f) : h'.cellAt i = h.cellAt i :=
  Cell.ext_get fun f => hr.same i f (hi f)

theorem freeList (hr : h.Rewires F h') (ht : ∀ i, ¬ F i .t) (hz : ∀ i, ¬ F i .z)
    (hf : h.FreeList l) :
    h'.FreeList l := by
  obtain ⟨h1, h2, h3, h4, h5, h6⟩ := hf
  refine ⟨hr.permanent ▸ h1, ?_, ?_, ?_, fun i => ?_, hr.freeCount.trans h6⟩
  · rwa [hr.permanent, hr.top]
  · rwa [hr.top, hr.capacity]
  · rw [hr.freeHead]
    exact h4.congr fun i _ => hr.same i .z (hz i)
  · rw [h5, hr.permanent, hr.top, show (h'.cellAt i).t = (h.cellAt i).t from hr.same i .t (ht i)]

theorem isPair (hr : h.Rewires F h') (ht : ¬ F i .t) (hp : h.isPair (.ref i) = true) :
    h'.isPair (.ref i) = true := by
  obtain ⟨j, hj, hlt, hp⟩ := isPair_iff.1 hp
  cases hj
  exact isPair_iff.2 ⟨i, rfl, hr.top ▸ hlt, (hr.same i .t ht).trans hp⟩

theorem inUse (hr : h.Rewires F h') : h'.inUse = h.inUse := by
  unfold Heap.inUse
  rw [hr.top, hr.freeCount]

end Rewires

theorem Chain.eq_links {v : Word} (hc : h.Chain f v l) (hc' : h'.Chain f w l) :
    w = v ∧ ∀ i ∈ l, (h'.cellAt i).get f = (h.cellAt i).get f := by
  induction l generalizing v w with
  | nil => exact ⟨hc'.trans hc.symm, by simp⟩
  | cons i l ih =>
    obtain ⟨rfl, -, hrest⟩ := hc
    obtain ⟨rfl, -, hrest'⟩ := hc'
    obtain ⟨hi, hl⟩ := ih hrest hrest'
    exact ⟨rfl, List.forall_mem_cons.2 ⟨hi, hl⟩⟩

end Heap

def Links (t : Nat) (l : List Nat) (i : Nat) (f : Field) : Prop := i = t ∧ f = .x ∨ i ∈ l ∧ f = .y

structure Relinks (t : Nat) (l l' : List Nat) (m m' : Machine) : Prop where
  rest : m' = { m with heap := m'.heap }
  rewires : m.heap.Rewires (Links t l) m'.heap
  chain : m'.heap.Chain .y (m'.heap.cellAt t).x l'
  perm : l'.Perm l

theorem Relinks.trans (h₁ : Relinks t l l' m m') (h₂ : Relinks t l' l'' m' m'') :
    Relinks t l l'' m m'' := by
  have hlinks : Links t l' = Links t l := by
    funext i f
    simp [Links, h₁.perm.mem_iff]
  exact ⟨by rw [h₂.rest, h₁.rest], h₁.rewires.trans (hlinks ▸ h₂.rewires), h₂.chain,
    h₂.perm.trans h₁.perm⟩

namespace Holds

theorem relinked (hs : Holds t l s m) (hr : Relinks t l l' m m')
    (hv : l'.map (fun i => (m.heap.cellAt i).x) = s') :
    Holds t l' s' m' ∧ Restacks t l l' m m' := by
  obtain ⟨k, hk⟩ := hs.allocator
  have hw := hr.rewires
  have hmem : ∀ i, i ∈ l' ↔ i ∈ l := fun i => hr.perm.mem_iff
  have htl : ∀ i ∈ l, i ≠ t := fun i hi h => hs.apart (h ▸ hi)
  refine hs.next (w := (m'.heap.cellAt t).x) (by rw [hr.rest]) ⟨k, hw.freeList ?_ ?_ hk⟩
    (fun i ht hi _ => ?_) ?_
    ⟨hr.chain, fun i hi => ?_⟩ ?_ ?_ (Nat.le_of_eq hw.top.symm) hw.permanent hw.capacity
    hw.sanity ?_
  · simp [Links]
  · simp [Links]
  · exact hw.cellAt fun f => by simp [Links, ht, hi]
  · refine Cell.ext_get fun f => ?_
    by_cases hx : f = .x
    · rw [hx]
      rfl
    · rw [Cell.get_set_ne _ _ hx]
      exact hw.same t f (by simp [Links, hx, hs.apart])
  · exact hw.isPair (by simp [Links]) (hs.pairs.2 i ((hmem i).1 hi))
  · intro i hi
    have hi := (hmem i).1 hi
    exact ⟨htl i hi, hs.loose i hi, .inl hi⟩
  · rw [← hv]
    exact List.map_congr_left fun i hi => hw.same i .x (by simp [Links, htl i ((hmem i).1 hi)])
  · rw [hw.inUse, hr.perm.length_eq]

theorem achieves_raise {k : List Nat} {b c : Nat} (hs : Holds t (l ++ b :: c :: k) s m) :
    Achieves (do
      setCdr (.ref b) (m.heap.cellAt c).y
      setCdr (.ref c) (m.heap.cellAt t).x
      setStack (.ref c)) m fun _ m' => Relinks t (l ++ b :: c :: k) (c :: (l ++ b :: k)) m m' := by
  have hp := hs.pairs
  have hnodup := hp.1.nodup
  have hne : c ≠ b ∧ t ≠ b ∧ t ≠ c ∧ (∀ i ∈ l, i ≠ b ∧ i ≠ c ∧ i ≠ t) ∧ ∀ i ∈ k, i ≠ b ∧ i ≠ c ∧
      i ≠ t := by
    have := hs.apart
    grind
  obtain ⟨hcb, htb, htc, hl, hk⟩ := hne
  refine (achieves_setCdr hs.allocator (hp.2 b (by simp))).bind ?_
  rintro - m₁ ⟨hrest₁, hset₁, hf₁⟩
  refine (achieves_setCdr hf₁ (hset₁.isPair (by decide) (hp.2 c (by simp)))).bind ?_
  rintro - m₂ ⟨hrest₂, hset₂, hf₂⟩
  have hh : m₂.threads.head = .ref t := by
    rw [hrest₂, hrest₁]
    exact hs.head
  refine (achieves_setStack hf₂ hh (hset₂.live nofun (hset₁.live nofun hs.live))).mono ?_
  rintro - m₃ ⟨hrest₃, hset₃, -⟩
  have hsame : ∀ i, i ≠ b ∧ i ≠ c ∧ i ≠ t → m₃.heap.cellAt i = m.heap.cellAt i :=
      fun i ⟨h1, h2, h3⟩ => by
    rw [hset₃.ne h3, hset₂.ne h2, hset₁.ne h1]
  have hb : (m₃.heap.cellAt b).get .y = (m.heap.cellAt c).y := by
    rw [hset₃.ne htb.symm, hset₂.ne hcb.symm, hset₁.self]
    rfl
  have hc : (m₃.heap.cellAt c).get .y = (m.heap.cellAt t).x := by
    rw [hset₃.ne htc.symm, hset₂.self]
    rfl
  refine ⟨by rw [hrest₃, hrest₂, hrest₁], ?_, ?_, ?_⟩
  · exact ((hset₁.rewires (by simp [Links])).trans (hset₂.rewires (by simp [Links]))).trans
      (hset₃.rewires (by simp [Links]))
  · rw [hset₃.self]
    refine ⟨rfl, hp.1.reserved_le c (by simp), ?_⟩
    rw [hc]
    refine hp.1.splice (fun i hi => by rw [hsame i (hl i hi)]) ?_
    rw [hb]
    exact hp.1.suffix.2.2.2.2.congr fun i hi => by rw [hsame i (hk i hi)]
  · grind

theorem achieves_sink {k : List Nat} {a j : Nat} (hs : Holds t (a :: (l ++ j :: k)) s m) :
    Achieves (do
      setStack (m.heap.cellAt a).y
      let after ← look (·.cdr (.ref j))
      setCdr (.ref a) after
      setCdr (.ref j) (.ref a)) m fun _ m' =>
      Relinks t (a :: (l ++ j :: k)) (l ++ j :: a :: k) m m' := by
  have hp := hs.pairs
  have hnodup := hp.1.nodup
  have hrest := hp.cdr.2.2
  have hne : a ≠ j ∧ t ≠ a ∧ t ≠ j ∧ (∀ i ∈ l, i ≠ a ∧ i ≠ j ∧ i ≠ t) ∧ ∀ i ∈ k, i ≠ a ∧ i ≠ j ∧
      i ≠ t := by
    have := hs.apart
    grind
  obtain ⟨haj, hta, htj, hl, hk⟩ := hne
  refine (achieves_setStack hs.allocator hs.head hs.live).bind ?_
  rintro - m₁ ⟨hrest₁, hset₁, hf₁⟩
  rw [achieves_look_bind, Heap.cdr_eq (hset₁.isPair (by decide) (hp.2 j (by simp))),
    hset₁.ne htj.symm]
  refine (achieves_setCdr hf₁ (hset₁.isPair (by decide) (hp.2 a (by simp)))).bind ?_
  rintro - m₂ ⟨hrest₂, hset₂, hf₂⟩
  have hj₂ := hset₂.isPair (by decide) (hset₁.isPair (by decide) (hp.2 j (by simp)))
  refine (achieves_setCdr hf₂ hj₂).mono ?_
  rintro - m₃ ⟨hrest₃, hset₃, -⟩
  have hsame : ∀ i, i ≠ a ∧ i ≠ j ∧ i ≠ t → m₃.heap.cellAt i = m.heap.cellAt i :=
      fun i ⟨h1, h2, h3⟩ => by
    rw [hset₃.ne h2, hset₂.ne h1, hset₁.ne h3]
  have ht : (m₃.heap.cellAt t).x = (m.heap.cellAt a).y := by
    rw [hset₃.ne htj, hset₂.ne hta, hset₁.self]
    rfl
  have hj : (m₃.heap.cellAt j).get .y = .ref a := by
    rw [hset₃.self]
    rfl
  have ha : (m₃.heap.cellAt a).get .y = (m.heap.cellAt j).y := by
    rw [hset₃.ne haj, hset₂.self]
    rfl
  refine ⟨by rw [hrest₃, hrest₂, hrest₁], ?_, ?_, ?_⟩
  · exact ((hset₁.rewires (by simp [Links])).trans (hset₂.rewires (by simp [Links]))).trans
      (hset₃.rewires (by simp [Links]))
  · rw [ht]
    refine hrest.1.splice (fun i hi => by rw [hsame i (hl i hi)]) ?_
    rw [hj]
    refine ⟨rfl, hp.1.reserved_le a (by simp), ?_⟩
    rw [ha]
    exact hrest.1.suffix.2.2.congr fun i hi => by rw [hsame i (hk i hi)]
  · grind

theorem achieves_roll (hs : Holds t l s m) (hd : s.length ≤ m.heap.sanity) (hn : 1 < n.natAbs)
    (hl : n.natAbs ≤ s.length) : Achieves (roll n) m fun _ m' => Relinks t l (rolled n l) m m' := by
  unfold roll rolled
  rw [achieves_bind (hs.depth_eq hd)]
  dsimp only
  rw [if_pos hn, if_neg (Nat.not_lt.2 hl), achieves_bind hs.stack_eq]
  rw [← hs.length_eq] at hl
  by_cases hpos : 0 < n
  · obtain ⟨l, b, c, k, rfl, hlen, hb, hc, hk⟩ := hs.pairs.rolls_up hn hl
    have hraise := raise_append (l ++ [b]) c k
    rw [List.append_assoc, List.append_assoc, List.length_append] at hraise
    rw [if_pos hpos, if_pos hpos]
    simp only [achieves_look_bind]
    rw [hb, hc, hk, show n.toNat - 1 = l.length + [b].length by rw [List.length_singleton]; omega]
    exact hraise ▸ hs.achieves_raise
  · obtain ⟨a, l, j, k, rfl, hlen, ha, hcdr, hj⟩ := hs.pairs.rolls_down hn hl
    have hsink := sink_append (l ++ [j]) a k
    rw [List.append_assoc, List.append_assoc, List.length_append] at hsink
    rw [if_neg hpos, if_neg hpos]
    simp only [achieves_look_bind]
    rw [hj, ha, hcdr,
      show n.natAbs - 1 = l.length + [j].length by rw [List.length_singleton]; omega]
    exact hsink ▸ hs.achieves_sink

theorem rolled (hs : Holds t l s m) (hr : Relinks t l (ActorMachine.rolled n l) m m') :
    Holds t (ActorMachine.rolled n l) (ActorMachine.rolled n s) m' ∧
    Restacks t l (ActorMachine.rolled n l) m m' :=
  hs.relinked hr (by rw [map_rolled, hs.values])

theorem restored (hs : Holds t l s m) (hr : Relinks t l l m m') :
    m.heap.Rewires (fun _ _ => False) m'.heap := by
  obtain ⟨hx, hy⟩ := hs.pairs.1.eq_links hr.chain
  refine { hr.rewires with same := fun i f _ => ?_ }
  by_cases hf : Links t l i f
  · obtain ⟨rfl, rfl⟩ | ⟨hi, rfl⟩ := hf
    · exact hx
    · exact hy i hi
  · exact hr.rewires.same i f hf

end Holds

theorem Heap.Pairs.nth {h : Heap} (hp : h.Pairs w l) (hnil : h.isPair .nil = false) (hn : 0 < n) :
    h.nth w n = (l.map fun i => (h.cellAt i).x)[n.toNat - 1]?.getD .undefined := by
  have hat : ∀ k, h.pairAt? k w = l[k]?.map .ref := fun k => by
    induction k generalizing w l with
    | zero =>
      unfold Heap.pairAt?
      cases l with
      | nil =>
        obtain ⟨rfl, -⟩ := hp
        simp [hnil]
      | cons i l =>
        obtain ⟨rfl, -, -⟩ := hp.cdr
        simp [hp.2 i List.mem_cons_self]
    | succ k ih =>
      unfold Heap.pairAt?
      cases l with
      | nil =>
        obtain ⟨rfl, -⟩ := hp
        simp [hnil]
      | cons i l =>
        obtain ⟨rfl, hcdr, hrest⟩ := hp.cdr
        simp [hp.2 i List.mem_cons_self, hcdr, ih hrest]
  unfold Heap.nth
  rw [if_neg (by omega), hat, show n.natAbs = n.toNat by omega, List.getElem?_map]
  cases hi : l[n.toNat - 1]? with
  | none => rfl
  | some i =>
    dsimp only [Option.map_some]
    rw [if_pos hn, Heap.car_eq (hp.2 i (List.mem_of_getElem? hi))]
    rfl

def Rearranges (i : Instruction) (t : Nat) (l : List Nat) (s : List Word) (m : Machine) : Prop :=
  ∀ next, m.heap.inUse + (s.length - l.length) ≤ m.heap.capacity →
    Achieves (perform i next) m fun flow m' => flow = .next next ∧
      ∃ l', Holds t l' s m' ∧ Restacks t l l' m m'

theorem achieves_flow {act : MachineM Unit} {Q : Machine → Prop} {next : Word}
    (ha : Achieves act m fun _ => Q) :
    Achieves (act >>= fun _ => pure (Flow.next next)) m fun flow m' => flow = .next next ∧ Q m' :=
  ha.bind fun _ m' hq => ⟨_, m', rfl, rfl, hq⟩

namespace Holds

section Holds

variable (hs : Holds t l s m)

include hs

theorem rearranges_depth (hd : s.length ≤ m.heap.sanity) :
    Rearranges .depth t l (.fix s.length :: s) m := by
  intro next hroom
  rw [List.length_cons, hs.length_eq] at hroom
  unfold perform
  dsimp only
  rw [achieves_bind (hs.depth_eq hd)]
  exact achieves_flow ((hs.achieves_push (by omega) _).mono fun _ _ ⟨i, h⟩ => ⟨i :: l, h⟩)

theorem rearranges_drop (hd : s.length ≤ m.heap.sanity) (n : Int) :
    Rearranges (.drop n) t l (s.drop n.toNat) m := by
  intro next _
  refine achieves_flow ?_
  unfold dropItems
  rw [achieves_bind (hs.depth_eq hd)]
  refine (hs.achieves_popN (Nat.min_le_right ..)).bind ?_
  rintro - m₁ ⟨-, hs₁, hr₁⟩
  by_cases hlt : s.length < n.toNat
  · rw [Nat.min_eq_right (Nat.le_of_lt hlt), List.drop_length, ← hs.length_eq,
      List.drop_length] at hs₁
    rw [Nat.min_eq_right (Nat.le_of_lt hlt), ← hs.length_eq, List.drop_length] at hr₁
    rw [if_pos hlt, List.drop_of_length_le (Nat.le_of_lt hlt)]
    refine hs₁.achieves_pop_nil.bind ?_
    rintro - m₂ ⟨hs₂, hr₂⟩
    exact ⟨(), m₂, rfl, [], hs₂, hr₁.trans hr₂ hs₂.apart (by simp)⟩
  · rw [Nat.min_eq_left (Nat.le_of_not_lt hlt)] at hs₁ hr₁
    rw [if_neg hlt]
    exact ⟨(), m₁, rfl, _, hs₁, hr₁⟩

theorem rearranges_pick (n : Int) :
    Rearranges (.pick n) t l
      ((if 0 < n then s[n.toNat - 1]?.getD .undefined else .undefined) :: s) m := by
  intro next hroom
  rw [List.length_cons, hs.length_eq] at hroom
  refine achieves_flow ?_
  unfold pick
  by_cases hpos : 0 < n
  · rw [if_pos hpos, if_pos hpos, achieves_bind hs.stack_eq, achieves_look_bind,
      hs.pairs.nth hs.pristine.not_isPair_nil hpos, hs.values]
    exact (hs.achieves_push (by omega) _).mono fun _ _ ⟨i, h⟩ => ⟨i :: l, h⟩
  · rw [if_neg hpos, if_neg hpos]
    exact (hs.achieves_push (by omega) _).mono fun _ _ ⟨i, h⟩ => ⟨i :: l, h⟩

theorem rearranges_dup (hd : s.length ≤ m.heap.sanity) (hn : n ≤ s.length) :
    Rearranges (.dup n) t l (s.take n.toNat ++ s) m := by
  have hle : n.toNat ≤ s.length := by omega
  intro next hroom
  rw [List.length_append, hs.length_eq, Nat.add_sub_cancel] at hroom
  refine achieves_flow ?_
  unfold dup pushAll
  rw [achieves_bind (hs.depth_eq hd), if_neg (Nat.not_lt.2 hle), achieves_bind hs.stack_eq,
    achieves_look_bind, hs.pairs.firstItems (hs.length_eq ▸ hle), hs.values]
  refine (hs.achieves_forM_push _ (by rwa [List.length_reverse])).mono ?_
  rintro - m' ⟨l', hs', hr, -⟩
  rw [List.reverse_reverse] at hs'
  exact ⟨l', hs', hr⟩

theorem dup_underflow (hd : s.length ≤ m.heap.sanity) (hn : s.length < n)
    (next : Word) : perform (.dup n) next m = .error (.stackUnderflow "dup") m := by
  have herr : dup n m = .error (.stackUnderflow "dup") m := by
    unfold dup
    rw [run_bind (hs.depth_eq hd), if_pos (by omega)]
    rfl
  exact run_bind_error herr

theorem rearranges_roll (hd : s.length ≤ m.heap.sanity) (n : Int) :
    Rearranges (.roll n) t l (if n.natAbs ≤ 1 then s else if n.natAbs ≤
      s.length then ActorMachine.rolled n s
      else if 0 < n then .undefined :: s else s.tail) m := by
  intro next hroom
  refine achieves_flow ?_
  by_cases h1 : n.natAbs ≤ 1
  · unfold roll
    rw [achieves_bind (hs.depth_eq hd)]
    dsimp only
    rw [if_neg (Nat.not_lt.2 h1), if_pos h1]
    exact ⟨(), m, rfl, l, hs, .refl t l m⟩
  rw [if_neg h1] at hroom ⊢
  by_cases hl : n.natAbs ≤ s.length
  · rw [if_pos hl]
    exact (hs.achieves_roll hd (Nat.lt_of_not_le h1) hl).mono fun _ _ hr => ⟨_, hs.rolled hr⟩
  rw [if_neg hl] at hroom ⊢
  unfold roll
  rw [achieves_bind (hs.depth_eq hd)]
  dsimp only
  rw [if_pos (Nat.lt_of_not_le h1), if_pos (Nat.lt_of_not_le hl)]
  by_cases hpos : 0 < n
  · rw [if_pos hpos, List.length_cons, hs.length_eq] at hroom
    rw [if_pos hpos, if_pos hpos]
    exact (hs.achieves_push (by omega) _).mono fun _ _ ⟨i, h⟩ => ⟨i :: l, h⟩
  · rw [if_neg hpos, if_neg hpos]
    have hlen := hs.length_eq
    cases s with
    | nil =>
      cases List.length_eq_zero_iff.1 hlen
      exact hs.achieves_pop_nil.bind fun _ m' h => ⟨(), m', rfl, [], h⟩
    | cons v s =>
      cases l with
      | nil => cases hlen
      | cons i l => exact hs.achieves_pop.bind fun _ m' ⟨_, h⟩ => ⟨(), m', rfl, l, h⟩

theorem roll_back (hd : s.length ≤ m.heap.sanity) (hn : 1 < n.natAbs) (hl : n.natAbs ≤ s.length)
    (next next' : Word) :
    Achieves (do
      let _ ← perform (.roll n) next
      perform (.roll (-n)) next') m fun flow m' => flow = .next next' ∧
        m' = { m with heap := m'.heap } ∧
        Holds t l s m' ∧ m.heap.Rewires (fun _ _ => False) m'.heap := by
  refine (achieves_flow (hs.achieves_roll hd hn hl)).bind ?_
  rintro - m₁ ⟨-, hr₁⟩
  obtain ⟨hs₁, hw₁⟩ := hs.rolled hr₁
  have hlen : (ActorMachine.rolled n s).length = s.length := by
    rw [← hs₁.length_eq, hr₁.perm.length_eq, hs.length_eq]
  have hd₁ : (ActorMachine.rolled n s).length ≤ m₁.heap.sanity := by rwa [hlen, hw₁.sanity]
  refine achieves_flow ((hs₁.achieves_roll hd₁ (by omega) (by omega)).mono ?_)
  rintro - m₂ hr₂
  have hback := hr₁.trans hr₂
  rw [rolled_neg_rolled (by omega) (hs.length_eq ▸ hl)] at hback
  exact ⟨hback.rest, (hs.relinked hback hs.values).1, hs.restored hback⟩

end Holds

/-- Whatever the count, the instructions for the stack do to its words what the operation of the
same name does to a list. Nothing but the pairs of the stack is touched, and rolling back undoes
rolling. -/
theorem rearranges (hs : Holds t l s m) (hd : s.length ≤ m.heap.sanity) :
    Rearranges .depth t l (.fix s.length :: s) m ∧ ∀ n : Int,
      Rearranges (.drop n) t l (s.drop n.toNat) m ∧
      Rearranges (.pick n) t l
        ((if 0 < n then s[n.toNat - 1]?.getD .undefined else .undefined) :: s) m ∧
      (n ≤ s.length → Rearranges (.dup n) t l (s.take n.toNat ++ s) m) ∧
      (s.length < n → ∀ next, Machine.perform (.dup n) next m = .error (.stackUnderflow "dup") m) ∧
      Rearranges (.roll n) t l (if n.natAbs ≤ 1 then s else if n.natAbs ≤
        s.length then ActorMachine.rolled n s
        else if 0 < n then .undefined :: s else s.tail) m ∧
      (1 < n.natAbs → n.natAbs ≤ s.length → ∀ next next', Achieves (do
        let _ ← Machine.perform (.roll n) next
        Machine.perform (.roll (-n)) next') m fun flow m' => flow = .next next' ∧
        m' = { m with heap := m'.heap } ∧
          Holds t l s m' ∧ m.heap.Rewires (fun _ _ => False) m'.heap) :=
  ⟨hs.rearranges_depth hd, fun n => ⟨hs.rearranges_drop hd n, hs.rearranges_pick n,
    hs.rearranges_dup hd, hs.dup_underflow hd, hs.rearranges_roll hd n, hs.roll_back hd⟩⟩

def piled : Heap :=
  ({ (Heap.new 80).withSanity 80 with top := 17 } : Heap)
    |>.putCell 13 ⟨.instrT, .ref 15, .nil, .undefined⟩
    |>.putCell 14 ⟨.pairT, .fix 2, .ref 16, .undefined⟩
    |>.putCell 15 ⟨.pairT, .fix 1, .ref 14, .undefined⟩
    |>.putCell 16 ⟨.pairT, .fix 3, .nil, .undefined⟩

theorem freeList_piled : piled.FreeList [] := by
  refine ⟨by decide +kernel, by decide +kernel, by decide +kernel, rfl, fun i =>
    iff_of_false List.not_mem_nil ?_, rfl⟩
  rintro ⟨hp, ht, hf⟩
  have hi : i = 13 ∨ i = 14 ∨ i = 15 ∨ i = 16 := by
    change 13 ≤ i at hp
    change i < 17 at ht
    omega
  obtain rfl | rfl | rfl | rfl := hi <;> revert hf <;> decide +kernel

theorem exists_holds_piled :
    ∃ m, Holds 13 [15, 14, 16] [.fix 1, .fix 2, .fix 3] m ∧ m.heap = piled := by
  obtain ⟨m, -⟩ : ∃ m, Machine.new { heapCapacity := 80 } = .ok m := ⟨_, rfl⟩
  have hpristine : piled.Pristine := by
    unfold Heap.Pristine
    decide +kernel
  have hpairs : piled.Pairs (piled.cellAt 13).x [15, 14, 16] := by
    unfold Heap.Pairs
    decide +kernel
  have hvalues : [15, 14, 16].map (fun i => (piled.cellAt i).x) = [.fix 1, .fix 2, .fix 3] := by
    decide +kernel
  have hlive : piled.Live 13 := by
    unfold Heap.Live
    decide +kernel
  have hloose : ∀ i ∈ [15, 14, 16], piled.permanent ≤ i := by decide +kernel
  exact ⟨{ m with heap := piled, threads := ⟨.ref 13, .ref 13⟩ },
    ⟨⟨[], freeList_piled⟩, hpristine, rfl, hlive, hpairs, by decide, hloose, hvalues⟩, rfl⟩

theorem rearranges_piled : ∃ m, Holds 13 [15, 14, 16] [.fix 1, .fix 2, .fix 3] m ∧
    Rearranges (.roll 3) 13 [15, 14, 16] [.fix 3, .fix 1, .fix 2] m ∧
    Rearranges (.roll (-2)) 13 [15, 14, 16] [.fix 2, .fix 1, .fix 3] m ∧
    Rearranges (.dup 2) 13 [15, 14, 16] [.fix 1, .fix 2, .fix 1, .fix 2, .fix 3] m := by
  obtain ⟨m, hs, hheap⟩ := exists_holds_piled
  have hsanity : [Word.fix 1, .fix 2, .fix 3].length ≤ m.heap.sanity := by
    rw [hheap]
    decide +kernel
  obtain ⟨-, hn⟩ := hs.rearranges hsanity
  exact ⟨_, hs, (hn 3).2.2.2.2.1, (hn (-2)).2.2.2.2.1, (hn 2).2.2.1 (by decide)⟩

end Holds

end ActorMachine
