import ActorMachine.Proofs.Footprint
import ActorMachine.Proofs.Operation

namespace ActorMachine

open Machine

namespace Heap

variable {F G : Nat → Prop} {h h' h'' : Heap} {i : Nat} {c : Cell} {f : Field} {v w : Word}
  {E : Heap → Prop}

/-- Only cells of the footprint differ, of those that were handed out, and the heap is in order. -/
structure Tends (F : Nat → Prop) (h h' : Heap) : Prop where
  reworks : h.Reworks F h'
  sound : h'.Sound

theorem Sound.tends (hs : h.Sound) : h.Tends F h := by
  obtain ⟨l, hf⟩ := hs.allocator
  exact ⟨.refl hf, hs⟩

theorem Tends.trans (h₁ : h.Tends F h') (h₂ : h'.Tends G h'') (hG : ∀ i, h.Live i → G i → F i) :
    h.Tends F h'' :=
  ⟨h₁.reworks.trans h₂.reworks hG, h₂.sound⟩

theorem Tends.mono (ht : h.Tends F h') (hF : ∀ i, h.Live i → F i → G i) : h.Tends G h' :=
  ⟨ht.reworks.mono hF, ht.sound⟩

theorem Tends.same (ht : h.Tends F h') (hi : h.Live i) (hF : ¬ F i) : h'.cellAt i = h.cellAt i :=
  ht.reworks.same i hi hF

theorem Tends.live (ht : h.Tends F h') (hi : h.Live i) (hF : ¬ F i) : h'.Live i :=
  ht.reworks.live hi hF

theorem Sets.inUse (hs : h.Sets i c h') : h'.inUse = h.inUse := by
  unfold Heap.inUse
  rw [hs.top, hs.freeCount]

theorem Live.set (hi : h.Live i) (hw : f = .t → w ≠ .freeT) :
    ((h.cellAt i).set f w).t ≠ .freeT := by
  by_cases hf : f = .t
  · rw [hf]
    exact hw hf
  · rw [show ((h.cellAt i).set f w).t = (h.cellAt i).t from Cell.get_set_ne _ _ (Ne.symm hf)]
    exact hi.2

theorem Sets.live (hs : h.Sets i ((h.cellAt i).set f w) h') (hw : f = .t → w ≠ .freeT) {j : Nat}
    (hj : h.Live j) :
    h'.Live j := by
  refine ⟨hs.top ▸ hj.1, ?_⟩
  by_cases hji : j = i
  · rw [hji, hs.self]
    exact (hji ▸ hj).set hw
  · rw [hs.ne hji]
    exact hj.2

theorem Sets.isPair (hs : h.Sets i ((h.cellAt i).set f w) h') (hf : f ≠ .t) {j : Nat}
    (hj : h.isPair (.ref j) = true) : h'.isPair (.ref j) = true := by
  obtain ⟨k, hk, hlt, ht⟩ := isPair_iff.1 hj
  cases hk
  refine isPair_iff.2 ⟨j, rfl, hs.top ▸ hlt, ?_⟩
  by_cases hji : j = i
  · rw [hji, hs.self, show ((h.cellAt i).set f w).t = (h.cellAt i).t
      from Cell.get_set_ne _ _ hf.symm]
    exact hji ▸ ht
  · rw [hs.ne hji]
    exact ht

theorem Sound.ensures_write (hs : h.Sound) (hi : h.Live i) (hw : f = .t → w ≠ .freeT) :
    Ensures (Heap.store (.ref i) f w) h
      (fun _ h' => h.Sets i ((h.cellAt i).set f w) h' ∧ h.Tends (· = i) h' ∧
        h'.inUse = h.inUse) E := by
  refine ensures_store hs fun j h' hv _ hset _ hsound => ?_
  cases hv
  have hs' := (hsound hi.2 (hi.set hw)).1
  refine ⟨hset,
    ⟨⟨fun j _ hj => hset.ne hj, Nat.le_of_eq hset.top.symm, hset.permanent, hset.capacity,
      hset.sanity,
    hs'.allocator⟩, hs'⟩, hset.inUse⟩

theorem Sound.ensures_take (hs : h.Sound) (hc : c.t ≠ .freeT) :
    Ensures (Heap.alloc c) h
      (fun v h' => ∃ i, v = .ref i ∧ h.Takes i c h' ∧ h.Tends (fun _ => False) h' ∧
        h'.inUse = h.inUse + 1) E := by
  obtain ⟨l, hf⟩ := hs.allocator
  refine (ensures_alloc (P := fun v h' => ∃ i, v = .ref i ∧ h.Takes i c h' ∧ h'.Sound) hs hc
    fun i h' ht _ hs' _ => ⟨i, rfl, ht, hs'⟩).result.imp ?_
  rintro v h' ⟨hrun, i, rfl, ht, hs'⟩
  obtain ⟨k, hk⟩ := hs'.allocator
  exact ⟨i, rfl, ht, ⟨ht.reworks hk, hs'⟩, hf.inUse_alloc hc hrun⟩

theorem Sound.ensures_give (hs : h.Sound) :
    Ensures (Heap.free v) h
      (fun _ h' => h.permanent ≤ v.index ∧ h.Live v.index ∧ h.Tends (· = v.index) h' ∧
        h'.inUse + 1 = h.inUse)
      E := by
  obtain ⟨l, hf⟩ := hs.allocator
  refine (ensures_free (P := fun _ h' => h'.Sound) hs fun _ _ _ hs' _ => hs').result.imp ?_
  rintro u h' ⟨hrun, hs'⟩
  obtain ⟨hp, ht, hu, rfl⟩ := free_ok hrun
  exact ⟨hp, ⟨ht, hu⟩, ⟨hf.reworks_reclaim hp ⟨ht, hu⟩, hs'⟩, hf.inUse_reclaim hp ⟨ht, hu⟩⟩

def Pristine (h : Heap) : Prop := ∀ i < Word.reserved, h.cellAt i = Cell.initial i

section Pristine

variable (hi : h.Pristine)

include hi

theorem Pristine.live (hs : h.Sound) {i : Nat} (hr : i < Word.reserved) : h.Live i := by
  obtain ⟨l, hf⟩ := hs.allocator
  have := hf.reserved_le
  have := hf.permanent_le
  refine ⟨by omega, ?_⟩
  rw [hi i hr]
  unfold Cell.initial
  split <;> decide

theorem Pristine.type {i : Nat} (hr : i < Word.reserved) :
    (h.cellAt i).t = .typeT ∨ (h.cellAt i).t = Cell.blank.t := by
  rw [hi i hr]
  unfold Cell.initial
  split
  · exact .inl rfl
  · exact .inr rfl

theorem Pristine.reserved_le (h1 : (h.cellAt i).t ≠ .typeT) (h2 : (h.cellAt i).t ≠ Cell.blank.t) :
    Word.reserved ≤ i := by
  refine Nat.le_of_not_lt fun hr => ?_
  obtain h | h := hi.type hr
  · exact h1 h
  · exact h2 h

theorem Pristine.hasType_eq {t : Word} (hr : i < Word.reserved) (h1 : t ≠ .typeT)
    (h2 : t ≠ Cell.blank.t) : h.hasType t (.ref i) = false := by
  rw [← Bool.not_eq_true, hasType_iff]
  rintro ⟨k, hv, -, ht⟩
  cases hv
  obtain h | h := hi.type hr
  · exact h1 (ht.symm.trans h)
  · exact h2 (ht.symm.trans h)

theorem Pristine.not_isPair_nil : h.isPair .nil = false :=
  hi.hasType_eq (by decide) (by decide) (by decide)

theorem Pristine.not_isEvent_nil : h.isEvent .nil = false :=
  hi.hasType_eq (by decide) (by decide) (by decide)

theorem Pristine.tends (hs : h.Sound) (ht : h.Tends F h')
    (hF : ∀ i, h.Live i → F i → Word.reserved ≤ i) : h'.Pristine := fun i hr => by
  have hlive := hi.live hs hr
  rw [ht.same hlive fun hf => Nat.not_lt.2 (hF i hlive hf) hr, hi i hr]

end Pristine

theorem Sound.ensures_lay (hs : h.Sound) (items : List Word) :
    Ensures (Heap.ofItems items) h (fun v h' => ∃ l, h.Lays items v l h' ∧
      h.Tends (fun _ => False) h') E := by
  have hsound : Ensures (Heap.ofItems items) h (fun _ h' => h'.Sound) E := by
    induction items with
    | nil => exact hs
    | cons x items ih =>
      rw [ofItems_cons]
      refine ih.bind fun v h' hs' => ?_
      exact (hs'.ensures_take (show Word.pairT ≠ .freeT by decide)).imp
        (fun _ _ ⟨_, _, _, ht, _⟩ => ht.sound)
  obtain ⟨k, hf⟩ := hs.allocator
  refine hsound.result.imp ?_
  rintro v h' ⟨hrun, hs'⟩
  obtain ⟨l, hl⟩ := hf.lays hrun
  exact ⟨l, hl, hl.reworks, hs'⟩

theorem Pairs.ensures_freeSpine {l : List Nat} (hp : h.Pairs w l) (hs : h.Sound) (hi : h.Pristine)
    (hl : ∀ i ∈ l, h.permanent ≤ i) :
    Ensures (Heap.freeSpine w) h (fun _ h' => h.Tends (· ∈ l) h' ∧
      h'.inUse + l.length = h.inUse) E := by
  unfold Heap.freeSpine
  rw [ensures_get_bind]
  generalize h.budget "free spine" = b
  induction l generalizing h w b with
  | nil =>
    have hw : w = .nil := hp.1
    unfold Heap.freeSpine.go
    rw [ensures_get_bind, hw, hi.not_isPair_nil]
    exact ⟨hs.tends, rfl⟩
  | cons k l ih =>
    obtain ⟨rfl, hcdr, hrest⟩ := hp.cdr
    obtain ⟨hk, hl⟩ := List.forall_mem_cons.1 hl
    obtain ⟨n, hf⟩ := hs.allocator
    have hpair := hp.2 k List.mem_cons_self
    have hkl : k ∉ l := (List.nodup_cons.1 hp.1.nodup).1
    unfold Heap.freeSpine.go
    rw [ensures_get_bind, hpair, show (Word.ref k).index = k from rfl, decide_eq_true hk]
    obtain ⟨_ | n, task⟩ := b
    · exact .inl rfl
    · refine (hs.ensures_give (v := .ref k)).bind ?_
      rintro - h₁ ⟨-, -, ht, hu⟩
      have ht : h.Tends (· = k) h₁ := ht
      have hi₁ : h₁.Pristine := hi.tends hs ht fun j _ hj => hj ▸ Nat.le_trans hf.reserved_le hk
      rw [hcdr]
      refine (ih (ht.reworks.pairs hrest fun j hj h => hkl (h ▸ hj)) ht.sound hi₁
        (fun j hj => ht.reworks.permanent ▸ hl j hj) ⟨n, task⟩).imp ?_
      rintro - h₂ ⟨ht', hu'⟩
      refine ⟨(ht.mono ?_).trans ht' fun j _ hj => List.mem_cons_of_mem k hj, ?_⟩
      · rintro j - rfl
        exact List.mem_cons_self
      · rw [List.length_cons]
        omega

end Heap

variable {α β : Type} {t : Nat} {l l' l'' : List Nat} {m m' m'' : Machine} {v w : Word}

namespace Machine

variable {E : Machine → Prop} {i : Nat} {c : Cell} {f : Field}

theorem ensures_write (hs : m.heap.Sound) (hi : m.heap.Live i) (hw : f = .t → w ≠ .freeT) :
    Ensures (liftM (Heap.store (.ref i) f w) : MachineM Unit) m
      (fun _ m' => m.heap.Sets i ((m.heap.cellAt i).set f w) m'.heap ∧
        m.heap.Tends (· = i) m'.heap ∧
        m'.heap.inUse = m.heap.inUse ∧ Untouched m m') E := by
  rw [ensures_onHeap]
  exact (hs.ensures_write hi hw).imp (fun _ h' h => ⟨h.1, h.2.1, h.2.2, .onHeap ..⟩)

theorem ensures_take (hs : m.heap.Sound) (hc : c.t ≠ .freeT) :
    Ensures (liftM (Heap.alloc c) : MachineM Word) m
      (fun v m' => ∃ i, v = .ref i ∧ m.heap.Takes i c m'.heap ∧
        m.heap.Tends (fun _ => False) m'.heap ∧
        m'.heap.inUse = m.heap.inUse + 1 ∧ Untouched m m') E := by
  rw [ensures_onHeap]
  refine (hs.ensures_take hc).imp ?_
  rintro v h' ⟨i, rfl, htake, ht, hu⟩
  exact ⟨i, rfl, htake, ht, hu, .onHeap ..⟩

theorem ensures_give (hs : m.heap.Sound) :
    Ensures (liftM (Heap.free v) : MachineM Unit) m
      (fun _ m' => m.heap.permanent ≤ v.index ∧ m.heap.Live v.index ∧
        m.heap.Tends (· = v.index) m'.heap ∧
        m'.heap.inUse + 1 = m.heap.inUse ∧ Untouched m m') E := by
  rw [ensures_onHeap]
  exact hs.ensures_give.imp (fun _ h' h => ⟨h.1, h.2.1, h.2.2.1, h.2.2.2, .onHeap ..⟩)

end Machine

structure Seat (t : Nat) (l : List Nat) (m : Machine) : Prop where
  sound : m.heap.Sound
  pristine : m.heap.Pristine
  head : m.threads.head = .ref t
  pairs : m.heap.Pairs (m.heap.cellAt t).x l
  apart : t ∉ l
  loose : ∀ i ∈ t :: l, m.heap.permanent ≤ i ∧ m.heap.Live i

structure Shifts (t : Nat) (l l' : List Nat) (m m' : Machine) : Prop where
  untouched : Untouched m m'
  tends : m.heap.Tends (fun i => i = t ∨ i ∈ l) m'.heap
  thread : ∀ f, f ≠ .x → (m'.heap.cellAt t).get f = (m.heap.cellAt t).get f
  fresh : ∀ i ∈ l', i ∈ l ∨ ¬ m.heap.Live i
  inUse : m'.heap.inUse + l.length = m.heap.inUse + l'.length

theorem Shifts.trans (h₁ : Shifts t l l' m m') (h₂ : Shifts t l' l'' m' m'') (ha : t ∉ l'') :
    Shifts t l l'' m m'' := by
  have hown : ∀ i, m.heap.Live i → i = t ∨ i ∈ l' → i = t ∨ i ∈ l := by
    rintro i hi (rfl | h)
    · exact .inl rfl
    · exact .inr ((h₁.fresh i h).resolve_right fun hn => hn hi)
  refine ⟨h₁.untouched.trans h₂.untouched, h₁.tends.trans h₂.tends hown,
    fun f hf => (h₂.thread f hf).trans (h₁.thread f hf), fun i hi => ?_, ?_⟩
  · obtain h | h := h₂.fresh i hi
    · exact h₁.fresh i h
    · refine or_iff_not_imp_left.2 fun hl hlive => h (h₁.tends.live hlive ?_)
      rintro (rfl | h')
      · exact ha hi
      · exact hl h'
  · have := h₁.inUse
    have := h₂.inUse
    omega

def Handles (t : Nat) (l : List Nat) (m : Machine) (act : MachineM α) : Prop :=
  Ensures act m (fun _ m' => ∃ l', Seat t l' m' ∧ Shifts t l l' m m')
    fun m' => ∃ l', Seat t l' m' ∧ Shifts t l l' m m'

theorem Seat.quiet (hs : Seat t l m) (hq : Quiet m m') : Seat t l m' := by
  obtain ⟨h1, h2, h3, h4, h5, h6⟩ := hs
  refine ⟨?_, ?_, hq.threads ▸ h3, ?_, h5, ?_⟩ <;> rw [hq.heap] <;> assumption

theorem Seat.shifts (hs : Seat t l m) (hq : Quiet m m') : Shifts t l l m m' := by
  refine ⟨hq.untouched, ?_, fun f _ => by rw [hq.heap], fun i hi => .inl hi, by rw [hq.heap]⟩
  rw [hq.heap]
  exact hs.sound.tends

namespace Handles

variable {act : MachineM α}

theorem after (hw : Shifts t l l' m m') (hr : Handles t l' m' act) :
    Ensures act m' (fun _ m'' => ∃ l'', Seat t l'' m'' ∧ Shifts t l l'' m m'')
      fun m'' => ∃ l'', Seat t l'' m'' ∧ Shifts t l l'' m m'' :=
  Ensures.mono hr (fun _ _ ⟨l'', hs, hw'⟩ => ⟨l'', hs, hw.trans hw' hs.apart⟩)
    fun _ ⟨l'', hs, hw'⟩ => ⟨l'', hs, hw.trans hw' hs.apart⟩

theorem bind {k : α → MachineM β} (hr : Handles t l m act)
    (hk : ∀ r l' m', Seat t l' m' → Handles t l' m' (k r)) : Handles t l m (act >>= k) :=
  Ensures.bind hr fun r m' ⟨l', hs, hw⟩ => (hk r l' m' hs).after hw

theorem pure {r : α} (hs : Seat t l m) : Handles t l m (pure r) := ⟨l, hs, hs.shifts (.refl m)⟩

theorem throw {f : Fault} (hs : Seat t l m) : Handles t l m (throw f : MachineM α) :=
  .inr ⟨l, hs, hs.shifts (.refl m)⟩

theorem throw_bind {f : Fault} {k : β → MachineM α} (hs : Seat t l m) :
    Handles t l m (MonadExcept.throw f >>= k) :=
  .inr ⟨l, hs, hs.shifts (.refl m)⟩

theorem ite {c : Prop} [Decidable c] {other : MachineM α} (h₁ : c → Handles t l m act)
    (h₂ : ¬ c → Handles t l m other) : Handles t l m (if c then act else other) := Ensures.ite h₁ h₂

theorem look_bind {f : Heap → α} {k : α → MachineM β} (hk : Handles t l m (k (f m.heap))) :
    Handles t l m (look f >>= k) := hk

theorem pure_bind {r : α} {k : α → MachineM β} (hk : Handles t l m (k r)) :
    Handles t l m (Pure.pure r >>= k) := hk

theorem ask_bind {f : Heap → Except Fault α} {k : α → MachineM β} (hs : Seat t l m)
    (hk : ∀ r, Handles t l m (k r)) : Handles t l m (ask f >>= k) := by
  refine Ensures.bind (Q := fun _ m' => m' = m) ?_ ?_
  · rw [ensures_ask]
    cases hf : f m.heap with
    | ok r => rfl
    | error g => exact .inr ⟨l, hs, hs.shifts (.refl m)⟩
  · rintro r m' rfl
    exact hk r

theorem fetch_bind {v : Word} {f : Field} {k : Word → MachineM β} (hk : ∀ w, Handles t l m (k w)) :
    Handles t l m ((liftM (Heap.fetch v f) : MachineM Word) >>= k) :=
  ensures_fetch_bind fun _ _ _ => hk _

theorem silent_bind {k : α → MachineM β} (hq : Silent act) (hs : Seat t l m)
    (hk : ∀ r m', Seat t l m' → Handles t l m' (k r)) : Handles t l m (act >>= k) :=
  hq.bind fun r m' hq => (hk r m' (hs.quiet hq)).after (hs.shifts hq)

theorem silent (hq : Silent act) (hs : Seat t l m) : Handles t l m act :=
  hq.ensures fun _ _ hq => ⟨l, hs.quiet hq, hs.shifts hq⟩

end Handles

namespace Seat

section Seat

variable (hs : Seat t l m)

include hs

theorem permanent_le : m.heap.permanent ≤ t ∧ m.heap.Live t := hs.loose t List.mem_cons_self

theorem reserved_le {i : Nat} (hi : i = t ∨ i ∈ l) : Word.reserved ≤ i := by
  obtain ⟨k, hf⟩ := hs.sound.allocator
  exact Nat.le_trans hf.reserved_le (hs.loose i (List.mem_cons.2 hi)).1

theorem stack_bind {Q : β → Machine → Prop} {E : Machine → Prop} {k : Word → MachineM β}
    (hk : Ensures (k (m.heap.cellAt t).x) m Q E) : Ensures (stack >>= k) m Q E := by
  refine Ensures.bind (Q := fun w m' => m = m' ∧ w = (m.heap.cellAt t).x) ?_ ?_
  · unfold stack
    rw [ensures_thread_bind, hs.head, ensures_onHeap]
    refine Heap.ensures_fetch fun i hv _ => ?_
    cases hv
    exact ⟨rfl, rfl⟩
  · rintro w m' ⟨rfl, rfl⟩
    exact hk

theorem depth_bind {k : Nat → MachineM β} (hk : Handles t l m (k l.length)) :
    Handles t l m (depth >>= k) := by
  refine Ensures.bind (Q := fun d m' => m = m' ∧ d = l.length) ?_ ?_
  · unfold depth
    refine hs.stack_bind ?_
    rw [ensures_ask, Heap.listLength, hs.pairs.spine_eq hs.pristine.not_isPair_nil]
    by_cases hb : l.length ≤ m.heap.sanity
    · rw [if_pos hb]
      exact ⟨rfl, List.length_map ..⟩
    · rw [if_neg hb]
      exact .inl rfl
  · rintro d m' ⟨rfl, rfl⟩
    exact hk

theorem ensures_setStack {E : Machine → Prop} : Ensures (setStack w) m
      (fun _ m' => m.heap.Sets t ((m.heap.cellAt t).set .x w) m'.heap ∧
        m.heap.Tends (· = t) m'.heap ∧
        m'.heap.inUse = m.heap.inUse ∧ Untouched m m') E := by
  unfold setStack
  rw [ensures_thread_bind, hs.head]
  exact ensures_write hs.sound hs.permanent_le.2 nofun

theorem next (hu : Untouched m m') (ht : m.heap.Tends (fun i => i = t ∨ i ∈ l) m'.heap)
    (hthread : m'.heap.cellAt t = (m.heap.cellAt t).set .x w) (hp : m'.heap.Pairs w l')
    (hl : ∀ i ∈ l', i ≠ t ∧ m.heap.permanent ≤ i ∧ (i ∈ l ∨ ¬ m.heap.Live i))
    (hi : m'.heap.inUse + l.length = m.heap.inUse + l'.length) :
    Seat t l' m' ∧ Shifts t l l' m m' := by
  -- The thread has a new stack once the pairs that it is led to are its own, and new or its own
  -- before.
  have hx : (m'.heap.cellAt t).x = w := by
    rw [hthread]
    rfl
  have hlive : m'.heap.Live t := by
    refine ⟨Nat.lt_of_lt_of_le hs.permanent_le.2.1 ht.reworks.top_le, ?_⟩
    rw [hthread]
    exact hs.permanent_le.2.2
  refine ⟨⟨ht.sound, hs.pristine.tends hs.sound ht fun i _ hi => hs.reserved_le hi,
    hu.threads ▸ hs.head, hx ▸ hp, fun h => (hl t h).1 rfl, fun i h => ?_⟩, hu, ht, fun f hf => ?_,
    fun i h => (hl i h).2.2, hi⟩
  · rw [ht.reworks.permanent]
    obtain rfl | h := List.mem_cons.1 h
    · exact ⟨hs.permanent_le.1, hlive⟩
    · exact ⟨(hl i h).2.1, Heap.live_of_isPair (hp.2 i h)⟩
  · rw [hthread, Cell.get_set_ne _ _ hf]

theorem handles_push (v : Word) : Handles t l m (push v) := by
  unfold push Heap.cons
  refine hs.stack_bind ((ensures_take hs.sound (show Word.pairT ≠ .freeT by decide)).bind ?_)
  rintro w m₁ ⟨i, rfl, htake, ht, hu, hm⟩
  have hsame : ∀ j ∈ t :: l, j ≠ i ∧ m₁.heap.cellAt j = m.heap.cellAt j := fun j hj =>
    have hji : j ≠ i := fun h => htake.not_live (h ▸ (hs.loose j hj).2)
    ⟨hji, htake.ne hji⟩
  have hpairs₁ := ht.reworks.pairs hs.pairs (by simp)
  have hs₁ : Seat t l m₁ := by
    refine ⟨ht.sound, hs.pristine.tends hs.sound ht (by simp), hm.threads ▸ hs.head, ?_, hs.apart,
      fun j hj => ?_⟩
    · rw [(hsame t List.mem_cons_self).2]
      exact hpairs₁
    · rw [ht.reworks.permanent]
      exact ⟨(hs.loose j hj).1, ht.live (hs.loose j hj).2 (by simp)⟩
  refine hs₁.ensures_setStack.imp ?_
  rintro - m₂ ⟨hset, ht', hu', hm'⟩
  have hi : i ≠ t := (hsame t List.mem_cons_self).1.symm
  refine ⟨i :: l, hs.next (w := .ref i) (hm.trans hm') ?_ ?_ ?_ ?_ ?_⟩
  · exact Heap.Tends.trans (ht.mono (by simp)) ht' fun j _ hj => .inl hj
  · rw [hset.self, (hsame t List.mem_cons_self).2]
  · have hcell : m₂.heap.cellAt i = ⟨.pairT, v, (m.heap.cellAt t).x, .undefined⟩ := by
      rw [hset.ne hi, htake.self]
    have hpair : m₂.heap.isPair (.ref i) = true := by
      refine Heap.isPair_iff.2 ⟨i, rfl, hset.top ▸ htake.lt_top, ?_⟩
      rw [hcell]
    have hrest := ht'.reworks.pairs hpairs₁ fun j hj h => hs.apart (h ▸ hj)
    obtain ⟨k, hf⟩ := hs.sound.allocator
    refine ⟨⟨rfl, Nat.le_trans hf.reserved_le htake.permanent_le, ?_⟩,
      List.forall_mem_cons.2 ⟨hpair, hrest.2⟩⟩
    rw [hcell]
    exact hrest.1
  · intro j hj
    obtain rfl | hj := List.mem_cons.1 hj
    · exact ⟨hi, htake.permanent_le, .inr htake.not_live⟩
    · exact ⟨fun h => hs.apart (h ▸ hj), (hs.loose j (List.mem_cons_of_mem t hj)).1, .inl hj⟩
  · rw [hu', hu, List.length_cons]
    omega

theorem ensures_pop {E : Machine → Prop} :
    Ensures pop m (fun _ m' => ∃ l', Seat t l' m' ∧ Shifts t l l' m m') E := by
  unfold pop
  refine hs.stack_bind ?_
  rw [ensures_look_bind]
  cases l with
  | nil =>
    have hn := hs.pristine.not_isPair_nil
    rw [← (hs.pairs.1 : _ = Word.nil)] at hn
    rw [hn]
    simp only [Bool.false_eq_true, if_false, ensures_thread_bind]
    refine ensures_fetch_bind fun i _ _ => ?_
    exact (Silent.note _).bind fun _ m' hq => ⟨[], hs.quiet hq, hs.shifts hq⟩
  | cons p l =>
    obtain ⟨hx, hcdr, hrest⟩ := hs.pairs.cdr
    have hpair := hs.pairs.2 p List.mem_cons_self
    have hp := hs.loose p (by simp)
    have hpl : p ∉ l := (List.nodup_cons.1 hs.pairs.1.nodup).1
    have hpt : p ≠ t := fun h => hs.apart (by simp [h])
    rw [hx] at hcdr ⊢
    rw [hpair, if_pos rfl]
    simp only [ensures_look_bind]
    rw [hcdr]
    refine hs.ensures_setStack.bind ?_
    rintro - m₁ ⟨hset, ht, hu, hm⟩
    refine (ensures_give (v := .ref p) ht.sound).bind ?_
    rintro - m₂ ⟨-, hlive, ht', hu', hm'⟩
    rw [ensures_pure]
    refine ⟨l, hs.next (w := (m.heap.cellAt p).y) (hm.trans hm') ?_ ?_ ?_ ?_ ?_⟩
    · refine Heap.Tends.trans (ht.mono fun i _ hi => .inl hi) ht' ?_
      rintro i - rfl
      exact .inr List.mem_cons_self
    · rw [ht'.same (hset.live (by simp) hs.permanent_le.2) hpt.symm, hset.self]
    · refine ht'.reworks.pairs (ht.reworks.pairs hrest ?_) ?_
      · rintro i hi rfl
        exact hs.apart (List.mem_cons_of_mem p hi)
      · rintro i hi rfl
        exact hpl hi
    · intro i hi
      exact ⟨fun h => hs.apart (h ▸ List.mem_cons_of_mem p hi), (hs.loose i (by simp [hi])).1,
        .inl (List.mem_cons_of_mem p hi)⟩
    · rw [List.length_cons]
      omega

theorem handles_pop : Handles t l m pop := hs.ensures_pop

theorem handles_pushAll (vs : List Word) : Handles t l m (pushAll vs) := by
  unfold pushAll
  induction vs.reverse generalizing l m with
  | nil => exact .pure hs
  | cons v vs ih => exact (hs.handles_push v).bind fun _ _ _ hs' => ih hs'

theorem handles_popN (n : Nat) : Handles t l m (popN n) := by
  induction n generalizing l m with
  | zero => exact .pure hs
  | succ n ih =>
    exact hs.handles_pop.bind fun v _ _ hs' => (ih hs').bind fun vs _ _ hs'' => .pure hs''

theorem handles_popNumber (op : String) : Handles t l m (popNumber op) := by
  refine hs.handles_pop.bind fun v _ _ hs' => ?_
  cases hv : v.number? with
  | some n => exact .pure hs'
  | none => exact .throw hs'

theorem handles_dropItems (n : Int) : Handles t l m (dropItems n) := by
  refine hs.depth_bind ((hs.handles_popN _).bind fun _ _ _ hs' => .ite (fun _ => ?_) fun _ =>
    .pure hs')
  exact hs'.handles_pop.bind fun _ _ _ hs'' => .pure hs''

theorem handles_pick (n : Int) : Handles t l m (pick n) := by
  refine .ite (fun _ => hs.stack_bind (Handles.look_bind (hs.handles_push _))) fun _ =>
    hs.handles_push _

theorem handles_dup (n : Int) : Handles t l m (dup n) := by
  refine hs.depth_bind (.ite (fun _ => .throw_bind hs) fun _ => ?_)
  exact hs.stack_bind (Handles.look_bind (hs.handles_pushAll _))

end Seat

theorem ensures_setCdr {E : Machine → Prop} {i : Nat} (hs : m.heap.Sound)
    (hp : m.heap.isPair (.ref i) = true) :
    Ensures (Machine.setCdr (.ref i) w) m
      (fun _ m' => m.heap.Sets i ((m.heap.cellAt i).set .y w) m'.heap ∧
        m.heap.Tends (· = i) m'.heap ∧
        m'.heap.inUse = m.heap.inUse ∧ Untouched m m') E :=
  Machine.ensures_setCdr hp (Machine.ensures_write hs (Heap.live_of_isPair hp) nofun)

theorem handles_rollUp {k : List Nat} {b c : Nat} (hs : Seat t (l ++ b :: c :: k) m) :
    Handles t (l ++ b :: c :: k) m (do
      setCdr (.ref b) (m.heap.cellAt c).y
      setCdr (.ref c) (m.heap.cellAt t).x
      setStack (.ref c)) := by
  have hp := hs.pairs
  have hnodup := hp.1.nodup
  have hmem : ∀ i, i ∈ l ++ b :: c :: k ↔ i ∈ c :: (l ++ b :: k) := by grind
  have hne : c ≠ b ∧ t ≠ b ∧ t ≠ c ∧ (∀ i ∈ l, i ≠ b ∧ i ≠ c) ∧ ∀ i ∈ k, i ≠ b ∧ i ≠ c := by
    have := hs.apart
    grind
  refine (ensures_setCdr hs.sound (hp.2 b (by simp))).bind ?_
  rintro - m₁ ⟨hset₁, ht₁, hu₁, hm₁⟩
  refine (ensures_setCdr ht₁.sound (hset₁.isPair (by decide) (hp.2 c (by simp)))).bind ?_
  rintro - m₂ ⟨hset₂, ht₂, hu₂, hm₂⟩
  unfold setStack
  rw [ensures_thread_bind, hm₂.threads, hm₁.threads, hs.head]
  have hlive := hset₂.live nofun (hset₁.live nofun hs.permanent_le.2)
  refine (ensures_write (f := .x) ht₂.sound hlive nofun).imp ?_
  rintro - m₃ ⟨hset₃, ht₃, hu₃, hm₃⟩
  have hsame : ∀ i, i ≠ t → i ≠ b → i ≠ c → m₃.heap.cellAt i = m.heap.cellAt i :=
      fun i h1 h2 h3 => by
    rw [hset₃.ne h1, hset₂.ne h3, hset₁.ne h2]
  have hapart : ∀ i ∈ l ++ b :: c :: k, i ≠ t := fun i hi h => hs.apart (h ▸ hi)
  refine ⟨c :: (l ++ b :: k), hs.next (w := .ref c) ((hm₁.trans hm₂).trans hm₃) ?_ ?_
    ⟨⟨rfl, ?_, ?_⟩, ?_⟩ ?_ ?_⟩
  · refine ((ht₁.mono ?_).trans ht₂ ?_).trans ht₃ ?_ <;> rintro i - rfl <;> simp
  · rw [hset₃.self, hset₂.ne hne.2.2.1, hset₁.ne hne.2.1]
  · exact hs.reserved_le (.inr (by simp))
  · have hc : (m₃.heap.cellAt c).y = (m.heap.cellAt t).x := by
      rw [hset₃.ne hne.2.2.1.symm, hset₂.self]
      rfl
    have hb : (m₃.heap.cellAt b).y = (m.heap.cellAt c).y := by
      rw [hset₃.ne hne.2.1.symm, hset₂.ne hne.1.symm, hset₁.self]
      rfl
    refine (congrArg (m₃.heap.Chain .y · _) hc).mpr (hp.1.splice (fun j hj => ?_) ?_)
    · rw [hsame j (hapart j (by simp [hj])) (hne.2.2.2.1 j hj).1 (hne.2.2.2.1 j hj).2]
    · refine (congrArg (m₃.heap.Chain .y · _) hb).mpr (hp.1.suffix.2.2.2.2.congr fun j hj => ?_)
      rw [hsame j (hapart j (by simp [hj])) (hne.2.2.2.2 j hj).1 (hne.2.2.2.2 j hj).2]
  · intro i hi
    exact hset₃.isPair (by decide) (hset₂.isPair (by decide)
      (hset₁.isPair (by decide) (hp.2 i ((hmem i).2 hi))))
  · intro i hi
    have hi := (hmem i).2 hi
    exact ⟨hapart i hi, (hs.loose i (List.mem_cons_of_mem t hi)).1, .inl hi⟩
  · simp only [List.length_append, List.length_cons]
    omega

theorem handles_rollDown {k : List Nat} {s j : Nat} (hs : Seat t (s :: (l ++ j :: k)) m) :
    Handles t (s :: (l ++ j :: k)) m (do
      setStack (m.heap.cellAt s).y
      let after ← look (·.cdr (.ref j))
      setCdr (.ref s) after
      setCdr (.ref j) (.ref s)) := by
  have hp := hs.pairs
  have hnodup := hp.1.nodup
  have hrest := hp.cdr.2.2
  have hmem : ∀ i, i ∈ s :: (l ++ j :: k) ↔ i ∈ l ++ j :: s :: k := by grind
  have hne : s ≠ j ∧ t ≠ s ∧ t ≠ j ∧ (∀ i ∈ l, i ≠ s ∧ i ≠ j) ∧ ∀ i ∈ k, i ≠ s ∧ i ≠ j := by
    have := hs.apart
    grind
  refine hs.ensures_setStack.bind ?_
  rintro - m₁ ⟨hset₁, ht₁, hu₁, hm₁⟩
  rw [ensures_look_bind, Heap.cdr_eq (hset₁.isPair (by decide) (hp.2 j (by simp))),
    hset₁.ne hne.2.2.1.symm]
  refine (ensures_setCdr ht₁.sound (hset₁.isPair (by decide) (hp.2 s (by simp)))).bind ?_
  rintro - m₂ ⟨hset₂, ht₂, hu₂, hm₂⟩
  have hj₂ := hset₂.isPair (by decide) (hset₁.isPair (by decide) (hp.2 j (by simp)))
  refine (ensures_setCdr ht₂.sound hj₂).imp ?_
  rintro - m₃ ⟨hset₃, ht₃, hu₃, hm₃⟩
  have hsame : ∀ i, i ≠ t → i ≠ s → i ≠ j → m₃.heap.cellAt i = m.heap.cellAt i :=
      fun i h1 h2 h3 => by
    rw [hset₃.ne h3, hset₂.ne h2, hset₁.ne h1]
  have hapart : ∀ i ∈ s :: (l ++ j :: k), i ≠ t := fun i hi h => hs.apart (h ▸ hi)
  refine ⟨l ++ j :: s :: k, hs.next (w := (m.heap.cellAt s).y) ((hm₁.trans hm₂).trans hm₃) ?_ ?_
    ⟨?_, ?_⟩ ?_ ?_⟩
  · refine ((ht₁.mono ?_).trans ht₂ ?_).trans ht₃ ?_ <;> rintro i - rfl <;> simp
  · rw [hset₃.ne hne.2.2.1, hset₂.ne hne.2.1, hset₁.self]
  · have hj : (m₃.heap.cellAt j).y = .ref s := by
      rw [hset₃.self]
      rfl
    have hsy : (m₃.heap.cellAt s).y = (m.heap.cellAt j).y := by
      rw [hset₃.ne hne.1, hset₂.self]
      rfl
    refine hrest.1.splice (fun i hi => ?_) ((congrArg (m₃.heap.Chain .y · _) hj).mpr ⟨rfl, ?_, ?_⟩)
    · rw [hsame i (hapart i (by simp [hi])) (hne.2.2.2.1 i hi).1 (hne.2.2.2.1 i hi).2]
    · exact hs.reserved_le (.inr (by simp))
    · refine (congrArg (m₃.heap.Chain .y · _) hsy).mpr (hrest.1.suffix.2.2.congr fun i hi => ?_)
      rw [hsame i (hapart i (by simp [hi])) (hne.2.2.2.2 i hi).1 (hne.2.2.2.2 i hi).2]
  · intro i hi
    exact hset₃.isPair (by decide) (hset₂.isPair (by decide)
      (hset₁.isPair (by decide) (hp.2 i ((hmem i).2 hi))))
  · intro i hi
    have hi := (hmem i).2 hi
    exact ⟨hapart i hi, (hs.loose i (List.mem_cons_of_mem t hi)).1, .inl hi⟩
  · simp only [List.length_append, List.length_cons]
    omega

section Seat

variable (hs : Seat t l m)

include hs

theorem handles_roll (n : Int) : Handles t l m (roll n) := by
  unfold roll
  refine hs.depth_bind ?_
  dsimp only
  refine .ite (fun hn => .ite (fun _ => ?_) fun hd => ?_) fun _ => .pure hs
  · exact .ite (fun _ => hs.handles_push _) fun _ => hs.handles_pop.bind fun _ _ _ hs' => .pure hs'
  refine hs.stack_bind (Handles.ite (fun _ => ?_) fun _ => ?_)
  · obtain ⟨l, b, c, k, rfl, -, hb, hc, hk⟩ := hs.pairs.rolls_up hn (Nat.le_of_not_lt hd)
    simp only [ensures_look_bind, Handles]
    rw [hb, hc, hk]
    exact hs.handles_rollUp
  · obtain ⟨s, l, j, k, rfl, -, hs', hcdr, hj⟩ := hs.pairs.rolls_down hn (Nat.le_of_not_lt hd)
    simp only [ensures_look_bind, Handles]
    rw [hj, hs', hcdr]
    exact hs.handles_rollDown

theorem ensures_clearStack {E : Machine → Prop} :
    Ensures clearStack m (fun _ m' => Seat t [] m' ∧ Shifts t l [] m m') E := by
  unfold clearStack
  refine hs.stack_bind (hs.ensures_setStack.bind ?_)
  rintro - m₁ ⟨hset, ht, hu, hm⟩
  have hapart : ∀ i ∈ l, i ≠ t := fun i hi h => hs.apart (h ▸ hi)
  have hp : m₁.heap.Pairs (m.heap.cellAt t).x l := ht.reworks.pairs hs.pairs hapart
  have hi : m₁.heap.Pristine := hs.pristine.tends hs.sound ht fun i _ hi => hs.reserved_le (.inl hi)
  rw [ensures_onHeap]
  refine (hp.ensures_freeSpine ht.sound hi fun i hi => ?_).imp ?_
  · rw [ht.reworks.permanent]
    exact (hs.loose i (List.mem_cons_of_mem t hi)).1
  rintro - h' ⟨ht', hu'⟩
  refine hs.next (w := .nil) (hm.trans (.onHeap ..)) ?_ ?_ ⟨rfl, by simp⟩ (by simp) ?_
  · exact (ht.mono fun i _ hi => .inl hi).trans ht' fun i _ hi => .inr hi
  · exact (ht'.same (hset.live nofun hs.permanent_le.2) hs.apart).trans hset.self
  · change h'.inUse + _ = _
    rw [List.length_nil]
    omega

theorem handles_typeTest (v : Word) : Handles t l m (typeTest v) := by
  unfold typeTest
  refine hs.handles_pop.bind fun w l₁ m₁ hs₁ => ?_
  dsimp only
  refine .ite (fun _ => .pure_bind (hs₁.handles_push _)) fun _ => ?_
  exact .ite (fun _ => .look_bind (hs₁.handles_push _)) fun _ => .look_bind (hs₁.handles_push _)

theorem handles_getField (f : Field) : Handles t l m (getField f) := by
  unfold getField
  refine hs.handles_pop.bind fun v l₁ m₁ hs₁ => .look_bind (.ite (fun _ => ?_) fun _ => ?_)
  · exact .fetch_bind fun w => hs₁.handles_push w
  · exact .silent_bind (.note _) hs₁ fun _ m₂ hs₂ => hs₂.handles_push _

theorem handles_splitList (n : Int) : Handles t l m (splitList n) := by
  unfold splitList
  dsimp only
  refine .ite (fun _ => .throw_bind hs) fun _ => hs.handles_pop.bind fun v l₁ m₁ hs₁ =>
    .ask_bind hs₁ ?_
  rintro ⟨items, rest⟩
  exact (hs₁.handles_push rest).bind fun _ l₂ m₂ hs₂ => hs₂.handles_pushAll items

theorem handles_indexList (n : Int) : Handles t l m (indexList n) := by
  unfold indexList
  exact hs.handles_pop.bind fun v l₁ m₁ hs₁ => .look_bind (hs₁.handles_push _)

theorem handles_arithmetic (op : Alu) : Handles t l m (arithmetic op) := by
  unfold arithmetic
  dsimp only
  refine .ite (fun _ => .pure_bind ?_) fun _ => (hs.handles_popNumber _).bind fun k l₁ m₁ hs₁ => ?_
  · exact (hs.handles_popNumber _).bind fun n l₁ m₁ hs₁ => hs₁.handles_push _
  · exact (hs₁.handles_popNumber _).bind fun n l₂ m₂ hs₂ => hs₂.handles_push _

theorem handles_compare (r : Relation) : Handles t l m (compare r) := by
  cases r with
  | eq | ne =>
    exact hs.handles_pop.bind fun v l₁ m₁ hs₁ => hs₁.handles_pop.bind fun w l₂ m₂ hs₂ =>
      hs₂.handles_push _
  | _ =>
    exact (hs.handles_popNumber _).bind fun v l₁ m₁ hs₁ =>
      (hs₁.handles_popNumber _).bind fun w l₂ m₂ hs₂ => hs₂.handles_push _

end Seat

theorem event_bind {k : Word → MachineM β} (hk : ∀ w, Handles t l m (k w)) :
    Handles t l m (event >>= k) := by
  refine Ensures.bind (Q := fun _ m' => m = m') ?_ ?_
  · unfold event
    rw [ensures_thread_bind, ensures_onHeap]
    exact Heap.ensures_fetch fun _ _ _ => rfl
  · rintro w m' rfl
    exact hk w

variable (hs : Seat t l m)

include hs

theorem me_bind {k : Word → MachineM β} (hk : ∀ w, Handles t l m (k w)) :
    Handles t l m (me >>= k) := by
  unfold me
  simp only [bind_assoc]
  refine event_bind fun e => .fetch_bind fun target => .look_bind ?_
  split
  · exact .throw_bind hs
  · exact hk _

theorem handles_message (n : Int) : Handles t l m (message n) := by
  unfold message
  exact event_bind fun e => .fetch_bind fun w => .look_bind (hs.handles_push _)

theorem handles_own (o : Own) : Handles t l m (own o) := by
  unfold own
  refine hs.me_bind fun me => ?_
  cases o with
  | self => exact hs.handles_push _
  | beh | state => exact .fetch_bind fun w => hs.handles_push w

theorem handles_writeByte : Handles t l m writeByte := by
  unfold writeByte
  exact (hs.handles_popNumber _).bind fun n l₁ m₁ hs₁ => .silent (.console _) hs₁

theorem handles_readByte : Handles t l m readByte := by
  unfold readByte Handles
  rw [ensures_get_bind]
  obtain ⟨byte, console⟩ := m.console.getc
  refine Handles.silent_bind (.console fun _ => console) hs fun _ m₁ hs₁ => ?_
  cases byte with
  | some b => exact hs₁.handles_push _
  | none => exact hs₁.handles_push _

theorem handles_showValue (tag : Word) : Handles t l m (showValue tag) := by
  unfold showValue
  refine hs.handles_pop.bind fun v l₁ m₁ hs₁ => .ask_bind hs₁ fun text => ?_
  exact .silent_bind (.note _) hs₁ fun _ m₂ hs₂ => .silent (.trace _) hs₂

theorem handles_composeMessage : Handles t l m (composeMessage 0) := by
  unfold composeMessage
  refine hs.handles_pop.bind fun target l₁ m₁ hs₁ => .look_bind ?_
  dsimp only
  refine .ite (fun _ => .throw_bind hs₁) fun _ => .ite (fun _ => ?_) fun h => absurd rfl h
  exact hs₁.handles_pop.bind fun msg l₂ m₂ hs₂ => .pure hs₂

end Seat

/-- Instructions that make nothing which outlives the transaction: no cells, lists, actors, states
or symbols. -/
def Instruction.isFrugal : Instruction → Bool
  | cell _ | set _ | pair _ | new _ | beh _ | convert .listToSymbol => false
  | send n => n = 0
  | _ => true

theorem Seat.ensures_perform (hs : Seat t l m) (i : Instruction) {next : Word}
    (hi : i.isFrugal = true) (hsend : ∀ n, i ≠ .send n) (hfinish : ∀ e, i ≠ .finish e) :
    Ensures (perform i next) m
      (fun flow m' => (∃ ip, flow = .next ip) ∧ ∃ l', Seat t l' m' ∧ Shifts t l l' m m')
      fun m' => ∃ l', Seat t l' m' ∧ Shifts t l l' m m' := by
  have hflow : ∀ {act : MachineM Unit}, Handles t l m act →
      Ensures (act >>= fun _ => pure (Flow.next next)) m
        (fun flow m' => (∃ ip, flow = .next ip) ∧ ∃ l', Seat t l' m' ∧ Shifts t l l' m m')
        fun m' => ∃ l', Seat t l' m' ∧ Shifts t l l' m m' :=
    fun hr => Ensures.bind hr fun _ m' h => ⟨⟨next, rfl⟩, h⟩
  unfold perform
  cases i with
  | cell n | set f | pair n | new n | beh n => cases hi
  | send n => exact absurd rfl (hsend n)
  | finish e => exact absurd rfl (hfinish e)
  | typeq v => exact hflow (hs.handles_typeTest v)
  | get f => exact hflow (hs.handles_getField f)
  | part n => exact hflow (hs.handles_splitList n)
  | nth n => exact hflow (hs.handles_indexList n)
  | push v => exact hflow (hs.handles_push v)
  | depth =>
    dsimp only
    rw [← bind_assoc]
    exact hflow (hs.depth_bind (hs.handles_push _))
  | drop n => exact hflow (hs.handles_dropItems n)
  | pick n => exact hflow (hs.handles_pick n)
  | dup n => exact hflow (hs.handles_dup n)
  | roll n => exact hflow (hs.handles_roll n)
  | alu op => exact hflow (hs.handles_arithmetic op)
  | eq v =>
    dsimp only
    rw [← bind_assoc]
    exact hflow (hs.handles_pop.bind fun _ _ _ hs' => hs'.handles_push _)
  | cmp r => exact hflow (hs.handles_compare r)
  | branch target => exact Ensures.bind hs.handles_pop fun v m' h => ⟨⟨_, rfl⟩, h⟩
  | msg n => exact hflow (hs.handles_message n)
  | my o => exact hflow (hs.handles_own o)
  | convert c =>
    cases c with
    | listToSymbol => cases hi
    | listToNumber =>
      exact hflow (hs.handles_pop.bind fun v l₁ m₁ hs₁ => .ask_bind hs₁ fun w => hs₁.handles_push w)
  | putc => exact hflow hs.handles_writeByte
  | getc => exact hflow hs.handles_readByte
  | debug tag => exact hflow (hs.handles_showValue tag)

end ActorMachine
