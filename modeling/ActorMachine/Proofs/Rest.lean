import ActorMachine.Proofs.Serialization

namespace ActorMachine

variable {m m' : Machine} {config : Config}

namespace Heap

variable {h : Heap}

theorem ensures_top_store {v w : Word} {f : Field} :
    Ensures (store v f w) h (fun _ h' => h'.top = h.top) fun _ => True := by
  unfold Ensures store
  by_cases hc : h.isCell v = true
  · rw [if_pos hc]
    exact top_shade ..
  · rw [if_neg hc]
    exact .inr trivial

theorem ensures_top_alloc {c : Cell} :
    Ensures (alloc c) h (fun v h' => h.top ≤ h'.top ∧ (1 < h.top → v ≠ .nil)) fun _ => True := by
  -- The empty list is no cell to be taken, unless nearly nothing else is there.
  unfold Ensures alloc
  by_cases hf : h.freeHead ≠ .nil
  · rw [if_pos hf]
    exact ⟨by rw [top_shade]; exact Nat.le_refl _, fun _ => hf⟩
  · rw [if_neg hf]
    by_cases ht : h.top < h.capacity
    · rw [if_pos ht]
      refine ⟨by rw [top_shade]; exact Nat.le_succ _, fun h1 hv => ?_⟩
      injection hv with hv
      omega
    · rw [if_neg ht]
      exact .inr trivial

end Heap

theorem Queue.ensures_tail_put {q : Queue} {h : Heap} {v : Word} :
    Ensures (q.put v) h (fun q' _ => q'.tail = v) fun _ => True := by
  unfold Queue.put
  refine Ensures.any.bind fun _ h _ => ?_
  dsimp only
  exact .ite (fun _ => Ensures.any.bind fun _ _ _ => rfl) fun _ => rfl

theorem Queue.ensures_head_put {q : Queue} {h : Heap} {v : Word} (hv : v ≠ .nil) :
    Ensures (q.put v) h (fun q' _ => q'.head ≠ .nil) fun _ => True := by
  unfold Queue.put
  refine Ensures.any.bind fun _ _ _ => ?_
  have hrest : ∀ h, Ensures (do
      modify fun h : Heap => h.shade v
      return (⟨if q.isEmpty then v else q.head, v⟩ : Queue) : HeapM Queue) h
      (fun q' _ => q'.head ≠ .nil) fun _ => True := by
    intro h
    rw [ensures_modify_bind]
    change (if q.isEmpty then v else q.head) ≠ .nil
    split
    · exact hv
    · next hq => simpa [isEmpty] using hq
  refine .ite (fun _ => Ensures.any.bind fun _ h _ => hrest h) fun _ => hrest _

namespace Machine

theorem ensures_top_copyList {v : Word} :
    Ensures (copyList v) m (fun _ m' => m.heap.top ≤ m'.heap.top) fun _ => True := by
  unfold copyList
  refine Ensures.bind (Q := fun _ m' => m = m') ?_ ?_
  · rw [ensures_ask]
    cases m.heap.items v with
    | ok vs => rfl
    | error f => exact .inr trivial
  rintro vs m' rfl
  unfold Heap.ofItems Heap.prepend
  rw [ensures_onHeap]
  induction vs with
  | nil => exact Nat.le_refl m.heap.top
  | cons w vs ih =>
    rw [List.foldrM_cons]
    refine ih.bind fun u h' hle => ?_
    exact Heap.ensures_top_alloc.imp (fun _ _ h => Nat.le_trans hle h.1)

theorem ensures_head_spawn {event : Word} {a : Nat} (ha : a < m.heap.top)
    (ht : (m.heap.cellAt a).t = .actorT) :
    Ensures (spawn event (.ref a)) m (fun r m' => (∃ t, r = .spawned t) ∧ m'.threads.head ≠ .nil)
      fun _ => True := by
  unfold spawn
  refine ensures_fetch_bind fun i hi _ => ?_
  cases hi
  rw [ensures_look_bind]
  dsimp only
  refine .ite (fun _ => .inr trivial) fun hcode => ?_
  -- An actor and its code are two cells.
  have htop : 1 < m.heap.top := by
    have hcode : m.heap.isCode ((m.heap.cellAt a).get .x) = true := by simpa using hcode
    obtain ⟨i, -, hi, htype⟩ := Heap.hasType_iff.1 hcode
    have hne : i ≠ a := by
      rintro rfl
      rw [ht] at htype
      cases htype
    omega
  refine ensures_fetch_bind fun i _ _ => ?_
  refine Ensures.bind (Q := fun _ m' => 1 < m'.heap.top) ?_ fun _ m₁ h₁ => ?_
  · rw [ensures_onHeap]
    exact Heap.ensures_top_store.mono (fun _ _ h => h.symm ▸ htop) fun _ _ => trivial
  refine (ensures_top_copyList.imp (fun _ _ h => Nat.lt_of_lt_of_le h₁ h)).bind
    fun sp m₂ h₂ => ?_
  refine Ensures.bind (Q := fun thread _ => thread ≠ .nil) ?_ fun thread m₃ h₃ => ?_
  · rw [ensures_onHeap]
    exact Heap.ensures_top_alloc.mono (fun _ _ h => h.2 h₂) fun _ _ => trivial
  refine Ensures.bind (Q := fun _ m' => m'.threads.head ≠ .nil) ?_ fun _ m₄ h₄ => ?_
  · unfold putThread
    rw [ensures_get_bind]
    refine Ensures.bind (Q := fun q _ => q.head ≠ .nil) ?_ fun q m₄ h₄ => ?_
    · rw [ensures_onHeap]
      exact (Queue.ensures_head_put h₃).mono (fun _ _ h => h) fun _ _ => trivial
    · exact h₄
  rw [ensures_count_bind]
  refine (Silent.noteDispatch _).bind fun _ m₅ hq => ⟨⟨thread, rfl⟩, ?_⟩
  rw [hq.threads]
  exact h₄

structure PutsOff (m : Machine) (e : Word) (m' : Machine) : Prop where
  last : m'.events.tail = e
  target : ∃ m₁ i a, e = .ref i ∧ popEvent m = .ok (some e) m₁ ∧ (m₁.heap.cellAt i).x = .cap a ∧
    m₁.heap.isActor (.cap a) = true ∧ (m₁.heap.cellAt a).z ≠ .undefined

def Concludes (m : Machine) : Dispatch → Machine → Prop
  | .idle, m' => m'.events.head = .nil
  | .dropped _, _ => True
  | .busy e, m' => m.PutsOff e m'
  | .spawned _, m' => m'.threads.head ≠ .nil

theorem ensures_popEvent_any :
    Ensures popEvent m (fun r m' => popEvent m = .ok r m' ∧ (r = none → m'.events.head = .nil))
      fun _ => True := by
  refine Ensures.result ?_
  unfold popEvent Queue.pop
  rw [ensures_get_bind]
  refine Ensures.bind (Q := fun r _ => r.1 = none → r.2.head = .nil) ?_ ?_
  · rw [ensures_onHeap]
    refine .ite (fun hq _ => by simpa [Queue.isEmpty] using hq) fun _ => ?_
    refine Ensures.any.bind fun _ _ _ => Ensures.any.bind fun _ _ _ => ?_
    simp
  · rintro ⟨r, q⟩ m₁ hr
    exact hr

theorem ensures_last_putEvent {e : Word} :
    Ensures (putEvent e) m (fun _ m' => m'.events.tail = e) fun _ => True := by
  unfold putEvent
  rw [ensures_get_bind]
  refine Ensures.bind (Q := fun q _ => q.tail = e) ?_ ?_
  · rw [ensures_onHeap]
    unfold Queue.putEvent
    rw [ensures_get_bind]
    dsimp only
    refine .ite (fun _ => .inr trivial) fun _ => Ensures.any.bind fun _ h _ => ?_
    rw [ensures_get_bind]
    exact .ite (fun _ => .inr trivial) fun _ => Queue.ensures_tail_put
  · rintro q m₁ hq
    exact hq

theorem ensures_concludes :
    Ensures dispatch m (fun r m' => dispatch m = .ok r m' ∧ m.Concludes r m') fun _ => True := by
  refine Ensures.result ?_
  unfold dispatch
  refine ensures_popEvent_any.bind ?_
  rintro (_ | e) m₁ ⟨hpop, hnone⟩
  · exact hnone rfl
  refine ensures_fetch_bind fun i hi _ => ?_
  subst hi
  rw [ensures_look_bind]
  refine .ite (fun _ => ?_) fun hactor => ?_
  · refine Ensures.any.bind fun _ _ _ => Ensures.any.bind fun _ _ _ =>
      Ensures.any.bind fun _ _ _ => ?_
    trivial
  have hactor : m₁.heap.isActor ((m₁.heap.cellAt i).get .x) = true := by simpa using hactor
  obtain ⟨a, hx, hlt, htype⟩ := Heap.isActor_iff.1 hactor
  refine ensures_fetch_bind fun j hj _ => ?_
  rw [hx] at hj
  cases hj
  refine .ite (fun hz => ?_) fun _ => ?_
  · refine Ensures.any.bind fun _ _ _ => ensures_last_putEvent.bind fun _ m₂ hlast => ?_
    rw [ensures_count_bind]
    exact ⟨hlast, m₁, i, a, rfl, hpop, hx, hx ▸ hactor, hz⟩
  · rw [hx]
    refine (ensures_head_spawn hlt htype).imp ?_
    rintro r m₂ ⟨⟨t, rfl⟩, hhead⟩
    exact hhead

inductive Sheds : Machine → Machine → Prop
  | refl (m : Machine) : Sheds m m
  | drop {m m₁ m' : Machine} {e : Word} : dispatch m = .ok (.dropped e) m₁ → Sheds m₁ m' →
    Sheds m m'

def Pauses (m m' : Machine) : Prop :=
  m'.events.head = .nil ∨ ∃ m₀ e, m.Sheds m₀ ∧ dispatch m₀ = .ok (.busy e) m' ∧ m₀.PutsOff e m'

theorem Pauses.drop {m₁ : Machine} {e : Word} (hd : dispatch m = .ok (.dropped e) m₁)
    (hp : m₁.Pauses m') : m.Pauses m' := by
  obtain hnil | ⟨m₀, e', hs, hbusy⟩ := hp
  · exact .inl hnil
  · exact .inr ⟨m₀, e', .drop hd hs, hbusy⟩

theorem ensures_pauses (b : Budget) :
    Ensures (dispatchNext b) m (fun _ m' => m.Pauses m' ∨ m'.threads.head ≠ .nil)
      fun _ => True := by
  have hend : ∀ {m m' : Machine} {r : Dispatch}, dispatch m = .ok r m' ∧ m.Concludes r m' →
      (∀ e, r ≠ .dropped e) → m.Pauses m' ∨ m'.threads.head ≠ .nil := by
    rintro m m' r ⟨hr, hc⟩ hne
    cases r with
    | idle => exact .inl (.inl hc)
    | dropped e => exact absurd rfl (hne e)
    | busy e => exact .inl (.inr ⟨m, e, .refl m, hr, hc⟩)
    | spawned => exact .inr hc
  obtain ⟨n, task⟩ := b
  induction n generalizing m with
  | zero =>
    unfold dispatchNext
    refine ensures_concludes.bind fun r m' hr => ?_
    cases r with
    | dropped => exact .inr trivial
    | _ => exact hend hr (by simp)
  | succ n ih =>
    unfold dispatchNext
    refine ensures_concludes.bind fun r m' hr => ?_
    cases r with
    | dropped => exact ih.imp fun _ _ => Or.imp_left (Pauses.drop hr.1)
    | _ => exact hend hr (by simp)

theorem ensures_noThreads :
    Ensures execute m (fun step m' => step = .noThreads → m' = m ∧ m.threads.head = .nil)
      fun _ => True := by
  have hadv : ∀ {m : Machine} {w : Word},
      Ensures (advance w) m (fun step _ => step ≠ .noThreads) fun _ => True := by
    intro m w
    unfold advance
    refine Ensures.any.bind fun ip _ _ => Ensures.any.bind fun r _ _ => ?_
    match r with
    | .ok (.next _) => exact Ensures.any.bind fun _ _ _ => Ensures.any.bind fun _ _ _ => by simp
    | .ok (.ended _) => exact Ensures.any.bind fun _ _ _ => by simp
    | .error f =>
      dsimp only
      refine .ite (fun _ => Ensures.any.bind fun _ _ _ => .inr trivial) fun _ => ?_
      exact Ensures.any.bind fun _ _ _ => Ensures.any.bind fun _ _ _ =>
        Ensures.any.bind fun _ _ _ => by simp
  unfold execute
  rw [ensures_thread_bind]
  refine .ite (fun hnil _ => ⟨rfl, hnil⟩) fun _ => ?_
  refine Ensures.any.bind fun _ _ _ => hadv.bind fun step m' hs => ?_
  cases step with
  | noThreads => exact absurd rfl hs
  | continued => exact fun h => by cases h
  | retired e => exact Ensures.any.bind fun _ _ _ => fun h => by cases h

theorem ensures_rest :
    Ensures tick m (fun b m' => b = false → m'.threads.head = .nil ∧
      ∃ due m₁, interrupt m = .ok due m₁ ∧ m₁.Pauses m') fun _ => True := by
  unfold tick prepare
  refine Ensures.bind (Q := fun _ m' => (∃ due m₁, interrupt m = .ok due m₁ ∧ m₁.Pauses m') ∨
    m'.threads.head ≠ .nil) ?_ fun _ m₁ h₁ => ?_
  · refine (Ensures.result Ensures.any).bind fun due m₁ ⟨hdue, _⟩ => ?_
    rw [ensures_look_bind]
    exact (ensures_pauses _).imp fun _ _ => Or.imp_left fun hp => ⟨due, m₁, hdue, hp⟩
  refine ensures_noThreads.bind fun step m₂ h₂ => ?_
  cases step with
  | noThreads =>
    obtain ⟨rfl, hnil⟩ := h₂ rfl
    exact fun _ => ⟨hnil, h₁.resolve_right fun h => h hnil⟩
  | _ => exact fun h => by cases h

theorem runFor_succ (n : Nat) (m : Machine) : runFor (n + 1) m = match tick m with
    | .ok true m₁ => runFor n m₁
    | .ok false m₁ => .ok true m₁
    | .error f m₁ => .error f m₁ := by
  rw [runFor]
  change EStateM.bind tick _ m = _
  unfold EStateM.bind
  split
  · next b m₁ ht =>
    rw [ht]
    cases b <;> rfl
  · next ht => rw [ht]

theorem last_round {n : Nat} (hr : runFor n m = .ok true m') : ∃ k m₀, runFor k m = .ok false m₀ ∧
    tick m₀ = .ok false m' ∧ ∀ config, Running config m → Running config m₀ := by
  induction n generalizing m with
  | zero => cases hr
  | succ n ih =>
    rw [runFor_succ] at hr
    split at hr
    · next m₁ ht =>
      obtain ⟨k, m₀, hk, h₀, hrun⟩ := ih hr
      refine ⟨k + 1, m₀, by rw [runFor_succ, ht]; exact hk, h₀,
        fun config hm => hrun config (.command .tick hm (by simp [Command.words]) ?_)⟩
      change EStateM.bind tick _ m = _
      unfold EStateM.bind
      rw [ht]
      rfl
    · next m₁ ht =>
      cases hr
      exact ⟨0, m, rfl, ht, fun _ h => h⟩
    · cases hr

end Machine

theorem Tidy.rests {ρ : Roles} (ht : Tidy ρ m) (hr : Machine.tick m = .ok false m') : m'.Rests := by
  obtain ⟨ρ', -, hround⟩ := (ht.ensures_tick (E := fun _ => True)).ok hr
  cases hround with
  | rest _ hd _ hnil => exact hd.rests hnil

theorem Recorded.ended_stop {H : History} {a : Nat} (hr : Recorded config m H)
    (hc : config.strategy ≠ .incremental) (hnil : m.threads.head = .nil)
    (ha : m.heap.isActor (.cap a) = true) (hz : (m.heap.cellAt a).z ≠ .undefined) :
    (H a).ended = some .stop := by
  obtain ⟨ρ, ht, hH⟩ := hr.recounts hc
  have hl := ht.settled.orderly.layout
  have hrole := hl.role_of_isActor ha (ht.clean a)
  cases hρ : ρ a with
  | idle =>
    have hs := (hl.fits a).2
    rw [hρ] at hs
    exact absurd hs.2.2.2 hz
  | busy t =>
    obtain ⟨⟨l, hl, hm⟩, -⟩ := ht.settled.serves_iff.2 hρ
    cases l with
    | nil => cases hm
    | cons i l => exact absurd hnil hl.ne_nil
  | stopped => exact (hH a).stopped hρ
  | transit => exact absurd (ht.settled.brief a (by rw [hρ]; rfl)) List.not_mem_nil
  | _ =>
    rw [hρ] at hrole
    cases hrole

/-- A machine that comes to rest has no thread, and has found no event or has put off the last one.
If it is in order and events for idle actors are left, then the last event in the queue is for an
actor that was stopped. -/
theorem Machine.comes_to_rest (hr : tick m = .ok false m' ∨ ∃ n, runFor n m = .ok true m') :
    m'.threads.head = .nil ∧
      (m'.events.head = .nil ∨ ∃ k m₁ due m₂ m₀ e, runFor k m = .ok false m₁ ∧
        tick m₁ = .ok false m' ∧ interrupt m₁ = .ok due m₂ ∧ m₂.Sheds m₀ ∧
        dispatch m₀ = .ok (.busy e) m' ∧ m₀.PutsOff e m') ∧
      ∀ config, Running config m → config.strategy ≠ .incremental → ∃ q, m'.Waiting q ∧
        ((∀ i ∈ q, ∀ a, (m'.heap.cellAt i).x = .cap a → m'.heap.isActor (.cap a) = true →
            (m'.heap.cellAt a).z ≠ .undefined) ∨
          ∃ q' e a, q = q' ++ [e] ∧ (m'.heap.cellAt e).x = .cap a ∧
            m'.heap.isActor (.cap a) = true ∧
            ∀ H, Recorded config m' H → (H a).ended = some .stop) := by
  obtain ⟨k, m₁, hk, h₁, hrun⟩ : ∃ k m₁, runFor k m = .ok false m₁ ∧ tick m₁ = .ok false m' ∧
      ∀ config, Running config m → Running config m₁ := by
    obtain hr | ⟨n, hr⟩ := hr
    · exact ⟨0, m, rfl, hr, fun _ h => h⟩
    · exact last_round hr
  obtain ⟨hnil, due, m₂, hdue, hpause⟩ := ensures_rest.ok h₁ rfl
  refine ⟨hnil, hpause.imp_right ?_, fun config hm hc => ?_⟩
  · rintro ⟨m₀, e, hsheds, hbusy⟩
    exact ⟨k, m₁, due, m₂, m₀, e, hk, h₁, hdue, hsheds, hbusy⟩
  obtain ⟨ρ, ht⟩ := (hrun config hm).tidy hc
  obtain hempty | ⟨q, e, a, hq, hx, ha, hz⟩ := ht.rests h₁
  · exact ⟨[], hempty, .inl (by simp)⟩
  · exact ⟨q ++ [e], hq, .inr ⟨q, e, a, rfl, hx, ha, fun H hH => hH.ended_stop hc hnil ha hz⟩⟩

theorem Machine.rests_before_idle : ∃ m m', Running { heapCapacity := 80, topMargin := 8 } m ∧
    tick m = .ok false m' ∧ m'.Waiting [17, 18] ∧ (m'.heap.cellAt 17).x = .cap 16 ∧
    (m'.heap.cellAt 18).x = .cap 15 ∧ m'.heap.isActor (.cap 16) = true ∧
    (m'.heap.cellAt 16).z = .undefined := by
  have hplay : (play { heapCapacity := 80, topMargin := 8 }
      [.block [.finish .stop], .block [.finish .commit], .actor (.ref 13) [], .actor (.ref 14) []]
      [.send (.cap 15) (.fix 1), .tick, .tick, .send (.cap 15) (.fix 2),
        .send (.cap 16) (.fix 3)]).any
      (fun m => (yield? false (tick m)).any fun m' => decide (
        m'.heap.Chain .z m'.events.head [17, 18] ∧ m'.events.tail = .ref 18 ∧
        (m'.heap.cellAt 17).x = .cap 16 ∧ (m'.heap.cellAt 18).x = .cap 15 ∧
        m'.heap.isActor (.cap 16) = true ∧
        (m'.heap.cellAt 16).z = .undefined)) = true := by decide +kernel
  obtain ⟨m, hm, hfacts⟩ := (Option.any_eq_true _ _).1 hplay
  obtain ⟨m', ht, hfacts⟩ := (Option.any_eq_true _ _).1 hfacts
  obtain ⟨hchain, htail, hrest⟩ := of_decide_eq_true hfacts
  exact ⟨m, m', .of_play hm, yield?_eq_some ht, ⟨hchain, htail⟩, hrest⟩

theorem Machine.idle_target_left : ∃ m m' i a, Running { heapCapacity := 80, topMargin := 8 } m ∧
    tick m = .ok false m' ∧ (∃ q, m'.Waiting q ∧ i ∈ q) ∧ (m'.heap.cellAt i).x = .cap a ∧
    m'.heap.isActor (.cap a) = true ∧ (m'.heap.cellAt a).z = .undefined := by
  obtain ⟨m, m', hm, ht, hq, hx, -, ha, hz⟩ := rests_before_idle
  exact ⟨m, m', 17, 16, hm, ht, ⟨_, hq, by simp⟩, hx, ha, hz⟩

theorem Machine.comes_to_rest_stopped : ∃ m m', Running { heapCapacity := 80, topMargin := 8 } m ∧
    tick m = .ok false m' ∧ m'.Waiting [17, 18] ∧ (m'.heap.cellAt 18).x = .cap 15 ∧
    ∀ H, Recorded { heapCapacity := 80, topMargin := 8 } m' H → (H 15).ended = some .stop := by
  obtain ⟨m, m', hm, ht, hq, hx, hx', ha, hz⟩ := rests_before_idle
  refine ⟨m, m', hm, ht, hq, hx', ?_⟩
  obtain ⟨-, -, hrest⟩ := comes_to_rest (.inl ht)
  obtain ⟨q, hwait, hidle | ⟨q', e, a, rfl, hxe, -, hstop⟩⟩ := hrest _ hm (by decide)
  · rw [hwait.unique hq] at hidle
    exact absurd hz (hidle 17 (by simp) 16 hx ha)
  · have he : e = 18 := by simpa using congrArg List.getLast? (hwait.unique hq)
    rw [he, hx'] at hxe
    cases hxe
    exact hstop

end ActorMachine
