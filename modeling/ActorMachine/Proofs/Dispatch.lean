import ActorMachine.Proofs.Operation

namespace ActorMachine

open Machine

variable {ρ ρ' ρ'' : Roles} {h h' : Heap} {m m' m'' : Machine} {α β : Type}
variable {r : Role} {M : Nat → Role → Prop} {v : Word}

/-- Nothing is under way, except with the cells of the list. -/
structure Settled (held : List Nat) (ρ : Roles) (m : Machine) : Prop where
  orderly : Orderly ρ m
  brief : ∀ i, (ρ i).isBrief = true → i ∈ held

def Movable (_ : Nat) (r : Role) : Prop := r ≠ .condemned ∧ r ≠ .lost

structure Proceeds (ρ : Roles) (m : Machine) (ρ' : Roles) (m' : Machine) : Prop where
  frame : Frame Movable ρ m.heap ρ' m'.heap
  steady : Steady m m'

theorem Keeps.proceeds (hk : Keeps M ρ m ρ' m')
    (hm : ∀ i, M i (ρ i) → Movable i (ρ i)) (hm' : ∀ i, M i (ρ i) → M i (ρ' i) → Movable i (ρ' i)) :
    Proceeds ρ m ρ' m' :=
  ⟨hk.frame.select hm fun i hi hi' => .inl (hm' i hi hi'), hk.steady⟩

theorem Quiet.proceeds (hq : Quiet m m') : Proceeds ρ m ρ m' :=
  ⟨by rw [hq.heap]; exact .refl, hq.untouched.steady⟩

namespace Settled

variable {held : List Nat} {i : Nat}

theorem quiet (hs : Settled held ρ m) (hq : Quiet m m') : Settled held ρ m' :=
  ⟨hs.orderly.quiet hq, hs.brief⟩

theorem tally (hs : Settled held ρ m) (f : Stats → Stats) : Settled held ρ (m.tally f) :=
  ⟨hs.orderly.tally f, hs.brief⟩

theorem set (hs : Settled held ρ m) (held' : List Nat) (ho : Orderly (ρ.set i r) m')
    (hr : r.isBrief = true → i ∈ held') (hheld : ∀ j ∈ held, j = i ∨ j ∈ held') :
    Settled held' (ρ.set i r) m' := by
  refine ⟨ho, fun j hj => ?_⟩
  by_cases hji : j = i
  · rw [hji, Roles.set_self] at hj
    exact hji ▸ hr hj
  · rw [Roles.set_ne _ _ hji] at hj
    exact (hheld j (hs.brief j hj)).resolve_left hji

end Settled

def Still (C : Nat → Prop) (ρ : Roles) (m : Machine) (ρ' : Roles) (m' : Machine) : Prop :=
  ∀ a, C a → (ρ a).isActor = true ∨ (ρ' a).isActor = true → Undisturbed a ρ m ρ' m'

namespace Still

variable {C : Nat → Prop}

end Still

def Role.isActing : Role → Bool
  | pending _ => true
  | r => r.isActor

theorem Role.isActing_of_isActor (hr : r.isActor = true) : r.isActing = true := by
  cases r <;> first | rfl | cases hr

theorem Role.not_isActing_of_inLine (hr : r.inLine = true) : r.isActing = false := by
  cases r <;> first | rfl | cases hr

theorem Frame.still {C : Nat → Prop} (hf : Frame M ρ m.heap ρ' m'.heap)
    (hidle : ∀ a, C a → ρ' a = .idle → ρ a = .idle)
    (hm : ∀ i, (C i ∨ ∃ a, ρ i = .pending a) → (ρ i).isActing = true → ¬ M i (ρ i))
    (hm' : ∀ i, (C i ∨ ∃ a, ρ' i = .pending a) → (ρ' i).isActing = true → ¬ M i (ρ' i)) :
    Still C ρ m ρ' m' := by
  have hbefore : ∀ a, C a → (ρ a).isActor = true → Undisturbed a ρ m ρ' m' := by
    intro a hc ha
    refine hf.undisturbed (hm a (.inl hc) (Role.isActing_of_isActor ha)) (fun i hi => ?_)
      fun i hi => ?_
    · rw [← hi]
      exact hm i (.inr ⟨a, hi⟩) (by rw [hi]; rfl)
    · rw [← hi]
      exact hm' i (.inr ⟨a, hi⟩) (by rw [hi]; rfl)
  rintro a hc (ha | ha)
  · exact hbefore a hc ha
  · refine hbefore a hc ?_
    by_cases hid : ρ' a = .idle
    · rw [hidle a hc hid]
      rfl
    · have hnew : (ρ' a).isNew = false := by
        cases hr : ρ' a <;> rw [hr] at ha hid <;> first | rfl | exact absurd rfl hid | cases ha
      rwa [← (hf.same_of_after (hm' a (.inl hc) (Role.isActing_of_isActor ha)) hnew).1]

def Posting (_ : Nat) (r : Role) : Prop := r.isSpare = true ∨ r = .queued

theorem Posting.movable {i : Nat} (hp : Posting i r) : Movable i r := by
  obtain hr | rfl := hp
  · refine ⟨?_, ?_⟩ <;> rintro rfl <;> cases hr
  · exact ⟨by simp, by simp⟩

theorem Posting.not_isActing {i : Nat} (hp : Posting i r) : r.isActing = false := by
  obtain hr | rfl := hp
  · cases r <;> first | rfl | cases hr
  · rfl

theorem Posting.inLine_eq_false {i : Nat} (hp : Posting i r) : r.inLine = false := by
  obtain hr | rfl := hp
  · cases r <;> first | rfl | cases hr
  · rfl

theorem Posting.isNew_eq_false {i : Nat} (hp : Posting i r) : r.isNew = false := by
  obtain hr | rfl := hp
  · cases r <;> first | rfl | cases hr
  · rfl

structure Posts (ρ : Roles) (m : Machine) (ρ' : Roles) (m' : Machine) : Prop where
  keeps : Keeps Posting ρ m ρ' m'
  new : ∀ i, (ρ' i).isNew = true → ρ' i = ρ i

namespace Posts

theorem refl : Posts ρ m ρ m := ⟨.refl, fun _ _ => rfl⟩

theorem trans (h₁ : Posts ρ m ρ' m') (h₂ : Posts ρ' m' ρ'' m'') : Posts ρ m ρ'' m'' := by
  refine ⟨h₁.keeps.trans h₂.keeps, fun i hi => ?_⟩
  have hr := h₂.new i hi
  rw [hr] at hi ⊢
  exact h₁.new i hi

theorem quiet (hq : Quiet m m') : Posts ρ m ρ m' := ⟨.quiet hq, fun _ _ => rfl⟩

section Posts

variable (hp : Posts ρ m ρ' m')

include hp

theorem tally (f : Stats → Stats) : Posts ρ m ρ' (m'.tally f) :=
  ⟨hp.keeps.trans (.tally f), hp.new⟩

theorem proceeds : Proceeds ρ m ρ' m' :=
  hp.keeps.proceeds (fun _ h => h.movable) fun _ _ h => h.movable

theorem still (C : Nat → Prop) : Still C ρ m ρ' m' := by
  refine hp.keeps.frame.still (fun a _ ha => ?_) (fun i _ ha hi => ?_) fun i _ ha hi => ?_
  · rw [← hp.new a (by rw [ha]; rfl), ha]
  · rw [hi.not_isActing] at ha
    cases ha
  · rw [hi.not_isActing] at ha
    cases ha

theorem same {i : Nat} (hi : ¬ Posting i (ρ i)) : Same ρ ρ' m.heap m'.heap i :=
  hp.keeps.frame.same hi

theorem same_of_after {i : Nat} (hi : ¬ Posting i (ρ' i)) : Same ρ ρ' m.heap m'.heap i := by
  cases hn : (ρ' i).isNew with
  | false => exact hp.keeps.frame.same_of_after hi hn
  | true =>
    refine hp.same fun hpost => hi ?_
    rwa [hp.new i hn]

theorem inLine_iff {i : Nat} : (ρ' i).inLine = true ↔ (ρ i).inLine = true := by
  refine hp.keeps.frame.inLine_iff fun r hr hi => ?_
  rw [hi.inLine_eq_false] at hr
  cases hr

theorem isActor_eq (hl : m.Arranged ρ)
    (hl' : m'.Arranged ρ') (w : Word) : m'.heap.isActor w = m.heap.isActor w := by
  refine hp.keeps.frame.isActor_eq hl hl' (fun i hi => hi.movable.1) (fun i => ?_) w
  have hnot : ∀ {r : Role}, Posting i r → r.isActor = false := by
    intro r hr
    cases ha : r.isActor with
    | false => rfl
    | true => rw [← hr.not_isActing, Role.isActing_of_isActor ha]
  obtain hs | ⟨hi, hi' | hn⟩ := hp.keeps.frame.changes i
  · rw [hs.1]
  · rw [hnot hi, hnot hi']
  · rw [hp.new i hn]

end Posts

theorem set {i : Nat} (hk : Keeps M ρ m (ρ.set i r) m')
    (hm : ∀ j r, M j r → j = i ∨ r = .queued) (hi : Posting i (ρ i)) (hr : Posting i r) :
    Posts ρ m (ρ.set i r) m' := by
  refine ⟨⟨hk.frame.select ?_ ?_, hk.steady, hk.threads⟩, fun j hj => ?_⟩
  · intro j hj
    obtain rfl | hj := hm j _ hj
    · exact hi
    · exact .inr hj
  · intro j _ hj
    obtain rfl | hj := hm j _ hj
    · rw [Roles.set_self]
      exact .inl hr
    · exact .inl (.inr hj)
  · by_cases hji : j = i
    · rw [hji, Roles.set_self, hr.isNew_eq_false] at hj
      cases hj
    · rw [Roles.set_ne _ _ hji]

theorem balances {k : Nat} (hp : Posts ρ m ρ' m') (hl : m.Arranged ρ)
    (hd : m'.stats.dispatched = m.stats.dispatched) (he : m'.stats.ended = m.stats.ended)
    (hw : ∀ q, m.Waiting q → ∃ q', m'.Waiting q' ∧
      k + m'.stats.clockEvents + (m.stats.dropped + q.length) =
        m.stats.clockEvents + (m'.stats.dropped + q'.length)) : Balances k m m' := by
  refine ⟨fun q hq => ?_, fun l hl' => ⟨l, ?_, by rw [hd, he]⟩⟩
  · obtain ⟨q', hq', h⟩ := hw q hq
    exact ⟨q', hq', by omega⟩
  · refine hp.keeps.frame.lined hp.keeps.threads hl (fun i hi hpost => ?_) hl'
    rw [hpost.inLine_eq_false] at hi
    cases hi

end Posts

/-- New events, for actors, are at the end of the queue. The others are what they were. -/
structure Extends (new : List Nat) (ρ : Roles) (m m' : Machine) : Prop where
  fresh : ∀ i ∈ new, (ρ i).isSpare = true ∧ m.heap.isActor (m'.heap.cellAt i).x = true
  waiting : ∀ q, m.Waiting q → m'.Waiting (q ++ new)
  fields : ∀ i, i ∉ new → ∀ f, f ≠ .z → (m'.heap.cellAt i).get f = (m.heap.cellAt i).get f
  dropped : m'.stats.dropped = m.stats.dropped

theorem Extends.of_heap (hh : m'.heap = m.heap) (he : m'.events = m.events)
    (hs : m'.stats = m.stats) :
    Extends [] ρ m m' := by
  refine ⟨by simp, fun q hq => ?_, fun i _ f _ => by rw [hh], by rw [hs]⟩
  unfold Waiting
  rw [he, hh, List.append_nil]
  exact hq

namespace Settled

variable {i : Nat} {E : Machine → Prop}

theorem ensures_putEvent (hs : Settled [i] ρ m) (hi : ρ i = .held)
    (hq : Suits ρ (m.heap.cellAt i) .queued) :
    Ensures (putEvent (.ref i)) m
      (fun _ m' => Settled [] (ρ.set i .queued) m' ∧ Posts ρ m (ρ.set i .queued) m' ∧
        Enqueues i m m') E := by
  refine (hs.orderly.ensures_putEvent hi hq).imp ?_
  rintro - m' ⟨ho, hk, henq⟩
  refine ⟨hs.set [] ho (by simp [Role.isBrief]) (by simp),
    .set hk (fun _ _ h => h) ?_ (.inr rfl), henq⟩
  rw [hi]
  exact .inl rfl

theorem ensures_free (hs : Settled [i] ρ m) (hi : ρ i = .held) :
    Ensures (liftM (Heap.free (.ref i)) : MachineM Unit) m
      (fun _ m' => Settled [] (ρ.set i .free) m' ∧ Posts ρ m (ρ.set i .free) m' ∧
        Spares m m') E := by
  refine (hs.orderly.ensures_free (v := .ref i) (by rw [Word.index, hi]; rfl)
    (by rw [Word.index, hi]; simp) (by rw [Word.index, hi]; simp)).imp ?_
  rintro - m' ⟨ho, hf, hu⟩
  refine ⟨hs.set [] ho (by simp [Role.isBrief]) (by simp),
    .set (.of_untouched hf hu) (fun _ _ h => .inl h) ?_ (.inl rfl), ?_⟩
  · rw [hi]
    exact .inl rfl
  · refine Confined.spares ⟨hf, hu⟩ hs.orderly.layout ?_
    rintro j hj (rfl : j = i)
    rw [hi] at hj
    cases hj

theorem ensures_post (hs : Settled [] ρ m) {target msg : Word} (ha : m.heap.isActor target = true)
    (ht : Safe ρ target) (hm : Safe ρ msg) :
    Ensures (do
        let event ← Heap.alloc ⟨.eventT, target, msg, .nil⟩
        putEvent event : MachineM Unit) m
      (fun _ m' => ∃ ρ' i, Settled [] ρ' m' ∧ Posts ρ m ρ' m' ∧ m'.stats = m.stats ∧
        Extends [i] ρ m m' ∧
        (m'.heap.cellAt i).x = target ∧ (m'.heap.cellAt i).y = msg) E := by
  have hcap : target.isCap = true := by
    obtain ⟨a, rfl, -⟩ := Heap.isActor_iff.1 ha
    rfl
  have hte : Word.eventT ≠ .freeT ∧ Word.eventT ≠ .actorT := by decide
  have hl := hs.orderly.layout
  refine (hs.orderly.ensures_alloc (c := ⟨.eventT, target, msg, .nil⟩) (.inl rfl) hte.1
    (fun _ _ => hte)
    (Cell.forall_words.2 ⟨hs.orderly.literal (by decide), hl.avoids ht, hl.avoids hm,
      hs.orderly.literal (by decide)⟩)).bind ?_
  rintro w m₁ ⟨i, rfl, hi, htake, ho₁, hf₁, hu₁⟩
  have hs₁ : Settled [i] (ρ.set i .held) m₁ := hs.set [i] ho₁ (by simp) (by simp)
  have hp₁ : Posts ρ m (ρ.set i .held) m₁ := by
    refine .set (.of_untouched hf₁ hu₁) (fun _ _ h => .inl h) ?_ (.inl rfl)
    obtain hi | hi := hi <;> rw [hi] <;> exact .inl rfl
  have hw₁ : Spares m m₁ := by
    refine Confined.spares ⟨hf₁, hu₁⟩ hs.orderly.layout ?_
    rintro j hj rfl
    simp [hj] at hi
  refine (hs₁.ensures_putEvent (Roles.set_self ..) ?_).imp ?_
  · rw [htake.self]
    exact ⟨rfl, hcap, ht.mono hf₁.grows, hm.mono hf₁.grows⟩
  · rintro - m₂ ⟨hs₂, hp₂, henq⟩
    have hx : (m₂.heap.cellAt i).x = target :=
      (henq.fields i .x (by decide)).trans (by rw [htake.self]; rfl)
    have hy : (m₂.heap.cellAt i).y = msg := (henq.fields i .y (by decide)).trans
      (by rw [htake.self]; rfl)
    have hstats := henq.stats.trans hw₁.stats
    refine ⟨_, i, hs₂, hp₁.trans hp₂, hstats,
      ⟨fun j hj => ?_, fun q hq => henq.waiting q (hw₁.waiting q hq), fun j hj f hf => ?_,
        by rw [hstats]⟩, hx, hy⟩
    · rw [List.mem_singleton.1 hj, hx]
      obtain hi | hi := hi <;> rw [hi] <;> exact ⟨rfl, ha⟩
    · rw [henq.fields j f hf, htake.ne (by simpa using hj)]

theorem ensures_interrupt (hs : Settled [] ρ m) :
    Ensures Machine.interrupt m
      (fun _ m' => ∃ ρ' new, Settled [] ρ' m' ∧ Posts ρ m ρ' m' ∧ Balances 0 m m' ∧
        Extends new ρ m m') E := by
  unfold Machine.interrupt
  rw [ensures_get_bind]
  cases hc : m.clock with
  | none => exact ⟨ρ, [], hs, .refl, .refl, .of_heap rfl rfl rfl⟩
  | some clock =>
    dsimp only
    have hh : clock.poll.2.handler = clock.handler := by
      unfold Clock.poll
      split <;> rfl
    generalize clock.poll = polled at hh ⊢
    obtain ⟨seconds, clock'⟩ := polled
    cases seconds with
    | none => exact ⟨ρ, [], hs, .refl, .refl, .of_heap rfl rfl rfl⟩
    | some seconds =>
      have hm : ({ m with clock := some clock' } : Machine).clock.map Clock.handler =
          m.clock.map Clock.handler := by
        simp only [hc, Option.map_some]
        exact congrArg some hh
      have hs₁ : Settled [] ρ { m with clock := some clock' } := by
        refine ⟨⟨hs.orderly.layout, ?_, hs.orderly.shuns, hs.orderly.lit⟩, hs.brief⟩
        unfold Machine.kept
        rw [hm]
        exact hs.orderly.kept
      have hp₁ : Posts ρ m ρ { m with clock := some clock' } :=
        ⟨⟨.refl, ⟨rfl, rfl, rfl, hm⟩, rfl⟩, fun _ _ => rfl⟩
      have hsafe : Safe ρ clock'.handler := hs₁.orderly.kept _ (by simp [Machine.kept])
      dsimp only
      rw [ensures_modify_bind, Machine.ensures_look_bind]
      refine .ite (fun ha => ?_) fun _ => ⟨ρ, [], hs₁, hp₁, .of_heap rfl rfl rfl rfl,
        .of_heap rfl rfl rfl⟩
      rw [← bind_assoc]
      refine (hs₁.ensures_post ha hsafe (safe_fix _)).bind ?_
      rintro - m₂ ⟨ρ₂, i, hs₂, hp₂, hstats, hpost, -⟩
      rw [Machine.ensures_count_bind]
      refine (Silent.note _).bind fun _ m₃ hq₃ => ?_
      have hp₃ := (hp₁.trans hp₂).tally fun s => { s with clockEvents := s.clockEvents + 1 }
      refine ⟨ρ₂, [i], (hs₂.tally _).quiet hq₃, hp₃.trans (.quiet hq₃), ?_,
        ⟨fun j hj => ?_, fun q hq => hq₃.spares.waiting _ (hpost.waiting q hq),
          fun j hj f hf => ?_, ?_⟩⟩
      · refine Balances.trans (hp₃.balances hs.orderly.layout ?_ ?_ fun q hq => ?_) (.quiet hq₃)
        · simp [Machine.tally, hstats]
        · simp [Machine.tally, hstats, Stats.ended]
        · refine ⟨q ++ [i], hpost.waiting q hq, ?_⟩
          simp only [Machine.tally, hstats, List.length_append, List.length_singleton]
          omega
      · rw [hq₃.heap]
        exact hpost.fresh j hj
      · rw [hq₃.heap]
        exact hpost.fields j hj f hf
      · rw [hq₃.stats]
        exact hpost.dropped

end Settled

theorem Roles.set_setAll (ρ : Roles) (i : Nat) (l : List Nat) (r : Role) :
    (ρ.setAll l r).set i r = ρ.setAll (i :: l) r := by
  funext j
  unfold Roles.set Roles.setAll
  grind

theorem Heap.isFatal_of_spine {b : Budget} {f : Fault} (hs : h.spine b v = .error f) :
    f.isFatal = true := by
  fun_induction Heap.spine h b v with
  | case1 b v hp e hb =>
    cases hs
    rw [(Budget.exhausted hb).2]
    rfl
  | case2 b v hp b' hb ih =>
    cases hr : h.spine b' (h.cdr v) with
    | ok ps =>
      rw [hr] at hs
      cases hs
    | error g =>
      rw [hr] at hs
      cases hs
      exact ih hr
  | case3 => cases hs

theorem Heap.isFatal_of_items {f : Fault} (hi : h.items v = .error f) : f.isFatal = true := by
  unfold Heap.items at hi
  cases hr : h.spine (h.budget "list_to_vec") v with
  | ok ps =>
    rw [hr] at hi
    cases hi
  | error g =>
    rw [hr] at hi
    cases hi
    exact isFatal_of_spine hr

namespace Orderly

variable {E : Machine → Prop}

theorem ensures_ofItems (ho : Orderly ρ m) {vs : List Word} (hv : ∀ v ∈ vs, Safe ρ v) :
    Ensures (liftM (Heap.ofItems vs) : MachineM Word) m
      (fun w m' => ∃ l, Orderly (ρ.setAll l .held) m' ∧ Strung (ρ.setAll l .held) m'.heap w l ∧
        (∀ i ∈ l, ρ i = .free ∨ ρ i = .outside) ∧
        Frame (fun i _ => i ∈ l) ρ m.heap (ρ.setAll l .held) m'.heap ∧ Untouched m m') E := by
  unfold Heap.ofItems Heap.prepend
  induction vs with
  | nil =>
    change Ensures (pure Word.nil : MachineM Word) m _ E
    exact ⟨[], by simpa using ho, ⟨rfl, by simp⟩, by simp, by simpa using .refl, .refl m⟩
  | cons v vs ih =>
    rw [List.foldrM_cons, liftM_bind]
    refine (ih fun w hw => hv w (List.mem_cons_of_mem v hw)).bind ?_
    rintro w m₁ ⟨l, ho₁, hs₁, hfresh, hf₁, hu₁⟩
    have ht : Word.pairT ≠ .freeT ∧ Word.pairT ≠ .actorT := by decide
    have hv₁ : Safe (ρ.setAll l .held) v := (hv v List.mem_cons_self).mono hf₁.grows
    refine (ho₁.ensures_alloc (c := ⟨.pairT, v, w, .undefined⟩) (.inl rfl) ht.1 (fun _ _ => ht)
      (Cell.forall_words.2 (ho₁.avoids_pair hv₁ (hs₁.avoids ho₁)))).imp ?_
    rintro w' m₂ ⟨i, rfl, hi, htake, ho₂, hf₂, hu₂⟩
    have hil : i ∉ l := by
      intro hil
      rw [Roles.setAll_mem _ hil] at hi
      simp at hi
    rw [Roles.setAll_not_mem _ hil] at hi
    rw [Roles.set_setAll] at ho₂ hf₂
    refine ⟨i :: l, ho₂, ⟨⟨rfl, ?_, ?_⟩, ?_⟩, ?_, ?_, hu₁.trans hu₂⟩
    · exact (ho₂.layout.bounds (i := i) (by rw [Roles.setAll_mem _ List.mem_cons_self]; simp)).1
    · rw [htake.self]
      exact hs₁.1.congr fun j hj => by rw [htake.ne (by rintro rfl; exact hil hj)]
    · intro j hj
      refine ⟨Roles.setAll_mem _ hj, ?_⟩
      obtain rfl | hj := List.mem_cons.1 hj
      · rw [htake.self]
        exact ⟨rfl, hv₁.mono hf₂.grows, rfl⟩
      · have hji : j ≠ i := fun h => hil (h ▸ hj)
        rw [htake.ne hji]
        exact (hs₁.2 j hj).2.mono hf₂.grows
    · intro j hj
      obtain rfl | hj := List.mem_cons.1 hj
      · exact hi
      · exact hfresh j hj
    · exact (hf₁.mono fun _ _ => List.mem_cons_of_mem i).trans
        (hf₂.mono fun j _ hj => hj ▸ List.mem_cons_self)

theorem ensures_copyList (ho : Orderly ρ m) (hv : Safe ρ v) : Ensures (copyList v) m
      (fun w m' => ∃ l, Orderly (ρ.setAll l .held) m' ∧ Strung (ρ.setAll l .held) m'.heap w l ∧
        (∀ i ∈ l, ρ i = .free ∨ ρ i = .outside) ∧
        Frame (fun i _ => i ∈ l) ρ m.heap (ρ.setAll l .held) m'.heap ∧ Untouched m m') E := by
  unfold copyList
  refine Ensures.bind (Q := fun vs m' => m = m' ∧ ∀ w ∈ vs, Safe ρ w) ?_ ?_
  · rw [ensures_ask]
    cases hi : m.heap.items v with
    | ok vs => exact ⟨rfl, (Readable.data ho.layout).items hv hi⟩
    | error f => exact .inl (Heap.isFatal_of_items hi)
  · rintro vs m' ⟨rfl, hvs⟩
    exact ho.ensures_ofItems hvs

theorem awaken (ho : Orderly ρ m) {a : Nat} (ha : ρ a = .idle) :
    Orderly (ρ.set a .transit) m ∧ Frame (fun j _ => j = a) ρ m.heap (ρ.set a .transit) m.heap := by
  have hg : Grows ρ (ρ.set a .transit) := Roles.grows_set (by rw [ha]; simp) (by simp)
  have hfit := ho.layout.fits a
  rw [ha] at hfit
  refine ⟨ho.relabel hg (ho.layout.relabel hg fun i => ?_)
    (Roles.condemned_set (by rw [ha]; simp) (by simp)), ?_⟩
  · by_cases hi : i = a
    · rw [hi, Roles.set_self, ha]
      exact .inr ⟨rfl, rfl, by simp, hfit.1,
        Suits.mono (r := .transit) hg ⟨hfit.2.1, hfit.2.2.1, hfit.2.2.2.1⟩⟩
    · exact .inl (Roles.set_ne _ _ hi)
  · exact .set (fun _ _ => rfl) (by rw [ha]; simp) (by simp) (.refl _) rfl rfl (Nat.le_refl _)

end Orderly

theorem Orderly.begin_bind {e a ip : Nat} {l : List Nat} {sp : Word} {k : Word → MachineM β}
    {P : β → Machine → Prop} {E : Machine → Prop} (ho : Orderly ρ m) (he : ρ e = .held)
    (ha : ρ a = .transit) (hip : ρ ip = .data) (hq : Suits ρ (m.heap.cellAt e) .queued)
    (hx : (m.heap.cellAt e).x = .cap a) (hz : (m.heap.cellAt e).z = .nil)
    (haz : (m.heap.cellAt a).z = .nil) (hs : Strung ρ m.heap sp l) (hel : e ∉ l)
    (hk : ∀ t m', (ρ t = .free ∨ ρ t = .outside) → Orderly (ρ.spawn t e a l) m' →
      Frame (fun j r => j = t ∨ j = e ∨ j = a ∨ j ∈ l ∨ r.inLine = true) ρ m.heap
        (ρ.spawn t e a l) m'.heap → m'.heap.cellAt a = m.heap.cellAt a →
      m'.heap.cellAt e = m.heap.cellAt e → Steady m m' → m'.events = m.events → m'.stats = m.stats →
      Ensures (k (.ref t)) m' P E) :
    Ensures (do
      let thread ← Heap.alloc ⟨.ref ip, sp, .ref e, .nil⟩
      putThread thread
      k thread : MachineM β) m P E := by
  have hipr := (ho.layout.bounds (i := ip) (by rw [hip]; simp)).1
  have hit : Word.ref ip ≠ .freeT ∧ Word.ref ip ≠ .actorT := by
    constructor <;> intro h <;> cases h <;> exact absurd hipr (by decide)
  have hwords : ∀ w ∈ Cell.words ⟨.ref ip, sp, .ref e, .nil⟩, w.Avoids ρ.condemned :=
    Cell.forall_words.2 ⟨by simp [Roles.condemned, hip], hs.avoids ho,
      by simp [Roles.condemned, he], ho.literal (by decide)⟩
  refine (ho.ensures_alloc (c := ⟨.ref ip, sp, .ref e, .nil⟩) (.inl rfl) hit.1 (fun _ _ => hit)
    hwords).bind ?_
  rintro w m₁ ⟨t, rfl, ht, htake, ho₁, hf₁, hu₁⟩
  have hne : ∀ {i : Nat} {r : Role}, ρ i = r → r ≠ .free → r ≠ .outside → i ≠ t := by
    rintro i r hi h1 h2 rfl
    rw [hi] at ht
    exact ht.elim h1 h2
  have het := hne he (by simp) (by simp)
  have hat := hne ha (by simp) (by simp)
  have hipt := hne hip (by simp) (by simp)
  have hlt : ∀ i ∈ l, i ≠ t := fun i hi => hne (hs.2 i hi).1 (by simp) (by simp)
  have hspawn : (ρ.set t .held).spawn t e a l = ρ.spawn t e a l :=
    Roles.spawn_congr fun i hi _ _ => Roles.set_ne _ _ hi
  have hr : (ρ.set t .held).Ready t e a l := by
    refine ⟨Roles.set_self .., ?_, ?_, fun i hi => ?_, het.symm, fun h => hlt t h rfl, hel⟩
    · rw [Roles.set_ne _ _ het, he]
    · rw [Roles.set_ne _ _ hat, ha]
    · rw [Roles.set_ne _ _ (hlt i hi), (hs.2 i hi).1]
  refine (ho₁.ensures_putThread hr ?_ ?_ (by rw [htake.ne het, hz]) (by rw [htake.ne hat, haz]) ?_
    ?_).bind ?_
  · rw [htake.self]
    exact ⟨⟨ip, rfl, by rw [Roles.set_ne _ _ hipt, hip]⟩, rfl⟩
  · rw [htake.ne het]
    exact ⟨hq.1, hx, hq.2.2.2.mono hf₁.grows⟩
  · rw [htake.self]
    exact hs.1.congr fun i hi => by rw [htake.ne (hlt i hi)]
  · intro i hi
    rw [htake.ne (hlt i hi)]
    exact (hs.2 i hi).2.mono hf₁.grows
  · rintro - m₂ ⟨ho₂, hf₂, hcells, hsteady, hevents, hstats⟩
    rw [hspawn] at ho₂ hf₂
    refine hk t m₂ ht ho₂ ((hf₁.mono fun _ _ => .inl).trans hf₂) ?_ ?_ (hu₁.steady.trans hsteady)
      (hevents.trans hu₁.events) (hstats.trans hu₁.stats)
    · rw [hcells a hat (by rw [Roles.set_ne _ _ hat, ha]; rfl), htake.ne hat]
    · rw [hcells e het (by rw [Roles.set_ne _ _ het, he]; rfl), htake.ne het]

def Beginning (t e a i : Nat) (r : Role) : Prop :=
  Posting i r ∨ r.inLine = true ∨ i = t ∨ i = e ∨ i = a ∨ r = .operand t

structure Begins (t e a : Nat) (ρ : Roles) (m : Machine) (ρ' : Roles) (m' : Machine) : Prop where
  idle : ρ a = .idle
  free : Posting t (ρ t) ∧ Posting e (ρ e)
  thread : ρ' t = .thread e a
  line : ∀ i, (ρ' i).inLine = true ↔ i = t ∨ (ρ i).inLine = true
  frame : Frame (Beginning t e a) ρ m.heap ρ' m'.heap
  new : ∀ i, (ρ' i).isNew = true → ρ' i = ρ i
  steady : Steady m m'
  actor : m'.heap.cellAt a = (m.heap.cellAt a).set .z .nil
  staged : (m'.heap.cellAt e).z = .nil

namespace Begins

variable {t e a : Nat}

theorem of_spawn {l : List Nat} (ha : ρ a = .idle) (he : ρ e = .held)
    (ht : ρ t = .free ∨ ρ t = .outside) (hl : ∀ i ∈ l, ρ i = .free ∨ ρ i = .outside)
    (hf : Frame (fun j r => j = t ∨ j = e ∨ j = a ∨ j ∈ l ∨ r.inLine = true) ρ m.heap
      (ρ.spawn t e a l) m'.heap) (hs : Steady m m')
    (hactor : m'.heap.cellAt a = (m.heap.cellAt a).set .z .nil) (hz : (m'.heap.cellAt e).z = .nil) :
    Begins t e a ρ m (ρ.spawn t e a l) m' := by
  have hspare : ∀ {j : Nat}, (ρ j = .free ∨ ρ j = .outside) → Posting j (ρ j) := by
    rintro j (hj | hj) <;> rw [hj] <;> exact .inl rfl
  refine ⟨ha, ⟨hspare ht, .inl (by rw [he]; rfl)⟩, if_pos rfl, fun i => ?_, ?_, fun i hi => ?_,
    hs, hactor, hz⟩
  · have := hl i
    unfold Roles.spawn
    grind [Role.inLine]
  · refine hf.select (fun i hi => ?_) fun i _ hi => .inl ?_
    · obtain rfl | rfl | rfl | hi | hi := hi
      · exact .inr (.inr (.inl rfl))
      · exact .inr (.inr (.inr (.inl rfl)))
      · exact .inr (.inr (.inr (.inr (.inl rfl))))
      · exact .inl (hspare (hl i hi))
      · exact .inr (.inl hi)
    · unfold Beginning Roles.spawn at *
      grind [Role.inLine]
  · unfold Roles.spawn at *
    grind [Role.isNew]

theorem proceeds (hb : Begins t e a ρ m ρ' m') (hl' : m'.Arranged ρ') :
    Proceeds ρ m ρ' m' := by
  obtain ⟨he, ha⟩ := hl'.coherent.thread t e a hb.thread
  have hline : ∀ {i : Nat} {r : Role}, r.inLine = true → Movable i r := by
    intro i r hr
    constructor <;> rintro rfl <;> cases hr
  refine ⟨hb.frame.select ?_ ?_, hb.steady⟩
  · rintro i (h | h | rfl | rfl | rfl | h)
    · exact h.movable
    · exact hline h
    · exact hb.free.1.movable
    · exact hb.free.2.movable
    · rw [hb.idle]
      exact ⟨by simp, by simp⟩
    · rw [h]
      exact ⟨by simp, by simp⟩
  · rintro i - (h | h | rfl | rfl | rfl | h)
    · exact .inl h.movable
    · exact .inl (hline h)
    · rw [hb.thread]
      exact .inl ⟨by simp, by simp⟩
    · rw [he]
      exact .inl ⟨by simp, by simp⟩
    · rw [ha]
      exact .inl ⟨by simp, by simp⟩
    · rw [h]
      exact .inl ⟨by simp, by simp⟩

theorem still (hb : Begins t e a ρ m ρ' m') (hl' : m'.Arranged ρ') :
    Still (· ≠ a) ρ m ρ' m' := by
  obtain ⟨he, ha⟩ := hl'.coherent.thread t e a hb.thread
  refine hb.frame.still (fun b _ hid => ?_) ?_ ?_
  · rw [← hb.new b (by rw [hid]; rfl), hid]
  · rintro i hi hact (h | h | rfl | rfl | rfl | h)
    · simp [h.not_isActing] at hact
    · simp [Role.not_isActing_of_inLine h] at hact
    · simp [hb.free.1.not_isActing] at hact
    · simp [hb.free.2.not_isActing] at hact
    · obtain h | ⟨b, h⟩ := hi
      · exact h rfl
      · simp [hb.idle] at h
    · rw [h] at hact
      cases hact
  · rintro i hi hact (h | h | rfl | rfl | rfl | h)
    · simp [h.not_isActing] at hact
    · simp [Role.not_isActing_of_inLine h] at hact
    · rw [hb.thread] at hact
      cases hact
    · rw [he] at hact
      cases hact
    · obtain h | ⟨b, h⟩ := hi
      · exact h rfl
      · simp [ha] at h
    · rw [h] at hact
      cases hact

end Begins

theorem Posts.begins {t e a : Nat} (hp : Posts ρ m ρ' m') (hb : Begins t e a ρ' m' ρ'' m'') :
    Begins t e a ρ m ρ'' m'' := by
  have hback : ∀ {i : Nat}, Posting i (ρ' i) → Posting i (ρ i) := by
    intro i hi
    obtain hs | ⟨hi', -⟩ := hp.keeps.frame.changes i
    · rwa [← hs.1]
    · exact hi'
  have ha : ¬ Posting a (ρ' a) := by
    rintro (h | h) <;> rw [hb.idle] at h <;> cases h
  have hsame := hp.same_of_after ha
  refine ⟨hsame.1 ▸ hb.idle, ⟨hback hb.free.1, hback hb.free.2⟩, hb.thread, fun i => ?_,
    (hp.keeps.frame.mono fun _ _ => .inl).trans hb.frame, fun i hi => ?_,
    hp.keeps.steady.trans hb.steady, ?_, hb.staged⟩
  · rw [hb.line, hp.inLine_iff]
  · have hr := hb.new i hi
    rw [hr] at hi ⊢
    exact hp.new i hi
  · rw [hb.actor, hsame.2]

namespace Settled

variable {i : Nat} {E : Machine → Prop}

theorem ensures_spawn {e a : Nat} (hs : Settled [e] ρ m) (he : ρ e = .held)
    (hq : Suits ρ (m.heap.cellAt e) .queued) (hx : (m.heap.cellAt e).x = .cap a)
    (hz : (m.heap.cellAt e).z = .nil) (ha : ρ a = .idle) :
    Ensures (spawn (.ref e) (.ref a)) m
      (fun r m' => ∃ t ρ', r = .spawned (.ref t) ∧ Settled [] ρ' m' ∧ Begins t e a ρ m ρ' m' ∧
        (∀ q, m.Waiting q → m'.Waiting q) ∧
        (∀ i, i = e ∨ ρ i = .queued → m'.heap.cellAt i = m.heap.cellAt i) ∧
        m'.stats = { m.stats with dispatched := m.stats.dispatched + 1 }) E := by
  have hl := hs.orderly.layout
  have hsa := (hl.fits a).2
  rw [ha] at hsa
  unfold spawn
  refine ensures_fetch_bind fun i hi _ => ?_
  cases hi
  rw [ensures_look_bind]
  dsimp only
  refine .ite (fun _ => .inl rfl) fun hcode => ?_
  have hcode : m.heap.isCode ((m.heap.cellAt a).get .x) = true := by simpa using hcode
  obtain ⟨ip, hip, hdata⟩ := hl.data_of_isCode hsa.2.1 hcode
  rw [show (m.heap.cellAt a).get .x = .ref ip from hip]
  refine ensures_fetch_bind fun i hi _ => ?_
  cases hi
  -- The marker of the actor is set while the actor is neither idle nor busy.
  obtain ⟨ho₁, hf₁⟩ := hs.orderly.awaken ha
  have ha₁ : ρ.set a .transit a = .transit := Roles.set_self ..
  have hs₁ := (ho₁.layout.fits a).2
  rw [ha₁] at hs₁
  have hat : Word.actorT ≠ .freeT := by decide
  refine (ho₁.ensures_store (i := a) (f := .z) (w := .nil) (by rw [ha₁]; rfl) (by rw [ha₁]; simp)
    (by rw [hs₁.1]; exact hat) (by rw [ha₁]; exact hs₁) (by
      rw [show ((m.heap.cellAt a).set .z .nil).t = (m.heap.cellAt a).t from rfl, hs₁.1]
      exact hat) (ho₁.literal (by decide))).bind ?_
  rintro - m₂ ⟨hset, ho₂, hf₂, hu₂⟩
  refine (ho₂.ensures_copyList (hsa.2.2.1.mono hf₁.grows)).bind ?_
  rintro sp m₃ ⟨l, ho₃, hstrung, hfresh, hf₃, hu₃⟩
  have hne : ∀ {i j : Nat} {r : Role}, ρ i = r → r ≠ .free → r ≠ .outside →
      (ρ j = .free ∨ ρ j = .outside) → i ≠ j := by
    rintro i j r hi h1 h2 hj rfl
    rw [hi] at hj
    exact hj.elim h1 h2
  have hfresh : ∀ i ∈ l, i ≠ a ∧ (ρ i = .free ∨ ρ i = .outside) := by
    intro i hi
    have h := hfresh i hi
    by_cases hia : i = a
    · rw [hia, ha₁] at h
      simp at h
    · rw [Roles.set_ne _ _ hia] at h
      exact ⟨hia, h⟩
  have hea : e ≠ a := by
    rintro rfl
    simp [ha] at he
  have hel : e ∉ l := fun h => hne he (by simp) (by simp) (hfresh e h).2 rfl
  have hold : ∀ {i : Nat}, i ∉ l → i ≠ a → (ρ.set a .transit).setAll l .held i = ρ i :=
    fun hi hia => by rw [Roles.setAll_not_mem _ hi, Roles.set_ne _ _ hia]
  have hal : a ∉ l := fun h => (hfresh a h).1 rfl
  have hcell : ∀ {i : Nat}, i ∉ l → i ≠ a → m₃.heap.cellAt i = m.heap.cellAt i :=
    fun hi hia => by rw [(hf₃.same hi).2, hset.ne hia]
  refine ho₃.begin_bind (e := e) (a := a) ?_ ?_ ?_ ?_ ?_ ?_ ?_ hstrung hel ?_
  · rw [hold hel hea, he]
  · rw [Roles.setAll_not_mem _ hal, ha₁]
  · refine (hold (fun h => hne hdata (by simp) (by simp) (hfresh ip h).2 rfl) ?_).trans hdata
    rintro rfl
    simp [ha] at hdata
  · rw [hcell hel hea]
    exact (hq.mono hf₁.grows).mono hf₃.grows
  · rw [hcell hel hea, hx]
  · rw [hcell hel hea, hz]
  · rw [(hf₃.same hal).2, hset.self]
    rfl
  intro t m₄ ht ho₄ hf₄ hactor hevent hsteady hevents hstats
  rw [ensures_count_bind]
  refine (Silent.noteDispatch _).bind fun _ m₅ hq₅ => ?_
  have hspawn : ((ρ.set a .transit).setAll l .held).spawn t e a l = ρ.spawn t e a l :=
    Roles.spawn_congr fun i _ hia hil => hold hil hia
  rw [hspawn] at ho₄ hf₄
  have hf : Frame (fun j r => j = t ∨ j = e ∨ j = a ∨ j ∈ l ∨ r.inLine = true) ρ m.heap
      (ρ.spawn t e a l) m₄.heap := by
    have h₁₂ := (hf₁.trans hf₂).mono (N := fun j r => j = t ∨ j = e ∨ j = a ∨ j ∈ l ∨
      r.inLine = true)
      fun _ _ h => .inr (.inr (.inl h))
    exact (h₁₂.trans (hf₃.mono fun _ _ h => .inr (.inr (.inr (.inl h))))).trans hf₄
  have ht : ρ t = .free ∨ ρ t = .outside := by
    unfold Roles.setAll Roles.set at ht
    grind
  have hlist := fun i hi => (hfresh i hi).2
  have hs' : Settled [] (ρ.spawn t e a l) m₄ := by
    refine ⟨ho₄, fun i hi => ?_⟩
    have hb := hs.brief i
    unfold Roles.spawn at hi
    grind [Role.isBrief]
  have hu := (hu₂.trans hu₃).steady.trans hsteady
  refine ⟨t, _, rfl, (hs'.tally _).quiet hq₅, .of_spawn ha he ht hlist ?_
    ((hu.trans (.tally _)).trans hq₅.untouched.steady) ?_ ?_, fun q hq => ?_, fun j hj => ?_, ?_⟩
  · rw [hq₅.heap]
    exact hf
  · rw [hq₅.heap]
    change m₄.heap.cellAt a = _
    rw [hactor, (hf₃.same hal).2, hset.self]
  · rw [hq₅.heap]
    change (m₄.heap.cellAt e).z = _
    rw [hevent, hcell hel hea, hz]
  · have hw : m₄.Waiting q := by
      refine hf.waiting ?_ hl (fun j hj => ?_) hq
      · rw [hevents, hu₃.events, hu₂.events]
      · have := hlist j
        grind [Role.inLine]
    exact hq₅.spares.waiting q hw
  · rw [hq₅.heap]
    obtain rfl | hj := hj
    · exact hevent.trans (hcell hel hea)
    · refine (hf.same ?_).2
      have := hlist j
      grind [Role.inLine]
  · rw [hq₅.stats]
    simp only [Machine.tally, hstats, hu₃.stats, hu₂.stats]

end Settled

def Machine.Rests (m : Machine) : Prop :=
  m.Waiting [] ∨ ∃ q e a, m.Waiting (q ++ [e]) ∧ (m.heap.cellAt e).x = .cap a ∧
    m.heap.isActor (.cap a) = true ∧ (m.heap.cellAt a).z ≠ .undefined

/-- What became of the first event whose target is there, with those behind it: there was none, it
was put off, or a thread has taken it up. -/
inductive Resumes (ρ : Roles) (m : Machine) (ρ' : Roles) (m' : Machine) : List Nat → Prop
  | idle : Posts ρ m ρ' m' → m'.Waiting [] → Resumes ρ m ρ' m' []
  | busy {e : Nat} {q : List Nat} : Posts ρ m ρ' m' → m'.Waiting (q ++ [e]) → m'.reaches e = true →
      Resumes ρ m ρ' m' (e :: q)
  | spawned {t e a : Nat} {q : List Nat} : Begins t e a ρ m ρ' m' → m'.Waiting q →
      Resumes ρ m ρ' m' (e :: q)

theorem Posts.resumes {rest : List Nat} (hp : Posts ρ m ρ' m') (hr : Resumes ρ' m' ρ'' m'' rest) :
    Resumes ρ m ρ'' m'' rest := by
  cases hr with
  | idle hp' hq => exact .idle (hp.trans hp') hq
  | busy hp' hq ha => exact .busy (hp.trans hp') hq ha
  | spawned hb hq => exact .spawned (hp.begins hb) hq

structure Drops (e : Nat) (q : List Nat) (m m' : Machine) : Prop where
  waiting : m.Waiting (e :: q) ∧ m'.Waiting q
  gone : m.reaches e = false
  fields : ∀ i ∈ q, ∀ f, f ≠ .z → (m'.heap.cellAt i).get f = (m.heap.cellAt i).get f
  dropped : m'.stats.dropped = m.stats.dropped + 1

/-- The first of the events on their way are dropped, since their targets are gone. The others are
what they were, and those that have come in from the clock are behind them. -/
structure Sorts (gone left new : List Nat) (ρ : Roles) (m : Machine) (ρ' : Roles) (m' : Machine) :
    Prop where
  waiting : m.Waiting (gone ++ left)
  fresh : ∀ i ∈ new, (ρ i).isSpare = true ∧ m.heap.isActor (m'.heap.cellAt i).x = true
  targets : ∀ i ∈ gone, m.reaches i = false
  fields : ∀ i ∈ left, ∀ f, f ≠ .z → (m'.heap.cellAt i).get f = (m.heap.cellAt i).get f
  dropped : m'.stats.dropped = m.stats.dropped + gone.length
  resumes : Resumes ρ m ρ' m' (left ++ new)

theorem Posts.reaches_eq {i : Nat} (hp : Posts ρ m ρ' m') (hl : m.Arranged ρ)
    (hl' : m'.Arranged ρ')
    (hf : ∀ f, f ≠ .z → (m'.heap.cellAt i).get f = (m.heap.cellAt i).get f) :
    m'.reaches i = m.reaches i := by
  unfold reaches
  rw [hp.isActor_eq hl hl', show (m'.heap.cellAt i).x = (m.heap.cellAt i).x from hf .x (by decide)]

namespace Sorts

variable {gone left : List Nat}

theorem drop {e : Nat} (hs : Sorts gone left [] ρ' m' ρ'' m'') (hd : Drops e (gone ++ left) m m')
    (hp : Posts ρ m ρ' m') (hl : m.Arranged ρ)
    (hl' : m'.Arranged ρ') : Sorts (e :: gone) left [] ρ m ρ'' m'' := by
  refine ⟨hd.waiting.1, by simp, fun i hi => ?_, fun i hi f hf => ?_, ?_, hp.resumes hs.resumes⟩
  · obtain rfl | hi := List.mem_cons.1 hi
    · exact hd.gone
    · rw [← hp.reaches_eq hl hl' (hd.fields i (List.mem_append_left left hi))]
      exact hs.targets i hi
  · rw [hs.fields i hi f hf, hd.fields i (List.mem_append_right gone hi) f hf]
  · rw [hs.dropped, hd.dropped, List.length_cons]
    omega

theorem extend {q rest new : List Nat} (hs : Sorts gone rest [] ρ' m' ρ'' m'')
    (he : Extends new ρ m m') (hq : m.Waiting q) (hp : Posts ρ m ρ' m') (hl : m.Arranged ρ)
    (hl' : m'.Arranged ρ') : ∃ left, Sorts gone left new ρ m ρ'' m'' := by
  -- New events have come in before. None of them was dropped, so that they are behind the others
  -- that are left.
  have hnew : ∀ i ∈ new, i ∉ gone := fun i hi hg => by
    have hreach := hs.targets i hg
    unfold reaches at hreach
    rw [hp.isActor_eq hl hl', (he.fresh i hi).2] at hreach
    cases hreach
  obtain ⟨left, rfl, rfl⟩ : ∃ left, q = gone ++ left ∧ rest = left ++ new := by
    obtain ⟨more, rfl, rfl⟩ | hsplit := List.append_eq_append_iff.1
      (hs.waiting.unique (he.waiting q hq))
    · exact ⟨more, rfl, rfl⟩
    · obtain ⟨more, rfl, rfl⟩ := hsplit
      obtain rfl : more = [] := List.eq_nil_iff_forall_not_mem.2 fun i hi =>
        hnew i (List.mem_append_left rest hi) (List.mem_append_right q hi)
      exact ⟨[], by simp, rfl⟩
  have hold : ∀ i ∈ gone ++ left, i ∉ new := fun i hi hn => by
    have := (he.fresh i hn).1
    rw [(hl.mem_waiting hq).1 hi] at this
    cases this
  refine ⟨left, hq, fun i hi => ⟨(he.fresh i hi).1, ?_⟩, fun i hi => ?_,
    fun i hi f hf => ?_, ?_, ?_⟩
  · rw [show (m''.heap.cellAt i).x = (m'.heap.cellAt i).x from
      hs.fields i (List.mem_append_right left hi) .x (by decide)]
    exact (he.fresh i hi).2
  · rw [← hp.reaches_eq hl hl' (he.fields i (hold i (List.mem_append_left left hi)))]
    exact hs.targets i hi
  · rw [hs.fields i (List.mem_append_left new hi) f hf,
      he.fields i (hold i (List.mem_append_right gone hi)) f hf]
  · rw [hs.dropped, he.dropped]
  · rw [← List.append_nil (left ++ new)]
    exact hp.resumes hs.resumes

end Sorts

/-- An event was put off, or a thread has taken it up, after others were dropped. -/
structure Chooses (ρ : Roles) (m : Machine) (ρ' : Roles) (m' : Machine) : Prop where
  sorts : ∃ gone left, Sorts gone left [] ρ m ρ' m'
  balances : Balances 0 m m'
  rests : m'.threads.head = .nil → m'.Rests

theorem Chooses.drop {e : Nat} {q : List Nat} (hc : Chooses ρ' m' ρ'' m'') (hd : Drops e q m m')
    (hb : Balances 0 m m') (hp : Posts ρ m ρ' m') (hl : m.Arranged ρ)
    (hl' : m'.Arranged ρ') : Chooses ρ m ρ'' m'' := by
  obtain ⟨gone, left, hs⟩ := hc.sorts
  obtain rfl := hd.waiting.2.unique hs.waiting
  exact ⟨⟨_, _, hs.drop hd hp hl hl'⟩, hb.trans hc.balances, hc.rests⟩

/-- Events were posted or dropped, or the transaction of one actor has begun. -/
structure Dispatches (ρ : Roles) (m : Machine) (ρ' : Roles) (m' : Machine) : Prop where
  sorts : ∃ gone left new, Sorts gone left new ρ m ρ' m'
  balances : Balances 0 m m'
  rests : m'.threads.head = .nil → m'.Rests

theorem Dispatches.begins (hd : Dispatches ρ m ρ' m') :
    Posts ρ m ρ' m' ∨ ∃ t e a, Begins t e a ρ m ρ' m' := by
  obtain ⟨gone, left, new, hs⟩ := hd.sorts
  have hresumes := hs.resumes
  generalize left ++ new = rest at hresumes
  cases hresumes with
  | idle hp => exact .inl hp
  | busy hp => exact .inl hp
  | spawned hb => exact .inr ⟨_, _, _, hb⟩

theorem Chooses.dispatches {new : List Nat} (hc : Chooses ρ' m' ρ'' m'') (he : Extends new ρ m m')
    (hb : Balances 0 m m') (hp : Posts ρ m ρ' m') (hl : m.Arranged ρ)
    (hl' : m'.Arranged ρ') : Dispatches ρ m ρ'' m'' := by
  obtain ⟨gone, rest, hs⟩ := hc.sorts
  obtain ⟨q, hq, -⟩ := hl.queue
  obtain ⟨left, hs'⟩ := hs.extend he hq hp hl hl'
  exact ⟨⟨gone, left, new, hs'⟩, hb.trans hc.balances, hc.rests⟩

theorem Dispatches.proceeds (hd : Dispatches ρ m ρ' m') (hl' : m'.Arranged ρ') :
    Proceeds ρ m ρ' m' := by
  obtain hp | ⟨t, e, a, hb⟩ := hd.begins
  · exact hp.proceeds
  · exact hb.proceeds hl'

namespace Layout

variable {events threads : Queue} {a : Nat}

theorem marker_ne (hl : Layout ρ h events threads) (ha : (ρ a).isOpen = true) :
    (h.cellAt a).z ≠ .undefined := by
  obtain ⟨l, hc, -⟩ := hl.listed .sends a ha
  change h.Chain .z (h.cellAt a).z l at hc
  cases l with
  | nil =>
    rw [show (h.cellAt a).z = .nil from hc]
    decide
  | cons i l =>
    rw [hc.1]
    intro e
    cases e
    exact absurd hc.2.1 (by decide)

theorem role_of_isActor (hl : Layout ρ h events threads) (ha : h.isActor (.cap a) = true)
    (hs : Safe ρ (.cap a)) : (ρ a).isActor = true :=
  (hl.isActor_cap_iff hs).1 ha

end Layout

structure Pulls (e a : Nat) (q : List Nat) (ρ : Roles) (m : Machine) (ρ' : Roles) (m' : Machine) :
    Prop where
  layout : Layout ρ m.heap m.events m.threads
  waiting : m.Waiting (e :: q) ∧ m'.Waiting q
  settled : Settled [e] ρ' m'
  held : ρ' e = .held
  suits : Suits ρ' (m'.heap.cellAt e) .queued
  target : (m'.heap.cellAt e).x = .cap a
  unlinked : (m'.heap.cellAt e).z = .nil
  posts : Posts ρ m ρ' m'
  dequeues : Dequeues e m m'

namespace Pulls

variable {e a : Nat} {q : List Nat} {E : Machine → Prop}

variable (ht : Pulls e a q ρ m ρ' m')

include ht

theorem safe : Safe ρ' (.cap a) := by
  rw [← ht.target]
  exact ht.suits.2.2.1

theorem isActor (ha : m'.heap.isActor (.cap a) = true) : (ρ' a).isActor = true :=
  ht.settled.orderly.layout.role_of_isActor ha ht.safe

theorem ensures_drop (hgone : m'.heap.isActor (.cap a) = false) : Ensures (do
        note (.droppedEvent (.ref e) (.cap a))
        Heap.free (.ref e)
        count fun s => { s with dropped := s.dropped + 1 }
        return .dropped (.ref e) : MachineM Dispatch) m'
      (fun r m'' => r = .dropped (.ref e) ∧ ∃ ρ'', Settled [] ρ'' m'' ∧ Posts ρ m ρ'' m'' ∧
        Balances 0 m m'' ∧
        Drops e q m m'') E := by
  have hl := ht.layout
  refine (Silent.note _).bind fun _ m₂ hq₂ => ?_
  refine ((ht.settled.quiet hq₂).ensures_free ht.held).bind ?_
  rintro - m₃ ⟨hs₃, hp₃, hsp₃⟩
  rw [ensures_count_bind]
  have hsp := hq₂.spares.trans hsp₃
  have hp := ((ht.posts.trans (.quiet hq₂)).trans hp₃).tally fun s =>
    { s with dropped := s.dropped + 1 }
  have hstats : m₃.stats = m.stats := hsp.stats.trans ht.dequeues.stats
  have hwait₃ := hsp.waiting q ht.waiting.2
  refine ⟨rfl, _, hs₃.tally _, hp, hp.balances hl ?_ ?_ fun q' hq' => ⟨q, hwait₃, ?_⟩,
    ⟨ht.waiting.1, hwait₃⟩, ?_, fun i hi f hf => ?_, ?_⟩
  · simp [tally, hstats]
  · simp [tally, hstats, Stats.ended]
  · rw [hq'.unique ht.waiting.1]
    simp only [tally, hstats, List.length_cons]
    omega
  · rw [← ht.posts.reaches_eq hl ht.settled.orderly.layout (ht.dequeues.fields e)]
    unfold reaches
    rw [ht.target]
    exact hgone
  · change (m₃.heap.cellAt i).get f = _
    rw [hsp.same q ht.waiting.2 i hi, ht.dequeues.fields i f hf]
  · simp [tally, hstats]

variable (ha : m'.heap.isActor (.cap a) = true)

include ha

theorem ensures_postpone (hz : (m'.heap.cellAt a).z ≠ .undefined) : Ensures (do
        noteDispatch (.busy (.ref e) (.cap a))
        putEvent (.ref e)
        count fun s => { s with requeued := s.requeued + 1 }
        return .busy (.ref e) : MachineM Dispatch) m'
      (fun r m'' => r = .busy (.ref e) ∧ ∃ ρ'', Settled [] ρ'' m'' ∧ Chooses ρ m ρ'' m'') E := by
  have hs := ht.settled
  refine (Silent.noteDispatch _).bind fun _ m₂ hq₂ => ?_
  refine ((hs.quiet hq₂).ensures_putEvent ht.held (hq₂.heap ▸ ht.suits)).bind ?_
  rintro - m₃ ⟨hs₃, hp₃, henq⟩
  rw [ensures_count_bind]
  have hp := ((ht.posts.trans (.quiet hq₂)).trans hp₃).tally fun s =>
    { s with requeued := s.requeued + 1 }
  have hstats : m₃.stats = m.stats := (henq.stats.trans hq₂.stats).trans ht.dequeues.stats
  have hfields : ∀ i f, f ≠ .z → (m₃.heap.cellAt i).get f = (m'.heap.cellAt i).get f :=
      fun i f hf => by
    rw [henq.fields i f hf, hq₂.heap]
  have hx₃ : (m₃.heap.cellAt e).x = .cap a := (hfields e .x (by decide)).trans ht.target
  have hactor₃ : m₃.heap.isActor (.cap a) = true := by
    rw [hp₃.isActor_eq (hs.quiet hq₂).orderly.layout hs₃.orderly.layout, hq₂.heap]
    exact ha
  have hwait₃ : m₃.Waiting (q ++ [e]) := henq.waiting q (hq₂.spares.waiting q ht.waiting.2)
  refine ⟨rfl, _, hs₃.tally _,
    ⟨[], e :: q, ht.waiting.1, by simp, by simp, fun i _ f hf => ?_, ?_, ?_⟩,
    hp.balances ht.layout ?_ ?_ fun q' hq' => ⟨q ++ [e], hwait₃, ?_⟩,
    fun _ => .inr ⟨q, e, a, hwait₃, hx₃, hactor₃, ?_⟩⟩
  · exact (hfields i f hf).trans (ht.dequeues.fields i f hf)
  · simp [tally, hstats]
  · rw [List.append_nil]
    refine .busy hp hwait₃ ?_
    change m₃.heap.isActor (m₃.heap.cellAt e).x = true
    rw [hx₃]
    exact hactor₃
  · simp [tally, hstats]
  · simp [tally, hstats, Stats.ended]
  · rw [hq'.unique ht.waiting.1]
    simp [tally, hstats]
  · have hsame := hp₃.same (i := a) fun h => by
      simpa [h.not_isActing] using Role.isActing_of_isActor (ht.isActor ha)
    change (m₃.heap.cellAt a).z ≠ _
    rw [hsame.2, hq₂.heap]
    exact hz

theorem idle (hz : (m'.heap.cellAt a).z = .undefined) : ρ' a = .idle := by
  have hs := ht.settled
  have hrole := ht.isActor ha
  cases hr : ρ' a with
  | idle => rfl
  | busy | stopped => exact absurd hz (hs.orderly.layout.marker_ne (by rw [hr]; rfl))
  | transit =>
    have := hs.brief a (by rw [hr]; rfl)
    rw [List.mem_singleton.1 this, ht.held] at hr
    cases hr
  | _ =>
    rw [hr] at hrole
    cases hrole

theorem ensures_spawn (hz : (m'.heap.cellAt a).z = .undefined) :
    Ensures (spawn (.ref e) (.ref a)) m'
      (fun r m'' => ∃ t, r = .spawned (.ref t) ∧ ∃ ρ'', Settled [] ρ'' m'' ∧
        Chooses ρ m ρ'' m'') E := by
  refine (ht.settled.ensures_spawn ht.held ht.suits ht.target ht.unlinked (ht.idle ha hz)).imp ?_
  rintro r m₂ ⟨t, ρ₂, rfl, hs₂, hb, hwait, hcells, hstats⟩
  have hl₂ := hs₂.orderly.layout
  have hb' := ht.posts.begins hb
  have hwait₂ := hwait q ht.waiting.2
  have hqueued := fun i hi => (ht.settled.orderly.layout.mem_waiting (i := i) ht.waiting.2).1 hi
  refine ⟨t, rfl, ρ₂, hs₂, ⟨[], e :: q, ht.waiting.1, by simp, by simp,
    fun i hi f hf => ?_, ?_, ?_⟩, ⟨fun q' hq' => ⟨q, hwait₂, ?_⟩, fun l hl => ?_⟩, fun hnil => ?_⟩
  · rw [hcells i ((List.mem_cons.1 hi).imp_right (hqueued i)), ht.dequeues.fields i f hf]
  · simp [hstats, ht.dequeues.stats]
  · rw [List.append_nil]
    exact .spawned hb' hwait₂
  · rw [hq'.unique ht.waiting.1]
    simp only [hstats, ht.dequeues.stats, List.length_cons]
    omega
  · obtain ⟨l', hl', hlen⟩ := ht.layout.lined_length_succ hl₂ hb'.free.1.inLine_eq_false hb'.line hl
    refine ⟨l', hl', ?_⟩
    simp only [hstats, ht.dequeues.stats, Stats.ended, hlen]
    omega
  · obtain ⟨l, hq, hm⟩ := hl₂.line
    have hmem := (hm t).2 (by rw [hb.thread]; rfl)
    cases l with
    | nil => cases hmem
    | cons i l => exact absurd hnil hq.1.ne_nil

end Pulls

namespace Settled

variable {E : Machine → Prop}

variable (hs : Settled [] ρ m)

include hs

theorem ensures_popEvent : Ensures popEvent m
      (fun r m' => r = none ∧ m' = m ∧ m.Waiting [] ∨
        ∃ e a q ρ', r = some (.ref e) ∧ Pulls e a q ρ m ρ' m') E := by
  have hl := hs.orderly.layout
  obtain ⟨q, hq, -⟩ := hl.queue
  refine hs.orderly.ensures_popEvent.imp ?_
  rintro r m' (⟨rfl, rfl, hempty⟩ | ⟨e, rfl, he, ho', hsuits, hz, hk, hdeq⟩)
  · exact .inl ⟨rfl, rfl, hempty⟩
  obtain ⟨q, rfl, hq'⟩ := hdeq.waiting q hq
  obtain ⟨a, hx⟩ : ∃ a, (m'.heap.cellAt e).x = .cap a := by
    have hcap := hsuits.2.1
    cases hx : (m'.heap.cellAt e).x with
    | cap a => exact ⟨a, rfl⟩
    | _ =>
      rw [hx] at hcap
      cases hcap
  refine .inr ⟨e, a, q, ρ.set e .held, rfl, hl, ⟨hq, hq'⟩, hs.set [e] ho' (by simp) (by simp),
    Roles.set_self .., hsuits, hx, hz, .set hk (fun _ _ h => .inl h) ?_ (.inl rfl), hdeq⟩
  rw [he]
  exact .inr rfl

theorem ensures_dispatch : Ensures dispatch m
      (fun r m' => ∃ ρ', Settled [] ρ' m' ∧
        match r with
        | .dropped _ => Posts ρ m ρ' m' ∧ Balances 0 m m' ∧ ∃ e q, Drops e q m m'
        | _ => Chooses ρ m ρ' m') E := by
  unfold dispatch
  refine hs.ensures_popEvent.bind ?_
  rintro r m₁ (⟨rfl, rfl, hempty⟩ | ⟨e, a, q, ρ₁, rfl, ht⟩)
  · exact ⟨ρ, hs, ⟨[], [], hempty, by simp, by simp, by simp, rfl, .idle .refl hempty⟩, .refl,
      fun _ => .inl hempty⟩
  dsimp only
  refine ensures_fetch_bind fun i hi _ => ?_
  cases hi
  rw [show (m₁.heap.cellAt e).get .x = .cap a from ht.target, ensures_look_bind]
  refine .ite (fun hgone => ?_) fun hactor => ?_
  · refine (ht.ensures_drop (by simpa using hgone)).imp ?_
    rintro - m' ⟨rfl, ρ', hs', hp, hb, hd⟩
    exact ⟨ρ', hs', hp, hb, e, q, hd⟩
  have hactor : m₁.heap.isActor (.cap a) = true := by simpa using hactor
  refine ensures_fetch_bind fun i hi _ => ?_
  cases hi
  refine .ite (fun hz => ?_) fun hz => ?_
  · refine (ht.ensures_postpone hactor hz).imp ?_
    rintro - m' ⟨rfl, ρ', hs', hc⟩
    exact ⟨ρ', hs', hc⟩
  · refine (ht.ensures_spawn hactor (Decidable.not_not.1 hz)).imp ?_
    rintro - m' ⟨t, rfl, ρ', hs', hc⟩
    exact ⟨ρ', hs', hc⟩

theorem ensures_dispatchNext (b : Budget) : Ensures (dispatchNext b) m
      (fun _ m' => ∃ ρ', Settled [] ρ' m' ∧ Chooses ρ m ρ' m') E := by
  obtain ⟨n, task⟩ := b
  induction n generalizing ρ m with
  | zero =>
    unfold dispatchNext
    refine hs.ensures_dispatch.bind ?_
    rintro r m' ⟨ρ', hs', hr⟩
    cases r with
    | dropped => exact .inl rfl
    | _ => exact ⟨ρ', hs', hr⟩
  | succ n ih =>
    unfold dispatchNext
    refine hs.ensures_dispatch.bind ?_
    rintro r m' ⟨ρ', hs', hr⟩
    cases r with
    | dropped =>
      refine (ih hs').imp ?_
      rintro - m'' ⟨ρ'', hs'', hc⟩
      obtain ⟨hp, hb, e, q, hd⟩ := hr
      exact ⟨ρ'', hs'', hc.drop hd hb hp hs.orderly.layout hs'.orderly.layout⟩
    | _ => exact ⟨ρ', hs', hr⟩

theorem ensures_prepare :
    Ensures prepare m (fun _ m' => ∃ ρ', Settled [] ρ' m' ∧ Dispatches ρ m ρ' m') E := by
  unfold prepare
  refine hs.ensures_interrupt.bind ?_
  rintro b m₁ ⟨ρ₁, new, hs₁, hp₁, hb₁, he₁⟩
  rw [ensures_look_bind]
  refine (hs₁.ensures_dispatchNext _).imp ?_
  rintro - m₂ ⟨ρ₂, hs₂, hc⟩
  exact ⟨ρ₂, hs₂, hc.dispatches he₁ hb₁ hp₁ hs.orderly.layout hs₁.orderly.layout⟩

end Settled

end ActorMachine
