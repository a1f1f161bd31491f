import ActorMachine.Proofs.Forwarding

namespace ActorMachine

variable {ρ ρ' : Roles} {m m' : Machine} {config : Config} {H : History} {i t e a : Nat}

def Machine.Creates (m m' : Machine) (a : Nat) : Prop :=
  m.heap.isActor (.cap a) = false ∧ m'.heap.isActor (.cap a) = true

structure Letter where
  target : Word := .undefined
  message : Word := .undefined
  /-- Which actor of the cell it was made for, if there was one. -/
  addressee : Option Nat := none

/-- What is known of actors and events. -/
structure Register where
  /-- How often a cell has become an actor. -/
  era : Nat → Nat := fun _ => 0
  letter : Nat → Letter := fun _ => {}
  /-- Has the cell of its target become another actor since the event was made? -/
  stale : Nat → Prop := fun _ => False

namespace Register

open Classical in
noncomputable def note (R : Register) (m m' : Machine) : Register where
  era a := R.era a + if m.Creates m' a then 1 else 0
  letter i :=
    if m.Carries i then R.letter i
    else
      let target := (m'.heap.cellAt i).x
      ⟨target, (m'.heap.cellAt i).y,
        if m.heap.isActor target then some (R.era target.index) else none⟩
  stale i := m.Carries i ∧ (R.stale i ∨ m.Creates m' (m.heap.cellAt i).x.index)

noncomputable def tick (R : Register) (m m' : Machine) : Register :=
  match Machine.prepare m with
  | .ok _ m₁ => (R.note m m₁).note m₁ m'
  | .error .. => R

noncomputable def observer : Observer Register where
  start := {}
  watch _ R m m' c :=
    match c with
    | .tick => R.tick m m'
    | _ => R.note m m'

def Addresses (R : Register) (i a : Nat) : Prop :=
  (R.letter i).target = .cap a ∧ (R.letter i).addressee = some (R.era a)

/-- The event is what it was when it was made. It was made for an actor, and is stale if the cell
has become another one since. -/
structure Tells (R : Register) (m : Machine) (i : Nat) : Prop where
  target : (m.heap.cellAt i).x = (R.letter i).target
  message : (m.heap.cellAt i).y = (R.letter i).message
  addressee : ∃ a n, (R.letter i).target = .cap a ∧ (R.letter i).addressee = some n ∧ n ≤ R.era a ∧
    (R.stale i ↔ n < R.era a)

/-- The register is true of all events, and those that are taken up serve the actor that they were
made for, unless they are stale. -/
structure Faithful (R : Register) (m : Machine) : Prop where
  tells : ∀ i, m.Carries i → R.Tells m i
  serves : ∀ t i a, m.Handles t i → m.Serves t a → (R.Addresses i a ↔ ¬ R.stale i)

variable {R : Register}

theorem Tells.addresses_iff (ht : R.Tells m i) (hx : (m.heap.cellAt i).x = .cap a) :
    R.Addresses i a ↔ ¬ R.stale i := by
  obtain ⟨b, n, htarget, hn, hle, hstale⟩ := ht.addressee
  have hab := hx.symm.trans (ht.target.trans htarget)
  cases hab
  unfold Addresses
  rw [hstale, htarget, hn]
  simp only [Option.some.injEq, true_and]
  omega

theorem Faithful.of_tells (ht : ∀ i, m.Carries i → R.Tells m i)
    (hh : ∀ t i, m.Handles t i → m.Carries i) :
    R.Faithful m := by
  refine ⟨ht, fun t i a hti hta => (ht i (hh t i hti)).addresses_iff ?_⟩
  obtain ⟨-, e, hy, hx⟩ := hta
  have := hti.2.symm.trans hy
  cases this
  exact hx

theorem Tells.note (ht : R.Tells m i) (hi : m.Carries i) (hr : m.Repeats m' i) :
    (R.note m m').Tells m' i := by
  obtain ⟨a, n, htarget, hn, hle, hstale⟩ := ht.addressee
  have hletter : (R.note m m').letter i = R.letter i := if_pos hi
  have hx : (m.heap.cellAt i).x.index = a := by
    rw [ht.target, htarget]
    rfl
  have hnow : (R.note m m').stale i ↔ R.stale i ∨ m.Creates m' a := by
    rw [← hx]
    exact and_iff_right hi
  refine ⟨by rw [hr.1, hletter, ht.target], by rw [hr.2, hletter, ht.message], a, n, ?_⟩
  rw [hletter, hnow, hstale]
  refine ⟨htarget, hn, ?_⟩
  by_cases hc : m.Creates m' a
  · have hera : (R.note m m').era a = R.era a + 1 := by simp [Register.note, hc]
    rw [hera]
    exact ⟨by omega, iff_of_true (.inr hc) (by omega)⟩
  · have hera : (R.note m m').era a = R.era a := by simp [Register.note, hc]
    rw [hera]
    exact ⟨hle, by simp [hc]⟩

theorem tells_new (hi : ¬ m.Carries i) (ha : m.heap.isActor (m'.heap.cellAt i).x = true) :
    (R.note m m').Tells m' i := by
  obtain ⟨a, hx, -, -⟩ := Heap.isActor_iff.1 ha
  have hletter : (R.note m m').letter i = ⟨.cap a, (m'.heap.cellAt i).y, some (R.era a)⟩ := by
    simp only [Register.note, if_neg hi, if_pos ha]
    rw [hx]
    rfl
  rw [hx] at ha
  have hera : (R.note m m').era a = R.era a := by simp [Register.note, Machine.Creates, ha]
  refine ⟨by rw [hletter, hx], by rw [hletter], a, R.era a, ?_⟩
  rw [hletter, hera]
  exact ⟨rfl, rfl, Nat.le_refl _, iff_of_false (fun h => hi h.1) (Nat.lt_irrefl _)⟩

def Tell (R : Register) (ρ : Roles) (m : Machine) : Prop := ∀ i, (ρ i).isEvent = true → R.Tells m i

theorem Tell.note (hR : R.Tell ρ m) (ht : Tidy ρ m) (hf : Forwards ρ m ρ' m') :
    (R.note m m').Tell ρ' m' := by
  intro i hi
  obtain ⟨hold, hr⟩ | ⟨hnew, ha⟩ := hf i hi
  · exact (hR i hold).note (ht.carries_iff.2 hold) hr
  · refine tells_new (fun h => ?_) ha
    rw [ht.carries_iff.1 h] at hnew
    cases hnew

theorem Tell.faithful (hR : R.Tell ρ m) (ht : Tidy ρ m) : R.Faithful m := by
  refine .of_tells (fun i hi => hR i (ht.carries_iff.1 hi)) fun t i hi => ht.carries_iff.2 ?_
  obtain ⟨a, hr⟩ := ht.settled.handles_iff.1 hi
  rw [hr]
  rfl

theorem tick_eq (R : Register) {m₁ : Machine} (hp : Machine.prepare m = .ok () m₁) :
    R.tick m m' = (R.note m m₁).note m₁ m' := by
  unfold tick
  rw [hp]

end Register

theorem Dispatches.tell {R : Register} (hd : Dispatches ρ m ρ' m') (ht : Tidy ρ m)
    (hs' : Settled [] ρ' m') (hR : R.Tell ρ m) : (R.note m m').Tell ρ' m' :=
  hR.note ht (hd.forwards ht.settled.orderly.layout hs'.orderly.layout)

theorem Round.tell {b : Bool} {R : Register} (hr : Round ρ m b ρ' m') (ht : Tidy ρ m)
    (ht' : Tidy ρ' m') (hR : R.Tell ρ m) : (R.tick m m').Tell ρ' m' := by
  cases hr with
  | rest hprep hd =>
    rw [R.tick_eq hprep]
    exact (hd.tell ht ht'.settled hR).note ht' fun i hi => .inl ⟨hi, rfl, rfl⟩
  | turn hprep hd _ hturn =>
    rw [R.tick_eq hprep]
    have hs₁ := hturn.opened.settled
    exact (hd.tell ht hs₁ hR).note (ht.dispatches hd hs₁) (hturn.forwards ht'.settled)

theorem Command.Effect.register {c : Command} {R : Register} (he : c.Effect ρ m ρ' m')
    (ht : Tidy ρ m)
    (ht' : Tidy ρ' m') (hR : R.Tell ρ m) : (Register.observer.watch H R m m' c).Tell ρ' m' := by
  have hother : c ≠ .tick → (R.note m m').Tell ρ' m' := fun hc =>
    hR.note ht (he.forwards hc ht.settled ht'.settled)
  cases c with
  | tick =>
    obtain ⟨b, hr⟩ := he
    exact hr.tell ht ht' hR
  | _ => exact hother (by simp)

theorem Role.not_isEvent_of_isBasic {r : Role} (hr : r.isBasic = true) : r.isEvent = false := by
  cases r <;> first | rfl | cases hr

theorem Observed.register {R : Register} (hr : Observed Register.observer config m H R)
    (hc : config.strategy ≠ .incremental) : ∃ ρ, Tidy ρ m ∧ R.Tell ρ m := by
  obtain ⟨ρ, ht, -, hR⟩ := hr.invariant (P := fun ρ m R => R.Tell ρ m) hc
    (fun ρ m ht hb _ i hi => by
      rw [Role.not_isEvent_of_isBasic (hb i)] at hi
      cases hi)
    fun ρ m ρ' m' H R c ht ht' _ he hR => he.register ht ht' hR
  exact ⟨ρ, ht, hR⟩

theorem Observed.dispatched {R : Register} {m₁ : Machine}
    (hr : Observed Register.observer config m H R)
    (hc : config.strategy ≠ .incremental) (hprep : Machine.prepare m = .ok () m₁) :
    ∃ ρ ρ₁, Tidy ρ m ∧ Tidy ρ₁ m₁ ∧ Dispatches ρ m ρ₁ m₁ ∧ (R.note m m₁).Tell ρ₁ m₁ := by
  obtain ⟨ρ, ht, hR⟩ := hr.register hc
  obtain ⟨ρ₁, hs₁, hd⟩ := (ht.settled.ensures_prepare (E := fun _ => False)).ok hprep
  exact ⟨ρ, ρ₁, ht, ht.dispatches hd hs₁, hd, hd.tell ht hs₁ hR⟩

namespace Machine

def TakesUp (m : Machine) : List Nat → Prop
  | [] => m.Waiting []
  | e :: q => m.reaches e = true ∧ (m.Waiting (q ++ [e]) ∨ m.Waiting q ∧ ∃ t, m.Handles t e)

/-- The first of the events on their way are dropped and counted, since their targets are gone. The
next one is taken up; those that have come in from the clock are behind the others. -/
structure Distributes (m : Machine) (gone left new : List Nat) (m' : Machine) : Prop where
  waiting : m.Waiting (gone ++ left)
  missing : ∀ i ∈ gone, m.reaches i = false ∧ ¬ m'.Carries i
  dropped : m'.stats.dropped = m.stats.dropped + gone.length
  takesUp : m'.TakesUp (left ++ new)
  threads : ∀ t i, m'.Handles t i → m.Handles t i ∨ (left ++ new).head? = some i

/-- Of the events that an actor has held back and that go out now, those whose targets are gone are
dropped and counted. The others are put last. -/
def Dismisses (m : Machine) (a : Nat) (step : Step) (m' : Machine) : Prop :=
  ∃ q l, m.Waiting q ∧ m.heap.Chain .z (m.heap.cellAt a).z l ∧
    m'.Waiting (q ++ (step.outgoing l).filter m.reaches) ∧
    (∀ i ∈ step.outgoing l, m.reaches i = false → ¬ m'.Carries i) ∧
    m'.stats.dropped = m.stats.dropped + (step.outgoing l).countP (!m.reaches ·)

def Accepts (m m' : Machine) (q : List Nat) : Command → Prop
  | .send target message => m.heap.isActor target = true ∧
    ∃ i, m'.Waiting (q ++ [i]) ∧ (m'.heap.cellAt i).x = target ∧ (m'.heap.cellAt i).y = message
  | _ => m'.Waiting q

end Machine

theorem Resumes.takesUp {rest : List Nat} (hr : Resumes ρ m ρ' m' rest) (hs' : Settled [] ρ' m') :
    m'.TakesUp rest := by
  cases hr with
  | idle _ hw => exact hw
  | busy _ hw ha => exact ⟨ha, .inl hw⟩
  | @spawned t e a q hb hw =>
    have hl' := hs'.orderly.layout
    obtain ⟨he, ha⟩ := hl'.coherent.thread t e a hb.thread
    refine ⟨?_, .inr ⟨hw, t, hs'.handles_iff.2 ⟨a, he⟩⟩⟩
    have hsuit := (hl'.fits e).2
    rw [he] at hsuit
    unfold Machine.reaches
    rw [hsuit.2.1]
    refine (hl'.isActor_cap_iff ?_).2 ?_ <;> rw [ha]
    · simp
    · rfl

theorem Resumes.handles {rest : List Nat} (hr : Resumes ρ m ρ' m' rest) (hs : Settled [] ρ m)
    (hs' : Settled [] ρ' m') (hi : m'.Handles t i) : m.Handles t i ∨ rest.head? = some i := by
  obtain ⟨a, hrole⟩ := hs'.handles_iff.1 hi
  have hevent : (ρ' i).isEvent = true := by
    rw [hrole]
    rfl
  have hq : ρ' i ≠ .queued := by
    rw [hrole]
    simp
  have hold : Same ρ ρ' m.heap m'.heap i → m.Handles t i := fun h =>
    hs.handles_iff.2 ⟨a, h.1.symm.trans hrole⟩
  cases hr with
  | idle hp | busy hp => exact .inl (hold (hp.same_event hevent hq))
  | @spawned t' e a' q hb =>
    by_cases hie : i = e
    · exact .inr (by rw [hie, List.head?_cons])
    · exact .inl (hold (hb.same_event hs'.orderly.layout hevent hq hie))

theorem Sorts.distributes {gone left new : List Nat} (hs : Sorts gone left new ρ m ρ' m')
    (ht : Tidy ρ m) (ht' : Tidy ρ' m') : m.Distributes gone left new m' := by
  have hl := ht.settled.orderly.layout
  refine ⟨hs.waiting, fun i hi => ⟨hs.targets i hi, fun hcarries => ?_⟩, hs.dropped,
    hs.resumes.takesUp ht'.settled, fun t i => hs.resumes.handles ht.settled ht'.settled⟩
  have hqueued := (hl.mem_waiting hs.waiting).1 (List.mem_append_left left hi)
  obtain hrest | ⟨hq, hsame⟩ := hs.resumes.event ht'.settled.orderly.layout
    (ht'.carries_iff.1 hcarries)
  · obtain hleft | hnew := List.mem_append.1 hrest
    · exact List.disjoint_of_nodup_append hs.waiting.1.nodup hi hleft
    · have hspare := (hs.fresh i hnew).1
      rw [hqueued] at hspare
      cases hspare
  · exact hq (hsame.1.trans hqueued)

theorem Turns.dismisses {step : Machine.Step} (hturn : Turns t e a ρ m step ρ' m')
    (ht' : Tidy ρ' m') :
    m.Dismisses a step m' := by
  obtain ⟨ho, ρ₁, m₁, -, hs₁, hadv, hsw⟩ := hturn
  obtain ⟨q, hq, -⟩ := ho.orderly.layout.queue
  obtain ⟨l, hc, -⟩ := ho.sends
  have hp := (hadv.passes ho hc).sweep hsw hs₁.orderly.layout
  refine ⟨q, l, hq, hc, hp.waiting q hq, fun i hi hgone hcarries => ?_, hp.dropped⟩
  have hevent := ht'.carries_iff.1 hcarries
  rw [hp.freed i hi hgone] at hevent
  cases hevent

theorem Command.Effect.accepts {c : Command} {q : List Nat} (he : c.Effect ρ m ρ' m')
    (hc : c ≠ .tick) (hl : m.Arranged ρ) (hq : m.Waiting q) :
    m.Accepts m' q c ∧ m'.stats.dropped = m.stats.dropped := by
  cases c with
  | tick => exact absurd rfl hc
  | newActor =>
    exact ⟨he.frame.waiting he.untouched.events hl (fun _ _ h => by cases h) hq,
      by rw [he.untouched.stats]⟩
  | send target message =>
    obtain ⟨-, -, i, hext, hx, hy⟩ := he
    have hactor := (hext.fresh i (List.mem_singleton.2 rfl)).2
    rw [hx] at hactor
    exact ⟨⟨hactor, i, hext.waiting q hq, hx, hy⟩, hext.dropped⟩
  | collect => exact ⟨Sweeps.waiting he hl hq, by rw [Sweeps.stats he]⟩
  | pin | attachClock | setClock =>
    obtain ⟨-, hi⟩ := he
    refine ⟨?_, by rw [hi.stats]⟩
    unfold Machine.Accepts Machine.Waiting
    rw [hi.events, hi.heap]
    exact hq

/-- An event stays what it was made, and the thread that takes it up serves the actor that it was
made for, unless the cell has become another actor since. Events for which there is nobody are
dropped and counted: in the queue when it is their turn, and among those that were held back when
they go out. -/
theorem Observed.delivers {R : Register} (hr : Observed Register.observer config m H R)
    (hc : config.strategy ≠ .incremental) :
    R.Faithful m ∧
    (∀ m₁, Machine.prepare m = .ok () m₁ →
      (R.note m m₁).Faithful m₁ ∧ (∃ gone left new, m.Distributes gone left new m₁) ∧
      ∀ t a step m', m₁.threads.head = .ref t → m₁.Serves t a → Machine.execute m₁ = .ok step m' →
        m₁.Dismisses a step m') ∧
    ∀ c m', c ≠ .tick → (∀ w ∈ c.words, m.heap.Offers m.heap.permanent w) → c.run m = .ok () m' →
      ∃ q, m.Waiting q ∧ m.Accepts m' q c ∧ m'.stats.dropped = m.stats.dropped := by
  obtain ⟨ρ, ht, hR⟩ := hr.register hc
  refine ⟨hR.faithful ht, fun m₁ hprep => ?_, fun c m' hne hw hrun => ?_⟩
  · obtain ⟨ρ, ρ₁, ht, ht₁, hd, hR₁⟩ := hr.dispatched hc hprep
    obtain ⟨gone, left, new, hs⟩ := hd.sorts
    refine ⟨hR₁.faithful ht₁, ⟨gone, left, new, hs.distributes ht ht₁⟩,
      fun t a step m' hh hserves hx => ?_⟩
    obtain ⟨ρ', e, hturn, ht'⟩ := ht₁.turns hh hserves hx
    exact hturn.dismisses ht'
  · have hl := ht.settled.orderly.layout
    obtain ⟨ρ', -, he⟩ := (ht.ensures_command c hw).ok hrun
    obtain ⟨q, hq, -⟩ := hl.queue
    exact ⟨q, hq, he.accepts hne hl hq⟩

theorem Observed.delivers_released : ∃ m H R m₁ new,
    Observed Register.observer { heapCapacity := 80, topMargin := 8 } m H R ∧
    (R.letter 16).target = .cap 14 ∧ Machine.prepare m = .ok () m₁ ∧
    m.Distributes [16] [] new m₁ := by
  -- An actor is released while a message is on its way to it. Nobody else has its cell yet.
  have hplay : (play { heapCapacity := 80, topMargin := 8 } [.block [.finish .release]]
      [.newActor (.ref 13) .nil, .send (.cap 14) (.fix 1), .send (.cap 14) (.fix 2),
        .tick]).any (fun m =>
        decide (m.heap.Chain .z m.events.head [16] ∧ (m.heap.cellAt 16).x = .cap 14 ∧
          m.stats.dropped = 0) &&
        match Machine.prepare m with
        | .ok _ m₁ => decide (m₁.stats.dropped = 1)
        | .error .. => false) = true := by decide +kernel
  obtain ⟨m, hm, hfacts⟩ := (Option.any_eq_true _ _).1 hplay
  obtain ⟨hbefore, hfacts⟩ := Bool.and_eq_true_iff.1 hfacts
  obtain ⟨hchain, hx, hnone⟩ := of_decide_eq_true hbefore
  split at hfacts
  · next m₁ hprep =>
    obtain ⟨H, R, hR⟩ := (Running.of_play hm).observed Register.observer
    obtain ⟨hfaithful, hround, -⟩ := hR.delivers (by decide)
    obtain ⟨-, ⟨gone, left, new, hd⟩, -⟩ := hround m₁ hprep
    have hcount := hd.dropped
    rw [of_decide_eq_true hfacts, hnone] at hcount
    obtain ⟨rfl, rfl⟩ : gone = [16] ∧ left = [] := by
      have hqueue := hd.waiting.1.unique hchain
      have hlength := congrArg List.length hqueue
      rw [List.length_append, List.length_singleton] at hlength
      obtain rfl := List.eq_nil_of_length_eq_zero (l := left) (by omega)
      exact ⟨by simpa using hqueue, rfl⟩
    have htells := hfaithful.tells 16 (Machine.carries_of_chain hchain (List.mem_singleton.2 rfl))
    exact ⟨m, H, R, m₁, new, hR, htells.target.symm.trans hx, hprep, hd⟩
  · cases hfacts

theorem Observed.misdelivers : ∃ m H R m₁ n,
    Observed Register.observer { heapCapacity := 80, topMargin := 8 } m H R ∧
    Machine.prepare m = .ok () m₁ ∧
    m₁.Handles 21 19 ∧ m₁.Serves 21 17 ∧ ((R.note m m₁).letter 19).target = .cap 17 ∧
    ((R.note m m₁).letter 19).addressee = some n ∧ n < (R.note m m₁).era 17 := by
  -- The cell of an actor that was released is taken for a new one while a message is on its way to
  -- the old one. The new one takes it up.
  have hplay : (play { heapCapacity := 80, topMargin := 8 } [.block [.finish .release],
      .block [.msg 0, .debug (.fix 7), .finish .commit]]
      [.newActor (.ref 13) .nil, .send (.cap 17) (.fix 1), .send (.cap 17) (.fix 2), .tick,
        .newActor (.ref 16) .nil, .newActor (.ref 16) .nil]).any (fun m₀ =>
        decide (m₀.heap.Chain .z m₀.events.head [19] ∧ (m₀.heap.cellAt 19).x = .cap 17 ∧
          m₀.heap.isActor (.cap 17) = false ∧
          ∀ w ∈ (Command.newActor (.ref 16) .nil).words, m₀.heap.Offers m₀.heap.permanent w) &&
        match (Command.newActor (.ref 16) .nil).run m₀ with
        | .ok _ m =>
          decide (m.heap.Chain .z m.events.head [19] ∧ m.heap.isActor (.cap 17) = true) &&
          match Machine.prepare m with
          | .ok _ m₁ =>
            decide (m₁.heap.Chain .z m₁.threads.head [21] ∧ (m₁.heap.cellAt 21).y = .ref 19 ∧
            (m₁.heap.cellAt 19).x = .cap 17)
          | .error .. => false
        | .error .. => false) = true := by decide +kernel
  obtain ⟨m₀, hm₀, hfacts⟩ := (Option.any_eq_true _ _).1 hplay
  obtain ⟨hbefore, hfacts⟩ := Bool.and_eq_true_iff.1 hfacts
  obtain ⟨hchain₀, hx₀, hgone, hwords⟩ := of_decide_eq_true hbefore
  split at hfacts
  · next m hrun =>
    obtain ⟨hnew, hfacts⟩ := Bool.and_eq_true_iff.1 hfacts
    obtain ⟨hchain, hactor⟩ := of_decide_eq_true hnew
    split at hfacts
    · next m₁ hprep =>
      obtain ⟨hline, hy, hx⟩ := of_decide_eq_true hfacts
      obtain ⟨H₀, R₀, hR₀⟩ := (Running.of_play hm₀).observed Register.observer
      have hR := Observed.command (.newActor (.ref 16) .nil) hR₀ hwords hrun
      have hcarries₀ := Machine.carries_of_chain hchain₀ (List.mem_singleton.2 rfl)
      have hcarries := Machine.carries_of_chain hchain (List.mem_singleton.2 rfl)
      have hstale : ((R₀.note m₀ m).note m m₁).stale 19 :=
        ⟨hcarries, .inl ⟨hcarries₀, .inr (by rw [hx₀]; exact ⟨hgone, hactor⟩)⟩⟩
      obtain ⟨ρ, ρ₁, -, ht₁, -, htell⟩ := hR.dispatched (by decide) hprep
      have hhandles : m₁.Handles 21 19 := ⟨⟨_, hline, List.mem_singleton.2 rfl⟩, hy⟩
      obtain ⟨b, hrole⟩ := ht₁.settled.handles_iff.1 hhandles
      have htells := htell 19 (by rw [hrole]; rfl)
      obtain ⟨a, n, htarget, hn, -, hera⟩ := htells.addressee
      have ha := hx.symm.trans (htells.target.trans htarget)
      cases ha
      exact ⟨m, _, _, m₁, n, hR, hprep, hhandles,
        ⟨⟨_, hline, List.mem_singleton.2 rfl⟩, 19, hy, hx⟩, htarget, hn, hera.1 hstale⟩
    · cases hfacts
  · cases hfacts

end ActorMachine
