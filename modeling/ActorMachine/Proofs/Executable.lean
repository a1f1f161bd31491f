import ActorMachine.Proofs.Behavior

namespace ActorMachine

open Machine

variable {S : Nat → Prop} {ρ ρ' : Roles} {m m' : Machine} {config : Config} {c : Command} {w : Word}
  {l : List Nat}

def Fit (ρ : Roles) (m : Machine) : Prop := Tidy ρ m ∨ ∃ gc, Paced ρ m gc

namespace Fit

variable {E : Machine → Prop}

variable (hf : Fit ρ m)

include hf

theorem settled : Settled [] ρ m := by
  obtain ht | ⟨gc, hp⟩ := hf
  · exact ht.settled
  · exact hp.settled

theorem clock : ∀ w ∈ m.clock.map Clock.handler, w ∈ m.pinned := by
  obtain ht | ⟨gc, hp⟩ := hf
  · exact ht.clock
  · exact hp.clock

theorem proceeds (hs : Settled [] ρ' m') (hn : Proceeds ρ m ρ' m') : Fit ρ' m' := by
  obtain ht | ⟨gc, hp⟩ := hf
  · exact .inl (ht.proceeds hs hn)
  · exact .inr ⟨gc, hp.proceeds hs hn⟩

theorem ne_condemned {i : Nat} (ho : m.collector.isSweeping = true → m.heap.Lit (.cap i)) :
    ρ i ≠ .condemned := by
  obtain ht | ⟨gc, hp⟩ := hf
  · exact ht.clean i
  · intro hc
    by_cases hsweep : gc.phase = .sweep
    · obtain ⟨cm, hcm⟩ := Option.isSome_iff_exists.1 hp.colored
      have hshuns := hp.settled.orderly.shuns
      have hlit := ho (hp.isSweeping hsweep)
      exact hlit cm hcm i (hshuns.reserved_le i hc) (.inr rfl) (hshuns.color cm hcm i hc)
    · exact hp.clean hsweep i hc

theorem safe (ho : m.collector.isSweeping = true → m.heap.Lit w)
    (hw : m.heap.Offers m.heap.permanent w) : Safe ρ w := by
  obtain ht | ⟨gc, hp⟩ := hf
  · exact ht.safe hw
  · exact hp.safe (fun hsweep => ho (hp.isSweeping hsweep)) hw

theorem pin (hw : Safe ρ w) :
    Fit ρ { m with heap := m.heap.shade w, pinned := m.pinned.push w } := by
  obtain ht | ⟨gc, hp⟩ := hf
  · exact .inl (ht.pin hw)
  · exact .inr ⟨gc, hp.pin hw⟩

theorem withClock {clock : Option Clock}
    (hc : ∀ w ∈ clock.map Clock.handler, w ∈ m.pinned) : Fit ρ { m with clock } := by
  obtain ht | ⟨gc, hp⟩ := hf
  · exact .inl (ht.withClock hc)
  · exact .inr ⟨gc, hp.withClock hc⟩

theorem ensures_collectorStep (ho : m.overlooks 1 = false) : Ensures collectorStep m
      (fun _ m' => (∃ ρ', Fit ρ' m' ∧ Thins ρ m.heap ρ' m'.heap) ∧ m'.threads = m.threads) E := by
  obtain ht | ⟨gc, hp⟩ := hf
  · obtain ⟨gc, hgc⟩ := ht.collector
    unfold Ensures
    rw [collectorStep_eq hgc]
    exact ⟨⟨ρ, .inl ht, .of_cells fun _ => rfl⟩, rfl⟩
  · refine (hp.ensures_collectorStep ho).imp ?_
    rintro - m' ⟨⟨ρ', gc', hp', hthin⟩, -, hthreads⟩
    exact ⟨⟨ρ', .inr ⟨gc', hp'⟩, hthin⟩, hthreads⟩

theorem ensures_safepoint :
    Ensures safepoint m (fun _ m' => ∃ ρ', Fit ρ' m' ∧ Thins ρ m.heap ρ' m'.heap) E := by
  obtain ht | ⟨gc, hp⟩ := hf
  · refine ht.ensures_safepoint.imp ?_
    rintro - m' ⟨ρ', ht', hs⟩
    exact ⟨ρ', .inl ht', hs.thins⟩
  · unfold Ensures
    rw [safepoint_after hp.collector]
    exact ⟨ρ, .inr ⟨gc, hp⟩, .of_cells fun _ => rfl⟩

theorem ensures_collect (ho : Command.collect.overlooks m = false) :
    Ensures collect m (fun _ m' => ∃ ρ', Fit ρ' m' ∧ Thins ρ m.heap ρ' m'.heap) E := by
  obtain ht | ⟨gc, hp⟩ := hf
  · refine ht.ensures_collect.imp ?_
    rintro - m' ⟨ρ', ht', hs⟩
    exact ⟨ρ', .inl ht', hs.thins⟩
  · refine (hp.ensures_collect ho).imp ?_
    rintro - m' ⟨⟨ρ', gc', hp', hthin⟩, -⟩
    exact ⟨ρ', .inr ⟨gc', hp'⟩, hthin⟩

end Fit

def Able (S : Nat → Prop) (m : Machine) : Prop := ∃ ρ, Fit ρ m ∧ Coded S ρ m.heap

def Machine.retyped (act : MachineM Unit) (m : Machine) : Option Nat :=
  match act m with
  | .ok _ m₁ => m₁.retyped?
  | .error .. => none

theorem Machine.retyped_eq {act : MachineM Unit} (hr : act m = .ok () m') :
    retyped act m = m'.retyped? := by
  unfold retyped
  rw [hr]

def Command.retyped (m : Machine) : Command → Option Nat
  | tick => m.retyped do
    prepare
    collectorStep
  | _ => none

namespace Able

variable {E : Machine → Prop}

theorem thins (hf : Fit ρ m) (hc : Coded S ρ m.heap)
    (h : ∃ ρ', Fit ρ' m' ∧ Thins ρ m.heap ρ' m'.heap) : Able S m' := by
  obtain ⟨ρ', hf', hthin⟩ := h
  exact ⟨ρ', hf', hc.thins hf.settled.orderly.layout hf'.settled.orderly.layout hthin⟩

theorem posts (hf : Fit ρ m) (hc : Coded S ρ m.heap) (hs' : Settled [] ρ' m')
    (hp : Posts ρ m ρ' m') :
    Able S m' :=
  ⟨ρ', hf.proceeds hs' hp.proceeds, hc.posts hf.settled.orderly.layout hs'.orderly.layout hp⟩

theorem dispatched (hf : Fit ρ m) (hc : Coded S ρ m.heap) (hs' : Settled [] ρ' m')
    (hd : Posts ρ m ρ' m' ∨ ∃ t e a, Begins t e a ρ m ρ' m') : Able S m' := by
  obtain hp | ⟨t, e, a, hb⟩ := hd
  · exact posts hf hc hs' hp
  · exact ⟨ρ', hf.proceeds hs' (hb.proceeds hs'.orderly.layout),
      hc.begins hf.settled.orderly.layout hs'.orderly.layout hb⟩

variable (ha : Able S m)

include ha

theorem ensures_interrupt : Ensures interrupt m (fun _ m' => Able S m') E := by
  obtain ⟨ρ, hf, hc⟩ := ha
  refine hf.settled.ensures_interrupt.imp ?_
  rintro - m' ⟨ρ', new, hs', hp, -⟩
  exact posts hf hc hs' hp

theorem ensures_dispatch : Ensures dispatch m (fun _ m' => Able S m') E := by
  obtain ⟨ρ, hf, hc⟩ := ha
  refine hf.settled.ensures_dispatched.imp ?_
  rintro - m' ⟨ρ', hs', hd⟩
  exact dispatched hf hc hs' hd

theorem ensures_prepare : Ensures prepare m (fun _ m' => Able S m') E := by
  obtain ⟨ρ, hf, hc⟩ := ha
  refine hf.settled.ensures_prepare.imp ?_
  rintro - m' ⟨ρ', hs', hd⟩
  exact dispatched hf hc hs' hd.begins

theorem ensures_execute (ho : m.threads.head = .nil ∨ m.overlooks 1 = false)
    (hr : ∀ i, m.retyped collectorStep = some i → S i) :
    Ensures execute m (fun _ m' => Able S m') E := by
  obtain ⟨ρ, hf, hc⟩ := ha
  unfold execute
  rw [ensures_thread_bind]
  by_cases hnil : m.threads.head = .nil
  · rw [hnil, if_pos rfl]
    exact ⟨ρ, hf, hc⟩
  rw [if_neg hnil]
  refine (hf.ensures_collectorStep (ho.resolve_left hnil)).result.bind ?_
  rintro ⟨⟩ m₁ ⟨hstep, hthin, hthreads⟩
  obtain ⟨ρ₁, hf₁, hc₁⟩ := thins hf hc hthin
  obtain ⟨-, t, e, a, hopen⟩ := hf₁.settled.open.resolve_left (hthreads ▸ hnil)
  rw [← hthreads, hopen.head]
  refine hopen.ensures_advance.bind ?_
  rintro step m₂ ⟨ρ₂, hs₂, hadv⟩
  have hf₂ := hf₁.proceeds hs₂ hadv.proceeds
  have hc₂ := hc₁.advances hopen hadv hs₂.orderly.layout fun i hi =>
    hr i (by rw [retyped_eq hstep, hi])
  cases step with
  | noThreads | continued => exact ⟨ρ₂, hf₂, hc₂⟩
  | retired en => exact hf₂.ensures_safepoint.bind fun _ _ h => thins hf₂ hc₂ h

theorem ensures_tick (ho : Command.tick.overlooks m = false)
    (hr : ∀ i, Command.tick.retyped m = some i → S i) :
    Ensures tick m (fun _ m' => Able S m') E := by
  unfold tick
  refine ha.ensures_prepare.result.bind ?_
  rintro ⟨⟩ m₁ ⟨hprep, ha₁⟩
  have ho₁ : m₁.threads.head = .nil ∨ m₁.overlooks 1 = false := by
    simpa [Command.overlooks, hprep, Classical.or_iff_not_imp_left] using ho
  refine (ha₁.ensures_execute ho₁ fun i hi => hr i ?_).bind ?_
  · unfold Command.retyped retyped
    rw [run_bind hprep]
    exact hi
  · rintro step m' ha'
    cases step <;> exact ha'

theorem ensures_command (hw : ∀ w ∈ c.words, m.heap.Offers m.heap.permanent w)
    (ho : c.overlooks m = false) (hr : ∀ i, c.retyped m = some i → S i) :
    Ensures c.run m (fun _ m' => Able S m') (m = ·) := by
  obtain ⟨ρ, hf, hc⟩ := ha
  have hsafe : ∀ w ∈ c.words, Safe ρ w := fun w hm =>
    hf.safe (fun hs => Command.lit_of_not_overlooks ho hs hm) (hw w hm)
  have hl := hf.settled.orderly.layout
  cases c with
  | newActor beh state =>
    refine Ensures.bind (hf.settled.ensures_newActor (hsafe beh (by simp [Command.words]))
      (hsafe state (by simp [Command.words]))) ?_
    rintro w m' ⟨ρ', hs', hb, -, hstaffs⟩
    exact ⟨ρ', hf.proceeds hs' (Builds.proceeds hb), hc.builds hl hs'.orderly.layout hb hstaffs⟩
  | send target message =>
    refine (hf.settled.ensures_send (hsafe target (by simp [Command.words]))
      (hsafe message (by simp [Command.words]))).imp ?_
    rintro - m' ⟨ρ', hs', hp, -⟩
    exact posts hf hc hs' hp
  | tick => exact Ensures.bind (ensures_tick ⟨ρ, hf, hc⟩ ho hr) fun _ _ h => h
  | collect => exact Ensures.bind (hf.ensures_collect ho) fun _ _ h => thins hf hc h
  | pin w =>
    have hfit := hf.pin (hsafe w List.mem_cons_self)
    exact thins hf hc ⟨ρ, hfit, .of_cells (m.heap.cellAt_shade w)⟩
  | attachClock now handler =>
    have hfit := hf.pin (hsafe handler List.mem_cons_self)
    exact ensures_attachClock (thins hf hc
      ⟨ρ, hfit.withClock (by simp [Clock.start]), .of_cells (m.heap.cellAt_shade handler)⟩)
  | setClock now => exact ⟨ρ, hf.withClock (handler_pinned hf.clock now), hc⟩

end Able

theorem Building.isCode {a : Nat} (hb : Building config m) (ha : (m.heap.cellAt a).t = .actorT) :
    m.heap.isCode (m.heap.cellAt a).x = true := by
  induction hb with
  | @new m console hm =>
    have hl := (built_new hm console).settled.orderly.layout
    cases hl.isActor_of_type (by simp) ha
  | @construct m m' w c hb hw hr ih =>
    obtain ⟨m₀, ρ, -, hbuilt, -⟩ := hb.built
    have hl := hbuilt.settled.orderly.layout
    have hsafe : ∀ w ∈ c.words, Safe ρ w := fun w hm =>
      hl.safe_offer (w.avoids_of_none hbuilt.ne_condemned)
      (.inr ⟨Nat.le_refl _, hbuilt.resting⟩) (hw w hm)
    obtain ⟨ρ', hs', hb', -, hstaffs⟩ := (c.yields hbuilt.settled hsafe).ok hr
    have hact' := hs'.orderly.layout.isActor_of_type ((hbuilt.next hs' hb').ne_condemned a) ha
    obtain hact | hcode := hstaffs a hact'
    · have hsame := hb'.frame.same (i := a) fun h => by
        cases (Role.isTied_of_isActor hact).symm.trans (Role.not_isTied_of_isSpare h)
      rw [hsame.2] at ha ⊢
      exact hb'.isCode hl (hl.safe_actor hact) (ih ha)
    · exact hcode

theorem Building.able (hb : Building config m) (hr : sealImage m = .ok () m') : Able S m' := by
  obtain ⟨ρ, hf, hbasic⟩ : ∃ ρ, Fit ρ m' ∧ ∀ i, (ρ i).isBasic = true := by
    by_cases hc : config.strategy = .incremental
    · obtain ⟨ρ, gc, hp, hbasic⟩ := hb.paced hr hc
      exact ⟨ρ, .inr ⟨gc, hp⟩, hbasic⟩
    · obtain ⟨ρ, ht, hbasic, -⟩ := hb.tidy hr hc
      exact ⟨ρ, .inl ht, hbasic⟩
  obtain ⟨m₀, ρ₀, -, hbuilt, -⟩ := hb.built
  have hq := (ensures_sealImage (E := fun _ => True) hbuilt.settled.orderly.layout.sound).ok hr
  have hl := hf.settled.orderly.layout
  refine ⟨ρ, hf, fun w hw => .of_isCode ?_⟩
  cases hw with
  | @actor a ha =>
    have htype : (m'.heap.cellAt a).t = .actorT :=
      (hl.isActor_iff (fun h => by rw [h] at ha; cases ha) fun h => by rw [h] at ha; cases ha).2 ha
    rw [hq.heap] at htype ⊢
    exact hb.isCode htype
  | @staged e p hp =>
    have := hbasic p
    rw [hp] at this
    cases this

/-- A run in commands or in parts of rounds in which nothing is overlooked, with a record of the
cells of code that were given another type. -/
inductive Supervised (config : Config) : List Nat → Machine → Prop
  | start {m m' : Machine} : Building config m → sealImage m = .ok () m' → Supervised config [] m'
  | command {l : List Nat} {m m' : Machine} (c : Command) : Supervised config l m →
      (∀ w ∈ c.words, m.heap.Offers m.heap.permanent w) → c.overlooks m = false →
      c.run m = .ok () m' →
      Supervised config (l ++ (c.retyped m).toList) m'
  | refused {l : List Nat} {m m' : Machine} {f : Fault} (c : Command) : Supervised config l m →
      (∀ w ∈ c.words, m.heap.Offers m.heap.permanent w) → c.overlooks m = false →
      c.run m = .error f m' →
      f.isFatal = false → Supervised config (l ++ (c.retyped m).toList) m'
  | interrupt {l : List Nat} {m m' : Machine} {b : Bool} : Supervised config l m →
      interrupt m = .ok b m' → Supervised config l m'
  | dispatch {l : List Nat} {m m' : Machine} {d : Dispatch} : Supervised config l m →
      dispatch m = .ok d m' → Supervised config l m'
  | execute {l : List Nat} {m m' : Machine} {s : Step} : Supervised config l m →
      m.threads.head = .nil ∨ m.overlooks 1 = false → execute m = .ok s m' →
      Supervised config (l ++ (m.retyped collectorStep).toList) m'

def Command.supervise? (c : Command) (s : List Nat × Machine) : Option (List Nat × Machine) :=
  (c.watch? s.2).map (s.1 ++ (c.retyped s.2).toList, ·)

def supervise (config : Config) (program : List Construct) (commands : List Command) :
    Option (List Nat × Machine) := do
  let m ← play config program []
  commands.foldlM (fun s c => c.supervise? s) ([], m)

theorem Supervised.foldlM {commands : List Command} {s : List Nat × Machine}
    (hm : Supervised config l m)
    (hr : commands.foldlM (fun s c => c.supervise? s) (l, m) = some s) :
    Supervised config s.1 s.2 := by
  refine foldlM_induction (I := fun s => Supervised config s.1 s.2) hm hr fun s c s' hm hc => ?_
  unfold Command.supervise? at hc
  obtain ⟨m₁, hwatch, rfl⟩ := Option.map_eq_some_iff.1 hc
  obtain ⟨ho, hw, hrun⟩ := Command.watch?_eq_some hwatch
  exact .command c hm hw ho hrun

theorem Supervised.of_supervise {program : List Construct} {commands : List Command}
    {s : List Nat × Machine}
    (hp : supervise config program commands = some s) : Supervised config s.1 s.2 := by
  unfold supervise at hp
  rw [Option.bind_eq_bind, Option.bind_eq_some_iff] at hp
  obtain ⟨m₀, hplay, hr⟩ := hp
  obtain ⟨m₁, m₂, hb, hs, hnil⟩ := Building.of_play hplay
  cases hnil
  exact (Supervised.start hb hs).foldlM hr

theorem Able.mono {S' : Nat → Prop} (ha : Able S m) (hs : ∀ i, S i → S' i) : Able S' m := by
  obtain ⟨ρ, hf, hc⟩ := ha
  refine ⟨ρ, hf, fun w hw => ?_⟩
  obtain ⟨i, hi, hrun⟩ := hc w hw
  exact ⟨i, hi, hrun.imp_right (hs i)⟩

theorem Supervised.able (hr : Supervised config l m) : Able (· ∈ l) m := by
  have hold : ∀ {l : List Nat} {o : Option Nat} {m : Machine}, Able (· ∈ l) m →
    Able (· ∈ l ++ o.toList) m :=
    fun ha => ha.mono fun _ => List.mem_append_left _
  have hnew : ∀ {l : List Nat} {o : Option Nat} i, o = some i → i ∈ l ++ o.toList := by
    rintro l o i rfl
    simp
  induction hr with
  | start hb hs => exact hb.able hs
  | command c _ hw ho hrun ih => exact ((hold ih).ensures_command hw ho hnew).ok hrun
  | refused c _ hw ho hrun hf ih =>
    exact ((hold ih).ensures_command hw ho hnew).error hrun hf ▸ hold ih
  | interrupt _ hrun ih => exact (ih.ensures_interrupt (E := fun _ => True)).ok hrun
  | dispatch _ hrun ih => exact (ih.ensures_dispatch (E := fun _ => True)).ok hrun
  | execute _ ho hrun ih => exact ((hold ih).ensures_execute (E := fun _ => True) ho hnew).ok hrun

def Machine.Lives (m : Machine) (a : Nat) : Prop :=
  m.heap.isActor (.cap a) = true ∧
    (m.collector.isSweeping = true → m.heap.Lit (.cap a) ∨ m.heap.Reach m.roots a)

/-- An actor whose behaviour is one of those cells, which are no code any more. -/
def Machine.Broken (m : Machine) (l : List Nat) (a : Nat) : Prop :=
  m.Lives a ∧ ∃ i ∈ l, (m.heap.cellAt a).x = .ref i ∧ m.heap.isCode (.ref i) = false

namespace Fit

theorem lives_iff {a : Nat} (hf : Fit ρ m) : m.Lives a ↔ (ρ a).isActor = true := by
  have hl := hf.settled.orderly.layout
  constructor
  · rintro ⟨ha, hlit⟩
    refine (hl.isActor_cap_iff ?_).1 ha
    by_cases hreach : m.heap.Reach m.roots a
    · intro hc
      have hlive := hf.settled.isLive_of_reach hreach
      rw [hc] at hlive
      cases hlive
    · exact hf.ne_condemned fun hs => (hlit hs).resolve_right hreach
  · intro ha
    have hne : ρ a ≠ .condemned := fun h => by rw [h] at ha; cases ha
    refine ⟨(hl.isActor_cap_iff hne).2 ha, fun hs => .inl ?_⟩
    obtain ht | ⟨gc, hp⟩ := hf
    · obtain ⟨gc, hgc⟩ := ht.collector
      rw [hgc] at hs
      cases hs
    · have hsweep : gc.phase = .sweep := by
        rw [hp.collector] at hs
        exact of_decide_eq_true hs
      have hlit := hp.reached (by rw [hsweep]; rfl) a hne
      exact fun cm hcm i hi h => hlit cm hcm i hi (by obtain h | h := h <;> cases h; exact .inl rfl)

theorem behaves (hf : Fit ρ m) (hc : Coded (· ∈ l) ρ m.heap) (hb : ∀ a, ¬ m.Broken l a) :
    Behaves ρ m := by
  intro a ha
  have hact : (ρ a).isActor = true := by
    rw [ha]
    rfl
  obtain ⟨i, hi, hcode | hmem⟩ := hc _ (.actor hact)
  · exact hcode
  · refine Classical.not_not.1 fun hcode => hb a ⟨hf.lives_iff.2 hact, i, hmem, hi, ?_⟩
    rw [← hi]
    exact Bool.eq_false_iff.2 hcode

theorem averts_execute {F : Fault → Prop} (hf : Fit ρ m)
    (ho : m.threads.head = .nil ∨ m.overlooks 1 = false)
    (hi : ∀ v, ¬ F (.invalidRef v)) : Averts F execute m := by
  refine averts_thread_bind ?_
  by_cases hnil : m.threads.head = .nil
  · rw [if_pos hnil]
    exact .pure
  rw [if_neg hnil]
  have hstep := hf.ensures_collectorStep (E := fun _ => True) (ho.resolve_left hnil)
  refine Averts.bind_ensures (fun _ _ h => by cases h) hstep ?_
  rintro - m₁ ⟨⟨ρ₁, hf₁, -⟩, hthreads⟩
  obtain ⟨-, t, e, a, hopen⟩ := hf₁.settled.open.resolve_left (hthreads ▸ hnil)
  rw [← hthreads, hopen.head]
  refine (hopen.averts_advance (.inl hi)).bind fun step m₂ _ => ?_
  cases step with
  | retired en =>
    refine Averts.bind (fun g m₃ hr => ?_) fun _ _ _ => .pure
    rw [safepoint_eq rfl] at hr
    cases hr
  | _ => exact .pure

theorem averts_tick {F : Fault → Prop} (hf : Fit ρ m) (hb : ¬ F .notBehavior ∨ Behaves ρ m)
    (ho : Command.tick.overlooks m = false) (hi : ∀ v, ¬ F (.invalidRef v)) : Averts F tick m := by
  have hprep := (hf.settled.ensures_prepare (E := fun _ => True)).result
  refine (hf.settled.averts_prepare hb).bind_ensures hprep ?_
  rintro ⟨⟩ m₁ ⟨hprep, ρ₁, hs₁, hd⟩
  have ho₁ : m₁.threads.head = .nil ∨ m₁.overlooks 1 = false := by
    simpa [Command.overlooks, hprep, Classical.or_iff_not_imp_left] using ho
  refine ((hf.proceeds hs₁ (hd.proceeds hs₁.orderly.layout)).averts_execute ho₁ hi).bind
    fun step m' _ => ?_
  cases step <;> exact .pure

end Fit

/-- Every actor has code for a behaviour, unless that code was given another type. An event that is
dispatched finds an actor without code only then, and the same is true of a whole round. The part of
a round that executes an instruction never does. -/
theorem Supervised.executable (hr : Supervised config l m) :
    (∀ a, m.Lives a → ∃ i, (m.heap.cellAt a).x = .ref i ∧ (m.heap.isCode (.ref i) = true ∨ i ∈ l)) ∧
      (∀ m', Machine.dispatch m = .error .notBehavior m' → ∃ a, m.Broken l a) ∧
      (∀ m', Command.tick.overlooks m = false → Machine.tick m = .error .notBehavior m' →
        ∃ a, m.Broken l a) ∧
      ∀ m', m.threads.head = .nil ∨ m.overlooks 1 = false →
        Machine.execute m ≠ .error .notBehavior m' := by
  obtain ⟨ρ, hf, hc⟩ := hr.able
  have hnot : ∀ v, ¬ Fault.invalidRef v = .notBehavior := fun v h => by cases h
  refine ⟨fun a ha => ?_, fun m' hrun => ?_, fun m' ho hrun => ?_, fun m' ho hrun => ?_⟩
  · obtain ⟨i, hi, hcode⟩ := hc _ (.actor (hf.lives_iff.1 ha))
    exact ⟨i, hi, hi ▸ hcode⟩
  · refine Classical.not_forall_not.1 fun hb => ?_
    have haverts := hf.settled.averts_dispatch (F := (· = .notBehavior)) (.inr (hf.behaves hc hb))
    exact haverts _ m' hrun rfl rfl
  · refine Classical.not_forall_not.1 fun hb => ?_
    have haverts := hf.averts_tick (F := (· = .notBehavior)) (.inr (hf.behaves hc hb)) ho hnot
    exact haverts _ m' hrun rfl rfl
  · exact hf.averts_execute (F := (· = .notBehavior)) ho hnot _ m' hrun rfl rfl

theorem Supervised.executable_retyped :
    ∃ m m', Supervised { heapCapacity := 80, topMargin := 8 } [16] m ∧
    (∃ i, (m.heap.cellAt 19).x = .ref i ∧ m.heap.isCode (.ref i) = true) ∧
    Machine.dispatch m = .error .notBehavior m' ∧ ∃ a, m.Broken [16] a := by
  -- One of two actors has given its own code another type. The other one has code, and no more
  -- events can be dispatched.
  have hrun : (supervise { heapCapacity := 80, topMargin := 8 }
      [.block [.my .beh, .push (.fix 1), .set .t, .finish .commit], .block [.finish .commit],
        .actor (.ref 16) [], .actor (.ref 17) []]
      [.send (.cap 18) .nil, .send (.cap 18) .nil, .tick, .tick, .tick, .tick]).any
      (fun s => decide (s.1 = [16] ∧ s.2.heap.isActor (.cap 19) = true ∧
        s.2.collector.isSweeping = false ∧ (s.2.heap.cellAt 19).x = .ref 17 ∧
        fault? (Machine.dispatch s.2) = some .notBehavior)) = true := by
    decide +kernel
  obtain ⟨⟨l, m⟩, hs, hfacts⟩ := (Option.any_eq_true _ _).1 hrun
  obtain ⟨rfl, hactor, hsweep, hx, hfault⟩ := of_decide_eq_true hfacts
  have hr := Supervised.of_supervise hs
  obtain ⟨hcode, hdispatch, -⟩ := hr.executable
  obtain ⟨m', hfault⟩ := fault?_eq_some hfault
  obtain ⟨i, hi, hrunnable⟩ := hcode 19 ⟨hactor, fun h => by cases hsweep.symm.trans h⟩
  refine ⟨m, m', hr, ⟨i, hi, hrunnable.resolve_right ?_⟩, hfault, hdispatch m' hfault⟩
  cases hx.symm.trans hi
  simp

theorem Running.loses_behavior : ∃ m m', Running { heapCapacity := 80, topMargin := 8 } m ∧
    m.heap.isActor (.cap 17) = true ∧ (m.heap.cellAt 17).x = .ref 16 ∧
    m.heap.isCode (.ref 16) = false ∧
    Machine.dispatch m = .error .notBehavior m' ∧ Fault.notBehavior.isFatal = true := by
  -- An actor program may bring the machine to a stop. It gives the first cell of its own code
  -- another type, which is then the behaviour of an actor and no code, and the next event is fatal.
  have hplay : (play { heapCapacity := 80, topMargin := 8 }
      [.block [.my .beh, .push (.fix 1), .set .t, .finish .commit]]
      [.newActor (.ref 16) .nil, .send (.cap 17) .nil, .send (.cap 17) .nil, .tick, .tick, .tick,
        .tick]).any
      (fun m => decide (m.heap.isActor (.cap 17) = true ∧ (m.heap.cellAt 17).x = .ref 16 ∧
        m.heap.isCode (.ref 16) = false ∧
        fault? (Machine.dispatch m) = some .notBehavior)) = true := by
    decide +kernel
  obtain ⟨m, hm, hfacts⟩ := (Option.any_eq_true _ _).1 hplay
  obtain ⟨hactor, hx, hcode, hfault⟩ := of_decide_eq_true hfacts
  obtain ⟨m', hfault⟩ := fault?_eq_some hfault
  exact ⟨m, m', Running.of_play hm, hactor, hx, hcode, hfault, rfl⟩

end ActorMachine
