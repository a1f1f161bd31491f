import ActorMachine.Proofs.Observation

namespace ActorMachine

open Machine

variable {ρ ρ' : Roles} {h h' : Heap} {m m' : Machine} {config : Config} {t e a : Nat}
variable {l : List Nat} {u : Nat}

/-- The program was sealed, and has been run in commands or in parts of rounds. -/
inductive Stepping (config : Config) : Machine → Prop
  | start {m m' : Machine} : Building config m → sealImage m = .ok () m' → Stepping config m'
  | command {m m' : Machine} (c : Command) : Stepping config m →
      (∀ w ∈ c.words, m.heap.Offers m.heap.permanent w) → c.run m = .ok () m' → Stepping config m'
  | refused {m m' : Machine} {f : Fault} (c : Command) : Stepping config m →
      (∀ w ∈ c.words, m.heap.Offers m.heap.permanent w) → c.run m = .error f m' →
      f.isFatal = false →
      Stepping config m'
  | interrupt {m m' : Machine} {b : Bool} : Stepping config m → interrupt m = .ok b m' →
      Stepping config m'
  | dispatch {m m' : Machine} {d : Dispatch} : Stepping config m →
      dispatch m = .ok d m' → Stepping config m'
  | execute {m m' : Machine} {s : Step} : Stepping config m → execute m = .ok s m' →
      Stepping config m'

theorem Running.stepping (hr : Running config m) : Stepping config m := by
  induction hr with
  | start hb hs => exact .start hb hs
  | command c _ hw hrun ih => exact .command c ih hw hrun
  | refused c _ hw hrun hf ih => exact .refused c ih hw hrun hf

theorem Settled.ensures_dispatched {E : Machine → Prop} (hs : Settled [] ρ m) :
    Ensures dispatch m
      (fun _ m' => ∃ ρ', Settled [] ρ' m' ∧ (Posts ρ m ρ' m' ∨
        ∃ t e a, Begins t e a ρ m ρ' m')) E := by
  refine hs.ensures_dispatch.imp ?_
  rintro d m' ⟨ρ', hs', hd⟩
  have hchosen : Chooses ρ m ρ' m' → Posts ρ m ρ' m' ∨ ∃ t e a, Begins t e a ρ m ρ' m' := by
    rintro ⟨⟨gone, left, hsorts⟩, hb, hrest⟩
    have hd : Dispatches ρ m ρ' m' := ⟨⟨gone, left, [], hsorts⟩, hb, hrest⟩
    exact hd.begins
  cases d with
  | dropped event => exact ⟨ρ', hs', .inl hd.1⟩
  | idle | busy | spawned => exact ⟨ρ', hs', hchosen hd⟩

namespace Tidy

variable {E : Machine → Prop}

theorem ensures_interrupt (ht : Tidy ρ m) :
    Ensures interrupt m (fun _ m' => ∃ ρ', Tidy ρ' m' ∧ Posts ρ m ρ' m') E := by
  refine ht.settled.ensures_interrupt.imp ?_
  rintro - m' ⟨ρ', new, hs, hp, -⟩
  exact ⟨ρ', ht.proceeds hs hp.proceeds, hp⟩

theorem ensures_dispatch (ht : Tidy ρ m) :
    Ensures dispatch m
      (fun _ m' => ∃ ρ', Tidy ρ' m' ∧ (Posts ρ m ρ' m' ∨ ∃ t e a, Begins t e a ρ m ρ' m')) E := by
  refine ht.settled.ensures_dispatched.imp ?_
  rintro d m' ⟨ρ', hs, hp | ⟨t, e, a, hb⟩⟩
  · exact ⟨ρ', ht.proceeds hs hp.proceeds, .inl hp⟩
  · exact ⟨ρ', ht.proceeds hs (hb.proceeds hs.orderly.layout), .inr ⟨t, e, a, hb⟩⟩

end Tidy

theorem Stepping.tidy (hr : Stepping config m) (hc : config.strategy ≠ .incremental) :
    ∃ ρ, Tidy ρ m := by
  induction hr with
  | start hb hr =>
    obtain ⟨ρ, ht, -⟩ := hb.tidy hr hc
    exact ⟨ρ, ht⟩
  | command c _ hw hrun ih =>
    obtain ⟨ρ, ht⟩ := ih
    obtain ⟨ρ', ht', -⟩ := (ht.ensures_command c hw).ok hrun
    exact ⟨ρ', ht'⟩
  | refused c _ hw hrun hf ih =>
    obtain ⟨ρ, ht⟩ := ih
    have hsame := (ht.ensures_command c hw).error hrun hf
    exact ⟨ρ, hsame ▸ ht⟩
  | interrupt _ hrun ih =>
    obtain ⟨ρ, ht⟩ := ih
    obtain ⟨ρ', ht', -⟩ := (ht.ensures_interrupt (E := fun _ => True)).ok hrun
    exact ⟨ρ', ht'⟩
  | dispatch _ hrun ih =>
    obtain ⟨ρ, ht⟩ := ih
    obtain ⟨ρ', ht', -⟩ := (ht.ensures_dispatch (E := fun _ => True)).ok hrun
    exact ⟨ρ', ht'⟩
  | execute _ hrun ih =>
    obtain ⟨ρ, ht⟩ := ih
    obtain ⟨ρ', ht', -⟩ := (ht.ensures_execute (E := fun _ => True)).ok hrun
    exact ⟨ρ', ht'⟩

theorem Heap.Chain.eq_of_mem_iff {f : Field} {v w : Word} {k : List Nat} (hl : h.Chain f v l)
    (hk : h.Chain f w k) (hm : ∀ i, i ∈ k ↔ i ∈ l) : k = l := by
  cases k with
  | nil =>
    cases l with
    | nil => rfl
    | cons i l => exact absurd ((hm i).2 List.mem_cons_self) List.not_mem_nil
  | cons j k =>
    obtain ⟨l₁, l₂, rfl⟩ := List.append_of_mem ((hm j).1 List.mem_cons_self)
    obtain ⟨-, -, hk⟩ := hk
    obtain ⟨-, -, hl₂⟩ := hl.suffix
    cases hk.unique hl₂
    cases l₁ with
    | nil => rfl
    | cons i l₁ =>
      have hi : i ∈ j :: k := (hm i).2 (by simp)
      have hnd := hl.nodup
      simp only [List.cons_append, List.nodup_cons, List.mem_append, not_or] at hnd
      exact absurd hi hnd.1.2

theorem Queue.Holds.of_mem_iff {q : Queue} {k : List Nat} {i : Nat} (hl : q.Holds h (i :: l))
    (hk : q.Holds h' k) (hm : ∀ j, j ∈ k ↔ j ∈ i :: l)
    (hz : ∀ j ∈ l, (h'.cellAt j).z = (h.cellAt j).z) : q.Holds h' (i :: l) := by
  -- A line is as it was if it has the same members and all but the first keep their links.
  cases k with
  | nil => exact absurd ((hm i).2 List.mem_cons_self) List.not_mem_nil
  | cons j k =>
    have hil := (List.nodup_cons.1 hl.1.nodup).1
    have hjk := (List.nodup_cons.1 hk.1.nodup).1
    obtain ⟨hi, -, hchain⟩ := hl.1
    obtain ⟨hj, -, hchain'⟩ := hk.1
    cases hi.symm.trans hj
    have hmem : ∀ n, n ∈ k ↔ n ∈ l := by
      intro n
      have hn := hm n
      by_cases hni : n = i
      · rw [hni]
        exact iff_of_false hjk hil
      · simpa [hni] using hn
    have hlinks : h.Chain .z ((h'.cellAt i).get .z) k :=
      hchain'.congr (f := .z) fun n hn => (hz n ((hmem n).1 hn)).symm
    rw [← hchain.eq_of_mem_iff hlinks hmem]
    exact hk

/-- A thread has not moved: its code, its event and its stack are what they were. -/
structure Unmoved (u : Nat) (m m' : Machine) : Prop where
  fields : ∀ f, f ≠ .z → (m'.heap.cellAt u).get f = (m.heap.cellAt u).get f
  event : ∃ e, (m.heap.cellAt u).y = .ref e ∧ m'.heap.cellAt e = m.heap.cellAt e
  stack : ∃ l, m.heap.Pairs (m.heap.cellAt u).x l ∧ m'.heap.Pairs (m'.heap.cellAt u).x l ∧
    ∀ i ∈ l, m'.heap.cellAt i = m.heap.cellAt i

/-- The first thread has done something for itself alone, and has gone to the end of the line. -/
structure Machine.Isolates (m m' : Machine) : Prop where
  events : ∃ q, m.Waiting q ∧ m'.Waiting q ∧ ∀ i ∈ q, m'.heap.cellAt i = m.heap.cellAt i
  actors : ∀ b, m.heap.isActor (.cap b) = true → m'.heap.isActor (.cap b) = true ∧
    (m'.heap.cellAt b).x = (m.heap.cellAt b).x ∧ (m'.heap.cellAt b).y = (m.heap.cellAt b).y ∧
    (b ≠ m.current → (m'.heap.cellAt b).z = (m.heap.cellAt b).z)
  line : ∃ t l, m.Lined (t :: l) ∧ m'.Lined (l ++ [t]) ∧ ∀ u ∈ l, Unmoved u m m'

theorem Layout.stacked {events threads : Queue} (hl : Layout ρ h events threads)
    (hu : (ρ u).isThread = true) :
    ∃ l, h.Pairs (h.cellAt u).x l ∧ ∀ i, i ∈ l ↔ ρ i = .operand u := by
  obtain ⟨l, hc, hm⟩ := hl.listed .stack u hu
  exact ⟨l, ⟨hc, fun i hi => (hl.operand ((hm i).1 hi)).1⟩, hm⟩

theorem Open.lined (ho : Open t e a [] ρ m) : ∃ l, m.Lined (t :: l) := by
  obtain ⟨l, hq, hm⟩ := ho.orderly.layout.line
  have htl := (hm t).2 (by rw [ho.role]; rfl)
  cases l with
  | nil => cases htl
  | cons i l =>
    cases ho.head.symm.trans hq.1.1
    exact ⟨l, hq⟩

theorem Performs.same_actor {i : Instruction} (hp : Performs t e a i ρ m ρ' m') {f : Field}
    (hf : f ≠ .z) :
    (m'.heap.cellAt a).get f = (m.heap.cellAt a).get f := by
  have hs := hp.sending
  cases i with
  | send n =>
    obtain ⟨i, target, msg, m₁, -, -, -, -, hmark⟩ := Appends.sent hs
    rw [hmark]
    exact Cell.get_set_ne _ _ hf
  | _ => rw [(Undisturbed.actor hs).2]

theorem Confined.lined (hc : Confined (Working t e a) ρ m ρ' m') (ho : Open t e a [] ρ m)
    (ho' : Open t e a [] ρ' m') (hl : m.Lined (t :: l)) : m'.Lined (t :: l) := by
  have hlay := ho.orderly.layout
  obtain ⟨k, hk, hm⟩ := ho'.orderly.layout.line
  rw [hc.untouched.threads] at hk
  have hz : ∀ i ∈ l, (m'.heap.cellAt i).z = (m.heap.cellAt i).z := by
    intro i hi
    have hr := (hlay.mem_lined hl).1 (List.mem_cons_of_mem t hi)
    have hit : i ≠ t := by
      rintro rfl
      exact (List.nodup_cons.1 hl.1.nodup).1 hi
    have hie : i ≠ e := by
      rintro rfl
      rw [ho.roles.1] at hr
      cases hr
    have hia : i ≠ a := by
      rintro rfl
      rw [ho.roles.2] at hr
      cases hr
    rw [(hc.frame.same (Working.not_inLine hr hit hie hia)).2]
  unfold Lined
  rw [hc.untouched.threads]
  refine Queue.Holds.of_mem_iff hl hk (fun i => ?_) hz
  rw [hm, ho.inLine_iff ho' hc.frame, hlay.mem_lined hl]

theorem Open.not_working {e' a' : Nat} (ho : Open t e a [] ρ m) (hu : ρ u = .thread e' a')
    (hut : u ≠ t) :
    ¬ Working t e a u (ρ u) ∧ ¬ Working t e a e' (ρ e') ∧ ∀ i, ρ i = .operand u →
      ¬ Working t e a i (ρ i) := by
  obtain ⟨he, ha⟩ := ho.roles
  have hue : u ≠ e := by
    rintro rfl
    cases hu.symm.trans he
  have hua : u ≠ a := by
    rintro rfl
    cases hu.symm.trans ha
  have he' := (ho.orderly.layout.coherent.thread u e' a' hu).1
  refine ⟨Working.not_inLine (by rw [hu]; rfl) hut hue hua, ?_, fun i hi => ?_⟩
  · rintro (((rfl | h | h) | rfl | h) | rfl | h | h)
    · cases he'.symm.trans ho.role
    · rw [he'] at h
      cases h
    · cases he'.symm.trans h
    · cases he'.symm.trans he
      exact hut rfl
    · cases he'.symm.trans h
    · cases he'.symm.trans ha
    · cases he'.symm.trans h
    · cases he'.symm.trans h
  · rintro (((rfl | h | h) | rfl | h) | rfl | h | h)
    · cases hi.symm.trans ho.role
    · rw [hi] at h
      cases h
    · cases hi.symm.trans h
      exact hut rfl
    · cases hi.symm.trans he
    · cases hi.symm.trans h
    · cases hi.symm.trans ha
    · cases hi.symm.trans h
    · cases hi.symm.trans h

namespace Advances

variable (hadv : Advances t e a ρ m .continued ρ' m')

include hadv

theorem holds (ho : Open t e a [] ρ m) (hl : m.Lined (t :: l)) (hu : u ∈ l) : Unmoved u m m' := by
  obtain ⟨ip, i, next, m₁, -, -, ho₁, hperf, hrel⟩ := hadv.outcome
  have hlay := ho.orderly.layout
  have hf : Frame (Working t e a) ρ m.heap ρ' m₁.heap :=
    hperf.confined.frame.mono fun _ _ => Instruction.working
  have hut : u ≠ t := by
    rintro rfl
    exact (List.nodup_cons.1 hl.1.nodup).1 hu
  obtain ⟨e', a', hrole⟩ := Settled.thread_of_line ⟨ho.orderly, ho.brief⟩ hl.1
    (List.mem_cons_of_mem t hu)
  obtain ⟨hnu, hne, hni⟩ := ho.not_working hrole hut
  -- What was out of reach of the instruction, and is not in line, is as it was.
  have hsame : ∀ {i}, ¬ Working t e a i (ρ i) → (ρ i).inLine = false →
      m'.heap.cellAt i = m.heap.cellAt i := by
    intro i hi hline
    obtain ⟨hr, hcell⟩ := hf.same hi
    rw [(hrel.frame.same (by rw [hr, hline]; simp)).2, hcell]
  have hfields : ∀ f, f ≠ .z → (m'.heap.cellAt u).get f = (m.heap.cellAt u).get f := by
    intro f hz
    rw [hrel.others u (by rw [ho₁.head]; simpa using hut.symm) f hz, (hf.same hnu).2]
  have hsuits := (hlay.fits u).2
  rw [hrole] at hsuits
  obtain ⟨k, hk, hmem⟩ := hlay.stacked (by rw [hrole]; rfl)
  have hcells : ∀ i ∈ k, m'.heap.cellAt i = m.heap.cellAt i := by
    intro i hi
    have hr := (hmem i).1 hi
    exact hsame (hni i hr) (by rw [hr]; rfl)
  refine ⟨hfields, ⟨e', hsuits.2, hsame hne ?_⟩, k, hk, ?_, hcells⟩
  · rw [(hlay.coherent.thread u e' a' hrole).1]
    rfl
  · rw [show (m'.heap.cellAt u).x = _ from hfields .x (by simp)]
    exact hk.congr hadv.frame.top_le hcells

theorem actors {b : Nat} (ho : Open t e a [] ρ m) (hb : (ρ b).isActor = true) :
    (ρ' b).isActor = true ∧ (∀ f, f ≠ .z → (m'.heap.cellAt b).get f = (m.heap.cellAt b).get f) ∧
      (b ≠ a → m'.heap.cellAt b = m.heap.cellAt b) := by
  obtain ⟨ip, i, next, m₁, -, -, ho₁, hperf, hrel⟩ := hadv.outcome
  by_cases hba : b = a
  · subst hba
    have hrole := ho₁.roles.2
    refine ⟨by rw [hrole]; rfl, fun f hf => ?_, absurd rfl⟩
    rw [(hrel.frame.same (by rw [hrole]; simp [Role.inLine])).2]
    exact hperf.same_actor hf
  · have hnot : ¬ Concerned t e a b (ρ b) := by
      intro hc
      have hpend : ρ b ≠ .pending a := by
        intro h
        rw [h] at hb
        cases hb
      have := hc.not_acting ho.parties hba hpend
      rw [Role.isActing_of_isActor hb] at this
      cases this
    obtain ⟨hr, hcell⟩ := hadv.frame.same hnot
    exact ⟨hr ▸ hb, fun f _ => by rw [hcell], fun _ => hcell⟩

theorem isolated (ho : Open t e a [] ρ m)
    (hs : Settled [] ρ' m') (hn : ∀ i, ρ i ≠ .condemned) (hn' : ∀ i, ρ' i ≠ .condemned) :
    m.Isolates m' := by
  have hlay := ho.orderly.layout
  have hlay' := hs.orderly.layout
  obtain ⟨l, hl⟩ := ho.lined
  refine ⟨?_, fun b hb => ?_, t, l, hl, ?_, fun u hu => hadv.holds ho hl hu⟩
  · obtain ⟨ip, i, next, m₁, -, -, ho₁, hperf, hrel⟩ := hadv.outcome
    obtain ⟨q, hq, hm⟩ := hlay.queue
    have hc := hperf.confined.mono fun _ _ => Instruction.working
    have hsp := hc.spares hlay fun _ hi => Working.not_queued ho hi
    have hw : m₁.Waiting q := hsp.waiting q hq
    refine ⟨q, hq, hrel.frame.waiting hrel.events ho₁.orderly.layout (fun _ _ h => by cases h) hw,
      fun i hi => ?_⟩
    have hr := (ho₁.orderly.layout.mem_waiting hw).1 hi
    rw [(hrel.frame.same (by rw [hr]; simp [Role.inLine])).2]
    exact hsp.same q hq i hi
  · rw [hlay.isActor_cap_iff (hn b)] at hb
    obtain ⟨hact, hfields, hcell⟩ := hadv.actors ho hb
    refine ⟨(hlay'.isActor_cap_iff (hn' b)).2 hact, hfields .x (by simp), hfields .y (by simp),
      fun hne => ?_⟩
    rw [hcell (by rwa [ho.current_eq] at hne)]
  · obtain ⟨ip, i, next, m₁, -, -, ho₁, hperf, hrel⟩ := hadv.outcome
    have hc := hperf.confined.mono fun _ _ => Instruction.working
    exact hrel.line t l (hc.lined (ho.tally .performed) ho₁ hl)

end Advances

theorem Machine.execute_continued {gc : MarkSweep} (hc : m.collector = .markSweep gc)
    (hn : m.threads.head ≠ .nil) (ha : advance m.threads.head m = .ok .continued m') :
    execute m = .ok .continued m' := by
  have hthread : thread m = .ok m.threads.head m := rfl
  have hstep := collectorStep_eq hc
  unfold execute
  simp only [bind, EStateM.bind, pure, EStateM.pure, hthread, hn, if_false, hstep, ha]

def goesOn : EStateM.Result Fault Machine Step → Bool
  | .ok .continued _ => true
  | _ => false

theorem eq_of_goesOn {r : EStateM.Result Fault Machine Step} (hr : goesOn r = true) :
    ∃ m, r = .ok .continued m := by
  cases r with
  | ok step m =>
    cases step with
    | continued => exact ⟨m, rfl⟩
    | noThreads | retired => cases hr
  | error => cases hr

/-- An instruction that does not end its transaction changes nothing of what others have: the events
on their way, the behaviour and the state of every actor, and what other transactions have sent;
their threads hold where they are, and its own thread goes to the end of the line. -/
theorem Stepping.isolates (hr : Stepping config m) (hc : config.strategy ≠ .incremental)
    (he : Machine.execute m = .ok .continued m') : m.Isolates m' := by
  obtain ⟨ρ, ht⟩ := hr.tidy hc
  obtain ⟨ρ', ht', ⟨h, -⟩ | ⟨-, t, e, a, hturn⟩⟩ := (ht.ensures_execute (E := fun _ => True)).ok he
  · cases h
  have ho := hturn.opened
  obtain ⟨ρ₁, m₁, ha, hs₁, hadv, -⟩ := hturn.advances
  obtain ⟨gc, hgc⟩ := ht.collector
  rw [← ho.head] at ha
  obtain ⟨l, hl⟩ := ho.lined
  have hsame := Machine.execute_continued hgc hl.1.ne_nil ha
  cases hsame.symm.trans he
  exact hadv.isolated ho hs₁ ht.clean (ht.proceeds hs₁ hadv.proceeds).clean

theorem Stepping.isolates_sending : ∃ m m', Stepping { heapCapacity := 80 } m ∧
    m.instruction? = some (.send 0) ∧ m.heap.Chain .z m.threads.head [22, 24] ∧
      m.heap.Chain .z m.events.head [21] ∧ Machine.execute m = .ok .continued m' ∧
      m.Isolates m' := by
  -- A thread sends a message while another thread is in line and an event waits for its actor.
  have hplay : (play { heapCapacity := 80 }
      [.block [.push (.fix 7), .my .self, .send 0, .finish .commit], .actor (.ref 16) [],
        .actor (.ref 16) []]
      [.send (.cap 17) .nil, .send (.cap 18) .nil, .send (.cap 17) .nil, .tick, .tick, .tick]).any
      (fun m => decide (m.instruction? = some (.send 0) ∧
        m.heap.Chain .z m.threads.head [22, 24] ∧ m.heap.Chain .z m.events.head [21] ∧
        goesOn (Machine.execute m) = true)) = true := by decide +kernel
  obtain ⟨m, hm, hfacts⟩ := (Option.any_eq_true _ _).1 hplay
  obtain ⟨hi, hline, hqueue, hgo⟩ := of_decide_eq_true hfacts
  obtain ⟨m', he⟩ := eq_of_goesOn hgo
  have hr := (Running.of_play hm).stepping
  exact ⟨m, m', hr, hi, hline, hqueue, he, hr.isolates (by decide) he⟩

end ActorMachine
