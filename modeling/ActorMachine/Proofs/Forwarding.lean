import ActorMachine.Proofs.Conservation
import ActorMachine.Proofs.OpenTransaction

namespace ActorMachine

open Machine

variable {ρ ρ' : Roles} {m m' : Machine} {i t e a : Nat}
variable {r : Role} {en : Ending} {l : List Nat}

def Role.isEvent : Role → Bool
  | queued | pending _ | handled .. => true
  | _ => false

def Part.isOfEvents : Part → Bool
  | events | event _ | sends _ => true
  | _ => false

namespace Machine

def Carries (m : Machine) (i : Nat) : Prop :=
  ∃ (p : Part) (l : List Nat), p.isOfEvents = true ∧ p.Present m ∧ p.Lists m l ∧ i ∈ l

theorem carries_of_chain {q : List Nat} (hq : m.heap.Chain .z m.events.head q) (hi : i ∈ q) :
    m.Carries i :=
  ⟨.events, q, rfl, trivial, hq, hi⟩

def Handles (m : Machine) (t i : Nat) : Prop := m.Lines t ∧ (m.heap.cellAt t).y = .ref i

end Machine

theorem Layout.present_sends (hl : m.Arranged ρ) (ha : (ρ a).isOpen = true) :
    (Part.sends a).Present m := by
  refine ⟨(hl.bounds (i := a) fun h => ?_).2, ?_, hl.marker_ne ha⟩
  · rw [h] at ha
    cases ha
  · have hs := (hl.fits a).2
    cases hr : ρ a with
    | busy | stopped =>
      rw [hr] at hs
      exact hs.1
    | _ =>
      rw [hr] at ha
      cases ha

theorem Settled.handles_iff (hs : Settled [] ρ m) : m.Handles t i ↔ ∃ a, ρ i = .handled t a := by
  have hl := hs.orderly.layout
  constructor
  · rintro ⟨⟨l, hc, ht⟩, hy⟩
    obtain ⟨e, a, hr⟩ := hs.thread_of_line hc ht
    have hst := (hl.fits t).2
    rw [hr] at hst
    have := hy.symm.trans hst.2
    cases this
    exact ⟨a, (hl.coherent.thread t i a hr).1⟩
  · rintro ⟨a, hi⟩
    have hr := hl.coherent.handled i t a hi
    have hst := (hl.fits t).2
    rw [hr] at hst
    exact ⟨hs.lines_iff.2 (by rw [hr]; rfl), hst.2⟩

theorem Tidy.carries_iff (ht : Tidy ρ m) : m.Carries i ↔ (ρ i).isEvent = true := by
  have hs := ht.settled
  have hl := hs.orderly.layout
  constructor
  · rintro ⟨p, l, hp, hpres, hlist, hi⟩
    obtain ⟨k, hk, hpart⟩ := hs.lists ht.clean hpres
    rw [hlist.unique hk] at hi
    have hpi := hpart i hi
    unfold Roles.part? at hpi
    cases hr : ρ i with
    | queued | pending | handled => rfl
    | staged o =>
      rw [hr] at hpi
      dsimp only at hpi
      split at hpi <;> cases hpi
      cases hp
    | _ =>
      rw [hr] at hpi
      cases hpi <;> cases hp
  · intro hi
    cases hr : ρ i with
    | queued =>
      obtain ⟨q, hq, hm⟩ := hl.queue
      exact carries_of_chain hq.1 ((hm i).2 hr)
    | pending b =>
      have hb : (ρ b).isOpen = true := hl.owned .sends b i hr
      obtain ⟨l, hc, hm⟩ := hl.listed .sends b hb
      exact ⟨.sends b, l, rfl, hl.present_sends hb, hc, (hm i).2 hr⟩
    | handled t b =>
      obtain ⟨hline, hy⟩ := hs.handles_iff.2 ⟨b, hr⟩
      exact ⟨.event t, [i], rfl, hline, ⟨i, hy, rfl⟩, List.mem_singleton.2 rfl⟩
    | _ =>
      rw [hr] at hi
      cases hi

def Machine.Repeats (m m' : Machine) (i : Nat) : Prop :=
  (m'.heap.cellAt i).x = (m.heap.cellAt i).x ∧ (m'.heap.cellAt i).y = (m.heap.cellAt i).y

theorem Machine.Repeats.of_fields
    (hf : ∀ f, f ≠ .z → (m'.heap.cellAt i).get f = (m.heap.cellAt i).get f) : m.Repeats m' i :=
  ⟨hf .x (by decide), hf .y (by decide)⟩

def Forwards (ρ : Roles) (m : Machine) (ρ' : Roles) (m' : Machine) : Prop :=
  ∀ i, (ρ' i).isEvent = true →
    (ρ i).isEvent = true ∧ m.Repeats m' i ∨
      (ρ i).isEvent = false ∧ m.heap.isActor (m'.heap.cellAt i).x = true

theorem Same.repeats (hs : Same ρ ρ' m.heap m'.heap i) (hi : (ρ' i).isEvent = true) :
    (ρ i).isEvent = true ∧ m.Repeats m' i :=
  ⟨by rwa [← hs.1], by rw [hs.2], by rw [hs.2]⟩

theorem Role.not_isSpare_of_isEvent (hr : r.isEvent = true) : r.isSpare = false := by
  cases r <;> first | rfl | cases hr

theorem Role.not_isNew_of_isEvent (hr : r.isEvent = true) : r.isNew = false := by
  cases r <;> first | rfl | cases hr

theorem Role.not_inLine_of_isEvent (hr : r.isEvent = true) : r.inLine = false := by
  cases r <;> first | rfl | cases hr

theorem Role.not_isEvent_of_isSpare (hr : r.isSpare = true) : r.isEvent = false := by
  cases r <;> first | rfl | cases hr

theorem Posts.same_event (hp : Posts ρ m ρ' m') (hi : (ρ' i).isEvent = true) (hq : ρ' i ≠ .queued) :
    Same ρ ρ' m.heap m'.heap i :=
  hp.same_of_after (not_posting (Role.not_isSpare_of_isEvent hi) hq)

theorem Begins.same_event (hb : Begins t e a ρ m ρ' m') (hl' : m'.Arranged ρ')
    (hi : (ρ' i).isEvent = true) (hq : ρ' i ≠ .queued) (hie : i ≠ e) :
    Same ρ ρ' m.heap m'.heap i := by
  obtain ⟨-, ha⟩ := hl'.coherent.thread t e a hb.thread
  refine hb.frame.same_of_after ?_ (Role.not_isNew_of_isEvent hi)
  rintro (h | h | rfl | h | rfl | h)
  · exact not_posting (Role.not_isSpare_of_isEvent hi) hq h
  · rw [Role.not_inLine_of_isEvent hi] at h
    cases h
  · rw [hb.thread] at hi
    cases hi
  · exact hie h
  · rw [ha] at hi
    cases hi
  · rw [h] at hi
    cases hi

theorem Resumes.event {rest : List Nat} (hr : Resumes ρ m ρ' m' rest)
    (hl' : m'.Arranged ρ') (hi : (ρ' i).isEvent = true) :
    i ∈ rest ∨ ρ' i ≠ .queued ∧ Same ρ ρ' m.heap m'.heap i := by
  by_cases hq : ρ' i = .queued
  · refine .inl ?_
    cases hr with
    | idle _ hw => exact (hl'.mem_waiting hw).2 hq
    | busy _ hw => simpa [or_comm] using (hl'.mem_waiting hw).2 hq
    | spawned _ hw => exact List.mem_cons_of_mem _ ((hl'.mem_waiting hw).2 hq)
  · cases hr with
    | idle hp => exact .inr ⟨hq, hp.same_event hi hq⟩
    | busy hp => exact .inr ⟨hq, hp.same_event hi hq⟩
    | @spawned t e a q hb =>
      by_cases hie : i = e
      · exact .inl (hie ▸ List.mem_cons_self)
      · exact .inr ⟨hq, hb.same_event hl' hi hq hie⟩

theorem Dispatches.forwards (hd : Dispatches ρ m ρ' m') (hl : m.Arranged ρ)
    (hl' : m'.Arranged ρ') : Forwards ρ m ρ' m' := by
  obtain ⟨gone, left, new, hs⟩ := hd.sorts
  intro i hi
  obtain hrest | ⟨-, hsame⟩ := hs.resumes.event hl' hi
  · obtain hleft | hnew := List.mem_append.1 hrest
    · rw [(hl.mem_waiting hs.waiting).1 (List.mem_append_right gone hleft)]
      exact .inl ⟨rfl, .of_fields (hs.fields i hleft)⟩
    · obtain ⟨hspare, hactor⟩ := hs.fresh i hnew
      exact .inr ⟨Role.not_isEvent_of_isSpare hspare, hactor⟩
  · exact .inl (hsame.repeats hi)

theorem Sweeps.same_event (hs : Sweeps ρ m ρ' m') (hl : m.Arranged ρ)
    (hl' : m'.Arranged ρ') (hi : (ρ' i).isEvent = true) :
    Same ρ ρ' m.heap m'.heap i := by
  cases hr : ρ' i with
  | queued =>
    obtain ⟨q, hq, hm⟩ := hl.queue
    have hold := (hm i).1 ((hl'.mem_waiting (hs.waiting hl hq)).2 hr)
    exact hs.rooted hl (by rw [hold]; rfl)
  | pending b =>
    have hopen : (ρ' b).isOpen = true := hl'.owned .sends b i hr
    have hu :=
      hs.undisturbed hl (a := b)
      (by cases h : ρ' b <;> rw [h] at hopen <;> first | rfl | cases hopen)
    have hold := (hu.pending i).1 hr
    exact ⟨hr.trans hold.symm, hu.same i hold⟩
  | handled t b =>
    have hold := (hs.stands hl hl' (hl'.coherent.handled i t b hr)).role
    exact hs.rooted hl (by rw [(hl.coherent.thread t i b hold).1]; rfl)
  | _ =>
    rw [hr] at hi
    cases hi

theorem Forwards.sweep {ρ'' : Roles} {m'' : Machine} (hf : Forwards ρ m ρ' m')
    (hs : Sweeps ρ' m' ρ'' m'') (hl : m'.Arranged ρ') (hl' : m''.Arranged ρ'') :
    Forwards ρ m ρ'' m'' := by
  intro i hi
  have hsame := hs.same_event hl hl' hi
  rw [hsame.1] at hi
  unfold Repeats
  rw [hsame.2]
  exact hf i hi

theorem Open.isActor_composeMessage {n : Int} {target msg : Word} (ho : Open t e a [] ρ m)
    (hr : composeMessage n m = .ok (target, msg) m') : m.heap.isActor target = true := by
  suffices h : Ensures (composeMessage n) m (fun r _ => m.heap.isActor r.1 = true)
    fun _ => True from
    h.ok hr
  unfold composeMessage
  refine (Ensures.mono ho.runs_popTop (fun _ _ h => h) fun _ _ => trivial).bind ?_
  rintro target m₁ ⟨ρ₁, ho₁, hw, -, hroles, -⟩
  rw [ensures_look_bind]
  refine .ite (fun _ => .inr trivial) fun ha => ?_
  have hactor : m.heap.isActor target = true := by
    rw [← hw.frame.isActor_eq ho.orderly.layout ho₁.orderly.layout (fun i hi hc => ?_)
      (fun i => ?_) target]
    · simpa using ha
    · rw [hc] at hi
      obtain rfl | h | h := hi
      · rw [ho.role] at hc
        cases hc
      · cases h
      · cases h
    · obtain h | ⟨h, h'⟩ := hroles i
      · rw [h]
      · rw [h, h']
        rfl
  refine .ite (fun _ => ?_) fun _ => ?_
  · exact Ensures.any.bind fun msg _ _ => hactor
  · refine Ensures.any.bind fun k _ _ => Ensures.any.bind fun items _ _ => ?_
    exact Ensures.any.bind fun msg _ _ => hactor

theorem Performs.repeats {code : Instruction} (hp : Performs t e a code ρ m ρ' m')
    (ho : Open t e a [] ρ m) :
    m.Repeats m' e := by
  cases code with
  | beh n => exact .of_fields hp.effect.1
  | _ =>
    have hcell := (hp.stands ho (by simp)).same e (.inl rfl)
    exact ⟨by rw [hcell], by rw [hcell]⟩

theorem Working.not_isEvent (hr : r.isEvent = true) (ht : i ≠ t) (he : i ≠ e) (ha : i ≠ a)
    (hp : r ≠ .pending a) : ¬ Working t e a i r := by
  rintro (((h | h | h) | h | h) | h | h | h)
  · exact ht h
  · rw [Role.not_isSpare_of_isEvent hr] at h
    cases h
  · rw [h] at hr
    cases hr
  · exact he h
  · rw [h] at hr
    cases hr
  · exact ha h
  · exact hp h
  · rw [h] at hr
    cases hr

theorem Concerned.not_isEvent (hr : r.isEvent = true) (hq : r ≠ .queued) (ht : i ≠ t) (he : i ≠ e)
    (ha : i ≠ a) (hp : r ≠ .pending a) : ¬ Concerned t e a i r := by
  have hnot := Working.not_isEvent hr ht he ha hp
  rintro ((h | h | h | h) | h | h)
  · exact hnot (.inl h)
  · exact ha h
  · exact hp h
  · exact hq h
  · rw [Role.not_inLine_of_isEvent hr] at h
    cases h
  · exact hnot (.inr (.inr (.inr h)))

/-- Of what was held back, some events go out. Those whose target is there follow the others in the
queue, and those whose target is gone are dropped. -/
structure Passes (out : List Nat) (m : Machine) (ρ' : Roles) (m' : Machine) : Prop where
  waiting : ∀ q, m.Waiting q → m'.Waiting (q ++ out.filter m.reaches)
  repeats : ∀ q, m.Waiting q → ∀ i ∈ q ++ out.filter m.reaches, m.Repeats m' i
  freed : ∀ i ∈ out, m.reaches i = false → ρ' i = .free
  dropped : m'.stats.dropped = m.stats.dropped + out.countP (!m.reaches ·)

theorem Passes.sweep {out : List Nat} {ρ'' : Roles} {m'' : Machine} (hp : Passes out m ρ' m')
    (hs : Sweeps ρ' m' ρ'' m'') (hl : m'.Arranged ρ') : Passes out m ρ'' m'' := by
  refine ⟨fun q hq => hs.waiting hl (hp.waiting q hq), fun q hq i hi => ?_,
    fun i hi hgone => hs.free i (hp.freed i hi hgone), by rw [hs.stats, hp.dropped]⟩
  have hcell := (hs.rooted hl (by rw [(hl.mem_waiting (hp.waiting q hq)).1 hi]; rfl)).2
  unfold Repeats
  rw [hcell]
  exact hp.repeats q hq i hi

theorem Ending.mem_of_outgoing (hi : i ∈ en.outgoing l) : i ∈ l := by
  cases en with
  | commit | release => exact List.mem_reverse.1 hi
  | abort | stop => cases hi

namespace Advances

theorem passes_continued (hadv : Advances t e a ρ m .continued ρ' m') (ho : Open t e a [] ρ m) :
    Passes [] m ρ' m' := by
  obtain ⟨ip, code, next, m₁, -, -, ho₁, hperf, hrel⟩ := hadv.outcome
  have hsp : Spares (m.tally .performed) m₁ :=
    (hperf.confined.mono fun _ _ => Instruction.working).spares ho.orderly.layout
      fun _ hi => Working.not_queued ho hi
  have hl₁ := ho₁.orderly.layout
  refine ⟨fun q hq => ?_, fun q hq i hi => ?_, by simp, ?_⟩
  · rw [List.filter_nil, List.append_nil]
    exact hrel.frame.waiting hrel.events hl₁ (fun _ _ h => by cases h) (hsp.waiting q hq)
  · rw [List.filter_nil, List.append_nil] at hi
    have hr := (hl₁.mem_waiting (hsp.waiting q hq)).1 hi
    unfold Repeats
    rw [(hrel.frame.same (i := i) (by simp [hr, Role.inLine])).2, hsp.same q hq i hi]
    exact ⟨rfl, rfl⟩
  · rw [hrel.stats, hsp.stats]
    rfl

theorem passes_retired (hadv : Advances t e a ρ m (.retired en) ρ' m')
    (ho : Open t e a [] ρ m) (hc : m.heap.Chain .z (m.heap.cellAt a).z l) :
    Passes (en.outgoing l) m ρ' m' := by
  obtain ⟨ρ₁, m₁, ρ₂, m₂, hce, ho₁, hclosed, hret⟩ := hadv.outcome
  have hsp := hce.spares ho
  have hl₂ := hclosed.closing.orderly.layout
  have hother : ∀ {j r}, ρ₂ j = r → r ≠ .spent → r ≠ .held → ¬ (j = t ∨ j = e) := by
    rintro j r hr h1 h2 (rfl | rfl)
    · exact h1 (hr.symm.trans hclosed.closing.thread)
    · exact h2 (hr.symm.trans hclosed.closing.event)
  obtain ⟨l₁, hc₁, hacc, hcell⟩ : ∃ l₁, en.outgoing l₁ = en.outgoing l ∧ Accounts en l₁ m₁ ρ₂ m₂ ∧
      ∀ i ∈ en.outgoing l, m₁.heap.cellAt i = m.heap.cellAt i ∧ m₁.reaches i = m.reaches i := by
    cases hce with
    | finish => exact ⟨l, rfl, hclosed.accounts l hc, fun _ _ => ⟨rfl, rfl⟩⟩
    | fault =>
      obtain ⟨l₁, hl₁, -⟩ := ho₁.sends
      exact ⟨l₁, rfl, hclosed.accounts l₁ hl₁, fun _ hi => by cases hi⟩
  have hfilter : (en.outgoing l).filter m₁.reaches = (en.outgoing l).filter m.reaches :=
    List.filter_congr fun i hi => (hcell i hi).2
  obtain ⟨hwait, hfields, hfreed, hstats⟩ := hacc
  rw [hc₁] at hwait hfields hfreed hstats
  rw [hfilter] at hwait hfields
  refine ⟨fun q hq => hret.waiting hclosed.closing (hwait q (hsp.waiting q hq)),
    fun q hq i hi => ?_, fun i hi hgone => ?_, ?_⟩
  · have hq₁ := hsp.waiting q hq
    rw [Repeats,
      (hret.frame.same (hother ((hl₂.mem_waiting (hwait q hq₁)).1 hi) (by simp) (by simp))).2]
    have hsame : m₁.heap.cellAt i = m.heap.cellAt i := by
      obtain hi | hi := List.mem_append.1 hi
      · exact hsp.same q hq i hi
      · exact (hcell i (List.mem_of_mem_filter hi)).1
    rw [← hsame]
    exact Repeats.of_fields (hfields q hq₁ i hi)
  · have hfree := hfreed i hi (by rw [(hcell i hi).2]; exact hgone)
    exact (hret.frame.same (hother hfree (by simp) (by simp))).1.trans hfree
  · have hcount : (en.outgoing l).countP (!m₁.reaches ·) = (en.outgoing l).countP (!m.reaches ·) :=
      List.countP_congr fun i hi => by rw [(hcell i hi).2]
    rw [hret.stats, hstats, hcount, hsp.stats]
    cases en <;> rfl

theorem passes {step : Step} (hadv : Advances t e a ρ m step ρ' m')
    (ho : Open t e a [] ρ m) (hc : m.heap.Chain .z (m.heap.cellAt a).z l) :
    Passes (step.outgoing l) m ρ' m' := by
  cases step with
  | noThreads => exact hadv.outcome.elim
  | continued => exact hadv.passes_continued ho
  | retired en => exact hadv.passes_retired ho hc

theorem forwards_continued (hadv : Advances t e a ρ m .continued ρ' m') (ho : Open t e a [] ρ m) :
    Forwards ρ m ρ' m' := by
  obtain ⟨ip, code, next, m₁, -, -, ho₁, hperf, hrel⟩ := hadv.outcome
  intro i hi
  unfold Repeats
  rw [(hrel.frame.same (i := i) (by simp [Role.not_inLine_of_isEvent hi])).2]
  have hit : i ≠ t := by
    rintro rfl
    rw [ho₁.role] at hi
    cases hi
  have hia : i ≠ a := by
    rintro rfl
    rw [ho₁.roles.2] at hi
    cases hi
  by_cases hie : i = e
  · subst hie
    rw [ho.roles.1]
    exact .inl ⟨rfl, hperf.repeats (ho.tally _)⟩
  by_cases hpend : ρ' i = .pending a
  · have hsend := hperf.sending
    cases code with
    | send n =>
      obtain ⟨-, hcells, j, target, msg, m₂, hrun, hnew, hmem, hevent, -⟩ := hsend
      obtain rfl | hold := (hmem i).1 hpend
      · refine .inr ⟨?_, ?_⟩
        · -- The cell was spare, or a pair that was popped from the stack.
          obtain hs | ⟨(h | h | h) | h | h, -⟩ := hperf.confined.frame.changes i
          · exact absurd (hs.1.symm.trans hpend) hnew
          · exact absurd h hit
          · exact Role.not_isEvent_of_isSpare h
          · rw [h]
            rfl
          · exact absurd h hia
          · exact absurd h hnew
        · rw [hevent]
          exact (ho.tally _).isActor_composeMessage hrun
      · rw [hcells i hold, hold]
        exact .inl ⟨rfl, rfl, rfl⟩
    | _ =>
      have hold := (hsend.pending i).1 hpend
      rw [hsend.same i hold, hold]
      exact .inl ⟨rfl, rfl, rfl⟩
  · have hframe := (hperf.confined.mono fun _ _ => Instruction.working).frame
    exact .inl ((hframe.same_of_after (Working.not_isEvent hi hit hie hia hpend)
      (Role.not_isNew_of_isEvent hi)).repeats hi)

theorem pending_of_stopped (hadv : Advances t e a ρ m (.retired .stop) ρ' m')
    (ho : Open t e a [] ρ m)
    (hs' : Settled [] ρ' m') (hi : ρ' i = .pending a) : ρ i = .pending a := by
  obtain ⟨l, hc, hm⟩ := ho.sends
  obtain ⟨hcell, hcells⟩ := hadv.stopped ho
  have hc' : m'.heap.Chain .z (m'.heap.cellAt a).z l := by
    rw [hcell]
    exact hc.congr fun j hj => by rw [hcells j ((hm j).1 hj)]
  have hopen : (ρ' a).isOpen = true := hs'.orderly.layout.owned .sends a i hi
  exact (hm i).1 ((hs'.orderly.layout.sends hopen hc' i).2 hi)

theorem forwards_retired (hadv : Advances t e a ρ m (.retired en) ρ' m')
    (ho : Open t e a [] ρ m) (hs' : Settled [] ρ' m') : Forwards ρ m ρ' m' := by
  have hl' := hs'.orderly.layout
  have hleaves := hadv.leaves ho
  intro i hi
  refine .inl ?_
  by_cases hq : ρ' i = .queued
  · obtain ⟨l, hc, hm⟩ := ho.sends
    obtain ⟨q, hwait, hmq⟩ := ho.orderly.layout.queue
    have hp := hadv.passes_retired ho hc
    have hmem := (hl'.mem_waiting (hp.waiting q hwait)).2 hq
    refine ⟨?_, hp.repeats q hwait i hmem⟩
    obtain hi | hi := List.mem_append.1 hmem
    · rw [(hmq i).1 hi]
      rfl
    · rw [(hm i).1 (Ending.mem_of_outgoing (List.mem_of_mem_filter hi))]
      rfl
  by_cases hpend : ρ' i = .pending a
  · have hopen : (ρ' a).isOpen = true := hl'.owned .sends a i hpend
    cases en with
    | stop =>
      have hold := hadv.pending_of_stopped ho hs' hpend
      have hcell := (hadv.stopped ho).2 i hold
      exact ⟨by rw [hold]; rfl, by rw [hcell], by rw [hcell]⟩
    | abort | commit =>
      rw [hleaves] at hopen
      cases hopen
    | release => obtain h | h := hleaves <;> rw [h] at hopen <;> cases hopen
  obtain ⟨ρ₁, m₁, ρ₂, m₂, -, -, -, hret⟩ := hadv.outcome
  have hne : ∀ {j : Nat}, (ρ' j).isEvent = false → i ≠ j := by
    rintro j hj rfl
    rw [hi] at hj
    cases hj
  have hactor : (ρ' a).isEvent = false := by
    cases en with
    | abort | commit | stop =>
      rw [hleaves]
      rfl
    | release => obtain h | h := hleaves <;> rw [h] <;> rfl
  refine (hadv.frame.same_of_after ?_ (Role.not_isNew_of_isEvent hi)).repeats hi
  exact Concerned.not_isEvent hi hq (hne (by rw [hret.free.1]; rfl))
    (hne (by rw [hret.free.2]; rfl))
    (hne hactor) hpend

end Advances

theorem Turns.forwards {step : Step} (ht : Turns t e a ρ m step ρ' m') (hs' : Settled [] ρ' m') :
    Forwards ρ m ρ' m' := by
  obtain ⟨ho, ρ₁, m₁, -, hs₁, hadv, hsw⟩ := ht
  have hl₁ := hs₁.orderly.layout
  cases step with
  | noThreads => exact hadv.outcome.elim
  | continued => exact (hadv.forwards_continued ho).sweep hsw hl₁ hs'.orderly.layout
  | retired en => exact (hadv.forwards_retired ho hs₁).sweep hsw hl₁ hs'.orderly.layout

theorem Command.Effect.forwards {c : Command} (he : c.Effect ρ m ρ' m') (hc : c ≠ .tick)
    (hs : Settled [] ρ m) (hs' : Settled [] ρ' m') : Forwards ρ m ρ' m' := by
  have hl := hs.orderly.layout
  have hl' := hs'.orderly.layout
  intro i hi
  cases c with
  | tick => exact absurd rfl hc
  | newActor =>
    refine .inl ((he.frame.same_of_after ?_ (Role.not_isNew_of_isEvent hi)).repeats hi)
    simp [Role.not_isSpare_of_isEvent hi]
  | send =>
    obtain ⟨hp, -, j, hext, -⟩ := he
    by_cases hq : ρ' i = .queued
    · obtain ⟨q, hwait, hmq⟩ := hl.queue
      have hmem := (hl'.mem_waiting (hext.waiting q hwait)).2 hq
      obtain hold | hnew := List.mem_append.1 hmem
      · refine .inl ⟨by rw [(hmq i).1 hold]; rfl, .of_fields (hext.fields i fun hn => ?_)⟩
        have hspare := (hext.fresh i hn).1
        rw [(hmq i).1 hold] at hspare
        cases hspare
      · obtain ⟨hspare, hactor⟩ := hext.fresh i hnew
        exact .inr ⟨Role.not_isEvent_of_isSpare hspare, hactor⟩
    · exact .inl ((hp.same_event hi hq).repeats hi)
  | collect => exact .inl ((Sweeps.same_event he hl hl' hi).repeats hi)
  | pin | attachClock | setClock =>
    obtain ⟨rfl, hidle⟩ := he
    exact .inl ⟨hi, by rw [hidle.heap], by rw [hidle.heap]⟩

end ActorMachine
