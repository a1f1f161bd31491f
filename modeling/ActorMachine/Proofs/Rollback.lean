import ActorMachine.Proofs.OpenTransaction

namespace ActorMachine

variable {ρ ρ' : Roles} {m m' : Machine} {config : Config} {H : History} {t e a i : Nat}

namespace Machine

/-- The first thread is about to abort its transaction, or to perform an instruction that fails. -/
def Fails (m : Machine) : Prop :=
  ∃ ip m₁, nextAddress m.threads.head m = .ok ip m₁ ∧
    ((∃ f m₂, performAt ip m₁ = .error f m₂ ∧ f.isFatal = false) ∨
      ∃ m₂, performAt ip m₁ = .ok (.ended .abort) m₂)

def givenUp (m : Machine) : Machine :=
  match nextAddress m.threads.head m with
  | .ok ip m₁ =>
    match performAt ip m₁ with
    | .error _ m₂ => m₂
    | .ok .. => m₁
  | .error _ m₁ => m₁

/-- The transaction that the first thread runs for the actor is undone. -/
structure Undoes (m : Machine) (t a : Nat) (d : Draft) (sent : List (Word × Word)) (m' : Machine) :
    Prop where
  /-- The actor is idle, and is what it was when the transaction began. -/
  actor : m'.heap.isActor (.cap a) = true → m'.heap.cellAt a =
  ⟨.actorT, d.beh, d.state, .undefined⟩ ∧
    (d.wrote = false → m'.heap.items d.state = d.items)
  queue : ∃ q, m.Waiting q ∧ m'.Waiting q ∧
    ∀ i ∈ q, ∀ f, f ≠ .z → (m'.heap.cellAt i).get f = (m.heap.cellAt i).get f
  /-- Thread, event, stack, what was staged and all that was sent are freed. None of it was on its
  way. -/
  freed : ∃ e stack staged pending, (m.heap.cellAt t).y = .ref e ∧
    m.givenUp.heap.Chain .y (m.givenUp.heap.cellAt t).x stack ∧
    m.givenUp.heap.Chain .y (m.givenUp.heap.cellAt e).z staged ∧
    m.givenUp.heap.Chain .z (m.givenUp.heap.cellAt a).z pending ∧
    sent <:+ pending.map (fun i => ((m.givenUp.heap.cellAt i).x, (m.givenUp.heap.cellAt i).y)) ∧
    ∀ i ∈ t :: e :: (stack ++ staged ++ pending),
      (m'.heap.cellAt i).t = .freeT ∧ ∀ q, m.Waiting q → i ∉ q
  stats : m'.stats = { m.stats with
    instructions := m.stats.instructions + 1
    aborts := m.stats.aborts + 1 }

end Machine

theorem Ceases.fails (hc : Ceases t e a ρ m .abort ρ' m') (hh : m.threads.head = .ref t) :
    m.Fails := by
  cases hc with
  | finish hip _ hperf => exact ⟨_, _, hh ▸ hip, .inr ⟨_, hperf⟩⟩
  | fault hip hperf hf => exact ⟨_, _, hh ▸ hip, .inl ⟨_, _, hperf, hf⟩⟩

theorem Ceases.givenUp (hc : Ceases t e a ρ m .abort ρ' m') (hh : m.threads.head = .ref t) :
    m.givenUp.heap = m'.heap := by
  unfold Machine.givenUp
  rw [hh]
  cases hc with
  | finish hip _ hperf =>
    rw [hip]
    dsimp only
    rw [hperf]
  | fault hip hperf _ _ hq =>
    rw [hip]
    dsimp only
    rw [hperf, hq.heap]

theorem Machine.Fails.retired {step : Step} (hf : m.Fails)
    (hrun : advance m.threads.head m = .ok step m') :
    step = .retired .abort := by
  obtain ⟨ip, m₁, hip, hperf⟩ := hf
  have hnext : Ensures (nextAddress m.threads.head) m (fun v m' => v = ip ∧ m' = m₁)
      fun _ => True := by
    unfold Ensures
    rw [hip]
    exact ⟨rfl, rfl⟩
  have hstep : Ensures (advance m.threads.head) m (fun step _ => step = .retired .abort)
      fun _ => True := by
    unfold advance
    refine hnext.bind ?_
    rintro v m₂ ⟨rfl, rfl⟩
    refine ensures_attempt_bind (Q := fun r _ => r = .ended .abort) (F := fun _ => True) ?_ ?_ ?_
    · unfold Ensures
      obtain ⟨f, m₂, hp, -⟩ | ⟨m₂, hp⟩ := hperf <;> rw [hp]
      exact .inr trivial
    · rintro - m₂ - rfl
      exact Ensures.any.bind fun _ _ _ => rfl
    · intro f m₂ hp _
      have hfatal : ¬ f.isFatal = true := by
        obtain ⟨f', m₃, hp', hf⟩ | ⟨m₃, hp'⟩ := hperf <;> rw [hp] at hp' <;> cases hp'
        simp [hf]
      dsimp only
      rw [if_neg hfatal]
      exact Ensures.any.bind fun _ _ _ => Ensures.any.bind fun _ _ _ =>
        Ensures.any.bind fun _ _ _ => rfl
  exact hstep.ok hrun

theorem Ceases.actor {en : Ending} (hc : Ceases t e a ρ m en ρ' m') (ho : Open t e a [] ρ m) :
    (m'.heap.cellAt a).x = (m.heap.cellAt a).x ∧ (m'.heap.cellAt a).y = (m.heap.cellAt a).y := by
  cases hc with
  | finish => exact ⟨rfl, rfl⟩
  | fault _ _ _ hg hq =>
    rw [hq.heap]
    obtain hw | ⟨code, next, -, hp⟩ := hg
    · rw [((ho.tally _).same_sends (Confined.stages hw) (.inl rfl)).2]
      exact ⟨rfl, rfl⟩
    · exact hp.actor

theorem Ceases.holdsBack {en : Ending} {s : List (Word × Word)} (hc : Ceases t e a ρ m en ρ' m')
    (ho : Open t e a [] ρ m) (ho' : Open t e a [] ρ' m') (hs : m.HoldsBack a s) :
    ∃ s', m'.HoldsBack a s' ∧ s <:+ s' := by
  have hl := ho.orderly.layout
  have hopen : (ρ a).isOpen = true := by rw [ho.roles.2]; rfl
  cases hc with
  | finish => exact ⟨s, hs, List.suffix_refl s⟩
  | fault _ _ _ hg hq =>
    have hl' := ho'.orderly.layout
    rw [hq.heap, hq.events, hq.threads] at hl'
    unfold Machine.HoldsBack
    rw [hq.heap]
    obtain hw | ⟨code, next, -, hp⟩ := hg
    · have hsame := fun {i} => (ho.tally _).same_sends (i := i) (Confined.stages hw)
      exact ⟨s, hs.congr hl hopen (hsame (.inl rfl)).2 fun i hi => (hsame (.inr hi)).2,
        List.suffix_refl s⟩
    · have hsend := hp.sending
      cases code with
      | send n => exact ⟨_, Appends.holdsBack hsend hl hl' hopen hs, List.suffix_append ..⟩
      | _ => exact ⟨s, hs.congr hl hopen hsend.actor.2 hsend.same, List.suffix_refl s⟩

theorem Closed.freed {ρ₁ ρ₂ : Roles} {m₁ m₂ : Machine} (hc : Closed t e a ρ m .abort ρ₁ m₁)
    (hr : Retires t e ρ₁ m₁ ρ₂ m₂)
    (hi : i = t ∨ i = e ∨ ρ i = .operand t ∨ ρ i = .staged e ∨ ρ i = .pending a) :
    ρ₂ i = .free := by
  by_cases hte : i = t ∨ i = e
  · obtain rfl | rfl := hte
    · exact hr.free.1
    · exact hr.free.2
  · rw [(hr.frame.same hte).1]
    refine (hc.aborted rfl).2 i ?_
    grind

theorem Advances.undoes {D : Drafts} {sent : List (Word × Word)}
    (hadv : Advances t e a ρ m (.retired .abort) ρ' m') (ho : Open t e a [] ρ m)
    (hs' : Settled [] ρ' m')
    (hd : (D a).Tells m e a) (hsent : m.HoldsBack a sent) :
    m.Undoes t a (D.advance m a) sent m' := by
  have hl := ho.orderly.layout
  have hl' := hs'.orderly.layout
  obtain ⟨hte, hta, hea⟩ := hl.distinct ho.role
  obtain ⟨ρ₁, m₁, ρ₂, m₂, hce, ho₁, hclosed, hret⟩ := hadv.outcome
  obtain ⟨l, hc, -⟩ := ho₁.sends
  have hacc := hclosed.accounts l hc
  have hspare := hce.spares ho
  obtain ⟨hcell, -⟩ := hclosed.aborted rfl
  have hactor : m'.heap.cellAt a = (m₁.heap.cellAt a).set .z .undefined := by
    rw [(hret.frame.same (not_or.2 ⟨hta.symm, hea.symm⟩)).2, hcell]
  have hwait : ∀ q, m.Waiting q → m'.Waiting q := fun q hq => by
    have := hacc.waiting q (hspare.waiting q hq)
    rw [Ending.outgoing, List.filter_nil, List.append_nil] at this
    exact hret.waiting hclosed.closing this
  have hfree : ∀ {i}, i = t ∨ i = e ∨ ρ₁ i = .operand t ∨ ρ₁ i = .staged e ∨ ρ₁ i = .pending a →
      (m'.heap.cellAt i).t = .freeT ∧ ∀ q, m.Waiting q → i ∉ q := fun {i} hi => by
    have hr := hclosed.freed hret hi
    have hsuit := (hl'.fits i).2
    rw [hr] at hsuit
    refine ⟨hsuit, fun q hq hiq => ?_⟩
    rw [(hl'.mem_waiting (hwait q hq)).1 hiq] at hr
    cases hr
  refine ⟨fun _ => ⟨?_, fun hw => ?_⟩, ?_, ?_, ?_⟩
  · have ht : (m₁.heap.cellAt a).t = .actorT := by
      have := (ho₁.orderly.layout.fits a).2
      rw [ho₁.roles.2] at this
      exact this.1
    obtain ⟨hx, hy⟩ := hce.actor ho
    rw [hactor]
    simp only [Cell.set, ht, hx, hy, hd.beh, hd.state]
    rfl
  · obtain ⟨h1, h2⟩ := Bool.or_eq_false_iff.1 hw
    have hsafe := ho.safe_actor.2
    rw [hd.state] at hsafe
    exact (hadv.items ho hl' h2 hsafe).trans (hd.items h1)
  · obtain ⟨q, hq, -⟩ := hl.queue
    refine ⟨q, hq, hwait q hq, fun i hi f hf => ?_⟩
    have hrole : ρ₂ i = .queued := by
      refine (hclosed.closing.orderly.layout.mem_waiting ?_).1 hi
      simpa [Ending.outgoing] using hacc.waiting q (hspare.waiting q hq)
    have hne : ¬ (i = t ∨ i = e) := by
      rintro (rfl | rfl)
      · simp [hclosed.closing.thread] at hrole
      · simp [hclosed.closing.event] at hrole
    rw [(hret.frame.same hne).2, hacc.fields q (hspare.waiting q hq) i (by simp [hi]) f hf,
      hspare.same q hq i hi]
    rfl
  · have hy := (hl.fits t).2
    rw [ho.role] at hy
    obtain ⟨stack, hstack, hms⟩ := ho₁.stacked
    obtain ⟨staged, hstaged, hmb⟩ := ho₁.staged
    obtain ⟨s', ⟨pending, hpend, rfl⟩, hsuffix⟩ := hce.holdsBack ho ho₁ hsent
    have hmp := ho₁.orderly.layout.sends (by rw [ho₁.roles.2]; rfl) hpend
    rw [hce.givenUp ho.head]
    refine ⟨e, stack, staged, pending, hy.2, hstack.1, hstaged.1, hpend, hsuffix,
      fun i hi => hfree ?_⟩
    simpa [hms, hmb, hmp] using hi
  · rw [hret.stats, hacc.stats, hspare.stats]
    rfl

theorem Machine.Undoes.sweep {d : Draft} {sent : List (Word × Word)} {m₁ : Machine}
    (hu : m₁.Undoes t a d sent m) (hsw : Sweeps ρ m ρ' m') (hs : Settled [] ρ m)
    (ht' : Tidy ρ' m') :
    m₁.Undoes t a d sent m' := by
  have hl := hs.orderly.layout
  have hl' := ht'.settled.orderly.layout
  refine ⟨fun ha => ?_, ?_, ?_, hsw.stats.trans hu.stats⟩
  · obtain ⟨hbefore, hrole, hcell⟩ := hsw.actor hl ht' ha
    obtain ⟨hactor, hitems⟩ := hu.actor hbefore
    refine ⟨hcell.trans hactor, fun hw => ?_⟩
    have := hsw.items hl hl' hrole
    rw [hactor] at this
    exact this.trans (hitems hw)
  · obtain ⟨q, hq, hq', hfields⟩ := hu.queue
    refine ⟨q, hq, hsw.waiting hl hq', fun i hi f hf => ?_⟩
    rw [(hsw.rooted hl (by rw [(hl.mem_waiting hq').1 hi]; rfl)).2]
    exact hfields i hi f hf
  · obtain ⟨e, stack, staged, pending, h1, h2, h3, h4, h5, hfreed⟩ := hu.freed
    exact ⟨e, stack, staged, pending, h1, h2, h3, h4, h5, fun i hi =>
      ⟨hsw.freed i (hfreed i hi).1, (hfreed i hi).2⟩⟩

theorem Advances.continues {q : List Nat} (hadv : Advances t e a ρ m .continued ρ' m')
    (ho : Open t e a [] ρ m) (hq : m.Waiting q) :
    m'.Waiting q ∧ ∀ i ∈ q, m'.heap.cellAt i = m.heap.cellAt i := by
  obtain ⟨ip, code, next, m₁, -, -, ho₁, hperf, hrel⟩ := hadv.outcome
  have hc := hperf.confined.mono fun _ _ => Instruction.working
  have hsp := hc.spares ho.orderly.layout fun _ hi => Working.not_queued ho hi
  have hq₁ : m₁.Waiting q := hsp.waiting q hq
  refine ⟨hrel.frame.waiting hrel.events ho₁.orderly.layout (fun _ _ h => by cases h) hq₁,
    fun i hi => ?_⟩
  rw [(hrel.frame.same ?_).2, hsp.same q hq i hi]
  · rfl
  · rw [(ho₁.orderly.layout.mem_waiting hq₁).1 hi]
    simp [Role.inLine]

/-- A transaction is under way until its thread has come to its end; its actor stays what it was,
and what it has sent is held back. When it is aborted, or one of its instructions fails, the actor
is idle again and has not changed, and everything that belonged to the transaction is freed. -/
theorem Observed.rolls_back {D : Drafts} (hr : Observed Drafts.observer config m H D)
    (hc : config.strategy ≠ .incremental) :
    (∀ t a, m.Serves t a → m.Underway t a (D a) (H a).sent) ∧
    ∀ t a m₁ step m', Machine.prepare m = .ok () m₁ → m₁.threads.head = .ref t → m₁.Serves t a →
      Machine.execute m₁ = .ok step m' →
      (step = .continued → ∀ q, m₁.Waiting q →
        m'.Waiting q ∧ ∀ i ∈ q, m'.heap.cellAt i = m₁.heap.cellAt i) ∧
      (step = .retired .abort ↔ m₁.Fails) ∧
      (step = .retired .abort → ∃ m₂, Machine.advance (.ref t) m₁ = .ok step m₂ ∧
        m₂.heap.isActor (.cap a) = true ∧
        m₁.Undoes t a (D.tick m a) (H.tick m a).sent m₂ ∧
        m₁.Undoes t a (D.tick m a) (H.tick m a).sent m') := by
  refine ⟨fun t a hs => ?_, fun t a m₁ step m' hprep hh hserves hx => ?_⟩
  · obtain ⟨ρ, ht, hH, hD⟩ := hr.tell hc
    exact ht.settled.underway (hH a) hD (ht.settled.serves_iff.1 hs)
  obtain ⟨ρ, ρ', e, ⟨ho, ρ₂, m₂, hrun, hs₂, hadv, hsw⟩, ht', hH, hD⟩ :=
    hr.turns hc hprep hh hserves hx
  refine ⟨?_, ⟨?_, fun hf => ?_⟩, ?_⟩
  · rintro rfl q hq
    obtain ⟨hq₂, hsame⟩ := hadv.continues ho hq
    refine ⟨hsw.waiting hs₂.orderly.layout hq₂, fun i hi => ?_⟩
    rw [(hsw.rooted hs₂.orderly.layout (by rw [(hs₂.orderly.layout.mem_waiting hq₂).1 hi]; rfl)).2]
    exact hsame i hi
  · rintro rfl
    obtain ⟨ρ₁, m₃, ρ₃, m₄, hce, -⟩ := hadv.outcome
    exact hce.fails hh
  · rw [← hh] at hrun
    exact hf.retired hrun
  · rintro rfl
    have hopen : (ρ a).isOpen = true := by rw [ho.roles.2]; rfl
    have hundo := hadv.undoes ho hs₂ (hD t e a ho.role) (hH.sent hopen)
    rw [← D.tick_eq hprep, ← History.sent_tick hprep ho.settled hh ho.roles.2 hrun] at hundo
    refine ⟨m₂, hrun, ?_, hundo, hundo.sweep hsw hs₂ ht'⟩
    have hidle : ρ₂ a = .idle := hadv.leaves ho
    refine (hs₂.orderly.layout.isActor_cap_iff ?_).2 ?_ <;> rw [hidle]
    · simp
    · rfl

theorem Observed.rolls_back_faulty : ∃ m H D m₁ m',
    Observed Drafts.observer { heapCapacity := 80, topMargin := 8 } m H D ∧
    Machine.prepare m = .ok () m₁ ∧
    m₁.Serves 26 22 ∧ Machine.execute m₁ = .ok (.retired .abort) m' ∧ m₁.Fails ∧
    m₁.Undoes 26 22 (D.tick m 22) (H.tick m 22).sent m' ∧ (H 22).sent = [(.cap 22, .fix 7)] ∧
    (D.tick m 22).beh = .ref 20 ∧ m'.pendingEvents = .ok [.ref 24] := by
  -- An actor has sent itself a message and has asked to become another, and then adds what it
  -- cannot add. Another message is on its way to it.
  have hplay :
    (play { heapCapacity := 80, topMargin := 8 } [.block [.finish .commit], .block [.push (.fix 7),
      .my .self, .send 0, .push (.ref 13), .beh 0, .alu .add, .finish .commit],
      .actor (.ref 20) [.fix 5]]
      [.send (.cap 22) .nil, .send (.cap 22) .nil, .tick, .tick, .tick, .tick, .tick]).any (fun m =>
        decide (m.heap.Chain .z m.threads.head [26] ∧ (m.heap.cellAt 26).y = .ref 23 ∧
          (m.heap.cellAt 23).x = .cap 22 ∧ m.heap.Chain .z (m.heap.cellAt 22).z [27] ∧
          (m.heap.cellAt 27).x = .cap 22 ∧ (m.heap.cellAt 27).y = .fix 7) &&
        (yield? () (Machine.prepare m)).any fun m₁ =>
        (yield? (.retired .abort) (Machine.execute m₁)).any fun m' =>
          decide (m₁.heap.Chain .z m₁.threads.head [26] ∧ (m₁.heap.cellAt 26).y = .ref 23 ∧
            (m₁.heap.cellAt 23).x = .cap 22 ∧ m'.heap.isActor (.cap 22) = true ∧
            (m'.heap.cellAt 22).x = .ref 20 ∧
            m'.pendingEvents.toOption = some [.ref 24])) = true := by decide +kernel
  obtain ⟨m, hm, hfacts⟩ := (Option.any_eq_true _ _).1 hplay
  obtain ⟨hbefore, hfacts⟩ := Bool.and_eq_true_iff.1 hfacts
  obtain ⟨hline₀, hy₀, hx₀, hchain, hx, hy⟩ := of_decide_eq_true hbefore
  obtain ⟨m₁, hprep, hfacts⟩ := (Option.any_eq_true _ _).1 hfacts
  obtain ⟨m', hexec, hfacts⟩ := (Option.any_eq_true _ _).1 hfacts
  have hprep := yield?_eq_some hprep
  have hexec := yield?_eq_some hexec
  obtain ⟨hline, hy₁, hx₁, hactor, hbeh, hevents⟩ := of_decide_eq_true hfacts
  obtain ⟨H, D, hD⟩ := (Running.of_play hm).observed Drafts.observer
  obtain ⟨hunder, hround⟩ := hD.rolls_back (by decide)
  have hserves : m₁.Serves 26 22 := ⟨⟨_, hline, by simp⟩, 23, hy₁, hx₁⟩
  obtain ⟨-, hfails, hundo⟩ := hround 26 22 m₁ _ m' hprep hline.1 hserves hexec
  obtain ⟨m₂, -, -, -, hundo⟩ := hundo rfl
  obtain ⟨q, l, -, hl, hsent, -⟩ := (hunder 26 22 ⟨⟨_, hline₀, by simp⟩, 23, hy₀, hx₀⟩).sent
  rw [hl.unique hchain] at hsent
  refine ⟨m, H, D, m₁, m', hD, hprep, hserves, hexec, hfails.1 rfl, hundo, ?_, ?_,
    ok_of_toOption hevents⟩
  · rw [← hsent, List.map_cons, hx, hy]
    rfl
  · rw [← hbeh, (hundo.actor hactor).1]

end ActorMachine
