import ActorMachine.Proofs.OpenTransaction

namespace ActorMachine

variable {ρ ρ' : Roles} {m m' : Machine} {config : Config} {H : History} {t e a i : Nat}
variable {D : Drafts} {s : List Word}

namespace Draft

def own (d : Draft) (a : Nat) : Own → Word
  | .self => .cap a
  | .beh => d.beh
  | .state => d.state

def Taken (d : Draft) (m : Machine) (a : Nat) : Prop :=
  match d.become with
  | [] => (m.heap.cellAt a).x = d.beh ∧ (m.heap.cellAt a).y = d.state
  | beh :: items => (m.heap.cellAt a).x = beh ∧ m.heap.Lists (m.heap.cellAt a).y items

theorem Taken.congr {d : Draft} (hd : d.Taken m a) (hcell : m'.heap.cellAt a = m.heap.cellAt a)
    (hlists : ∀ s, m.heap.Lists (m.heap.cellAt a).y s → m'.heap.Lists (m.heap.cellAt a).y s) :
    d.Taken m' a := by
  unfold Taken at *
  rw [hcell]
  revert hd
  cases d.become with
  | nil => exact id
  | cons beh items => exact fun hd => ⟨hd.1, hlists items hd.2⟩

end Draft

/-- The transaction of the actor is committed: what it has sent, the newest first, goes out if its
target is there, and is dropped if not. -/
structure Machine.Publishes (m : Machine) (a : Nat) (d : Draft) (sent : List (Word × Word))
    (m' : Machine) :
    Prop where
  queue : ∃ q l, m.Waiting q ∧ m.heap.Chain .z (m.heap.cellAt a).z l ∧
    l.map (fun i => ((m.heap.cellAt i).x, (m.heap.cellAt i).y)) = sent ∧ l.Disjoint q ∧
    m'.Waiting (q ++ l.reverse.filter m.reaches) ∧
    (∀ i ∈ q ++ l.reverse.filter m.reaches, ∀ f, f ≠ .z →
      (m'.heap.cellAt i).get f = (m.heap.cellAt i).get f) ∧
    (∀ i ∈ l, m.reaches i = false → (m'.heap.cellAt i).t = .freeT) ∧
    m'.stats = { m.stats with
      instructions := m.stats.instructions + 1
      commits := m.stats.commits + 1
      dropped := m.stats.dropped + l.countP (!m.reaches ·) }
  actor : m'.heap.isActor (.cap a) = true → (m'.heap.cellAt a).z = .undefined ∧ d.Taken m' a

theorem Drafts.become_finish {en : Ending} (hi : m.instruction? = some (.finish en)) :
    (D.advance m a).become = (D a).become := by
  simp [Drafts.advance, Machine.becomes?, hi]

theorem Ceases.instruction {ρ₁ : Roles} {m₁ : Machine} (hc : Ceases t e a ρ m .commit ρ₁ m₁)
    (hh : m.threads.head = .ref t) :
    ρ₁ = ρ ∧ m₁ = m.tally .performed ∧ m.instruction? = some (.finish .commit) := by
  cases hc with
  | finish hip hcode =>
    rw [← hh] at hip
    exact ⟨rfl, rfl, Machine.instruction?_eq hip hcode⟩

theorem Advances.commits {sent : List (Word × Word)}
    (hadv : Advances t e a ρ m (.retired .commit) ρ' m') (ho : Open t e a [] ρ m)
    (hs' : Settled [] ρ' m') (hd : (D a).Tells m e a) (hsent : m.HoldsBack a sent) :
    m.instruction? = some (.finish .commit) ∧ m.Publishes a (D.advance m a) sent m' := by
  have hl := ho.orderly.layout
  have hl' := hs'.orderly.layout
  obtain ⟨hte, hta, hea⟩ := hl.distinct ho.role
  obtain ⟨ρ₁, m₁, ρ₂, m₂, hce, ho₁, hclosed, hret⟩ := hadv.outcome
  obtain ⟨rfl, rfl, hcode⟩ := hce.instruction ho.head
  obtain ⟨l, hc, rfl⟩ := hsent
  obtain ⟨q, hq, -⟩ := hl.queue
  have hacc := hclosed.accounts l hc
  have hl₂ := hclosed.closing.orderly.layout
  have hwait : m₂.Waiting (q ++ l.reverse.filter m.reaches) := hacc.waiting q hq
  have hother : ∀ {i r}, ρ₂ i = r → r ≠ .spent → r ≠ .held → ¬ (i = t ∨ i = e) := by
    rintro i r hr h1 h2 (rfl | rfl)
    · exact h1 (hr.symm.trans hclosed.closing.thread)
    · exact h2 (hr.symm.trans hclosed.closing.event)
  refine ⟨hcode, ⟨q, l, hq, hc, rfl, fun i hi hiq => ho.not_waiting hc hq hiq hi,
    hret.waiting hclosed.closing hwait, fun i hi f hf => ?_, fun i hi hgone => ?_, ?_⟩, fun _ => ?_⟩
  · rw [(hret.frame.same (hother ((hl₂.mem_waiting hwait).1 hi) (by simp) (by simp))).2]
    exact hacc.fields q hq i hi f hf
  · have hfree := hacc.dropped i (List.mem_reverse.2 hi) hgone
    have hr := (hret.frame.same (hother hfree (by simp) (by simp))).1
    have hsuit := (hl'.fits i).2
    rw [hr, hfree] at hsuit
    exact hsuit
  · rw [hret.stats, hacc.stats, Ending.outgoing, List.countP_reverse]
    rfl
  · have hcell := (hret.frame.same (not_or.2 ⟨hta.symm, hea.symm⟩)).2
    have hidle : ρ₂ a = .idle := hclosed.actor
    obtain ⟨hz, htakes⟩ := hclosed.committed rfl _ hd.become
    have htaken : (D.advance m a).Taken m₂ a := by
      unfold Draft.Taken
      rw [Drafts.become_finish hcode]
      revert htakes
      cases (D a).become with
      | nil =>
        rintro ⟨hx, hy⟩
        exact ⟨hx.trans hd.beh, hy.trans hd.state⟩
      | cons beh items => exact id
    refine ⟨by rw [hcell]; exact hz, htaken.congr hcell fun s hs => ?_⟩
    refine hs.congr hl₂ (hl₂.safe_state (by rw [hidle]; rfl)) hret.frame.top_le fun i hi => ?_
    exact (hret.frame.same (hother hi (by simp) (by simp))).2

theorem Machine.Publishes.sweep {d : Draft} {sent : List (Word × Word)} {m₁ : Machine}
    (hp : m₁.Publishes a d sent m) (hsw : Sweeps ρ m ρ' m') (hs : Settled [] ρ m)
    (ht' : Tidy ρ' m') :
    m₁.Publishes a d sent m' := by
  have hl := hs.orderly.layout
  obtain ⟨q, l, h1, h2, h3, h4, hwait, hfields, hfreed, hstats⟩ := hp.queue
  refine ⟨⟨q, l, h1, h2, h3, h4, hsw.waiting hl hwait, fun i hi f hf => ?_,
    fun i hi hgone => hsw.freed i (hfreed i hi hgone), hsw.stats.trans hstats⟩, fun ha => ?_⟩
  · rw [(hsw.rooted hl (by rw [(hl.mem_waiting hwait).1 hi]; rfl)).2]
    exact hfields i hi f hf
  · obtain ⟨hbefore, hrole, hcell⟩ := hsw.actor hl ht' ha
    obtain ⟨hz, htaken⟩ := hp.actor hbefore
    exact ⟨by rw [hcell]; exact hz, htaken.congr hcell fun s => hsw.lists hl hrole⟩

theorem Layout.stacks (hl : m.Arranged ρ) (ht : ρ t = .thread e a)
    (hx : (m'.heap.cellAt t).x = (m.heap.cellAt t).x) (htop : m.heap.top ≤ m'.heap.top)
    (hcell : ∀ i, ρ i = .operand t → m'.heap.cellAt i = m.heap.cellAt i) (hs : m.Stacks t s) :
    m'.Stacks t s := by
  obtain ⟨l, hp, rfl⟩ := hs
  obtain ⟨k, hk, hm⟩ := hl.listed .stack t (by rw [ht]; rfl)
  obtain rfl := hp.1.unique hk
  unfold Machine.Stacks
  rw [hx]
  exact ⟨l, hp.congr htop fun i hi => hcell i ((hm i).1 hi),
    List.map_congr_left fun i hi => by rw [hcell i ((hm i).1 hi)]⟩

theorem Relays.stacks (hr : Relays ρ m m') (ho : Open t e a [] ρ m) (hs : m.Stacks t s) :
    m'.Stacks t s :=
  ho.orderly.layout.stacks ho.role (hr.stack t) hr.frame.top_le
    (fun i hi => (hr.frame.same (by rw [hi]; simp [Role.inLine])).2) hs

theorem Sweeps.stacks (hsw : Sweeps ρ m ρ' m') (hl : m.Arranged ρ)
    (ht : ρ t = .thread e a) (hs : m.Stacks t s) : m'.Stacks t s :=
  hl.stacks ht (by rw [(hsw.rooted hl (i := t) (by rw [ht]; rfl)).2]) (Nat.le_of_eq hsw.top.symm)
    (fun i hi => (hsw.rooted hl (by rw [hi]; rfl)).2) hs

theorem Advances.asks {o : Own} (hadv : Advances t e a ρ m .continued ρ' m')
    (ho : Open t e a [] ρ m) (hd : (D a).Tells m e a) (hi : m.instruction? = some (.my o)) :
    ρ' t = .thread e a ∧ ∃ s, m.Stacks t s ∧ m'.Stacks t ((D a).own a o :: s) := by
  obtain ⟨ip, code, next, m₁, hip, hcode, ho₁, hperf, hrel⟩ := hadv.outcome
  rw [← ho.head] at hip
  have heq := (Machine.instruction?_eq hip hcode).symm.trans hi
  cases heq
  obtain ⟨l, hl, -⟩ := ho.stacked
  have hown : m.ownWord a o = (D a).own a o := by
    cases o with
    | self => rfl
    | beh => exact hd.beh
    | state => exact hd.state
  refine ⟨ho₁.role, _, ⟨l, hl, rfl⟩, hrel.stacks ho₁ ?_⟩
  rw [← hown]
  exact hperf.effect _ ⟨l, hl, rfl⟩

theorem Machine.instruction_of_instruction? {i : Instruction} {ip : Word}
    (hi : m.instruction? = some i)
    (hip : nextAddress m.threads.head m = .ok ip m') :
    ∃ next, m'.heap.instruction ip = .ok (i, next) := by
  unfold instruction? at hi
  rw [hip] at hi
  dsimp only at hi
  split at hi
  · next next h =>
    cases hi
    exact ⟨next, h⟩
  · cases hi

theorem Open.ensures_performAt_commit {ip next : Word} (ho : Open t e a [] ρ m)
    (hi : m.heap.instruction ip = .ok (.finish .commit, next)) :
    Ensures (Machine.performAt ip) m (fun flow _ => flow = .ended .commit) fun _ => False := by
  unfold Machine.performAt
  refine Ensures.bind (Q := fun r m' => m = m' ∧ r = (.finish .commit, next)) ?_ ?_
  · rw [Machine.ensures_ask, hi]
    exact ⟨rfl, rfl⟩
  rintro - m' ⟨rfl, rfl⟩
  unfold Machine.perform Machine.endTransaction
  refine Ensures.bind (Q := fun flow _ => flow = .ended .commit) ?_ ?_
  · exact Ensures.bind (ho.me_bind ho.ensures_commitTransaction) fun _ _ _ => rfl
  · rintro - m' rfl
    rfl

theorem Open.retired_commit {step : Machine.Step} (ho : Open t e a [] ρ m)
    (hi : m.instruction? = some (.finish .commit))
    (hrun : Machine.advance (.ref t) m = .ok step m') :
    step = .retired .commit := by
  have hstep : Ensures (Machine.advance (.ref t)) m (fun step _ => step = .retired .commit)
      fun _ => True := by
    unfold Machine.advance
    refine ho.ensures_nextAddress.bind ?_
    rintro ip - ⟨hip, -, rfl⟩
    obtain ⟨next, hcode⟩ := Machine.instruction_of_instruction? hi (ho.head ▸ hip)
    refine Machine.ensures_attempt_bind ((ho.tally _).ensures_performAt_commit hcode) ?_ ?_
    · rintro - m₂ - rfl
      exact Ensures.any.bind fun _ _ _ => rfl
    · rintro f m₂ - hf
      have hfatal : f.isFatal = true := hf.resolve_right id
      dsimp only
      rw [if_pos hfatal]
      exact Ensures.any.bind fun _ _ _ => .inl hfatal
  exact hstep.ok hrun

/-- Whatever a transaction sends is held back, and its actor stays what it was, until the
transaction is committed. Then what it has sent goes out in order, and the actor takes on what was
asked for last. -/
theorem Observed.publishes {D : Drafts} (hr : Observed Drafts.observer config m H D)
    (hc : config.strategy ≠ .incremental) :
    (∀ t a, m.Serves t a → m.Underway t a (D a) (H a).sent) ∧
    ∀ t a m₁ step m', Machine.prepare m = .ok () m₁ → m₁.threads.head = .ref t → m₁.Serves t a →
      Machine.execute m₁ = .ok step m' →
      (∀ o, m₁.instruction? = some (.my o) → step = .continued →
        ∃ s, m₁.Stacks t s ∧ m'.Stacks t ((D.tick m a).own a o :: s)) ∧
      (step = .retired .commit ↔ m₁.instruction? = some (.finish .commit)) ∧
      (step = .retired .commit →
        ∃ m₂, Machine.advance (.ref t) m₁ = .ok step m₂ ∧ m₂.heap.isActor (.cap a) = true ∧
          m₁.Publishes a (D.tick m a) (H.tick m a).sent m₂ ∧
          m₁.Publishes a (D.tick m a) (H.tick m a).sent m') := by
  refine ⟨fun t a hs => ?_, fun t a m₁ step m' hprep hh hserves hx => ?_⟩
  · obtain ⟨ρ, ht, hH, hD⟩ := hr.tell hc
    exact ht.settled.underway (hH a) hD (ht.settled.serves_iff.1 hs)
  obtain ⟨ρ, ρ', e, ⟨ho, ρ₂, m₂, hrun, hs₂, hadv, hsw⟩, ht', hH, hD⟩ :=
    hr.turns hc hprep hh hserves hx
  have hd := hD t e a ho.role
  rw [D.tick_eq hprep]
  have hopen : (ρ a).isOpen = true := by rw [ho.roles.2]; rfl
  refine ⟨?_, ⟨?_, fun hi => ho.retired_commit hi hrun⟩, ?_⟩
  · rintro o hi rfl
    obtain ⟨hrole, s, hs, hs'⟩ := hadv.asks ho hd hi
    have hown : ((D.dispatch m m₁).advance m₁ a).own a o = (D.dispatch m m₁ a).own a o := by
      cases o <;> rfl
    rw [hown]
    exact ⟨s, hs, hsw.stacks hs₂.orderly.layout hrole hs'⟩
  · rintro rfl
    exact (hadv.commits ho hs₂ hd (hH.sent hopen)).1
  · rintro rfl
    obtain ⟨-, hpub⟩ := hadv.commits ho hs₂ hd (hH.sent hopen)
    rw [← History.sent_tick hprep ho.settled hh ho.roles.2 hrun] at hpub
    refine ⟨m₂, hrun, ?_, hpub, hpub.sweep hsw hs₂ ht'⟩
    have hidle : ρ₂ a = .idle := hadv.leaves ho
    refine (hs₂.orderly.layout.isActor_cap_iff ?_).2 ?_ <;> rw [hidle]
    · simp
    · rfl

theorem Observed.publishes_twice : ∃ m H D m₁ m',
    Observed Drafts.observer { heapCapacity := 80, topMargin := 8 } m H D ∧
    Machine.prepare m = .ok () m₁ ∧
    m₁.Serves 33 29 ∧ Machine.execute m₁ = .ok (.retired .commit) m' ∧
    m₁.Publishes 29 (D.tick m 29) (H.tick m 29).sent m' ∧
    (H 29).sent = [(.cap 29, .fix 8), (.cap 30, .fix 7)] ∧
    (D 29).become = [.ref 13, .fix 3, .fix 2] ∧
    m'.pendingEvents = .ok [.ref 37] ∧ m'.stats.dropped = 1 := by
  -- An actor has sent a message to another, which was released since, and one to itself. It has
  -- asked twice to become another.
  have hplay : (play { heapCapacity := 80, topMargin := 8 } [.block [.finish .release],
      .block [.push (.fix 7), .msg 0, .send 0, .push (.fix 8), .my .self, .send 0, .push (.fix 1),
        .push (.ref 13), .beh 1, .push (.fix 2), .push (.fix 3), .push (.ref 13), .beh 2,
        .finish .commit],
      .actor (.ref 27) [.fix 5]] [.newActor (.ref 13) .nil, .send (.cap 29) (.cap 30), .tick,
      .tick, .tick,
        .send (.cap 30) .nil, .tick, .tick, .tick, .tick, .tick, .tick, .tick, .tick, .tick, .tick,
        .tick]).any (fun m =>
        decide (m.heap.Chain .z m.threads.head [33] ∧ (m.heap.cellAt 33).y = .ref 31 ∧
          (m.heap.cellAt 31).x = .cap 29 ∧ m.heap.Chain .z (m.heap.cellAt 29).z [37, 34] ∧
          [37, 34].map (fun i => ((m.heap.cellAt i).x, (m.heap.cellAt i).y)) =
            [(.cap 29, .fix 8), (.cap 30, .fix 7)] ∧
          m.heap.Chain .y (m.heap.cellAt 31).z [36, 38, 30] ∧
          [36, 38, 30].all (fun i => m.heap.isPair (.ref i)) = true ∧
          [36, 38, 30].map (fun i => (m.heap.cellAt i).x) = [.ref 13, .fix 3, .fix 2]) &&
        (yield? () (Machine.prepare m)).any fun m₁ =>
        (yield? (.retired .commit) (Machine.execute m₁)).any fun m' =>
          decide (m₁.heap.Chain .z m₁.threads.head [33] ∧ (m₁.heap.cellAt 33).y = .ref 31 ∧
            (m₁.heap.cellAt 31).x = .cap 29 ∧ m'.pendingEvents.toOption = some [.ref 37] ∧
            m'.stats.dropped = 1)) = true := by decide +kernel
  obtain ⟨m, hm, hfacts⟩ := (Option.any_eq_true _ _).1 hplay
  obtain ⟨hbefore, hfacts⟩ := Bool.and_eq_true_iff.1 hfacts
  obtain ⟨hline₀, hy₀, hx₀, hchain, hmap, hstaged, hpairs, hplan⟩ := of_decide_eq_true hbefore
  obtain ⟨m₁, hprep, hfacts⟩ := (Option.any_eq_true _ _).1 hfacts
  obtain ⟨m', hexec, hfacts⟩ := (Option.any_eq_true _ _).1 hfacts
  have hprep := yield?_eq_some hprep
  have hexec := yield?_eq_some hexec
  obtain ⟨hline, hy, hx, hevents, hdropped⟩ := of_decide_eq_true hfacts
  obtain ⟨H, D, hD⟩ := (Running.of_play hm).observed Drafts.observer
  obtain ⟨hunder, hround⟩ := hD.publishes (by decide)
  have hserves : m₁.Serves 33 29 := ⟨⟨_, hline, by simp⟩, 31, hy, hx⟩
  obtain ⟨-, -, hcommit⟩ := hround 33 29 m₁ _ m' hprep hline.1 hserves hexec
  obtain ⟨m₂, -, -, -, hpub⟩ := hcommit rfl
  have hu := hunder 33 29 ⟨⟨_, hline₀, by simp⟩, 31, hy₀, hx₀⟩
  obtain ⟨q, l, -, hl, hsent, -⟩ := hu.sent
  obtain ⟨e, he, hbecome⟩ := hu.become
  rw [hl.unique hchain] at hsent
  rw [hy₀] at he
  cases he
  exact ⟨m, H, D, m₁, m', hD, hprep, hserves, hexec, hpub, hsent.symm.trans hmap,
    hbecome.unique ⟨_, ⟨hstaged, List.all_eq_true.1 hpairs⟩, hplan⟩,
    ok_of_toOption hevents, hdropped⟩

end ActorMachine
