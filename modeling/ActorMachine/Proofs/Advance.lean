import ActorMachine.Proofs.Dispatch

namespace ActorMachine

open Machine

variable {ρ ρ' : Roles} {m m' : Machine} {t e a : Nat}
variable {m'' : Machine} {l : List Nat}

def Working (t e a i : Nat) (r : Role) :
    Prop := Staging t e i r ∨ i = a ∨ r = .pending a ∨ r = .data

def Concerned (t e a i : Nat) (r : Role) : Prop := Final t e a i r ∨ r.inLine = true ∨ r = .data

theorem Instruction.working {code : Instruction} {i : Nat} {r : Role} (hr : code.reach t e a i r) :
    Working t e a i r := by
  cases code with
  | set => exact hr.elim (fun h => .inl (.inl h)) fun h => .inr (.inr (.inr h))
  | beh => exact .inl hr
  | send => exact hr.elim (fun h => .inl (.inl h)) fun h => .inr (h.imp_right .inl)
  | _ => exact .inl (.inl hr)

theorem GivesUp.confined {ip : Word} (hg : GivesUp t e a ip ρ m ρ' m') :
    Confined (Working t e a) ρ m ρ' m' := by
  obtain hw | ⟨i, next, -, hp⟩ := hg
  · exact hw.mono fun _ _ h => .inl (.inl h)
  · exact hp.confined.mono fun _ _ => Instruction.working

namespace Working

variable {i : Nat} {r : Role}

theorem concerned (hw : Working t e a i r) : Concerned t e a i r := by
  obtain h | h | h | h := hw
  · exact .inl (.inl h)
  · exact .inl (.inr (.inl h))
  · exact .inl (.inr (.inr (.inl h)))
  · exact .inr (.inr h)

theorem not_queued {held : List Nat} (ho : Open t e a held ρ m) (hi : ρ i = .queued) :
    ¬ Working t e a i .queued := by
  rintro (((rfl | h | h) | rfl | h) | rfl | h | h)
  · simp [ho.role] at hi
  · cases h
  · cases h
  · simp [ho.roles.1] at hi
  · cases h
  · simp [ho.roles.2] at hi
  · cases h
  · cases h

theorem not_inLine (hr : r.inLine = true) (ht : i ≠ t) (he : i ≠ e) (ha : i ≠ a) :
    ¬ Working t e a i r := by
  rintro (((h | h | h) | h | h) | h | h | h)
  · exact ht h
  · rw [Posting.inLine_eq_false (i := i) (.inl h)] at hr
    cases hr
  · rw [h] at hr
    cases hr
  · exact he h
  · rw [h] at hr
    cases hr
  · exact ha h
  · rw [h] at hr
    cases hr
  · rw [h] at hr
    cases hr

end Working

theorem Final.not_inLine {i : Nat} {r : Role} (hr : r.inLine = true) (ht : i ≠ t) (he : i ≠ e)
    (ha : i ≠ a) :
    ¬ Final t e a i r := by
  rintro (h | h | h | h)
  · exact Working.not_inLine hr ht he ha (.inl h)
  · exact ha h
  · rw [h] at hr
    cases hr
  · rw [h] at hr
    cases hr

structure Parties (t e a : Nat) (ρ : Roles) : Prop where
  movable : Movable t (ρ t) ∧ Movable e (ρ e) ∧ Movable a (ρ a)
  acting : (ρ t).isActing = false ∧ (ρ e).isActing = false
  actor : ∀ b, ρ a ≠ .pending b

theorem Concerned.movable {i : Nat} (hp : Parties t e a ρ) (ht : Concerned t e a i (ρ i)) :
    Movable i (ρ i) := by
  obtain (((rfl | h | h) | rfl | h) | rfl | h | h) | h | h := ht
  · exact hp.movable.1
  · exact Posting.movable (.inl h)
  · exact ⟨by simp [h], by simp [h]⟩
  · exact hp.movable.2.1
  · exact ⟨by simp [h], by simp [h]⟩
  · exact hp.movable.2.2
  · exact ⟨by simp [h], by simp [h]⟩
  · exact ⟨by simp [h], by simp [h]⟩
  · constructor <;> intro hr <;> rw [hr] at h <;> cases h
  · exact ⟨by simp [h], by simp [h]⟩

theorem Concerned.not_acting {i : Nat} (hp : Parties t e a ρ) (ht : Concerned t e a i (ρ i))
    (hi : i ≠ a) (hpend : ρ i ≠ .pending a) : (ρ i).isActing = false := by
  obtain (((rfl | h | h) | rfl | h) | h | h | h) | h | h := ht
  · exact hp.acting.1
  · exact Posting.not_isActing (i := i) (.inl h)
  · rw [h]
    rfl
  · exact hp.acting.2
  · rw [h]
    rfl
  · exact absurd h hi
  · exact absurd h hpend
  · rw [h]
    rfl
  · exact Role.not_isActing_of_inLine h
  · rw [h]
    rfl

theorem Role.eq_idle {r : Role} (hn : r.isNew = true) (ha : r.isActor = true) : r = .idle := by
  cases r with
  | idle => rfl
  | data => cases ha
  | _ => cases hn

theorem Frame.others (hf : Frame (Concerned t e a) ρ m.heap ρ' m'.heap) (hp : Parties t e a ρ)
    (hp' : Parties t e a ρ') {b : Nat} (hb : b ≠ a) (hact : (ρ' b).isActor = true) :
    Undisturbed b ρ m ρ' m' ∨ ρ' b = .idle ∧ (ρ b).isActor = false := by
  cases hactor : (ρ b).isActor with
  | true =>
    -- What has a part as an actor, or was sent by one, is out of reach.
    have hnot : ∀ {ρ : Roles} {i : Nat}, Parties t e a ρ → i ≠ a → ρ i ≠ .pending a →
        (ρ i).isActing = true → ¬ Concerned t e a i (ρ i) := by
      intro ρ i hp hia hpend hi ht
      rw [ht.not_acting hp hia hpend] at hi
      cases hi
    have hsent : ∀ {ρ : Roles} {i : Nat}, Parties t e a ρ → ρ i = .pending b →
        ¬ Concerned t e a i (.pending b) := by
      intro ρ i hp hi
      rw [← hi]
      refine hnot hp ?_ ?_ (by rw [hi]; rfl)
      · rintro rfl
        exact hp.actor b hi
      · rw [hi]
        simpa using hb
    refine .inl (hf.undisturbed (hnot hp hb ?_ (Role.isActing_of_isActor hactor))
      (fun i => hsent hp)
      fun i => hsent hp')
    intro h
    rw [h] at hactor
    cases hactor
  | false =>
    refine .inr ⟨?_, rfl⟩
    obtain hsame | ⟨-, hafter⟩ := hf.changes b
    · rw [hsame.1, hactor] at hact
      cases hact
    · have hnew : (ρ' b).isNew = true := by
        refine hafter.resolve_left fun ht => ?_
        have hpend : ρ' b ≠ .pending a := by
          intro h
          rw [h] at hact
          cases hact
        have := ht.not_acting hp' hb hpend
        rw [Role.isActing_of_isActor hact] at this
        cases this
      exact Role.eq_idle hnew hact

def Stats.performed (s : Stats) : Stats := { s with instructions := s.instructions + 1 }

/-- The transaction comes to its end, by an instruction that says so or by a fault. -/
inductive Ceases (t e a : Nat) (ρ : Roles) (m : Machine) : Ending → Roles → Machine → Prop
  | finish {ip next : Word} {en : Ending} {m' : Machine} :
      nextAddress (.ref t) m = .ok ip (m.tally .performed) →
      m.heap.instruction ip = .ok (.finish en, next) →
      performAt ip (m.tally .performed) = .ok (.ended en) m' →
      Ceases t e a ρ m en ρ (m.tally .performed)
  | fault {ip : Word} {f : Fault} {ρ₁ : Roles} {m₁ m₂ : Machine} :
      nextAddress (.ref t) m = .ok ip (m.tally .performed) →
      performAt ip (m.tally .performed) = .error f m₁ → f.isFatal = false →
      GivesUp t e a ip ρ (m.tally .performed) ρ₁ m₁ → Quiet m₁ m₂ → Ceases t e a ρ m .abort ρ₁ m₂

structure Retires (t e : Nat) (ρ : Roles) (m : Machine) (ρ' : Roles) (m' : Machine) : Prop where
  free : ρ' t = .free ∧ ρ' e = .free
  frame : Frame (fun j _ => j = t ∨ j = e) ρ m.heap ρ' m'.heap
  steady : Steady m m'
  events : m'.events = m.events
  stats : m'.stats = m.stats

def Outcome (t e a : Nat) (ρ : Roles) (m : Machine) (ρ' : Roles) (m' : Machine) : Step → Prop
  | .noThreads => False
  | .continued => ∃ ip i next m₁, nextAddress (.ref t) m = .ok ip (m.tally .performed) ∧
    m.heap.instruction ip = .ok (i, next) ∧ Open t e a [] ρ' m₁ ∧
    Performs t e a i ρ (m.tally .performed) ρ' m₁ ∧ Relays ρ' m₁ m'
  | .retired en => ∃ ρ₁ m₁ ρ₂ m₂, Ceases t e a ρ m en ρ₁ m₁ ∧ Open t e a [] ρ₁ m₁ ∧
    Closed t e a ρ₁ m₁ en ρ₂ m₂ ∧ Retires t e ρ₂ m₂ ρ' m'

structure Advances (t e a : Nat) (ρ : Roles) (m : Machine) (step : Step) (ρ' : Roles)
    (m' : Machine) : Prop where
  frame : Frame (Concerned t e a) ρ m.heap ρ' m'.heap
  proceeds : Proceeds ρ m ρ' m'
  others : ∀ b, b ≠ a → (ρ' b).isActor = true →
    Undisturbed b ρ m ρ' m' ∨ ρ' b = .idle ∧ (ρ b).isActor = false
  outcome : Outcome t e a ρ m ρ' m' step

theorem Advances.of_frame {step : Step} (hf : Frame (Concerned t e a) ρ m.heap ρ' m'.heap)
    (hs : Steady m m') (hp : Parties t e a ρ) (hp' : Parties t e a ρ')
    (ho : Outcome t e a ρ m ρ' m' step) : Advances t e a ρ m step ρ' m' :=
  ⟨hf, ⟨hf.select (fun _ hi => hi.movable hp) fun _ _ hi => .inl (hi.movable hp'), hs⟩,
    fun _ hb => hf.others hp hp' hb, ho⟩

theorem Open.parties {held : List Nat} (ho : Open t e a held ρ m) : Parties t e a ρ := by
  obtain ⟨he, ha⟩ := ho.roles
  refine ⟨?_, ?_, ?_⟩
  · rw [ho.role, he, ha]
    exact ⟨⟨by simp, by simp⟩, ⟨by simp, by simp⟩, ⟨by simp, by simp⟩⟩
  · rw [ho.role, he]
    exact ⟨rfl, rfl⟩
  · rw [ha]
    simp

namespace Closing

variable {E : Machine → Prop}

theorem ensures_retire (hc : Closing t e [] ρ m) :
    Ensures retire m (fun _ m' => ∃ ρ', Settled [] ρ' m' ∧ Retires t e ρ m ρ' m') E := by
  have het : e ≠ t := by
    rintro rfl
    exact absurd (hc.event.symm.trans hc.thread) (by simp)
  unfold retire
  refine (hc.orderly.ensures_popThread hc.head hc.thread).bind ?_
  rintro - m₁ ⟨rfl, ho₁, hf₁, hy, hst₁, hev₁, hstats₁⟩
  dsimp only
  refine ensures_fetch_bind fun i hi _ => ?_
  cases hi
  rw [show (m₁.heap.cellAt t).get .y = .ref e from hy.trans hc.link]
  have he₁ : ρ.set t .held e = .held := by rw [Roles.set_ne _ _ het, hc.event]
  refine (ho₁.ensures_free (v := .ref e) (by rw [Word.index, he₁]; rfl)
    (by rw [Word.index, he₁]; simp) (by rw [Word.index, he₁]; simp)).bind ?_
  rintro - m₂ ⟨ho₂, hf₂, hu₂⟩
  rw [Word.index] at ho₂ hf₂
  have ht₂ : (ρ.set t .held).set e .free t = .held := by
    rw [Roles.set_ne _ _ het.symm, Roles.set_self]
  refine (ho₂.ensures_free (v := .ref t) (by rw [Word.index, ht₂]; rfl)
    (by rw [Word.index, ht₂]; simp) (by rw [Word.index, ht₂]; simp)).imp ?_
  rintro - m₃ ⟨ho₃, hf₃, hu₃⟩
  rw [Word.index] at ho₃ hf₃
  refine ⟨_, ⟨ho₃, ?_⟩, ⟨Roles.set_self .., ?_⟩, ?_, (hst₁.trans hu₂.steady).trans hu₃.steady,
    (hu₃.events.trans hu₂.events).trans hev₁, (hu₃.stats.trans hu₂.stats).trans hstats₁⟩
  · intro i hi
    by_cases hit : i = t
    · simp [hit, Role.isBrief] at hi
    · rw [Roles.set_ne _ _ hit] at hi
      by_cases hie : i = e
      · simp [hie, Role.isBrief] at hi
      · rw [Roles.set_ne _ _ hie, Roles.set_ne _ _ hit] at hi
        simpa [hit, hie] using hc.brief i hi
  · rw [Roles.set_ne _ _ het, Roles.set_self]
  · exact ((hf₁.mono fun _ _ => .inl).trans (hf₂.mono fun _ _ => .inr)).trans
      (hf₃.mono fun _ _ => .inl)

end Closing

theorem Ceases.frame {en : Ending} (hc : Ceases t e a ρ m en ρ' m') :
    Frame (Working t e a) ρ m.heap ρ' m'.heap ∧ Steady m m' := by
  cases hc with
  | finish => exact ⟨.refl, .tally _⟩
  | fault _ _ _ hg hq =>
    have hc := hg.confined.trans hq.confined
    exact ⟨hc.frame, (Steady.tally _).trans hc.untouched.steady⟩

theorem Ceases.ensures_retire {en : Ending} {ρ₁ : Roles} {m₁ : Machine} {E : Machine → Prop}
    (ho : Open t e a [] ρ m) (hce : Ceases t e a ρ m en ρ₁ m₁) (ho₁ : Open t e a [] ρ₁ m₁)
    (hc : Closed t e a ρ₁ m₁ en ρ' m') :
    Ensures retire m'
      (fun _ m'' => ∃ ρ'', Settled [] ρ'' m'' ∧ Advances t e a ρ m (.retired en) ρ'' m'') E := by
  obtain ⟨-, hta, hea⟩ := ho.orderly.layout.distinct ho.role
  refine hc.closing.ensures_retire.imp ?_
  rintro - m'' ⟨ρ'', hs, hr⟩
  obtain ⟨hf₁, hst₁⟩ := hce.frame
  have hframe : Frame (Concerned t e a) ρ m.heap ρ'' m''.heap := by
    refine ((hf₁.mono fun _ _ => Working.concerned).trans (hc.ends.frame.mono fun _ _ =>
      .inl)).trans
      (hr.frame.mono ?_)
    rintro j r (hj | hj)
    · exact .inl (.inl (.inl (.inl hj)))
    · exact .inl (.inl (.inr (.inl hj)))
  have ha : ρ'' a = ρ' a := (hr.frame.same (not_or.2 ⟨hta.symm, hea.symm⟩)).1
  have hfin : ρ'' a = .idle ∨ ρ'' a = .stopped ∨ ρ'' a = .free := by
    have hleaves := hc.actor
    rw [ha]
    cases en with
    | abort | commit => exact .inl hleaves
    | stop => exact .inr (.inl hleaves)
    | release => exact hleaves.imp_right .inr
  refine ⟨ρ'', hs, .of_frame hframe ((hst₁.trans hc.ends.steady).trans hr.steady) ho.parties
    ⟨⟨?_, ?_, ?_⟩, ?_, ?_⟩ ⟨ρ₁, m₁, ρ', m', hce, ho₁, hc, hr⟩⟩
  · rw [hr.free.1]
    exact ⟨by simp, by simp⟩
  · rw [hr.free.2]
    exact ⟨by simp, by simp⟩
  · obtain h | h | h := hfin <;> rw [h] <;> exact ⟨by simp, by simp⟩
  · rw [hr.free.1, hr.free.2]
    exact ⟨rfl, rfl⟩
  · intro b h
    simp [h] at hfin

theorem Sending.after {i : Instruction} (hs : Sending a ρ m ρ' m' i)
    (hsame : ∀ j, j = a ∨ ρ' j = .pending a → m''.heap.cellAt j = m'.heap.cellAt j) :
    Sending a ρ m ρ' m'' i := by
  have hquiet : Undisturbed a ρ m ρ' m' → Undisturbed a ρ m ρ' m'' := by
    rintro ⟨hact, hpend, hcells⟩
    refine ⟨⟨hact.1, (hsame a (.inl rfl)).trans hact.2⟩, hpend, fun j hj => ?_⟩
    rw [hsame j (.inr ((hpend j).2 hj)), hcells j hj]
  cases i with
  | send n =>
    obtain ⟨hrole, hcells, i, target, msg, m₁, hc, hi, hpend, hevent, hmark⟩ := hs
    refine ⟨hrole, fun j hj => ?_, i, target, msg, m₁, hc, hi, hpend, ?_, ?_⟩
    · rw [hsame j (.inr ((hpend j).2 (.inr hj))), hcells j hj]
    · rw [hsame i (.inr ((hpend i).2 (.inl rfl))), hevent]
    · rw [hsame a (.inl rfl), hmark]
  | _ => exact hquiet hs

theorem Machine.ensures_attempt_bind {α β : Type} {act : MachineM α}
    {k : Except Fault α → MachineM β}
    {Q : α → Machine → Prop} {F E : Machine → Prop} {P : β → Machine → Prop}
    (ha : Ensures act m Q F) (hok : ∀ r m', act m = .ok r m' → Q r m' → Ensures (k (.ok r)) m' P E)
    (herr : ∀ f m', act m = .error f m' → f.isFatal = true ∨ F m' → Ensures (k (.error f)) m' P E) :
    Ensures (attempt act >>= k) m P E := by
  refine Ensures.bind (Q := fun r m' => Ensures (k r) m' P E) ?_ fun _ _ h => h
  unfold Ensures at ha
  unfold Ensures attempt
  cases hr : act m with
  | ok r m' =>
    rw [hr] at ha
    exact hok r m' hr ha
  | error f m' =>
    rw [hr] at ha
    exact herr f m' hr ha

structure Goes (t : Nat) (ρ : Roles) (m m' : Machine) : Prop where
  frame : Frame (fun _ r => r.inLine = true) ρ m.heap ρ m'.heap
  fields : ∀ i f, i ≠ t ∨ f ≠ .t → (m'.heap.cellAt i).get f = (m.heap.cellAt i).get f
  untouched : Untouched m m'

theorem Goes.lined (hg : Goes t ρ m m') (hl : m.Lined l) : m'.Lined l := by
  unfold Lined
  rw [hg.untouched.threads]
  exact Queue.Holds.congr (fun i _ => hg.fields i .z (.inr (by simp))) hl

theorem Goes.relays (hg : Goes t ρ m m') (hh : m.threads.head = .ref t) (hr : Relays ρ m' m'') :
    Relays ρ m m'' := by
  refine ⟨hg.frame.trans hr.frame, fun i => (hr.stack i).trans (hg.fields i .x (.inr (by simp))),
    fun i hi f hf => ?_, fun u l hl => hr.line u l (hg.lined hl),
    hg.untouched.steady.trans hr.steady, hr.events.trans hg.untouched.events,
    hr.stats.trans hg.untouched.stats⟩
  have hit : i ≠ t := by
    rintro rfl
    exact hi hh
  rw [hr.others i (by rwa [hg.untouched.threads]) f hf, hg.fields i f (.inl hit)]

namespace Open

variable {E : Machine → Prop}

variable (ho : Open t e a [] ρ m)

include ho

theorem ensures_goto {ip : Nat} (hip : ρ ip = .data) :
    Ensures (liftM (Heap.store (.ref t) .t (.ref ip)) : MachineM Unit) m
      (fun _ m' => Orderly ρ m' ∧ Goes t ρ m m') E := by
  have hl := ho.orderly.layout
  have hline : (ρ t).inLine = true := by rw [ho.role]; rfl
  have ht := (hl.suits_of_moves hline (hl.moves_self hline rfl)).2.1
  have hip' : Word.ref ip ≠ .freeT := by
    intro h
    cases h
    exact absurd (hl.bounds (by rw [hip]; simp)).1 (by decide)
  rw [ensures_onHeap]
  refine Heap.ensures_store ho.orderly.sound ?_
  intro i h' hv hlt hset hfade hsound
  cases hv
  have hz : ∀ i, (h'.cellAt i).z = (m.heap.cellAt i).z := by
    intro i
    by_cases hi : i = t
    · rw [hi, hset.self]
      rfl
    · rw [hset.ne hi]
  obtain ⟨l, hq, hm⟩ := hl.line
  have hne : ∀ i, (ρ i).inLine = false → i ≠ t := by
    rintro i hi rfl
    rw [hline] at hi
    cases hi
  obtain ⟨hsound, hrespect⟩ := hsound ht hip'
  have hshuns := hrespect _ ho.orderly.shuns (by simp [Roles.condemned, hip])
  refine ⟨ho.orderly.onHeap (.refl ρ) ?_ hshuns hfade, ?_, fun i f hf => ?_, .onHeap m h'⟩
  · refine hl.reline hsound hset.permanent hset.top (fun _ => .inl rfl)
      (fun i hi => hset.ne (hne i hi)) (fun i hi => ?_) ⟨l, hq.congr fun i _ => hz i, hm⟩
    by_cases hit : i = t
    · rw [hit, Layout.Moves, hset.self]
      exact ⟨rfl, rfl, ip, rfl, hip⟩
    · exact hl.moves_self hi (hset.ne hit)
  · exact (Frame.sets hset hfade).one hline (.inl hline)
  · change (h'.cellAt i).get f = _
    by_cases hi : i = t
    · rw [hi, hset.self]
      exact Cell.get_set_ne _ _ (hf.resolve_left (absurd hi))
    · rw [hset.ne hi]

theorem ensures_continue {ip : Word} (hs : Safe ρ ip) (hc : m.heap.isCode ip = true) : Ensures (do
        Heap.store (.ref t) .t ip
        rotate : MachineM Unit) m
      (fun _ m' => Settled [] ρ m' ∧ Relays ρ m m') E := by
  obtain ⟨i, rfl, hi⟩ := ho.orderly.layout.data_of_isCode hs hc
  refine (ho.ensures_goto hi).bind ?_
  rintro - m₁ ⟨ho₁, hg⟩
  refine ho₁.ensures_rotate.imp ?_
  rintro - m₂ ⟨ho₂, hr⟩
  exact ⟨⟨ho₂, ho.brief⟩, hg.relays ho.head hr⟩

theorem ensures_nextAddress : Ensures (nextAddress (.ref t)) m
      (fun ip m' => nextAddress (.ref t) m = .ok ip m' ∧ Safe ρ ip ∧
        m' = m.tally .performed) E := by
  refine Ensures.result ?_
  unfold nextAddress
  refine ensures_fetch_bind fun i hi _ => ?_
  cases hi
  rw [ensures_count_bind]
  obtain ⟨j, hj, hd⟩ := ho.orderly.layout.code (i := t) (by rw [ho.role]; rfl)
  refine ⟨?_, rfl⟩
  rw [show (m.heap.cellAt t).get .t = .ref j from hj]
  exact .inr hd

theorem ensures_advance : Ensures (advance (.ref t)) m
      (fun step m' => ∃ ρ', Settled [] ρ' m' ∧ Advances t e a ρ m step ρ' m') E := by
  unfold advance
  refine ho.ensures_nextAddress.bind ?_
  rintro ip - ⟨hip, hsafe, rfl⟩
  have ho₁ := ho.tally .performed
  refine ensures_attempt_bind (ho₁.ensures_performAt hsafe) ?_ ?_
  · rintro (next | en) m₂ hrun ⟨i, next', hi, hflow, hcode⟩
    · obtain ⟨ρ₂, ho₂, hperf, hnext⟩ := hflow
      dsimp only
      rw [← bind_assoc]
      refine (ho₂.ensures_continue hnext (hcode next rfl)).bind ?_
      rintro - m₃ ⟨hs₃, hr₃⟩
      have hc := hperf.confined.mono fun _ _ => Instruction.working
      have hframe : Frame (Concerned t e a) ρ m.heap ρ₂ m₃.heap :=
        (hc.frame.mono fun _ _ => Working.concerned).trans (hr₃.frame.mono fun _ _ h =>
          .inr (.inl h))
      refine ⟨ρ₂, hs₃, .of_frame hframe ?_ ho.parties ho₂.parties
        ⟨ip, i, next', m₂, hip, hi, ho₂, hperf, hr₃⟩⟩
      exact ((Steady.tally _).trans hc.untouched.steady).trans hr₃.steady
    · obtain ⟨rfl, ρ₂, hc⟩ := hflow
      refine (Ceases.ensures_retire ho (.finish hip hi hrun) ho₁ hc).bind ?_
      rintro - m₃ hs
      exact hs
  · intro f m₂ hrun hf
    dsimp only
    refine .ite (fun hfatal => ?_) fun hfatal => ?_
    · exact (Silent.note _).bind fun _ _ _ => .inl hfatal
    obtain ⟨ρ₂, ho₂, hg⟩ := hf.resolve_left hfatal
    refine (Silent.note _).bind fun _ m₃ hq₃ => ?_
    have ho₃ := ho₂.quiet hq₃
    refine ho₃.ensures_abortTransaction.bind ?_
    rintro - m₄ ⟨ρ₄, hc⟩
    refine (Ceases.ensures_retire ho (.fault hip hrun (by simpa using hfatal) hg hq₃) ho₃
      hc).bind ?_
    rintro - m₅ hs
    exact hs

end Open

namespace Advances

variable {en : Ending}

theorem leaves (hadv : Advances t e a ρ m (.retired en) ρ' m') (ho : Open t e a [] ρ m) :
    en.leaves (ρ' a) := by
  obtain ⟨-, hta, hea⟩ := ho.orderly.layout.distinct ho.role
  obtain ⟨ρ₁, m₁, ρ₂, m₂, -, -, hc, hr⟩ := hadv.outcome
  rw [(hr.frame.same (not_or.2 ⟨hta.symm, hea.symm⟩)).1]
  exact hc.actor

theorem stopped (hadv : Advances t e a ρ m (.retired .stop) ρ' m') (ho : Open t e a [] ρ m) :
    m'.heap.cellAt a = m.heap.cellAt a ∧ ∀ i, ρ i = .pending a →
      m'.heap.cellAt i = m.heap.cellAt i := by
  obtain ⟨-, hta, hea⟩ := ho.orderly.layout.distinct ho.role
  obtain ⟨ρ₁, m₁, ρ₂, m₂, hce, -, hc, hr⟩ := hadv.outcome
  cases hce
  obtain ⟨hcell, hsame⟩ := hc.stopped rfl
  refine ⟨(hr.frame.same (not_or.2 ⟨hta.symm, hea.symm⟩)).2.trans hcell, fun i hi => ?_⟩
  refine (hr.frame.same ?_).2.trans (hsame i hi).2
  rintro (rfl | rfl)
  · simp [ho.role] at hi
  · simp [ho.roles.1] at hi

end Advances

def Machine.Step.outgoing : Step → List Nat → List Nat
  | .retired en, l => en.outgoing l
  | _, _ => []

theorem Accounts.balances_events {en : Ending} {q : List Nat} (ha : Accounts en l m ρ' m')
    (hq : m.Waiting q) : ∃ q', m'.Waiting q' ∧
      (en.outgoing l).length + (m.stats.dropped + q.length) = m'.stats.dropped + q'.length ∧
      m'.stats.clockEvents = m.stats.clockEvents ∧ m'.stats.dispatched = m.stats.dispatched ∧
      m'.stats.ended = m.stats.ended + 1 := by
  have hlen : (en.outgoing l).length =
      (en.outgoing l).countP m.reaches + (en.outgoing l).countP (!m.reaches ·) := by
    rw [List.length_eq_countP_add_countP m.reaches]
    simp
  refine ⟨_, ha.waiting q hq, ?_, ?_⟩
  · rw [ha.stats, List.length_append, ← List.countP_eq_length_filter]
    cases en <;> simp only [Ending.count] <;> omega
  · rw [ha.stats]
    cases en <;> simp [Ending.count, Stats.ended] <;> omega

theorem Open.inLine_iff {i : Nat} (ho : Open t e a [] ρ m) (ho' : Open t e a [] ρ' m')
    {h h' : Heap} (hf : Frame (Working t e a) ρ h ρ' h') :
    (ρ' i).inLine = true ↔ (ρ i).inLine = true := by
  by_cases hit : i = t
  · rw [hit, ho.role, ho'.role]
  by_cases hie : i = e
  · rw [hie, ho.roles.1, ho'.roles.1]
  by_cases hia : i = a
  · rw [hia, ho.roles.2, ho'.roles.2]
  exact hf.inLine_iff fun r hr => Working.not_inLine hr hit hie hia

theorem Closed.inLine_iff {i : Nat} {en : Ending} {ρ'' : Roles} (ho : Open t e a [] ρ m)
    (hc : Closed t e a ρ m en ρ' m') (hr : Retires t e ρ' m' ρ'' m'') :
    (ρ i).inLine = true ↔ i = t ∨ (ρ'' i).inLine = true := by
  by_cases hit : i = t
  · rw [hit, ho.role]
    simp [Role.inLine]
  by_cases hie : i = e
  · rw [hie, ho.roles.1, hr.free.2]
    simpa [Role.inLine, hie] using hit
  have hsame := (hr.frame.same (not_or.2 ⟨hit, hie⟩)).1
  rw [hsame]
  by_cases hia : i = a
  · rw [hia, ho.roles.2]
    have hleaves := hc.actor
    have hfin : (ρ' a).inLine = false := by
      cases en with
      | abort | commit | stop =>
        rw [hleaves]
        rfl
      | release => obtain h | h := hleaves <;> rw [h] <;> rfl
    rw [hfin]
    simpa [Role.inLine, hia] using hit
  · rw [hc.ends.frame.inLine_iff fun r hr => Final.not_inLine hr hit hie hia]
    simp [hit]

theorem Ceases.spares {en : Ending} (hc : Ceases t e a ρ m en ρ' m') (ho : Open t e a [] ρ m) :
    Spares (m.tally .performed) m' := by
  cases hc with
  | finish => exact ⟨fun _ h => h, fun _ _ _ _ => rfl, rfl⟩
  | fault _ _ _ hg hq =>
    exact (hg.confined.spares ho.orderly.layout fun _ hi =>
      Working.not_queued ho hi).trans hq.spares

theorem Ceases.outgoing {en : Ending} (hc : Ceases t e a ρ m en ρ' m')
    (ho' : Open t e a [] ρ' m') (hl : m.heap.Chain .z (m.heap.cellAt a).z l) :
    ∃ l', m'.heap.Chain .z (m'.heap.cellAt a).z l' ∧ en.outgoing l' = en.outgoing l := by
  cases hc with
  | finish => exact ⟨l, hl, rfl⟩
  | fault =>
    obtain ⟨l', hl', -⟩ := ho'.sends
    exact ⟨l', hl', rfl⟩

theorem Retires.waiting {q : List Nat} {ρ'' : Roles} (hr : Retires t e ρ' m' ρ'' m'')
    (hc : Closing t e [] ρ' m') (hq : m'.Waiting q) : m''.Waiting q := by
  refine hr.frame.waiting hr.events hc.orderly.layout ?_ hq
  rintro i hi (rfl | rfl)
  · rw [hc.thread] at hi
    cases hi
  · rw [hc.event] at hi
    cases hi

theorem Advances.balances {step : Step} (hadv : Advances t e a ρ m step ρ' m')
    (ho : Open t e a [] ρ m) (hs' : Settled [] ρ' m') (hl : m.heap.Chain .z (m.heap.cellAt a).z l) :
    Balances (step.outgoing l).length m m' := by
  have hlay := ho.orderly.layout
  have hlay' := hs'.orderly.layout
  cases step with
  | noThreads => exact hadv.outcome.elim
  | continued =>
    obtain ⟨ip, i, next, m₁, -, -, ho₁, hperf, hrel⟩ := hadv.outcome
    have hc := hperf.confined.mono fun _ _ => Instruction.working
    have hsp := hc.spares hlay fun _ hi => Working.not_queued ho hi
    have hstats : m'.stats = m.stats.performed := hrel.stats.trans hsp.stats
    refine ⟨fun q hq => ⟨q, ?_, ?_⟩, fun k hk => ?_⟩
    · exact hrel.frame.waiting hrel.events ho₁.orderly.layout (fun _ _ h => by cases h)
        (hsp.waiting q hq)
    · rw [hstats]
      simp only [Stats.performed, Step.outgoing, List.length_nil]
      omega
    · obtain ⟨k', hk', hlen⟩ := hlay.lined_length hlay' (fun i => ho.inLine_iff ho₁ hc.frame) hk
      refine ⟨k', hk', ?_⟩
      rw [hstats, hlen]
      rfl
  | retired en =>
    obtain ⟨ρ₁, m₁, ρ₂, m₂, hce, ho₁, hclosed, hret⟩ := hadv.outcome
    have hsp := hce.spares ho
    obtain ⟨l₁, hl₁, hout⟩ := hce.outgoing ho₁ hl
    have hacc := hclosed.accounts l₁ hl₁
    have hcount : ∀ q, m.Waiting q → ∃ q', m'.Waiting q' ∧
        (en.outgoing l).length + (m.stats.dropped + q.length) = m'.stats.dropped + q'.length ∧
        m'.stats.clockEvents = m.stats.clockEvents ∧ m'.stats.dispatched = m.stats.dispatched ∧
        m'.stats.ended = m.stats.ended + 1 := by
      intro q hq
      obtain ⟨q', hq', hdrop, hrest⟩ := hacc.balances_events (hsp.waiting q hq)
      rw [hsp.stats, hout, ← hret.stats] at hdrop
      rw [hsp.stats, ← hret.stats] at hrest
      exact ⟨q', hret.waiting hclosed.closing hq', hdrop, hrest⟩
    refine ⟨fun q hq => ?_, fun k hk => ?_⟩
    · obtain ⟨q', hq', hdrop, hclock, hdisp, -⟩ := hcount q hq
      refine ⟨q', hq', ?_⟩
      rw [Step.outgoing, hclock, hdisp]
      omega
    · obtain ⟨q, hq, -⟩ := hlay.queue
      obtain ⟨-, -, -, -, hdisp, hended⟩ := hcount q hq
      have hline : ∀ i, (ρ i).inLine = true ↔ i = t ∨ (ρ' i).inLine = true := fun i => by
        rw [← ho.inLine_iff ho₁ hce.frame.1, hclosed.inLine_iff ho₁ hret]
      obtain ⟨k', hk', -⟩ := hlay'.line
      obtain ⟨k'', hk'', hlen⟩ := hlay'.lined_length_succ hlay (by rw [hret.free.1]; rfl) hline hk'
      refine ⟨k', hk', ?_⟩
      rw [hk.unique hk'', hlen, hdisp, hended]
      omega

end ActorMachine
