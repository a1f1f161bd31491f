import ActorMachine.Proofs.Observation

namespace ActorMachine

open Heap

open Machine

variable {ρ ρ' : Roles} {h h' : Heap} {m m' : Machine} {config : Config} {H : History}
  {events events' threads threads' : Queue} {t e a i : Nat} {w : Word}

theorem Heap.items_congr {R : Word → Prop} (hcdr : ∀ w, R w → R (h.cdr w))
    (hcell : ∀ i, R (.ref i) → (i < h'.top ↔ i < h.top) ∧ h'.cellAt i = h.cellAt i)
    (hs : h'.sanity = h.sanity) (hw : R w) : h'.items w = h.items w := by
  have hpair : ∀ w, R w → h'.isPair w = h.isPair w := by
    intro w hw
    rw [Bool.eq_iff_iff, isPair_iff, isPair_iff]
    refine exists_congr fun i => and_congr_right ?_
    rintro rfl
    rw [(hcell i hw).1, (hcell i hw).2]
  have hread : ∀ w, R w → h'.car w = h.car w ∧ h'.cdr w = h.cdr w := by
    intro w hw
    unfold car cdr
    rw [hpair w hw]
    by_cases hp : h.isPair w = true
    · obtain ⟨i, rfl, -, -⟩ := isPair_iff.1 hp
      rw [Word.index, (hcell i hw).2]
      exact ⟨rfl, rfl⟩
    · rw [if_neg hp, if_neg hp, if_neg hp, if_neg hp]
      exact ⟨rfl, rfl⟩
  unfold items budget
  rw [hs]
  generalize h.sanity = n
  induction n generalizing w with
  | zero =>
    unfold spine
    rw [hpair w hw]
    split <;> rfl
  | succ n ih =>
    have ih := ih (hcdr w hw)
    unfold spine
    rw [hpair w hw, (hread w hw).2]
    split
    · have hmap : ∀ (f : Word → Word) (s : Except Fault (List Word)),
          List.map f <$> ((w :: ·) <$> s) = (f w :: ·) <$> (List.map f <$> s) :=
          fun f s => by cases s <;> rfl
      change List.map h'.car <$> ((w :: ·) <$> h'.spine ⟨n, "list_to_vec"⟩ (h.cdr w)) =
        List.map h.car <$> ((w :: ·) <$> h.spine ⟨n, "list_to_vec"⟩ (h.cdr w))
      rw [hmap, hmap, ih, (hread w hw).1]
    · rfl

theorem Layout.items_eq (hl : Layout ρ h events threads) (hl' : Layout ρ' h' events' threads')
    (ht : h.top ≤ h'.top) (hs : h'.sanity = h.sanity)
    (hd : ∀ i, ρ i = .data → h'.cellAt i = h.cellAt i)
    (hw : Safe ρ w) : h'.items w = h.items w := by
  refine items_congr (R := Safe ρ) (fun _ => hl.safe_cdr) (fun i hi => ?_) hs hw
  obtain hi | hi := hi
  · have := hl.reserved_le_permanent
    have := hl.permanent_le
    exact ⟨by omega, by rw [hl'.literals i hi, hl.literals i hi]⟩
  · have := (hl.bounds (i := i) (by rw [hi]; simp)).2
    exact ⟨by omega, hd i hi⟩

theorem Layout.data_of_isPair (hl : Layout ρ h events threads) (hi : Safe ρ (.ref i))
    (hp : h.isPair (.ref i) = true) : ρ i = .data := by
  refine hi.resolve_left fun hr => ?_
  obtain ⟨j, hj, -, ht⟩ := isPair_iff.1 hp
  cases hj
  rw [hl.literals i hr] at ht
  have : ∀ i < Word.reserved, (Cell.initial i).t ≠ .pairT := by decide
  exact this i hr ht

theorem Layout.safe_state (hl : Layout ρ h events threads) (ha : (ρ a).isActor = true) :
    Safe ρ (h.cellAt a).y := by
  have hs := (hl.fits a).2
  cases hr : ρ a with
  | idle =>
    rw [hr] at hs
    exact hs.2.2.1
  | busy | stopped | transit =>
    rw [hr] at hs
    exact hs.2.2
  | _ =>
    rw [hr] at ha
    cases ha

theorem Sweeps.items (hs : Sweeps ρ m ρ' m') (hl : m.Arranged ρ)
    (hl' : m'.Arranged ρ') (ha : (ρ' a).isActor = true) :
    m'.heap.items (m.heap.cellAt a).y = m.heap.items (m.heap.cellAt a).y := by
  obtain ⟨N, hN, hcells, -, hrest⟩ := hs.retained
  obtain ⟨hrole, hn⟩ := (hrest a).1 ha
  have hlead : ∀ j, N j → ∀ w ∈ (m.heap.cellAt j).words, ∀ i, w = .ref i → ρ i = .data → N i := by
    intro j hj w hw i hi hd
    exact hN.field j hj w hw i (hl.leads (by rw [hd]; rfl) (.inl hi))
  have hsafe := hl.safe_state (by rw [← hrole]; exact ha)
  refine items_congr (R := fun w => Safe ρ w ∧ ∀ i, w = .ref i → ρ i = .data → N i) (fun w hw => ?_)
    (fun i hi => ?_) hs.sanity ⟨hsafe, hlead a hn _ (by simp [Cell.words])⟩
  · refine ⟨hl.safe_cdr hw.1, fun i hi hd => ?_⟩
    unfold cdr at hi
    split at hi
    · next hp =>
      obtain ⟨j, rfl, -, -⟩ := isPair_iff.1 hp
      exact hlead j (hw.2 j rfl (hl.data_of_isPair hw.1 hp)) _
        (by simp [Cell.words, Word.index]) i hi hd
    · cases hi
      exact absurd (hl.bounds (by rw [hd]; simp)).1 (by decide)
  · refine ⟨by rw [hs.top], ?_⟩
    obtain hr | hd := hi.1
    · rw [hl'.literals i hr, hl.literals i hr]
    · exact hcells i (hi.2 i rfl hd)

theorem Sweeps.lists {s : List Word} (hs : Sweeps ρ m ρ' m') (hl : m.Arranged ρ)
    (ha : (ρ' a).isActor = true) (hw : m.heap.Lists (m.heap.cellAt a).y s) :
    m'.heap.Lists (m.heap.cellAt a).y s := by
  obtain ⟨N, hN, hcells, -, hrest⟩ := hs.retained
  obtain ⟨hrole, hn⟩ := (hrest a).1 ha
  obtain ⟨l, hp, rfl⟩ := hw
  have hdata := hl.data_of_pairs (hl.safe_state (by rw [← hrole]; exact ha)) hp
  have hkept := hN.chain hp.1 (hN.field a hn _ (by simp [Cell.words])) fun i hi =>
    (hl.inUse (by rw [hdata i hi]; rfl)).2
  exact ⟨l, hp.congr (Nat.le_of_eq hs.top.symm) fun i hi => hcells i (hkept i hi),
    List.map_congr_left fun i hi => by rw [hcells i (hkept i hi)]⟩

/-- What an actor was like when its transaction began, and what it is to become. -/
structure Draft where
  beh : Word := .undefined
  state : Word := .undefined
  items : Except Fault (List Word) := .ok []
  /-- Has anybody written to cells since? -/
  wrote : Bool := false
  become : List Word := []

def Draft.of (m : Machine) (a : Nat) : Draft where
  beh := (m.heap.cellAt a).x
  state := (m.heap.cellAt a).y
  items := m.heap.items (m.heap.cellAt a).y

namespace Machine

def writes (m : Machine) : Bool :=
  match m.instruction? with
  | some (.set _) => true
  | _ => false

def becomes? (m : Machine) : Option (List Word) :=
  match m.instruction? with
  | some (.beh n) => some (m.heap.firstItems (n.toNat + 1) (m.heap.cellAt m.threads.head.index).x)
  | _ => none

end Machine

abbrev Drafts := Nat → Draft

namespace Drafts

open Classical in
noncomputable def dispatch (D : Drafts) (m m' : Machine) : Drafts := fun a =>
  if (∃ t, m'.Serves t a) ∧ ¬ ∃ t, m.Serves t a then .of m a else D a

def advance (D : Drafts) (m : Machine) : Drafts := fun a =>
  { D a with
    wrote := (D a).wrote || m.writes
    become := if a = m.current then m.becomes?.getD (D a).become else (D a).become }

noncomputable def tick (D : Drafts) (m : Machine) : Drafts :=
  match prepare m with
  | .ok _ m' => (D.dispatch m m').advance m'
  | .error .. => D

noncomputable def observer : Observer Drafts where
  start := fun _ => {}
  watch _ D m _ c :=
    match c with
    | .tick => D.tick m
    | _ => D

theorem tick_eq (D : Drafts) (hp : prepare m = .ok () m') :
    D.tick m = (D.dispatch m m').advance m' := by
  unfold tick
  rw [hp]

end Drafts

structure Draft.Tells (d : Draft) (m : Machine) (e a : Nat) : Prop where
  beh : (m.heap.cellAt a).x = d.beh
  state : (m.heap.cellAt a).y = d.state
  become : m.heap.Lists (m.heap.cellAt e).z d.become
  items : d.wrote = false → m.heap.items d.state = d.items

def Drafts.Tell (D : Drafts) (ρ : Roles) (m : Machine) : Prop :=
  ∀ t e a, ρ t = .thread e a → (D a).Tells m e a

structure Stands (t e a : Nat) (ρ : Roles) (m m' : Machine) : Prop where
  role : ρ t = .thread e a
  top_le : m.heap.top ≤ m'.heap.top
  actor : (m'.heap.cellAt a).x = (m.heap.cellAt a).x ∧ (m'.heap.cellAt a).y = (m.heap.cellAt a).y
  same : ∀ i, i = e ∨ ρ i = .staged e → m'.heap.cellAt i = m.heap.cellAt i

theorem Stands.lists {s : List Word} (hs : Stands t e a ρ m m') (hl : m.Arranged ρ)
    (hz : m.heap.Lists (m.heap.cellAt e).z s) : m'.heap.Lists (m'.heap.cellAt e).z s := by
  refine hl.lists_staged ?_ hz hs.top_le hs.same
  rw [(hl.coherent.thread t e a hs.role).1]
  rfl

theorem Draft.Tells.stands {d : Draft} (hd : d.Tells m e a) (hl : m.Arranged ρ)
    (hs : Stands t e a ρ m m') (wrote : Bool)
    (hitems : wrote = false → m'.heap.items (m.heap.cellAt a).y =
      m.heap.items (m.heap.cellAt a).y) :
    Draft.Tells { d with wrote := d.wrote || wrote } m' e a := by
  refine ⟨hs.actor.1.trans hd.beh, hs.actor.2.trans hd.state, hs.lists hl hd.become, fun hw => ?_⟩
  obtain ⟨h1, h2⟩ := Bool.or_eq_false_iff.1 hw
  have := hitems h2
  rw [hd.state] at this
  exact this.trans (hd.items h1)

theorem Frame.stands {M : Nat → Role → Prop} {e' a' : Nat} (hf : Frame M ρ m.heap ρ' m'.heap)
    (hl : m.Arranged ρ) (hl' : m'.Arranged ρ')
    (ht : ρ t = .thread e a) (he : ¬ M e (.handled t a)) (ha : ¬ M a (.busy t))
    (hs : ∀ i, ρ i = .staged e → ¬ M i (.staged e)) (ht' : ρ' t = .thread e' a') :
    Stands t e' a' ρ m m' := by
  obtain ⟨hre, hra⟩ := hl.coherent.thread t e a ht
  have hsame := hf.same (i := e) (by rw [hre]; exact he)
  have := hl'.coherent.handled e t a (hsame.1.trans hre)
  rw [ht'] at this
  cases this
  have hcell := (hf.same (i := a) (by rw [hra]; exact ha)).2
  refine ⟨ht, hf.top_le, ⟨by rw [hcell], by rw [hcell]⟩, ?_⟩
  rintro i (rfl | hi)
  · exact hsame.2
  · exact (hf.same (by rw [hi]; exact hs i hi)).2

theorem Settled.thread_of_inLine (hs : Settled [] ρ m) (hi : (ρ i).inLine = true) :
    ∃ e a, ρ i = .thread e a := by
  have hb := hs.not_brief i
  cases hr : ρ i with
  | thread e a => exact ⟨e, a, rfl⟩
  | spent =>
    rw [hr] at hb
    cases hb
  | _ =>
    rw [hr] at hi
    cases hi

theorem not_posting {r : Role} (hs : r.isSpare = false) (hq : r ≠ .queued) : ¬ Posting i r := by
  rintro (h | h)
  · rw [hs] at h
    cases h
  · exact hq h

namespace Posts

theorem stands (hp : Posts ρ m ρ' m') (hl : m.Arranged ρ)
    (hl' : m'.Arranged ρ') (ht : ρ' t = .thread e a) : Stands t e a ρ m m' := by
  have hr : ρ t = .thread e a := by
    rw [← (hp.same_of_after (i := t) (by rw [ht]; exact not_posting rfl (by simp))).1, ht]
  exact hp.keeps.frame.stands hl hl' hr (not_posting rfl (by simp)) (not_posting rfl (by simp))
    (fun _ _ => not_posting rfl (by simp)) ht

theorem items (hp : Posts ρ m ρ' m') (hl : m.Arranged ρ)
    (hl' : m'.Arranged ρ') (hw : Safe ρ w) : m'.heap.items w = m.heap.items w :=
  hl.items_eq hl' hp.keeps.frame.top_le hp.keeps.frame.sanity
    (fun i hi => (hp.same (by rw [hi]; exact not_posting rfl (by simp))).2) hw

end Posts

namespace Begins

variable {t' e' a' : Nat}

variable (hb : Begins t e a ρ m ρ' m')

include hb

theorem not_beginning {r : Role} (hi : ρ i = r) (hs : r.isSpare = false)
    (hq : r ≠ .queued) (hl : r.inLine = false) (hr : r ≠ .idle) (ho : r ≠ .operand t) :
    ¬ Beginning t e a i r := by
  have hp : ¬ Posting i (ρ i) := hi ▸ not_posting hs hq
  rintro (h | h | rfl | rfl | rfl | h)
  · exact hp (hi ▸ h)
  · rw [hl] at h
    cases h
  · exact hp hb.free.1
  · exact hp hb.free.2
  · exact hr (hi.symm.trans hb.idle)
  · exact ho h

theorem stands (hs : Settled [] ρ m)
    (hl' : m'.Arranged ρ') (ht : ρ' t' = .thread e' a') (hne : t' ≠ t) :
    Stands t' e' a' ρ m m' := by
  have hl := hs.orderly.layout
  obtain ⟨e₁, a₁, hr⟩ := hs.thread_of_inLine (((hb.line t').1 (by rw [ht]; rfl)).resolve_left hne)
  obtain ⟨he, ha⟩ := hl.coherent.thread t' e₁ a₁ hr
  exact hb.frame.stands hl hl' hr (hb.not_beginning he rfl (by simp) rfl (by simp) (by simp))
    (hb.not_beginning ha rfl (by simp) rfl (by simp) (by simp))
    (fun i hi => hb.not_beginning hi rfl (by simp) rfl (by simp) (by simp)) ht

theorem items (hl : m.Arranged ρ)
    (hl' : m'.Arranged ρ') (hw : Safe ρ w) : m'.heap.items w = m.heap.items w := by
  refine hl.items_eq hl' hb.frame.top_le hb.frame.sanity (fun i hi => (hb.frame.same ?_).2) hw
  rw [hi]
  exact hb.not_beginning hi rfl (by simp) rfl (by simp) (by simp)

theorem tells (hl : m.Arranged ρ)
    (hl' : m'.Arranged ρ') : (Draft.of m a).Tells m' e a := by
  have hs := (hl.fits a).2
  rw [hb.idle] at hs
  refine ⟨by rw [hb.actor]; rfl, by rw [hb.actor]; rfl, ?_, fun _ => hb.items hl hl' hs.2.2.1⟩
  rw [hb.staged]
  exact ⟨[], ⟨rfl, by simp⟩, rfl⟩

end Begins

theorem Stands.safe_state (hs : Stands t e a ρ m m') (hl : m.Arranged ρ) :
    Safe ρ (m.heap.cellAt a).y :=
  hl.safe_state (by rw [(hl.coherent.thread t e a hs.role).2]; rfl)

namespace Drafts

variable {D : Drafts}

theorem dispatch_eq (hs : Settled [] ρ m) (ht : ρ t = .thread e a) : D.dispatch m m' a = D a := by
  unfold dispatch
  rw [if_neg]
  rintro ⟨-, h⟩
  exact h ⟨t, hs.serves_iff.2 (hs.orderly.layout.coherent.thread t e a ht).2⟩

theorem Tell.dispatch (hD : D.Tell ρ m) (hd : Dispatches ρ m ρ' m') (hs : Settled [] ρ m)
    (hs' : Settled [] ρ' m') : (D.dispatch m m').Tell ρ' m' := by
  have hl := hs.orderly.layout
  have hl' := hs'.orderly.layout
  have hold : ∀ {t e a}, Stands t e a ρ m m' →
      (∀ w, Safe ρ w → m'.heap.items w = m.heap.items w) → (D.dispatch m m' a).Tells m' e a := by
    intro t e a hst hitems
    rw [dispatch_eq hs hst.role]
    simpa using (hD t e a hst.role).stands hl hst false fun _ => hitems _ (hst.safe_state hl)
  intro t e a ht
  obtain hp | ⟨t', e', a', hb⟩ := hd.begins
  · exact hold (hp.stands hl hl' ht) fun w => hp.items hl hl'
  · by_cases hne : t = t'
    · subst hne
      have := hb.thread.symm.trans ht
      cases this
      have hnew : D.dispatch m m' a = .of m a := by
        unfold Drafts.dispatch
        rw [if_pos]
        refine ⟨⟨t, hs'.serves_iff.2 (hl'.coherent.thread t e a ht).2⟩, fun ⟨t, h⟩ => ?_⟩
        simpa [hb.idle] using hs.serves_iff.1 h
      rw [hnew]
      exact hb.tells hl hl'
    · exact hold (hb.stands hs hl' ht hne) fun w => hb.items hl hl'

end Drafts

theorem Machine.not_set {ip next : Word} {code : Instruction}
    (hip : nextAddress m.threads.head m = .ok ip m')
    (hi : m'.heap.instruction ip = .ok (code, next))
    (hw : m.writes = false) (f : Field) : code ≠ .set f := by
  rintro rfl
  unfold writes at hw
  rw [instruction?_eq hip hi] at hw
  cases hw

namespace Performs

variable {code : Instruction}

variable (hp : Performs t e a code ρ m ρ' m')

include hp

theorem data (ho : Open t e a [] ρ m) (hset : ∀ f, code ≠ .set f)
    (hi : ρ i = .data) : m'.heap.cellAt i = m.heap.cellAt i := by
  have ht : i ≠ t ∧ i ≠ e ∧ i ≠ a := by
    refine ⟨?_, ?_, ?_⟩ <;> rintro rfl
    · simp [ho.role] at hi
    · simp [ho.roles.1] at hi
    · simp [ho.roles.2] at hi
  have hmine : ¬ Mine t i (ρ i) := by
    rw [hi]
    rintro (h | h | h)
    · exact ht.1 h
    · cases h
    · cases h
  refine (hp.confined.frame.same ?_).2
  cases code with
  | set f => exact absurd rfl (hset f)
  | beh =>
    rintro (h | h | h)
    · exact hmine h
    · exact ht.2.1 h
    · simp [hi] at h
  | send =>
    rintro (h | h | h)
    · exact hmine h
    · exact ht.2.2 h
    · simp [hi] at h
  | _ => exact hmine

theorem actor : (m'.heap.cellAt a).x = (m.heap.cellAt a).x ∧
    (m'.heap.cellAt a).y = (m.heap.cellAt a).y := by
  have hs := hp.sending
  cases code with
  | send =>
    obtain ⟨-, -, j, target, msg, m₁, -, -, -, -, hmark⟩ := hs
    rw [hmark]
    exact ⟨rfl, rfl⟩
  | _ =>
    rw [hs.actor.2]
    exact ⟨rfl, rfl⟩

theorem stands (ho : Open t e a [] ρ m) (hbeh : ∀ n, code ≠ .beh n) : Stands t e a ρ m m' := by
  obtain ⟨hte, hta, hea⟩ := ho.orderly.layout.distinct ho.role
  refine ⟨ho.role, hp.confined.frame.top_le, hp.actor, fun i hi => (hp.confined.frame.same ?_).2⟩
  have hrole : ρ i = .handled t a ∨ ρ i = .staged e := by
    obtain rfl | hi := hi
    · exact .inl ho.roles.1
    · exact .inr hi
  have hit : i ≠ t ∧ i ≠ a := by
    constructor <;> rintro rfl
    · simp [ho.role] at hrole
    · simp [ho.roles.2] at hrole
  have hmine : ¬ Mine t i (ρ i) := by
    rintro (h | h | h)
    · exact hit.1 h
    · obtain hr | hr := hrole <;> rw [hr] at h <;> cases h
    · simp [h] at hrole
  cases code with
  | beh n => exact absurd rfl (hbeh n)
  | set =>
    rintro (h | h)
    · exact hmine h
    · simp [h] at hrole
  | send =>
    rintro (h | h | h)
    · exact hmine h
    · exact hit.2 h
    · simp [h] at hrole
  | _ => exact hmine

end Performs

theorem Relays.stands (hr : Relays ρ m m') (ho : Open t e a [] ρ m) : Stands t e a ρ m m' := by
  have hcell : ∀ i, (ρ i).inLine = false → m'.heap.cellAt i = m.heap.cellAt i := fun i hi =>
    (hr.frame.same (by simp [hi])).2
  have ha := hcell a (by rw [ho.roles.2]; rfl)
  refine ⟨ho.role, hr.frame.top_le, ⟨by rw [ha], by rw [ha]⟩, ?_⟩
  rintro i (rfl | hi)
  · exact hcell i (by rw [ho.roles.1]; rfl)
  · exact hcell i (by rw [hi]; rfl)

theorem Ceases.data {en : Ending} (hc : Ceases t e a ρ m en ρ' m') (ho : Open t e a [] ρ m)
    (hw : m.writes = false) (hi : ρ i = .data) : m'.heap.cellAt i = m.heap.cellAt i := by
  cases hc with
  | finish => rfl
  | fault hip _ _ hg hq =>
    rw [hq.heap]
    obtain hin | ⟨code, next, hcode, hp⟩ := hg
    · refine (hin.frame.same ?_).2
      rw [hi]
      rintro (rfl | h | h)
      · simp [ho.role] at hi
      · cases h
      · cases h
    · rw [← ho.head] at hip
      exact hp.data (ho.tally _) (not_set hip hcode hw) hi

namespace Advances

variable {step : Step} {t' e' a' : Nat}

variable (hadv : Advances t e a ρ m step ρ' m')

include hadv

variable (ho : Open t e a [] ρ m)

include ho

theorem inLine (hi : (ρ' i).inLine = true) : (ρ i).inLine = true := by
  cases step with
  | noThreads => exact hadv.outcome.elim
  | continued =>
    obtain ⟨ip, code, next, m₁, -, -, ho₁, hperf, -⟩ := hadv.outcome
    exact (ho.inLine_iff ho₁ (hperf.confined.mono fun _ _ => Instruction.working).frame).1 hi
  | retired en =>
    obtain ⟨ρ₁, m₁, ρ₂, m₂, hce, ho₁, hclosed, hret⟩ := hadv.outcome
    exact (ho.inLine_iff ho₁ hce.frame.1).1 ((hclosed.inLine_iff ho₁ hret).2 (.inr hi))

theorem stands (hl' : m'.Arranged ρ') (ht : ρ' t' = .thread e' a') (hne : t' ≠ t) :
    Stands t' e' a' ρ m m' := by
  have hl := ho.orderly.layout
  obtain ⟨e₁, a₁, hr⟩ := ho.settled.thread_of_inLine (hadv.inLine ho (by rw [ht]; rfl))
  obtain ⟨he, ha⟩ := hl.coherent.thread t' e₁ a₁ hr
  have hother : ∀ i, ρ i = .handled t' a₁ ∨ ρ i = .busy t' ∨ ρ i = .staged e₁ →
      ¬ Concerned t e a i (ρ i) := by
    intro i hi
    have hthread := ho.role
    obtain ⟨hevent, hactor⟩ := ho.roles
    have hplain : (ρ i).isSpare = false ∧ (ρ i).inLine = false := by
      obtain h | h | h := hi <;> rw [h] <;> exact ⟨rfl, rfl⟩
    unfold Concerned Final Staging Mine
    grind
  refine hadv.frame.stands hl hl' hr ?_ ?_ (fun i hi => ?_) ht
  · exact he ▸ hother e₁ (.inl he)
  · exact ha ▸ hother a₁ (.inr (.inl ha))
  · exact hi ▸ hother i (.inr (.inr hi))

theorem data (hw : m.writes = false) (hi : ρ i = .data) : m'.heap.cellAt i = m.heap.cellAt i := by
  cases step with
  | noThreads => exact hadv.outcome.elim
  | continued =>
    obtain ⟨ip, code, next, m₁, hip, hcode, ho₁, hperf, hrel⟩ := hadv.outcome
    rw [← ho.head] at hip
    have hi₁ : ρ' i = .data := hperf.confined.frame.grows.data i hi
    rw [(hrel.frame.same (by rw [hi₁]; simp [Role.inLine])).2]
    exact hperf.data (ho.tally _) (not_set hip hcode hw) hi
  | retired en =>
    obtain ⟨ρ₁, m₁, ρ₂, m₂, hce, ho₁, hclosed, hret⟩ := hadv.outcome
    have hi₁ := hce.frame.1.grows.data i hi
    have hi₂ := hclosed.ends.frame.grows.data i hi₁
    have hend : ¬ Final t e a i (ρ₁ i) := by
      have hthread := ho₁.role
      obtain ⟨hevent, hactor⟩ := ho₁.roles
      unfold Final Staging Mine
      grind [Role.isSpare]
    have hfree : ¬ (i = t ∨ i = e) := by
      rintro (rfl | rfl)
      · simp [hclosed.closing.thread] at hi₂
      · simp [hclosed.closing.event] at hi₂
    rw [(hret.frame.same hfree).2, (hclosed.ends.frame.same hend).2, hce.data ho hw hi]

theorem items (hl' : m'.Arranged ρ') (hw : m.writes = false) (hs : Safe ρ w) :
    m'.heap.items w = m.heap.items w :=
  ho.orderly.layout.items_eq hl' hadv.frame.top_le hadv.frame.sanity (fun _ => hadv.data ho hw) hs

end Advances

theorem Heap.Pairs.firstItems {l : List Nat} {n : Nat} (hc : h.Pairs w l) (hn : n ≤ l.length) :
    h.firstItems n w = (l.map fun i => (h.cellAt i).x).take n := by
  induction n generalizing w l with
  | zero => rfl
  | succ n ih =>
    cases l with
    | nil => cases hn
    | cons i l =>
      obtain ⟨rfl, hcdr, hrest⟩ := hc.cdr
      unfold firstItems
      rw [hcdr, ih hrest (Nat.le_of_succ_le_succ hn), car_eq (hc.2 i List.mem_cons_self)]
      rfl

theorem Performs.becomes {n : Int} (hp : Performs t e a (.beh n) ρ m ρ' m')
    (ho : Open t e a [] ρ m) :
    m'.heap.Lists (m'.heap.cellAt e).z (m.heap.firstItems (n.toNat + 1) (m.heap.cellAt t).x) := by
  obtain ⟨l, hl, -⟩ := ho.stacked
  obtain ⟨hlen, hlist⟩ := hp.effect.2.1 _ ⟨l, hl, rfl⟩
  rw [List.length_map] at hlen
  rw [hl.firstItems hlen]
  exact hlist

theorem Sweeps.stands (hs : Sweeps ρ m ρ' m') (hl : m.Arranged ρ)
    (hl' : m'.Arranged ρ') (ht : ρ' t = .thread e a) : Stands t e a ρ m m' := by
  have ha' := (hl'.coherent.thread t e a ht).2
  obtain ⟨hrole, hcell⟩ := (hs.undisturbed hl (a := a) (by rw [ha']; rfl)).actor
  obtain ⟨e₁, hr⟩ := hl.coherent.busy a t (hrole.symm.trans ha')
  have := (hs.rooted hl (i := t) (by rw [hr]; rfl)).1
  rw [ht, hr] at this
  cases this
  refine ⟨hr, Nat.le_of_eq hs.top.symm, ⟨by rw [hcell], by rw [hcell]⟩, ?_⟩
  rintro i (rfl | hi)
  · exact (hs.rooted hl (by rw [(hl.coherent.thread t i a hr).1]; rfl)).2
  · exact (hs.rooted hl (by rw [hi]; rfl)).2

namespace Drafts

variable {D : Drafts} {step : Step}

theorem advance_other {b : Nat} (hb : b ≠ m.current) :
    D.advance m b = { D b with wrote := (D b).wrote || m.writes } := by
  unfold advance
  rw [if_neg hb]

theorem Tell.advance_self (hd : (D a).Tells m e a) (hadv : Advances t e a ρ m .continued ρ' m')
    (ho : Open t e a [] ρ m) (hs' : Settled [] ρ' m') : (D.advance m a).Tells m' e a := by
  obtain ⟨ip, code, next, m₁, hip, hcode, ho₁, hperf, hrel⟩ := hadv.outcome
  rw [← ho.head] at hip
  have hst : Stands t e a ρ' m₁ m' := hrel.stands ho₁
  have hactor := hperf.actor
  refine ⟨hst.actor.1.trans (hactor.1.trans hd.beh),
    hst.actor.2.trans (hactor.2.trans hd.state), ?_, fun hw => ?_⟩
  · refine hst.lists ho₁.orderly.layout ?_
    unfold Drafts.advance becomes?
    rw [instruction?_eq hip hcode, if_pos ho.current_eq.symm, ho.head]
    cases code with
    | beh n => exact hperf.becomes (ho.tally _)
    | _ => exact (hperf.stands (ho.tally _) (by simp)).lists (ho.tally _).orderly.layout hd.become
  · obtain ⟨h1, h2⟩ := Bool.or_eq_false_iff.1 hw
    have hsafe := ho.safe_actor.2
    rw [hd.state] at hsafe
    exact (hadv.items ho hs'.orderly.layout h2 hsafe).trans (hd.items h1)

theorem Tell.advance (hD : D.Tell ρ m) (hadv : Advances t e a ρ m step ρ' m')
    (ho : Open t e a [] ρ m) (hs' : Settled [] ρ' m') : (D.advance m).Tell ρ' m' := by
  have hl := ho.orderly.layout
  have hl' := hs'.orderly.layout
  intro t' e' a' ht
  by_cases hne : t' = t
  · subst hne
    cases step with
    | noThreads => exact hadv.outcome.elim
    | continued =>
      obtain ⟨ip, code, next, m₁, -, -, ho₁, -, -⟩ := hadv.outcome
      have := ho₁.role.symm.trans ht
      cases this
      exact advance_self (hD t' e a ho.role) hadv ho hs'
    | retired en =>
      obtain ⟨ρ₁, m₁, ρ₂, m₂, -, -, -, hret⟩ := hadv.outcome
      rw [hret.free.1] at ht
      cases ht
  · have hst := hadv.stands ho hl' ht hne
    have hother : a' ≠ m.current := by
      rw [ho.current_eq]
      rintro rfl
      have hbusy := (hl.coherent.thread t' e' a' hst.role).2
      rw [ho.roles.2] at hbusy
      cases hbusy
      exact hne rfl
    rw [advance_other hother]
    exact (hD t' e' a' hst.role).stands hl hst m.writes fun hw =>
      hadv.items ho hl' hw (hst.safe_state hl)

theorem Tell.sweep (hD : D.Tell ρ m) (hsw : Sweeps ρ m ρ' m') (hs : Settled [] ρ m)
    (hs' : Settled [] ρ' m') : D.Tell ρ' m' := by
  have hl := hs.orderly.layout
  have hl' := hs'.orderly.layout
  intro t e a ht
  have hst := hsw.stands hl hl' ht
  simpa using (hD t e a hst.role).stands hl hst false fun _ =>
    hsw.items hl hl' (by rw [(hl'.coherent.thread t e a ht).2]; rfl)

theorem Tell.round {b : Bool} (hD : D.Tell ρ m) (hr : Round ρ m b ρ' m') (hs : Settled [] ρ m)
    (hs' : Settled [] ρ' m') : (D.tick m).Tell ρ' m' := by
  cases hr with
  | rest _ _ _ hnil =>
    intro t e a ht
    obtain ⟨l, hq, hm⟩ := hs'.orderly.layout.line
    have hl := (hm t).2 (by rw [ht]; rfl)
    cases l with
    | nil => cases hl
    | cons i l => exact absurd hnil hq.1.ne_nil
  | turn hprep hd _ hturn =>
    obtain ⟨ho, ρ₂, m₂, -, hs₂, hadv, hsweep⟩ := hturn
    rw [D.tick_eq hprep]
    exact ((hD.dispatch hd hs ho.settled).advance hadv ho hs₂).sweep hsweep hs₂ hs'

end Drafts

theorem Command.Effect.tell {c : Command} {D : Drafts} (he : c.Effect ρ m ρ' m')
    (hs : Settled [] ρ m)
    (hs' : Settled [] ρ' m') (hD : D.Tell ρ m) : (Drafts.observer.watch H D m m' c).Tell ρ' m' := by
  have hl := hs.orderly.layout
  have hl' := hs'.orderly.layout
  have hkeep : ∀ {t e a}, Stands t e a ρ m m' → (∀ w, Safe ρ w → m'.heap.items w = m.heap.items w) →
      (D a).Tells m' e a := fun {t e a} hst hitems => by
    simpa using (hD t e a hst.role).stands hl hst false fun _ => hitems _ (hst.safe_state hl)
  cases c with
  | tick =>
    obtain ⟨b, hr⟩ := he
    exact hD.round hr hs hs'
  | send => exact fun t e a ht => hkeep (he.1.stands hl hl' ht) fun w => he.1.items hl hl'
  | newActor =>
    intro t e a ht
    have hr : ρ t = .thread e a := by
      rw [← (he.frame.same_of_after (i := t) (by rw [ht]; simp [Role.isSpare]) (by rw [ht]; rfl)).1,
        ht]
    refine hkeep (he.frame.stands hl hl' hr (by simp [Role.isSpare]) (by simp [Role.isSpare])
      (fun _ _ => by simp [Role.isSpare]) ht) fun w => ?_
    exact hl.items_eq hl' he.frame.top_le he.frame.sanity fun i hi =>
      (he.frame.same (by rw [hi]; simp [Role.isSpare])).2
  | collect => exact hD.sweep he hs hs'
  | pin | attachClock | setClock =>
    obtain ⟨rfl, hi⟩ := he
    intro t e a ht
    refine hkeep ⟨ht, ?_, ?_, ?_⟩ ?_ <;> rw [hi.heap]
    · exact ⟨rfl, rfl⟩
    · exact fun _ _ => rfl
    · exact fun _ _ => rfl

/-- A transaction under way: its actor is what it was when the transaction began, what it is to
become is on its event, and what it has sent is held back. -/
structure Machine.Underway (m : Machine) (t a : Nat) (d : Draft) (sent : List (Word × Word)) :
    Prop where
  actor : (m.heap.cellAt a).x = d.beh ∧ (m.heap.cellAt a).y = d.state
  items : d.wrote = false → m.heap.items d.state = d.items
  become : ∃ e, (m.heap.cellAt t).y = .ref e ∧ m.heap.Lists (m.heap.cellAt e).z d.become
  sent : ∃ q l, m.Waiting q ∧ m.heap.Chain .z (m.heap.cellAt a).z l ∧
    l.map (fun i => ((m.heap.cellAt i).x, (m.heap.cellAt i).y)) = sent ∧ l.Disjoint q

theorem Settled.underway {D : Drafts} (hs : Settled [] ρ m) (hH : Recounts ρ m a (H a))
    (hD : D.Tell ρ m) (ha : ρ a = .busy t) : m.Underway t a (D a) (H a).sent := by
  have hl := hs.orderly.layout
  obtain ⟨e, ht⟩ := hl.coherent.busy a t ha
  have hd := hD t e a ht
  have hsuit := (hl.fits t).2
  rw [ht] at hsuit
  have hopen : (ρ a).isOpen = true := by rw [ha]; rfl
  obtain ⟨l, hc, hsent⟩ := hH.sent hopen
  obtain ⟨q, hq, hm⟩ := hl.queue
  refine ⟨⟨hd.beh, hd.state⟩, hd.items, ⟨e, hsuit.2, hd.become⟩, q, l, hq, hc, hsent,
    fun i hi hiq => ?_⟩
  have hr := (hm i).1 hiq
  rw [(hl.sends hopen hc i).1 hi] at hr
  cases hr

theorem Observed.tell {D : Drafts} (hr : Observed Drafts.observer config m H D)
    (hc : config.strategy ≠ .incremental) :
    ∃ ρ, Tidy ρ m ∧ (∀ a, Recounts ρ m a (H a)) ∧ D.Tell ρ m := by
  refine hr.invariant hc (P := fun ρ m D => D.Tell ρ m) (fun ρ m ht hb _ t e a hr => ?_)
    fun ρ m ρ' m' H D c ht ht' _ he hD => he.tell ht.settled ht'.settled hD
  have := hb t
  rw [hr] at this
  cases this

theorem Tidy.turns {step : Step} (ht : Tidy ρ m) (hh : m.threads.head = .ref t)
    (hserves : m.Serves t a) (hx : execute m = .ok step m') :
    ∃ ρ' e, Turns t e a ρ m step ρ' m' ∧ Tidy ρ' m' := by
  obtain ⟨ρ', ht', hstep⟩ := (ht.ensures_execute (E := fun _ => False)).ok hx
  obtain ⟨-, -, -, hnil⟩ | ⟨-, t', e, a', hturn⟩ := hstep
  · rw [hh] at hnil
    cases hnil
    obtain ⟨⟨l, hl, hmem⟩, -⟩ := hserves
    cases l with
    | nil => cases hmem
    | cons i l => exact absurd hh hl.ne_nil
  · have hhead := hturn.opened.head.symm.trans hh
    cases hhead
    have hbusy := ht.settled.serves_iff.1 hserves
    obtain ⟨e', hrole⟩ := ht.settled.orderly.layout.coherent.busy a t hbusy
    rw [hturn.opened.role] at hrole
    cases hrole
    exact ⟨ρ', e, hturn, ht'⟩

theorem Observed.turns {D : Drafts} {m₁ : Machine} {step : Step}
    (hr : Observed Drafts.observer config m H D) (hc : config.strategy ≠ .incremental)
    (hprep : prepare m = .ok () m₁) (hh : m₁.threads.head = .ref t) (hserves : m₁.Serves t a)
    (hx : execute m₁ = .ok step m') :
    ∃ ρ ρ' e, Turns t e a ρ m₁ step ρ' m' ∧ Tidy ρ' m' ∧ Recounts ρ m₁ a (H.dispatch m m₁ a) ∧
      (D.dispatch m m₁).Tell ρ m₁ := by
  obtain ⟨ρ, ht, hH, hD⟩ := hr.tell hc
  obtain ⟨ρ₁, hs₁, hd⟩ := (ht.settled.ensures_prepare (E := fun _ => False)).ok hprep
  obtain ⟨ρ', e, hturn, ht'⟩ := (ht.dispatches hd hs₁).turns hh hserves hx
  exact ⟨ρ₁, ρ', e, hturn, ht', hd.recounts ht.settled hs₁ hH, hD.dispatch hd ht.settled hs₁⟩

theorem History.sent_tick {m₁ m₂ : Machine} {en : Ending} (hprep : prepare m = .ok () m₁)
    (hs : Settled [] ρ m₁) (hh : m₁.threads.head = .ref t) (ha : ρ a = .busy t)
    (hrun : Machine.advance (.ref t) m₁ = .ok (.retired en) m₂) :
    (H.tick m a).sent = (H.dispatch m m₁ a).sent := by
  unfold History.tick
  rw [hprep]
  dsimp only
  rw [History.advance_eq hs hh, if_pos ha]
  unfold Record.advance
  rw [hh, hrun]

end ActorMachine
