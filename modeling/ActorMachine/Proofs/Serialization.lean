import ActorMachine.Proofs.MemorySafety

namespace ActorMachine

variable {ρ ρ' : Roles} {m m' : Machine} {config : Config} {t a b : Nat}

def Machine.Serves (m : Machine) (t a : Nat) : Prop :=
  (∃ l, m.heap.Chain .z m.threads.head l ∧ t ∈ l) ∧
    ∃ e, (m.heap.cellAt t).y = .ref e ∧ (m.heap.cellAt e).x = .cap a

/-- What is known of the last transaction of an actor. -/
structure Record where
  /-- Targets and messages, the newest first. -/
  sent : List (Word × Word) := []
  ended : Option Ending := none

abbrev History := Nat → Record

def Instruction.sends? (i : Instruction) (m : Machine) : Option (Word × Word) :=
  match i with
  | .send n =>
    match Machine.composeMessage n m with
    | .ok s _ => some s
    | .error .. => none
  | _ => none

def Machine.sends? (m : Machine) : Option (Word × Word) :=
  match nextAddress m.threads.head m with
  | .ok ip m₁ =>
    match m₁.heap.instruction ip with
    | .ok (i, _) => i.sends? m₁
    | .error _ => none
  | .error .. => none

def Record.advance (r : Record) (m : Machine) : Record :=
  match Machine.advance m.threads.head m with
  | .ok .continued _ => { r with sent := m.sends?.toList ++ r.sent }
  | .ok (.retired e) _ => { r with ended := some e }
  | _ => r

namespace History

open Classical in
noncomputable def dispatch (H : History) (m m' : Machine) : History := fun a =>
  if (∃ t, m'.Serves t a) ∧ ¬ ∃ t, m.Serves t a then {} else H a

open Classical in
noncomputable def advance (H : History) (m : Machine) : History := fun a =>
  if ∃ t, m.threads.head = .ref t ∧ m.Serves t a then (H a).advance m else H a

noncomputable def tick (H : History) (m : Machine) : History :=
  match Machine.prepare m with
  | .ok _ m' => (H.dispatch m m').advance m'
  | .error .. => H

def prune (H : History) (m : Machine) : History := fun a =>
  if m.heap.isActor (.cap a) then H a else {}

noncomputable def watch (H : History) (m m' : Machine) : Command → History
  | .tick => (H.tick m).prune m'
  | _ => H.prune m'

end History

/-- A run with its history. -/
inductive Recorded (config : Config) : Machine → History → Prop
  | start {m m' : Machine} : Building config m → Machine.sealImage m = .ok () m' →
      Recorded config m' fun _ => {}
  | command {m m' : Machine} {H : History} (c : Command) : Recorded config m H →
      (∀ w ∈ c.words, m.heap.Offers m.heap.permanent w) → c.run m = .ok () m' →
      Recorded config m' (H.watch m m' c)
  | refused {m m' : Machine} {H : History} {f : Fault} (c : Command) : Recorded config m H →
      (∀ w ∈ c.words, m.heap.Offers m.heap.permanent w) → c.run m = .error f m' →
      f.isFatal = false →
      Recorded config m' H

theorem Running.recorded (hr : Running config m) : ∃ H, Recorded config m H := by
  induction hr with
  | start hb hs => exact ⟨_, .start hb hs⟩
  | command c _ hw hrun ih =>
    obtain ⟨H, hH⟩ := ih
    exact ⟨_, .command c hH hw hrun⟩
  | refused c _ hw hrun hf ih =>
    obtain ⟨H, hH⟩ := ih
    exact ⟨H, .refused c hH hw hrun hf⟩

def Machine.HoldsBack (m : Machine) (a : Nat) (s : List (Word × Word)) : Prop :=
  ∃ l, m.heap.Chain .z (m.heap.cellAt a).z l ∧
    l.map (fun i => ((m.heap.cellAt i).x, (m.heap.cellAt i).y)) = s

structure Recounts (ρ : Roles) (m : Machine) (a : Nat) (r : Record) : Prop where
  blank : (ρ a).isActor = false → r = {}
  idle : ρ a = .idle → r.ended ≠ some .stop
  stopped : ρ a = .stopped → r.ended = some .stop
  sent : (ρ a).isOpen = true → m.HoldsBack a r.sent

theorem Recounts.of_blank (ha : (ρ a).isOpen = false) : Recounts ρ m a {} := by
  refine ⟨fun _ => rfl, fun _ => by simp, fun hr => ?_, fun ho => ?_⟩
  · rw [hr] at ha
    cases ha
  · rw [ho] at ha
    cases ha

theorem Recounts.of_basic (ha : (ρ a).isBasic = true) : Recounts ρ m a {} := by
  refine .of_blank ?_
  cases hr : ρ a <;> rw [hr] at ha <;> first | rfl | cases ha

theorem Settled.serves_iff (hs : Settled [] ρ m) : m.Serves t a ↔ ρ a = .busy t := by
  have hl := hs.orderly.layout
  constructor
  · rintro ⟨⟨l, hc, ht⟩, e, hy, hx⟩
    obtain ⟨e', a', hr⟩ := hs.thread_of_line hc ht
    obtain ⟨he, ha⟩ := hl.coherent.thread t e' a' hr
    have hst := (hl.fits t).2
    have hse := (hl.fits e').2
    rw [hr] at hst
    rw [he] at hse
    have hee : e = e' := by
      have := hy.symm.trans hst.2
      cases this
      rfl
    subst hee
    have := hx.symm.trans hse.2.1
    cases this
    exact ha
  · intro ha
    obtain ⟨e, hr⟩ := hl.coherent.busy a t ha
    obtain ⟨l, hq, hm⟩ := hl.line
    have hst := (hl.fits t).2
    have hse := (hl.fits e).2
    rw [hr] at hst
    rw [(hl.coherent.thread t e a hr).1] at hse
    exact ⟨⟨l, hq.1, (hm t).2 (by rw [hr]; rfl)⟩, e, hst.2, hse.2.1⟩

theorem Layout.sends {h : Heap} {events threads : Queue} (hl : Layout ρ h events threads)
    (ha : (ρ a).isOpen = true) {l : List Nat} (hc : h.Chain .z (h.cellAt a).z l) :
    ∀ i, i ∈ l ↔ ρ i = .pending a := by
  obtain ⟨k, hk, hm⟩ := hl.listed .sends a ha
  rw [hc.unique hk]
  exact hm

theorem Machine.HoldsBack.congr {s : List (Word × Word)} (hl : m.Arranged ρ)
    (ha : (ρ a).isOpen = true) (hcell : m'.heap.cellAt a = m.heap.cellAt a)
    (hsame : ∀ i, ρ i = .pending a → m'.heap.cellAt i = m.heap.cellAt i) (hh : m.HoldsBack a s) :
    m'.HoldsBack a s := by
  obtain ⟨l, hc, rfl⟩ := hh
  have hmem := hl.sends ha hc
  refine ⟨l, ?_, ?_⟩
  · rw [hcell]
    exact hc.congr fun i hi => by rw [hsame i ((hmem i).1 hi)]
  · exact List.map_congr_left fun i hi => by rw [hsame i ((hmem i).1 hi)]

theorem Recounts.undisturbed {r : Record} (hr : Recounts ρ m a r)
    (hl : m.Arranged ρ) (hu : Undisturbed a ρ m ρ' m') : Recounts ρ' m' a r := by
  obtain ⟨hrole, hcell⟩ := hu.actor
  refine ⟨fun h => hr.blank (hrole ▸ h), fun h => hr.idle (hrole ▸ h), fun h =>
    hr.stopped (hrole ▸ h), fun h => ?_⟩
  rw [hrole] at h
  exact (hr.sent h).congr hl h hcell hu.same

section Rounds

variable {H : History} {e : Nat}

theorem History.dispatch_eq (hs : Settled [] ρ m) (hs' : Settled [] ρ' m') (hr : ρ' a = ρ a) :
    H.dispatch m m' a = H a := by
  unfold dispatch
  simp only [hs.serves_iff, hs'.serves_iff, hr, and_not_self, if_false]

theorem History.dispatch_blank (hH : H a = {}) : H.dispatch m m' a = {} := by
  unfold dispatch
  split
  · rfl
  · exact hH

theorem Dispatches.recounts (hd : Dispatches ρ m ρ' m') (hs : Settled [] ρ m)
    (hs' : Settled [] ρ' m')
    (hH : ∀ a, Recounts ρ m a (H a)) : Recounts ρ' m' a (H.dispatch m m' a) := by
  have hstill : ((ρ a).isActor = true ∨ (ρ' a).isActor = true → Undisturbed a ρ m ρ' m') →
      Recounts ρ' m' a (H.dispatch m m' a) := by
    intro hu
    by_cases hact : (ρ a).isActor = true ∨ (ρ' a).isActor = true
    · rw [History.dispatch_eq hs hs' (hu hact).actor.1]
      exact (hH a).undisturbed hs.orderly.layout (hu hact)
    · rw [not_or, Bool.not_eq_true, Bool.not_eq_true] at hact
      rw [History.dispatch_blank ((hH a).blank hact.1)]
      refine .of_blank ?_
      cases hr : ρ' a <;> rw [hr] at hact <;> first | rfl | cases hact.2
  obtain hp | ⟨t, e, b, hb⟩ := hd.begins
  · exact hstill (hp.still (fun _ => True) a trivial)
  · by_cases hab : a = b
    · subst hab
      have hbusy := (hs'.orderly.layout.coherent.thread t e a hb.thread).2
      have hnew : H.dispatch m m' a = {} := by
        unfold History.dispatch
        rw [if_pos]
        exact ⟨⟨t, hs'.serves_iff.2 hbusy⟩,
          fun ⟨t, ht⟩ => by simpa [hb.idle] using hs.serves_iff.1 ht⟩
      rw [hnew]
      refine ⟨fun _ => rfl, fun _ => by simp, fun hr => ?_, fun _ => ⟨[], ?_, rfl⟩⟩
      · rw [hbusy] at hr
        cases hr
      · rw [hb.actor]
        rfl
    · exact hstill (hb.still hs'.orderly.layout a hab)

theorem History.advance_eq (hs : Settled [] ρ m) (hh : m.threads.head = .ref t) :
    H.advance m a = if ρ a = .busy t then (H a).advance m else H a := by
  unfold advance
  simp only [hs.serves_iff, hh, Word.ref.injEq, exists_eq_left']

theorem Machine.sends?_eq {ip next : Word} {i : Instruction} (hh : m.threads.head = .ref t)
    (hip : nextAddress (.ref t) m = .ok ip m') (hi : m'.heap.instruction ip = .ok (i, next)) :
    m.sends? = i.sends? m' := by
  unfold sends?
  rw [hh, hip]
  dsimp only
  rw [hi]

theorem Appends.holdsBack {n : Int} {events threads : Queue} {s : List (Word × Word)}
    (ha : Appends a n ρ m ρ' m') (hl : Layout ρ m.heap events threads)
    (hl' : m'.Arranged ρ') (ho : (ρ a).isOpen = true) (hh : m.HoldsBack a s) :
    m'.HoldsBack a (((Instruction.send n).sends? m).toList ++ s) := by
  obtain ⟨i, target, msg, m₁, hcomp, -, hmem, hcell, hactor⟩ := ha.sent
  obtain ⟨l, hc, rfl⟩ := hh
  have hold : ∀ j ∈ l, m'.heap.cellAt j = m.heap.cellAt j := fun j hj =>
    ha.same j ((hl.sends ho hc j).1 hj)
  unfold Instruction.sends?
  dsimp only
  rw [hcomp]
  refine ⟨i :: l, ⟨?_, ?_, ?_⟩, ?_⟩
  · rw [hactor]
    rfl
  · refine (hl'.bounds (i := i) ?_).1
    rw [(hmem i).2 (.inl rfl)]
    simp
  · rw [hcell]
    exact hc.congr fun j hj => by rw [hold j hj]
  · rw [List.map_cons, hcell, List.map_congr_left fun j hj => by rw [hold j hj]]
    rfl

theorem Open.settled (ho : Open t e a [] ρ m) : Settled [] ρ m := ⟨ho.orderly, ho.brief⟩

theorem Advances.recounts_self {step : Machine.Step} {r : Record}
    (hadv : Advances t e a ρ m step ρ' m')
    (ho : Open t e a [] ρ m) (hrun : Machine.advance (.ref t) m = .ok step m')
    (hs' : Settled [] ρ' m')
    (hr : Recounts ρ m a r) (hact : (ρ' a).isActor = true) : Recounts ρ' m' a (r.advance m) := by
  have hl := ho.orderly.layout
  have hbusy : ρ a = .busy t := ho.roles.2
  have hopen : (ρ a).isOpen = true := by rw [hbusy]; rfl
  have hout := hadv.outcome
  cases step with
  | noThreads => exact hout.elim
  | continued =>
    obtain ⟨ip, i, next, m₁, hip, hi, ho₁, hperf, hrel⟩ := hout
    have hrole : ρ' a = ρ a := by rw [ho₁.roles.2, hbusy]
    have hsend : Sending a ρ (m.tally .performed) ρ' m' i := by
      refine hperf.sending.after fun j hj => (hrel.frame.same ?_).2
      obtain rfl | hj := hj
      · simp [ho₁.roles.2, Role.inLine]
      · simp [hj, Role.inLine]
    have hrec : r.advance m = { r with sent := m.sends?.toList ++ r.sent } := by
      unfold Record.advance
      rw [ho.head, hrun]
    have hback : m'.HoldsBack a (m.sends?.toList ++ r.sent) := by
      rw [Machine.sends?_eq ho.head hip hi]
      cases i with
      | send n => exact Appends.holdsBack hsend hl hs'.orderly.layout hopen (hr.sent hopen)
      | _ => exact (hr.sent hopen).congr hl hopen hsend.actor.2 hsend.same
    rw [hrec]
    refine ⟨fun h => ?_, fun h => ?_, fun h => ?_, fun _ => hback⟩
    · rw [h] at hact
      cases hact
    · rw [hrole, hbusy] at h
      cases h
    · rw [hrole, hbusy] at h
      cases h
  | retired en =>
    have hleaves := hadv.leaves ho
    have hrec : r.advance m = { r with ended := some en } := by
      unfold Record.advance
      rw [ho.head, hrun]
    rw [hrec]
    refine ⟨fun h => ?_, fun h => ?_, fun h => ?_, fun h => ?_⟩
    · rw [h] at hact
      cases hact
    · rintro ⟨⟩
      rw [h] at hleaves
      cases hleaves
    · cases en with
      | stop => rfl
      | abort | commit =>
        rw [h] at hleaves
        cases hleaves
      | release =>
        rw [h] at hleaves
        obtain h | h := hleaves <;> cases h
    · cases en with
      | stop =>
        obtain ⟨hcell, hsame⟩ := hadv.stopped ho
        exact (hr.sent hopen).congr hl hopen hcell hsame
      | abort | commit =>
        rw [show ρ' a = .idle from hleaves] at h
        cases h
      | release =>
        obtain hidle | hfree := hleaves
        · rw [hidle] at h
          cases h
        · rw [hfree] at h
          cases h

theorem Advances.recounts {step : Machine.Step} (hadv : Advances t e a ρ m step ρ' m')
    (ho : Open t e a [] ρ m) (hrun : Machine.advance (.ref t) m = .ok step m')
    (hs' : Settled [] ρ' m') (hH : ∀ b, Recounts ρ m b (H b)) (hact : (ρ' b).isActor = true) :
    Recounts ρ' m' b (H.advance m b) := by
  have hl := ho.orderly.layout
  rw [History.advance_eq ho.settled ho.head]
  by_cases hba : b = a
  · subst hba
    rw [if_pos ho.roles.2]
    exact hadv.recounts_self ho hrun hs' (hH b) hact
  · have hbusy : ρ b ≠ .busy t := by
      intro hb
      obtain ⟨e', hr⟩ := hl.coherent.busy b t hb
      rw [ho.role] at hr
      cases hr
      exact hba rfl
    rw [if_neg hbusy]
    obtain hu | ⟨hidle, hnew⟩ := hadv.others b hba hact
    · exact (hH b).undisturbed hl hu
    · rw [(hH b).blank hnew]
      exact .of_blank (by rw [hidle]; rfl)

end Rounds

section Runs

variable {H : History}

theorem History.recounts_prune (hs : Settled [] ρ m) (hc : ∀ i, ρ i ≠ .condemned)
    (hH : (ρ a).isActor = true → Recounts ρ m a (H a)) : Recounts ρ m a (H.prune m a) := by
  have hl := hs.orderly.layout
  unfold prune
  split
  · next hact => exact hH (hl.role_of_isActor hact (hc a))
  · next hact =>
    refine .of_blank ?_
    have hnot : (ρ a).isActor = true → False := by
      intro hrole
      have hout : ρ a ≠ .outside := by
        intro e
        rw [e] at hrole
        cases hrole
      have ht := (hl.isActor_iff hout (hc a)).2 hrole
      have hlt := (hl.bounds hout).2
      refine hact ?_
      simp only [Heap.isActor, Word.isCap, Bool.true_and, Heap.hasType_iff]
      exact ⟨a, rfl, hlt, ht⟩
    cases hr : ρ a <;> rw [hr] at hnot <;> first | rfl | exact (hnot rfl).elim

theorem Round.recounts {b : Bool} (hr : Round ρ m b ρ' m') (ht : Tidy ρ m) (ht' : Tidy ρ' m')
    (hH : ∀ a, Recounts ρ m a (H a)) (hact : (ρ' a).isActor = true) :
    Recounts ρ' m' a (H.tick m a) := by
  cases hr with
  | rest hprep hd _ hnil =>
    unfold History.tick
    rw [hprep]
    dsimp only
    have hnone : (H.dispatch m m').advance m' a = H.dispatch m m' a := by
      unfold History.advance
      rw [if_neg]
      rintro ⟨t, hh, hserves⟩
      obtain ⟨⟨l, hc, hl⟩, -⟩ := hserves
      cases l with
      | nil => cases hl
      | cons i l => exact hc.ne_nil hnil
    rw [hnone]
    exact hd.recounts ht.settled ht'.settled hH
  | turn hprep hd _ hturn =>
    obtain ⟨ho, ρ₂, m₂, hrun, hs₂, hadv, hsweep⟩ := hturn
    unfold History.tick
    rw [hprep]
    dsimp only
    have hu := hsweep.undisturbed hs₂.orderly.layout hact
    refine Recounts.undisturbed ?_ hs₂.orderly.layout hu
    exact hadv.recounts ho hrun hs₂ (fun b => hd.recounts ht.settled ho.settled hH)
      (by rw [← hu.actor.1]; exact hact)

theorem Command.Effect.recounts {c : Command} (he : c.Effect ρ m ρ' m') (ht : Tidy ρ m)
    (ht' : Tidy ρ' m') (hH : ∀ a, Recounts ρ m a (H a)) : Recounts ρ' m' a (H.watch m m' c a) := by
  have hwelcome : Welcomes ρ m ρ' m' → (ρ' a).isActor = true → Recounts ρ' m' a (H a) := by
    intro hw hact
    obtain hu | ⟨hidle, hnew⟩ := hw a hact
    · exact (hH a).undisturbed ht.settled.orderly.layout hu
    · rw [(hH a).blank hnew]
      exact .of_blank (by rw [hidle]; rfl)
  cases c with
  | tick =>
    obtain ⟨b, hround⟩ := he
    exact History.recounts_prune ht'.settled ht'.clean fun hact => hround.recounts ht ht' hH hact
  | _ =>
    have hw := Command.Effect.welcomes he (by simp) ht.settled.orderly.layout
    exact History.recounts_prune ht'.settled ht'.clean (hwelcome hw)

theorem Recorded.recounts (hr : Recorded config m H) (hc : config.strategy ≠ .incremental) :
    ∃ ρ, Tidy ρ m ∧ ∀ a, Recounts ρ m a (H a) := by
  induction hr with
  | start hb hs =>
    obtain ⟨ρ, ht, hbasic, -⟩ := hb.tidy hs hc
    exact ⟨ρ, ht, fun a => .of_basic (hbasic a)⟩
  | command c _ hw hrun ih =>
    obtain ⟨ρ, ht, hH⟩ := ih
    obtain ⟨ρ', ht', he⟩ := (ht.ensures_command c hw).ok hrun
    exact ⟨ρ', ht', fun a => he.recounts ht ht' hH⟩
  | refused c _ hw hrun hf ih =>
    obtain ⟨ρ, ht, hH⟩ := ih
    obtain rfl := (ht.ensures_command c hw).error hrun hf
    exact ⟨ρ, ht, hH⟩

end Runs

/-- An actor has one thread at most. Its marker is set while it has one and after it was stopped; it
then leads to the events that its last transaction has sent, which are not on their way yet. -/
theorem Recorded.serialized {H : History} (hr : Recorded config m H)
    (hc : config.strategy ≠ .incremental) (ha : m.heap.isActor (.cap a) = true) :
    (∀ t t', m.Serves t a → m.Serves t' a → t = t') ∧
      ((m.heap.cellAt a).z = .undefined ↔ (¬ ∃ t, m.Serves t a) ∧ (H a).ended ≠ some .stop) ∧
      ((m.heap.cellAt a).z ≠ .undefined → ∃ l q, m.heap.Chain .z (m.heap.cellAt a).z l ∧
        (∀ i ∈ l, (m.heap.cellAt i).t = .eventT) ∧
        l.map (fun i => ((m.heap.cellAt i).x, (m.heap.cellAt i).y)) = (H a).sent ∧
        m.heap.Chain .z m.events.head q ∧ l.Disjoint q) := by
  obtain ⟨ρ, ht, hH⟩ := hr.recounts hc
  have hs := ht.settled
  have hl := hs.orderly.layout
  have hrole := hl.role_of_isActor ha (ht.clean a)
  have hsuit := (hl.fits a).2
  have hb := hs.not_brief a
  simp only [hs.serves_iff]
  have hmarked : (ρ a).isOpen = true → ∃ l q, m.heap.Chain .z (m.heap.cellAt a).z l ∧
      (∀ i ∈ l, (m.heap.cellAt i).t = .eventT) ∧
      l.map (fun i => ((m.heap.cellAt i).x, (m.heap.cellAt i).y)) = (H a).sent ∧
      m.heap.Chain .z m.events.head q ∧ l.Disjoint q := by
    intro ho
    obtain ⟨l, hc, hsent⟩ := (hH a).sent ho
    obtain ⟨q, hq, hm⟩ := hl.queue
    have hmem := hl.sends ho hc
    refine ⟨l, q, hc, fun i hi => ?_, hsent, hq.1, fun i hi hiq => ?_⟩
    · have hsi := (hl.fits i).2
      rw [(hmem i).1 hi] at hsi
      exact hsi.1
    · have := (hm i).1 hiq
      rw [(hmem i).1 hi] at this
      cases this
  refine ⟨fun t t' h h' => ?_, ?_⟩
  · rw [h] at h'
    cases h'
    rfl
  cases hr : ρ a with
  | idle =>
    rw [hr] at hsuit
    exact ⟨⟨fun _ => ⟨by simp, (hH a).idle hr⟩, fun _ => hsuit.2.2.2⟩, fun h =>
      absurd hsuit.2.2.2 h⟩
  | busy t =>
    have ho : (ρ a).isOpen = true := by rw [hr]; rfl
    exact ⟨⟨fun h => absurd h (hl.marker_ne ho), fun h => absurd ⟨t, rfl⟩ h.1⟩, fun _ => hmarked ho⟩
  | stopped =>
    have ho : (ρ a).isOpen = true := by rw [hr]; rfl
    exact ⟨⟨fun h => absurd h (hl.marker_ne ho), fun h => absurd ((hH a).stopped hr) h.2⟩, fun _ =>
      hmarked ho⟩
  | transit =>
    rw [hr] at hb
    cases hb
  | _ =>
    rw [hr] at hrole
    cases hrole

theorem Recorded.serialized_stopped : ∃ m H, Recorded { heapCapacity := 80, topMargin := 8 } m H ∧
    (m.heap.cellAt 20).z = .ref 24 ∧ (¬ ∃ t, m.Serves t 20) ∧ (H 20).ended = some .stop ∧
    (H 20).sent = [(.cap 20, .fix 8), (.cap 20, .fix 7)] := by
  -- An actor that has sent two messages and was stopped.
  have hplay : (play { heapCapacity := 80, topMargin := 8 }
      [.block [.push (.fix 7), .my .self, .send 0, .push (.fix 8), .my .self, .send 0,
        .finish .stop], .actor (.ref 19) []]
      [.send (.cap 20) .nil, .tick, .tick, .tick, .tick, .tick, .tick, .tick]).any
      (fun m => decide (m.heap.isActor (.cap 20) = true ∧ m.threads.head = .nil ∧
        m.heap.Chain .z (m.heap.cellAt 20).z [24, 23] ∧
        (m.heap.cellAt 23).x = .cap 20 ∧ (m.heap.cellAt 23).y = .fix 7 ∧
        (m.heap.cellAt 24).x = .cap 20 ∧ (m.heap.cellAt 24).y = .fix 8)) = true := by decide +kernel
  obtain ⟨m, hm, hfacts⟩ := (Option.any_eq_true _ _).1 hplay
  obtain ⟨hactor, hnil, hchain, hx, hy, hx', hy'⟩ := of_decide_eq_true hfacts
  obtain ⟨H, hH⟩ := (Running.of_play hm).recorded
  obtain ⟨-, hmarker, hsent⟩ := hH.serialized (a := 20) (by decide) hactor
  have hz : (m.heap.cellAt 20).z = .ref 24 := hchain.1
  have hne : (m.heap.cellAt 20).z ≠ .undefined := by
    rw [hz]
    decide
  have hserves : ¬ ∃ t, m.Serves t 20 := by
    rintro ⟨t, ⟨l, hc, ht⟩, -⟩
    cases l with
    | nil => cases ht
    | cons i l => exact hc.ne_nil hnil
  obtain ⟨l, -, hl, -, hsent, -⟩ := hsent hne
  rw [hl.unique hchain] at hsent
  refine ⟨m, H, hH, hz, hserves, ?_, ?_⟩
  · by_contra hstop
    exact hne (hmarker.2 ⟨hserves, hstop⟩)
  · rw [← hsent, List.map_cons, List.map_cons, hx, hy, hx', hy']
    rfl

end ActorMachine
