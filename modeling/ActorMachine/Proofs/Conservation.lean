import ActorMachine.Proofs.Observation
/-! No message is lost, and none is delivered twice. A ledger counts the messages that have come in
from the host and from transactions that have ended, and how often an event was given a thread.
Main statement: every message that has come in was dispatched or dropped or is on its way, every
event that was dispatched has a thread or its transaction has ended, and no event is given a thread
twice. -/

namespace ActorMachine

variable {ρ ρ' : Roles} {m m' : Machine} {config : Config} {H : History} {i t e a : Nat}

/-- What has come in, and what was done with it. -/
structure Ledger where
  posted : Nat := 0
  /-- Messages of transactions that were committed, or have released their actor. -/
  published : Nat := 0
  /-- How often an event was given a thread since its cell was taken. -/
  served : Nat → Nat := fun _ => 0

namespace Machine

def Lines (m : Machine) (t : Nat) : Prop := ∃ l, m.heap.Chain .z m.threads.head l ∧ t ∈ l

end Machine

namespace Ledger

open Classical in
noncomputable def dispatch (L : Ledger) (m m' : Machine) : Ledger :=
  { L with served := fun e => L.served e +
      if ∃ t, m'.Lines t ∧ ¬ m.Lines t ∧ (m'.heap.cellAt t).y = .ref e then 1 else 0 }

/-- Watch the first thread: what its transaction has sent comes in if it is committed or its actor
is released. -/
def advance (L : Ledger) (H : History) (m : Machine) : Ledger :=
  match Machine.execute m with
  | .ok (.retired en) _ =>
    if en = .commit ∨ en = .release then
      { L with published := L.published + (H m.current).sent.length }
    else L
  | _ => L

noncomputable def tick (L : Ledger) (H : History) (m : Machine) : Ledger :=
  match Machine.prepare m with
  | .ok _ m' => (L.dispatch m m').advance (H.dispatch m m') m'
  | .error .. => L

def settle (L : Ledger) (m : Machine) : Ledger :=
  { L with served := fun e => if (m.heap.cellAt e).t = .freeT then 0 else L.served e }

noncomputable def observer : Observer Ledger where
  start := {}
  watch H L m m' c :=
    (match c with
      | .tick => L.tick H m
      | .send .. => { L with posted := L.posted + 1 }
      | _ => L).settle m'

/-- All messages and all transactions are accounted for. -/
structure Tallies (L : Ledger) (m : Machine) : Prop where
  events : ∃ q, m.Waiting q ∧
    L.posted + m.stats.clockEvents + L.published = m.stats.dispatched + m.stats.dropped + q.length
  threads : ∃ l, m.Lined l ∧ m.stats.dispatched = m.stats.ended + l.length

theorem tick_eq (L : Ledger) (hp : Machine.prepare m = .ok () m') :
    L.tick H m = (L.dispatch m m').advance (H.dispatch m m') m' := by
  unfold tick
  rw [hp]

theorem Tallies.balances {L L' : Ledger} {k : Nat} (ht : L.Tallies m) (hb : Balances k m m')
    (hk : L'.posted + L'.published = L.posted + L.published + k) : L'.Tallies m' := by
  obtain ⟨⟨q, hq, he⟩, l, hl, hd⟩ := ht
  obtain ⟨q', hq', he'⟩ := hb.events q hq
  obtain ⟨l', hl', hd'⟩ := hb.threads l hl
  exact ⟨⟨q', hq', by omega⟩, l', hl', by omega⟩

end Ledger

theorem Settled.lines_iff (hs : Settled [] ρ m) : m.Lines t ↔ (ρ t).inLine = true := by
  obtain ⟨l, hq, hm⟩ := hs.orderly.layout.line
  rw [← hm]
  refine ⟨?_, fun ht => ⟨l, hq.1, ht⟩⟩
  rintro ⟨k, hk, ht⟩
  rwa [hk.unique hq.1] at ht

theorem Recounts.length_sent {r : Record} {l : List Nat} (hr : Recounts ρ m a r)
    (ha : (ρ a).isOpen = true) (hl : m.heap.Chain .z (m.heap.cellAt a).z l) :
    l.length = r.sent.length := by
  obtain ⟨k, hk, hsent⟩ := hr.sent ha
  rw [hl.unique hk, ← hsent, List.length_map]

theorem Turns.balances {step : Machine.Step} (ht : Turns t e a ρ m step ρ' m')
    (hH : Recounts ρ m a (H a)) (hx : Machine.execute m = .ok step m') (L : Ledger) :
    ∃ k, Balances k m m' ∧
      (L.advance H m).posted + (L.advance H m).published = L.posted + L.published + k := by
  obtain ⟨ho, ρ₁, m₁, -, hs₁, hadv, hsweep⟩ := ht
  obtain ⟨l, hl, -⟩ := ho.sends
  have hb := (hadv.balances ho hs₁ hl).trans (hsweep.balances hs₁.orderly.layout)
  have hlen := hH.length_sent (by rw [ho.roles.2]; rfl) hl
  refine ⟨_, hb, ?_⟩
  unfold Ledger.advance
  rw [hx, ho.current_eq]
  cases step with
  | noThreads | continued => rfl
  | retired en => cases en <;> simp [Machine.Step.outgoing, Ending.outgoing, hlen, Nat.add_assoc]

theorem Round.tallies {b : Bool} {L : Ledger} (hr : Round ρ m b ρ' m') (hs : Settled [] ρ m)
    (hH : ∀ a, Recounts ρ m a (H a)) (hL : L.Tallies m) : (L.tick H m).Tallies m' := by
  cases hr with
  | rest hprep hd hx hnil =>
    rw [L.tick_eq hprep]
    refine hL.balances hd.balances ?_
    unfold Ledger.advance
    rw [hx]
    rfl
  | turn hprep hd hx hturn =>
    rw [L.tick_eq hprep]
    have hs₁ := hturn.opened.settled
    obtain ⟨k, hb, hk⟩ := hturn.balances (hd.recounts hs hs₁ hH) hx (L.dispatch m _)
    refine hL.balances (hd.balances.trans hb) ?_
    rw [hk, Nat.zero_add]
    rfl

theorem Command.Effect.tallies {c : Command} {L : Ledger} (he : c.Effect ρ m ρ' m')
    (hs : Settled [] ρ m)
    (hH : ∀ a, Recounts ρ m a (H a)) (hL : L.Tallies m) :
    (Ledger.observer.watch H L m m' c).Tallies m' := by
  have hsettle : ∀ {L : Ledger}, L.Tallies m' → (L.settle m').Tallies m' :=
    fun h => ⟨h.events, h.threads⟩
  refine hsettle ?_
  cases c with
  | tick =>
    obtain ⟨b, hr⟩ := he
    exact hr.tallies hs hH hL
  | send =>
    refine hL.balances he.2.1 ?_
    dsimp only
    omega
  | newActor =>
    have hl := hs.orderly.layout
    refine hL.balances (.of_eq (fun q hq => ?_) (fun l hq => ?_) he.untouched.stats) rfl
    · exact he.frame.waiting he.untouched.events hl (fun _ _ h => by cases h) hq
    · refine he.frame.lined he.untouched.threads hl (fun i hi h => ?_) hq
      rw [Posting.inLine_eq_false (i := i) (.inl h)] at hi
      cases hi
  | collect => exact hL.balances (Sweeps.balances he hs.orderly.layout) rfl
  | pin | attachClock | setClock =>
    obtain ⟨-, hi⟩ := he
    exact hL.balances (.of_heap hi.heap hi.events hi.threads hi.stats) rfl

theorem Role.isHandled_of_inLine {r : Role} (hr : r.inLine = true) : r.isHandled = false := by
  cases r <;> first | rfl | cases hr

theorem Posting.isHandled_eq_false {r : Role} (hp : Posting i r) : r.isHandled = false := by
  obtain hr | rfl := hp
  · cases r <;> first | rfl | cases hr
  · rfl

theorem Dispatches.isHandled (hd : Dispatches ρ m ρ' m') (hi : (ρ i).isHandled = true) :
    (ρ' i).isHandled = true := by
  have hpost : ¬ Posting i (ρ i) := fun h => by simp [h.isHandled_eq_false] at hi
  obtain hp | ⟨t, e, a, hb⟩ := hd.begins
  · rwa [(hp.same hpost).1]
  · rw [(hb.frame.same ?_).1]
    · exact hi
    rintro (h | h | rfl | rfl | rfl | h)
    · exact hpost h
    · simp [Role.isHandled_of_inLine h] at hi
    · exact hpost hb.free.1
    · exact hpost hb.free.2
    · rw [hb.idle] at hi
      cases hi
    · rw [h] at hi
      cases hi

theorem Turns.isHandled {step : Machine.Step} (ht : Turns t e a ρ m step ρ' m')
    (hi : (ρ i).isHandled = true) :
    (ρ' i).isHandled = true ∨ ρ' i = .free := by
  obtain ⟨ho, ρ₁, m₁, -, hs₁, hadv, hsweep⟩ := ht
  have hturn : (ρ₁ i).isHandled = true ∨ ρ₁ i = .free := by
    by_cases hie : i = e
    · rw [hie]
      cases step with
      | noThreads => exact hadv.outcome.elim
      | continued =>
        obtain ⟨ip, j, next, m₂, -, -, ho₂, -, -⟩ := hadv.outcome
        rw [ho₂.roles.1]
        exact .inl rfl
      | retired en =>
        obtain ⟨ρ₂, m₂, ρ₃, m₃, -, -, -, hret⟩ := hadv.outcome
        exact .inr hret.free.2
    · refine .inl ?_
      rw [(hadv.frame.same ?_).1]
      · exact hi
      rintro ((((rfl | h | h) | h | h) | rfl | h | h) | h | h)
      · simp [ho.role, Role.isHandled] at hi
      · simp [Posting.isHandled_eq_false (i := i) (.inl h)] at hi
      · simp [h, Role.isHandled] at hi
      · exact hie h
      · simp [h, Role.isHandled] at hi
      · simp [ho.roles.2, Role.isHandled] at hi
      · simp [h, Role.isHandled] at hi
      · simp [h, Role.isHandled] at hi
      · simp [Role.isHandled_of_inLine h] at hi
      · simp [h, Role.isHandled] at hi
  obtain hi | hi := hturn
  · refine .inl ?_
    rw [(hsweep.rooted hs₁.orderly.layout ?_).1]
    · exact hi
    · cases hr : ρ₁ i <;> rw [hr] at hi <;> first | rfl | cases hi
  · exact .inr (hsweep.free i hi)

namespace Ledger

def Once (L : Ledger) (P : Nat → Prop) : Prop := ∀ i, L.served i ≤ 1 ∧ (L.served i ≠ 0 → P i)

variable {L : Ledger} {P Q : Nat → Prop}

theorem Once.mono (ho : L.Once P) (hpq : ∀ i, P i → Q i) : L.Once Q :=
  fun i => ⟨(ho i).1, fun hi => hpq i ((ho i).2 hi)⟩

theorem Once.settle (ho : L.Once fun i => (ρ i).isHandled = true ∨ ρ i = .free)
    (hl : m.Arranged ρ) : (L.settle m).Once fun i => (ρ i).isHandled = true := by
  intro i
  unfold Ledger.settle
  dsimp only
  split
  · exact ⟨Nat.zero_le 1, fun h => absurd rfl h⟩
  · next hfree =>
    refine ⟨(ho i).1, fun hi => ((ho i).2 hi).resolve_right fun hr => hfree ?_⟩
    have hs := (hl.fits i).2
    rw [hr] at hs
    exact hs

theorem Once.dispatch (ho : L.Once fun i => (ρ i).isHandled = true) (hd : Dispatches ρ m ρ' m')
    (hs : Settled [] ρ m) (hs' : Settled [] ρ' m') :
    (L.dispatch m m').Once fun i => (ρ' i).isHandled = true := by
  have hold := ho.mono fun i hi => hd.isHandled hi
  intro i
  unfold Ledger.dispatch
  dsimp only
  split
  · next hnew =>
    obtain ⟨t', hin, hout, hy⟩ := hnew
    rw [hs'.lines_iff] at hin
    rw [hs.lines_iff] at hout
    obtain hp | ⟨t, e, a, hb⟩ := hd.begins
    · exact absurd (hp.inLine_iff.1 hin) hout
    -- The thread is the new one, and so it is its event that is served.
    obtain rfl : t' = t := ((hb.line t').1 hin).resolve_right hout
    have hst := (hs'.orderly.layout.fits t').2
    rw [hb.thread] at hst
    obtain rfl : e = i := by
      have := hst.2.symm.trans hy
      cases this
      rfl
    have hzero : L.served e = 0 := by
      by_contra hne
      have hh : (ρ e).isHandled = true := (ho e).2 hne
      rw [hb.free.2.isHandled_eq_false] at hh
      cases hh
    rw [hzero]
    refine ⟨Nat.le_refl 1, fun _ => ?_⟩
    rw [(hs'.orderly.layout.coherent.thread t' e a hb.thread).1]
    rfl
  · exact hold i

theorem served_advance (L : Ledger) (H : History) (m : Machine) :
    (L.advance H m).served = L.served := by
  unfold advance
  split
  · split <;> rfl
  · rfl

end Ledger

theorem Round.once {b : Bool} {L : Ledger} (hr : Round ρ m b ρ' m') (hs : Settled [] ρ m)
    (hs' : Settled [] ρ' m') (hL : L.Once fun i => (ρ i).isHandled = true) :
    (L.tick H m).Once fun i => (ρ' i).isHandled = true ∨ ρ' i = .free := by
  cases hr with
  | rest hprep hd =>
    rw [L.tick_eq hprep]
    intro i
    rw [Ledger.served_advance]
    have ho := hL.dispatch hd hs hs' i
    exact ⟨ho.1, fun hi => .inl (ho.2 hi)⟩
  | turn hprep hd _ hturn =>
    rw [L.tick_eq hprep]
    intro i
    rw [Ledger.served_advance]
    have ho := hL.dispatch hd hs hturn.opened.settled i
    exact ⟨ho.1, fun hi => hturn.isHandled (ho.2 hi)⟩

theorem Command.Effect.once {c : Command} {L : Ledger} (he : c.Effect ρ m ρ' m')
    (hs : Settled [] ρ m) (hs' : Settled [] ρ' m') (hL : L.Once fun i => (ρ i).isHandled = true) :
    (Ledger.observer.watch H L m m' c).Once fun i => (ρ' i).isHandled = true := by
  have hpost : ∀ {i}, (ρ i).isHandled = true → ¬ Posting i (ρ i) := fun hi h => by
    simp [h.isHandled_eq_false] at hi
  have hkeep : (∀ i, (ρ i).isHandled = true → ρ' i = ρ i) →
      L.Once fun i => (ρ' i).isHandled = true ∨ ρ' i = .free := fun h =>
    hL.mono fun i hi => .inl (by rw [h i hi]; exact hi)
  refine Ledger.Once.settle ?_ hs'.orderly.layout
  cases c with
  | tick =>
    obtain ⟨b, hr⟩ := he
    exact hr.once hs hs' hL
  | send => exact hkeep fun i hi => (he.1.same (hpost hi)).1
  | newActor => exact hkeep fun i hi => (he.frame.same fun h => hpost hi (.inl h)).1
  | collect =>
    refine hkeep fun i hi => (Sweeps.rooted he hs.orderly.layout ?_).1
    cases hr : ρ i <;> rw [hr] at hi <;> first | rfl | cases hi
  | pin | attachClock | setClock =>
    obtain ⟨rfl, -⟩ := he
    exact hkeep fun _ _ => rfl

theorem Ledger.tallies_start (ht : Settled [] ρ m) (hb : ∀ i, (ρ i).isBasic = true)
    (hs : m.stats = {}) :
    ({} : Ledger).Tallies m := by
  obtain ⟨q, hq, hmq⟩ := ht.orderly.layout.queue
  obtain ⟨l, hl, hml⟩ := ht.orderly.layout.line
  have hq0 : q = [] := List.eq_nil_iff_forall_not_mem.2 fun i hi => by
    have := hb i
    rw [(hmq i).1 hi] at this
    cases this
  have hl0 : l = [] := List.eq_nil_iff_forall_not_mem.2 fun i hi => by
    have hline := (hml i).1 hi
    have hbasic := hb i
    cases hr : ρ i with
    | thread | spent =>
      rw [hr] at hbasic
      cases hbasic
    | _ =>
      rw [hr] at hline
      cases hline
  refine ⟨⟨q, hq, ?_⟩, l, hl, ?_⟩
  · rw [hs, hq0]
    rfl
  · rw [hs, hl0]
    rfl

/-- Every message that has come in was dispatched or dropped or is on its way; a transaction that
has begun has ended or has a thread in line; and no event is given a thread twice. -/
theorem Observed.conserves {L : Ledger} (hr : Observed Ledger.observer config m H L)
    (hc : config.strategy ≠ .incremental) :
    ∃ q l, m.Waiting q ∧ m.Lined l ∧
      L.posted + m.stats.clockEvents + L.published = m.stats.dispatched + m.stats.dropped +
        q.length ∧
      m.stats.dispatched = m.stats.commits + m.stats.aborts + m.stats.releases + m.stats.stops +
        l.length ∧
      (∀ e, L.served e ≤ 1) ∧
      (m.pendingEvents =
        if q.length ≤ m.heap.sanity then .ok (q.map .ref) else .error (.runaway "queue walk")) ∧
      m.pendingThreads =
        if l.length ≤ m.heap.sanity then .ok (l.map .ref) else .error (.runaway "queue walk") := by
  obtain ⟨ρ, ht, -, ⟨⟨q, hq, hevents⟩, l, hl, hthreads⟩, honce⟩ :=
    hr.invariant (P := fun ρ m L => L.Tallies m ∧ L.Once fun i => (ρ i).isHandled = true) hc
      (fun ρ m ht hb hs => ⟨Ledger.tallies_start ht.settled hb hs, fun i =>
        ⟨Nat.zero_le 1, fun h => absurd rfl h⟩⟩)
      fun ρ m ρ' m' H L c ht ht' hH he hL =>
        ⟨he.tallies ht.settled hH hL.1, he.once ht.settled ht'.settled hL.2⟩
  have hlay := ht.settled.orderly.layout
  refine ⟨q, l, hq, hl, hevents, hthreads, fun e => (honce e).1, hq.toList fun i hi => ?_,
    hl.toList fun i hi => ?_⟩
  · refine (hlay.bounds ?_).2
    rw [(hlay.mem_waiting hq).1 hi]
    simp
  · refine (hlay.bounds fun h => ?_).2
    have := (hlay.mem_lined hl).1 hi
    rw [h] at this
    cases this

theorem Observed.conserves_released : ∃ m H L,
    Observed Ledger.observer { heapCapacity := 80, topMargin := 8 } m H L ∧
    m.pendingEvents = .ok [.ref 23] ∧
    m.stats.dropped = 1 ∧ L.posted + L.published = 4 ∧ ∀ e, L.served e ≤ 1 := by
  -- One actor is released while two messages are on their way to it. The other one sends itself a
  -- message, and its transaction is committed.
  have hplay : (play { heapCapacity := 80, topMargin := 8 } [.block [.finish .release],
      .block [.push (.fix 7), .my .self, .send 0, .finish .commit], .actor (.ref 17) []]
      [.newActor (.ref 13) .nil, .send (.cap 19) .nil, .send (.cap 19) .nil, .send (.cap 18) .nil,
        .tick, .tick, .tick, .tick, .tick]).any (fun m =>
        decide (m.heap.Chain .z m.events.head [23] ∧
        m.heap.sanity = 80 ∧ m.stats.clockEvents = 0 ∧ m.stats.dispatched = 2 ∧
        m.stats.dropped = 1)) = true := by
    decide +kernel
  obtain ⟨m, hm, hfacts⟩ := (Option.any_eq_true _ _).1 hplay
  obtain ⟨hchain, hsanity, hclock, hdisp, hdrop⟩ := of_decide_eq_true hfacts
  obtain ⟨H, L, hL⟩ := (Running.of_play hm).observed Ledger.observer
  obtain ⟨q, l, hq, -, hcount, -, honce, hevents, -⟩ := hL.conserves (by decide)
  obtain rfl : q = [23] := hq.1.unique hchain
  refine ⟨m, H, L, hL, ?_, hdrop, ?_, honce⟩
  · rw [hevents, hsanity]
    rfl
  · rw [hclock, hdisp, hdrop] at hcount
    exact hcount

end ActorMachine
