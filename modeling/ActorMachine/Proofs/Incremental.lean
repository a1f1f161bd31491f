import ActorMachine.Proofs.Conservation
import ActorMachine.Proofs.Cycle

namespace ActorMachine

open Machine

variable {ρ ρ' : Roles} {m m' m₁ m₂ : Machine} {gc : Incremental} {config : Config} {c : Command}

def Machine.overlooks (m : Machine) (n : Nat) : Bool :=
  match m.collector with
  | .markSweep _ => false
  | .incremental gc => Incremental.overlooks m.roots n ⟨gc, m.heap, []⟩

def Collector.isSweeping : Collector → Bool
  | markSweep _ => false
  | incremental gc => gc.phase = .sweep

namespace Command

/-- Does the collector overlook the head of a queue in the course of the command, or does the host
use a capability that it has given up? -/
def overlooks (m : Machine) : Command → Bool
  | tick =>
    match prepare m with
    | .ok _ m₁ => m₁.threads.head ≠ .nil && m₁.overlooks 1
    | .error .. => false
  | collect => m.overlooks (m.heap.capacity * 8 + 1024)
  | c => m.collector.isSweeping && c.words.any fun w => ¬ m.heap.Lit w

def Collects (m m₁ m₂ : Machine) : Command → Prop
  | tick => prepare m = .ok () m₁ ∧ m₁.threads.head ≠ .nil ∧ collectorStep m₁ = .ok () m₂
  | collect => m₁ = m ∧ ∃ r, Machine.collect m = .ok r m₂
  | _ => False

end Command

/-- A run in which nothing is overlooked. -/
inductive Watched (config : Config) : Machine → Prop
  | start {m m' : Machine} : Building config m → sealImage m = .ok () m' → Watched config m'
  | command {m m' : Machine} (c : Command) : Watched config m →
      (∀ w ∈ c.words, m.heap.Offers m.heap.permanent w) → c.overlooks m = false →
      c.run m = .ok () m' →
      Watched config m'
  | refused {m m' : Machine} {f : Fault} (c : Command) : Watched config m →
      (∀ w ∈ c.words, m.heap.Offers m.heap.permanent w) → c.overlooks m = false →
      c.run m = .error f m' →
      f.isFatal = false → Watched config m'

def Command.watch? (c : Command) (m : Machine) : Option Machine :=
  if c.overlooks m then none else c.next? m

def watch (config : Config) (program : List Construct) (commands : List Command) :
    Option Machine := do
  let m ← play config program []
  commands.foldlM (fun m c => c.watch? m) m

theorem Command.watch?_eq_some (hr : c.watch? m = some m') :
    c.overlooks m = false ∧ (∀ w ∈ c.words, m.heap.Offers m.heap.permanent w) ∧
    c.run m = .ok () m' := by
  unfold watch? next? at hr
  split at hr
  · cases hr
  · next ho =>
    split at hr
    · next hw =>
      obtain ⟨⟨⟩, hrun⟩ := final?_eq_some hr
      exact ⟨Bool.eq_false_iff.2 ho, hw, hrun⟩
    · cases hr

theorem Watched.foldlM {commands : List Command} (hm : Watched config m)
    (hr : commands.foldlM (fun m c => c.watch? m) m = some m') : Watched config m' := by
  refine foldlM_induction hm hr fun m c m' hm hc => ?_
  obtain ⟨ho, hw, hrun⟩ := Command.watch?_eq_some hc
  exact .command c hm hw ho hrun

theorem Watched.of_watch {program : List Construct} {commands : List Command}
    (hp : watch config program commands = some m) : Watched config m := by
  unfold watch at hp
  rw [Option.bind_eq_bind, Option.bind_eq_some_iff] at hp
  obtain ⟨m₀, hplay, hr⟩ := hp
  obtain ⟨m₁, m₂, hb, hs, hnil⟩ := Building.of_play hplay
  cases hnil
  exact (Watched.start hb hs).foldlM hr

namespace Machine

variable (hc : m.collector = .incremental gc)

include hc

theorem overlooks_eq (n : Nat) :
    m.overlooks n = Incremental.overlooks m.roots n ⟨gc, m.heap, []⟩ := by
  unfold overlooks
  rw [hc]

theorem collectorStep_after :
    collectorStep m = .ok () (m.after (Incremental.step m.roots ⟨gc, m.heap, []⟩)) := by
  unfold collectorStep
  dsimp only
  rw [collector_lendHeap, roots_lendHeap, hc]
  rfl

theorem safepoint_after : safepoint m = .ok () m := by
  rw [safepoint_eq (r := none) (t := ⟨.incremental gc, m.heap, []⟩) (by rw [hc]; rfl)]
  exact congrArg _ (after_self hc)

theorem collect_after {f : Fault} {r : Report} {t : Turn Incremental} :
    (gc.collect m.roots m.heap = (.ok r, t) → collect m = .ok r (m.after t)) ∧
      (gc.collect m.roots m.heap = (.error f, t) → collect m = .error f (m.after t)) := by
  have hcol : ∀ x, gc.collect m.roots m.heap = (x, t) →
      m.collector.collect m.roots m.heap = (x, ⟨.incremental t.collector, t.heap, t.notices⟩) := by
    intro x hx
    rw [hc, Collector.collect, hx]
  constructor <;> intro hx <;> unfold collect <;> dsimp only <;>
    rw [collector_lendHeap, roots_lendHeap, hcol _ hx] <;> rfl

end Machine

theorem Incremental.isFatal_of_stepUntil {roots : Roots} {goal n : Nat} {task : String}
    {t t' : Turn Incremental}
    {f : Fault} (hr : stepUntil roots goal ⟨n, task⟩ t = (.error f, t')) : f.isFatal = true := by
  induction n generalizing t with
  | zero =>
    unfold stepUntil at hr
    split at hr <;> cases hr
    rfl
  | succ n ih =>
    unfold stepUntil at hr
    split at hr
    · exact ih hr
    · cases hr

namespace Paced

variable {E : Machine → Prop}

variable (hp : Paced ρ m gc)

include hp

theorem at_turn : Paced ρ (m.after ⟨gc, m.heap, []⟩) gc := by
  rw [after_self hp.collector]
  exact hp

theorem ensures_collectorStep (ho : m.overlooks 1 = false) :
    Ensures collectorStep m (fun _ m' => (∃ ρ' gc', Paced ρ' m' gc' ∧ Thins ρ m.heap ρ' m'.heap) ∧
      m.heap.Preserves m.roots m'.heap ∧ m'.threads = m.threads) E := by
  rw [overlooks_eq hp.collector] at ho
  obtain ⟨hsee, -⟩ := hp.at_turn.watches_step (n := 0) (.inl ho)
  obtain ⟨ρ', hp', hkeep, hthin⟩ := hp.at_turn.step hsee
  unfold Ensures
  rw [collectorStep_after hp.collector]
  exact ⟨⟨ρ', _, hp', hthin⟩, hkeep, rfl⟩

theorem ensures_collect (ho : m.overlooks (m.heap.capacity * 8 + 1024) = false) : Ensures collect m
      (fun _ m' => (∃ ρ' gc', Paced ρ' m' gc' ∧ Thins ρ m.heap ρ' m'.heap) ∧
        m.heap.Preserves m.roots m'.heap) E := by
  have henable : m.heap.enableColors = m.heap := by
    obtain ⟨cm, hcm⟩ := Option.isSome_iff_exists.1 hp.colored
    unfold Heap.enableColors
    rw [hcm]
  unfold Ensures
  cases hr : gc.collect m.roots m.heap with
  | mk r t =>
    have hrun := hr
    unfold Incremental.collect at hrun
    rw [henable] at hrun
    cases r with
    | ok r =>
      rw [(collect_after (f := .runaway "") hp.collector).1 hr]
      rw [overlooks_eq hp.collector] at ho
      obtain ⟨ρ', hp', hkeep, hthin⟩ := hp.at_turn.stepUntil (.inl ho) hrun
      exact ⟨⟨ρ', _, hp', hthin⟩, hkeep⟩
    | error f =>
      rw [(collect_after (r := ⟨0, 0, 0⟩) hp.collector).2 hr]
      exact .inl (Incremental.isFatal_of_stepUntil hrun)

theorem ensures_execute (ho : m.threads.head = .nil ∨ m.overlooks 1 = false) :
    Ensures execute m (fun _ m' => ∃ ρ' gc', Paced ρ' m' gc') E := by
  unfold execute
  rw [ensures_thread_bind]
  by_cases hnil : m.threads.head = .nil
  · rw [hnil, if_pos rfl]
    exact ⟨ρ, gc, hp⟩
  rw [if_neg hnil]
  refine (hp.ensures_collectorStep (ho.resolve_left hnil)).bind ?_
  rintro - m₁ ⟨⟨ρ₁, gc₁, hp₁, -⟩, -, hthreads⟩
  obtain ⟨-, t, e, a, hopen⟩ := hp₁.settled.open.resolve_left (hthreads ▸ hnil)
  rw [← hthreads, hopen.head]
  refine hopen.ensures_advance.bind ?_
  rintro step m₂ ⟨ρ₂, hs₂, ha⟩
  have hp₂ := hp₁.proceeds hs₂ ha.proceeds
  cases step with
  | noThreads | continued => exact ⟨ρ₂, gc₁, hp₂⟩
  | retired en =>
    refine Ensures.bind (Q := fun _ m' => m₂ = m') ?_ ?_
    · unfold Ensures
      rw [safepoint_after hp₂.collector]
    · rintro - m' rfl
      exact ⟨ρ₂, gc₁, hp₂⟩

theorem ensures_tick (ho : Command.tick.overlooks m = false) :
    Ensures tick m (fun _ m' => ∃ ρ' gc', Paced ρ' m' gc') E := by
  unfold tick
  refine hp.settled.ensures_prepare.result.bind ?_
  rintro ⟨⟩ m₁ ⟨hprep, ρ₁, hs₁, hd⟩
  have ho₁ : m₁.threads.head = .nil ∨ m₁.overlooks 1 = false := by
    simpa [Command.overlooks, hprep, Classical.or_iff_not_imp_left] using ho
  refine ((hp.proceeds hs₁ (hd.proceeds hs₁.orderly.layout)).ensures_execute ho₁).bind ?_
  rintro step m' hp'
  cases step <;> exact hp'

theorem safe {w : Word} (ho : gc.phase = .sweep → m.heap.Lit w)
    (hw : m.heap.Offers m.heap.permanent w) : Safe ρ w := by
  have hl := hp.settled.orderly.layout
  refine hl.safe_offer ?_ (.inl (Nat.le_refl _)) hw
  by_cases hsweep : gc.phase = .sweep
  · obtain ⟨cm, hcm⟩ := Option.isSome_iff_exists.1 hp.colored
    have havoid : ∀ i, w = .ref i ∨ w = .cap i → ρ i ≠ .condemned := by
      intro i hi hc
      have hshuns := hp.settled.orderly.shuns
      exact ho hsweep cm hcm i (hshuns.reserved_le i hc) hi (hshuns.color cm hcm i hc)
    cases w with
    | fixnum n => trivial
    | ref i => exact havoid i (.inl rfl)
    | cap i => exact havoid i (.inr rfl)
  · exact w.avoids_of_none (hp.clean hsweep)

theorem pin {w : Word} (hw : Safe ρ w) :
    Paced ρ { m with heap := m.heap.shade w, pinned := m.pinned.push w } gc := by
  have ht := hp.settled.orderly.sound.tints_shade w
  obtain ⟨cm, hcm⟩ := Option.isSome_iff_exists.1 hp.colored
  obtain ⟨cm', hcm', -⟩ := ht.fades.some cm hcm
  refine ⟨⟨hp.settled.orderly.pin hw, hp.settled.brief⟩, hp.collector,
    Option.isSome_iff_exists.2 ⟨cm', hcm'⟩, fun v hv =>
    Array.mem_push_of_mem _ (hp.clock v hv), hp.clean, fun h i hi =>
    ht.fades.lit (hp.reached h i hi), fun h v hv => ?_, fun h i h1 h2 h3 =>
    ht.fades.lit (hp.permanent h i h1 (ht.permanent ▸ h2) h3), fun h => ?_⟩
  · obtain hv | rfl := Array.mem_push.1 hv
    · exact ht.fades.lit (hp.pinned h v hv)
    · exact hp.settled.orderly.sound.lit_shade v
  · change 256 + ((m.heap.shade w).permanent - _) ≤ _
    rw [ht.permanent]
    exact hp.complete h

theorem withClock {clock : Option Clock}
    (hc : ∀ w ∈ clock.map Clock.handler, w ∈ m.pinned) : Paced ρ { m with clock } gc :=
  ⟨⟨hp.settled.orderly.withClock hc, hp.settled.brief⟩, hp.collector, hp.colored, hc, hp.clean,
    hp.reached, hp.pinned, hp.permanent, hp.complete⟩

theorem isSweeping (hsweep : gc.phase = .sweep) : m.collector.isSweeping = true := by
  rw [hp.collector]
  exact decide_eq_true hsweep

end Paced

theorem Command.lit_of_not_overlooks {w : Word} (ho : c.overlooks m = false)
    (hs : m.collector.isSweeping = true) (hw : w ∈ c.words) : m.heap.Lit w := by
  have hlit : (c.words.any fun w => ¬ m.heap.Lit w) = false → m.heap.Lit w := by
    intro h
    simpa using List.any_eq_false.1 h w hw
  cases c with
  | tick | collect => simp [Command.words] at hw
  | _ => exact hlit (by simpa [Command.overlooks, hs] using ho)

namespace Paced

theorem ensures_command (hp : Paced ρ m gc) (hw : ∀ w ∈ c.words, m.heap.Offers m.heap.permanent w)
    (ho : c.overlooks m = false) :
    Ensures c.run m (fun _ m' => ∃ ρ' gc', Paced ρ' m' gc') (m = ·) := by
  have hsafe : ∀ w ∈ c.words, Safe ρ w := fun w hm =>
    hp.safe (fun hsweep => Command.lit_of_not_overlooks ho (hp.isSweeping hsweep) hm) (hw w hm)
  cases c with
  | newActor beh state =>
    refine Ensures.bind (hp.settled.ensures_newActor (hsafe beh (by simp [Command.words]))
      (hsafe state (by simp [Command.words]))) ?_
    rintro w m' ⟨ρ', hs', hb, -⟩
    exact ⟨ρ', gc, hp.proceeds hs' (Builds.proceeds hb)⟩
  | send target message =>
    refine (hp.settled.ensures_send (hsafe target (by simp [Command.words]))
      (hsafe message (by simp [Command.words]))).imp ?_
    rintro - m' ⟨ρ', hs', hpost, -⟩
    exact ⟨ρ', gc, hp.proceeds hs' hpost.proceeds⟩
  | tick => exact Ensures.bind (hp.ensures_tick ho) fun _ _ h => h
  | collect =>
    refine Ensures.bind (hp.ensures_collect ho) ?_
    rintro - m' ⟨⟨ρ', gc', hp', -⟩, -⟩
    exact ⟨ρ', gc', hp'⟩
  | pin w => exact ⟨ρ, gc, hp.pin (hsafe w List.mem_cons_self)⟩
  | attachClock now handler =>
    exact ensures_attachClock
      ⟨ρ, gc, (hp.pin (hsafe handler List.mem_cons_self)).withClock (by simp [Clock.start])⟩
  | setClock now => exact ⟨ρ, gc, hp.withClock (handler_pinned hp.clock now)⟩

end Paced

theorem Building.paced (hb : Building config m) (hr : sealImage m = .ok () m')
    (hc : config.strategy = .incremental) : ∃ ρ gc, Paced ρ m' gc ∧ ∀ i, (ρ i).isBasic = true := by
  obtain ⟨m₀, ρ, hm₀, hbuilt, hst, hf, -⟩ := hb.built
  obtain ⟨hb', hcol, hst', -⟩ := (hbuilt.ensures_seal (E := fun _ => True)).ok hr
  obtain ⟨hgc, hclock, -⟩ := new_eq hm₀
  have hgc₀ : m₀.collector = .incremental (.ofConfig config) := by
    rw [hgc, Collector.ofConfig, hc]
  obtain ⟨hcolored, hlit⟩ := lit_new hm₀ (by rw [hgc₀]; rfl)
  have hgc' : m'.collector = .incremental (.ofConfig config) := by
    rw [hst'.collector, hst.collector, hgc₀]
  obtain ⟨cm, hcm⟩ := Option.isSome_iff_exists.1 hcolored
  obtain ⟨cm', hcm', -⟩ := hf.some cm hcm
  have hself := after_self hgc'
  rw [← hself]
  refine ⟨_, _, .of_not_marking (hself ▸ hb'.settled) ?_ ?_ rfl (fun _ => hb'.ne_condemned)
    fun i _ => ?_, hb'.basic⟩
  · change m'.heap.colors.isSome = true
    rw [hcol, hcm']
    rfl
  · rw [hst'.handler, hst.handler, hclock]
    simp
  · change m'.heap.Lit (.ref i)
    intro cm hcm
    rw [hcol] at hcm
    exact hf.lit (hlit i) cm hcm

theorem Watched.paced (hr : Watched config m) (hc : config.strategy = .incremental) :
    ∃ ρ gc, Paced ρ m gc := by
  induction hr with
  | start hb hs =>
    obtain ⟨ρ, gc, hp, -⟩ := hb.paced hs hc
    exact ⟨ρ, gc, hp⟩
  | command c _ hw ho hrun ih =>
    obtain ⟨ρ, gc, hp⟩ := ih
    exact (hp.ensures_command hw ho).ok hrun
  | refused c _ hw ho hrun hf ih =>
    obtain ⟨ρ, gc, hp⟩ := ih
    exact (hp.ensures_command hw ho).error hrun hf ▸ ⟨ρ, gc, hp⟩

def Machine.Continues (m : Machine) (t : Nat) : Prop :=
  ∃ ip e a, (m.heap.cellAt t).t = .ref ip ∧ (m.heap.cellAt ip).t ≠ .freeT ∧
  (m.heap.cellAt t).y = .ref e ∧
    (m.heap.cellAt e).t = .eventT ∧ (m.heap.cellAt e).x = .cap a ∧ (m.heap.cellAt a).t = .actorT

namespace Settled

variable (hs : Settled [] ρ m)

include hs

theorem inUse_of_refers {j : Nat} (hj : m.Refers j) :
    j < m.heap.top ∧ (m.heap.cellAt j).t ≠ .freeT := by
  have hl := hs.orderly.layout
  refine hl.inUse_of_sturdy ?_
  obtain hj | ⟨i, hi, hj⟩ := hj
  · exact hs.sturdy_roots hj
  · exact hl.sturdy (hs.isLive_of_reach hi) (hs.not_brief i) _ hj

theorem continues {l : List Nat} {t : Nat} (hl : m.Lined l) (ht : t ∈ l) : m.Continues t := by
  have hlay := hs.orderly.layout
  obtain ⟨e, a, hrole⟩ := hs.thread_of_line hl.1 ht
  obtain ⟨he, ha⟩ := hlay.coherent.thread t e a hrole
  have hst := (hlay.fits t).2
  have hse := (hlay.fits e).2
  have hsa := (hlay.fits a).2
  rw [hrole] at hst
  rw [he] at hse
  rw [ha] at hsa
  obtain ⟨⟨ip, hip, hdata⟩, hy⟩ := hst
  exact ⟨ip, e, a, hip, (hlay.inUse (by rw [hdata]; rfl)).2.2, hy, hse.1, hse.2.1, hsa.1⟩

end Settled

theorem Command.Collects.preserves (hcol : c.Collects m m₁ m₂) (hp : Paced ρ m gc)
    (ho : c.overlooks m = false) : m₁.heap.Preserves m₁.roots m₂.heap := by
  cases c with
  | tick =>
    obtain ⟨hprep, hne, hstep⟩ := hcol
    obtain ⟨ρ₁, hs₁, hd⟩ := (hp.settled.ensures_prepare (E := fun _ => True)).ok hprep
    have ho₁ : m₁.overlooks 1 = false := by simpa [Command.overlooks, hprep, hne] using ho
    have hp₁ := hp.proceeds hs₁ (hd.proceeds hs₁.orderly.layout)
    exact ((hp₁.ensures_collectorStep (E := fun _ => True) ho₁).ok hstep).2.1
  | collect =>
    obtain ⟨rfl, r, hrun⟩ := hcol
    exact ((hp.ensures_collect (E := fun _ => True) ho).ok hrun).2
  | _ => exact hcol.elim

/-- As long as nothing is overlooked, every reference that can be found leads to a cell in use, what
waits in the queues is in order, and no cell that can be found is changed by the collector. -/
theorem Watched.keeps_reachable (hr : Watched config m) (hc : config.strategy = .incremental) :
    (∀ j, m.Refers j → j < m.heap.top ∧ (m.heap.cellAt j).t ≠ .freeT) ∧
      (∃ q, m.Waiting q ∧ (∀ i ∈ q, (m.heap.cellAt i).t = .eventT ∧
        (m.heap.cellAt i).x.isCap = true) ∧
        m.pendingEvents =
          if q.length ≤ m.heap.sanity then .ok (q.map .ref) else .error (.runaway "queue walk")) ∧
      (∃ l, m.Lined l ∧ (∀ t ∈ l, m.Continues t) ∧
        m.pendingThreads =
          if l.length ≤ m.heap.sanity then .ok (l.map .ref) else .error (.runaway "queue walk")) ∧
      ∀ (c : Command) m₁ m₂, c.overlooks m = false → c.Collects m m₁ m₂ →
        ∀ i, m₁.heap.Reach m₁.roots i → m₂.heap.cellAt i = m₁.heap.cellAt i := by
  obtain ⟨ρ, gc, hp⟩ := hr.paced hc
  have hs := hp.settled
  have hl := hs.orderly.layout
  obtain ⟨q, hq, hmq⟩ := hl.queue
  obtain ⟨l, hline, -⟩ := hl.line
  refine ⟨fun j => hs.inUse_of_refers, ⟨q, hq, fun i hi => ?_, hq.toList fun i hi => ?_⟩,
    ⟨l, hline, fun t => hs.continues hline, hline.toList fun i hi => ?_⟩,
    fun c m₁ m₂ ho hcol => (hcol.preserves hp ho).cell⟩
  · have hsuit := (hl.fits i).2
    rw [(hmq i).1 hi] at hsuit
    exact ⟨hsuit.1, hsuit.2.1⟩
  · exact (hl.bounds (by rw [(hmq i).1 hi]; simp)).2
  · obtain ⟨e, a, hrole⟩ := hs.thread_of_line hline.1 hi
    exact (hl.bounds (by rw [hrole]; simp)).2

theorem Watched.keeps_reachable_requeued : ∃ m,
    Watched { heapCapacity := 80, strategy := .incremental, stride := 1000 } m ∧
      (m.heap.cellAt 16).t = .freeT ∧ ¬ m.Refers 16 ∧ m.pendingEvents = .ok [.ref 18] ∧
      (m.heap.cellAt 18).t = .eventT := by
  -- An actor that nobody knows was reclaimed, and one of three messages for another actor is still
  -- waiting.
  have hwatch : (watch { heapCapacity := 80, strategy := .incremental, stride := 1000 }
      [.block [.push (.fix 7), .finish .commit], .actor (.ref 14) []]
      [.newActor (.ref 14) .nil, .send (.cap 15) .nil, .send (.cap 15) .nil,
        .send (.cap 15) .nil, .tick, .tick, .tick, .tick]).any (fun m =>
        decide ((m.heap.cellAt 16).t = .freeT ∧
        m.heap.Chain .z m.events.head [18] ∧ m.heap.sanity = 80)) = true := by decide +kernel
  obtain ⟨m, hm, hfacts⟩ := (Option.any_eq_true _ _).1 hwatch
  obtain ⟨hfree, hchain, hsanity⟩ := of_decide_eq_true hfacts
  have hr := Watched.of_watch hm
  obtain ⟨hrefers, ⟨q, hq, hevents, hpending⟩, -⟩ := hr.keeps_reachable rfl
  obtain rfl : q = [18] := hq.1.unique hchain
  refine ⟨m, hr, hfree, fun h => (hrefers 16 h).2 hfree, ?_, (hevents 18 List.mem_cons_self).1⟩
  rw [hpending, hsanity]
  rfl

theorem Running.loses_overlooked :
    (∃ m, Running { heapCapacity := 80, strategy := .incremental, stride := 1000 } m ∧
      m.events.head = .ref 19 ∧ (m.heap.cellAt 19).t = .freeT) ∧
    ∃ m, Running { heapCapacity := 80, strategy := .incremental, stride := 1000 } m ∧ m.Refers 23 ∧
      (m.heap.cellAt 23).t = .freeT := by
  -- Neither of the two may happen. Five messages are sent to one actor, and after four rounds the
  -- last of them, which is the first one in the queue then, was reclaimed. An actor that only the
  -- host knows has become another one, and is sent a message after the scan: its state was
  -- reclaimed.
  constructor
  · have hplay : (play { heapCapacity := 80, strategy := .incremental, stride := 1000 }
        [.block [.finish .commit], .actor (.ref 13) []]
        [.send (.cap 14) (.fix 1), .send (.cap 14) (.fix 2), .send (.cap 14) (.fix 3),
          .send (.cap 14) (.fix 4), .send (.cap 14) (.fix 5), .tick, .tick, .tick, .tick]).any
        (fun m => decide (m.events.head = .ref 19 ∧
          (m.heap.cellAt 19).t = .freeT)) = true := by decide +kernel
    obtain ⟨m, hm, hfacts⟩ := (Option.any_eq_true _ _).1 hplay
    exact ⟨m, Running.of_play hm, of_decide_eq_true hfacts⟩
  · have hplay : (play { heapCapacity := 80, strategy := .incremental, stride := 1000 }
        [.block [.drop 0, .finish .commit],
          .block [.push (.fix 7), .push (.ref 14), .beh 1, .finish .commit], .actor (.ref 13) []]
        [.newActor (.ref 18) .nil, .send (.cap 20) .nil, .tick, .tick, .tick, .tick,
          .send (.cap 19) .nil, .send (.cap 19) .nil, .send (.cap 19) .nil, .tick, .tick, .tick,
          .send (.cap 20) .nil, .tick]).any
        (fun m => decide (m.threads.head = .ref 21 ∧ m.heap.Leads (.ref 21) 21 ∧
          (m.heap.cellAt 21).y = .ref 25 ∧ m.heap.Leads (.ref 25) 25 ∧
          (m.heap.cellAt 25).x = .cap 20 ∧
          m.heap.Leads (.cap 20) 20 ∧ (m.heap.cellAt 20).y = .ref 23 ∧
          (m.heap.cellAt 23).t = .freeT)) = true := by decide +kernel
    obtain ⟨m, hm, hfacts⟩ := (Option.any_eq_true _ _).1 hplay
    obtain ⟨hhead, ht, hy, he, hx, ha, hstate, hfree⟩ := of_decide_eq_true hfacts
    have hthread : m.heap.Reach m.roots 21 :=
      .root (Machine.mem_roots.2 (.inr (.inr (.inl hhead.symm)))) ht
    have hevent : m.heap.Reach m.roots 25 := .field hthread (hy ▸ Cell.get_mem_words _ .y) he
    have hactor : m.heap.Reach m.roots 20 := .field hevent (hx ▸ Cell.get_mem_words _ .x) ha
    exact ⟨m, Running.of_play hm, .inr ⟨20, hactor, hstate ▸ Cell.get_mem_words _ .y⟩, hfree⟩

end ActorMachine
