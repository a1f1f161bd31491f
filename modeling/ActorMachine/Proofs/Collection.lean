import ActorMachine.Proofs.Advance
import ActorMachine.Proofs.CondemnedCells
import ActorMachine.Proofs.MarkSweep

namespace ActorMachine

open Machine

variable {ρ ρ' ρ'' : Roles} {h : Heap} {m m' m'' : Machine} {events threads : Queue} {roots : Roots}
  {N : Nat → Prop} {i : Nat}

/-- Cells in use that are not retained are freed. -/
noncomputable def Roles.sweep (ρ : Roles) (N : Nat → Prop) : Roles := fun i =>
  if ρ.condemn N i = .condemned then .free else ρ.condemn N i

namespace Roles

theorem sweep_ne_condemned : ρ.sweep N i ≠ .condemned := by
  unfold sweep
  split
  · simp
  · next h => exact h

theorem sweep_eq {r : Role} (hr : r ≠ .free) (hc : r ≠ .condemned) :
    ρ.sweep N i = r ↔ ρ.condemn N i = r := by
  unfold sweep
  split
  · next h =>
    rw [h]
    exact iff_of_false hr.symm hc.symm
  · rfl

theorem grows_sweep : Grows (ρ.condemn N) (ρ.sweep N) :=
  ⟨fun _ => (sweep_eq (by simp) (by simp)).2, fun _ hi => absurd hi sweep_ne_condemned⟩

theorem isBrief_condemn (hb : (ρ.condemn N i).isBrief = true) : (ρ i).isBrief = true := by
  cases hr : ρ.condemn N i with
  | held | spent | transit =>
    rw [((condemn_eq rfl (by simp) (by simp) (by simp)).1 hr).1]
    rfl
  | _ =>
    rw [hr] at hb
    cases hb

theorem isBrief_sweep (hb : (ρ.sweep N i).isBrief = true) : (ρ i).isBrief = true := by
  unfold sweep at hb
  split at hb
  · cases hb
  · exact isBrief_condemn hb

theorem isActor_sweep (ha : (ρ.sweep N i).isActor = true) : ρ.sweep N i = ρ i ∧ N i := by
  cases hr : ρ.sweep N i with
  | idle | busy | stopped | transit =>
    have hi := (sweep_eq (by simp) (by simp)).1 hr
    obtain ⟨hρ, hn⟩ := (condemn_eq rfl (by simp) (by simp) (by simp)).1 hi
    exact ⟨hρ.symm, hn⟩
  | _ =>
    rw [hr] at ha
    cases ha

end Roles

theorem Thins.sweep {h' : Heap} (hc : ∀ i, (ρ i).inUse = true ∧ ρ.condemn N i ≠ .condemned →
    h'.cellAt i = h.cellAt i) :
    Thins ρ h (ρ.sweep N) h' := by
  intro i hu hn
  have hcon : ρ.condemn N i ≠ .condemned := by
    intro hi
    simp [Roles.sweep, hi, Role.inUse] at hu
  have hsweep : ρ.sweep N i = ρ.condemn N i := if_neg hcon
  rw [hsweep] at hu ⊢
  obtain ⟨-, hr⟩ := Thins.condemn (h := h) i hu hcon
  refine ⟨hc i ⟨?_, hcon⟩, hr⟩
  obtain hr | ⟨-, b, hr⟩ := hr
  · exact hr ▸ hu
  · rw [hr]
    rfl

theorem Layout.markAndSweep (hl : Layout ρ h events threads) (hc : ∀ i, ρ i ≠ .condemned)
    (hcol : h.colors = none) (he : events.head ∈ roots.words) (ht : threads.head ∈ roots.words)
    (gc : MarkSweep) (dump : Bool) :
    Layout (ρ.sweep (h.Reach roots)) (gc.markAndSweep roots dump h).2.heap events threads := by
  obtain ⟨l, hf⟩ := hl.sound.allocator
  have hcon := hl.condemn Heap.retains_reach he ht hc
  have hs := MarkSweep.swept_markAndSweep gc roots dump hf
  have hmem := fun i => MarkSweep.mem_dead (i := i) gc roots dump hf
  have hkept := fun i => MarkSweep.kept_markAndSweep (i := i) gc roots dump hf
  have hnone := MarkSweep.colors_markAndSweep gc roots dump hcol
  refine hcon.loose ⟨⟨_, MarkSweep.freeList_markAndSweep gc roots dump hf⟩,
    fun m hm => ?_⟩ hs.permanent
    (Nat.le_of_eq hs.top.symm) Roles.grows_sweep fun i => ?_
  · rw [hnone] at hm
    cases hm
  have hfit := hcon.fits i
  by_cases hdead : h.permanent ≤ i ∧ i < h.top ∧ ¬ h.Reach roots i
  · -- What is swept was free already, or condemned.
    have hrole : ρ.condemn (h.Reach roots) i = .free ∨
        ρ.condemn (h.Reach roots) i = .condemned := by
      by_cases hu : (ρ i).inUse = true
      · exact .inr ((hl.condemned_iff Heap.retains_reach (hc i)).2 ⟨hu, hdead.2.2⟩)
      · have hplace := (hl.fits i).1
        have := hl.reserved_le_permanent
        cases hr : ρ i with
        | free => exact .inl (by simp [Roles.condemn, hr])
        | outside | lost =>
          rw [hr] at hplace
          simp only [Placed] at hplace
          omega
        | _ => exact absurd (by rw [hr]; rfl) hu
    have hfree : ρ.sweep (h.Reach roots) i = .free := by
      unfold Roles.sweep
      split
      · rfl
      · next hne => exact hrole.resolve_right hne
    refine .inr ⟨?_, by rw [hfree]; rfl, ?_, ?_⟩
    · obtain hr | hr := hrole <;> rw [hr] <;> rfl
    · exact Nat.le_trans hl.reserved_le_permanent hdead.1
    · rw [hfree]
      refine ⟨⟨?_, ?_⟩, hs.freed i ((hmem i).2 hdead)⟩
      · rw [hs.permanent]
        exact hdead.1
      · rw [hs.top]
        exact hdead.2.1
  · have hin : i < h.permanent ∨ h.top ≤ i ∨ h.Reach roots i := by
      by_cases hr : h.Reach roots i
      · exact .inr (.inr hr)
      · by_cases h1 : i < h.permanent
        · exact .inl h1
        · by_cases h2 : h.top ≤ i
          · exact .inr (.inl h2)
          · exact absurd ⟨by omega, by omega, hr⟩ hdead
    refine .inl ⟨⟨?_, hkept i hin⟩, fun ho => ?_⟩
    · unfold Roles.sweep
      rw [if_neg fun hr => ?_]
      rw [hr] at hfit
      refine hdead ⟨hfit.1.1, hfit.1.2, ?_⟩
      exact ((hl.condemned_iff Heap.retains_reach (hc i)).1 hr).2
    · rw [hs.top]
      exact hcon.outside_iff.1 ho

namespace Machine

theorem mem_roots {w : Word} : w ∈ m.roots.words ↔ w ∈ m.symbols.buckets.toList ∨
    w = m.events.head ∨
    w = m.threads.head ∨ w ∈ m.pinned.toList := by
  simp [Roots.words, Roots.direct, roots]

theorem mem_roots_of_kept {w : Word} (hc : ∀ w ∈ m.clock.map Clock.handler, w ∈ m.pinned)
    (hw : w ∈ m.kept) :
    w ∈ m.roots.words := by
  -- What the machine keeps outside its heap is among the roots, since the clock's handler is
  -- pinned.
  simp only [kept, List.mem_append, Option.mem_toList] at hw
  have hclock := hc w
  rw [mem_roots]
  grind

theorem roots_lendHeap (m : Machine) : m.lendHeap.roots = m.roots := rfl

theorem collector_lendHeap (m : Machine) : m.lendHeap.collector = m.collector := rfl

theorem collect_eq {r : Report} {t : Turn Collector}
    (hc : m.collector.collect m.roots m.heap = (.ok r, t)) : collect m = .ok r (m.resume t) := by
  unfold collect
  dsimp only
  rw [collector_lendHeap, roots_lendHeap, hc]
  rfl

theorem safepoint_eq {r : Option Report} {t : Turn Collector}
    (hc : m.collector.safepoint m.roots m.heap = (r, t)) :
    safepoint m = .ok () (r.elim (m.resume t) fun r =>
      { m.resume t with log := (m.resume t).log.push (.safepoint r) }) := by
  unfold safepoint
  dsimp only
  rw [collector_lendHeap, roots_lendHeap, hc]
  cases r <;> rfl

theorem collectorStep_eq {gc : MarkSweep} (hc : m.collector = .markSweep gc) :
    collectorStep m = .ok () m := by
  obtain ⟨config, heap, events, threads, symbols, pinned, collector, console, clock, trace,
    stats, log⟩ := m
  cases hc
  simp [collectorStep, lendHeap, resume, Collector.step]

end Machine

/-- What is not retained was freed, if there was a collection. All else is as it was. -/
structure Sweeps (ρ : Roles) (m : Machine) (ρ' : Roles) (m' : Machine) : Prop where
  events : m'.events = m.events
  threads : m'.threads = m.threads
  stats : m'.stats = m.stats
  top : m'.heap.top = m.heap.top
  sanity : m'.heap.sanity = m.heap.sanity
  free : ∀ i, ρ i = .free → ρ' i = .free
  freed : ∀ i, (m.heap.cellAt i).t = .freeT → (m'.heap.cellAt i).t = .freeT
  thins : Thins ρ m.heap ρ' m'.heap
  retained : ∃ N, m.heap.Retains m.roots N ∧ (∀ i, N i → m'.heap.cellAt i = m.heap.cellAt i) ∧
    (∀ i, N i → (∀ b, ρ i = .pending b → N b) → ρ' i = ρ i) ∧
    ∀ i, ((ρ' i).isActor = true → ρ' i = ρ i ∧ N i) ∧ ∀ b, ρ' i = .pending b → ρ i = .pending b

namespace Sweeps

theorem refl : Sweeps ρ m ρ m :=
  ⟨rfl, rfl, rfl, rfl, rfl, fun _ h => h, fun _ h => h, .of_cells fun _ => rfl, fun _ => True,
    ⟨fun _ _ _ _ => trivial, fun _ _ _ _ => trivial, fun _ _ _ _ _ _ => trivial⟩, fun _ _ => rfl,
    fun _ _ _ => rfl,
    fun _ => ⟨fun _ => ⟨rfl, trivial⟩, fun _ h => h⟩⟩

variable (hs : Sweeps ρ m ρ' m')

include hs

theorem quiet (hq : Quiet m' m'') : Sweeps ρ m ρ' m'' := by
  obtain ⟨h1, h2, h3, h4, h5, h6, h7, h8, N, hN, hcells, hroles⟩ := hs
  refine ⟨hq.events.trans h1, hq.threads.trans h2, hq.stats.trans h3, ?_, ?_, h6, ?_, ?_, N, hN,
    fun i hi => ?_, hroles⟩
  · rw [hq.heap, h4]
  · rw [hq.heap, h5]
  · rw [hq.heap]
    exact h7
  · rw [hq.heap]
    exact h8
  · rw [hq.heap, hcells i hi]

variable (hl : m.Arranged ρ)

include hl

theorem undisturbed {a : Nat} (ha : (ρ' a).isActor = true) : Undisturbed a ρ m ρ' m' := by
  obtain ⟨N, hN, hcells, hroles, hrest⟩ := hs.retained
  obtain ⟨hrole, hn⟩ := (hrest a).1 ha
  have hmember : ∀ i, ρ i = .pending a → N i := fun i hi => hl.retains_member hN (k := .sends) hn hi
  refine ⟨⟨hrole, hcells a hn⟩, fun i => ⟨(hrest i).2 a, fun hi => ?_⟩, fun i hi =>
    hcells i (hmember i hi)⟩
  refine (hroles i (hmember i hi) fun b hb => ?_).trans hi
  rw [hi] at hb
  cases hb
  exact hn

theorem rooted (hi : (ρ i).isRooted = true) : Same ρ ρ' m.heap m'.heap i := by
  obtain ⟨N, hN, hcells, hroles, -⟩ := hs.retained
  have hn := hl.retains_rooted hN (mem_roots.2 (.inr (.inr (.inl rfl))))
    (mem_roots.2 (.inr (.inl rfl))) hi
  refine ⟨hroles i hn fun b hb => ?_, hcells i hn⟩
  rw [hb] at hi
  cases hi

theorem waiting {q : List Nat} (hq : m.Waiting q) : m'.Waiting q := by
  unfold Waiting
  rw [hs.events]
  refine hq.congr fun i hi => ?_
  rw [(hs.rooted hl (by rw [(hl.mem_waiting hq).1 hi]; rfl)).2]

theorem balances : Balances 0 m m' := by
  refine .of_eq (fun q => hs.waiting hl) (fun l hq => ?_) hs.stats
  unfold Lined
  rw [hs.threads]
  refine hq.congr fun i hi => ?_
  have hr := (hl.mem_lined hq).1 hi
  rw [(hs.rooted hl ?_).2]
  cases hρ : ρ i <;> rw [hρ] at hr <;> first | rfl | cases hr

end Sweeps

/-- Between rounds, with a collector that works in between only. -/
structure Tidy (ρ : Roles) (m : Machine) : Prop where
  settled : Settled [] ρ m
  clean : ∀ i, ρ i ≠ .condemned
  colors : m.heap.colors = none
  collector : ∃ gc, m.collector = .markSweep gc
  clock : ∀ w ∈ m.clock.map Clock.handler, w ∈ m.pinned

theorem Sweeps.actor {a : Nat} (hs : Sweeps ρ m ρ' m') (hl : m.Arranged ρ)
    (ht' : Tidy ρ' m') (ha : m'.heap.isActor (.cap a) = true) :
    m.heap.isActor (.cap a) = true ∧ (ρ' a).isActor = true ∧
    m'.heap.cellAt a = m.heap.cellAt a := by
  have hrole := (ht'.settled.orderly.layout.isActor_cap_iff (ht'.clean a)).1 ha
  obtain ⟨hsame, hcell⟩ := (hs.undisturbed hl hrole).actor
  refine ⟨(hl.isActor_cap_iff ?_).2 ?_, hrole, hcell⟩ <;> rw [← hsame]
  · exact ht'.clean a
  · exact hrole

namespace Tidy

theorem proceeds (ht : Tidy ρ m) (hs : Settled [] ρ' m') (hp : Proceeds ρ m ρ' m') :
    Tidy ρ' m' := by
  refine ⟨hs, fun i hi => ht.clean i (hp.frame.grows.condemned i hi), hp.frame.fades.none ht.colors,
    ?_, ?_⟩
  · rw [hp.steady.collector]
    exact ht.collector
  · rw [hp.steady.handler, hp.steady.pinned]
    exact ht.clock

theorem markAndSweep (ht : Tidy ρ m) (gc gc' : MarkSweep) (dump : Bool) (notices : List Notice) :
    ∃ ρ',
      Tidy ρ' (m.resume ⟨.markSweep gc', (gc.markAndSweep m.roots dump m.heap).2.heap, notices⟩) ∧
      Sweeps ρ m ρ' (m.resume ⟨.markSweep gc', (gc.markAndSweep m.roots dump m.heap).2.heap,
        notices⟩) := by
  have hl := ht.settled.orderly.layout
  have hlay := hl.markAndSweep ht.clean ht.colors (mem_roots.2 (.inr (.inl rfl)))
    (mem_roots.2 (.inr (.inr (.inl rfl)))) gc dump
  obtain ⟨l, hf⟩ := hl.sound.allocator
  have hswept := MarkSweep.swept_markAndSweep gc m.roots dump hf
  refine ⟨_, ⟨⟨⟨hlay, fun w hw => ?_, .of_none fun i => Roles.sweep_ne_condemned, by
      simp [passed, resume, Collector.passed]⟩, fun i hi => ?_⟩,
    fun i => Roles.sweep_ne_condemned, MarkSweep.colors_markAndSweep gc _ dump ht.colors,
    ⟨gc', rfl⟩, ht.clock⟩, ⟨rfl, rfl, rfl, hswept.top, MarkSweep.sanity_markAndSweep gc _ dump,
    fun i hi => ?_, fun i hi => ?_, ?_,
      m.heap.Reach m.roots, Heap.retains_reach, fun i hi => ?_, fun i hi hp => ?_,
      fun i => ⟨Roles.isActor_sweep, fun b hb => ?_⟩⟩⟩
  · refine (hl.safe_condemn Heap.retains_reach ht.clean (fun j => .root ?_)
      (ht.settled.orderly.kept w hw)).mono Roles.grows_sweep
    exact mem_roots_of_kept ht.clock hw
  · exact ht.settled.brief i (Roles.isBrief_sweep hi)
  · simp [Roles.sweep, Roles.condemn, hi]
  · by_cases hd :
      i ∈ MarkSweep.unmarked (gc.markAndSweep m.roots dump m.heap).2.collector.marks m.heap
    · exact hswept.freed i hd
    · exact (congrArg Cell.t (hswept.kept i hd)).trans hi
  · refine .sweep fun i hi => MarkSweep.kept_markAndSweep gc m.roots dump hf ?_
    by_cases hr : m.heap.Reach m.roots i
    · exact .inr (.inr hr)
    · obtain ⟨hu, hc⟩ := hi
      exact absurd ((hl.condemned_iff Heap.retains_reach (ht.clean i)).2 ⟨hu, hr⟩) hc
  · exact MarkSweep.kept_markAndSweep gc m.roots dump hf (.inr (.inr hi))
  · have hkept := Roles.condemn_of_kept hi hp
    unfold Roles.sweep
    rw [hkept, if_neg (ht.clean i)]
  · exact (Roles.condemn_eq_pending.1 ((Roles.sweep_eq (by simp) (by simp)).1 hb)).1

variable {E : Machine → Prop}

theorem quiet (ht : Tidy ρ m) (hq : Quiet m m') : Tidy ρ m' :=
  ht.proceeds (ht.settled.quiet hq) hq.proceeds

theorem ensures_collect (ht : Tidy ρ m) :
    Ensures collect m (fun _ m' => ∃ ρ', Tidy ρ' m' ∧ Sweeps ρ m ρ' m') E := by
  obtain ⟨gc, hgc⟩ := ht.collector
  unfold Ensures
  rw [collect_eq (by rw [hgc]; rfl)]
  exact ht.markAndSweep ..

theorem ensures_safepoint (ht : Tidy ρ m) :
    Ensures safepoint m (fun _ m' => ∃ ρ', Tidy ρ' m' ∧ Sweeps ρ m ρ' m') E := by
  obtain ⟨gc, hgc⟩ := ht.collector
  obtain ⟨l, hf⟩ := ht.settled.orderly.sound.allocator
  unfold Ensures
  obtain hr | ⟨r, gc', notices, hr⟩ := gc.safepoint_cases m.roots hf ht.colors
  · have hq : Quiet m (m.resume ⟨.markSweep gc, m.heap, []⟩) :=
      ⟨rfl, rfl, rfl, rfl, rfl, rfl, hgc.symm, rfl, rfl⟩
    rw [safepoint_eq (by rw [hgc, Collector.safepoint, hr])]
    exact ⟨ρ, ht.quiet hq, Sweeps.refl.quiet hq⟩
  · obtain ⟨ρ', ht', hs⟩ := ht.markAndSweep gc gc' false notices
    have hq : ∀ m : Machine, Quiet m { m with log := m.log.push (.safepoint r) } := fun _ =>
      ⟨rfl, rfl, rfl, rfl, rfl, rfl, rfl, rfl, rfl⟩
    rw [safepoint_eq (by rw [hgc, Collector.safepoint, hr])]
    exact ⟨ρ', ht'.quiet (hq _), hs.quiet (hq _)⟩

end Tidy

theorem Settled.open (hs : Settled [] ρ m) :
    m.threads.head = .nil ∨ m.threads.head ≠ .nil ∧ ∃ t e a, Open t e a [] ρ m := by
  obtain ⟨l, hq, hm⟩ := hs.orderly.layout.line
  cases l with
  | nil => exact .inl hq.1
  | cons t l =>
    have ht := (hm t).1 List.mem_cons_self
    cases hr : ρ t with
    | thread e a => exact .inr ⟨hq.1.ne_nil, t, e, a, hs.orderly, hq.1.1, hr, hs.brief⟩
    | spent => exact absurd (hs.brief t (by rw [hr]; rfl)) List.not_mem_nil
    | _ =>
      rw [hr] at ht
      cases ht

structure Turns (t e a : Nat) (ρ : Roles) (m : Machine) (step : Step) (ρ' : Roles) (m' : Machine) :
    Prop where
  opened : Open t e a [] ρ m
  advances : ∃ ρ₁ m₁, advance (.ref t) m = .ok step m₁ ∧ Settled [] ρ₁ m₁ ∧
    Advances t e a ρ m step ρ₁ m₁ ∧ Sweeps ρ₁ m₁ ρ' m'

/-- One round: events are dispatched, and the first thread performs one instruction. -/
inductive Round (ρ : Roles) (m : Machine) : Bool → Roles → Machine → Prop
  | rest {ρ₁ : Roles} {m₁ : Machine} : prepare m = .ok () m₁ → Dispatches ρ m ρ₁ m₁ →
      execute m₁ = .ok .noThreads m₁ → m₁.threads.head = .nil → Round ρ m false ρ₁ m₁
  | turn {ρ₁ ρ' : Roles} {m₁ m' : Machine} {t e a : Nat} {step : Step} :
      prepare m = .ok () m₁ → Dispatches ρ m ρ₁ m₁ → execute m₁ = .ok step m' →
      Turns t e a ρ₁ m₁ step ρ' m' → Round ρ m true ρ' m'

namespace Tidy

variable {E : Machine → Prop}

theorem ensures_execute (ht : Tidy ρ m) :
    Ensures execute m
      (fun step m' => ∃ ρ', Tidy ρ' m' ∧ (step = .noThreads ∧ ρ' = ρ ∧ m' = m ∧
        m.threads.head = .nil ∨
        step ≠ .noThreads ∧ ∃ t e a, Turns t e a ρ m step ρ' m')) E := by
  unfold execute
  rw [ensures_thread_bind]
  obtain hnil | ⟨hne, t, e, a, ho⟩ := ht.settled.open
  · rw [hnil, if_pos rfl]
    exact ⟨ρ, ht, .inl ⟨rfl, rfl, rfl, rfl⟩⟩
  obtain ⟨gc, hgc⟩ := ht.collector
  rw [if_neg hne, ho.head]
  refine Ensures.bind (Q := fun _ m' => m = m') ?_ ?_
  · unfold Ensures
    rw [collectorStep_eq hgc]
  rintro - m' rfl
  refine ho.ensures_advance.result.bind ?_
  rintro step m₁ ⟨hadv, ρ₁, hs₁, ha⟩
  have ht₁ := ht.proceeds hs₁ ha.proceeds
  have hturn : ∀ ρ' m', Sweeps ρ₁ m₁ ρ' m' → Turns t e a ρ m step ρ' m' := fun ρ' m' hsw =>
    ⟨ho, ρ₁, m₁, hadv, hs₁, ha, hsw⟩
  cases step with
  | noThreads => exact ha.outcome.elim
  | continued => exact ⟨ρ₁, ht₁, .inr ⟨by simp, t, e, a, hturn ρ₁ m₁ .refl⟩⟩
  | retired en =>
    refine ht₁.ensures_safepoint.bind ?_
    rintro - m₂ ⟨ρ₂, ht₂, hsw⟩
    exact ⟨ρ₂, ht₂, .inr ⟨by simp, t, e, a, hturn ρ₂ m₂ hsw⟩⟩

theorem dispatches (ht : Tidy ρ m) (hd : Dispatches ρ m ρ' m') (hs' : Settled [] ρ' m') :
    Tidy ρ' m' :=
  ht.proceeds hs' (hd.proceeds hs'.orderly.layout)

theorem ensures_tick (ht : Tidy ρ m) :
    Ensures tick m (fun b m' => ∃ ρ', Tidy ρ' m' ∧ Round ρ m b ρ' m') E := by
  unfold tick
  refine ht.settled.ensures_prepare.result.bind ?_
  rintro ⟨⟩ m₁ ⟨hprep, ρ₁, hs₁, hd⟩
  refine (ht.dispatches hd hs₁).ensures_execute.result.bind ?_
  rintro step m' ⟨hexec, ρ', ht', ⟨rfl, rfl, rfl, hnil⟩ | ⟨hstep, t, e, a, hturn⟩⟩
  · exact ⟨ρ', ht', .rest hprep hd hexec hnil⟩
  · cases step with
    | noThreads => exact absurd rfl hstep
    | _ => exact ⟨ρ', ht', .turn hprep hd hexec hturn⟩

end Tidy

end ActorMachine
