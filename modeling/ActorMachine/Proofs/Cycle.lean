import ActorMachine.Proofs.Marking
import ActorMachine.Proofs.MemorySafety
/-! Cycles of the incremental collector, with programs that run in between. Main statement: a
machine in order stays so at every turn of its collector, and what can be found from its roots is
left alone, unless the sweep begins before the heads of the queues were reached. -/

namespace ActorMachine

open Machine

variable {ρ ρ' : Roles} {m m' : Machine} {gc : Incremental} {t t' : Turn Incremental}
  {roots : Roots}
  {h h' h'' : Heap} {w : Word} {i : Nat}

/-- What can be found from the roots is as it was. -/
structure Heap.Preserves (roots : Roots) (h h' : Heap) : Prop where
  top : h'.top = h.top
  permanent : h'.permanent = h.permanent
  cell : ∀ i, h.Reach roots i → h'.cellAt i = h.cellAt i

namespace Heap

theorem Tints.preserves (ht : h.Tints h') : h.Preserves roots h' :=
  ⟨ht.top, ht.permanent, fun i _ => ht.cell i⟩

theorem Preserves.trans (h₁ : h.Preserves roots h') (h₂ : h'.Preserves roots h'') :
    h.Preserves roots h'' :=
  ⟨h₂.top.trans h₁.top, h₂.permanent.trans h₁.permanent, fun i hi =>
    (h₂.cell i (hi.congr h₁.top h₁.permanent h₁.cell)).trans (h₁.cell i hi)⟩

end Heap

def Phase.isMarking : Phase → Bool
  | .roots | .scan => true
  | .flip | .sweep => false

/-- Between rounds, with the collector somewhere in a cycle. While it marks, nothing is condemned,
and the pinned words and the permanent cells that it has been to were reached. While it does not,
only what is condemned looks unreached. -/
structure Paced (ρ : Roles) (m : Machine) (gc : Incremental) : Prop where
  settled : Settled [] ρ m
  collector : m.collector = .incremental gc
  colored : m.heap.colors.isSome = true
  clock : ∀ w ∈ m.clock.map Clock.handler, w ∈ m.pinned
  clean : gc.phase ≠ .sweep → ∀ i, ρ i ≠ .condemned
  reached : gc.phase.isMarking = false → ∀ i, ρ i ≠ .condemned → m.heap.Lit (.ref i)
  pinned : gc.phase.isMarking = true → ∀ w ∈ m.pinned, m.heap.Lit w
  permanent : gc.phase.isMarking = true → ∀ i, Word.reserved ≤ i → i < m.heap.permanent →
    256 + (i - Word.reserved) < gc.index → m.heap.Lit (.ref i)
  complete : gc.phase = .scan → 256 + (m.heap.permanent - Word.reserved) ≤ gc.index

def Machine.after (m : Machine) (t : Turn Incremental) : Machine :=
  m.resume ⟨.incremental t.collector, t.heap, t.notices⟩

theorem Machine.after_self (hc : m.collector = .incremental gc) : m.after ⟨gc, m.heap, []⟩ = m := by
  obtain ⟨config, heap, events, threads, symbols, pinned, collector, console, clock, trace,
    stats, log⟩ := m
  cases hc
  simp [after, resume]

theorem Machine.mem_passed (hg : m.collector = .incremental gc) (hm : gc.phase.isMarking = true) :
    w ∈ m.passed ↔ ∃ i < gc.index, m.symbols.buckets.toList[i]? = some w := by
  have hp : m.collector.passed = gc.index := by
    simp only [hg, Collector.passed]
    cases hphase : gc.phase <;> rw [hphase] at hm <;> first | rfl | cases hm
  unfold passed
  rw [hp, List.mem_take_iff_getElem]
  constructor
  · rintro ⟨i, hi, rfl⟩
    exact ⟨i, by omega, List.getElem?_eq_getElem _⟩
  · rintro ⟨i, hi, hw⟩
    obtain ⟨hlt, hw⟩ := List.getElem?_eq_some_iff.1 hw
    exact ⟨i, by omega, hw⟩

theorem Machine.passed_after (hm : t.collector.phase.isMarking = false) :
    (m.after t).passed = [] := by
  have hp : (m.after t).collector.passed = 0 := by
    simp only [after, resume, Collector.passed]
    cases hphase : t.collector.phase <;> rw [hphase] at hm <;> first | rfl | cases hm
  unfold passed
  rw [hp, List.take_zero]

def Roots.Seen (roots : Roots) (h : Heap) : Prop := h.Lit roots.events ∧ h.Lit roots.threads

instance (roots : Roots) (h : Heap) : Decidable (roots.Seen h) :=
  inferInstanceAs (Decidable (_ ∧ _))

/-- Does the marking that is under way end, within so many turns, before the heads of the queues
were reached? -/
def Incremental.overlooks (roots : Roots) : Nat → Turn Incremental → Bool
  | 0, _ => false
  | n + 1, t =>
    t.collector.phase.isMarking &&
      ((step roots t).collector.phase = .sweep && ¬ roots.Seen (step roots t).heap ||
        overlooks roots n (step roots t))

/-- Nothing will be overlooked within so many turns, or the heads of the queues were reached
already. -/
def Turn.Watches (t : Turn Incremental) (roots : Roots) (n : Nat) : Prop :=
  Incremental.overlooks roots n t = false ∨ (t.collector.phase.isMarking = true → roots.Seen t.heap)

theorem Incremental.isMarking_sweep (hp : t.collector.phase = .sweep) (n : Nat) :
    (sweep n t).collector.phase.isMarking = false := by
  induction n generalizing t with
  | zero =>
    unfold sweep
    rw [hp]
    rfl
  | succ n ih =>
    unfold sweep
    dsimp only
    split
    · exact ih hp
    · rfl

namespace Paced

theorem of_not_marking (hs : Settled [] ρ (m.after t)) (hc : t.heap.colors.isSome = true)
    (hk : ∀ w ∈ m.clock.map Clock.handler, w ∈ m.pinned) (hm : t.collector.phase.isMarking = false)
    (hclean : t.collector.phase ≠ .sweep → ∀ i, ρ i ≠ .condemned)
    (hr : ∀ i, ρ i ≠ .condemned → t.heap.Lit (.ref i)) : Paced ρ (m.after t) t.collector := by
  have hnot : t.collector.phase.isMarking ≠ true := by simp [hm]
  refine ⟨hs, rfl, hc, hk, hclean, fun _ => hr, fun h => absurd h hnot, fun h => absurd h hnot,
    fun h => ?_⟩
  exact absurd (by rw [h]; rfl) hnot

theorem proceeds (hp : Paced ρ m gc) (hs : Settled [] ρ' m') (hn : Proceeds ρ m ρ' m') :
    Paced ρ' m' gc := by
  have hlit : ∀ {w : Word}, m.heap.Lit w → m'.heap.Lit w := hn.frame.fades.lit
  refine ⟨hs, hn.steady.collector.trans hp.collector, ?_, ?_,
    fun h i hi => hp.clean h i (hn.frame.grows.condemned i hi),
    fun h i hi => hlit (hp.reached h i fun hc => hi ?_),
    fun h w hw => hlit (hp.pinned h w (hn.steady.pinned ▸ hw)),
    fun h i h1 h2 h3 => hlit (hp.permanent h i h1 (hn.frame.permanent ▸ h2) h3), fun h => ?_⟩
  · obtain ⟨cm, hm⟩ := Option.isSome_iff_exists.1 hp.colored
    obtain ⟨cm', hm', -⟩ := hn.frame.fades.some cm hm
    rw [hm']
    rfl
  · rw [hn.steady.handler, hn.steady.pinned]
    exact hp.clock
  · obtain ⟨hr, -⟩ | ⟨hmove, -⟩ := hn.frame.changes i
    · exact hr.trans hc
    · exact absurd hc hmove.1
  · rw [hn.frame.permanent]
    exact hp.complete h

theorem lit_later (hp : Paced ρ m gc) (hm : gc.phase.isMarking = true) (hi : i < gc.index)
    (hw : Incremental.later? m.roots m.heap i = some w) : m.heap.Lit w := by
  unfold Incremental.later? at hw
  split at hw
  · next v hv =>
    cases hw
    refine hp.settled.orderly.lit w ((mem_passed hp.collector hm).2 ⟨i, hi, ?_⟩)
    simpa [roots] using hv
  · next hnone =>
    split at hw
    · next hlt =>
      cases hw
      have hsize : m.roots.symbols.size = 256 := by simp [roots]
      have hge : 256 ≤ i := by simpa [hsize] using hnone
      exact hp.permanent hm _ (by omega) (by omega) (by omega)
    · cases hw

theorem marks (hp : Paced ρ (m.after t) t.collector) (hm : t.collector.phase.isMarking = true)
    (hm' : t'.collector.phase.isMarking = true) (ht : t.heap.Tints t'.heap)
    (hlit : ∀ i < t'.collector.index, ∀ w, Incremental.later? m.roots t.heap i = some w →
      t'.heap.Lit w)
    (hdone : t'.collector.phase = .scan → 256 + (t.heap.permanent - Word.reserved) ≤
      t'.collector.index) :
    Paced ρ (m.after t') t'.collector := by
  have hclean := hp.clean (by rintro h; rw [h] at hm; cases hm)
  have ho := hp.settled.orderly
  have hpassed : ∀ w ∈ (m.after t').passed, t'.heap.Lit w := by
    intro w hw
    obtain ⟨i, hi, hw⟩ := (mem_passed rfl hm').1 hw
    exact hlit i hi w (Incremental.later?_symbol hw)
  refine ⟨⟨⟨ho.layout.recolor ht.sound ht.cell ht.permanent ht.top, ho.kept,
    .of_none hclean, hpassed⟩, hp.settled.brief⟩, rfl, ?_, hp.clock, fun _ => hclean, fun h => ?_,
    fun _ w hw => ht.fades.lit (hp.pinned hm w hw), fun _ i h1 h2 h3 => ?_, fun h => ?_⟩
  · obtain ⟨cm, hcm⟩ := Option.isSome_iff_exists.1 hp.colored
    obtain ⟨cm', hcm', -⟩ := ht.fades.some cm hcm
    change t'.heap.colors.isSome = true
    rw [hcm']
    rfl
  · rw [hm'] at h
    cases h
  · have hlater := Incremental.later?_permanent m.roots h1 (ht.permanent ▸ h2)
    have hsize : m.roots.symbols.size = 256 := by simp [roots]
    rw [hsize] at hlater
    exact hlit _ h3 _ hlater
  · change 256 + (t'.heap.permanent - _) ≤ _
    rw [ht.permanent]
    exact hdone h

theorem shades (hp : Paced ρ (m.after t) t.collector) (hphase : t.collector.phase = .roots)
    (hs : Incremental.Shades m.roots t t') : Paced ρ (m.after t') t'.collector := by
  have hm : t.collector.phase.isMarking = true := by rw [hphase]; rfl
  refine hp.marks hm ?_ hs.tints (fun i hi w hw => ?_) fun h => ?_
  · obtain h | ⟨h, -⟩ := hs.phase <;> rw [h] <;> rfl
  · by_cases hold : i < t.collector.index
    · exact hs.tints.fades.lit (hp.lit_later hm hold hw)
    · exact hs.lit i (Nat.not_lt.1 hold) hi w hw
  · obtain h' | ⟨-, hnone⟩ := hs.phase
    · rw [h'] at h
      cases h
    · have := Incremental.later?_eq_none hnone
      have hsize : m.roots.symbols.size = 256 := by simp [roots]
      omega

theorem lit_roots (hp : Paced ρ m gc) (hphase : gc.phase = .scan) (hsee : m.roots.Seen m.heap)
    (hw : w ∈ m.roots.words) : m.heap.Lit w := by
  have hm : gc.phase.isMarking = true := by rw [hphase]; rfl
  obtain hw | rfl | rfl | hw := mem_roots.1 hw
  · obtain ⟨i, hi, hget⟩ := List.mem_iff_getElem.1 hw
    have hlt : i < 256 := by simpa using hi
    have hcomplete := hp.complete hphase
    refine hp.lit_later hm (i := i) (by omega) (Incremental.later?_symbol ?_)
    exact List.getElem?_eq_some_iff.2 ⟨hi, hget⟩
  · exact hsee.1
  · exact hsee.2
  · exact hp.pinned hm w (Array.mem_toList_iff.1 hw)

theorem retains {cm : ColorMap} (hp : Paced ρ m gc) (hphase : gc.phase = .scan)
    (hd : m.heap.Scanned) (hsee : m.roots.Seen m.heap) (hcm : m.heap.colors = some cm) :
    m.heap.Retains m.roots fun i => Word.reserved ≤ i ∧ cm.color i = cm.next := by
  have hcomplete := hp.complete hphase
  exact hd.retains hp.settled.orderly.sound hcm (fun w hw => hp.lit_roots hphase hsee hw)
    fun i h1 h2 => hp.permanent (by rw [hphase]; rfl) i h1 h2 (by omega)

variable (hp : Paced ρ (m.after t) t.collector)

include hp

theorem condemns (hphase : t.collector.phase = .scan)
    (hd : t.heap.Scanned) (hsee : m.roots.Seen t.heap) (hheap : t'.heap = t.heap)
    (hphase' : t'.collector.phase = .sweep) :
    ∃ ρ', Paced ρ' (m.after t') t'.collector ∧ Thins ρ t.heap ρ' t'.heap := by
  have hclean := hp.clean (by simp [hphase])
  have hl : Layout ρ t.heap m.events m.threads := hp.settled.orderly.layout
  obtain ⟨cm, hcm⟩ : ∃ cm, t.heap.colors = some cm := Option.isSome_iff_exists.1 hp.colored
  have hv := hl.sound.tinted cm hcm
  have hN : t.heap.Retains m.roots fun i => Word.reserved ≤ i ∧ cm.color i = cm.next :=
    hp.retains hphase hd hsee hcm
  have hcon := fun i => hl.condemned_iff hN (hclean i)
  have hshuns : t.heap.Shuns (ρ.condemn fun i => Word.reserved ≤ i ∧
      cm.color i = cm.next).condemned := by
    refine hl.shuns_condemn hN hclean fun cm' hcm' i hu hn => ?_
    rw [hcm] at hcm'
    cases hcm'
    exact Decidable.byContradiction fun hprev =>
      hn ⟨(hl.inUse hu).1, hd.color hl.sound hcm (hl.leads hu (.inl rfl)) hprev⟩
  have hnot : t'.collector.phase.isMarking = false := by rw [hphase']; rfl
  obtain ⟨gc', heap', notices'⟩ := t'
  cases hheap
  refine ⟨ρ.condemn fun i => Word.reserved ≤ i ∧ cm.color i = cm.next, of_not_marking
    ⟨⟨?_, fun w hw => ?_, hshuns, ?_⟩, fun i hi => ?_⟩ hp.colored hp.clock hnot (fun h =>
      absurd hphase' h)
    fun i hi => ?_, .condemn⟩
  · exact hl.condemn hN (mem_roots.2 (.inr (.inl rfl))) (mem_roots.2 (.inr (.inr (.inl rfl))))
      hclean
  · exact hl.safe_condemn hN hclean (hN.root w (mem_roots_of_kept hp.clock hw))
      (hp.settled.orderly.kept w hw)
  · simp [passed_after hnot]
  · exact hp.settled.brief i (Roles.isBrief_condemn hi)
  · intro cm' hcm' j hr hj hc
    obtain rfl : i = j := by simpa using hj
    rw [hcm] at hcm'
    cases hcm'
    obtain ⟨htop, hfree⟩ := (hv.inUse i).1 (hc ▸ hv.labelled.prev_ne_free)
    exact hi ((hcon i).2 ⟨hl.inUse_of_cell hr htop hfree, fun hn =>
      hv.labelled.prev_ne_next (hc.symm.trans hn.2)⟩)

theorem scans (hphase : t.collector.phase = .scan)
    (hs : Incremental.Scans t t') (hsee : t'.collector.phase = .sweep → m.roots.Seen t'.heap) :
    ∃ ρ', Paced ρ' (m.after t') t'.collector ∧ Thins ρ t.heap ρ' t'.heap := by
  have hm : t.collector.phase.isMarking = true := by rw [hphase]; rfl
  have hmarks : ∀ t'' : Turn Incremental, t''.heap = t'.heap →
    t''.collector.index = t.collector.index →
      t''.collector.phase = .scan → Paced ρ (m.after t'') t''.collector := by
    intro t'' hh hi hphase''
    refine hp.marks hm (by rw [hphase'']; rfl) (hh ▸ hs.tints) (fun i hi' w hw => ?_) fun _ => ?_
    · rw [hh]
      exact hs.tints.fades.lit (hp.lit_later hm (hi ▸ hi') hw)
    · rw [hi]
      exact hp.complete hphase
  obtain h | ⟨h, hd⟩ := hs.phase
  · exact ⟨ρ, hmarks t' rfl hs.index h, .of_cells hs.tints.cell⟩
  · have hlast :=
      hmarks { t' with collector := { t'.collector with phase := .scan } } rfl hs.index rfl
    obtain ⟨ρ', hp', hthin⟩ : ∃ ρ', Paced ρ' (m.after t') t'.collector ∧
      Thins ρ t'.heap ρ' t'.heap :=
      hlast.condemns rfl hd (hsee h) rfl h
    exact ⟨ρ', hp', Thins.trans (.of_cells hs.tints.cell) hthin⟩

theorem flips (hphase : t.collector.phase = .flip) :
    Paced ρ (m.after (Incremental.flip m.roots t)) (Incremental.flip m.roots t).collector ∧
      (∀ i, (Incremental.flip m.roots t).heap.cellAt i = t.heap.cellAt i) ∧
      t.heap.Preserves m.roots (Incremental.flip m.roots t).heap ∧
      m.roots.Seen (Incremental.flip m.roots t).heap := by
  have hclean := hp.clean (by simp [hphase])
  have hl : Layout ρ t.heap m.events m.threads := hp.settled.orderly.layout
  obtain ⟨cm, hcm⟩ : ∃ cm, t.heap.colors = some cm := Option.isSome_iff_exists.1 hp.colored
  have hflip := hl.sound.flip hcm fun i => hp.reached (by rw [hphase]; rfl) i (hclean i)
  obtain ⟨ht, hlit⟩ := hflip.tints_shadeAll m.roots.direct
  obtain ⟨cm', hcm', -⟩ := ht.fades.some _ rfl
  unfold Incremental.flip
  rw [hcm]
  dsimp only
  refine ⟨⟨⟨⟨hl.recolor ht.sound ht.cell ht.permanent ht.top, hp.settled.orderly.kept,
    .of_none hclean,
      fun w hw => ?_⟩, hp.settled.brief⟩, rfl, Option.isSome_iff_exists.2 ⟨cm', hcm'⟩, hp.clock,
      fun _ => hclean, fun h => ?_, fun _ w hw => hlit w ?_, fun _ i _ _ h3 =>
      absurd h3 (Nat.not_lt_zero _), fun h => ?_⟩, ht.cell, ⟨ht.top, ht.permanent, fun i _ =>
        ht.cell i⟩, hlit _ (by simp [Roots.direct]),
    hlit _ (by simp [Roots.direct])⟩
  · obtain ⟨i, hi, -⟩ := (mem_passed rfl rfl).1 hw
    exact absurd hi (Nat.not_lt_zero _)
  · cases h
  · have hw : w ∈ m.pinned := hw
    simp [Roots.direct, roots, hw]
  · cases h

theorem reclaims {cm : ColorMap} (t' : Turn Incremental)
    (hphase : t.collector.phase = .sweep) (hcm : t.heap.colors = some cm)
    (hc : cm.color i = cm.prev) (hlo : t.heap.permanent ≤ i) (hhi : i < t.heap.top)
    (hheap : t'.heap = t.heap.reclaim i) (hphase' : t'.collector.phase = .sweep) :
    Paced (ρ.set i .free) (m.after t') t'.collector ∧ t.heap.Preserves m.roots t'.heap ∧
      Thins ρ t.heap (ρ.set i .free) t'.heap := by
  have hl : Layout ρ t.heap m.events m.threads := hp.settled.orderly.layout
  have hshuns : t.heap.Shuns ρ.condemned := hp.settled.orderly.shuns
  have hr := Nat.le_trans hl.reserved_le_permanent hlo
  have hnot : t'.collector.phase.isMarking = false := by rw [hphase']; rfl
  have hcon : ρ i = .condemned := Classical.not_not.1 fun hn =>
    hp.reached (by rw [hphase]; rfl) i hn cm hcm i hr (.inl rfl) hc
  have hcap : i < t.heap.capacity := Nat.lt_of_lt_of_le hhi hl.top_le
  obtain ⟨hs, hf⟩ := hl.sound.reclaim hlo hhi (hl.inUse (by rw [hcon]; rfl)).2.2
  have hgrows : Grows ρ (ρ.set i .free) := Roles.grows_set (by simp [hcon]) (by simp)
  obtain ⟨gc', heap', notices'⟩ := t'
  obtain rfl : heap' = t.heap.reclaim i := hheap
  refine ⟨of_not_marking
    ⟨⟨?_, fun w hw => (hp.settled.orderly.kept w hw).mono hgrows, ?_, ?_⟩,
      fun j hj => ?_⟩ ?_ hp.clock hnot
    (fun h => absurd hphase' h) fun j hj => ?_, ⟨rfl, rfl, fun j hj => ?_⟩,
    Thins.free.2 fun j hj _ _ => (Heap.cellAt_reclaim _ hcap j).trans (if_neg hj)⟩
  · exact hl.give hs hlo hhi (by rw [hcon]; rfl) (by simp [hcon])
  · refine (hshuns.reclaim hcap).of_iff fun j => ?_
    by_cases hj : j = i
    · simp [hj, Roles.condemned]
    · simp [hj, Roles.condemned, Roles.set_ne _ _ hj]
  · simp [passed_after hnot]
  · by_cases hji : j = i
    · rw [hji, Roles.set_self] at hj
      cases hj
    · rw [Roles.set_ne _ _ hji] at hj
      exact hp.settled.brief j hj
  · obtain ⟨cm', hcm', -⟩ := hf.some cm hcm
    exact Option.isSome_iff_exists.2 ⟨cm', hcm'⟩
  · by_cases hji : j = i
    · refine hs.lit_spare fun _ => ?_
      rw [Heap.cellAt_reclaim _ hcap, if_pos hji]
    · rw [Roles.set_ne _ _ hji] at hj
      exact hf.lit (hp.reached (by rw [hphase]; rfl) j hj)
  · refine (Heap.cellAt_reclaim _ hcap j).trans (if_neg ?_)
    rintro rfl
    have hlive := hp.settled.isLive_of_reach (i := j) hj
    rw [hcon] at hlive
    cases hlive

theorem finishes (hphase : t.collector.phase = .sweep)
    (hdone : ∀ cm, t.heap.colors = some cm → ∀ i, t.heap.permanent ≤ i → i < t.heap.top →
      cm.color i ≠ cm.prev) (hheap : t'.heap = t.heap) (hphase' : t'.collector.phase = .flip) :
    Paced ρ (m.after t') t'.collector := by
  have hl : Layout ρ t.heap m.events m.threads := hp.settled.orderly.layout
  have hshuns : t.heap.Shuns ρ.condemned := hp.settled.orderly.shuns
  obtain ⟨cm, hcm⟩ : ∃ cm, t.heap.colors = some cm := Option.isSome_iff_exists.1 hp.colored
  have hclean : ∀ i, ρ i ≠ .condemned := by
    intro i hi
    have hplace := (hl.fits i).1
    rw [hi] at hplace
    exact hdone cm hcm i hplace.1 hplace.2 (hshuns.color cm hcm i hi)
  have hnot : t'.collector.phase.isMarking = false := by rw [hphase']; rfl
  obtain ⟨gc', heap', notices'⟩ := t'
  cases hheap
  refine of_not_marking ⟨⟨hl, hp.settled.orderly.kept, hshuns, ?_⟩,
    hp.settled.brief⟩ hp.colored hp.clock hnot
    (fun _ => hclean) (hp.reached (by rw [hphase]; rfl))
  simp [passed_after hnot]

theorem sweeps (hphase : t.collector.phase = .sweep) (n : Nat) :
    ∃ ρ', Paced ρ' (m.after (Incremental.sweep n t)) (Incremental.sweep n t).collector ∧
      t.heap.Preserves m.roots (Incremental.sweep n t).heap ∧
      Thins ρ t.heap ρ' (Incremental.sweep n t).heap := by
  have hsound : t.heap.Sound := hp.settled.orderly.sound
  induction n generalizing ρ t with
  | zero => exact ⟨ρ, hp, hsound.tints.preserves, .of_cells fun _ => rfl⟩
  | succ n ih =>
    unfold Incremental.sweep
    obtain ⟨cm, hcm⟩ : ∃ cm, t.heap.colors = some cm := Option.isSome_iff_exists.1 hp.colored
    rw [hcm]
    dsimp only [Option.bind_some]
    cases hf : cm.find cm.prev t.heap.permanent t.heap.top t.collector.cursor with
    | some i =>
      obtain ⟨hlo, hhi, hc⟩ := ColorMap.find_eq_some hf
      obtain ⟨hp', hkeep, hthin⟩ := hp.reclaims { t with
        heap := t.heap.reclaim i
        collector := { t.collector with cursor := i } } hphase hcm hc hlo hhi rfl hphase
      obtain ⟨ρ', hrest, hkeep', hthin'⟩ := ih hp' hphase hp'.settled.orderly.sound
      exact ⟨ρ', hrest, hkeep.trans hkeep', hthin.trans hthin'⟩
    | none =>
      refine ⟨ρ, hp.finishes hphase (fun cm' hcm' i h1 h2 => ?_) rfl rfl, hsound.tints.preserves,
        .of_cells fun _ => rfl⟩
      rw [hcm] at hcm'
      cases hcm'
      exact ColorMap.find_eq_none hf h1 h2

theorem step
    (hsee : t.collector.phase = .scan → (Incremental.step m.roots t).collector.phase = .sweep →
      m.roots.Seen (Incremental.step m.roots t).heap) :
    ∃ ρ', Paced ρ' (m.after (Incremental.step m.roots t)) (Incremental.step m.roots t).collector ∧
      t.heap.Preserves m.roots (Incremental.step m.roots t).heap ∧
      Thins ρ t.heap ρ' (Incremental.step m.roots t).heap := by
  -- One turn of the collector. It must not begin to sweep before the heads of the queues were
  -- reached.
  have hsound : t.heap.Sound := hp.settled.orderly.sound
  unfold Incremental.step at hsee ⊢
  cases hphase : t.collector.phase with
  | flip =>
    obtain ⟨hp', hcells, hkeep, -⟩ := hp.flips hphase
    exact ⟨ρ, hp', hkeep, .of_cells hcells⟩
  | roots =>
    have hshades := Incremental.shades_shadeRoots m.roots hsound hphase t.collector.stride
    dsimp only
    rw [if_pos (show t.heap.colors.isSome = true from hp.colored)]
    exact ⟨ρ, hp.shades hphase hshades, hshades.tints.preserves, .of_cells hshades.tints.cell⟩
  | scan =>
    have hscans := Incremental.scans_scan hsound hphase t.collector.stride
    simp only [hphase] at hsee
    obtain ⟨ρ', hp', hthin⟩ := hp.scans hphase hscans (hsee trivial)
    exact ⟨ρ', hp', hscans.tints.preserves, hthin⟩
  | sweep => exact hp.sweeps hphase _

theorem seen_step (hseen : t.collector.phase.isMarking = true → m.roots.Seen t.heap) :
    t.collector.phase = .sweep ∧ (Incremental.step m.roots t).collector.phase.isMarking = false ∨
      m.roots.Seen (Incremental.step m.roots t).heap := by
  have hsound : t.heap.Sound := hp.settled.orderly.sound
  have htints : ∀ {h : Heap}, t.collector.phase.isMarking = true → t.heap.Tints h →
    m.roots.Seen h :=
    fun hm ht => (hseen hm).imp ht.fades.lit ht.fades.lit
  unfold Incremental.step
  cases hphase : t.collector.phase with
  | flip => exact .inr (hp.flips hphase).2.2.2
  | roots =>
    dsimp only
    rw [if_pos (show t.heap.colors.isSome = true from hp.colored)]
    exact .inr
      (htints (by rw [hphase]; rfl) (Incremental.shades_shadeRoots m.roots hsound hphase _).tints)
  | scan => exact .inr (htints (by rw [hphase]; rfl) (Incremental.scans_scan hsound hphase _).tints)
  | sweep => exact .inl ⟨rfl, Incremental.isMarking_sweep hphase _⟩

theorem watches_step {n : Nat} (hw : t.Watches m.roots (n + 1)) :
    (t.collector.phase = .scan → (Incremental.step m.roots t).collector.phase = .sweep →
      m.roots.Seen (Incremental.step m.roots t).heap) ∧
      (Incremental.step m.roots t).Watches m.roots n := by
  -- Only the marking that is under way can overlook the head of a queue, as long as no program
  -- runs.
  by_cases hseen : t.collector.phase.isMarking = true → m.roots.Seen t.heap
  · obtain ⟨hsweep, hnot⟩ | hseen' := hp.seen_step hseen
    · exact ⟨fun h => absurd (hsweep.symm.trans h) (by simp),
        .inr fun h => absurd (hnot.symm.trans h) (by simp)⟩
    · exact ⟨fun _ _ => hseen', .inr fun _ => hseen'⟩
  · have ho := hw.resolve_right hseen
    have hmark : t.collector.phase.isMarking = true :=
      Classical.not_not.1 fun h => hseen fun h' => absurd h' h
    rw [Incremental.overlooks, hmark, Bool.true_and, Bool.or_eq_false_iff] at ho
    exact ⟨fun _ hsweep => by simpa [hsweep] using ho.1, .inl ho.2⟩

theorem stepUntil {goal n : Nat} {task : String} {r : Report} (hw : t.Watches m.roots n)
    (hr : Incremental.stepUntil m.roots goal ⟨n, task⟩ t = (.ok r, t')) :
    ∃ ρ', Paced ρ' (m.after t') t'.collector ∧ t.heap.Preserves m.roots t'.heap ∧
      Thins ρ t.heap ρ' t'.heap := by
  have hsound : t.heap.Sound := hp.settled.orderly.sound
  induction n generalizing ρ t with
  | zero =>
    unfold Incremental.stepUntil at hr
    split at hr
    · cases hr
    · cases hr
      exact ⟨ρ, hp, hsound.tints.preserves, .of_cells fun _ => rfl⟩
  | succ n ih =>
    unfold Incremental.stepUntil at hr
    split at hr
    · obtain ⟨hsee, hw'⟩ := hp.watches_step hw
      obtain ⟨ρ₁, hp₁, hkeep, hthin⟩ := hp.step hsee
      obtain ⟨ρ', hp', hkeep', hthin'⟩ := ih hp₁ hw' hr hp₁.settled.orderly.sound
      exact ⟨ρ', hp', hkeep.trans hkeep', hthin.trans hthin'⟩
    · cases hr
      exact ⟨ρ, hp, hsound.tints.preserves, .of_cells fun _ => rfl⟩

end Paced

end ActorMachine
