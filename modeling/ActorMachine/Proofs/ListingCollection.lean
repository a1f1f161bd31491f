import ActorMachine.Proofs.Executable
import ActorMachine.Proofs.MemorySafety
import ActorMachine.Proofs.CellListing

namespace ActorMachine

open Machine

variable {ρ : Roles} {m m' : Machine} {gc : Incremental}

namespace Heap

variable {h h' h'' : Heap}

/-- Room is never lost. -/
structure Eases (h h' : Heap) : Prop where
  capacity : h'.capacity = h.capacity
  sanity : h'.sanity = h.sanity
  inUse : h'.inUse ≤ h.inUse

namespace Eases

theorem refl (h : Heap) : h.Eases h := ⟨rfl, rfl, Nat.le_refl _⟩

theorem trans (h₁ : h.Eases h') (h₂ : h'.Eases h'') : h.Eases h'' :=
  ⟨h₂.capacity.trans h₁.capacity, h₂.sanity.trans h₁.sanity, h₂.inUse.trans h₁.inUse⟩

theorem reclaim (h : Heap) (i : Nat) : h.Eases (h.reclaim i) :=
  ⟨capacity_reclaim h i, rfl, Nat.sub_le_sub_left (Nat.le_succ _) _⟩

end Eases

end Heap

theorem Incremental.eases_step (roots : Roots) (t : Turn Incremental) :
    t.heap.Eases (step roots t).heap :=
  have hdurable : Durable t.heap.Eases :=
    ⟨fun _ he => he.trans ⟨rfl, rfl, Nat.le_refl _⟩, fun i he => he.trans (.reclaim _ i)⟩
  hdurable.step roots (.refl _)

theorem MarkSweep.eases_markAndSweep {h : Heap} {l : List Nat} (gc : MarkSweep) (roots : Roots)
    (dump : Bool) (hf : h.FreeList l) : h.Eases (gc.markAndSweep roots dump h).2.heap := by
  have hswept := swept_markAndSweep gc roots dump hf
  have hfree := freeList_markAndSweep gc roots dump hf
  refine ⟨hswept.capacity, sanity_markAndSweep gc roots dump, ?_⟩
  -- What was free cannot be reached, so it is free again.
  have hsub : l ⊆ unmarked (gc.markAndSweep roots dump h).2.collector.marks h := fun i hi => by
    obtain ⟨hperm, htop, ht⟩ := (hf.mem_iff i).1 hi
    exact (mem_dead gc roots dump hf).2 ⟨hperm, htop, fun hr => (hr.inUse hf.permanent_le).2.2 ht⟩
  have hle := (List.subperm_of_subset hf.chain.nodup hsub).length_le
  have htop : (gc.markAndSweep roots dump h).2.heap.top = h.top := hswept.top
  rw [Heap.inUse, Heap.inUse, htop, hf.count, hfree.count]
  exact Nat.sub_le_sub_left hle _

theorem MarkSweep.inUse_markAndSweep_le {h : Heap} {l K : List Nat} (gc : MarkSweep) (roots : Roots)
    (dump : Bool) (hf : h.FreeList l) (hK : ∀ i, h.Reach roots i → h.permanent ≤ i → i ∈ K) :
    (gc.markAndSweep roots dump h).2.heap.inUse ≤ h.permanent + K.length := by
  have hfree := freeList_markAndSweep gc roots dump hf
  have htop : (gc.markAndSweep roots dump h).2.heap.top = h.top :=
    (swept_markAndSweep gc roots dump hf).top
  have hsub : List.range' h.permanent (h.top - h.permanent) ⊆
      unmarked (gc.markAndSweep roots dump h).2.collector.marks h ++ K := fun i hi => by
    obtain ⟨hperm, hlt⟩ := List.mem_range'_1.1 hi
    have hle := hf.permanent_le
    by_cases hr : h.Reach roots i
    · exact List.mem_append_right _ (hK i hr hperm)
    · exact List.mem_append_left _ ((mem_dead gc roots dump hf).2 ⟨hperm, by omega, hr⟩)
  have hle := (List.subperm_of_subset List.nodup_range' hsub).length_le
  rw [List.length_range', List.length_append, ← hfree.count] at hle
  rw [Heap.inUse, htop]
  omega

theorem MarkSweep.margins_safepoint {h : Heap} (gc : MarkSweep) (roots : Roots) :
    (Collector.markSweep (gc.safepoint roots h).2.collector).margins =
    (Collector.markSweep gc).margins := by
  unfold safepoint
  dsimp only [collect]
  split
  · rfl
  · split <;> rfl

theorem MarkSweep.room_of_safepoint {h : Heap} {gc : MarkSweep} {roots : Roots} {a b : Nat}
    (hn : (gc.safepoint roots h).1 = none) (hm : (Collector.markSweep gc).margins = some (a, b)) :
    a ≤ h.unallocated ∨ b ≤ h.freeCount := by
  unfold Collector.margins at hm
  dsimp only at hm
  split at hm
  · next hauto =>
    cases hm
    unfold safepoint at hn
    split at hn
    · next hroom =>
      rw [hauto] at hroom
      simpa using hroom
    · dsimp only [collect] at hn
      split at hn <;> cases hn
  · cases hm

/-- The collector has worked, and nothing else. -/
structure Machine.Cleans (m m' : Machine) : Prop where
  events : m'.events = m.events
  threads : m'.threads = m.threads
  view : m'.view = m.view
  preserves : m.heap.Preserves m.roots m'.heap
  eases : m.heap.Eases m'.heap
  seen : m.roots.Seen m'.heap

theorem Machine.view_safepoint (hr : safepoint m = .ok () m') : m'.view = m.view := by
  obtain ⟨r, t, hs⟩ : ∃ r t, m.collector.safepoint m.roots m.heap = (r, t) := ⟨_, _, rfl⟩
  have hmargins : t.collector.margins = m.collector.margins := by
    rw [← show (m.collector.safepoint m.roots m.heap).2 = t from congrArg Prod.snd hs]
    cases m.collector with
    | markSweep gc => exact gc.margins_safepoint m.roots
    | incremental gc => rfl
  rw [safepoint_eq hs] at hr
  cases hr
  unfold view
  rw [← hmargins]
  cases r <;> rfl

theorem Paced.seen (hp : Paced ρ m gc) (hm : gc.phase.isMarking = false) : m.roots.Seen m.heap := by
  have hlit : ∀ w ∈ m.roots.words, m.heap.Lit w := by
    intro w hw cm hcm i hres hi
    have hne : ρ i ≠ .condemned := by
      have hsturdy := hp.settled.sturdy_roots hw
      obtain rfl | rfl := hi
      · obtain h | h := hsturdy
        · exact absurd hres (Nat.not_le.2 h)
        · rintro hc
          rw [hc] at h
          cases h
      · exact hsturdy
    exact hp.reached hm i hne cm hcm i hres (.inl rfl)
  exact ⟨hlit _ (mem_roots.2 (.inr (.inl rfl))), hlit _ (mem_roots.2 (.inr (.inr (.inl rfl))))⟩

namespace Fit

theorem achieves_collectorStep (hf : Fit ρ m) (hseen : m.roots.Seen m.heap) :
    Achieves collectorStep m fun _ m' => (∃ ρ', Fit ρ' m') ∧ m.Cleans m' := by
  obtain ht | ⟨gc, hp⟩ := hf
  · obtain ⟨gc, hgc⟩ := ht.collector
    refine ⟨(), m, collectorStep_eq hgc, ⟨ρ, .inl ht⟩, rfl, rfl, rfl, ?_, .refl _, hseen⟩
    exact ⟨rfl, rfl, fun _ _ => rfl⟩
  · have hstep := hp.at_turn.seen_step fun _ => hseen
    obtain ⟨ρ', hp', hpres, -⟩ := hp.at_turn.step fun hscan _ =>
      hstep.resolve_left fun h => by rw [h.1] at hscan; cases hscan
    have hview : (m.after (Incremental.step m.roots ⟨gc, m.heap, []⟩)).view = m.view := by
      unfold view
      rw [hp.collector]
      rfl
    refine ⟨(), _, collectorStep_after hp.collector, ⟨ρ', .inr ⟨_, hp'⟩⟩, rfl, rfl, hview, hpres,
      Incremental.eases_step m.roots ⟨gc, m.heap, []⟩, ?_⟩
    obtain ⟨-, hm⟩ | hs := hstep
    · exact hp'.seen hm
    · exact hs

theorem achieves_safepoint (hf : Fit ρ m) (hseen : m.roots.Seen m.heap) :
    Achieves safepoint m fun _ m' => (∃ ρ', Fit ρ' m') ∧ m.Cleans m' := by
  obtain ht | ⟨gc, hp⟩ := hf
  · have htidy : ∀ {m'}, safepoint m = .ok () m' → ∃ ρ', Fit ρ' m' := fun hr => by
      obtain ⟨ρ', ht', -⟩ := (ht.ensures_safepoint (E := fun _ => True)).ok hr
      exact ⟨ρ', .inl ht'⟩
    obtain ⟨gc, hgc⟩ := ht.collector
    obtain ⟨l, hl⟩ := ht.settled.orderly.sound.allocator
    obtain hr | ⟨r, gc', notices, hr⟩ := gc.safepoint_cases m.roots hl ht.colors
    · have hrun := safepoint_eq (m := m) (by rw [hgc, Collector.safepoint, hr])
      exact ⟨(), _, hrun, htidy hrun, rfl, rfl, view_safepoint hrun, ⟨rfl, rfl, fun _ _ => rfl⟩,
        .refl _, hseen⟩
    · have hrun := safepoint_eq (m := m) (by rw [hgc, Collector.safepoint, hr])
      have hswept := gc.swept_markAndSweep m.roots false hl
      have hlit : ∀ w, (gc.markAndSweep m.roots false m.heap).2.heap.Lit w := fun w cm hcm => by
        rw [gc.colors_markAndSweep m.roots false ht.colors] at hcm
        cases hcm
      exact ⟨(), _, hrun, htidy hrun, rfl, rfl, view_safepoint hrun,
        ⟨hswept.top, hswept.permanent, fun i hi =>
          gc.kept_markAndSweep m.roots false hl (.inr (.inr hi))⟩,
        gc.eases_markAndSweep m.roots false hl, hlit _, hlit _⟩
  · exact ⟨(), m, safepoint_after hp.collector, ⟨ρ, .inr ⟨gc, hp⟩⟩, rfl, rfl, rfl,
      ⟨rfl, rfl, fun _ _ => rfl⟩, .refl _, hseen⟩

theorem room_of_safepoint {a b : Nat} {K : List Nat} (hf : Fit ρ m) (hr : safepoint m = .ok () m')
    (hm : m.collector.margins = some (a, b)) (hK : ∀ i, m.heap.Reach m.roots i →
      m.heap.permanent ≤ i → i ∈ K) :
    a ≤ m'.heap.unallocated ∨ b ≤ m'.heap.freeCount ∨
      m'.heap.inUse ≤ m.heap.permanent + K.length := by
  obtain ht | ⟨gc, hp⟩ := hf
  · obtain ⟨gc, hgc⟩ := ht.collector
    obtain ⟨l, hl⟩ := ht.settled.orderly.sound.allocator
    rw [hgc] at hm
    obtain hs | ⟨r, gc', notices, hs⟩ := gc.safepoint_cases m.roots hl ht.colors
    · cases (safepoint_eq (m := m) (by rw [hgc, Collector.safepoint, hs])).symm.trans hr
      obtain h | h := MarkSweep.room_of_safepoint (congrArg Prod.fst hs) hm
      · exact .inl h
      · exact .inr (.inl h)
    · cases (safepoint_eq (m := m) (by rw [hgc, Collector.safepoint, hs])).symm.trans hr
      exact .inr (.inr (gc.inUse_markAndSweep_le m.roots false hl hK))
  · rw [hp.collector] at hm
    cases hm

theorem prepared (hf : Fit ρ m) (hr : prepare m = .ok () m') : ∃ ρ', Fit ρ' m' := by
  obtain ⟨ρ', hs, hd⟩ := (hf.settled.ensures_prepare (E := fun _ => True)).ok hr
  exact ⟨ρ', hf.proceeds hs (hd.proceeds hs.orderly.layout)⟩

theorem advanced {step : Step} (hf : Fit ρ m) (ht : m.threads.head ≠ .nil)
    (hr : advance m.threads.head m = .ok step m') : ∃ ρ', Fit ρ' m' := by
  obtain ⟨-, t, e, a, ho⟩ := hf.settled.open.resolve_left ht
  rw [ho.head] at hr
  obtain ⟨ρ', hs, ha⟩ := (ho.ensures_advance (E := fun _ => True)).ok hr
  exact ⟨ρ', hf.proceeds hs ha.proceeds⟩

end Fit

namespace Machine.Shows

variable {s : Scene}

theorem seen (hs : m.Shows s) : m.roots.Seen m.heap := by
  refine ⟨?_, ?_⟩
  · change m.heap.Lit m.events.head
    rw [hs.events]
    exact hs.litEvents
  · change m.heap.Lit m.threads.head
    rw [hs.threads]
    exact hs.litThreads

theorem reach_image (hs : m.Shows s) {p : Nat × Cell} (hp : p ∈ s.image) :
    m.heap.Reach m.roots p.1 :=
  .permanent (hs.heap.reserved_le p (List.mem_append_left _ hp)) (hs.heap.permanent p hp)
    (hs.heap.live p (List.mem_append_left _ hp)).1.2

theorem reach_field (hs : m.Shows s) {i j : Nat} {c d : Cell} (hi : (i, c) ∈ s.image ++ s.cells)
    (hj : (j, d) ∈ s.image ++ s.cells) (hr : m.heap.Reach m.roots i) (hw : .ref j ∈ c.words) :
    m.heap.Reach m.roots j := by
  obtain ⟨hlive, -⟩ := hs.heap.live _ hj
  refine hr.field (w := .ref j) (by rwa [hs.heap.cellAt hi]) ⟨.inl rfl,
    hs.heap.reserved_le _ hj, hlive⟩

theorem reach_root (hs : m.Shows s) {i : Nat} {c : Cell} (hi : (i, c) ∈ s.image ++ s.cells)
    (hw : s.events.head = .ref i ∨ s.threads.head = .ref i) : m.heap.Reach m.roots i := by
  obtain ⟨hlive, -⟩ := hs.heap.live _ hi
  refine .root (w := .ref i) (mem_roots.2 ?_) ⟨.inl rfl, hs.heap.reserved_le _ hi, hlive⟩
  rw [hs.events, hs.threads]
  obtain hw | hw := hw
  · exact .inr (.inl hw.symm)
  · exact .inr (.inr (.inl hw.symm))

theorem cleans {I L S : List (Nat × Cell)} {events threads : Queue} {view : View}
    (hs : m.Shows ⟨I, L ++ S, events, threads, view⟩) (hc : m.Cleans m') (hf : Fit ρ m')
    (hreach : ∀ p ∈ S, m.heap.Reach m.roots p.1)
    (hroom : m'.heap.inUse + Config.minHeap ≤ m'.heap.capacity + Word.reserved + (I ++ S).length) :
    m'.Shows ⟨I, S, events, threads, view⟩ := by
  have hlayout := hf.settled.orderly.layout
  have hsub : ∀ p ∈ I ++ S, p ∈ I ++ (L ++ S) := fun p hp => by
    rw [List.mem_append] at hp
    rw [List.mem_append, List.mem_append]
    exact hp.imp_right .inr
  have hcell : ∀ p ∈ I ++ S, m'.heap.cellAt p.1 = m.heap.cellAt p.1 := fun p hp =>
    hc.preserves.cell _ ((List.mem_append.1 hp).elim hs.reach_image (hreach p))
  have hnodup : ((I ++ S).map Prod.fst).Nodup :=
    hs.heap.nodup.sublist (((List.sublist_append_right L S).append_left I).map _)
  obtain ⟨hevents, hthreads⟩ := hc.seen
  refine ⟨⟨hlayout.sound, hlayout.literals, fun p hp => ?_, fun p hp =>
    hs.heap.reserved_le p (hsub p hp), hnodup, fun p hp => ?_, fun p hp => ?_,
    hc.preserves.permanent ▸ hs.heap.whole, hroom, hc.eases.capacity ▸ hs.heap.capacity,
    hc.eases.sanity ▸ hs.heap.sanity⟩, hc.events.trans hs.events, hc.threads.trans hs.threads,
    hc.view.trans hs.view, ?_, ?_⟩
  · rw [Heap.Live, hcell p hp, hc.preserves.top]
    exact hs.heap.live p (hsub p hp)
  · exact hc.preserves.permanent ▸ hs.heap.permanent p hp
  · exact hc.preserves.permanent ▸ hs.heap.loose p (List.mem_append_right L hp)
  · have he : m.events = events := hs.events
    exact he ▸ hevents
  · have ht : m.threads = threads := hs.threads
    exact ht ▸ hthreads

theorem kept (hs : m.Shows s) (hc : m.Cleans m') (hf : Fit ρ m')
    (hreach : ∀ p ∈ s.cells, m.heap.Reach m.roots p.1) :
    m'.Shows s := by
  refine cleans (L := []) hs hc hf hreach ?_
  have hroom := hs.heap.room
  have hinUse := hc.eases.inUse
  rw [hc.eases.capacity]
  omega

theorem mem_image (hs : m.Shows s) {i : Nat} (hi : Word.reserved ≤ i) (hlt : i < m.heap.permanent) :
    i ∈ s.image.map Prod.fst := by
  have hnodup : (s.image.map Prod.fst).Nodup := by
    have hn := hs.heap.nodup
    rw [List.map_append] at hn
    exact (List.nodup_append.1 hn).1
  have hsub : s.image.map Prod.fst ⊆ List.range' Word.reserved (m.heap.permanent - Word.reserved) :=
      fun j hj => by
    obtain ⟨p, hp, rfl⟩ := List.mem_map.1 hj
    have := hs.heap.permanent p hp
    have := hs.heap.reserved_le p (List.mem_append_left _ hp)
    rw [List.mem_range'_1]
    omega
  have hperm := (List.subperm_of_subset hnodup hsub).perm_of_length_le (by
    have := hs.heap.whole
    rw [List.length_range', List.length_map]
    omega)
  rw [hperm.mem_iff, List.mem_range'_1]
  omega

theorem mem_of_reach {S : List (Nat × Cell)} (hs : m.Shows s) (hsub : ∀ p ∈ S, p ∈ s.cells)
    (hroots : ∀ w ∈ m.roots.words, ∀ i, m.heap.Leads w i → i ∈ (s.image ++ S).map Prod.fst)
    (hcells : ∀ p ∈ s.image ++ S, ∀ w ∈ p.2.words, ∀ i, m.heap.Leads w i →
      i ∈ (s.image ++ S).map Prod.fst)
    {i : Nat} (hr : m.heap.Reach m.roots i) (hi : m.heap.permanent ≤ i) : i ∈ S.map Prod.fst := by
  have hmem : i ∈ (s.image ++ S).map Prod.fst := by
    clear hi
    induction hr with
    | root hw hl => exact hroots _ hw _ hl
    | permanent hi hlt _ =>
      rw [List.map_append]
      exact List.mem_append_left _ (hs.mem_image hi hlt)
    | field _ hw hl ih =>
      obtain ⟨p, hp, rfl⟩ := List.mem_map.1 ih
      have hlist : p ∈ s.image ++ s.cells := by
        rw [List.mem_append] at hp ⊢
        exact hp.imp_right (hsub p)
      rw [(hs.heap.live p hlist).2] at hw
      exact hcells p hp _ hw _ hl
  rw [List.map_append] at hmem
  refine (List.mem_append.1 hmem).resolve_left fun h => ?_
  obtain ⟨p, hp, rfl⟩ := List.mem_map.1 h
  exact absurd (hs.heap.permanent p hp) (Nat.not_lt.2 hi)

end Machine.Shows

end ActorMachine
