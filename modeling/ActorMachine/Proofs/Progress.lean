import ActorMachine.Proofs.Allocator
import ActorMachine.Proofs.FullCycle
import Mathlib.Order.Interval.Set.Nat

namespace ActorMachine

open Heap

variable {h h' h'' : Heap} {m : ColorMap} {roots : Roots} {i : Nat}

namespace Heap

/-- Free list and colours follow the cells. Of a cell that counts as live nothing more is known: one
that is sealed before it was reached counts so after the next swap, wherever it leads. -/
structure Tracked (h : Heap) : Prop where
  allocator : ∃ l, h.FreeList l
  tinted : ∃ m, h.colors = some m ∧ m.Fits h

theorem Sound.tracked (hs : h.Sound) (hc : h.colors.isSome = true) : h.Tracked := by
  obtain ⟨m, hm⟩ := Option.isSome_iff_exists.1 hc
  exact ⟨hs.allocator, m, hm, (hs.tinted m hm).fits⟩

namespace Tracked

theorem shade (hs : h.Tracked) (v : Word) : (h.shade v).Tracked := by
  obtain ⟨⟨l, hf⟩, m, hm, hv⟩ := hs
  obtain ⟨hlabel, hsize, huse⟩ := hv.markLive hf.top_le v
  refine ⟨⟨l, hf.of_eq (by simp) (by simp) (by simp) (by simp) (by simp)⟩, _, ?_, hlabel,
    by simpa using hsize, by simpa using huse⟩
  rw [colors_shade, hm]
  rfl

theorem reclaim (hs : h.Tracked) (hp : h.permanent ≤ i) (ht : i < h.top)
    (hu : (h.cellAt i).t ≠ .freeT) :
    (h.reclaim i).Tracked := by
  obtain ⟨⟨l, hf⟩, m, hm, hv⟩ := hs
  refine ⟨⟨i :: l, hf.reclaim hp ht hu⟩, _, ?_, hv.reclaim (Nat.lt_of_lt_of_le ht hf.top_le)⟩
  change h.colors.map _ = _
  rw [hm]
  rfl

theorem flip (hs : h.Tracked) (hm : h.colors = some m) :
    ({ h with colors := some m.flip } : Heap).Tracked := by
  obtain ⟨⟨l, hf⟩, m', hm', hv⟩ := hs
  cases hm.symm.trans hm'
  exact ⟨⟨l, hf.of_eq rfl rfl rfl rfl rfl⟩, m.flip, rfl, hv.labelled.flip, hv.size, hv.inUse⟩

end Tracked

theorem Changes.tracked (hc : h.Changes h') (hs : h.Tracked) : h'.Tracked := by
  obtain ⟨⟨l, hf⟩, m, hm, hv⟩ := hs
  cases hc with
  | take ht he =>
    obtain ⟨i, rfl, htake, l', hf'⟩ := hf.alloc he ht
    have hl : h'.Leads (.ref i) i :=
      ⟨.inl rfl, Nat.le_trans hf.reserved_le htake.permanent_le, htake.lt_top, htake.self ▸ ht⟩
    refine ⟨⟨l', hf'⟩, _, ?_, hv.takes htake hf'.top_le hl⟩
    rw [colors_alloc he, hm]
    rfl
  | give he =>
    obtain ⟨hp, ht, hu, rfl⟩ := free_ok he
    exact Tracked.reclaim ⟨⟨l, hf⟩, m, hm, hv⟩ hp ht hu
  | @write v w f hu hw he =>
    obtain ⟨i, rfl, -, hset⟩ := store_ok hf.top_le he
    have hu' : ((h.cellAt i).set f w).t ≠ .freeT := by
      cases f with
      | t => exact hw rfl
      | x | y | z => exact hu
    have hf' := hf.sets hset hu hu'
    refine ⟨⟨l, hf'⟩, _, ?_, (hv.sets hset hu hu').markLive hf'.top_le w⟩
    rw [colors_store he, hm]
    rfl
  | sealCells he =>
    rw [sealCells_ok hf he]
    exact ⟨⟨[], hf.sealed⟩, m, hm, hv.labelled, hv.size, hv.inUse⟩

theorem Evolves.tracked (he : h.Evolves h') (hs : h.Tracked) : h'.Tracked := by
  induction he with
  | refl => exact hs
  | tail _ hc ih => exact hc.tracked ih

structure Serves (h h' : Heap) : Prop where
  tracked : h'.Tracked
  permanent : h'.permanent = h.permanent
  top : h'.top = h.top

namespace Serves

theorem trans (h₁ : h.Serves h') (h₂ : h'.Serves h'') : h.Serves h'' :=
  ⟨h₂.tracked, h₂.permanent.trans h₁.permanent, h₂.top.trans h₁.top⟩

theorem shade (hs : h.Tracked) (v : Word) : h.Serves (h.shade v) :=
  ⟨hs.shade v, h.permanent_shade v, h.top_shade v⟩

theorem shadeAll (hs : h.Tracked) (ws : List Word) : h.Serves (ws.foldl Heap.shade h) := by
  induction ws generalizing h with
  | nil => exact ⟨hs, rfl, rfl⟩
  | cons w ws ih => exact (shade hs w).trans (ih (hs.shade w))

theorem reclaim (hs : h.Tracked) (hm : h.colors = some m) (hi : m.color i = m.prev)
    (hp : h.permanent ≤ i) (ht : i < h.top) : h.Serves (h.reclaim i) := by
  obtain ⟨m', hm', hv⟩ := hs.tinted
  cases hm.symm.trans hm'
  exact ⟨hs.reclaim hp ht ((hv.inUse i).1 (hi ▸ hv.labelled.prev_ne_free)).2, rfl, rfl⟩

end Serves

def tinged (p : ColorMap → Color → Prop) (h : Heap) : Set Nat :=
  {i | i < h.top ∧ ∃ m, h.colors = some m ∧ p m (m.color i)}

theorem finite_tinged (p : ColorMap → Color → Prop) (h : Heap) : (h.tinged p).Finite :=
  (Set.finite_lt_nat h.top).subset fun _ hi => hi.1

theorem ncard_tinged_le (p : ColorMap → Color → Prop) (h : Heap) : (h.tinged p).ncard ≤ h.top := by
  have hsub : h.tinged p ⊆ Set.Iio h.top := fun i hi => hi.1
  have := Set.ncard_le_ncard hsub (Set.finite_lt_nat h.top)
  rwa [Set.ncard_Iio_nat] at this

theorem ncard_tinged_shade (hs : h.Tracked) (hm : h.colors = some m) (hi : m.color i = .scan)
    (hr : Word.reserved ≤ i) (ht : i < h.top) :
    ((h.shade (.ref i)).tinged fun m c => c ≠ m.next).ncard <
      (h.tinged fun m c => c ≠ m.next).ncard := by
  obtain ⟨⟨l, hf⟩, m', hm', hv⟩ := hs
  cases hm.symm.trans hm'
  have hl : collectable? h.cells h.top (.ref i) = some i := by
    refine collectable?_eq_some_iff.2 ⟨.inl rfl, hr, (hv.inUse i).1 ?_⟩
    rw [hi]
    decide
  have htop := hf.top_le
  have hcolor := ColorMap.color_markLive hv.labelled hl (by rw [hv.size]; omega)
  have hcol : (h.shade (.ref i)).colors = some (m.markLive h.cells h.top (.ref i)) := by
    rw [colors_shade, hm]
    rfl
  refine Set.ncard_lt_ncard ⟨?_, fun hsub => ?_⟩ (finite_tinged _ h)
  · rintro j ⟨hj, m', hm', hc⟩
    rw [hcol] at hm'
    cases hm'
    rw [hcolor, ColorMap.next_markLive] at hc
    refine ⟨by simpa using hj, m, hm, fun he => hc ?_⟩
    split
    · rfl
    · rw [if_neg fun hp => hv.labelled.prev_ne_next (hp.1.symm.trans he)]
      exact he
  · obtain ⟨-, m', hm', hc⟩ := hsub ⟨ht, m, hm, by rw [hi]; exact hv.labelled.next_ne_scan.symm⟩
    rw [hcol] at hm'
    cases hm'
    rw [hcolor, if_pos rfl, ColorMap.next_markLive] at hc
    exact hc rfl

theorem ncard_tinged_reclaim (hs : h.Tracked) (hm : h.colors = some m) (hi : m.color i = m.prev)
    (ht : i < h.top) :
    ((h.reclaim i).tinged fun m c => c = m.prev).ncard <
      (h.tinged fun m c => c = m.prev).ncard := by
  obtain ⟨m', hm', hv⟩ := hs.tinted
  cases hm.symm.trans hm'
  have hlabel := hv.labelled
  have hcolor := ColorMap.color_paint (ColorMap.lt_size (hi ▸ hlabel.prev_ne_free)) .free
  have hcol : (h.reclaim i).colors = some (m.paint i .free) := by
    change h.colors.map _ = _
    rw [hm]
    rfl
  refine Set.ncard_lt_ncard ⟨?_, fun hsub => ?_⟩ (finite_tinged _ h)
  · rintro j ⟨hj, m', hm', hc⟩
    rw [hcol] at hm'
    cases hm'
    rw [hcolor] at hc
    refine ⟨hj, m, hm, ?_⟩
    split at hc
    · exact absurd hc.symm hlabel.prev_ne_free
    · exact hc
  · obtain ⟨-, m', hm', hc⟩ := hsub ⟨ht, m, hm, hi⟩
    rw [hcol] at hm'
    cases hm'
    rw [hcolor, if_pos rfl] at hc
    exact hlabel.prev_ne_free hc.symm

end Heap

namespace Incremental

variable {gc : Incremental} {t t' t'' : Turn Incremental} {k n : Nat}

noncomputable def work (roots : Roots) (t : Turn Incremental) : Nat :=
  match t.collector.phase with
  | .flip => roots.symbols.size + (t.heap.permanent - Word.reserved) + 2 * t.heap.top + 4
  | .roots =>
    roots.symbols.size + (t.heap.permanent - Word.reserved) - t.collector.index + 2 * t.heap.top + 3
  | .scan => (t.heap.tinged fun m c => c ≠ m.next).ncard + t.heap.top + 2
  | .sweep => (t.heap.tinged fun m c => c = m.prev).ncard + 1

def round (roots : Roots) (h : Heap) : Nat :=
  roots.symbols.size + (h.permanent - Word.reserved) + 2 * h.top + 4

theorem round_congr (roots : Roots) (hserves : h.Serves h') : round roots h' = round roots h := by
  rw [round, hserves.permanent, hserves.top, round]

theorem work_pos (roots : Roots) (t : Turn Incremental) : 0 < work roots t := by
  unfold work
  split <;> omega

theorem work_flip (roots : Roots) (hphase : t.collector.phase = .flip) :
    work roots t = round roots t.heap := by
  rw [work, hphase]
  rfl

theorem work_le_round (roots : Roots) (t : Turn Incremental) :
    work roots t ≤ round roots t.heap := by
  have hscan := ncard_tinged_le (fun m c => c ≠ m.next) t.heap
  have hsweep := ncard_tinged_le (fun m c => c = m.prev) t.heap
  unfold work round
  split <;> omega

/-- The cycle has come on by so much, and is not over. -/
structure Advances (roots : Roots) (k : Nat) (t t' : Turn Incremental) : Prop where
  serves : t.heap.Serves t'.heap
  phase : t'.collector.phase ≠ .flip
  work : work roots t' + k ≤ work roots t

/-- The cycle is over, and nothing that could be reclaimed has the label of the previous
generation. -/
structure Finishes (t t' : Turn Incremental) : Prop where
  serves : t.heap.Serves t'.heap
  phase : t'.collector.phase = .flip
  done : ∀ m, t'.heap.colors = some m → ∀ i, t'.heap.permanent ≤ i → i < t'.heap.top →
  m.color i ≠ m.prev

theorem Advances.refl (hs : t.heap.Tracked) (hphase : t.collector.phase ≠ .flip) :
    Advances roots 0 t t :=
  ⟨⟨hs, rfl, rfl⟩, hphase, Nat.le_refl _⟩

theorem Advances.trans (h₁ : Advances roots k t t') (h₂ : Advances roots n t' t'') :
    Advances roots k t t'' := by
  refine ⟨h₁.serves.trans h₂.serves, h₂.phase, ?_⟩
  have := h₁.work
  have := h₂.work
  omega

theorem Finishes.trans (hserves : t.heap.Serves t'.heap) (hf : Finishes t' t'') : Finishes t t'' :=
  ⟨hserves.trans hf.serves, hf.phase, hf.done⟩

theorem advances_flip (roots : Roots) (hs : t.heap.Tracked) (hphase : t.collector.phase = .flip) :
    Advances roots 1 t (flip roots t) := by
  obtain ⟨m, hm, -⟩ := hs.tinted
  obtain ⟨hs', hperm, htop⟩ := Serves.shadeAll (hs.flip hm) roots.direct
  unfold flip
  rw [hm]
  refine ⟨⟨hs', hperm, htop⟩, by simp, ?_⟩
  simp only [Incremental.work, hphase, hperm, htop]
  omega

theorem advances_shadeRoots (roots : Roots) (hs : t.heap.Tracked)
    (hphase : t.collector.phase = .roots) (n : Nat) :
    Advances roots (min n 1) t (shadeRoots roots n t) := by
  induction n generalizing t with
  | zero => exact .refl hs (by simp [hphase])
  | succ n ih =>
    rw [Nat.min_eq_right (Nat.le_add_left 1 n)]
    unfold shadeRoots
    cases hv : later? roots t.heap t.collector.index with
    | some v =>
      refine .trans ⟨.shade hs v, by simp [hphase], ?_⟩ (ih (hs.shade v) hphase)
      have := lt_of_later? hv
      simp only [Incremental.work, hphase, permanent_shade, top_shade]
      omega
    | none =>
      refine ⟨⟨hs, rfl, rfl⟩, by simp, ?_⟩
      have := ncard_tinged_le (fun m c => c ≠ m.next) t.heap
      simp only [Incremental.work, hphase]
      omega

theorem advances_scan (roots : Roots) (hs : t.heap.Tracked) (hphase : t.collector.phase = .scan)
    (n : Nat) :
    Advances roots (min n 1) t (scan n t) := by
  induction n generalizing t with
  | zero => exact .refl hs (by simp [hphase])
  | succ n ih =>
    rw [Nat.min_eq_right (Nat.le_add_left 1 n)]
    unfold scan
    obtain ⟨m, hm, -⟩ := hs.tinted
    rw [hm]
    dsimp only
    cases hf : m.find .scan Word.reserved t.heap.top t.collector.cursor with
    | some i =>
      obtain ⟨hlo, hhi, hi⟩ := ColorMap.find_eq_some hf
      refine .trans ⟨.shade hs (.ref i), by simp [hphase], ?_⟩ (ih (hs.shade (.ref i)) hphase)
      have := ncard_tinged_shade hs hm hi hlo hhi
      simp only [Incremental.work, hphase, top_shade]
      omega
    | none =>
      refine ⟨⟨hs, rfl, rfl⟩, by simp, ?_⟩
      have := ncard_tinged_le (fun m c => c = m.prev) t.heap
      simp only [Incremental.work, hphase]
      omega

theorem advances_sweep (roots : Roots) (hs : t.heap.Tracked) (hphase : t.collector.phase = .sweep)
    (n : Nat) :
    Advances roots (min n 1) t (sweep n t) ∨ Finishes t (sweep n t) := by
  induction n generalizing t with
  | zero => exact .inl (.refl hs (by simp [hphase]))
  | succ n ih =>
    rw [Nat.min_eq_right (Nat.le_add_left 1 n)]
    unfold sweep
    obtain ⟨m, hm, -⟩ := hs.tinted
    rw [hm]
    dsimp only [Option.bind_some]
    cases hf : m.find m.prev t.heap.permanent t.heap.top t.collector.cursor with
    | some i =>
      obtain ⟨hlo, hhi, hi⟩ := ColorMap.find_eq_some hf
      have hserves := Serves.reclaim hs hm hi hlo hhi
      have hfirst : Advances roots 1 t { t with
          heap := t.heap.reclaim i
          collector := { t.collector with cursor := i } } := by
        refine ⟨hserves, by simp [hphase], ?_⟩
        have := ncard_tinged_reclaim hs hm hi hhi
        simp only [Incremental.work, hphase]
        omega
      have hrest := ih hfirst.serves.tracked hphase
      exact hrest.imp hfirst.trans (.trans hserves)
    | none =>
      refine .inr ⟨⟨hs, rfl, rfl⟩, rfl, fun m' hm' i hlo hhi => ?_⟩
      cases hm.symm.trans hm'
      exact ColorMap.find_eq_none hf hlo hhi

theorem advances_step (roots : Roots) (hs : t.heap.Tracked) (hstride : 1 ≤ t.collector.stride) :
    (step roots t).collector.stride = t.collector.stride ∧
      ((step roots t).collector.completed = t.collector.completed ∧
        Advances roots 1 t (step roots t) ∨
        (step roots t).collector.completed = t.collector.completed + 1 ∧
        Finishes t (step roots t)) := by
  obtain ⟨m, hm, -⟩ := hs.tinted
  unfold step
  cases hphase : t.collector.phase with
  | flip =>
    refine ⟨?_, .inl ⟨?_, advances_flip roots hs hphase⟩⟩ <;> simp only [flip, hm]
  | roots =>
    dsimp only
    rw [if_pos (by rw [hm]; rfl)]
    obtain ⟨hsame, hcompleted⟩ := settings_shadeRoots roots t.collector.stride t
    have ha := advances_shadeRoots roots hs hphase t.collector.stride
    rw [Nat.min_eq_right hstride] at ha
    exact ⟨hsame, .inl ⟨hcompleted, ha⟩⟩
  | scan =>
    obtain ⟨hsame, hcompleted⟩ := settings_scan t.collector.stride t
    have ha := advances_scan roots hs hphase t.collector.stride
    rw [Nat.min_eq_right hstride] at ha
    exact ⟨hsame, .inl ⟨hcompleted, ha⟩⟩
  | sweep =>
    obtain ⟨hsame, hcompleted⟩ := settings_sweep hphase t.collector.stride
    refine ⟨hsame, ?_⟩
    dsimp only
    rw [hcompleted]
    obtain ha | hd := advances_sweep roots hs hphase t.collector.stride
    · rw [Nat.min_eq_right hstride] at ha
      exact .inl ⟨by simp [ha.phase], ha⟩
    · exact .inr ⟨by simp [hd.phase], hd⟩

theorem finishes_stepUntil {goal n : Nat} {task : String} (hs : t.heap.Tracked)
    (hstride : 1 ≤ t.collector.stride) (hgoal : t.collector.completed < goal)
    (hb : work roots t + (goal - (t.collector.completed + 1)) * round roots t.heap ≤ n) :
    ∃ t', stepUntil roots goal ⟨n, task⟩ t = (.ok (report t'.heap), t') ∧ Finishes t t' ∧
      t'.collector.completed = goal := by
  -- The rest of the cycle in progress, and a whole round for each cycle after it, are turns enough.
  induction n generalizing t with
  | zero =>
    have := work_pos roots t
    omega
  | succ n ih =>
    unfold stepUntil
    rw [if_pos hgoal]
    change ∃ t', stepUntil roots goal ⟨n, task⟩ (step roots t) = _ ∧ _
    obtain ⟨hsame, ⟨hcompleted, ha⟩ | ⟨hcompleted, hd⟩⟩ := advances_step roots hs hstride
    · have hb' : work roots (step roots t) + (goal - ((step roots t).collector.completed + 1)) *
          round roots (step roots t).heap ≤ n := by
        rw [round_congr roots ha.serves, hcompleted]
        have := ha.work
        omega
      obtain ⟨t', he, hd, hn⟩ := ih ha.serves.tracked (hsame ▸ hstride) (hcompleted ▸ hgoal) hb'
      exact ⟨t', he, .trans ha.serves hd, hn⟩
    · obtain hlast | hmore := Nat.eq_or_lt_of_le (Nat.succ_le_of_lt hgoal)
      · refine ⟨step roots t, ?_, hd, hcompleted.trans hlast⟩
        unfold stepUntil
        rw [if_neg (by omega)]
      · -- One of the rounds set aside pays for the next cycle.
        have hb' : work roots (step roots t) + (goal - ((step roots t).collector.completed + 1)) *
            round roots (step roots t).heap ≤ n := by
          have hcount : goal - (t.collector.completed + 1) =
            goal - (t.collector.completed + 1 + 1) + 1 := by omega
          rw [hcount, Nat.succ_mul] at hb
          rw [work_flip roots hd.phase, round_congr roots hd.serves, hcompleted]
          have := work_pos roots t
          omega
        obtain ⟨t', he, hd', hn⟩ := ih hd.serves.tracked (hsame ▸ hstride) (hcompleted ▸ hmore) hb'
        exact ⟨t', he, .trans hd.serves hd', hn⟩

theorem finishes_collect (hs : h.enableColors.Tracked) (hstride : 1 ≤ gc.stride) (roots : Roots)
    (hsymbols : roots.symbols.size ≤ 256) :
    ∃ t, gc.collect roots h = (.ok (report t.heap), t) ∧
      Finishes { collector := gc, heap := h.enableColors } t ∧
      t.collector.completed = gc.completed + if gc.phase = .flip then 1 else 2 := by
  obtain ⟨l, hf⟩ := hs.allocator
  have hround : round roots h.enableColors ≤ 3 * h.capacity + 260 := by
    have h1 := hf.permanent_le
    have h2 := hf.top_le
    rw [capacity_enableColors] at h2
    unfold round
    omega
  have hwork := work_le_round roots { collector := gc, heap := h.enableColors }
  dsimp only at hwork
  unfold collect
  refine finishes_stepUntil hs hstride ?_ ?_
  · dsimp only
    split <;> omega
  · dsimp only
    split
    · rw [Nat.sub_self, Nat.zero_mul]
      omega
    · rw [show gc.completed + 2 - (gc.completed + 1) = 1 by omega, Nat.one_mul]
      omega

/-- Turns of a new collector, and requests in between, in any order. The roots may be others at
every turn. -/
inductive Accompanies : Incremental → Heap → Prop
  | start {c : Config} {h : Heap} : 1 ≤ c.stride → h.Tracked → Accompanies (.ofConfig c) h
  | ask {gc : Incremental} {h : Heap} (r : Request) : Accompanies gc h → r.Lawful h →
      Accompanies gc (final r.run h)
  | turn {gc : Incremental} {h : Heap} (roots : Roots) : Accompanies gc h →
      Accompanies (step roots { collector := gc, heap := h }).collector
        (step roots { collector := gc, heap := h }).heap

theorem Accompanies.tracked (ha : Accompanies gc h) : h.Tracked ∧ 1 ≤ gc.stride := by
  induction ha with
  | start hstride hs => exact ⟨hs, hstride⟩
  | ask r _ hr ih =>
    obtain ⟨hs, hstride⟩ := ih
    obtain ⟨l, hf⟩ := hs.allocator
    exact ⟨(r.evolves hr hf).tracked hs, hstride⟩
  | @turn gc h roots _ ih =>
    obtain ⟨hs, hstride⟩ := ih
    obtain ⟨hsame, hcase⟩ := advances_step roots (t := { collector := gc, heap := h }) hs hstride
    refine ⟨?_, hsame ▸ hstride⟩
    obtain ⟨-, hadv⟩ | ⟨-, hd⟩ := hcase
    · exact hadv.serves.tracked
    · exact hd.serves.tracked

/-- A collection never runs out of turns, whatever phase it finds the collector in. It ends between
two cycles, one more complete if it began there and two if not, and leaves nothing of the previous
generation to reclaim. -/
theorem Accompanies.collect_completes (ha : Accompanies gc h) (roots : Roots)
    (hsymbols : roots.symbols.size ≤ 256) :
    ∃ t, gc.collect roots h = (.ok (report t.heap), t) ∧ t.collector.phase = .flip ∧
      t.collector.completed = gc.completed + (if gc.phase = .flip then 1 else 2) ∧
      t.heap.permanent = h.permanent ∧ t.heap.top = h.top ∧
      (∃ m, t.heap.colors = some m ∧ ∀ i, h.permanent ≤ i → i < h.top → m.color i ≠ m.prev) ∧
      ∃ l, t.heap.FreeList l := by
  obtain ⟨hs, hstride⟩ := ha.tracked
  obtain ⟨m, hm, -⟩ := hs.tinted
  have hsame : h.enableColors = h := Heap.enableColors_eq (by rw [hm]; rfl)
  obtain ⟨t, he, ⟨hserves, hphase, hdone⟩, hn⟩ :=
    finishes_collect (hsame.symm ▸ hs) hstride roots hsymbols
  rw [hsame] at hserves
  obtain ⟨hs', hperm, htop⟩ := hserves
  dsimp only at hperm htop
  obtain ⟨m', hm', -⟩ := hs'.tinted
  rw [hperm, htop] at hdone
  exact ⟨t, he, hphase, hn, hperm, htop, ⟨m', hm', hdone m' hm'⟩, hs'.allocator⟩

theorem Accompanies.collect_completes_sealed :
    ∃ gc h, Accompanies gc h ∧ gc.phase = .scan ∧ h.permanent = 16 ∧
    (h.colors.map fun m => (m.color 13, m.color 15, m.prev)) = some (.scan, .genX, .genX) ∧
    ∃ t, gc.collect { pinned := #[.ref 14] } h = (.ok (report t.heap), t) ∧
      t.collector.phase = .flip ∧
      t.collector.completed = gc.completed + 2 ∧ ∃ l, t.heap.FreeList l := by
  -- Of three pairs one is pinned and leads to another. All are sealed while that one waits for the
  -- scan and the third one still has the label of the previous generation.
  have hnew : (Heap.new 17).enableColors.Sound :=
    Heap.sound_enableColors (Heap.freeList_new 17 17) rfl
  have hstart : Accompanies (.ofConfig { stride := 1 }) (Heap.new 17).enableColors :=
    .start (by decide) (hnew.tracked rfl)
  have hasked := ((hstart.ask (.cons .nil .nil) trivial).ask (.cons (.ref 13) .nil) trivial).ask
    (.cons .nil .nil) trivial
  have hsealed :=
    ((hasked.turn { pinned := #[.ref 14] }).turn { pinned := #[.ref 14] }).ask .sealCells trivial
  obtain ⟨t, he, hphase, hn, -, -, -, hl⟩ := hsealed.collect_completes { pinned := #[.ref 14] }
    (by decide)
  rw [if_neg (by decide +kernel)] at hn
  exact ⟨_, _, hsealed, by decide +kernel, by decide +kernel, by decide +kernel, t, he,
    hphase, hn, hl⟩

end Incremental

end ActorMachine
