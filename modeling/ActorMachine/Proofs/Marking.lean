import ActorMachine.Proofs.CondemnedCells
import ActorMachine.Proofs.Search
/-! How a cycle of the incremental collector marks. Shading changes colours alone, and makes no cell
look unreached. Main statement: once nothing is left to scan, the cells that were proven live may be
retained, provided that every root was reached. A property that does not depend on colours, and that
giving back a cell keeps, outlasts any turn. -/

namespace ActorMachine

namespace ColorMap

variable {m : ColorMap}

theorem Labelled.cases (hm : m.Labelled) (c : Color) :
    c = m.prev ∨ c = m.next ∨ c = .scan ∨ c = .free := by
  obtain ⟨h1, h2, h3, h4, h5⟩ := hm
  cases hp : m.prev <;> cases hn : m.next <;> cases c <;> simp_all

theorem Labelled.flip (hm : m.Labelled) : m.flip.Labelled :=
  ⟨hm.prev_ne_next.symm, hm.next_ne_scan, hm.next_ne_free, hm.prev_ne_scan, hm.prev_ne_free⟩

end ColorMap

namespace Heap

variable {h h' h'' : Heap} {m : ColorMap} {roots : Roots} {w : Word} {i : Nat}

/-- Colours alone have changed, and no cell has turned unreached. -/
structure Tints (h h' : Heap) : Prop where
  sound : h'.Sound
  fades : h.Fades h'
  cell : ∀ i, h'.cellAt i = h.cellAt i
  permanent : h'.permanent = h.permanent
  top : h'.top = h.top

theorem Sound.tints (hs : h.Sound) : h.Tints h := ⟨hs, .refl h, fun _ => rfl, rfl, rfl⟩

theorem Tints.trans (h₁ : h.Tints h') (h₂ : h'.Tints h'') : h.Tints h'' :=
  ⟨h₂.sound, h₁.fades.trans h₂.fades, fun i => (h₂.cell i).trans (h₁.cell i),
    h₂.permanent.trans h₁.permanent, h₂.top.trans h₁.top⟩

theorem Sound.tints_shade (hs : h.Sound) (v : Word) : h.Tints (h.shade v) :=
  ⟨(hs.shade v).1, (hs.shade v).2, h.cellAt_shade v, h.permanent_shade v, h.top_shade v⟩

theorem Sound.tints_shadeAll (hs : h.Sound) (ws : List Word) :
    h.Tints (ws.foldl Heap.shade h) ∧ ∀ w ∈ ws, (ws.foldl Heap.shade h).Lit w := by
  induction ws generalizing h with
  | nil => exact ⟨hs.tints, by simp⟩
  | cons v ws ih =>
    have ht := hs.tints_shade v
    obtain ⟨htail, hlit⟩ := ih ht.sound
    refine ⟨ht.trans htail, fun w hw => ?_⟩
    obtain rfl | hw := List.mem_cons.1 hw
    · exact htail.fades.lit (hs.lit_shade w)
    · exact hlit w hw

theorem Sound.flip (hs : h.Sound) (hm : h.colors = some m) (hlit : ∀ i, h.Lit (.ref i)) :
    ({ h with colors := some m.flip } : Heap).Sound := by
  -- The generations may be swapped once nothing looks unreached.
  obtain ⟨l, hf⟩ := hs.allocator
  have hv := hs.tinted m hm
  refine ⟨⟨l, hf.of_eq rfl rfl rfl rfl rfl⟩, fun m' hm' => ?_⟩
  cases hm'
  exact ⟨hv.labelled.flip, hv.size, hv.inUse, fun i hr hi =>
    absurd hi (hlit i m hm i hr (.inl rfl))⟩

def Scanned (h : Heap) : Prop :=
  ∀ m, h.colors = some m → ∀ i, Word.reserved ≤ i → i < h.top → m.color i ≠ .scan

theorem Scanned.color (hs : h.Sound) (hm : h.colors = some m) (hd : h.Scanned) (hl : h.Leads w i)
    (hi : m.color i ≠ m.prev) : m.color i = m.next := by
  have hv := hs.tinted m hm
  have hu := (hv.inUse i).2 hl.2.2
  have hscan := hd m hm i hl.2.1 hl.2.2.1
  obtain hc | hc | hc | hc := hv.labelled.cases (m.color i)
  · exact absurd hc hi
  · exact hc
  · exact absurd hc hscan
  · exact absurd hc hu

theorem Scanned.retains (hs : h.Sound) (hm : h.colors = some m) (hd : h.Scanned)
    (hroot : ∀ w ∈ roots.words, h.Lit w)
    (hperm : ∀ i, Word.reserved ≤ i → i < h.permanent → h.Lit (.ref i)) :
    h.Retains roots fun i => Word.reserved ≤ i ∧ m.color i = m.next := by
  obtain ⟨l, hf⟩ := hs.allocator
  refine ⟨fun w hw i hl => ⟨hl.2.1, hd.color hs hm hl (hroot w hw m hm i hl.2.1 hl.1)⟩,
    fun i h1 h2 h3 => ?_, fun i hi w hw j hl =>
    ⟨hl.2.1, hd.color hs hm hl ((hs.tinted m hm).closed i hi.1 hi.2 w hw j hl)⟩⟩
  have hl : h.Leads (.ref i) i := ⟨.inl rfl, h1, Nat.lt_of_lt_of_le h2 hf.permanent_le, h3⟩
  exact ⟨h1, hd.color hs hm hl (hperm i h1 h2 m hm i h1 (.inl rfl))⟩

end Heap

namespace Incremental

variable {roots : Roots} {t t' : Turn Incremental} {h h' : Heap}

theorem later?_congr (roots : Roots) (hp : h'.permanent = h.permanent) (i : Nat) :
    later? roots h' i = later? roots h i := by
  unfold later?
  rw [hp]

theorem later?_symbol {i : Nat} {w : Word} (hw : roots.symbols.toList[i]? = some w) :
    later? roots h i = some w := by
  unfold later?
  rw [Array.getElem?_toList] at hw
  rw [hw]

theorem later?_permanent (roots : Roots) {i : Nat} (hr : Word.reserved ≤ i) (hi : i < h.permanent) :
    later? roots h (roots.symbols.size + (i - Word.reserved)) = some (.ref i) := by
  unfold later?
  rw [Array.getElem?_eq_none (by omega)]
  dsimp only
  rw [if_pos (by omega)]
  congr 2
  omega

theorem later?_eq_none {i : Nat} (hi : later? roots h i = none) :
    roots.symbols.size + (h.permanent - Word.reserved) ≤ i := by
  unfold later? at hi
  split at hi
  · cases hi
  · split at hi
    · cases hi
    · omega

/-- Symbols and permanent cells were shaded one after the other, all of them if the scan has
begun. -/
structure Shades (roots : Roots) (t t' : Turn Incremental) : Prop where
  tints : t.heap.Tints t'.heap
  index : t.collector.index ≤ t'.collector.index
  lit : ∀ i, t.collector.index ≤ i → i < t'.collector.index → ∀ w, later? roots t.heap i = some w →
    t'.heap.Lit w
  phase : t'.collector.phase = .roots ∨
    t'.collector.phase = .scan ∧ later? roots t.heap t'.collector.index = none

theorem shades_shadeRoots (roots : Roots) (hs : t.heap.Sound) (hp : t.collector.phase = .roots)
    (n : Nat) :
    Shades roots t (shadeRoots roots n t) := by
  induction n generalizing t with
  | zero => exact ⟨hs.tints, Nat.le_refl _, fun i h1 h2 => absurd h2 (Nat.not_lt.2 h1), .inl hp⟩
  | succ n ih =>
    unfold shadeRoots
    cases hv : later? roots t.heap t.collector.index with
    | none =>
      exact ⟨hs.tints, Nat.le_refl _, fun i h1 h2 => absurd h2 (Nat.not_lt.2 h1), .inr ⟨rfl, hv⟩⟩
    | some v =>
      dsimp only
      have ht := hs.tints_shade v
      have hrest := ih (t := { t with
        heap := t.heap.shade v
        collector := { t.collector with index := t.collector.index + 1 } }) ht.sound hp
      have hlater := later?_congr roots ht.permanent
      refine ⟨ht.trans hrest.tints, Nat.le_of_succ_le hrest.index, fun i h1 h2 w hw => ?_, ?_⟩
      · obtain rfl | h1 := Nat.eq_or_lt_of_le h1
        · rw [hv] at hw
          cases hw
          exact hrest.tints.fades.lit (hs.lit_shade v)
        · exact hrest.lit i h1 h2 w ((hlater i).trans hw)
      · exact hrest.phase.imp_right fun hr => ⟨hr.1, (hlater _).symm.trans hr.2⟩

/-- Cells marked for scanning were shaded, all of them if the sweep has begun. -/
structure Scans (t t' : Turn Incremental) : Prop where
  tints : t.heap.Tints t'.heap
  index : t'.collector.index = t.collector.index
  phase : t'.collector.phase = .scan ∨ t'.collector.phase = .sweep ∧ t'.heap.Scanned

theorem scans_scan (hs : t.heap.Sound) (hp : t.collector.phase = .scan) (n : Nat) :
    Scans t (scan n t) := by
  induction n generalizing t with
  | zero => exact ⟨hs.tints, rfl, .inl hp⟩
  | succ n ih =>
    unfold scan
    cases hm : t.heap.colors with
    | none => exact ⟨hs.tints, rfl, .inl hp⟩
    | some m =>
      dsimp only
      cases hf : m.find .scan Word.reserved t.heap.top t.collector.cursor with
      | some i =>
        dsimp only
        have ht := hs.tints_shade (.ref i)
        have hrest := ih (t := { t with
          heap := t.heap.shade (.ref i)
          collector := { t.collector with cursor := i } }) ht.sound hp
        exact ⟨ht.trans hrest.tints, hrest.index, hrest.phase⟩
      | none =>
        refine ⟨hs.tints, rfl, .inr ⟨rfl, fun m' hm' i h1 h2 => ?_⟩⟩
        rw [hm] at hm'
        cases hm'
        exact ColorMap.find_eq_none hf h1 h2

/-- A property of heaps that does not depend on colours, and that giving back a cell keeps. -/
structure Durable (P : Heap → Prop) : Prop where
  recolor : ∀ {h : Heap} (colors : Option ColorMap), P h → P { h with colors }
  reclaim : ∀ {h : Heap} (i : Nat), P h → P (h.reclaim i)

namespace Durable

variable {P : Heap → Prop} (hP : Durable P)

include hP

theorem shade (v : Word) (hp : P h) : P (h.shade v) := by
  rw [Heap.shade_eq]
  exact hP.recolor _ hp

theorem flip (roots : Roots) (hp : P t.heap) : P (flip roots t).heap := by
  fun_cases Incremental.flip roots t with
  | case1 => exact hp
  | case2 m =>
    exact List.foldlRecOn roots.direct Heap.shade (hP.recolor _ hp) fun _ hp v _ => hP.shade v hp

theorem shadeRoots (roots : Roots) (n : Nat) (hp : P t.heap) : P (shadeRoots roots n t).heap := by
  fun_induction Incremental.shadeRoots roots n t with
  | case1 => exact hp
  | case2 n t v _ ih => exact ih (hP.shade v hp)
  | case3 => exact hp

theorem scan (n : Nat) (hp : P t.heap) : P (scan n t).heap := by
  fun_induction Incremental.scan n t with
  | case1 => exact hp
  | case2 => exact hp
  | case3 n t m _ i _ ih => exact ih (hP.shade (.ref i) hp)
  | case4 => exact hp

theorem sweep (n : Nat) (hp : P t.heap) : P (sweep n t).heap := by
  fun_induction Incremental.sweep n t with
  | case1 => exact hp
  | case2 n t _ i _ ih => exact ih (hP.reclaim i hp)
  | case3 => exact hp

theorem step (roots : Roots) (hp : P t.heap) : P (step roots t).heap := by
  unfold Incremental.step
  cases t.collector.phase with
  | flip => exact hP.flip roots hp
  | roots =>
    dsimp only
    split
    · exact hP.shadeRoots roots _ hp
    · exact hp
  | scan => exact hP.scan _ hp
  | sweep => exact hP.sweep _ hp

theorem stepUntil (roots : Roots) (goal : Nat) (b : Budget) (hp : P t.heap) :
    P (stepUntil roots goal b t).2.heap := by
  fun_induction Incremental.stepUntil roots goal b t with
  | case1 => exact hp
  | case2 b t _ b' _ ih => exact ih (hP.step roots hp)
  | case3 => exact hp

end Durable

end Incremental

end ActorMachine
