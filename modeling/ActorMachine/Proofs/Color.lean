import ActorMachine.Proofs.FreeList
import ActorMachine.Proofs.Reach

namespace ActorMachine

open Heap

namespace ColorMap

variable {m : ColorMap} {cells : Array Cell} {top : Nat} {v : Word}

theorem color_paint {i : Nat} (hi : i < m.marks.size) (c : Color) (j : Nat) :
    (m.paint i c).color j = if j = i then c else m.color j := by
  simp only [paint, color, Array.getD_eq_getD_getElem?, Array.getElem?_setIfInBounds]
  by_cases hj : i = j
  · subst hj
    simp [hi]
  · simp [hj, Ne.symm hj]

theorem lt_size {i : Nat} (hi : m.color i ≠ .free) : i < m.marks.size := by
  apply Nat.lt_of_not_le
  intro hle
  simp [color, Array.getD_eq_getD_getElem?, hle] at hi

structure Labelled (m : ColorMap) : Prop where
  prev_ne_next : m.prev ≠ m.next
  prev_ne_scan : m.prev ≠ .scan
  prev_ne_free : m.prev ≠ .free
  next_ne_scan : m.next ≠ .scan
  next_ne_free : m.next ≠ .free

theorem Labelled.of_eq {m' : ColorMap} (hm : m.Labelled) (hp : m'.prev = m.prev)
    (hn : m'.next = m.next) : m'.Labelled := by
  obtain ⟨marks, prev, next⟩ := m'
  cases hp
  cases hn
  exact ⟨hm.1, hm.2, hm.3, hm.4, hm.5⟩

@[simp] theorem prev_queueChild : (queueChild cells top m v).prev = m.prev := by
  unfold queueChild
  split
  · split <;> rfl
  · rfl

@[simp] theorem next_queueChild : (queueChild cells top m v).next = m.next := by
  unfold queueChild
  split
  · split <;> rfl
  · rfl

@[simp] theorem size_queueChild : (queueChild cells top m v).marks.size = m.marks.size := by
  unfold queueChild
  split
  · split
    · simp [paint]
    · rfl
  · rfl

theorem color_queueChild (hm : m.prev ≠ .free) (j : Nat) :
    (queueChild cells top m v).color j =
      if collectable? cells top v = some j ∧ m.color j = m.prev then .scan else m.color j := by
  unfold queueChild
  split
  · next i hv =>
    rw [hv]
    split
    · next hi =>
      rw [color_paint (lt_size (hi ▸ hm))]
      by_cases hj : j = i
      · simp [hj, hi]
      · simp [hj, Ne.symm hj]
    · next hi =>
      rw [if_neg]
      rintro ⟨hj, hc⟩
      cases hj
      exact hi hc
  · next hv => simp [hv]

variable {ws : List Word}

@[simp] theorem prev_queueChildren : (ws.foldl (queueChild cells top) m).prev = m.prev := by
  induction ws generalizing m with
  | nil => rfl
  | cons w ws ih => rw [List.foldl_cons, ih, prev_queueChild]

@[simp] theorem next_queueChildren : (ws.foldl (queueChild cells top) m).next = m.next := by
  induction ws generalizing m with
  | nil => rfl
  | cons w ws ih => rw [List.foldl_cons, ih, next_queueChild]

@[simp] theorem size_queueChildren :
    (ws.foldl (queueChild cells top) m).marks.size = m.marks.size := by
  induction ws generalizing m with
  | nil => rfl
  | cons w ws ih => rw [List.foldl_cons, ih, size_queueChild]

theorem color_queueChildren (hm : m.Labelled) (j : Nat) :
    (ws.foldl (queueChild cells top) m).color j =
      if m.color j = m.prev ∧ ∃ w ∈ ws, collectable? cells top w = some j then .scan
      else m.color j := by
  induction ws generalizing m with
  | nil => simp
  | cons w ws ih =>
    rw [List.foldl_cons, ih (hm.of_eq prev_queueChild next_queueChild), prev_queueChild,
      color_queueChild hm.prev_ne_free]
    by_cases hj : m.color j = m.prev
    · by_cases hw : collectable? cells top w = some j
      · simp [hj, hw]
      · simp [hj, hw]
    · simp [hj]

@[simp] theorem prev_markLive : (m.markLive cells top v).prev = m.prev := by
  unfold markLive
  split
  · exact prev_queueChildren
  · rfl

@[simp] theorem next_markLive : (m.markLive cells top v).next = m.next := by
  unfold markLive
  split
  · exact next_queueChildren
  · rfl

@[simp] theorem size_markLive : (m.markLive cells top v).marks.size = m.marks.size := by
  unfold markLive
  split
  · rw [size_queueChildren]
    simp [paint]
  · rfl

theorem color_markLive (hm : m.Labelled) {i : Nat} (hv : collectable? cells top v = some i)
    (hi : i < m.marks.size) (j : Nat) :
    (m.markLive cells top v).color j =
      if j = i then m.next
      else if m.color j = m.prev ∧
        ∃ w ∈ (cells.getD i .blank).words, collectable? cells top w = some j then .scan
      else m.color j := by
  have hp : (m.paint i m.next).Labelled := hm.of_eq rfl rfl
  unfold markLive
  simp only [hv]
  rw [color_queueChildren hp, color_paint hi]
  by_cases hj : j = i
  · simp [hj, show (m.paint i m.next).prev = m.prev from rfl, hm.prev_ne_next.symm]
  · simp [hj, show (m.paint i m.next).prev = m.prev from rfl]

theorem markLive_of_none (hv : collectable? cells top v = none) : m.markLive cells top v = m := by
  simp only [markLive, hv]

/-- The colours suit the heap. -/
structure Valid (m : ColorMap) (h : Heap) : Prop where
  labelled : m.Labelled
  size : m.marks.size = h.capacity
  inUse : ∀ i, m.color i ≠ .free ↔ i < h.top ∧ (h.cellAt i).t ≠ .freeT
  closed : ∀ i, Word.reserved ≤ i → m.color i = m.next → ∀ w ∈ (h.cellAt i).words, ∀ j,
  h.Leads w j →
    m.color j ≠ m.prev

/-- The colours follow the cells, whatever leads where. -/
structure Fits (m : ColorMap) (h : Heap) : Prop where
  labelled : m.Labelled
  size : m.marks.size = h.capacity
  inUse : ∀ i, m.color i ≠ .free ↔ i < h.top ∧ (h.cellAt i).t ≠ .freeT

theorem Valid.fits {h : Heap} (hv : m.Valid h) : m.Fits h := ⟨hv.labelled, hv.size, hv.inUse⟩

theorem fits_markLive {h : Heap} (hm : m.Labelled) (hs : m.marks.size = h.capacity)
    (ht : h.top ≤ h.capacity)
    (hu : ∀ j, ¬ h.Leads v j → (m.color j ≠ .free ↔ j < h.top ∧ (h.cellAt j).t ≠ .freeT)) :
    (m.markLive h.cells h.top v).Fits h := by
  refine ⟨hm.of_eq prev_markLive next_markLive, by simpa using hs, fun j => ?_⟩
  cases hv : collectable? h.cells h.top v with
  | none =>
    rw [markLive_of_none hv]
    refine hu j fun hj => ?_
    rw [← collectable?_eq_some_iff, hv] at hj
    cases hj
  | some i =>
    have hl : h.Leads v i := collectable?_eq_some_iff.1 hv
    have hi : i < m.marks.size := by
      have := hl.2.2.1
      omega
    rw [color_markLive hm hv hi]
    by_cases hj : j = i
    · simp only [hj, if_true]
      exact iff_of_true hm.next_ne_free hl.2.2
    · rw [if_neg hj, ← hu j fun hlj => hj (hlj.unique hl)]
      split
      · next hp => exact iff_of_true (by decide) (hp.1 ▸ hm.prev_ne_free)
      · rfl

namespace Fits

variable {h h' : Heap} {i : Nat} {c : Cell}

theorem markLive (hv : m.Fits h) (ht : h.top ≤ h.capacity) (v : Word) :
    (m.markLive h.cells h.top v).Fits h :=
  fits_markLive hv.labelled hv.size ht fun j _ => hv.inUse j

theorem sets (hv : m.Fits h) (hset : h.Sets i c h') (hu : (h.cellAt i).t ≠ .freeT)
    (hc : c.t ≠ .freeT) :
    m.Fits h' := by
  refine ⟨hv.labelled, hv.size.trans hset.capacity.symm, fun j => ?_⟩
  rw [hv.inUse j, hset.top]
  by_cases hj : j = i
  · subst hj
    rw [hset.self]
    exact and_congr_right fun _ => iff_of_true hu hc
  · rw [hset.ne hj]

theorem color_fresh (hv : m.Fits h) (htake : h.Takes i c h') : m.color i = .free := by
  apply Decidable.byContradiction
  intro hn
  have := (hv.inUse i).1 hn
  exact this.2 (htake.fresh this.1)

theorem takes (hv : m.Fits h) (htake : h.Takes i c h') (ht : h'.top ≤ h'.capacity)
    (hl : h'.Leads (.ref i) i) : (m.markLive h'.cells h'.top (.ref i)).Fits h' := by
  refine fits_markLive hv.labelled (hv.size.trans htake.capacity.symm) ht fun j hj => ?_
  have hji : j ≠ i := fun e => hj (e ▸ hl)
  have hjt : j < h'.top ↔ j < h.top := by
    have := htake.top
    have := htake.le_top
    omega
  rw [hv.inUse j, htake.ne hji, hjt]

theorem reclaim (hv : m.Fits h) (hi : i < h.capacity) : (m.paint i .free).Fits (h.reclaim i) := by
  refine ⟨hv.labelled.of_eq rfl rfl, by simpa [paint] using hv.size, fun j => ?_⟩
  rw [color_paint (hv.size.symm ▸ hi), cellAt_reclaim h hi, top_reclaim]
  by_cases hj : j = i
  · simp [hj]
  · simpa [hj] using hv.inUse j

end Fits

theorem valid_markLive {h : Heap} (hm : m.Labelled) (hs : m.marks.size = h.capacity)
    (ht : h.top ≤ h.capacity) (hfit : (m.markLive h.cells h.top v).Fits h)
    (hc : ∀ i, Word.reserved ≤ i → m.color i = m.next → ¬ h.Leads v i → ∀ w ∈ (h.cellAt i).words,
      ∀ j, h.Leads w j → m.color j ≠ m.prev ∨ h.Leads v j) :
    (m.markLive h.cells h.top v).Valid h := by
  refine ⟨hfit.labelled, hfit.size, hfit.inUse, ?_⟩
  cases hv : collectable? h.cells h.top v with
  | none =>
    have hn : ∀ j, ¬ h.Leads v j := by
      intro j hj
      rw [← collectable?_eq_some_iff, hv] at hj
      cases hj
    rw [markLive_of_none hv]
    intro i hr hi w hw j hj
    exact (hc i hr hi (hn i) w hw j hj).resolve_right (hn j)
  | some i =>
    have hl : h.Leads v i := collectable?_eq_some_iff.1 hv
    have hi : i < m.marks.size := by
      have := hl.2.2.1
      omega
    have hcolor := color_markLive hm hv hi
    have hne : ∀ j, j ≠ i → ¬ h.Leads v j := fun j hj hlj => hj (hlj.unique hl)
    intro k hr hk w hw j hj
    rw [next_markLive, hcolor] at hk
    rw [prev_markLive, hcolor]
    by_cases hji : j = i
    · rw [if_pos hji]
      exact hm.prev_ne_next.symm
    rw [if_neg hji]
    split
    · exact hm.prev_ne_scan.symm
    · next hp =>
      intro hjp
      by_cases hki : k = i
      · subst hki
        exact hp ⟨hjp, w, hw, collectable?_eq_some_iff.2 hj⟩
      · rw [if_neg hki] at hk
        split at hk
        · exact hm.next_ne_scan hk.symm
        · exact (hc k hr hk (hne k hki) w hw j hj).elim (· hjp) (hne j hji)

/-- A cell that did not look unreached does not look so now. -/
structure Fades (m m' : ColorMap) : Prop where
  prev : m'.prev = m.prev
  next : m'.next = m.next
  color : ∀ i, m'.color i = m.prev → m.color i = m.prev

theorem Fades.refl (m : ColorMap) : Fades m m := ⟨rfl, rfl, fun _ hi => hi⟩

theorem Fades.trans {m' m'' : ColorMap} (h₁ : Fades m m') (h₂ : Fades m' m'') : Fades m m'' :=
  ⟨h₂.prev.trans h₁.prev, h₂.next.trans h₁.next,
    fun i hi => h₁.color i ((h₂.color i (hi.trans h₁.prev.symm)).trans h₁.prev)⟩

theorem fades_markLive (hm : m.Labelled) (hs : top ≤ m.marks.size) :
    Fades m (m.markLive cells top v) := by
  refine ⟨prev_markLive, next_markLive, ?_⟩
  cases hv : collectable? cells top v with
  | none =>
    rw [markLive_of_none hv]
    exact fun i hi => hi
  | some i =>
    have hi : i < top := by
      unfold collectable? at hv
      split at hv
      · cases hv
      · split at hv
        · next hi =>
          cases hv
          exact hi.2.1
        · cases hv
      · split at hv
        · next hi =>
          cases hv
          exact hi.2.1
        · cases hv
    intro j hj
    rw [color_markLive hm hv (by omega)] at hj
    split at hj
    · exact absurd hj hm.prev_ne_next.symm
    · split at hj
      · exact absurd hj hm.prev_ne_scan.symm
      · exact hj

theorem fades_paint_free (hm : m.prev ≠ .free) {i : Nat} : Fades m (m.paint i .free) := by
  refine ⟨rfl, rfl, ?_⟩
  intro j hj
  by_cases hi : i < m.marks.size
  · rw [color_paint hi] at hj
    split at hj
    · exact absurd hj.symm hm
    · exact hj
  · simpa [paint, color, Array.setIfInBounds, hi] using hj

end ColorMap

namespace Heap

variable {h h' : Heap}

/-- Colours stay on or off, and no cell turns unreached. -/
structure Fades (h h' : Heap) : Prop where
  none : h.colors = none → h'.colors = none
  some : ∀ m, h.colors = some m → ∃ m', h'.colors = some m' ∧ m.Fades m'

theorem Fades.refl (h : Heap) : h.Fades h := ⟨id, fun m hm => ⟨m, hm, .refl m⟩⟩

theorem Fades.trans {h'' : Heap} (h₁ : h.Fades h') (h₂ : h'.Fades h'') : h.Fades h'' := by
  refine ⟨fun hn => h₂.none (h₁.none hn), ?_⟩
  intro m hm
  obtain ⟨m', hm', hf⟩ := h₁.some m hm
  obtain ⟨m'', hm'', hf'⟩ := h₂.some m' hm'
  exact ⟨m'', hm'', hf.trans hf'⟩

theorem Fades.of_map {f : ColorMap → ColorMap} (hc : h'.colors = h.colors.map f)
    (hf : ∀ m, h.colors = .some m → m.Fades (f m)) : h.Fades h' := by
  constructor
  · intro hn
    rw [hc, hn]
    rfl
  · intro m hm
    exact ⟨f m, by rw [hc, hm]; rfl, hf m hm⟩

theorem colors_shade (h : Heap) (v : Word) :
    (h.shade v).colors = h.colors.map fun m => m.markLive h.cells h.top v := by
  unfold shade
  cases hc : h.colors with
  | none => exact hc
  | some m => rfl

/-- Free list and colours are as they should be. -/
structure Sound (h : Heap) : Prop where
  allocator : ∃ l, h.FreeList l
  tinted : ∀ m, h.colors = some m → m.Valid h

theorem Sound.top_le (hs : h.Sound) : h.top ≤ h.capacity := by
  obtain ⟨l, hf⟩ := hs.allocator
  exact hf.top_le

theorem FreeList.of_eq {l : List Nat} (hf : h.FreeList l) (hc : h'.cells = h.cells)
    (ht : h'.top = h.top) (hh : h'.freeHead = h.freeHead) (hn : h'.freeCount = h.freeCount)
    (hp : h'.permanent = h.permanent) : h'.FreeList l := by
  obtain ⟨cells, top, freeHead, freeCount, permanent, sanity, colors⟩ := h'
  cases hc
  cases ht
  cases hh
  cases hn
  cases hp
  refine ⟨hf.1, hf.2, hf.3, ?_, hf.5, hf.6⟩
  refine Chain.congr ?_ hf.chain
  intro i hi
  rfl

theorem Leads.congr {w : Word} {j : Nat} (hl : h'.Leads w j) (hj : j < h.top)
    (ht : (h'.cellAt j).t ≠ .freeT → (h.cellAt j).t ≠ .freeT) : h.Leads w j :=
  ⟨hl.1, hl.2.1, hj, ht hl.2.2.2⟩

theorem Sound.shade (hs : h.Sound) (v : Word) : (h.shade v).Sound ∧ h.Fades (h.shade v) := by
  obtain ⟨l, hf⟩ := hs.allocator
  refine ⟨⟨⟨l, ?_⟩, ?_⟩, ?_⟩
  · exact hf.of_eq (by simp) (by simp) (by simp) (by simp) (by simp)
  · intro m' hm'
    rw [colors_shade] at hm'
    obtain ⟨m, hm, rfl⟩ := Option.map_eq_some_iff.1 hm'
    have hv := hs.tinted m hm
    have := ColorMap.valid_markLive hv.labelled hv.size hf.top_le (hv.fits.markLive hf.top_le v)
      (fun i hr hi _ w hw j hj => .inl (hv.closed i hr hi w hw j hj))
    exact ⟨this.1, by simpa using this.2, by simpa using this.3, by simpa [Leads] using this.4⟩
  · refine .of_map (colors_shade h v) ?_
    intro m hm
    have hv := hs.tinted m hm
    exact ColorMap.fades_markLive hv.labelled (hv.size ▸ hf.top_le)

theorem colors_store {v w : Word} {f : Field} {u : Unit} (he : store v f w h = .ok u h') :
    h'.colors = h.colors.map fun m => m.markLive h'.cells h'.top w := by
  unfold store at he
  split at he
  · simp only [EStateM.Result.ok.injEq, true_and] at he
    rw [← he, colors_shade, cells_shade, top_shade]
    rfl
  · cases he

theorem colors_alloc {c : Cell} {v : Word} (he : alloc c h = .ok v h') :
    h'.colors = h.colors.map fun m => m.markLive h'.cells h'.top v := by
  unfold alloc at he
  split at he
  · simp only [EStateM.Result.ok.injEq] at he
    obtain ⟨hv, rfl⟩ := he
    rw [hv, colors_shade, cells_shade, top_shade]
    rfl
  · split at he
    · simp only [EStateM.Result.ok.injEq] at he
      obtain ⟨hv, rfl⟩ := he
      rw [hv, colors_shade, cells_shade, top_shade]
      rfl
    · cases he

theorem Sound.store (hs : h.Sound) {v w : Word} {f : Field} {u : Unit}
    (he : store v f w h = .ok u h') :
    ∃ i, v = .ref i ∧ i < h.top ∧ h.Sets i ((h.cellAt i).set f w) h' ∧ h.Fades h' ∧
      ((h.cellAt i).t ≠ .freeT → ((h.cellAt i).set f w).t ≠ .freeT → h'.Sound) := by
  obtain ⟨i, rfl, hi, hset⟩ := store_ok hs.top_le he
  obtain ⟨l, hf⟩ := hs.allocator
  have hcol := colors_store he
  refine ⟨i, rfl, hi, hset, ?_, ?_⟩
  · refine .of_map hcol ?_
    intro m hm
    have hv := hs.tinted m hm
    refine ColorMap.fades_markLive hv.labelled ?_
    rw [hset.top, hv.size]
    exact hf.top_le
  · intro hu hc
    have hused : ∀ j, (h'.cellAt j).t ≠ .freeT ↔ (h.cellAt j).t ≠ .freeT := by
      intro j
      by_cases hj : j = i
      · subst hj
        rw [hset.self]
        exact iff_of_true hc hu
      · rw [hset.ne hj]
    refine ⟨⟨l, hf.sets hset hu hc⟩, ?_⟩
    intro m' hm'
    rw [hcol] at hm'
    obtain ⟨m, hm, rfl⟩ := Option.map_eq_some_iff.1 hm'
    have hv := hs.tinted m hm
    have hold : ∀ k u, Word.reserved ≤ k → m.color k = m.next → u ∈ (h.cellAt k).words →
        ∀ j, h'.Leads u j → m.color j ≠ m.prev := fun k u hr hk hku j hj =>
      hv.closed k hr hk u hku j (hj.congr (hset.top ▸ hj.2.2.1) (hused j).1)
    have htop : h'.top ≤ h'.capacity := by
      rw [hset.top, hset.capacity]
      exact hf.top_le
    refine ColorMap.valid_markLive hv.labelled (hv.size.trans hset.capacity.symm) htop
      ((hv.fits.sets hset hu hc).markLive htop w) ?_
    intro k hr hk _ u hku j hj
    by_cases hki : k = i
    · subst hki
      rw [hset.self] at hku
      obtain rfl | hku := Cell.mem_words_set hku
      · exact .inr hj
      · exact .inl (hold k u hr hk hku j hj)
    · rw [hset.ne hki] at hku
      exact .inl (hold k u hr hk hku j hj)

theorem Sound.alloc (hs : h.Sound) {c : Cell} {v : Word} (he : alloc c h = .ok v h')
    (hc : c.t ≠ .freeT) :
    ∃ i, v = .ref i ∧ h.Takes i c h' ∧ h.Fades h' ∧ h'.Sound := by
  obtain ⟨l, hf⟩ := hs.allocator
  obtain ⟨i, rfl, htake, l', hf'⟩ := hf.alloc he hc
  have hcol := colors_alloc he
  have hcap : h'.top ≤ h.capacity := htake.capacity ▸ hf'.top_le
  have hli : h'.Leads (.ref i) i :=
    ⟨.inl rfl, Nat.le_trans hf.reserved_le htake.permanent_le, htake.lt_top, htake.self ▸ hc⟩
  refine ⟨i, rfl, htake, ?_, ⟨l', hf'⟩, ?_⟩
  · refine .of_map hcol ?_
    intro m hm
    have hv := hs.tinted m hm
    exact ColorMap.fades_markLive hv.labelled (hv.size ▸ hcap)
  · intro m' hm'
    rw [hcol] at hm'
    obtain ⟨m, hm, rfl⟩ := Option.map_eq_some_iff.1 hm'
    have hv := hs.tinted m hm
    have hfree := hv.fits.color_fresh htake
    refine ColorMap.valid_markLive hv.labelled (hv.size.trans htake.capacity.symm) hf'.top_le
      (hv.fits.takes htake hf'.top_le hli) ?_
    intro k hr hk _ w hw j hj
    refine .inl ?_
    by_cases hji : j = i
    · rw [hji, hfree]
      exact hv.labelled.prev_ne_free.symm
    · have hki : k ≠ i := by
        intro e
        rw [e, hfree] at hk
        exact hv.labelled.next_ne_free hk.symm
      rw [htake.ne hki] at hw
      have hjt := htake.top
      have := htake.le_top
      have := hj.2.2.1
      refine hv.closed k hr hk w hw j (hj.congr (by omega) ?_)
      rw [htake.ne hji]
      exact id

theorem Sound.reclaim (hs : h.Sound) {i : Nat} (hp : h.permanent ≤ i) (ht : i < h.top)
    (hu : (h.cellAt i).t ≠ .freeT) : (h.reclaim i).Sound ∧ h.Fades (h.reclaim i) := by
  obtain ⟨l, hf⟩ := hs.allocator
  have hi : i < h.capacity := Nat.lt_of_lt_of_le ht hf.top_le
  have hcol : (h.reclaim i).colors = h.colors.map fun m => m.paint i .free := rfl
  refine ⟨⟨⟨i :: l, hf.reclaim hp ht hu⟩, ?_⟩, ?_⟩
  · intro m' hm'
    rw [hcol] at hm'
    obtain ⟨m, hm, rfl⟩ := Option.map_eq_some_iff.1 hm'
    have hv := hs.tinted m hm
    have hcolor := ColorMap.color_paint (m := m) (hv.size.symm ▸ hi) .free
    have hfit := hv.fits.reclaim hi
    refine ⟨hfit.labelled, hfit.size, hfit.inUse, ?_⟩
    intro k hr hk w hw j hj
    rw [hcolor] at hk ⊢
    by_cases hki : k = i
    · rw [if_pos hki] at hk
      exact absurd hk.symm hv.labelled.next_ne_free
    · by_cases hji : j = i
      · rw [if_pos hji]
        exact hv.labelled.prev_ne_free.symm
      · rw [if_neg hki] at hk
        rw [if_neg hji]
        rw [cellAt_reclaim h hi, if_neg hki] at hw
        refine hv.closed k hr hk w hw j (hj.congr hj.2.2.1 ?_)
        rw [cellAt_reclaim h hi, if_neg hji]
        exact id
  · refine .of_map hcol ?_
    intro m hm
    exact ColorMap.fades_paint_free (hs.tinted m hm).labelled.prev_ne_free

theorem Sound.free (hs : h.Sound) {v : Word} {u : Unit} (he : free v h = .ok u h') :
    h.permanent ≤ v.index ∧ v.index < h.top ∧ h' = h.reclaim v.index ∧ h.Fades h' ∧ h'.Sound := by
  obtain ⟨hp, ht, hu, rfl⟩ := free_ok he
  obtain ⟨hs', hfade⟩ := hs.reclaim hp ht hu
  exact ⟨hp, ht, rfl, hfade, hs'⟩

theorem Sound.sealed (hs : h.Sound) : h.sealed.Sound := by
  obtain ⟨l, hf⟩ := hs.allocator
  refine ⟨⟨[], hf.sealed⟩, fun m hm => ?_⟩
  obtain ⟨h1, h2, h3, h4⟩ := hs.tinted m hm
  exact ⟨h1, h2, h3, h4⟩

theorem enableColors_eq (hc : h.colors.isSome = true) : h.enableColors = h := by
  obtain ⟨m, hm⟩ := Option.isSome_iff_exists.1 hc
  unfold enableColors
  rw [hm]

theorem cellAt_enableColors (h : Heap) (i : Nat) : h.enableColors.cellAt i = h.cellAt i := by
  unfold enableColors
  split <;> rfl

theorem top_enableColors (h : Heap) : h.enableColors.top = h.top := by
  unfold enableColors
  split <;> rfl

theorem permanent_enableColors (h : Heap) : h.enableColors.permanent = h.permanent := by
  unfold enableColors
  split <;> rfl

theorem capacity_enableColors (h : Heap) : h.enableColors.capacity = h.capacity := by
  unfold enableColors
  split <;> rfl

theorem color_ofCells (ht : h.top ≤ h.capacity) (i : Nat) :
    (ColorMap.ofCells h.cells h.top).color i =
    if i < h.top ∧ (h.cellAt i).t ≠ .freeT then .genX else .free := by
  unfold capacity at ht
  unfold ColorMap.ofCells ColorMap.color cellAt
  by_cases hi : i < h.cells.size
  · simp [Array.getD_eq_getD_getElem?, hi]
  · simp [Array.getD_eq_getD_getElem?, hi]
    omega

theorem sound_enableColors {l : List Nat} (hf : h.FreeList l) (hc : h.colors = none) :
    h.enableColors.Sound := by
  have hcolor := color_ofCells hf.top_le
  unfold enableColors
  rw [hc]
  refine ⟨⟨l, hf.of_eq rfl rfl rfl rfl rfl⟩, fun m hm => ?_⟩
  cases hm
  have hlabel : (ColorMap.ofCells h.cells h.top).Labelled := by
    constructor <;> simp [ColorMap.ofCells]
  refine ⟨hlabel, ?_, fun i => ?_, fun i _ _ w _ j _ => ?_⟩
  · simp [ColorMap.ofCells, capacity]
  · rw [hcolor]
    change _ ↔ i < h.top ∧ (h.cellAt i).t ≠ .freeT
    split <;> simp_all
  · rw [hcolor]
    split <;> simp [ColorMap.ofCells]

end Heap

end ActorMachine
