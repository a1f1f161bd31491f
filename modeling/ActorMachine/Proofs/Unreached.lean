import ActorMachine.Proofs.Color

namespace ActorMachine

variable {h h' h'' : Heap} {C : Nat → Prop} {c : Cell} {v w : Word} {i : Nat}

def Word.Avoids (C : Nat → Prop) : Word → Prop
  | .fixnum _ => True
  | .ref i | .cap i => ¬ C i

@[simp] theorem Word.avoids_ref : (Word.ref i).Avoids C ↔ ¬ C i := .rfl

theorem Word.avoids_of_none (w : Word) (hc : ∀ i, ¬ C i) : w.Avoids C := by
  cases w with
  | fixnum n => trivial
  | ref i | cap i => exact hc i

namespace Heap

theorem Leads.not_mem (hl : h.Leads w i) (hw : w.Avoids C) : ¬ C i := by
  obtain ⟨rfl | rfl, -⟩ := hl <;> exact hw

/-- The cells of the set look unreached, and no other cell in use leads to them but for the reserved
ones. -/
structure Shuns (h : Heap) (C : Nat → Prop) : Prop where
  reserved_le : ∀ i, C i → Word.reserved ≤ i
  apart : ∀ i, Word.reserved ≤ i → i < h.top → (h.cellAt i).t ≠ .freeT → ¬ C i →
    ∀ w ∈ (h.cellAt i).words, w.Avoids C
  color : ∀ m, h.colors = some m → ∀ i, C i → m.color i = m.prev

theorem Shuns.literal (hh : h.Shuns C) (hi : i < Word.reserved) : (Word.ref i).Avoids C := fun hc =>
  absurd (hh.reserved_le i hc) (Nat.not_le.2 hi)

theorem Shuns.of_none (hc : ∀ i, ¬ C i) : h.Shuns C :=
  ⟨fun i hi => absurd hi (hc i), fun _ _ _ _ _ w _ => w.avoids_of_none hc, fun _ _ i hi =>
    absurd hi (hc i)⟩

theorem Shuns.of_iff {C' : Nat → Prop} (hh : h.Shuns C) (hc : ∀ i, C' i ↔ C i) : h.Shuns C' := by
  rwa [show C' = C from funext fun i => propext (hc i)]

theorem color_markLive_of_avoids {m : ColorMap} (hm : m.Labelled) (hs : h.top ≤ m.marks.size)
    (hcells : ∀ i, Word.reserved ≤ i → i < h.top → (h.cellAt i).t ≠ .freeT → ¬ C i →
      ∀ w ∈ (h.cellAt i).words, w.Avoids C)
    (hv : v.Avoids C) (hi : C i) : (m.markLive h.cells h.top v).color i = m.color i := by
  cases hj : collectable? h.cells h.top v with
  | none => rw [ColorMap.markLive_of_none hj]
  | some j =>
    have hl : h.Leads v j := collectable?_eq_some_iff.1 hj
    have hlt := hl.2.2.1
    rw [ColorMap.color_markLive hm hj (by omega),
      if_neg (by rintro rfl; exact hl.not_mem hv hi), if_neg]
    rintro ⟨-, w, hw, hk⟩
    refine (collectable?_eq_some_iff.1 hk).not_mem ?_ hi
    exact hcells j hl.2.1 hlt hl.2.2.2 (hl.not_mem hv) w hw

theorem Shuns.of_markLive (hh : h.Shuns C) (hs : h.Sound) (ht : h'.top ≤ h.capacity)
    (hcol : h'.colors = h.colors.map fun m => m.markLive h'.cells h'.top v) (hv : v.Avoids C)
    (hcells : ∀ i, Word.reserved ≤ i → i < h'.top → (h'.cellAt i).t ≠ .freeT → ¬ C i →
      ∀ w ∈ (h'.cellAt i).words, w.Avoids C) :
    h'.Shuns C := by
  refine ⟨hh.reserved_le, hcells, fun m' hm' i hi => ?_⟩
  rw [hcol] at hm'
  obtain ⟨m, hm, rfl⟩ := Option.map_eq_some_iff.1 hm'
  have hvalid := hs.tinted m hm
  rw [color_markLive_of_avoids hvalid.labelled (hvalid.size ▸ ht) hcells hv hi,
    ColorMap.prev_markLive]
  exact hh.color m hm i hi

def Respects (h : Heap) (ws : List Word) (h' : Heap) : Prop :=
  ∀ C, h.Shuns C → (∀ w ∈ ws, w.Avoids C) → h'.Shuns C

theorem Respects.refl (h : Heap) (ws : List Word) : h.Respects ws h := fun _ hh _ => hh

theorem Respects.trans {ws ws' us : List Word} (h₁ : h.Respects ws h') (h₂ : h'.Respects ws' h'')
    (hw : ∀ w ∈ ws, w ∈ us) (hw' : ∀ w ∈ ws', w ∈ us) : h.Respects us h'' := fun C hh hu =>
  h₂ C (h₁ C hh fun w h => hu w (hw w h)) fun w h => hu w (hw' w h)

theorem Sound.respects_shade (hs : h.Sound) (v : Word) : h.Respects [v] (h.shade v) := by
  intro C hh hv
  refine hh.of_markLive hs ?_ (v := v) ?_ (hv v List.mem_cons_self) fun i hr hi => ?_
  · rw [top_shade]
    exact hs.top_le
  · rw [colors_shade, cells_shade, top_shade]
  · rw [top_shade] at hi
    rw [cellAt_shade]
    exact hh.apart i hr hi

theorem Sound.respects_store {f : Field} {u : Unit} (hs : h.Sound)
    (he : Heap.store (.ref i) f w h = .ok u h')
    (hu : (h.cellAt i).t ≠ .freeT) : h.Respects [w] h' := by
  obtain ⟨i', hi', hlt, hset⟩ := store_ok hs.top_le he
  cases hi'
  intro C hh hw
  have hw : w.Avoids C := hw w List.mem_cons_self
  refine hh.of_markLive hs (hset.top.symm ▸ hs.top_le) (colors_store he) hw
    fun j hr hj hfree hc v hv => ?_
  by_cases hji : j = i
  · subst hji
    rw [hset.self] at hv
    obtain rfl | hv := Cell.mem_words_set hv
    · exact hw
    · exact hh.apart j hr hlt hu hc v hv
  · rw [hset.ne hji] at hfree hv
    exact hh.apart j hr (hset.top ▸ hj) hfree hc v hv

theorem Sound.respects_alloc (hs : h.Sound) (ht : c.t ≠ .freeT)
    (he : Heap.alloc c h = .ok (.ref i) h') :
    h.Respects (.ref i :: c.words) h' := by
  obtain ⟨i', hi', htake, -, hs'⟩ := hs.alloc he ht
  cases hi'
  intro C hh hw
  refine hh.of_markLive hs ?_ (colors_alloc he) (hw _ List.mem_cons_self)
    fun j hr hj hfree hc v hv => ?_
  · rw [← htake.capacity]
    exact hs'.top_le
  by_cases hji : j = i
  · rw [hji, htake.self] at hv
    exact hw v (List.mem_cons_of_mem _ hv)
  · rw [htake.ne hji] at hfree hv
    refine hh.apart j hr ?_ hfree hc v hv
    have := htake.top
    have := htake.le_top
    omega

theorem Shuns.reclaim (hh : h.Shuns C) (hi : i < h.capacity) :
    (h.reclaim i).Shuns fun j => C j ∧ j ≠ i := by
  refine ⟨fun j hj => hh.reserved_le j hj.1, fun j hr hj hfree hc w hw => ?_, fun m' hm' j hj => ?_⟩
  · rw [cellAt_reclaim h hi] at hfree hw
    by_cases hji : j = i
    · rw [if_pos hji] at hfree
      exact absurd rfl hfree
    · rw [if_neg hji] at hfree hw
      have hw := hh.apart j hr hj hfree (fun hc' => hc ⟨hc', hji⟩) w hw
      cases w with
      | fixnum n => trivial
      | ref k | cap k => exact fun hk => hw hk.1
  · rw [show (h.reclaim i).colors = h.colors.map fun m => m.paint i .free from rfl] at hm'
    obtain ⟨m, hm, rfl⟩ := Option.map_eq_some_iff.1 hm'
    by_cases hs : i < m.marks.size
    · rw [ColorMap.color_paint hs, if_neg hj.2]
      exact hh.color m hm j hj.1
    · simpa [ColorMap.paint, ColorMap.color, Array.setIfInBounds, hs] using hh.color m hm j hj.1

theorem respects_reclaim (hi : i < h.capacity) : h.Respects [.ref i] (h.reclaim i) := by
  intro C hh hw
  have hc : ¬ C i := hw _ List.mem_cons_self
  exact (hh.reclaim hi).of_iff fun j => ⟨fun hj => ⟨hj, by rintro rfl; exact hc hj⟩, And.left⟩

def Lit (h : Heap) (w : Word) : Prop :=
  ∀ m, h.colors = some m → ∀ i, Word.reserved ≤ i → w = .ref i ∨ w = .cap i → m.color i ≠ m.prev

theorem Fades.lit (hf : h.Fades h') (hw : h.Lit w) : h'.Lit w := by
  intro m' hm' i hr hi hc
  cases hm : h.colors with
  | none =>
    rw [hf.none hm] at hm'
    cases hm'
  | some m =>
    obtain ⟨m'', hm'', hfade⟩ := hf.some m hm
    rw [hm''] at hm'
    cases hm'
    exact hw m hm i hr hi (hfade.color i (hc.trans hfade.prev))

theorem Sound.lit_shade (hs : h.Sound) (v : Word) : (h.shade v).Lit v := by
  intro m' hm' i hr hi
  rw [colors_shade] at hm'
  obtain ⟨m, hm, rfl⟩ := Option.map_eq_some_iff.1 hm'
  have hvalid := hs.tinted m hm
  have hlabel := hvalid.labelled
  rw [ColorMap.prev_markLive]
  by_cases hu : m.color i = .free
  · intro hc
    have hfade : m.Fades (m.markLive h.cells h.top v) :=
      ColorMap.fades_markLive hlabel (hvalid.size ▸ hs.top_le)
    exact hlabel.prev_ne_free ((hfade.color i hc).symm.trans hu)
  · have hin := (hvalid.inUse i).1 hu
    have hv : collectable? h.cells h.top v = some i := collectable?_eq_some_iff.2 ⟨hi, hr, hin⟩
    have hlt := hs.top_le
    rw [ColorMap.color_markLive hlabel hv (by rw [hvalid.size]; omega), if_pos rfl]
    exact hlabel.prev_ne_next.symm

theorem Sound.lit_spare (hs : h.Sound) (hi : i < h.top → (h.cellAt i).t = .freeT) :
    h.Lit (.ref i) := by
  intro m hm j _ hj hc
  obtain rfl : i = j := by simpa using hj
  have hvalid := hs.tinted m hm
  have hin := (hvalid.inUse i).1 (hc ▸ hvalid.labelled.prev_ne_free)
  exact hin.2 (hi hin.1)

theorem lit_enableColors (ht : h.top ≤ h.capacity) (hc : h.colors = none) (i : Nat) :
    h.enableColors.colors.isSome = true ∧ h.enableColors.Lit (.ref i) := by
  unfold enableColors
  rw [hc]
  refine ⟨rfl, fun m hm j _ _ => ?_⟩
  cases hm
  rw [color_ofCells ht]
  split <;> simp [ColorMap.ofCells]

theorem Takes.lit (ht : h.Takes i c h') (hs : h.Sound) (hf : h.Fades h') : h'.Lit (.ref i) :=
  hf.lit (hs.lit_spare ht.fresh)

instance (h : Heap) (w : Word) : Decidable (h.Lit w) :=
  match hc : h.colors, w with
  | none, _ => isTrue fun m hm => by
    rw [hc] at hm
    cases hm
  | some _, .fixnum _ => isTrue fun _ _ _ _ hi => by simp at hi
  | some m, .ref i | some m, .cap i =>
    decidable_of_iff (i < Word.reserved ∨ m.color i ≠ m.prev) <| by
      simp only [Lit, hc, Option.some.injEq, forall_eq', Word.ref.injEq, Word.cap.injEq,
        reduceCtorEq, or_false, false_or]
      constructor
      · rintro hi j hr rfl
        exact hi.resolve_left (Nat.not_lt.2 hr)
      · intro hi
        by_cases hr : i < Word.reserved
        · exact .inl hr
        · exact .inr (hi i (Nat.not_lt.1 hr) rfl)

end Heap

end ActorMachine
