import ActorMachine.Heap.Pair

namespace ActorMachine

variable {w v : Word} {i : Nat} {l k : List Nat} {c : Cell}

theorem Cell.mem_words_set {f : Field} (hw : w ∈ (c.set f v).words) : w = v ∨ w ∈ c.words := by
  cases f <;> simp only [set, words, List.mem_cons, List.not_mem_nil, or_false] at * <;> grind

theorem Cell.get_mem_words (c : Cell) (f : Field) : c.get f ∈ c.words := by
  cases f <;> simp [words, get]

theorem Cell.forall_words {P : Word → Prop} {t x y z : Word} :
    (∀ w ∈ (⟨t, x, y, z⟩ : Cell).words, P w) ↔ P t ∧ P x ∧ P y ∧ P z := by
  simp [words]

namespace Heap

theorem shade_eq (h : Heap) (v : Word) : h.shade v = { h with colors := (h.shade v).colors } := by
  unfold shade
  cases h.colors <;> rfl

@[simp] theorem cells_shade (h : Heap) (v : Word) : (h.shade v).cells = h.cells := by rw [shade_eq]

@[simp] theorem top_shade (h : Heap) (v : Word) : (h.shade v).top = h.top := by rw [shade_eq]

@[simp] theorem freeHead_shade (h : Heap) (v : Word) : (h.shade v).freeHead = h.freeHead := by
  rw [shade_eq]

@[simp] theorem freeCount_shade (h : Heap) (v : Word) : (h.shade v).freeCount = h.freeCount := by
  rw [shade_eq]

@[simp] theorem permanent_shade (h : Heap) (v : Word) : (h.shade v).permanent = h.permanent := by
  rw [shade_eq]

@[simp] theorem sanity_shade (h : Heap) (v : Word) : (h.shade v).sanity = h.sanity := by
  rw [shade_eq]

@[simp] theorem cellAt_shade (h : Heap) (v : Word) (i : Nat) :
    (h.shade v).cellAt i = h.cellAt i := by
  simp only [cellAt, cells_shade]

@[simp] theorem capacity_shade (h : Heap) (v : Word) : (h.shade v).capacity = h.capacity := by
  simp only [capacity, cells_shade]

theorem cellAt_putCell (h : Heap) (c : Cell) (hi : i < h.capacity) (j : Nat) :
    (h.putCell i c).cellAt j = if j = i then c else h.cellAt j := by
  split
  · next hj => rw [hj, cellAt_putCell_self h c hi]
  · next hj => rw [cellAt_putCell_ne h c (Ne.symm hj)]

structure Sets (h : Heap) (i : Nat) (c : Cell) (h' : Heap) : Prop where
  cellAt : ∀ j, h'.cellAt j = if j = i then c else h.cellAt j
  top : h'.top = h.top
  freeHead : h'.freeHead = h.freeHead
  freeCount : h'.freeCount = h.freeCount
  permanent : h'.permanent = h.permanent
  capacity : h'.capacity = h.capacity
  sanity : h'.sanity = h.sanity

theorem Sets.self {h h' : Heap} (s : h.Sets i c h') : h'.cellAt i = c := by
  rw [s.cellAt, if_pos rfl]

theorem Sets.ne {h h' : Heap} {j : Nat} (s : h.Sets i c h') (hj : j ≠ i) :
    h'.cellAt j = h.cellAt j := by
  rw [s.cellAt, if_neg hj]

theorem isCell_iff {h : Heap} : h.isCell v = true ↔ ∃ i, v = .ref i ∧ i < h.top := by
  cases v <;> simp [isCell]

theorem hasType_iff {h : Heap} {t : Word} :
    h.hasType t v = true ↔ ∃ i, v = .ref i ∧ i < h.top ∧ (h.cellAt i).t = t := by
  cases v with
  | ref i =>
    simp only [hasType, isCell, Bool.and_eq_true, Word.ref.injEq, exists_eq_left']
    exact and_congr decide_eq_true_iff decide_eq_true_iff
  | fixnum n => simp [hasType, isCell]
  | cap i => simp [hasType, isCell]

theorem isActor_iff {h : Heap} :
    h.isActor v = true ↔ ∃ i, v = .cap i ∧ i < h.top ∧ (h.cellAt i).t = .actorT := by
  cases v with
  | cap i => simp [isActor, Word.isCap, hasType_iff]
  | fixnum n => simp [isActor, Word.isCap]
  | ref i => simp [isActor, Word.isCap]

theorem store_ok {h h' : Heap} {f : Field} {u : Unit} (ht : h.top ≤ h.capacity)
    (he : store v f w h = .ok u h') :
    ∃ i, v = .ref i ∧ i < h.top ∧ h.Sets i ((h.cellAt i).set f w) h' := by
  unfold store at he
  split at he
  · next hv =>
    obtain ⟨i, rfl, hi⟩ := isCell_iff.1 hv
    simp only [EStateM.Result.ok.injEq, true_and] at he
    subst he
    refine ⟨i, rfl, hi, ?_, ?_, ?_, ?_, ?_, ?_, ?_⟩
    · intro j
      rw [cellAt_shade, cellAt_putCell _ _ (by simp only [Word.index]; omega)]
      rfl
    all_goals simp [putCell, capacity]
  · simp at he

theorem field_ref {h : Heap} (hi : i < h.top) (f : Field) :
    h.field (.ref i) f = .ok ((h.cellAt i).get f) := by
  simp [field, cell, isCell, hi, Word.index, Functor.map, Except.map]

theorem fetch_ok {h h' : Heap} {f : Field} (he : fetch v f h = .ok w h') :
    h' = h ∧ ∃ i, v = .ref i ∧ i < h.top ∧ w = (h.cellAt i).get f := by
  unfold fetch query field cell at he
  by_cases hv : h.isCell v = true
  · obtain ⟨i, rfl, hi⟩ := isCell_iff.1 hv
    simp only [hv, if_true, Word.index] at he
    simp only [Functor.map, Except.map, EStateM.Result.ok.injEq] at he
    exact ⟨he.2.symm, i, rfl, hi, he.1.symm⟩
  · simp [hv, Functor.map, Except.map] at he

/-- From a word, one cell after the other through a field, to the empty list. -/
def Chain (h : Heap) (f : Field) : Word → List Nat → Prop
  | w, [] => w = .nil
  | w, i :: l => w = .ref i ∧ Word.reserved ≤ i ∧ h.Chain f ((h.cellAt i).get f) l

instance instDecidableChain (h : Heap) (f : Field) (w : Word) :
    (l : List Nat) → Decidable (h.Chain f w l)
  | [] => inferInstanceAs (Decidable (w = .nil))
  | i :: l =>
    have := instDecidableChain h f ((h.cellAt i).get f) l
    inferInstanceAs (Decidable (w = .ref i ∧ Word.reserved ≤ i ∧ h.Chain f ((h.cellAt i).get f) l))

namespace Chain

variable {h h' : Heap} {f : Field}

theorem congr (hl : ∀ i ∈ l, (h'.cellAt i).get f = (h.cellAt i).get f) (hc : h.Chain f w l) :
    h'.Chain f w l := by
  induction l generalizing w with
  | nil => exact hc
  | cons i l ih =>
    obtain ⟨hw, hi, hc⟩ := hc
    refine ⟨hw, hi, ?_⟩
    rw [hl i List.mem_cons_self]
    exact ih (fun j hj => hl j (List.mem_cons_of_mem i hj)) hc

theorem ne_nil (hc : h.Chain f w (i :: l)) : w ≠ .nil := by
  obtain ⟨rfl, hi, -⟩ := hc
  intro e
  cases e
  simp [Word.reserved] at hi

theorem unique (hl : h.Chain f w l) (hk : h.Chain f w k) : l = k := by
  induction l generalizing w k with
  | nil =>
    cases k with
    | nil => rfl
    | cons i k => exact absurd hl hk.ne_nil
  | cons i l ih =>
    cases k with
    | nil => exact absurd hk hl.ne_nil
    | cons j k =>
      obtain ⟨hw, -, hl⟩ := hl
      obtain ⟨hw', -, hk⟩ := hk
      rw [hw] at hw'
      cases hw'
      rw [ih hl hk]

theorem reserved_le (hc : h.Chain f w l) : ∀ i ∈ l, Word.reserved ≤ i := by
  induction l generalizing w with
  | nil => simp
  | cons i l ih =>
    intro j hj
    cases hj with
    | head => exact hc.2.1
    | tail _ hj => exact ih hc.2.2 j hj

theorem suffix (hc : h.Chain f w (l ++ i :: k)) : h.Chain f (.ref i) (i :: k) := by
  induction l generalizing w with
  | nil => exact ⟨rfl, hc.2⟩
  | cons j l ih => exact ih hc.2.2

theorem nodup (hc : h.Chain f w l) : l.Nodup := by
  induction l generalizing w with
  | nil => exact List.nodup_nil
  | cons i l ih =>
    refine List.nodup_cons.2 ⟨?_, ih hc.2.2⟩
    intro hi
    obtain ⟨a, b, rfl⟩ := List.append_of_mem hi
    have hk : h.Chain f (.ref i) (i :: b) := suffix hc.2.2
    have hl : h.Chain f (.ref i) (i :: (a ++ i :: b)) := ⟨rfl, hc.2⟩
    have := congrArg List.length (hl.unique hk)
    simp at this
    omega

theorem splice {k' : List Nat} (hc : h.Chain f w (l ++ i :: k))
    (hl : ∀ j ∈ l, (h'.cellAt j).get f = (h.cellAt j).get f)
    (hk : h'.Chain f ((h'.cellAt i).get f) k') : h'.Chain f w (l ++ i :: k') := by
  induction l generalizing w with
  | nil => exact ⟨hc.1, hc.2.1, hk⟩
  | cons j l ih =>
    refine ⟨hc.1, hc.2.1, ?_⟩
    rw [hl j List.mem_cons_self]
    exact ih hc.2.2 fun n hn => hl n (List.mem_cons_of_mem j hn)

theorem link (hc : h.Chain f w l) (hi : i ∈ l) :
    (h.cellAt i).get f = .nil ∨ ∃ j ∈ l, (h.cellAt i).get f = .ref j := by
  induction l generalizing w with
  | nil => cases hi
  | cons k l ih =>
    obtain ⟨-, -, hc⟩ := hc
    obtain rfl | hi := List.mem_cons.1 hi
    · cases l with
      | nil => exact .inl hc
      | cons j l => exact .inr ⟨j, by simp, hc.1⟩
    · refine (ih hc hi).imp_right ?_
      rintro ⟨j, hj, he⟩
      exact ⟨j, List.mem_cons_of_mem k hj, he⟩

end Chain

end Heap

end ActorMachine
