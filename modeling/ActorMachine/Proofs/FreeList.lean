import ActorMachine.Proofs.Heap

namespace ActorMachine.Heap

variable {i : Nat} {c : Cell} {v : Word}

/-- The free list of the heap is `l`, and it holds every free cell that may be handed out. -/
structure FreeList (h : Heap) (l : List Nat) : Prop where
  reserved_le : Word.reserved ≤ h.permanent
  permanent_le : h.permanent ≤ h.top
  top_le : h.top ≤ h.capacity
  chain : h.Chain .z h.freeHead l
  mem_iff : ∀ i, i ∈ l ↔ h.permanent ≤ i ∧ i < h.top ∧ (h.cellAt i).t = .freeT
  count : h.freeCount = l.length

structure Takes (h : Heap) (i : Nat) (c : Cell) (h' : Heap) : Prop where
  permanent_le : h.permanent ≤ i
  le_top : i ≤ h.top
  lt_top : i < h'.top
  fresh : i < h.top → (h.cellAt i).t = .freeT
  cellAt : ∀ j, h'.cellAt j = if j = i then c else h.cellAt j
  top : h'.top = max h.top (i + 1)
  permanent : h'.permanent = h.permanent
  capacity : h'.capacity = h.capacity
  sanity : h'.sanity = h.sanity

theorem Takes.self {h h' : Heap} (s : h.Takes i c h') : h'.cellAt i = c := by
  rw [s.cellAt, if_pos rfl]

theorem Takes.ne {h h' : Heap} {j : Nat} (s : h.Takes i c h') (hj : j ≠ i) :
    h'.cellAt j = h.cellAt j := by
  rw [s.cellAt, if_neg hj]

theorem Takes.top_le {h h' : Heap} (s : h.Takes i c h') : h.top ≤ h'.top := by
  rw [s.top]
  omega

theorem cellAt_reclaim (h : Heap) (hi : i < h.capacity) (j : Nat) : (h.reclaim i).cellAt j =
      if j = i then ⟨.freeT, .undefined, .undefined, h.freeHead⟩ else h.cellAt j := by
  rw [← cellAt_putCell h _ hi j]
  rfl

@[simp] theorem capacity_reclaim (h : Heap) (i : Nat) : (h.reclaim i).capacity = h.capacity := by
  simp [reclaim, capacity]

@[simp] theorem top_reclaim (h : Heap) (i : Nat) : (h.reclaim i).top = h.top := rfl

@[simp] theorem permanent_reclaim (h : Heap) (i : Nat) :
    (h.reclaim i).permanent = h.permanent := rfl

@[simp] theorem freeCount_reclaim (h : Heap) (i : Nat) :
    (h.reclaim i).freeCount = h.freeCount + 1 := rfl

@[simp] theorem sanity_reclaim (h : Heap) (i : Nat) : (h.reclaim i).sanity = h.sanity := rfl

theorem free_ok {h h' : Heap} {u : Unit} (he : free v h = .ok u h') :
    h.permanent ≤ v.index ∧ v.index < h.top ∧ (h.cellAt v.index).t ≠ .freeT ∧
      h' = h.reclaim v.index := by
  unfold free at he
  split at he
  · simp at he
  · split at he
    · simp at he
    · next hb ht =>
      simp only [EStateM.Result.ok.injEq, true_and] at he
      exact ⟨by omega, by omega, ht, he.symm⟩

theorem Chain.sift {h : Heap} {boundary : Nat} {p : Word} {l : List Nat} (hc : h.Chain .z p l)
    (hl : ∀ i ∈ l, i < boundary) (kept : Word) (count : Nat) (b : Budget) :
    Heap.sift boundary b p kept count h =
      if l.length ≤ b.left then .ok (kept, count) h else .error (.runaway b.task) h := by
  induction l generalizing p b with
  | nil =>
    unfold Heap.sift
    rw [if_pos (show p = .nil from hc)]
    rfl
  | cons i l ih =>
    unfold Heap.sift
    rw [if_neg hc.ne_nil]
    obtain ⟨rfl, -, hc⟩ := hc
    obtain ⟨_ | n, task⟩ := b
    · rfl
    · have hlt : ¬ boundary ≤ i := Nat.not_le.2 (hl i List.mem_cons_self)
      have ih := ih hc (fun j hj => hl j (List.mem_cons_of_mem i hj)) ⟨n, task⟩
      change (if boundary ≤ i then _ else
        Heap.sift boundary ⟨n, task⟩ ((h.cellAt i).get .z) kept count : HeapM _) h = _
      rw [if_neg hlt, ih]
      simp only [List.length_cons, Nat.add_le_add_iff_right]

def sealed (h : Heap) : Heap := { h with freeHead := .nil, freeCount := 0, permanent := h.top }

theorem freeList_new (capacity sanity : Nat) : ((new capacity).withSanity sanity).FreeList [] := by
  refine ⟨Nat.le_refl _, Nat.le_refl _, ?_, rfl, fun i => ?_, rfl⟩
  · simp only [Heap.capacity, withSanity, Heap.new, Array.size_map, Array.size_range]
    omega
  · simp only [List.not_mem_nil, withSanity, Heap.new, false_iff]
    omega

namespace FreeList

variable {h h' : Heap} {l : List Nat}

theorem isFree (hf : h.FreeList l) (hi : i ∈ l) : (h.cellAt i).t = .freeT :=
  ((hf.mem_iff i).1 hi).2.2

theorem reclaim (hf : h.FreeList l) (hp : h.permanent ≤ i) (ht : i < h.top)
    (hu : (h.cellAt i).t ≠ .freeT) : (h.reclaim i).FreeList (i :: l) := by
  have hi : i < h.capacity := Nat.lt_of_lt_of_le ht hf.top_le
  have hl : i ∉ l := fun hm => hu (hf.isFree hm)
  have hc := cellAt_reclaim h hi
  refine ⟨hf.reserved_le, hf.permanent_le, by simpa using hf.top_le, ?_, ?_, ?_⟩
  · refine ⟨rfl, Nat.le_trans hf.reserved_le hp, ?_⟩
    rw [hc, if_pos rfl]
    refine hf.chain.congr ?_
    intro j hj
    rw [hc, if_neg (fun (e : j = i) => hl (e ▸ hj))]
  · intro j
    rw [List.mem_cons, hf.mem_iff, hc, permanent_reclaim, top_reclaim]
    by_cases hj : j = i
    · simp [hj, hp, ht]
    · simp [hj]
  · simp [hf.count]

theorem sets (hf : h.FreeList l) (s : h.Sets i c h')
    (hu : (h.cellAt i).t ≠ .freeT) (hc : c.t ≠ .freeT) : h'.FreeList l := by
  have hl : i ∉ l := fun hm => hu (hf.isFree hm)
  refine ⟨?_, ?_, ?_, ?_, ?_, ?_⟩
  · rw [s.permanent]
    exact hf.reserved_le
  · rw [s.permanent, s.top]
    exact hf.permanent_le
  · rw [s.top, s.capacity]
    exact hf.top_le
  · rw [s.freeHead]
    refine hf.chain.congr ?_
    intro j hj
    rw [s.ne (fun e => hl (e ▸ hj))]
  · intro j
    rw [hf.mem_iff, s.permanent, s.top, s.cellAt]
    by_cases hj : j = i
    · simp [hj, hu, hc]
    · simp [hj]
  · rw [s.freeCount, hf.count]

theorem alloc_cons (hf : h.FreeList (i :: l)) (he : alloc c h = .ok v h') (hc : c.t ≠ .freeT) :
    v = .ref i ∧ h.Takes i c h' ∧ h'.FreeList l := by
  obtain ⟨hw, hi, hl⟩ := hf.chain
  obtain ⟨hp, ht, hz⟩ := (hf.mem_iff i).1 List.mem_cons_self
  have hn : h.freeHead ≠ .nil := by
    rw [hw]
    intro e
    cases e
    simp [Word.reserved] at hi
  have hb : i < h.capacity := Nat.lt_of_lt_of_le ht hf.top_le
  have hil : i ∉ l := (List.nodup_cons.1 hf.chain.nodup).1
  rw [Heap.alloc, if_pos hn] at he
  simp only [hw, Word.index, EStateM.Result.ok.injEq] at he
  obtain ⟨rfl, rfl⟩ := he
  have hcell : ∀ j, ((({ h with freeHead := (h.cellAt i).z, freeCount := h.freeCount - 1 } :
      Heap).putCell i c).shade (.ref i)).cellAt j = if j = i then c else h.cellAt j := by
    intro j
    rw [cellAt_shade]
    exact cellAt_putCell _ c hb j
  refine ⟨rfl, ⟨hp, Nat.le_of_lt ht, ?_, fun _ => hz, hcell, ?_, ?_, ?_, ?_⟩, ?_, ?_, ?_,
    ?_, ?_, ?_⟩
  · simpa [putCell] using ht
  · simp [putCell]
    omega
  · simp [putCell]
  · simp [putCell, capacity]
  · simp [putCell]
  · simpa [putCell] using hf.reserved_le
  · simpa [putCell] using hf.permanent_le
  · simpa [putCell, capacity] using hf.top_le
  · rw [freeHead_shade]
    refine Chain.congr ?_ hl
    intro j hj
    rw [hcell, if_neg (fun (e : j = i) => hil (e ▸ hj))]
  · intro j
    rw [hcell]
    have := hf.mem_iff j
    by_cases hj : j = i
    · simp [hj, hil, hc]
    · simpa [hj, putCell] using this
  · have := hf.count
    simp [putCell]
    simp at this
    omega

theorem alloc_nil (hf : h.FreeList []) (he : alloc c h = .ok v h')
    (hc : c.t ≠ .freeT) : v = .ref h.top ∧ h.Takes h.top c h' ∧ h'.FreeList [] := by
  have hw : h.freeHead = .nil := hf.chain
  have hp := hf.permanent_le
  rw [Heap.alloc, if_neg (fun hn => hn hw)] at he
  split at he
  · next hb =>
    simp only [Word.index, EStateM.Result.ok.injEq] at he
    obtain ⟨rfl, rfl⟩ := he
    have hcell : ∀ j, ((({ h with top := h.top + 1 } : Heap).putCell h.top c).shade
        (.ref h.top)).cellAt j = if j = h.top then c else h.cellAt j := by
      intro j
      rw [cellAt_shade]
      exact cellAt_putCell _ c hb j
    refine ⟨rfl, ⟨hp, Nat.le_refl _, ?_, ?_, hcell, ?_, ?_, ?_, ?_⟩, ?_, ?_, ?_, ?_, ?_, ?_⟩
    · simp [putCell]
    · intro hlt
      omega
    · simp [putCell]
    · simp [putCell]
    · simp [putCell, capacity]
    · simp [putCell]
    · simpa [putCell] using hf.reserved_le
    · simp [putCell]
      omega
    · simp [putCell, capacity]
      exact hb
    · rw [freeHead_shade]
      exact hw
    · intro j
      have := hf.mem_iff j
      rw [hcell]
      by_cases hj : j = h.top
      · simp [hj, hc]
      · simp only [hj, if_false, List.not_mem_nil, false_iff] at this ⊢
        simp [putCell]
        intro h1 h2
        exact fun h3 => this ⟨h1, by omega, h3⟩
    · simpa [putCell] using hf.count
  · simp at he

theorem alloc (hf : h.FreeList l) (he : Heap.alloc c h = .ok v h')
    (hc : c.t ≠ .freeT) : ∃ i, v = .ref i ∧ h.Takes i c h' ∧ ∃ l', h'.FreeList l' := by
  cases l with
  | nil =>
    obtain ⟨hv, ht, hf⟩ := hf.alloc_nil he hc
    exact ⟨h.top, hv, ht, [], hf⟩
  | cons i l =>
    obtain ⟨hv, ht, hf⟩ := hf.alloc_cons he hc
    exact ⟨i, hv, ht, l, hf⟩

theorem free (hf : h.FreeList l) {u : Unit} (he : Heap.free v h = .ok u h') :
    h'.FreeList (v.index :: l) := by
  obtain ⟨hp, ht, hu, rfl⟩ := free_ok he
  exact hf.reclaim hp ht hu

theorem sealed (hf : h.FreeList l) : h.sealed.FreeList [] := by
  refine ⟨Nat.le_trans hf.reserved_le hf.permanent_le, Nat.le_refl _, hf.top_le, rfl,
    fun i => ?_, rfl⟩
  refine iff_of_false List.not_mem_nil ?_
  rintro ⟨h1, h2, -⟩
  exact Nat.not_lt.2 h1 h2

theorem sealCells_eq (hf : h.FreeList l) : Heap.sealCells h =
    if l.length ≤ h.sanity then .ok (.imageSealed h.top) h.sealed
      else .error (.runaway "seal") h := by
  have hs : sift h.top (h.budget "seal") h.freeHead .nil 0 h =
      if l.length ≤ h.sanity then .ok (.nil, 0) h else .error (.runaway "seal") h :=
    hf.chain.sift (fun i hi => ((hf.mem_iff i).1 hi).2.1) .nil 0 _
  change EStateM.bind (sift h.top (h.budget "seal") h.freeHead .nil 0) _ h = _
  unfold EStateM.bind
  rw [hs]
  by_cases hl : l.length ≤ h.sanity
  · rw [if_pos hl, if_pos hl]
    rfl
  · rw [if_neg hl, if_neg hl]

end FreeList

end ActorMachine.Heap
