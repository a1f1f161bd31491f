import ActorMachine.Proofs.Footprint

namespace ActorMachine.Heap

variable {h : Heap} {l : List Nat} {v : Word} {i : Nat}

theorem free_eq_error (hv : ¬ (h.permanent ≤ v.index ∧ h.Live v.index)) : free v h =
    .error (if h.permanent ≤ v.index ∧
      v.index < h.top then .doubleFree v.toRef else .invalidRef v.toRef) h := by
  unfold free
  by_cases hr : h.permanent ≤ v.index ∧ v.index < h.top
  · have hfree : (h.cellAt v.index).t = .freeT := Decidable.not_not.1 fun hu => hv ⟨hr.1, hr.2, hu⟩
    rw [if_neg (by omega), if_pos hr, if_pos hfree]
  · rw [if_pos (by omega), if_neg hr]

theorem FreeList.alloc_reclaim (hf : h.FreeList l) (hp : h.permanent ≤ i) (hi : h.Live i)
    (c : Cell) : ∃ colors,
    Heap.alloc c (h.reclaim i) = .ok (.ref i) { h.putCell i c with colors } := by
  have hne : (h.reclaim i).freeHead ≠ .nil := (hf.reclaim hp hi.1 hi.2).chain.ne_nil
  have hz : ((h.reclaim i).cellAt i).z = h.freeHead := by
    rw [cellAt_reclaim h (Nat.lt_of_lt_of_le hi.1 hf.top_le), if_pos rfl]
  have hcells : (h.reclaim i).cells.setIfInBounds i c = h.cells.setIfInBounds i c := by
    simp [Heap.reclaim]
  have hback : ({ h.reclaim i with freeHead := h.freeHead, freeCount := h.freeCount } :
    Heap).putCell i c =
      { h.putCell i c with colors := (h.reclaim i).colors } := by
    simp [putCell, hcells]
  rw [Heap.alloc, if_pos hne]
  change ∃ colors, EStateM.Result.ok (Word.ref i) ((Heap.putCell { h.reclaim i with
    freeHead := ((h.reclaim i).cellAt i).z, freeCount := h.freeCount } i c).shade (.ref i)) = _
  rw [hz, hback, shade_eq]
  exact ⟨_, rfl⟩

/-- A word is taken back just if it leads to a cell in use that is not permanent, and if not,
nothing changes. Then the next cell is the same one, and but for what it holds the heap is as
before. -/
theorem takes_back (hf : h.FreeList l) (v : Word) :
    ((∃ h', free v h = .ok () h') ↔
      h.permanent ≤ v.index ∧ v.index < h.top ∧ (h.cellAt v.index).t ≠ .freeT) ∧
    (¬ (h.permanent ≤ v.index ∧ v.index < h.top ∧ (h.cellAt v.index).t ≠ .freeT) →
      free v h = .error (if h.permanent ≤ v.index ∧ v.index < h.top then .doubleFree v.toRef
        else .invalidRef v.toRef) h) ∧
    ∀ h', free v h = .ok () h' → ∀ c, ∃ h'', alloc c h' = .ok v.toRef h'' ∧
      h'' = { h.putCell v.index c with colors := h''.colors } ∧ h''.Chain .z h''.freeHead l := by
  refine ⟨⟨?_, ?_⟩, free_eq_error, ?_⟩
  · rintro ⟨h', he⟩
    obtain ⟨hp, ht, hu, -⟩ := free_ok he
    exact ⟨hp, ht, hu⟩
  · rintro ⟨hp, hi⟩
    exact ⟨_, free_eq hp hi⟩
  · intro h' he c
    obtain ⟨hp, ht, hu, rfl⟩ := free_ok he
    obtain ⟨colors, halloc⟩ := hf.alloc_reclaim hp ⟨ht, hu⟩ c
    refine ⟨_, halloc, rfl, hf.chain.congr fun j hj => ?_⟩
    have hne : v.index ≠ j := fun he => hu (he ▸ hf.isFree hj)
    exact congrArg (Cell.get · .z) (cellAt_putCell_ne h c hne)

def worn : Heap :=
  let used := ({ new 64 with top := 16 } : Heap).putCell 13 ⟨.actorT, .nil, .nil, .undefined⟩
  let pair : Cell := ⟨.pairT, .fix 1, .nil, .undefined⟩
  (((used.putCell 14 pair).putCell 15 pair).reclaim 14).reclaim 15

theorem freeList_worn : worn.FreeList [15, 14] := by
  have htop : worn.top = 16 := rfl
  have hcells : ∀ i < 16, i ∈ [15, 14] ↔ worn.permanent ≤ i ∧ (worn.cellAt i).t = .freeT := by
    decide +kernel
  refine ⟨by decide +kernel, by decide +kernel, by decide +kernel, ?_, fun i => ?_, rfl⟩
  · exact ⟨by decide +kernel, by decide +kernel, by decide +kernel, by decide +kernel,
      by decide +kernel⟩
  · rw [htop]
    constructor
    · intro hi
      have hlt : i < 16 := by
        simp only [List.mem_cons, List.not_mem_nil, or_false] at hi
        omega
      obtain ⟨hp, hf⟩ := (hcells i hlt).1 hi
      exact ⟨hp, hlt, hf⟩
    · rintro ⟨hp, hlt, hf⟩
      exact (hcells i hlt).2 ⟨hp, hf⟩

theorem takes_back_worn : worn.FreeList [15, 14] ∧ (∃ h', free (.cap 13) worn = .ok () h' ∧
      ∀ c, ∃ h'', alloc c h' = .ok (.ref 13) h'' ∧
        h'' = { worn.putCell 13 c with colors := h''.colors } ∧
        h''.Chain .z h''.freeHead [15, 14]) ∧
    free (.ref 15) worn = .error (.doubleFree (.ref 15)) worn ∧
    free (.cap 14) worn = .error (.doubleFree (.ref 14)) worn ∧
    free (.ref 16) worn = .error (.invalidRef (.ref 16)) worn := by
  -- A capability gives its actor back and gets the same cell next, with what is free besides in the
  -- order it was. What is free already cannot be given back again, and neither can what was never
  -- handed out.
  have hf := freeList_worn
  obtain ⟨hok, -, hnext⟩ := takes_back hf (.cap 13)
  obtain ⟨h', hfree⟩ := hok.2 (by decide +kernel)
  refine ⟨hf, ⟨h', hfree, hnext h' hfree⟩, ?_, ?_, ?_⟩
  · exact (takes_back hf (.ref 15)).2.1 (by decide +kernel)
  · exact (takes_back hf (.cap 14)).2.1 (by decide +kernel)
  · exact (takes_back hf (.ref 16)).2.1 (by decide +kernel)

theorem frees_number : worn.FreeList [15, 14] ∧ (Word.fix 13).isFixnum = true ∧
    ∃ h', free (.fix 13) worn = .ok () h' ∧ h'.isFree (.ref 13) = true :=
  ⟨freeList_worn, rfl, _, free_eq (by decide +kernel) ⟨by decide +kernel, by decide +kernel⟩,
    by decide +kernel⟩

end ActorMachine.Heap
