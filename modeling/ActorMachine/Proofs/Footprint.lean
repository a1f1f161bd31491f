import ActorMachine.Proofs.Allocator
import ActorMachine.Proofs.Stack

namespace ActorMachine.Heap

variable {F G : Nat → Prop} {h h' h'' : Heap} {l : List Nat} {i : Nat} {c : Cell} {v w : Word}

/-- A cell that was handed out and not given back. -/
def Live (h : Heap) (i : Nat) : Prop := i < h.top ∧ (h.cellAt i).t ≠ .freeT

/-- Of the cells that were handed out only those of the footprint may differ, and the allocator is
in order. -/
structure Reworks (F : Nat → Prop) (h h' : Heap) : Prop where
  same : ∀ i, h.Live i → ¬ F i → h'.cellAt i = h.cellAt i
  top_le : h.top ≤ h'.top
  permanent : h'.permanent = h.permanent
  capacity : h'.capacity = h.capacity
  sanity : h'.sanity = h.sanity
  allocator : ∃ l, h'.FreeList l

theorem live_of_isPair (hp : h.isPair (.ref i) = true) : h.Live i := by
  obtain ⟨j, hj, hlt, ht⟩ := isPair_iff.1 hp
  cases hj
  refine ⟨hlt, ?_⟩
  rw [ht]
  decide

namespace Reworks

theorem refl (hf : h.FreeList l) : h.Reworks F h :=
  ⟨fun _ _ _ => rfl, Nat.le_refl _, rfl, rfl, rfl, l, hf⟩

theorem live (hr : h.Reworks F h') (hi : h.Live i) (hF : ¬ F i) : h'.Live i :=
  ⟨Nat.lt_of_lt_of_le hi.1 hr.top_le, by rw [hr.same i hi hF]; exact hi.2⟩

theorem trans (h₁ : h.Reworks F h') (h₂ : h'.Reworks G h'') (hG : ∀ i, h.Live i → G i → F i) :
    h.Reworks F h'' where
  same i hi hF := by
    -- The second action may also change what the first one has taken.
    rw [h₂.same i (h₁.live hi hF) fun hg => hF (hG i hi hg), h₁.same i hi hF]
  top_le := Nat.le_trans h₁.top_le h₂.top_le
  permanent := h₂.permanent.trans h₁.permanent
  capacity := h₂.capacity.trans h₁.capacity
  sanity := h₂.sanity.trans h₁.sanity
  allocator := h₂.allocator

theorem mono (hr : h.Reworks F h') (hF : ∀ i, h.Live i → F i → G i) : h.Reworks G h' :=
  { hr with same := fun i hi hg => hr.same i hi fun hf => hg (hF i hi hf) }

theorem pairs (hr : h.Reworks F h') (hp : h.Pairs w l) (hF : ∀ i ∈ l, ¬ F i) : h'.Pairs w l :=
  hp.congr hr.top_le fun i hi => hr.same i (live_of_isPair (hp.2 i hi)) (hF i hi)

end Reworks

theorem Takes.not_live (ht : h.Takes i c h') : ¬ h.Live i := fun hi => hi.2 (ht.fresh hi.1)

theorem Takes.reworks (ht : h.Takes i c h') (hf : h'.FreeList l) : h.Reworks F h' :=
  ⟨fun _ hj _ => ht.ne fun e => ht.not_live (e ▸ hj), ht.top_le, ht.permanent, ht.capacity,
    ht.sanity, l, hf⟩

theorem Takes.isPair {x y z : Word} (ht : h.Takes i ⟨.pairT, x, y, z⟩ h') :
    h'.isPair (.ref i) = true :=
  isPair_iff.2 ⟨i, rfl, ht.lt_top, by rw [ht.self]⟩

theorem FreeList.inUse_alloc (hf : h.FreeList l) (hc : c.t ≠ .freeT)
    (he : Heap.alloc c h = .ok v h') :
    h'.inUse = h.inUse + 1 := by
  have hadd := hf.inUse_add
  have hcount := hf.count
  cases l with
  | nil =>
    obtain ⟨-, ht, hf'⟩ := hf.alloc_nil he hc
    have hcount' := hf'.count
    have htop := ht.top
    simp only [List.length_nil] at hcount hcount'
    unfold inUse at *
    omega
  | cons j l =>
    obtain ⟨-, ht, hf'⟩ := hf.alloc_cons he hc
    have hcount' := hf'.count
    have htop := ht.top
    have hlt := ((hf.mem_iff j).1 List.mem_cons_self).2.1
    simp only [List.length_cons] at hcount
    unfold inUse at *
    omega

theorem FreeList.taken (hf : h.FreeList l) (hc : c.t ≠ .freeT) (he : Heap.alloc c h = .ok v h') :
    ∃ i, v = .ref i ∧ h.Takes i c h' ∧ h.Reworks F h' ∧ h'.inUse = h.inUse + 1 := by
  obtain ⟨i, hv, ht, k, hk⟩ := hf.alloc he hc
  exact ⟨i, hv, ht, ht.reworks hk, hf.inUse_alloc hc he⟩

theorem FreeList.consed {x y : Word} (hf : h.FreeList l) (he : Heap.cons x y h = .ok v h') :
    ∃ i, v = .ref i ∧ h.Takes i ⟨.pairT, x, y, .undefined⟩ h' ∧ h.Reworks F h' ∧
      h'.inUse = h.inUse + 1 :=
  hf.taken (show Word.pairT ≠ .freeT by decide) he

theorem FreeList.alloc_isOk (hf : h.FreeList l) (hroom : h.inUse < h.capacity) (c : Cell) :
    ∃ v h', Heap.alloc c h = .ok v h' := by
  cases he : Heap.alloc c h with
  | ok v h' => exact ⟨v, h', rfl⟩
  | error f h' =>
    have := (hf.alloc_error_iff.1 he).1
    omega

structure Lays (h : Heap) (items : List Word) (v : Word) (ks : List Nat) (h' : Heap) : Prop where
  pairs : h'.Pairs v ks
  values : ks.map (fun k => (h'.cellAt k).x) = items
  fresh : ∀ k ∈ ks, ¬ h.Live k ∧ h.permanent ≤ k
  reworks : h.Reworks (fun _ => False) h'
  inUse : h'.inUse = h.inUse + items.length

theorem ofItems_cons (x : Word) (items : List Word) :
    ofItems (x :: items) = ofItems items >>= fun v => cons x v := List.foldrM_cons

theorem FreeList.lays {items : List Word} (hf : h.FreeList l) (he : ofItems items h = .ok v h') :
    ∃ ks, h.Lays items v ks h' := by
  induction items generalizing v h' with
  | nil =>
    cases he
    exact ⟨[], ⟨rfl, by simp⟩, rfl, by simp, .refl hf, rfl⟩
  | cons x items ih =>
    rw [ofItems_cons] at he
    change EStateM.bind (ofItems items) _ h = _ at he
    unfold EStateM.bind at he
    cases hr : ofItems items h with
    | error f h₁ =>
      rw [hr] at he
      cases he
    | ok w h₁ =>
      rw [hr] at he
      obtain ⟨ks, hks⟩ := ih hr
      obtain ⟨l₁, hf₁⟩ := hks.reworks.allocator
      obtain ⟨k, rfl, ht, hre, huse⟩ := hf₁.consed (F := fun _ => False) he
      have hold : ∀ j ∈ ks, h'.cellAt j = h₁.cellAt j := fun j hj =>
        hre.same j (live_of_isPair (hks.pairs.2 j hj)) id
      have hpairs := hre.pairs hks.pairs fun _ _ => id
      refine ⟨k :: ks, ⟨⟨rfl, ?_, ?_⟩, ?_⟩, ?_, ?_, ?_, ?_⟩
      · exact Nat.le_trans hf₁.reserved_le ht.permanent_le
      · rw [ht.self]
        exact hpairs.1
      · exact List.forall_mem_cons.2 ⟨ht.isPair, hpairs.2⟩
      · rw [List.map_cons, ht.self, ← hks.values]
        exact congrArg _ (List.map_congr_left fun j hj => by rw [hold j hj])
      · refine List.forall_mem_cons.2 ⟨⟨fun hlive => ?_, ?_⟩, hks.fresh⟩
        · exact ht.not_live (hks.reworks.live hlive id)
        · rw [← hks.reworks.permanent]
          exact ht.permanent_le
      · exact hks.reworks.trans hre fun _ _ => id
      · rw [huse, hks.inUse, List.length_cons]
        omega

theorem FreeList.reworks_ofItems (hf : h.FreeList l) (items : List Word) :
    h.Reworks F (final (ofItems items) h) := by
  induction items with
  | nil => exact .refl hf
  | cons x items ih =>
    rw [ofItems_cons]
    refine final_bind_cases (fun w h₁ hr => ?_) fun e h₁ hr => ?_
    · unfold final at ih
      simp only [hr] at ih
      obtain ⟨l₁, hf₁⟩ := ih.allocator
      unfold final
      cases he : cons x w h₁ with
      | error f h₂ =>
        rw [(alloc_error he).2.2.2]
        exact ih
      | ok u h₂ =>
        obtain ⟨k, -, -, hre, -⟩ := hf₁.consed (F := fun _ => False) he
        exact ih.trans hre fun _ _ => False.elim
    · unfold final at ih
      rwa [hr] at ih

theorem FreeList.ofItems_isOk (hf : h.FreeList l) {items : List Word}
    (hroom : h.inUse + items.length ≤ h.capacity) : ∃ v h', ofItems items h = .ok v h' := by
  induction items with
  | nil => exact ⟨.nil, h, rfl⟩
  | cons x items ih =>
    rw [List.length_cons] at hroom
    obtain ⟨w, h₁, hr⟩ := ih (by omega)
    obtain ⟨ks, hks⟩ := hf.lays hr
    obtain ⟨l₁, hf₁⟩ := hks.reworks.allocator
    have hlt : h₁.inUse < h₁.capacity := by
      rw [hks.inUse, hks.reworks.capacity]
      omega
    obtain ⟨v, h', he⟩ := hf₁.alloc_isOk hlt ⟨.pairT, x, w, .undefined⟩
    refine ⟨v, h', ?_⟩
    rw [ofItems_cons]
    change EStateM.bind (ofItems items) _ h = _
    unfold EStateM.bind
    rw [hr]
    exact he

theorem FreeList.inUse_reclaim (hf : h.FreeList l) (hp : h.permanent ≤ i) (hi : h.Live i) :
    (h.reclaim i).inUse + 1 = h.inUse := by
  have hadd := hf.inUse_add
  have hadd' := (hf.reclaim hp hi.1 hi.2).inUse_add
  rw [top_reclaim, freeCount_reclaim] at hadd'
  omega

theorem FreeList.reworks_reclaim (hf : h.FreeList l) (hp : h.permanent ≤ i) (hi : h.Live i) :
    h.Reworks (· = i) (h.reclaim i) :=
  ⟨fun j _ hj => by rw [cellAt_reclaim h (Nat.lt_of_lt_of_le hi.1 hf.top_le), if_neg hj],
    Nat.le_refl _, rfl, capacity_reclaim .., rfl, _, hf.reclaim hp hi.1 hi.2⟩

theorem free_eq {v : Word} (hp : h.permanent ≤ v.index) (hi : h.Live v.index) :
    free v h = .ok () (h.reclaim v.index) := by
  have := hi.1
  rw [free, if_neg (by omega), if_neg hi.2]

theorem Pairs.freeSpine_go {ks : List Nat} (hp : h.Pairs w ks) (hf : h.FreeList l)
    (hnil : h.isPair .nil = false) (hperm : ∀ k ∈ ks, h.permanent ≤ k) (b : Budget) :
    h.Reworks (· ∈ ks) (final (freeSpine.go b w) h) ∧ (ks.length ≤ b.left →
      ∃ h', freeSpine.go b w h = .ok () h' ∧ h'.inUse + ks.length = h.inUse) := by
  induction ks generalizing h w l b with
  | nil =>
    obtain ⟨rfl, -⟩ := hp
    have hrun : freeSpine.go b .nil h = .ok () h := by
      unfold freeSpine.go
      change (if (h.isPair .nil && _) = true then _ else _ : HeapM Unit) h = _
      rw [hnil]
      rfl
    unfold final
    rw [hrun]
    exact ⟨.refl hf, fun _ => ⟨h, rfl, rfl⟩⟩
  | cons k ks ih =>
    obtain ⟨rfl, hcdr, hrest⟩ := hp.cdr
    have hpair := hp.2 k List.mem_cons_self
    have hlive := live_of_isPair hpair
    have hk := hperm k List.mem_cons_self
    have hnd := List.nodup_cons.1 hp.1.nodup
    have hgo : ∀ act : HeapM Unit,
        (if (h.isPair (.ref k) && decide (h.permanent ≤ k)) = true then act else pure ()) h =
        act h := by
      intro act
      rw [hpair, decide_eq_true hk]
      rfl
    obtain ⟨_ | n, task⟩ := b
    · have hrun : freeSpine.go ⟨0, task⟩ (.ref k) h = .error (.runaway task) h := by
        unfold freeSpine.go
        exact hgo _
      unfold final
      rw [hrun]
      exact ⟨.refl hf, fun hs => absurd hs (Nat.not_succ_le_zero _)⟩
    · have hre := hf.reworks_reclaim hk hlive
      obtain ⟨l', hf'⟩ := hre.allocator
      have hrest' := hre.pairs hrest fun j hj => fun e => hnd.1 (e ▸ hj)
      have hnil' : (h.reclaim k).isPair .nil = false := by
        rw [← hnil]
        have : (1 : Nat) ≠ k := by
          have := Nat.le_trans hf.reserved_le hk
          unfold Word.reserved at this
          omega
        unfold isPair hasType isCell
        simp only [Word.index, top_reclaim,
          cellAt_reclaim h (Nat.lt_of_lt_of_le hlive.1 hf.top_le), if_neg this]
        rfl
      have hrun : freeSpine.go ⟨n + 1, task⟩ (.ref k) h =
          freeSpine.go ⟨n, task⟩ ((h.cellAt k).y) (h.reclaim k) := by
        conv_lhs => unfold freeSpine.go
        refine (hgo _).trans ?_
        change EStateM.bind (Heap.free (.ref k)) (fun _ =>
          freeSpine.go ⟨n, task⟩ (h.cdr (.ref k))) h = _
        unfold EStateM.bind
        rw [free_eq (v := .ref _) hk hlive, hcdr]
        rfl
      obtain ⟨hre', huse⟩ := ih hrest' hf' hnil' (fun j hj =>
        hperm j (List.mem_cons_of_mem k hj)) ⟨n, task⟩
      have hfinal : final (freeSpine.go ⟨n + 1, task⟩ (.ref k)) h =
          final (freeSpine.go ⟨n, task⟩ (h.cellAt k).y) (h.reclaim k) := by
        unfold final
        rw [hrun]
      refine ⟨?_, fun hs => ?_⟩
      · rw [hfinal]
        refine (hre.mono ?_).trans hre' fun j _ hj => List.mem_cons_of_mem k hj
        rintro j - rfl
        exact List.mem_cons_self
      · obtain ⟨h', hok, hin⟩ := huse (Nat.le_of_succ_le_succ hs)
        refine ⟨h', hrun.trans hok, ?_⟩
        have := hf.inUse_reclaim hk hlive
        rw [List.length_cons]
        omega

theorem Pairs.freeSpine {ks : List Nat} (hp : h.Pairs w ks) (hf : h.FreeList l)
    (hnil : h.isPair .nil = false) (hperm : ∀ k ∈ ks, h.permanent ≤ k) (hs : ks.length ≤ h.sanity) :
    ∃ h', freeSpine w h = .ok () h' ∧ h.Reworks (· ∈ ks) h' ∧ h'.inUse + ks.length = h.inUse := by
  obtain ⟨hre, hrun⟩ := hp.freeSpine_go hf hnil hperm (h.budget "free spine")
  obtain ⟨h', hok, huse⟩ := hrun hs
  unfold final at hre
  rw [hok] at hre
  exact ⟨h', hok, hre, huse⟩

end ActorMachine.Heap
