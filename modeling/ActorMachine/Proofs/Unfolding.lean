import ActorMachine.Proofs.DataEquality
import Mathlib.Data.List.Nodup
import Mathlib.Data.List.Range
/-! Unfoldings of data. A word unfolds through the components of pairs to a tree, which is infinite
where the pairs run in a circle. Main statement: a comparison that comes to an end tells whether two
words unfold to the same tree, it does not matter which of them comes first, and it comes to an end
if one of them unfolds to a finite tree in which no pair stands twice. -/

namespace ActorMachine.Heap

variable {h : Heap} {v w x y : Word} {ps qs : List Word}

inductive Side where
  | car | cdr
  deriving DecidableEq, Repr

inductive Node where
  | pair
  | leaf (w : Word)
  deriving DecidableEq, Repr

def component (h : Heap) (v : Word) : Side → Word
  | .car => h.car v
  | .cdr => h.cdr v

/-- The tree that a word unfolds to: what stands at the end of each way into it. -/
def unfolding (h : Heap) (v : Word) : List Side → Option Node
  | [] => some (if h.isPair v then .pair else .leaf v)
  | s :: p => if h.isPair v then h.unfolding (h.component v s) p else none

theorem unfolding_pair (hv : h.isPair v = true) (s : Side) (p : List Side) :
    h.unfolding v (s :: p) = h.unfolding (h.component v s) p := by
  rw [unfolding, if_pos hv]

theorem unfolding_component (hx : h.isPair x = true) (hy : h.isPair y = true) (s : Side)
    (he : h.unfolding x = h.unfolding y) :
    h.unfolding (h.component x s) = h.unfolding (h.component y s) := by
  funext p
  rw [← unfolding_pair hx, ← unfolding_pair hy, he]

theorem Differs.unfolding_ne (hd : h.Differs x y) : h.unfolding x ≠ h.unfolding y := by
  induction hd with
  | @here x y hne hp =>
    intro he
    have hroot := congrFun he []
    cases hx : h.isPair x <;> cases hy : h.isPair y <;> simp_all [unfolding]
  | car hx hy _ ih => exact fun he => ih (unfolding_component hx hy .car he)
  | cdr hx hy _ ih => exact fun he => ih (unfolding_component hx hy .cdr he)

theorem unfolding_of_alike (hd : ¬ h.Differs x y) : h.unfolding x = h.unfolding y := by
  funext p
  induction p generalizing x y with
  | nil =>
    obtain rfl | ⟨hx, hy, -⟩ := alike_cases hd
    · rfl
    · rw [unfolding, unfolding, if_pos hx, if_pos hy]
  | cons s p ih =>
    obtain rfl | ⟨hx, hy, hcar, hcdr⟩ := alike_cases hd
    · rfl
    · rw [unfolding_pair hx, unfolding_pair hy]
      cases s with
      | car => exact ih hcar
      | cdr => exact ih hcdr

theorem unfolding_eq_iff : h.unfolding x = h.unfolding y ↔ ¬ h.Differs x y :=
  ⟨fun he hd => hd.unfolding_ne he, unfolding_of_alike⟩

theorem equalAll_swap (h : Heap) (b : Budget) (work : List (Word × Word)) :
    h.equalAll b (work.map Prod.swap) = h.equalAll b work := by
  fun_induction equalAll h b work with
  | case1 b => rw [List.map_nil, equalAll]
  | case2 b x rest ih => rw [List.map_cons, Prod.swap_prod_mk, equalAll_same, ih]
  | case3 b x y rest hne hp e hb =>
    rw [List.map_cons, Prod.swap_prod_mk, equalAll, if_neg (Ne.symm hne), Bool.and_comm, if_pos hp]
    split <;> simp_all
  | case4 b x y rest hne hp b' hb ih =>
    rw [List.map_cons, Prod.swap_prod_mk, equalAll, if_neg (Ne.symm hne), Bool.and_comm, if_pos hp]
    split <;> simp_all
  | case5 b x y rest hne hp =>
    rw [List.map_cons, Prod.swap_prod_mk, equalAll_apart (Ne.symm hne)]
    rwa [Bool.and_comm, ← Bool.not_eq_true]

theorem equal_comm (h : Heap) (x y : Word) : h.equal x y = h.equal y x :=
  equalAll_swap h (h.budget "equal") [(y, x)]

/-- The word unfolds to a finite tree, with these pairs in it, each as often as it stands there. -/
inductive Tree (h : Heap) : Word → List Word → Prop
  | leaf {v : Word} : h.isPair v = false → Tree h v []
  | pair {v : Word} {ps qs : List Word} : h.isPair v = true → Tree h (h.car v) ps →
    Tree h (h.cdr v) qs →
      Tree h v (v :: (ps ++ qs))

theorem Tree.isPair (ht : h.Tree v ps) : ∀ w ∈ ps, h.isPair w = true := by
  induction ht with
  | leaf => simp
  | pair hv _ _ ihcar ihcdr =>
    intro w hw
    obtain rfl | hw := List.mem_cons.1 hw
    · exact hv
    · exact (List.mem_append.1 hw).elim (ihcar w) (ihcdr w)

theorem index_lt_of_isPair (hv : h.isPair v = true) : ∃ i, v = .ref i ∧ i < h.capacity := by
  -- Cells beyond the capacity are blank, so they are no pairs.
  obtain ⟨i, rfl, -, ht⟩ := isPair_iff.1 hv
  refine ⟨i, rfl, Nat.lt_of_not_le fun hi => ?_⟩
  have hblank : h.cellAt i = .blank := by
    rw [cellAt, Array.getD_eq_getD_getElem?, Array.getElem?_eq_none hi, Option.getD_none]
  rw [hblank] at ht
  cases ht

theorem length_le_capacity (hn : ps.Nodup) (hp : ∀ w ∈ ps, h.isPair w = true) :
    ps.length ≤ h.capacity := by
  have hsub : ps ⊆ (List.range h.capacity).map Word.ref := by
    intro w hw
    obtain ⟨i, rfl, hi⟩ := index_lt_of_isPair (hp w hw)
    exact List.mem_map_of_mem (List.mem_range.2 hi)
  simpa using (hn.subperm hsub).length_le

theorem equalAll_isOk {b : Budget} {work : List (Word × Word)} {trees : List (List Word)}
    (ht : List.Forall₂ (fun p ps => h.Tree p.1 ps) work trees)
    (hb : trees.flatten.length ≤ b.left) :
    ∃ same, h.equalAll b work = .ok same := by
  fun_induction equalAll h b work generalizing trees with
  | case1 => exact ⟨true, rfl⟩
  | case2 b x rest ih =>
    obtain ⟨ps, trees, -, hrest, rfl⟩ := List.forall₂_cons_left_iff.1 ht
    refine ih hrest (le_trans ?_ hb)
    simp
  | case3 b x y rest hne hp e he =>
    rw [(Budget.exhausted he).1] at hb
    obtain ⟨ps, trees, hx, -, rfl⟩ := List.forall₂_cons_left_iff.1 ht
    cases hx with
    | leaf hn => simp [hn] at hp
    | pair => simp at hb
  | case4 b x y rest hne hp b' he ih =>
    rw [Budget.left_eq he] at hb
    obtain ⟨ps, trees, hx, hrest, rfl⟩ := List.forall₂_cons_left_iff.1 ht
    cases hx with
    | leaf hn => simp [hn] at hp
    | pair _ hcar hcdr =>
      refine ih (.cons hcar (.cons hcdr hrest)) ?_
      simp only [List.flatten_cons, List.cons_append, List.length_cons, List.length_append] at hb ⊢
      omega
  | case5 => exact ⟨false, rfl⟩

theorem Tree.equal_isOk (ht : h.Tree x ps) (hn : ps.Nodup) (hs : h.sanity = h.capacity) (y : Word) :
    ∃ b, h.equal x y = .ok b := by
  refine equalAll_isOk (.cons ht .nil) ?_
  have := length_le_capacity hn ht.isPair
  simpa [hs] using this

/-- Comparison of data is comparison of unfoldings, finite or not. -/
theorem equal_unfoldings (h : Heap) (x y : Word) :
    (∀ b, h.equal x y = .ok b → (b = true ↔ h.unfolding x = h.unfolding y)) ∧
      h.equal x y = h.equal y x ∧
      (h.sanity = h.capacity → ∀ ps, h.Tree x ps → ps.Nodup → ∃ b, h.equal x y = .ok b) := by
  refine ⟨fun b hb => ?_, equal_comm h x y, fun hs ps ht hn => ht.equal_isOk hn hs y⟩
  rw [unfolding_eq_iff]
  exact equal_ok hb

def looped : Heap :=
  ({ new 17 with top := 17 } : Heap)
    |>.putCell 13 ⟨.pairT, .fix 1, .ref 15, .undefined⟩
    |>.putCell 14 ⟨.pairT, .fix 1, .ref 15, .undefined⟩
    |>.putCell 15 ⟨.pairT, .fix 2, .ref 15, .undefined⟩
    |>.putCell 16 ⟨.pairT, .fix 1, .nil, .undefined⟩

theorem equal_unfoldings_looped :
    (looped.equal (.ref 13) (.ref 14) = .ok true ∧
      looped.unfolding (.ref 13) = looped.unfolding (.ref 14)) ∧
      looped.sanity = looped.capacity ∧ looped.Tree (.ref 16) [.ref 16] ∧
      ∃ b, looped.equal (.ref 16) (.ref 13) = .ok b := by
  have hequal : looped.equal (.ref 13) (.ref 14) = .ok true := by
    have hx : looped.isPair (.ref 13) = true := by decide +kernel
    have hy : looped.isPair (.ref 14) = true := by decide +kernel
    have hcar : looped.car (.ref 13) = looped.car (.ref 14) := by decide +kernel
    have hcdr : looped.cdr (.ref 13) = looped.cdr (.ref 14) := by decide +kernel
    have hs : looped.sanity = 16 + 1 := by decide +kernel
    rw [equal, Heap.budget, hs, equalAll_pairs (by decide) hx hy, hcar, hcdr, equalAll_same,
      equalAll_same, equalAll]
  have hcar : looped.Tree (looped.car (.ref 16)) [] := .leaf (by decide +kernel)
  have hcdr : looped.Tree (looped.cdr (.ref 16)) [] := .leaf (by decide +kernel)
  have htree : looped.Tree (.ref 16) [.ref 16] := .pair (by decide +kernel) hcar hcdr
  have hsanity : looped.sanity = looped.capacity := by decide +kernel
  exact ⟨⟨hequal, ((equal_unfoldings looped (.ref 13) (.ref 14)).1 true hequal).1 rfl⟩,
    hsanity, htree, (equal_unfoldings looped (.ref 16) (.ref 13)).2.2 hsanity _ htree
    (List.nodup_singleton _)⟩

end ActorMachine.Heap
