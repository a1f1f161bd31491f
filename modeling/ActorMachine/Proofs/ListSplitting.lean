import ActorMachine.Proofs.StackRearrangement
import ActorMachine.Proofs.Unfolding

namespace ActorMachine

open Heap

open Machine

namespace Heap

variable {h h' : Heap} {v w p : Word} {i n : Nat} {l ks js : List Nat} {items : List Word}

def Segment (h : Heap) : Word → List Nat → Word → Prop
  | v, [], w => v = w
  | v, i :: ks, w => v = .ref i ∧ h.isPair (.ref i) = true ∧ h.Segment (h.cellAt i).y ks w

theorem Segment.isPair (hv : h.Segment v ks w) : ∀ i ∈ ks, h.isPair (.ref i) = true := by
  induction ks generalizing v with
  | nil => simp
  | cons i ks ih => exact List.forall_mem_cons.2 ⟨hv.2.1, ih hv.2.2⟩

theorem Segment.congr (hv : h.Segment v ks w) (htop : h.top ≤ h'.top)
    (hs : ∀ i ∈ ks, h'.cellAt i = h.cellAt i) :
    h'.Segment v ks w := by
  induction ks generalizing v with
  | nil => exact hv
  | cons i ks ih =>
    obtain ⟨rfl, hp, hv⟩ := hv
    obtain ⟨j, hj, hlt, ht⟩ := isPair_iff.1 hp
    cases hj
    have hi := hs i List.mem_cons_self
    refine ⟨rfl, isPair_iff.2 ⟨i, rfl, Nat.lt_of_lt_of_le hlt htop, hi ▸ ht⟩, ?_⟩
    rw [hi]
    exact ih hv fun j hj => hs j (List.mem_cons_of_mem i hj)

theorem Segment.reworks {F : Nat → Prop} (hv : h.Segment v ks w) (hr : h.Reworks F h')
    (hF : ∀ i ∈ ks, ¬ F i) :
    h'.Segment v ks w ∧ ks.map (fun i => (h'.cellAt i).x) = ks.map fun i => (h.cellAt i).x := by
  have hs : ∀ i ∈ ks, h'.cellAt i = h.cellAt i := fun i hi =>
    hr.same i (live_of_isPair (hv.isPair i hi)) (hF i hi)
  exact ⟨hv.congr hr.top_le hs, List.map_congr_left fun i hi => by rw [hs i hi]⟩

theorem Segment.splitItems (hv : h.Segment v ks w) :
    h.splitItems ks.length v = .ok (ks.map fun i => (h.cellAt i).x, w) := by
  induction ks generalizing v with
  | nil => exact congrArg (fun w => Except.ok ([], w)) hv
  | cons i ks ih =>
    obtain ⟨rfl, hp, hv⟩ := hv
    rw [List.length_cons, splitItems, if_pos hp, cdr_eq hp, car_eq hp, ih hv]
    rfl

theorem pairAt?_succ (h : Heap) (n : Nat) (v : Word) :
    h.pairAt? (n + 1) v = (h.pairAt? n v).bind fun p => h.pairAt? 0 (h.cdr p) := by
  induction n generalizing v with
  | zero => by_cases hp : h.isPair v = true <;> simp [pairAt?, hp]
  | succ n ih =>
    by_cases hp : h.isPair v = true
    · rw [pairAt?, if_pos hp, ih, pairAt?, if_pos hp]
    · rw [pairAt?, if_neg hp, pairAt?, if_neg hp, Option.bind_none]

theorem Segment.pairAt? (hv : h.Segment v ks w) (hn : n < ks.length) :
    h.pairAt? n v = some (.ref ks[n]) := by
  induction ks generalizing v n with
  | nil => cases hn
  | cons i ks ih =>
    obtain ⟨rfl, hp, hv⟩ := hv
    cases n with
    | zero => rw [pairAt?, if_pos hp, List.getElem_cons_zero]
    | succ n =>
      rw [pairAt?, if_pos hp, cdr_eq hp, ih hv (Nat.lt_of_succ_lt_succ hn), List.getElem_cons_succ]

theorem Segment.getLast (hv : h.Segment v ks w) (hne : ks ≠ []) :
    (h.cellAt (ks.getLast hne)).y = w := by
  induction ks generalizing v with
  | nil => exact absurd rfl hne
  | cons i ks ih =>
    cases ks with
    | nil => exact hv.2.2
    | cons j ks =>
      rw [List.getLast_cons (List.cons_ne_nil j ks)]
      exact ih hv.2.2 _

theorem Segment.nth_item (hv : h.Segment v ks w) {k : Nat} (hk : 1 ≤ k) (hle : k ≤ ks.length) :
    (ks.map fun i => (h.cellAt i).x)[k - 1]? = some (h.nth v k) := by
  have hlt : k - 1 < ks.length := by omega
  unfold nth
  rw [if_neg (by omega), Int.natAbs_natCast, hv.pairAt? hlt]
  dsimp only
  rw [if_pos (by omega), car_eq (hv.isPair _ (List.getElem_mem hlt)), List.getElem?_map,
    List.getElem?_eq_getElem hlt, Option.map_some]

theorem Segment.nth_rest (hv : h.Segment v ks w) : h.nth v (-ks.length) = w := by
  by_cases hne : ks = []
  · subst hne
    exact hv
  · have hlen := List.length_pos_iff.2 hne
    have hlt : ks.length - 1 < ks.length := by omega
    unfold nth
    rw [if_neg (by omega), Int.natAbs_neg, Int.natAbs_natCast, hv.pairAt? hlt]
    dsimp only
    rw [if_neg (by omega), cdr_eq (hv.isPair _ (List.getElem_mem hlt)),
      ← List.getLast_eq_getElem hne]
    exact hv.getLast hne

theorem Pristine.nth_succ (hi : h.Pristine) (v : Word) {k : Int} (hk : 1 ≤ k) :
    h.nth v (k + 1) = h.nth (h.nth v (-k)) 1 := by
  obtain ⟨n, rfl⟩ : ∃ n : Nat, k = n + 1 := ⟨(k - 1).toNat, by omega⟩
  have hundefined : h.pairAt? 0 .undefined = none := by
    have hp : h.isPair .undefined = false := hi.hasType_eq (by decide) (by decide) (by decide)
    rw [pairAt?, hp]
    rfl
  unfold nth
  rw [if_neg (by omega), if_neg (by omega), if_neg (by omega),
    show ((n : Int) + 1 + 1).natAbs - 1 = n + 1 by omega, show (-((n : Int) + 1)).natAbs - 1 = n by
      omega, show (1 : Int).natAbs - 1 = 0 from rfl, pairAt?_succ]
  cases h.pairAt? n v with
  | none =>
    dsimp only [Option.bind_none]
    rw [hundefined]
  | some p =>
    dsimp only [Option.bind_some]
    rw [if_neg (by omega)]
    cases h.pairAt? 0 (h.cdr p) with
    | none => rfl
    | some q => exact if_pos (by omega)

theorem Segment.equal (hv : h.Segment v ks w) (hp : h.Segment p js w)
    (hi : js.map (fun i => (h.cellAt i).x) = ks.map fun i => (h.cellAt i).x)
    (hs : ks.length ≤ h.sanity) :
    h.equal p v = .ok true := by
  -- Two stretches with the same items and the same rest are alike. The items cost nothing to
  -- compare.
  unfold Heap.equal budget
  generalize h.sanity = n at hs
  induction ks generalizing v p js n with
  | nil =>
    cases List.map_eq_nil_iff.1 hi
    cases hv
    cases hp
    rw [equalAll_same, equalAll]
  | cons i ks ih =>
    cases js with
    | nil => cases hi
    | cons j js =>
      obtain ⟨hx, hi⟩ := List.cons.inj hi
      have hx : (h.cellAt j).x = (h.cellAt i).x := hx
      obtain ⟨rfl, hpi, hv⟩ := hv
      obtain ⟨rfl, hpj, hp⟩ := hp
      cases n with
      | zero => cases hs
      | succ n =>
        by_cases hne : Word.ref j = .ref i
        · rw [hne, equalAll_same, equalAll]
        · rw [equalAll_pairs hne hpj hpi, car_eq hpi, car_eq hpj, cdr_eq hpi, cdr_eq hpj, hx,
            equalAll_same]
          exact ih hv hp hi n (Nat.le_of_succ_le_succ hs)

structure Fronts (h : Heap) (items : List Word) (w v : Word) (ks : List Nat) (h' : Heap) :
    Prop where
  segment : h'.Segment v ks w
  values : ks.map (fun k => (h'.cellAt k).x) = items
  fresh : ∀ k ∈ ks, ¬ h.Live k
  reworks : h.Reworks (fun _ => False) h'
  inUse : h'.inUse = h.inUse + items.length

theorem FreeList.achieves_prepend (hf : h.FreeList l) (items : List Word) (w : Word)
    (hroom : h.inUse + items.length ≤ h.capacity) :
    Achieves (prepend items w) h fun v h' => ∃ ks, h.Fronts items w v ks h' := by
  unfold prepend
  induction items with
  | nil => exact ⟨w, h, rfl, [], rfl, rfl, by simp, .refl hf, rfl⟩
  | cons x items ih =>
    rw [List.length_cons] at hroom
    rw [List.foldrM_cons]
    refine (ih (by omega)).bind ?_
    rintro v h₁ ⟨ks, hks⟩
    obtain ⟨k, hk⟩ := hks.reworks.allocator
    have hroom₁ : h₁.inUse < h₁.capacity := by
      rw [hks.inUse, hks.reworks.capacity]
      omega
    refine (hk.achieves_take hroom₁ (show Word.pairT ≠ .freeT by decide)).mono ?_
    rintro _ h₂ ⟨i, rfl, ht, hr, hu⟩
    obtain ⟨hseg, hval⟩ := hks.segment.reworks hr fun _ _ => id
    refine ⟨i :: ks, ⟨rfl, ht.isPair, by rwa [ht.self]⟩, ?_, ?_,
      hks.reworks.trans hr fun _ _ => id, ?_⟩
    · rw [List.map_cons, ht.self, hval, hks.values]
    · exact List.forall_mem_cons.2 ⟨fun hl => ht.not_live (hks.reworks.live hl id), hks.fresh⟩
    · rw [hu, hks.inUse, List.length_cons]
      omega

end Heap

variable {t n : Nat} {l l' l'' ks : List Nat} {s a b : List Word} {m m' m'' : Machine} {v w : Word}

theorem Machine.ask_error {α : Type} {g : Heap → Except Fault α} {f : Fault}
    (hg : g m.heap = .error f) :
    ask g m = .error f m := lift_eq_error.2 ⟨m.heap, Heap.query_error hg, rfl⟩

structure Moves (t : Nat) (l l' : List Nat) (m m' : Machine) : Prop where
  rest : m' = { m with heap := m'.heap, log := m'.log }
  reworks : m.heap.Reworks (fun i => i = t ∨ i ∈ l) m'.heap
  own : ∀ i ∈ l', m.heap.Live i → i = t ∨ i ∈ l

theorem Moves.trans (h₁ : Moves t l l' m m') (h₂ : Moves t l' l'' m' m'') :
    Moves t l l'' m m'' where
  rest := by rw [h₂.rest, h₁.rest]
  reworks := h₁.reworks.trans h₂.reworks fun i hi hF => hF.elim .inl fun hl => h₁.own i hl hi
  own i hi hlive := by
    refine Classical.by_contradiction fun hF => ?_
    obtain ht | hl := h₂.own i hi (h₁.reworks.live hlive hF)
    · exact hF (.inl ht)
    · exact hF (h₁.own i hl hlive)

theorem Moves.same {i : Nat} (hm : Moves t l l' m m') (hi : m.heap.Live i) (ht : i ≠ t)
    (hl : i ∉ l) :
    m'.heap.cellAt i = m.heap.cellAt i :=
  hm.reworks.same i hi fun h => h.elim ht hl

theorem Restacks.moves (hr : Restacks t l l' m m') (hf : ∃ k, m'.heap.FreeList k) :
    Moves t l l' m m' where
  rest := hr.rest
  reworks := by
    refine ⟨fun i hi hF => ?_, hr.top_le, hr.permanent, hr.capacity, hr.sanity, hf⟩
    obtain ⟨ht, hl⟩ := not_or.1 hF
    exact hr.same i ht hl fun hi' => (hr.fresh i hi').elim hl fun hdead => hdead hi
  own i hi hlive := (hr.fresh i hi).elim .inr fun hdead => absurd hlive hdead

namespace Holds

theorem survives {h : Heap} (hs : Holds t l s m) (hr : m.heap.Reworks (fun _ => False) h) :
    Holds t l s { m with heap := h } ∧ Moves t l l m { m with heap := h } := by
  obtain ⟨k, hk⟩ := hs.allocator
  have hreserved : ∀ i < Word.reserved, m.heap.Live i := fun i hi => by
    refine ⟨Nat.lt_of_lt_of_le hi (Nat.le_trans hk.reserved_le hk.permanent_le), ?_⟩
    obtain ht | ht := hs.pristine.type hi <;> rw [ht] <;> decide
  have hthread := hr.same t hs.live id
  have hcells : ∀ i ∈ l, h.cellAt i = m.heap.cellAt i := fun i hi =>
    hr.same i (live_of_isPair (hs.pairs.2 i hi)) id
  refine ⟨⟨hr.allocator, fun i hi => ?_, hs.head, hr.live hs.live id, ?_, hs.apart,
    fun i hi => ?_, ?_⟩, rfl, hr.mono fun _ _ => False.elim, fun i hi _ => .inr hi⟩
  · rw [hr.same i (hreserved i hi) id, hs.pristine i hi]
  · rw [hthread]
    exact hr.pairs hs.pairs fun _ _ => id
  · rw [hr.permanent]
    exact hs.loose i hi
  · rw [← hs.values]
    exact List.map_congr_left fun i hi => by rw [hcells i hi]

theorem stackCount_eq (hs : Holds t l s m) (hd : s.length ≤ m.heap.sanity) (hn : n ≤ s.length)
    (op : String) :
    stackCount op n m = .ok n m := by
  unfold stackCount
  dsimp only
  rw [if_neg (by omega), run_bind (hs.depth_eq hd), Int.toNat_natCast, if_neg (Nat.not_lt.2 hn)]
  rfl

theorem achieves_makeList (hs : Holds t l (a ++ w :: b) m)
    (hd : (a ++ w :: b).length ≤ m.heap.sanity) :
    Achieves (makeList a.length) m fun _ m' => ∃ p ks l', Holds t l' (p :: b) m' ∧
      Moves t l l' m m' ∧
      m'.heap.Segment p ks w ∧ ks.map (fun k => (m'.heap.cellAt k).x) = a ∧
      (∀ k ∈ ks, k ≠ t ∧ k ∉ l') ∧
      m'.heap.inUse = m.heap.inUse := by
  have hlen := hs.length_eq
  have huse := hs.inUse_le
  rw [List.length_append, List.length_cons] at hlen
  unfold makeList
  rw [achieves_bind (hs.stackCount_eq hd (by simp) "pair")]
  refine (hs.achieves_popN (by simp)).bind ?_
  rintro _ m₁ ⟨rfl, hs₁, hr₁⟩
  rw [List.drop_left] at hs₁
  rw [List.take_left]
  obtain ⟨i, l₂, hl₂⟩ : ∃ i l₂, l.drop a.length = i :: l₂ := by
    refine List.exists_cons_of_length_pos ?_
    rw [List.length_drop]
    omega
  have hlen₂ := congrArg List.length hl₂
  rw [List.length_drop, List.length_cons] at hlen₂
  have huse₁ := hr₁.inUse
  have hcap₁ := hr₁.capacity
  rw [List.length_drop] at huse₁
  rw [hl₂] at hs₁ hr₁
  refine hs₁.achieves_pop.bind ?_
  rintro tail m₂ ⟨htail, hs₂, hr₂⟩
  rw [htail]
  have huse₂ := hr₂.inUse
  have hcap₂ := hr₂.capacity
  rw [List.length_cons] at huse₂
  obtain ⟨k, hk⟩ := hs₂.allocator
  have hmade := achieves_onHeap (m := m₂) (Q := fun v m' => m' = { m₂ with heap := m'.heap } ∧
      ∃ ks, m₂.heap.Fronts a w v ks m'.heap)
    ((hk.achieves_prepend a w (by omega)).mono fun v h hks => ⟨rfl, hks⟩)
  refine hmade.bind ?_
  rintro p m₃ ⟨hm₃, ks, hks⟩
  obtain ⟨hs₃, hmove₃⟩ := hs₂.survives hks.reworks
  rw [← hm₃] at hs₃ hmove₃
  have huse₃ := hks.inUse
  have hcap₃ := hks.reworks.capacity
  refine (hs₃.achieves_push (by omega) p).mono ?_
  rintro - m₄ ⟨j, hs₄, hr₄⟩
  have huse₄ := hr₄.inUse
  rw [List.length_cons] at huse₄
  have hnew : ∀ k ∈ ks, k ≠ t ∧ k ∉ l₂ := fun k hk =>
    ⟨fun h => hks.fresh k hk (h ▸ hs₂.live), fun h =>
      hks.fresh k hk (live_of_isPair (hs₂.pairs.2 k h))⟩
  obtain ⟨hseg, hval⟩ := hks.segment.reworks (hr₄.moves hs₄.allocator).reworks fun k hk h =>
    h.elim (hnew k hk).1 (hnew k hk).2
  refine ⟨p, ks, j :: l₂, hs₄, ?_, hseg, hval.trans hks.values, fun k hk =>
    ⟨(hnew k hk).1, fun h => ?_⟩, by omega⟩
  · exact (hr₁.moves hs₁.allocator).trans ((hr₂.moves hs₂.allocator).trans
      (hmove₃.trans (hr₄.moves hs₄.allocator)))
  · refine (hr₄.fresh k h).elim (hnew k hk).2 fun hdead => hdead ?_
    exact live_of_isPair (hks.segment.isPair k hk)

theorem achieves_splitList (hs : Holds t l (v :: b) m) (hv : m.heap.Segment v ks w)
    (hks : ∀ k ∈ ks, k ≠ t ∧ k ∉ l) (hroom : m.heap.inUse + ks.length ≤ m.heap.capacity) :
    Achieves (splitList ks.length) m fun _ m' => ∃ l',
      Holds t l' (ks.map (fun k => (m.heap.cellAt k).x) ++ w :: b) m' ∧ Moves t l l' m m' := by
  have hlen := hs.length_eq
  cases l with
  | nil => cases hlen
  | cons i l =>
    unfold splitList
    dsimp only
    rw [if_neg (by omega)]
    refine hs.achieves_pop.bind ?_
    rintro list m₁ ⟨hlist, hs₁, hr₁⟩
    rw [hlist]
    have hmove₁ := hr₁.moves hs₁.allocator
    obtain ⟨hv₁, hval₁⟩ := hv.reworks hmove₁.reworks fun k hk h => h.elim (hks k hk).1 (hks k hk).2
    have huse₁ := hr₁.inUse
    have hcap₁ := hr₁.capacity
    rw [List.length_cons] at huse₁
    have hask : ask (·.splitItems (ks.length : Int).toNat v) m₁ =
        .ok (ks.map fun k => (m.heap.cellAt k).x, w) m₁ :=
      ask_eq_ok.2 ⟨rfl, by rw [Int.toNat_natCast, hv₁.splitItems, hval₁]⟩
    rw [achieves_bind hask]
    refine (hs₁.achieves_push (by omega) w).bind ?_
    rintro - m₂ ⟨j, hs₂, hr₂⟩
    have huse₂ := hr₂.inUse
    have hcap₂ := hr₂.capacity
    rw [List.length_cons] at huse₂
    unfold pushAll
    refine (hs₂.achieves_forM_push _ ?_).mono ?_
    · rw [List.length_reverse, List.length_map]
      omega
    · rintro - m₃ ⟨l', hs₃, hr₃, -⟩
      rw [List.reverse_reverse] at hs₃
      exact ⟨l', hs₃, hmove₁.trans ((hr₂.moves hs₂.allocator).trans (hr₃.moves hs₃.allocator))⟩

theorem part_pair (hs : Holds t l s m) (hd : s.length ≤ m.heap.sanity) (hn : n < s.length)
    (hroom : m.heap.inUse + n ≤ m.heap.capacity) (next next' : Word) :
    Achieves (do
      let _ ← perform (.pair n) next
      perform (.part n) next') m fun flow m' => flow = .next next' ∧ ∃ l', Holds t l' s m' := by
  obtain ⟨a, w, b, rfl, rfl⟩ := exists_append hn
  refine (achieves_flow (hs.achieves_makeList hd)).bind ?_
  rintro - m₁ ⟨-, p, ks, l₁, hs₁, hmove₁, hseg, hval, hks, huse⟩
  have hlen : ks.length = a.length := by rw [← hval, List.length_map]
  rw [← hlen] at hroom ⊢
  refine achieves_flow ((hs₁.achieves_splitList hseg hks ?_).mono ?_)
  · rw [huse, hmove₁.reworks.capacity]
    exact hroom
  · rintro - m₂ ⟨l₂, hs₂, -⟩
    rw [hval] at hs₂
    exact ⟨l₂, hs₂⟩

theorem not_isPair (hs : Holds t l s m) (hcode : m.heap.isCode (m.heap.cellAt t).t = true) :
    m.heap.isPair (.ref t) = false := by
  rw [← Bool.not_eq_true]
  intro hp
  obtain ⟨j, hj, -, ht⟩ := isPair_iff.1 hp
  cases hj
  rw [ht, show m.heap.isCode .pairT = false from hs.pristine.hasType_eq (by decide) (by decide)
    (by decide)] at hcode
  cases hcode

theorem pair_part (hs : Holds t l (v :: b) m) (hcode : m.heap.isCode (m.heap.cellAt t).t = true)
    (hv : m.heap.Segment v ks w) (hks : ∀ k ∈ ks, k ∉ l)
    (hd : (v :: b).length + ks.length ≤ m.heap.sanity)
    (hroom : m.heap.inUse + ks.length ≤ m.heap.capacity) (next next' : Word) :
    Achieves (do
      let _ ← perform (.part ks.length) next
      perform (.pair ks.length) next') m fun flow m' => flow = .next next' ∧
      ∃ p l', Holds t l' (p :: b) m' ∧
        m'.heap.equal p v = .ok true ∧ m'.heap.unfolding p = m'.heap.unfolding v ∧
        m'.heap.nth p (-ks.length) = m.heap.nth v (-ks.length) ∧
        ∀ i, m.heap.Live i → i ≠ t → i ∉ l → m'.heap.cellAt i = m.heap.cellAt i := by
  have hloose : ∀ k ∈ ks, k ≠ t ∧ k ∉ l := fun k hk => by
    refine ⟨fun h => ?_, hks k hk⟩
    have hp := hv.isPair k hk
    rw [h, hs.not_isPair hcode] at hp
    cases hp
  refine (achieves_flow (hs.achieves_splitList hv hloose hroom)).bind ?_
  rintro - m₁ ⟨-, l₁, hs₁, hmove₁⟩
  have hlen : (ks.map fun k => (m.heap.cellAt k).x).length = ks.length := List.length_map ..
  have hd₁ : (ks.map (fun k => (m.heap.cellAt k).x) ++ w :: b).length ≤ m₁.heap.sanity := by
    rw [hmove₁.reworks.sanity, List.length_append, hlen]
    rw [List.length_cons] at hd ⊢
    omega
  have hmade := hs₁.achieves_makeList hd₁
  rw [hlen] at hmade
  refine achieves_flow (hmade.mono ?_)
  rintro - m₂ ⟨p, js, l₂, hs₂, hmove₂, hseg, hval, -⟩
  have hmove := hmove₁.trans hmove₂
  obtain ⟨hv₂, hval₂⟩ := hv.reworks hmove.reworks fun k hk h =>
    h.elim (hloose k hk).1 (hloose k hk).2
  have hsanity : ks.length ≤ m₂.heap.sanity := by
    rw [hmove.reworks.sanity]
    omega
  have hequal := hv₂.equal hseg (hval.trans hval₂.symm) hsanity
  have hjs : js.length = ks.length := by rw [← hlen, ← hval, List.length_map]
  refine ⟨p, l₂, hs₂, hequal, unfolding_eq_iff.2 ((equal_ok hequal).1 rfl), ?_, fun i hi ht hl =>
    hmove.same hi ht hl⟩
  rw [hv.nth_rest, ← hjs, hseg.nth_rest]

theorem nth_pair (hs : Holds t l s m) (hd : s.length ≤ m.heap.sanity) (hn : n < s.length)
    (next : Word) :
    Achieves (perform (.pair n) next) m fun flow m' => flow = .next next ∧ ∃ p l',
      Holds t l' (p :: s.drop (n + 1)) m' ∧ (∀ k : Nat, 1 ≤ k → k ≤ n →
        s[k - 1]? = some (m'.heap.nth p k)) ∧
      s[n]? = some (m'.heap.nth p (-n)) := by
  obtain ⟨a, w, b, rfl, rfl⟩ := exists_append hn
  refine achieves_flow ((hs.achieves_makeList hd).mono ?_)
  rintro - m₁ ⟨p, ks, l₁, hs₁, -, hseg, hval, -⟩
  have hlen : ks.length = a.length := by rw [← hval, List.length_map]
  refine ⟨p, l₁, by simpa using hs₁, fun k hk hle => ?_, ?_⟩
  · rw [List.getElem?_append_left (by omega), ← hseg.nth_item hk (hlen ▸ hle), hval]
  · rw [← hlen, hseg.nth_rest, hlen, List.getElem?_append_right (Nat.le_refl _), Nat.sub_self,
      List.getElem?_cons_zero]

/-- Making lists and taking them apart undo each other, and agree with indexing. -/
theorem list_round_trips (hs : Holds t l s m) (hd : s.length ≤ m.heap.sanity) :
    (∀ n < s.length, m.heap.inUse + n ≤ m.heap.capacity → ∀ next next', Achieves (do
      let _ ← Machine.perform (.pair n) next
      Machine.perform (.part n) next') m fun flow m' => flow = .next next' ∧
      ∃ l', Holds t l' s m') ∧
    (∀ v b ks w, s = v :: b → m.heap.isCode (m.heap.cellAt t).t = true → m.heap.Segment v ks w →
      (∀ k ∈ ks, k ∉ l) → s.length + ks.length ≤ m.heap.sanity →
      m.heap.inUse + ks.length ≤ m.heap.capacity → ∀ next next', Achieves (do
        let _ ← Machine.perform (.part ks.length) next
        Machine.perform (.pair ks.length) next') m fun flow m' => flow = .next next' ∧ ∃ p l',
          Holds t l' (p :: b) m' ∧ m'.heap.equal p v = .ok true ∧
          m'.heap.unfolding p = m'.heap.unfolding v ∧
          m'.heap.nth p (-ks.length) = m.heap.nth v (-ks.length) ∧
          ∀ i, m.heap.Live i → i ≠ t → i ∉ l → m'.heap.cellAt i = m.heap.cellAt i) ∧
    (∀ v, ∀ k : Int, 1 ≤ k → m.heap.nth v (k + 1) = m.heap.nth (m.heap.nth v (-k)) 1) ∧
    (∀ n < s.length, ∀ next, Achieves (Machine.perform (.pair n) next) m fun flow m' =>
      flow = .next next ∧ ∃ p l', Holds t l' (p :: s.drop (n + 1)) m' ∧
      (∀ k : Nat, 1 ≤ k → k ≤ n → s[k - 1]? = some (m'.heap.nth p k)) ∧
      s[n]? = some (m'.heap.nth p (-n))) := by
  refine ⟨fun n hn => hs.part_pair hd hn, ?_, fun v k => hs.pristine.nth_succ v, fun n hn =>
    hs.nth_pair hd hn⟩
  rintro v b ks w rfl
  exact hs.pair_part

def laden : Heap :=
  ({ Heap.new 32 with top := 20 } : Heap)
    |>.putCell 13 ⟨.ref 17, .ref 14, .nil, .undefined⟩
    |>.putCell 14 ⟨.pairT, .ref 15, .ref 18, .undefined⟩
    |>.putCell 15 ⟨.pairT, .fix 1, .ref 16, .undefined⟩
    |>.putCell 16 ⟨.pairT, .fix 2, .nil, .undefined⟩
    |>.putCell 17 ⟨.instrT, .fix 26, .truth, .undefined⟩
    |>.putCell 18 ⟨.pairT, .fix 7, .ref 19, .undefined⟩
    |>.putCell 19 ⟨.pairT, .fix 8, .nil, .undefined⟩

theorem freeList_laden : laden.FreeList [] := by
  refine ⟨by decide +kernel, by decide +kernel, by decide +kernel, rfl, fun i =>
    iff_of_false List.not_mem_nil ?_, rfl⟩
  rintro ⟨hp, ht, hf⟩
  have hi : i = 13 ∨ i = 14 ∨ i = 15 ∨ i = 16 ∨ i = 17 ∨ i = 18 ∨ i = 19 := by
    change 13 ≤ i at hp
    change i < 20 at ht
    omega
  obtain rfl | rfl | rfl | rfl | rfl | rfl | rfl := hi <;> revert hf <;> decide +kernel

theorem code_laden : laden.isCode (laden.cellAt 13).t = true := by decide +kernel

theorem room_laden : laden.inUse + 2 ≤ laden.capacity := by decide +kernel

theorem segment_laden : laden.Segment (.ref 15) [15, 16] .nil :=
  ⟨rfl, by decide +kernel, by decide +kernel, by decide +kernel,
    (by decide +kernel : (laden.cellAt 16).y = .nil)⟩

theorem holds_laden {sanity : Nat} (hm : m.heap = laden.withSanity sanity)
    (ht : m.threads.head = .ref 13) :
    Holds 13 [14, 18, 19] [.ref 15, .fix 7, .fix 8] m := by
  have hf := freeList_laden
  have hpristine : laden.Pristine := by
    unfold Pristine
    decide +kernel
  have hlive : laden.Live 13 := by
    unfold Live
    decide +kernel
  have hpairs : laden.Pairs (laden.cellAt 13).x [14, 18, 19] := by
    unfold Pairs
    decide +kernel
  have hloose : ∀ i ∈ [14, 18, 19], laden.permanent ≤ i := by decide +kernel
  have hvalues : [14, 18, 19].map (fun i => (laden.cellAt i).x) = [.ref 15, .fix 7, .fix 8] := by
    decide +kernel
  refine ⟨⟨[], ?_⟩, ?_, ht, ?_, ?_, by decide, ?_, ?_⟩ <;> rw [hm]
  · exact ⟨hf.1, hf.2, hf.3, hf.4, hf.5, hf.6⟩
  · exact hpristine
  · exact hlive
  · exact hpairs
  · exact hloose
  · exact hvalues

theorem exists_laden (sanity : Nat) : ∃ m :
    Machine, m.heap = laden.withSanity sanity ∧ m.threads.head = .ref 13 := by
  obtain ⟨m, -⟩ : ∃ m, Machine.new { heapCapacity := 80 } = .ok m := ⟨_, rfl⟩
  exact ⟨{ m with heap := laden.withSanity sanity, threads := ⟨.ref 13, .ref 13⟩ }, rfl, rfl⟩

theorem list_round_trips_laden : ∃ m, Holds 13 [14, 18, 19] [.ref 15, .fix 7, .fix 8] m ∧
    (∀ next next', Achieves (do
      let _ ← Machine.perform (.pair 2) next
      Machine.perform (.part 2) next') m fun flow m' =>
        flow = .next next' ∧ ∃ l', Holds 13 l' [.ref 15, .fix 7, .fix 8] m') ∧
    (∀ next next', Achieves (do
      let _ ← Machine.perform (.part 2) next
      Machine.perform (.pair 2) next') m fun flow m' => flow = .next next' ∧
        ∃ p l', Holds 13 l' [p, .fix 7, .fix 8] m' ∧ m'.heap.equal p (.ref 15) = .ok true ∧
          m'.heap.nth p (-2) = .nil) ∧
    m.heap.nth (.ref 15) 2 = m.heap.nth (m.heap.nth (.ref 15) (-1)) 1 := by
  obtain ⟨m, hm, ht⟩ := exists_laden 80
  have hs := holds_laden hm ht
  have hrest : laden.nth (.ref 15) (-2) = .nil := by decide +kernel
  have hsanity : 5 ≤ m.heap.sanity := by
    rw [hm]
    decide
  obtain ⟨hpair, hpart, hnth, -⟩ := hs.list_round_trips (Nat.le_trans (by decide) hsanity)
  refine ⟨m, hs, hpair 2 (by decide) (by rw [hm]; exact room_laden), fun next next' => ?_,
    hnth (.ref 15) 1 (by decide)⟩
  refine (hpart (.ref 15) [.fix 7, .fix 8] [15, 16] .nil rfl (by rw [hm]; exact code_laden)
    (by rw [hm]; exact segment_laden) (by decide) hsanity
    (by rw [hm]; exact room_laden) next next').mono ?_
  rintro _ m' ⟨rfl, p, l', hs', hequal, -, htail, -⟩
  refine ⟨rfl, p, l', hs', hequal, htail.trans ?_⟩
  rw [hm]
  exact hrest

theorem makeList_runaway (hs : Holds t l s m) (hd : m.heap.sanity < s.length) (n : Nat)
    (next : Word) :
    perform (.pair n) next m = .error (.runaway "list_len") m := by
  have hdepth : depth m = .error (.runaway "list_len") m := by
    unfold depth
    rw [run_bind hs.stack_eq]
    refine ask_error ?_
    rw [listLength, hs.pairs.spine_eq hs.pristine.not_isPair_nil,
      if_neg (Nat.not_le.2 (hs.length_eq ▸ hd))]
    rfl
  refine run_bind_error (run_bind_error ?_)
  unfold stackCount
  dsimp only
  rw [if_neg (by omega)]
  exact run_bind_error hdepth

theorem part_exhausts : ∃ m, Holds 13 [14, 18, 19] [.ref 15, .fix 7, .fix 8] m ∧
    [Word.ref 15, .fix 7, .fix 8].length ≤ m.heap.sanity ∧
    m.heap.isCode (m.heap.cellAt 13).t = true ∧
    m.heap.Segment (.ref 15) [15, 16] .nil ∧ (∀ k ∈ [15, 16], k ∉ [14, 18, 19]) ∧
    m.heap.inUse + 2 ≤ m.heap.capacity ∧ ∀ next next', ∃ m', (do
      let _ ← Machine.perform (.part 2) next
      Machine.perform (.pair 2) next') m = .error (.runaway "list_len") m' := by
  -- The items of a list may make the stack too long to be counted, although it was short before.
  obtain ⟨m, hm, ht⟩ := exists_laden 4
  have hs := holds_laden hm ht
  have hsanity : m.heap.sanity = 4 := by
    rw [hm]
    rfl
  have hroom : m.heap.inUse + 2 ≤ m.heap.capacity := by
    rw [hm]
    exact room_laden
  have hcode : m.heap.isCode (m.heap.cellAt 13).t = true := by
    rw [hm]
    exact code_laden
  have hseg : m.heap.Segment (.ref 15) [15, 16] .nil := by
    rw [hm]
    exact segment_laden
  refine ⟨m, hs, ?_, hcode, hseg, by decide, hroom, fun next next' => ?_⟩
  · rw [hsanity]
    decide
  · obtain ⟨_, m₁, hrun, -, l₁, hs₁, hmove⟩ : Achieves (Machine.perform (.part 2) next) m _ :=
      achieves_flow (hs.achieves_splitList hseg (by decide) hroom)
    refine ⟨m₁, (run_bind hrun).trans (hs₁.makeList_runaway ?_ 2 next')⟩
    rw [hmove.reworks.sanity, hsanity]
    exact Nat.lt_succ_self 4

end Holds

end ActorMachine
