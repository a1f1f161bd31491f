import ActorMachine.Proofs.Footprint
import ActorMachine.Symbol

namespace ActorMachine.Heap

variable {h h' : Heap} {v w x y : Word} {i n : Nat} {task : String}

/-- The same way into two words leads to different ends. -/
inductive Differs (h : Heap) : Word → Word → Prop
  | here {x y : Word} : x ≠ y → (h.isPair x && h.isPair y) = false → Differs h x y
  | car {x y : Word} : h.isPair x = true → h.isPair y = true → Differs h (h.car x) (h.car y) →
    Differs h x y
  | cdr {x y : Word} : h.isPair x = true → h.isPair y = true → Differs h (h.cdr x) (h.cdr y) →
    Differs h x y

theorem Differs.ne (hd : h.Differs x y) : x ≠ y := by
  induction hd with
  | here hne => exact hne
  | car _ _ _ ih => exact fun e => ih (congrArg h.car e)
  | cdr _ _ _ ih => exact fun e => ih (congrArg h.cdr e)

theorem not_differs_self (x : Word) : ¬ h.Differs x x := fun hd => hd.ne rfl

theorem alike_cases (hd : ¬ h.Differs x y) : x = y ∨ h.isPair x = true ∧ h.isPair y = true ∧
    ¬ h.Differs (h.car x) (h.car y) ∧ ¬ h.Differs (h.cdr x) (h.cdr y) := by
  refine Classical.or_iff_not_imp_left.2 fun hne => ?_
  have hpair : (h.isPair x && h.isPair y) = true := by
    cases hp : h.isPair x && h.isPair y with
    | true => rfl
    | false => exact absurd (.here hne hp) hd
  obtain ⟨hx, hy⟩ := (Bool.and_eq_true ..).mp hpair
  exact ⟨hx, hy, fun hc => hd (.car hx hy hc), fun hc => hd (.cdr hx hy hc)⟩

theorem equalAll_same (b : Budget) (x : Word) (rest : List (Word × Word)) :
    h.equalAll b ((x, x) :: rest) = h.equalAll b rest := by
  rw [equalAll, if_pos rfl]

theorem equalAll_pairs (hne : x ≠ y) (hx : h.isPair x = true) (hy : h.isPair y = true) (n : Nat)
    (task : String) (rest : List (Word × Word)) : h.equalAll ⟨n + 1, task⟩ ((x, y) :: rest) =
      h.equalAll ⟨n, task⟩ ((h.car x, h.car y) :: (h.cdr x, h.cdr y) :: rest) := by
  rw [equalAll, if_neg hne, hx, hy]
  rfl

theorem equalAll_apart (hne : x ≠ y) (hp : (h.isPair x && h.isPair y) = false) (b : Budget)
    (rest : List (Word × Word)) : h.equalAll b ((x, y) :: rest) = .ok false := by
  rw [equalAll, if_neg hne, hp]
  rfl

theorem equalAll_ok {b : Budget} {work : List (Word × Word)} {same : Bool}
    (he : h.equalAll b work = .ok same) : same = true ↔ ∀ p ∈ work, ¬ h.Differs p.1 p.2 := by
  fun_induction equalAll h b work with
  | case1 =>
    cases he
    simp
  | case2 b x rest ih =>
    rw [ih he, List.forall_mem_cons]
    exact (and_iff_right (not_differs_self x)).symm
  | case3 => cases he
  | case4 b x y rest hne hp b' hb ih =>
    obtain ⟨hx, hy⟩ := (Bool.and_eq_true ..).mp hp
    rw [ih he]
    simp only [List.forall_mem_cons, ← and_assoc]
    refine and_congr_left fun _ => ⟨fun ⟨hcar, hcdr⟩ hd => ?_, fun hd => ?_⟩
    · cases hd with
      | here _ hn => exact absurd hp (Bool.eq_false_iff.1 hn)
      | car _ _ hd => exact hcar hd
      | cdr _ _ hd => exact hcdr hd
    · exact ⟨fun hc => hd (.car hx hy hc), fun hc => hd (.cdr hx hy hc)⟩
  | case5 b x y rest hne hp =>
    cases he
    refine iff_of_false (by simp) fun hall => ?_
    exact hall (x, y) List.mem_cons_self (.here hne (Bool.eq_false_iff.2 hp))

theorem equal_ok {b : Bool} (he : h.equal x y = .ok b) : b = true ↔ ¬ h.Differs x y := by
  simpa using equalAll_ok he

theorem Differs.symm (hd : h.Differs x y) : h.Differs y x := by
  induction hd with
  | here hne hp => exact .here hne.symm (by rwa [Bool.and_comm])
  | car hx hy _ ih => exact .car hy hx ih
  | cdr hx hy _ ih => exact .cdr hy hx ih

theorem lowByte_of_alike (hd : ¬ h.Differs x y) : x.lowByte = y.lowByte := by
  obtain rfl | ⟨hx, hy, -⟩ := alike_cases hd
  · rfl
  · obtain ⟨i, rfl, -⟩ := isPair_iff.1 hx
    obtain ⟨j, rfl, -⟩ := isPair_iff.1 hy
    rfl

theorem bytes_of_alike (hd : ¬ h.Differs x y) (b : Budget) :
    List.map (fun p => (h.car p).lowByte) <$> h.spine b x =
      List.map (fun p => (h.car p).lowByte) <$> h.spine b y := by
  obtain ⟨n, task⟩ := b
  induction n generalizing x y with
  | zero =>
    obtain rfl | ⟨hx, hy, -⟩ := alike_cases hd
    · rfl
    · rw [spine_runaway hx, spine_runaway hy]
  | succ n ih =>
    obtain rfl | ⟨hx, hy, hcar, hcdr⟩ := alike_cases hd
    · rfl
    · have ih := ih hcdr
      rw [spine_pair hx, spine_pair hy]
      cases hs : h.spine ⟨n, task⟩ (h.cdr x) <;> cases ht : h.spine ⟨n, task⟩ (h.cdr y) <;>
        simp_all [Functor.map, Except.map, lowByte_of_alike hcar]

theorem checksum_of_alike (hd : ¬ h.Differs x y) : h.checksum x = h.checksum y := by
  have hb := congrArg (Except.map Checksum.checksum) (bytes_of_alike hd (h.budget "list_crc"))
  unfold checksum
  cases hs : h.spine (h.budget "list_crc") x <;> cases ht : h.spine (h.budget "list_crc") y <;>
    simp_all [Functor.map, Except.map]

inductive Touches (h : Heap) : Word → Nat → Prop
  | here {i : Nat} : Touches h (.ref i) i
  | car {v : Word} {i : Nat} : h.isPair v = true → Touches h (h.car v) i → Touches h v i
  | cdr {v : Word} {i : Nat} : h.isPair v = true → Touches h (h.cdr v) i → Touches h v i

def Reads (h h' : Heap) (v : Word) : Prop :=
  ∀ i, h.Touches v i → h'.cellAt i = h.cellAt i ∧ (i < h'.top ↔ i < h.top)

namespace Reads

section Reads

variable (hr : h.Reads h' v)

include hr

theorem isPair : h'.isPair v = h.isPair v := by
  cases v with
  | fixnum | cap => rfl
  | ref i =>
    obtain ⟨hc, ht⟩ := hr i .here
    rw [Bool.eq_iff_iff, isPair_iff, isPair_iff]
    simp only [Word.ref.injEq, exists_eq_left', hc, ht]

theorem car_eq : h'.car v = h.car v := by
  unfold Heap.car
  rw [hr.isPair]
  split
  · next hp =>
    obtain ⟨i, rfl, -⟩ := isPair_iff.1 hp
    exact congrArg Cell.x (hr i .here).1
  · rfl

theorem cdr_eq : h'.cdr v = h.cdr v := by
  unfold Heap.cdr
  rw [hr.isPair]
  split
  · next hp =>
    obtain ⟨i, rfl, -⟩ := isPair_iff.1 hp
    exact congrArg Cell.y (hr i .here).1
  · rfl

theorem car (hp : h.isPair v = true) : h.Reads h' (h.car v) := fun i hi => hr i (.car hp hi)

theorem cdr (hp : h.isPair v = true) : h.Reads h' (h.cdr v) := fun i hi => hr i (.cdr hp hi)

theorem touches (ht : h'.Touches v i) : h.Touches v i := by
  induction ht with
  | here => exact .here
  | car hp _ ih =>
    rw [hr.isPair] at hp
    rw [hr.car_eq] at ih
    exact .car hp (ih (hr.car hp))
  | cdr hp _ ih =>
    rw [hr.isPair] at hp
    rw [hr.cdr_eq] at ih
    exact .cdr hp (ih (hr.cdr hp))

theorem symm : h'.Reads h v := fun i hi =>
  have hi := hr i (hr.touches hi)
  ⟨hi.1.symm, hi.2.symm⟩

end Reads

theorem differs_of (hx : h.Reads h' x) (hy : h.Reads h' y) (hd : h.Differs x y) :
    h'.Differs x y := by
  induction hd with
  | here hne hp => exact .here hne (by rwa [hx.isPair, hy.isPair])
  | car hpx hpy _ ih =>
    refine .car (hx.isPair.trans hpx) (hy.isPair.trans hpy) ?_
    rw [hx.car_eq, hy.car_eq]
    exact ih (hx.car hpx) (hy.car hpy)
  | cdr hpx hpy _ ih =>
    refine .cdr (hx.isPair.trans hpx) (hy.isPair.trans hpy) ?_
    rw [hx.cdr_eq, hy.cdr_eq]
    exact ih (hx.cdr hpx) (hy.cdr hpy)

theorem differs (hx : h.Reads h' x) (hy : h.Reads h' y) : h'.Differs x y ↔ h.Differs x y :=
  ⟨hx.symm.differs_of hy.symm, hx.differs_of hy⟩

theorem bytes (hr : h.Reads h' v) (b : Budget) :
    List.map (fun p => (h'.car p).lowByte) <$> h'.spine b v =
      List.map (fun p => (h.car p).lowByte) <$> h.spine b v := by
  obtain ⟨n, task⟩ := b
  induction n generalizing v with
  | zero =>
    cases hp : h.isPair v with
    | false => rw [spine_end hp, spine_end (hr.isPair.trans hp)]; rfl
    | true => rw [spine_runaway hp, spine_runaway (hr.isPair.trans hp)]; rfl
  | succ n ih =>
    cases hp : h.isPair v with
    | false => rw [spine_end hp, spine_end (hr.isPair.trans hp)]; rfl
    | true =>
      have ih := ih (hr.cdr hp)
      rw [spine_pair hp, spine_pair (hr.isPair.trans hp), hr.cdr_eq]
      cases hs : h.spine ⟨n, task⟩ (h.cdr v) <;> cases ht : h'.spine ⟨n, task⟩ (h.cdr v) <;>
        simp_all [Functor.map, Except.map, hr.car_eq]

theorem checksum (hr : h.Reads h' v) (hs : h'.sanity = h.sanity) :
    h'.checksum v = h.checksum v := by
  have hb := congrArg (Except.map Checksum.checksum) (hr.bytes (h.budget "list_crc"))
  have hbudget : h'.budget "list_crc" = h.budget "list_crc" := by rw [Heap.budget, hs, Heap.budget]
  unfold Heap.checksum
  rw [hbudget]
  cases hs : h.spine (h.budget "list_crc") v <;> cases ht : h'.spine (h.budget "list_crc") v <;>
    simp_all [Functor.map, Except.map]

end Reads

theorem not_isPair_of_isFixnum (hv : v.isFixnum = true) : h.isPair v = false := by
  cases v with
  | fixnum => rfl
  | ref | cap => cases hv

section Flat

variable {s t : List Word} (hnil : h.isPair .nil = false)

include hnil

theorem Lists.differs_iff (hx : h.Lists x s) (hy : h.Lists y t) (hs : ∀ v ∈ s, v.isFixnum = true) :
    h.Differs x y ↔ s ≠ t := by
  constructor
  · rintro hd rfl
    obtain ⟨k, hk, rfl⟩ := hx
    obtain ⟨l, hl, hv⟩ := hy
    induction k generalizing x y l with
    | nil =>
      cases List.map_eq_nil_iff.1 hv
      obtain ⟨rfl, -⟩ := hk
      obtain ⟨rfl, -⟩ := hl
      exact hd.ne rfl
    | cons i k ih =>
      cases l with
      | nil => cases hv
      | cons j l =>
        obtain ⟨rfl, hcdr, hk'⟩ := hk.cdr
        obtain ⟨rfl, hcdr', hl'⟩ := hl.cdr
        have hpi := hk.2 i List.mem_cons_self
        have hpj := hl.2 j List.mem_cons_self
        obtain ⟨hx, hv⟩ := List.cons.inj hv
        cases hd with
        | here _ hp => simp [hpi, hpj] at hp
        | car _ _ hd =>
          rw [Heap.car_eq hpi, Heap.car_eq hpj] at hd
          exact hd.ne hx.symm
        | cdr _ _ hd =>
          rw [hcdr, hcdr'] at hd
          exact ih hd hk' (fun v hv => hs v (List.mem_cons_of_mem _ hv)) l hl' hv
  · intro hne
    obtain ⟨k, hk, rfl⟩ := hx
    obtain ⟨l, hl, rfl⟩ := hy
    induction k generalizing x y l with
    | nil =>
      obtain ⟨rfl, -⟩ := hk
      cases l with
      | nil => exact absurd rfl hne
      | cons j l => exact .here (fun e => hl.1.ne_nil e.symm) (by rw [hnil]; rfl)
    | cons i k ih =>
      obtain ⟨rfl, hcdr, hk'⟩ := hk.cdr
      have hpi := hk.2 i List.mem_cons_self
      cases l with
      | nil =>
        obtain ⟨rfl, -⟩ := hl
        exact .here hk.1.ne_nil (by rw [hnil, Bool.and_false])
      | cons j l =>
        obtain ⟨rfl, hcdr', hl'⟩ := hl.cdr
        have hpj := hl.2 j List.mem_cons_self
        by_cases hv : (h.cellAt i).x = (h.cellAt j).x
        · refine .cdr hpi hpj ?_
          rw [hcdr, hcdr']
          refine ih hk' (fun v hv => hs v (List.mem_cons_of_mem _ hv)) l hl' fun e => hne ?_
          rw [List.map_cons, List.map_cons, hv, e]
        · refine .car hpi hpj ?_
          rw [Heap.car_eq hpi, Heap.car_eq hpj]
          exact .here hv (by rw [not_isPair_of_isFixnum (hs _ List.mem_cons_self)]; rfl)

theorem Lists.equal_isOk (hx : h.Lists x s) (hy : h.Lists y t) (hs : ∀ v ∈ s, v.isFixnum = true)
    (hlen : s.length ≤ h.sanity) : ∃ b, h.equal x y = .ok b := by
  unfold equal budget
  generalize h.sanity = n at hlen
  obtain ⟨k, hk, rfl⟩ := hx
  obtain ⟨l, hl, rfl⟩ := hy
  have hsame : ∀ b x, h.equalAll b [(x, x)] = .ok true := fun b x => by
    rw [equalAll_same, equalAll]
  induction k generalizing x y l n with
  | nil =>
    obtain ⟨rfl, -⟩ := hk
    by_cases hne : Word.nil = y
    · exact ⟨true, hne ▸ hsame _ _⟩
    · exact ⟨false, equalAll_apart hne (by rw [hnil, Bool.false_and]) _ _⟩
  | cons i k ih =>
    obtain ⟨rfl, hcdr, hk'⟩ := hk.cdr
    have hpi := hk.2 i List.mem_cons_self
    by_cases hne : Word.ref i = y
    · exact ⟨true, hne ▸ hsame _ _⟩
    · cases l with
      | nil =>
        obtain ⟨rfl, -⟩ := hl
        exact ⟨false, equalAll_apart hne (by rw [hnil, Bool.and_false]) _ _⟩
      | cons j l =>
        obtain ⟨rfl, hcdr', hl'⟩ := hl.cdr
        have hpj := hl.2 j List.mem_cons_self
        cases n with
        | zero => simp at hlen
        | succ n =>
          have hlen' : (k.map fun i => (h.cellAt i).x).length ≤ n := by simpa using hlen
          rw [equalAll_pairs hne hpi hpj, Heap.car_eq hpi, Heap.car_eq hpj, hcdr, hcdr']
          by_cases hcar : (h.cellAt i).x = (h.cellAt j).x
          · rw [hcar, equalAll_same]
            exact ih n hk' (fun v hv => hs v (List.mem_cons_of_mem _ hv)) hlen' l hl'
          · refine ⟨false, equalAll_apart hcar ?_ _ _⟩
            rw [not_isPair_of_isFixnum (hs _ List.mem_cons_self), Bool.false_and]

end Flat

end ActorMachine.Heap
