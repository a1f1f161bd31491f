import ActorMachine.Collector.MarkSweep
import ActorMachine.Proofs.FreeList
import ActorMachine.Proofs.Reach
import Mathlib.Data.Set.Card
import Mathlib.Order.Interval.Set.Nat

namespace ActorMachine.MarkSweep

open Heap

variable {h : Heap} {marks : Array Bool} {work : List Word}
variable {i : Nat} {l : List Nat} {h' : Heap}

def Marked (marks : Array Bool) (i : Nat) : Prop := marks.getD i false = true

theorem mem_fields {c : Cell} {w : Word} :
    w ∈ c.y :: c.z :: c.x :: c.t :: work ↔ w ∈ c.words ∨ w ∈ work := by
  simp only [Cell.words, List.mem_cons, List.not_mem_nil, or_false]
  tauto

theorem marked_set {j : Nat} (hi : i < marks.size) :
    Marked (marks.set i true) j ↔ j = i ∨ Marked marks j := by
  simp only [Marked, Array.getD_eq_getD_getElem?, Array.getElem?_set]
  by_cases hj : i = j
  · simp [hj]
  · simp [hj, Ne.symm hj]

theorem Marked.mark (hm : Marked marks i) : Marked (mark h marks work) i := by
  fun_induction MarkSweep.mark h marks work with
  | case1 => exact hm
  | case2 marks v work hv ih => exact ih hm
  | case3 marks v work i hv hi hf c ih => exact ih ((marked_set hi).2 (.inr hm))
  | case4 marks v work i hv hi hf ih => exact ih hm
  | case5 marks v work i hv hi ih => exact ih hm

theorem mark_sound {P : Nat → Prop} (hwork : ∀ w ∈ work, ∀ i, h.Leads w i → P i)
    (hfield : ∀ i, P i → ∀ w ∈ (h.cellAt i).words, ∀ j, h.Leads w j → P j)
    (hm : Marked (mark h marks work) i) : Marked marks i ∨ P i := by
  fun_induction MarkSweep.mark h marks work with
  | case1 => exact .inl hm
  | case2 marks v work hv ih => exact ih (fun w hw => hwork w (List.mem_cons_of_mem v hw)) hm
  | case3 marks v work j hv hj hf c ih =>
    have hp : P j := hwork v List.mem_cons_self j (collectable?_eq_some_iff.1 hv)
    have hc : ∀ w ∈ c.y :: c.z :: c.x :: c.t :: work, ∀ i, h.Leads w i → P i := by
      intro w hw k hk
      cases mem_fields.1 hw with
      | inl hw => exact hfield j hp w hw k hk
      | inr hw => exact hwork w (List.mem_cons_of_mem v hw) k hk
    obtain hm | hm := ih hc hm
    · rw [marked_set hj] at hm
      obtain rfl | hm := hm
      · exact .inr hp
      · exact .inl hm
    · exact .inr hm
  | case4 marks v work j hv hj hf ih =>
    exact ih (fun w hw => hwork w (List.mem_cons_of_mem v hw)) hm
  | case5 marks v work j hv hj ih => exact ih (fun w hw => hwork w (List.mem_cons_of_mem v hw)) hm

def Pending (h : Heap) (marks : Array Bool) (work : List Word) : Prop :=
  ∀ i, Word.reserved ≤ i → Marked marks i → ∀ w ∈ (h.cellAt i).words, ∀ j, h.Leads w j →
    Marked marks j ∨ w ∈ work

theorem Pending.tail {v : Word} (hp : Pending h marks (v :: work))
    (hv : ∀ j, h.Leads v j → Marked marks j) : Pending h marks work := by
  intro i hi hm w hw j hj
  obtain hm | hm := hp i hi hm w hw j hj
  · exact .inl hm
  · cases hm with
    | head => exact .inl (hv j hj)
    | tail _ hm => exact .inr hm

theorem mark_complete (ht : h.top ≤ marks.size) (hp : Pending h marks work) :
    Pending h (mark h marks work) [] ∧
      ∀ w ∈ work, ∀ i, h.Leads w i → Marked (mark h marks work) i := by
  fun_induction MarkSweep.mark h marks work with
  | case1 => exact ⟨hp, by simp⟩
  | case2 marks v work hv ih =>
    have hn : ∀ j, ¬h.Leads v j := by
      intro j hj
      rw [← collectable?_eq_some_iff, hv] at hj
      cases hj
    obtain ⟨hq, hw⟩ := ih ht (hp.tail fun j hj => absurd hj (hn j))
    refine ⟨hq, ?_⟩
    intro w hm i hi
    cases hm with
    | head => exact absurd hi (hn i)
    | tail _ hm => exact hw w hm i hi
  | case3 marks v work k hv hk hf c ih =>
    rw [collectable?_eq_some_iff] at hv
    have hmark : ∀ j, Marked (marks.set k true) j ↔ j = k ∨ Marked marks j := fun j => marked_set hk
    have hp' : Pending h (marks.set k true) (c.y :: c.z :: c.x :: c.t :: work) := by
      intro i hi hm w hw j hj
      rw [hmark] at hm ⊢
      obtain rfl | hm := hm
      · exact .inr (mem_fields.2 (.inl hw))
      · obtain hm | hm := hp i hi hm w hw j hj
        · exact .inl (.inr hm)
        · cases hm with
          | head => exact .inl (.inl (hj.unique hv))
          | tail _ hm => exact .inr (mem_fields.2 (.inr hm))
    obtain ⟨hq, hw⟩ := ih (by simpa using ht) hp'
    refine ⟨hq, ?_⟩
    intro w hm i hi
    cases hm with
    | head =>
      cases hi.unique hv
      exact Marked.mark ((hmark _).2 (.inl rfl))
    | tail _ hm => exact hw w (mem_fields.2 (.inr hm)) i hi
  | case4 marks v work k hv hk hf ih =>
    rw [collectable?_eq_some_iff] at hv
    have hm : Marked marks k := by
      simpa [Marked, Array.getD_eq_getD_getElem?, hk] using hf
    obtain ⟨hq, hw⟩ := ih ht (hp.tail fun j hj => hj.unique hv ▸ hm)
    refine ⟨hq, ?_⟩
    intro w hm' i hi
    cases hm' with
    | head => exact Marked.mark (hi.unique hv ▸ hm)
    | tail _ hm' => exact hw w hm' i hi
  | case5 marks v work k hv hk ih =>
    rw [collectable?_eq_some_iff] at hv
    have := hv.2.2.1
    omega

theorem size_clear (gc : MarkSweep) (h : Heap) : h.capacity ≤ (gc.clear h).size := by
  simp only [clear, Array.size_map, Array.size_range]
  split
  · unfold markCount
    omega
  · omega

theorem marked_clear (gc : MarkSweep) (hc : Word.reserved ≤ h.capacity) :
    Marked (gc.clear h) i ↔ i < Word.reserved := by
  have hs := gc.size_clear h
  simp only [clear, Array.size_map, Array.size_range] at hs
  simp only [Marked, clear, Array.getD_eq_getD_getElem?, Array.getElem?_map, Array.getElem?_range]
  generalize (if gc.marks.size < h.capacity then markCount h.capacity else gc.marks.size) =
    n at hs ⊢
  by_cases hi : i < n
  · simp [hi]
  · simp only [hi, if_false, Option.map_none, Option.getD_none, Bool.false_eq_true, false_iff]
    omega

theorem mem_sources {roots : Roots} {w : Word} : w ∈ sources roots h ↔
    w ∈ roots.words ∨ ∃ i, Word.reserved ≤ i ∧ i < h.permanent ∧ w = .ref i := by
  simp only [sources, Roots.words, List.mem_append, List.mem_map, List.mem_range'_1]
  refine or_congr_right ?_
  constructor
  · rintro ⟨i, hi, rfl⟩
    exact ⟨i, hi.1, by omega, rfl⟩
  · rintro ⟨i, h1, h2, rfl⟩
    exact ⟨i, ⟨h1, by omega⟩, rfl⟩

theorem marked_iff_reach (gc : MarkSweep) (roots : Roots) (hr : Word.reserved ≤ h.permanent)
    (hp : h.permanent ≤ h.top) (ht : h.top ≤ h.capacity) :
    Marked (mark h (gc.clear h) (sources roots h)) i ↔ i < Word.reserved ∨ h.Reach roots i := by
  have hclear : ∀ j, Marked (gc.clear h) j ↔ j < Word.reserved :=
    fun j => marked_clear gc (by omega)
  constructor
  · intro hm
    rw [← hclear]
    refine mark_sound ?_ (fun j hj w hw k hk => .field hj hw hk) hm
    intro w hw j hj
    obtain hw | ⟨k, h1, h2, rfl⟩ := mem_sources.1 hw
    · exact .root hw hj
    · obtain ⟨e | e, -, -, hu⟩ := hj
      · cases e
        exact .permanent h1 h2 hu
      · cases e
  · have hpend : Pending h (gc.clear h) (sources roots h) := by
      intro j hj hm
      rw [hclear] at hm
      omega
    obtain ⟨hclosed, hwork⟩ := mark_complete (Nat.le_trans ht (gc.size_clear h)) hpend
    rintro (hi | hreach)
    · exact Marked.mark ((hclear i).2 hi)
    · induction hreach with
      | root hw hl => exact hwork _ (mem_sources.2 (.inl hw)) _ hl
      | permanent h1 h2 h3 =>
        exact hwork _ (mem_sources.2 (.inr ⟨_, h1, h2, rfl⟩)) _ ⟨.inl rfl, h1, by omega, h3⟩
      | field hr hw hl ih =>
        have hj := hclosed _ (hr.inUse hp).1 ih _ hw _ hl
        exact hj.resolve_right List.not_mem_nil

def sweep (dead : List Nat) (h : Heap) : Heap := dead.foldr (fun i h => h.reclaim i) h

/-- What sweeping leaves: a free list that begins with the dead cells, and all others as they
were. -/
structure Swept (dead : List Nat) (h h' : Heap) : Prop where
  chain : ∀ l, h.Chain .z h.freeHead l → (∀ i ∈ l, i ∉ dead) → h'.Chain .z h'.freeHead (dead ++ l)
  count : h'.freeCount = dead.length + h.freeCount
  freed : ∀ i ∈ dead, (h'.cellAt i).t = .freeT
  kept : ∀ i, i ∉ dead → h'.cellAt i = h.cellAt i
  top : h'.top = h.top
  permanent : h'.permanent = h.permanent
  capacity : h'.capacity = h.capacity

theorem swept {dead : List Nat} (hd : dead.Nodup)
    (hb : ∀ i ∈ dead, Word.reserved ≤ i ∧ i < h.capacity) : Swept dead h (sweep dead h) := by
  induction dead with
  | nil => exact ⟨fun l hl _ => hl, by simp [sweep], by simp, fun _ _ => rfl, rfl, rfl, rfl⟩
  | cons i dead ih =>
    obtain ⟨hi, hd⟩ := List.nodup_cons.1 hd
    have ih := ih hd fun j hj => hb j (List.mem_cons_of_mem i hj)
    have hbi := hb i List.mem_cons_self
    have hcell : ∀ j, (sweep (i :: dead) h).cellAt j = if j = i then
        ⟨.freeT, .undefined, .undefined, (sweep dead h).freeHead⟩ else (sweep dead h).cellAt j :=
      cellAt_reclaim (sweep dead h) (by rw [ih.capacity]; exact hbi.2)
    refine ⟨?_, ?_, ?_, ?_, ih.top, ih.permanent, ?_⟩
    · intro l hl hn
      refine ⟨rfl, hbi.1, ?_⟩
      rw [hcell, if_pos rfl]
      refine (ih.chain l hl fun j hj => ?_).congr ?_
      · exact fun hm => hn j hj (List.mem_cons_of_mem i hm)
      · intro j hj
        have hji : j ≠ i := by
          rintro rfl
          cases List.mem_append.1 hj with
          | inl hm => exact hi hm
          | inr hm => exact hn j hm List.mem_cons_self
        rw [hcell, if_neg hji]
    · change (sweep dead h).freeCount + 1 = _
      rw [ih.count, List.length_cons]
      omega
    · intro j hj
      rw [hcell]
      split
      · rfl
      · next hji => exact ih.freed j ((List.mem_cons.1 hj).resolve_left hji)
    · intro j hj
      rw [hcell, if_neg (fun (e : j = i) => hj (e ▸ List.mem_cons_self)),
        ih.kept j fun hm => hj (List.mem_cons_of_mem i hm)]
    · rw [← ih.capacity]
      exact capacity_reclaim _ i

theorem colors_sweep (dead : List Nat) (hc : h.colors = none) : (sweep dead h).colors = none := by
  induction dead with
  | nil => exact hc
  | cons i dead ih =>
    change (sweep dead h).colors.map _ = none
    rw [ih, Option.map_none]

theorem sanity_sweep (dead : List Nat) (h : Heap) : (sweep dead h).sanity = h.sanity := by
  induction dead with
  | nil => rfl
  | cons i dead ih => exact ih

structure Agree (l : List Nat) (h h' : Heap) : Prop where
  cellAt : ∀ i, i ∉ l → h'.cellAt i = h.cellAt i
  size : h'.cells.size = h.cells.size
  top : h'.top = h.top
  freeHead : h'.freeHead = h.freeHead
  freeCount : h'.freeCount = h.freeCount
  permanent : h'.permanent = h.permanent
  sanity : h'.sanity = h.sanity
  colors : h.colors = none ∧ h'.colors = none

theorem Agree.reclaim (ha : Agree (i :: l) h h') (hi : i < h.capacity) :
    Agree l (h.reclaim i) (h'.reclaim i) := by
  have hi' : i < h'.capacity := by
    rw [capacity, ha.size]
    exact hi
  refine ⟨?_, by simp [Heap.reclaim, ha.size], ha.top, rfl, ?_, ha.permanent, ha.sanity, ?_⟩
  · intro j hj
    rw [cellAt_reclaim h hi, cellAt_reclaim h' hi', ha.freeHead]
    split
    · rfl
    · next hji => exact ha.cellAt j fun hm => (List.mem_cons.1 hm).elim hji hj
  · rw [freeCount_reclaim, freeCount_reclaim, ha.freeCount]
  · simp [Heap.reclaim, ha.colors]

theorem Agree.eq (ha : Agree [] h h') : h' = h := by
  obtain ⟨cells, top, freeHead, freeCount, permanent, sanity, colors⟩ := h
  obtain ⟨cells', top', freeHead', freeCount', permanent', sanity', colors'⟩ := h'
  obtain ⟨hc, hs, rfl, rfl, rfl, rfl, rfl, hcol, hcol'⟩ := ha
  subst hcol hcol'
  congr 1
  refine Array.ext hs ?_
  intro i h1 h2
  have := hc i List.not_mem_nil
  simpa [Heap.cellAt, Array.getD_eq_getD_getElem?, h1, h2] using this

theorem Agree.sweep {dead : List Nat} (ha : Agree (dead.reverse ++ l) h h')
    (hb : ∀ i ∈ dead, i < h.capacity) : Agree l (sweep dead h) (sweep dead h') := by
  induction dead generalizing l with
  | nil => exact ha
  | cons i dead ih =>
    have ha : Agree (dead.reverse ++ i :: l) h h' := by simpa using ha
    refine (ih ha fun j hj => hb j (List.mem_cons_of_mem i hj)).reclaim ?_
    have hcap : ∀ k : List Nat, (MarkSweep.sweep k h).capacity = h.capacity := by
      intro k
      induction k with
      | nil => rfl
      | cons j k ih => rw [← ih]; exact capacity_reclaim _ j
    rw [hcap]
    exact hb i List.mem_cons_self

theorem mem_unmarked (hp : h.permanent ≤ h.top) :
    i ∈ unmarked marks h ↔ h.permanent ≤ i ∧ i < h.top ∧ ¬Marked marks i := by
  simp only [unmarked, List.mem_filter, List.mem_range'_1, Marked, Bool.not_eq_true',
    Bool.not_eq_true, and_assoc]
  constructor
  · rintro ⟨h1, h2, h3⟩
    exact ⟨h1, by omega, h3⟩
  · rintro ⟨h1, h2, h3⟩
    exact ⟨h1, by omega, h3⟩

theorem pairwise_unmarked (marks : Array Bool) (h : Heap) : (unmarked marks h).Pairwise (· < ·) :=
  List.Pairwise.filter _ List.pairwise_lt_range'

section MarkSweep

variable (gc : MarkSweep)

include gc

variable (roots : Roots)

include roots

theorem heap_markAndSweep (dump : Bool) (h : Heap) : (gc.markAndSweep roots dump h).2.heap =
      sweep (unmarked (gc.markAndSweep roots dump h).2.collector.marks h) h.clearFreeList := rfl

theorem colors_markAndSweep (dump : Bool) (hc : h.colors = none) :
    (gc.markAndSweep roots dump h).2.heap.colors = none := by
  rw [heap_markAndSweep]
  exact colors_sweep _ hc

theorem sanity_markAndSweep (dump : Bool) :
    (gc.markAndSweep roots dump h).2.heap.sanity = h.sanity := by
  rw [heap_markAndSweep]
  exact sanity_sweep ..

theorem marks_markAndSweep (dump : Bool) (hf : h.FreeList l) :
    Marked (gc.markAndSweep roots dump h).2.collector.marks i ↔
      i < Word.reserved ∨ h.Reach roots i := by
  have hreach : h.clearFreeList.Reach roots i ↔ h.Reach roots i :=
    ⟨Reach.congr rfl rfl fun _ _ => rfl, Reach.congr rfl rfl fun _ _ => rfl⟩
  rw [← hreach]
  exact marked_iff_reach (h := h.clearFreeList) gc roots hf.reserved_le hf.permanent_le hf.top_le

theorem mem_dead (dump : Bool) (hf : h.FreeList l) :
    i ∈ unmarked (gc.markAndSweep roots dump h).2.collector.marks h ↔
      h.permanent ≤ i ∧ i < h.top ∧ ¬h.Reach roots i := by
  rw [mem_unmarked hf.permanent_le, marks_markAndSweep gc roots dump hf]
  have := hf.reserved_le
  constructor
  · rintro ⟨h1, h2, h3⟩
    exact ⟨h1, h2, fun hr => h3 (.inr hr)⟩
  · rintro ⟨h1, h2, h3⟩
    exact ⟨h1, h2, fun hr => hr.elim (by omega) h3⟩

theorem swept_markAndSweep (dump : Bool) (hf : h.FreeList l) :
    Swept (unmarked (gc.markAndSweep roots dump h).2.collector.marks h) h.clearFreeList
      (gc.markAndSweep roots dump h).2.heap := by
  rw [heap_markAndSweep]
  refine swept (pairwise_unmarked _ h).nodup ?_
  intro i hi
  obtain ⟨h1, h2, -⟩ := (mem_dead gc roots dump hf).1 hi
  exact ⟨Nat.le_trans hf.reserved_le h1, Nat.lt_of_lt_of_le h2 hf.top_le⟩

theorem kept_markAndSweep (dump : Bool) (hf : h.FreeList l)
    (hi : i < h.permanent ∨ h.top ≤ i ∨ h.Reach roots i) :
    (gc.markAndSweep roots dump h).2.heap.cellAt i = h.cellAt i := by
  refine (swept_markAndSweep gc roots dump hf).kept i ?_
  rw [mem_dead gc roots dump hf]
  rintro ⟨h1, h2, h3⟩
  rcases hi with hi | hi | hi
  · omega
  · omega
  · exact h3 hi

theorem freeList_markAndSweep (dump : Bool) (hf : h.FreeList l) :
    (gc.markAndSweep roots dump h).2.heap.FreeList
      (unmarked (gc.markAndSweep roots dump h).2.collector.marks h) := by
  have hs := swept_markAndSweep gc roots dump hf
  refine ⟨?_, ?_, ?_, ?_, ?_, ?_⟩
  · rw [hs.permanent]
    exact hf.reserved_le
  · rw [hs.permanent, hs.top]
    exact hf.permanent_le
  · rw [hs.capacity, hs.top]
    exact hf.top_le
  · simpa using hs.chain [] rfl (by simp)
  · intro i
    rw [hs.permanent, hs.top]
    constructor
    · intro hi
      obtain ⟨h1, h2, -⟩ := (mem_dead gc roots dump hf).1 hi
      exact ⟨h1, h2, hs.freed i hi⟩
    · rintro ⟨h1, h2, h3⟩
      rw [mem_dead gc roots dump hf]
      refine ⟨h1, h2, ?_⟩
      intro hr
      rw [kept_markAndSweep gc roots dump hf (.inr (.inr hr))] at h3
      exact (hr.inUse hf.permanent_le).2.2 h3
  · exact hs.count

theorem reach_markAndSweep (dump : Bool) (hf : h.FreeList l) :
    (gc.markAndSweep roots dump h).2.heap.Reach roots i ↔ h.Reach roots i := by
  have hs := swept_markAndSweep gc roots dump hf
  have hl := freeList_markAndSweep gc roots dump hf
  constructor
  · intro hr
    obtain ⟨h1, h2, h3⟩ := hr.inUse hl.permanent_le
    by_cases hp : i < h.permanent
    · rw [kept_markAndSweep gc roots dump hf (.inl hp)] at h3
      exact .permanent h1 hp h3
    · by_contra hn
      refine h3 (hs.freed i ((mem_dead gc roots dump hf).2 ⟨by omega, ?_, hn⟩))
      rw [hs.top] at h2
      exact h2
  · exact Reach.congr hs.top hs.permanent fun j hj =>
      kept_markAndSweep gc roots dump hf (.inr (.inr hj))

end MarkSweep

theorem markAndSweep_idem (gc gc' : MarkSweep) (roots : Roots) (dump dump' : Bool)
    (hf : h.FreeList l) (hc : h.colors = none) :
    (gc'.markAndSweep roots dump' (gc.markAndSweep roots dump h).2.heap).2.heap =
      (gc.markAndSweep roots dump h).2.heap := by
  have hs := swept_markAndSweep gc roots dump hf
  have hl := freeList_markAndSweep gc roots dump hf
  have hdead : unmarked (gc'.markAndSweep roots dump'
      (gc.markAndSweep roots dump h).2.heap).2.collector.marks
      (gc.markAndSweep roots dump h).2.heap =
      unmarked (gc.markAndSweep roots dump h).2.collector.marks h := by
    refine List.Perm.eq_of_pairwise ?_ (pairwise_unmarked _ _) (pairwise_unmarked _ _) ?_
    · intro a b _ _ h1 h2
      omega
    · rw [List.perm_ext_iff_of_nodup (pairwise_unmarked _ _).nodup (pairwise_unmarked _ _).nodup]
      intro i
      rw [mem_dead gc' roots dump' hl, mem_dead gc roots dump hf, hs.permanent, hs.top,
        reach_markAndSweep gc roots dump hf]
      rfl
  rw [heap_markAndSweep gc', hdead]
  refine Agree.eq (Agree.sweep (l := []) ?_ ?_)
  · refine ⟨?_, ?_, hs.top, rfl, rfl, hs.permanent, sanity_sweep .., hc,
      colors_markAndSweep gc roots dump hc⟩
    · intro i hi
      refine hs.kept i fun hm => hi ?_
      rw [List.append_nil, List.mem_reverse]
      exact hm
    · exact hs.capacity
  · intro i hi
    exact Nat.lt_of_lt_of_le ((mem_dead gc roots dump hf).1 hi).2.1 hf.top_le

theorem safepoint_cases (gc : MarkSweep) (roots : Roots) (hf : h.FreeList l)
    (hc : h.colors = none) : gc.safepoint roots h = (none, ⟨gc, h, []⟩) ∨
      ∃ r gc' notices, gc.safepoint roots h =
        (some r, ⟨gc', (gc.markAndSweep roots false h).2.heap, notices⟩) := by
  unfold safepoint
  split
  · exact .inl rfl
  · refine .inr ?_
    dsimp only [collect]
    split
    · refine ⟨_, _, _, congrArg (Prod.mk _) (congrArg (Turn.mk _ · _) ?_)⟩
      exact markAndSweep_idem gc (gc.markAndSweep roots false h).2.collector roots false true hf hc
    · exact ⟨_, _, _, rfl⟩

theorem count_marks (marks : Array Bool) : marks.count true = {i | Marked marks i}.ncard := by
  have hlist : marks.toList = (List.range marks.size).map fun i => marks.getD i false := by
    refine List.ext_getElem (by simp) ?_
    intro i h1 h2
    simp only [Array.length_toList] at h1
    simp [Array.getD_eq_getD_getElem?, h1]
  have hset : {i | Marked marks i} =
      ↑((List.range marks.size).filter fun i => marks.getD i false).toFinset := by
    ext i
    simp only [Set.mem_ofPred_eq, List.coe_toFinset, List.mem_filter, List.mem_range]
    refine ⟨fun hm => ⟨?_, hm⟩, fun hm => hm.2⟩
    by_contra hi
    simp [Marked, Array.getD_eq_getD_getElem?, hi] at hm
  rw [hset, Set.ncard_coe_finset, List.toFinset_card_of_nodup (List.nodup_range.filter _),
    ← Array.count_toList, hlist, List.count, List.countP_map, List.countP_eq_length_filter]
  congr 1
  refine List.filter_congr ?_
  intro i _
  simp

theorem finite_reach {roots : Roots} (hp : h.permanent ≤ h.top) : {i | h.Reach roots i}.Finite :=
  (Set.finite_lt_nat h.top).subset fun _ hi => (hi.inUse hp).2.1

theorem marked_markAndSweep (gc : MarkSweep) (roots : Roots) (dump : Bool) (hf : h.FreeList l) :
    (gc.markAndSweep roots dump h).1.marked = Word.reserved + {i | h.Reach roots i}.ncard := by
  have hset : {i | Marked (gc.markAndSweep roots dump h).2.collector.marks i} =
      {i | i < Word.reserved} ∪ {i | h.Reach roots i} :=
    Set.ext fun i => marks_markAndSweep gc roots dump hf
  have hdis : Disjoint {i | i < Word.reserved} {i | h.Reach roots i} := by
    rw [Set.disjoint_left]
    intro i hi hr
    exact Nat.not_lt.2 (hr.inUse hf.permanent_le).1 hi
  change Array.count true (gc.markAndSweep roots dump h).2.collector.marks = _
  rw [count_marks, hset, Set.ncard_union_eq hdis (Set.finite_lt_nat _)
    (finite_reach hf.permanent_le)]
  congr 1
  exact Set.ncard_Iio_nat Word.reserved

def sealedFree (h : Heap) : Set Nat :=
  {i | Word.reserved ≤ i ∧ i < h.permanent ∧ (h.cellAt i).t = .freeT}

theorem count_markAndSweep (gc : MarkSweep) (roots : Roots) (dump : Bool) (hf : h.FreeList l) :
    (gc.markAndSweep roots dump h).1.marked + (gc.markAndSweep roots dump h).1.free +
      (sealedFree h).ncard = h.top := by
  have hperm := hf.permanent_le
  have hres := hf.reserved_le
  have hl := freeList_markAndSweep gc roots dump hf
  have hfree : (gc.markAndSweep roots dump h).1.free =
      {i | h.permanent ≤ i ∧ i < h.top ∧ ¬h.Reach roots i}.ncard := by
    change (gc.markAndSweep roots dump h).2.heap.freeCount = _
    rw [hl.count, ← List.toFinset_card_of_nodup (pairwise_unmarked _ h).nodup,
      ← Set.ncard_coe_finset]
    congr 1
    ext i
    rw [List.coe_toFinset]
    exact mem_dead gc roots dump hf
  have hsealed : (sealedFree h).Finite := (Set.finite_lt_nat h.permanent).subset fun _ hi => hi.2.1
  have hdead : {i | h.permanent ≤ i ∧ i < h.top ∧ ¬h.Reach roots i}.Finite :=
    (Set.finite_lt_nat h.top).subset fun _ hi => hi.2.1
  have h1 : Disjoint (Set.Iio Word.reserved) {i | h.Reach roots i} := by
    rw [Set.disjoint_left]
    intro i hi hr
    exact Nat.not_lt.2 (hr.inUse hperm).1 hi
  have h2 : Disjoint (Set.Iio Word.reserved ∪ {i | h.Reach roots i})
      {i | h.permanent ≤ i ∧ i < h.top ∧ ¬h.Reach roots i} := by
    rw [Set.disjoint_left]
    rintro i (hi | hi) ⟨h3, h4, h5⟩
    · have : i < Word.reserved := hi
      omega
    · exact h5 hi
  have h3 : Disjoint (Set.Iio Word.reserved ∪ {i | h.Reach roots i} ∪
      {i | h.permanent ≤ i ∧ i < h.top ∧ ¬h.Reach roots i}) (sealedFree h) := by
    rw [Set.disjoint_left]
    rintro i ((hi | hi) | hi) ⟨h4, h5, h6⟩
    · have : i < Word.reserved := hi
      omega
    · exact (hi.inUse hperm).2.2 h6
    · have := hi.1
      omega
  have hunion : Set.Iio Word.reserved ∪ {i | h.Reach roots i} ∪
      {i | h.permanent ≤ i ∧ i < h.top ∧ ¬h.Reach roots i} ∪ sealedFree h = Set.Iio h.top := by
    ext i
    constructor
    · rintro (((hi | hi) | hi) | hi)
      · exact Nat.lt_of_lt_of_le hi (by omega)
      · exact (hi.inUse hperm).2.1
      · exact hi.2.1
      · exact Nat.lt_of_lt_of_le hi.2.1 hperm
    · intro hi
      by_cases hr : h.Reach roots i
      · exact .inl (.inl (.inr hr))
      · by_cases hp : h.permanent ≤ i
        · exact .inl (.inr ⟨hp, hi, hr⟩)
        · by_cases h4 : i < Word.reserved
          · exact .inl (.inl (.inl h4))
          · refine .inr ⟨by omega, by omega, ?_⟩
            by_contra h5
            exact hr (.permanent (by omega) (by omega) h5)
  have hreach := @finite_reach h roots hperm
  have hlow : (Set.Iio Word.reserved).Finite := Set.finite_lt_nat _
  have hcount := congrArg Set.ncard hunion
  rw [Set.ncard_union_eq h3 ((hlow.union hreach).union hdead) hsealed,
    Set.ncard_union_eq h2 (hlow.union hreach) hdead, Set.ncard_union_eq h1 hlow hreach,
    Set.ncard_Iio_nat, Set.ncard_Iio_nat] at hcount
  rw [marked_markAndSweep gc roots dump hf, hfree]
  exact hcount

/-- A collection keeps every cell that is reached as it was, makes all others above the permanent
ones free, and lists those in order; it reports how many there are of each; and a second one would
change nothing. -/
theorem markAndSweep_exact {l : List Nat} (hf : h.FreeList l) (hc : h.colors = none)
    (gc : MarkSweep) (roots : Roots) (dump : Bool) :
    let (report, turn) := gc.markAndSweep roots dump h
    (∀ i, h.Reach roots i → turn.heap.cellAt i = h.cellAt i) ∧
    (∀ i, i < h.permanent ∨ h.top ≤ i → turn.heap.cellAt i = h.cellAt i) ∧
    (∀ i, h.permanent ≤ i → i < h.top → ¬h.Reach roots i → (turn.heap.cellAt i).t = .freeT) ∧
    (∃ free, turn.heap.FreeList free ∧ free.Pairwise (· < ·) ∧
      ∀ i, i ∈ free ↔ h.permanent ≤ i ∧ i < h.top ∧ ¬h.Reach roots i) ∧
    turn.heap.top = h.top ∧ turn.heap.permanent = h.permanent ∧
    report.marked = Word.reserved + {i | h.Reach roots i}.ncard ∧
    report.free = turn.heap.freeCount ∧
    report.marked + report.free + (sealedFree h).ncard = h.top ∧
    ∀ gc' dump', (MarkSweep.markAndSweep gc' roots dump' turn.heap).2.heap = turn.heap := by
  have hs := swept_markAndSweep gc roots dump hf
  refine ⟨fun i hi => kept_markAndSweep gc roots dump hf (.inr (.inr hi)), ?_, ?_, ?_, hs.top,
    hs.permanent, marked_markAndSweep gc roots dump hf, rfl,
    count_markAndSweep gc roots dump hf, ?_⟩
  · intro i hi
    exact kept_markAndSweep gc roots dump hf (hi.imp_right .inl)
  · intro i h1 h2 h3
    exact hs.freed i ((mem_dead gc roots dump hf).2 ⟨h1, h2, h3⟩)
  · exact ⟨_, freeList_markAndSweep gc roots dump hf, pairwise_unmarked _ h,
      fun i => mem_dead gc roots dump hf⟩
  · intro gc' dump'
    exact markAndSweep_idem gc gc' roots dump dump' hf hc

def ring : Heap where
  cells := ⟨(List.range 13).map Cell.initial ++
    [{ t := .pairT, x := .nil, y := .ref 14, z := .undefined },
      { t := .pairT, x := .nil, y := .ref 13, z := .undefined },
      { t := .freeT, x := .undefined, y := .undefined, z := .nil },
      { t := .pairT, x := .nil, y := .ref 13, z := .undefined }]⟩
  top := 17
  freeHead := .ref 15
  freeCount := 1
  permanent := 13
  sanity := 17
  colors := none

theorem freeList_ring : ring.FreeList [15] := by
  refine ⟨by decide, by decide, by decide, ⟨rfl, by decide, by rfl⟩, ?_, rfl⟩
  intro i
  have hall : ∀ j < 17, 13 ≤ j → ((ring.cellAt j).t = .freeT ↔ j = 15) := by decide
  rw [List.mem_singleton]
  constructor
  · rintro rfl
    decide
  · rintro ⟨h1, h2, h3⟩
    exact (hall i h2 h1).1 h3

theorem reach_ring (hr : ring.Reach { pinned := #[.cap 13] } i) : i = 13 ∨ i = 14 := by
  induction hr with
  | @root w i hw hl =>
    have hall : ∀ w ∈ Roots.words { pinned := #[.cap 13] }, ∀ i < 17, ring.Leads w i → i = 13 := by
      decide
    exact .inl (hall w hw i hl.2.2.1 hl)
  | permanent h1 h2 => exact absurd h1 (Nat.not_le.2 h2)
  | @field i j w hr hw hl ih =>
    have hall : ∀ i ∈ [13, 14], ∀ w ∈ (ring.cellAt i).words, ∀ j < 17, ring.Leads w j →
        j = 13 ∨ j = 14 := by decide
    exact hall i (by simpa using ih) w hw j hl.2.2.1 hl

theorem markAndSweep_exact_ring :
    ring.FreeList [15] ∧ ring.colors = none ∧ ∀ gc dump,
      (markAndSweep gc { pinned := #[.cap 13] } dump ring).2.heap.cellAt 14 = ring.cellAt 14 ∧
      ((markAndSweep gc { pinned := #[.cap 13] } dump ring).2.heap.cellAt 16).t = .freeT := by
  refine ⟨freeList_ring, rfl, ?_⟩
  intro gc dump
  obtain ⟨hkept, -, hfreed, -⟩ := markAndSweep_exact freeList_ring rfl gc
    { pinned := #[.cap 13] } dump
  refine ⟨hkept 14 ?_, hfreed 16 (by decide) (by decide) fun hr => by simpa using reach_ring hr⟩
  have h13 : ring.Reach { pinned := #[.cap 13] } 13 := .root (w := .cap 13) (by decide) (by decide)
  exact .field h13 (w := .ref 14) (by decide) (by decide)
end ActorMachine.MarkSweep
