import ActorMachine.Proofs.Marking
import Mathlib.Data.Set.Card

namespace ActorMachine

variable {h h' : Heap} {m : ColorMap} {roots : Roots} {v w : Word} {i : Nat}

namespace Heap

def Rested (h : Heap) : Prop :=
  ∀ m, h.colors = some m → ∀ i, Word.reserved ≤ i → m.color i = m.next ∨ m.color i = .free

theorem Rested.lit (hr : h.Rested) (hs : h.Sound) (i : Nat) : h.Lit (.ref i) := by
  intro m hm j hj _ hc
  have hv := (hs.tinted m hm).labelled
  obtain he | he := hr m hm j hj
  · exact hv.prev_ne_next (hc.symm.trans he)
  · exact hv.prev_ne_free (hc.symm.trans he)

theorem Rested.of_markLive (hr : h.Rested) (hs : h.Sound) (ht : h'.top ≤ h.capacity)
    (hcol : h'.colors = h.colors.map fun m => m.markLive h'.cells h'.top v) : h'.Rested := by
  intro m' hm' i hi
  rw [hcol] at hm'
  obtain ⟨m, hm, rfl⟩ := Option.map_eq_some_iff.1 hm'
  have hv := hs.tinted m hm
  have hold := hr m hm i hi
  rw [ColorMap.next_markLive]
  cases hj : collectable? h'.cells h'.top v with
  | none =>
    rw [ColorMap.markLive_of_none hj]
    exact hold
  | some j =>
    have hlt := (collectable?_eq_some_iff.1 hj).2.2.1
    rw [ColorMap.color_markLive hv.labelled hj (by rw [hv.size]; omega)]
    split
    · exact .inl rfl
    · rw [if_neg fun hp => hr.lit hs i m hm i hi (.inl rfl) hp.1]
      exact hold

theorem Rested.reclaim (hr : h.Rested) (hs : h.Sound) (ht : i < h.top) : (h.reclaim i).Rested := by
  intro m' hm' j hj
  rw [show (h.reclaim i).colors = h.colors.map fun m => m.paint i .free from rfl] at hm'
  obtain ⟨m, hm, rfl⟩ := Option.map_eq_some_iff.1 hm'
  have htop := hs.top_le
  rw [ColorMap.color_paint (by rw [(hs.tinted m hm).size]; omega)]
  split
  · exact .inr rfl
  · exact hr m hm j hj

theorem rested_enableColors (ht : h.top ≤ h.capacity) (hc : h.colors = none) :
    h.enableColors.Rested := by
  unfold enableColors
  rw [hc]
  intro m hm i _
  cases hm
  rw [color_ofCells ht]
  split
  · exact .inl rfl
  · exact .inr rfl

def Spots (roots : Roots) (h : Heap) : Prop :=
  ∀ m, h.colors = some m → ∀ i, Word.reserved ≤ i → m.color i ≠ m.prev → m.color i ≠ .free →
  h.Reach roots i

theorem Spots.shade (hp : h.Spots roots) (hs : h.Sound) (hv : ∀ i, h.Leads v i → h.Reach roots i) :
    (h.shade v).Spots roots := by
  have hreach : ∀ {i}, h.Reach roots i → (h.shade v).Reach roots i :=
    Reach.congr (top_shade h v) (permanent_shade h v) fun j _ => cellAt_shade h v j
  intro m' hm' i hi hprev hfree
  rw [colors_shade] at hm'
  obtain ⟨m, hm, rfl⟩ := Option.map_eq_some_iff.1 hm'
  have hvalid := hs.tinted m hm
  rw [ColorMap.prev_markLive] at hprev
  cases hj : collectable? h.cells h.top v with
  | none =>
    rw [ColorMap.markLive_of_none hj] at hprev hfree
    exact hreach (hp m hm i hi hprev hfree)
  | some j =>
    have hl := collectable?_eq_some_iff.1 hj
    have hlt := hl.2.2.1
    have htop := hs.top_le
    rw [ColorMap.color_markLive hvalid.labelled hj (by rw [hvalid.size]; omega)] at hprev hfree
    by_cases hij : i = j
    · exact hreach (hij ▸ hv j hl)
    · rw [if_neg hij] at hprev hfree
      split at hprev
      · next hchild =>
        obtain ⟨-, w, hw, hk⟩ := hchild
        exact hreach (.field (hv j hl) hw (collectable?_eq_some_iff.1 hk))
      · next hchild =>
        rw [if_neg hchild] at hfree
        exact hreach (hp m hm i hi hprev hfree)

theorem Spots.shadeAll (hp : h.Spots roots) (hs : h.Sound) {ws : List Word}
    (hw : ∀ w ∈ ws, ∀ i, h.Leads w i → h.Reach roots i) : (ws.foldl Heap.shade h).Spots roots := by
  induction ws generalizing h with
  | nil => exact hp
  | cons v ws ih =>
    have ht := hs.tints_shade v
    refine ih (hp.shade hs (hw v List.mem_cons_self)) ht.sound fun w hmem i hl => ?_
    refine Reach.congr ht.top ht.permanent (fun j _ => ht.cell j)
      (hw w (List.mem_cons_of_mem v hmem) i ?_)
    exact hl.congr (ht.top ▸ hl.2.2.1) (by rw [ht.cell]; exact id)

def Garbage (roots : Roots) (h : Heap) (i : Nat) : Prop :=
  h.permanent ≤ i ∧ i < h.top ∧ (h.cellAt i).t ≠ .freeT ∧ ¬ h.Reach roots i

end Heap

namespace Incremental

variable {t t' : Turn Incremental} {n : Nat}

theorem reach_later? (hw : later? roots h i = some w) {j : Nat} (hl : h.Leads w j) :
    h.Reach roots j := by
  unfold later? at hw
  split at hw
  · next v hv =>
    cases hw
    refine .root (List.mem_append_left _ ?_) hl
    exact Array.mem_toList_iff.2 (Array.mem_of_getElem? hv)
  · next hnone =>
    split at hw
    · next hlt =>
      cases hw
      have := Array.getElem?_eq_none_iff.1 hnone
      obtain ⟨hj | hj, h1, h2, h3⟩ := hl
      · cases hj
        exact .permanent h1 (by omega) h3
      · cases hj
    · cases hw

theorem lt_of_later? (hw : later? roots h i = some w) :
    i < roots.symbols.size + (h.permanent - Word.reserved) := by
  unfold later? at hw
  split at hw
  · next v hv =>
    have := (Array.getElem?_eq_some_iff.1 hv).1
    omega
  · split at hw
    · assumption
    · cases hw

theorem spots_shadeRoots (hs : t.heap.Sound) (hp : t.heap.Spots roots) (n : Nat) :
    (shadeRoots roots n t).heap.Spots roots := by
  induction n generalizing t with
  | zero => exact hp
  | succ n ih =>
    unfold shadeRoots
    cases hv : later? roots t.heap t.collector.index with
    | none => exact hp
    | some v => exact ih (hs.tints_shade v).sound (hp.shade hs fun i hl => reach_later? hv hl)

theorem spots_scan (hs : t.heap.Sound) (hp : t.heap.Spots roots) (n : Nat) :
    (scan n t).heap.Spots roots := by
  induction n generalizing t with
  | zero => exact hp
  | succ n ih =>
    unfold scan
    cases hm : t.heap.colors with
    | none => exact hp
    | some m =>
      dsimp only
      cases hf : m.find .scan Word.reserved t.heap.top t.collector.cursor with
      | none => exact hp
      | some i =>
        obtain ⟨hlo, -, hc⟩ := ColorMap.find_eq_some hf
        have hlabel := (hs.tinted m hm).labelled
        refine ih (hs.tints_shade _).sound (hp.shade hs fun j hl => ?_)
        obtain rfl : i = j := by simpa using hl.1
        exact hp m hm i hlo (by rw [hc]; exact hlabel.prev_ne_scan.symm) (by rw [hc]; decide)

/-- The direct roots were reached, and so were the symbols and permanent cells that the collector
has been to. Those are all of them once the scan has begun. -/
structure Marks (roots : Roots) (t : Turn Incremental) : Prop where
  sound : t.heap.Sound
  colored : t.heap.colors.isSome = true
  direct : ∀ w ∈ roots.direct, t.heap.Lit w
  later : ∀ i < t.collector.index, ∀ w, later? roots t.heap i = some w → t.heap.Lit w
  complete : t.collector.phase = .scan → later? roots t.heap t.collector.index = none

theorem isSome_of_fades (hf : h.Fades h') (hc : h.colors.isSome = true) :
    h'.colors.isSome = true := by
  obtain ⟨m, hm⟩ := Option.isSome_iff_exists.1 hc
  obtain ⟨m', hm', -⟩ := hf.some m hm
  rw [hm']
  rfl

theorem marks_flip (roots : Roots) (hs : t.heap.Sound) (hc : t.heap.colors.isSome = true)
    (hlit : ∀ i, t.heap.Lit (.ref i)) :
    Marks roots (flip roots t) ∧ (flip roots t).collector.phase = .roots ∧
      (∀ i, (flip roots t).heap.cellAt i = t.heap.cellAt i) ∧
      (flip roots t).heap.permanent = t.heap.permanent ∧ (flip roots t).heap.top = t.heap.top := by
  obtain ⟨m, hm⟩ := Option.isSome_iff_exists.1 hc
  obtain ⟨ht, hroots⟩ := (hs.flip hm hlit).tints_shadeAll roots.direct
  unfold flip
  rw [hm]
  refine ⟨⟨ht.sound, isSome_of_fades ht.fades rfl, hroots, fun i hi =>
    absurd hi (Nat.not_lt_zero i), fun hp => ?_⟩, rfl, ht.cell, ht.permanent, ht.top⟩
  cases hp

theorem Marks.shades (hk : Marks roots t) (hs : Shades roots t t') : Marks roots t' := by
  have hlater := later?_congr roots hs.tints.permanent
  refine ⟨hs.tints.sound, isSome_of_fades hs.tints.fades hk.colored,
    fun w hw => hs.tints.fades.lit (hk.direct w hw), fun i hi w hw => ?_, fun hp => ?_⟩
  · rw [hlater] at hw
    by_cases hold : i < t.collector.index
    · exact hs.tints.fades.lit (hk.later i hold w hw)
    · exact hs.lit i (Nat.not_lt.1 hold) hi w hw
  · rw [hlater]
    obtain he | ⟨-, he⟩ := hs.phase
    · cases he.symm.trans hp
    · exact he

theorem Marks.scans (hk : Marks roots t) (hphase : t.collector.phase = .scan) (hs : Scans t t') :
    Marks roots t' := by
  have hlater := later?_congr roots hs.tints.permanent
  refine ⟨hs.tints.sound, isSome_of_fades hs.tints.fades hk.colored,
    fun w hw => hs.tints.fades.lit (hk.direct w hw), fun i hi w hw => ?_, fun _ => ?_⟩
  · rw [hlater] at hw
    exact hs.tints.fades.lit (hk.later i (hs.index ▸ hi) w hw)
  · rw [hlater, hs.index]
    exact hk.complete hphase

theorem Marks.lit_root (hk : Marks roots t) (hall : later? roots t.heap t.collector.index = none)
    (hw : w ∈ roots.words) : t.heap.Lit w := by
  have hle := later?_eq_none hall
  obtain hw | hw := List.mem_append.1 hw
  · obtain ⟨i, hi, hget⟩ := List.mem_iff_getElem.1 hw
    have hi' : i < roots.symbols.size := by simpa using hi
    exact hk.later i (by omega) w (later?_symbol (List.getElem?_eq_some_iff.2 ⟨hi, hget⟩))
  · exact hk.direct w hw

theorem Marks.lit_permanent (hk : Marks roots t)
    (hall : later? roots t.heap t.collector.index = none)
    (h1 : Word.reserved ≤ i) (h2 : i < t.heap.permanent) : t.heap.Lit (.ref i) := by
  have hle := later?_eq_none hall
  exact hk.later _ (by omega) _ (later?_permanent roots h1 h2)

/-- The search of a cycle: it has reached only reachable cells, and changed none. -/
structure Explores (roots : Roots) (h : Heap) (t : Turn Incremental) : Prop where
  marks : Marks roots t
  spots : t.heap.Spots roots
  cell : ∀ i, t.heap.cellAt i = h.cellAt i
  permanent : t.heap.permanent = h.permanent
  top : t.heap.top = h.top

/-- The sweep of a cycle: exactly the reachable cells count as live, and only garbage was
reclaimed. -/
structure Clears (roots : Roots) (h : Heap) (t : Turn Incremental) : Prop where
  sound : t.heap.Sound
  colored : t.heap.colors.isSome = true
  live : ∀ m, t.heap.colors = some m → ∀ i, Word.reserved ≤ i →
  (m.color i = m.next ↔ h.Reach roots i)
  scanned : t.heap.Scanned
  cell : ∀ i, t.heap.cellAt i = h.cellAt i ∨ (t.heap.cellAt i).t = .freeT ∧ h.Garbage roots i
  permanent : t.heap.permanent = h.permanent
  top : t.heap.top = h.top

theorem Explores.reach_iff (he : Explores roots h t) : t.heap.Reach roots i ↔ h.Reach roots i :=
  ⟨Heap.Reach.congr he.top.symm he.permanent.symm fun j _ => (he.cell j).symm,
    Heap.Reach.congr he.top he.permanent fun j _ => he.cell j⟩

theorem Explores.tints (he : Explores roots h t) (hk : Marks roots t') (hp : t'.heap.Spots roots)
    (ht : t.heap.Tints t'.heap) : Explores roots h t' :=
  ⟨hk, hp, fun i => (ht.cell i).trans (he.cell i), ht.permanent.trans he.permanent,
    ht.top.trans he.top⟩

theorem explores_flip (roots : Roots) (hs : t.heap.Sound) (hc : t.heap.colors.isSome = true)
    (hr : t.heap.Rested) :
    Explores roots t.heap (flip roots t) ∧ (flip roots t).collector.phase = .roots := by
  obtain ⟨hk, hphase, hcell, hperm, htop⟩ := marks_flip roots hs hc (hr.lit hs)
  refine ⟨⟨hk, ?_, hcell, hperm, htop⟩, hphase⟩
  obtain ⟨m, hm⟩ := Option.isSome_iff_exists.1 hc
  have hflip := hs.flip hm (hr.lit hs)
  have hspots : Heap.Spots roots { t.heap with colors := some m.flip } := by
    intro m' hm' i hi hprev hfree
    cases hm'
    exact ((hr m hm i hi).elim hprev hfree).elim
  unfold flip
  rw [hm]
  exact hspots.shadeAll hflip fun w hw i hl => .root (List.mem_append_right _ hw) hl

theorem Explores.shadeRoots (he : Explores roots h t) (hphase : t.collector.phase = .roots)
    (n : Nat) :
    Explores roots h (shadeRoots roots n t) := by
  have hs := shades_shadeRoots roots he.marks.sound hphase n
  exact he.tints (he.marks.shades hs) (spots_shadeRoots he.marks.sound he.spots n) hs.tints

theorem Explores.clears (he : Explores roots h t)
    (hall : later? roots t.heap t.collector.index = none)
    (hd : t.heap.Scanned) : Clears roots h t := by
  refine ⟨he.marks.sound, he.marks.colored, fun m hm i hi => ?_, hd, fun i => .inl (he.cell i),
    he.permanent, he.top⟩
  have hlabel := (he.marks.sound.tinted m hm).labelled
  rw [← he.reach_iff]
  constructor
  · intro hc
    exact he.spots m hm i hi (hc ▸ hlabel.prev_ne_next.symm) (hc ▸ hlabel.next_ne_free)
  · intro hr
    exact ((hd.retains he.marks.sound hm (fun w hw => he.marks.lit_root hall hw)
      fun i h1 h2 => he.marks.lit_permanent hall h1 h2).reach hr).2

theorem Explores.scan (he : Explores roots h t) (hphase : t.collector.phase = .scan) (n : Nat) :
    (scan n t).collector.phase = .scan ∧ Explores roots h (scan n t) ∨
      (scan n t).collector.phase = .sweep ∧ Clears roots h (scan n t) := by
  have hs := scans_scan he.marks.sound hphase n
  have he' := he.tints (he.marks.scans hphase hs) (spots_scan he.marks.sound he.spots n) hs.tints
  refine hs.phase.imp (fun hp => ⟨hp, he'⟩) fun hp => ⟨hp.1, he'.clears ?_ hp.2⟩
  rw [later?_congr roots hs.tints.permanent, hs.index]
  exact he.marks.complete hphase

theorem Clears.reclaim (hc : Clears roots h t) (hm : t.heap.colors = some m)
    (hi : m.color i = m.prev)
    (hlo : t.heap.permanent ≤ i) (hhi : i < t.heap.top) (hheap : t'.heap = t.heap.reclaim i) :
    Clears roots h t' := by
  have hv := hc.sound.tinted m hm
  obtain ⟨l, hf⟩ := hc.sound.allocator
  have hres := Nat.le_trans hf.reserved_le hlo
  have hcap : i < t.heap.capacity := Nat.lt_of_lt_of_le hhi hf.top_le
  have huse := ((hv.inUse i).1 (hi ▸ hv.labelled.prev_ne_free)).2
  have hdead : ¬ h.Reach roots i := fun hr =>
    hv.labelled.prev_ne_next (hi.symm.trans ((hc.live m hm i hres).2 hr))
  have hcolor := ColorMap.color_paint (hv.size.symm ▸ hcap : i < m.marks.size) .free
  have hcol : t'.heap.colors = some (m.paint i .free) := by
    rw [hheap]
    change t.heap.colors.map _ = _
    rw [hm]
    rfl
  obtain ⟨hs, -⟩ := hc.sound.reclaim hlo hhi huse
  refine ⟨hheap ▸ hs, by rw [hcol]; rfl, fun m' hm' j hj => ?_, fun m' hm' j hj hlt => ?_,
    fun j => ?_, by rw [hheap]; exact hc.permanent, by rw [hheap]; exact hc.top⟩
  · rw [hcol] at hm'
    cases hm'
    rw [hcolor]
    split
    · next hji => exact iff_of_false hv.labelled.next_ne_free.symm (hji ▸ hdead)
    · exact hc.live m hm j hj
  · rw [hcol] at hm'
    cases hm'
    rw [hcolor]
    split
    · decide
    · refine hc.scanned m hm j hj ?_
      rwa [hheap] at hlt
  · rw [hheap, Heap.cellAt_reclaim _ hcap]
    split
    · next hji =>
      subst hji
      have hsame : t.heap.cellAt j = h.cellAt j := (hc.cell j).resolve_right fun hg => huse hg.1
      exact .inr ⟨rfl, hc.permanent ▸ hlo, hc.top ▸ hhi, hsame ▸ huse, hdead⟩
    · exact hc.cell j

/-- The cycle is over, and no garbage is left. -/
structure Completes (roots : Roots) (h : Heap) (t : Turn Incremental) : Prop where
  clears : Clears roots h t
  done : ∀ m, t.heap.colors = some m → ∀ i, t.heap.permanent ≤ i → i < t.heap.top →
  m.color i ≠ m.prev
  phase : t.collector.phase = .flip

theorem Clears.sweep (hc : Clears roots h t) (hphase : t.collector.phase = .sweep) (n : Nat) :
    (sweep n t).collector.phase = .sweep ∧ Clears roots h (sweep n t) ∨
      Completes roots h (sweep n t) := by
  induction n generalizing t with
  | zero => exact .inl ⟨hphase, hc⟩
  | succ n ih =>
    unfold Incremental.sweep
    obtain ⟨m, hm⟩ := Option.isSome_iff_exists.1 hc.colored
    rw [hm]
    dsimp only [Option.bind_some]
    cases hf : m.find m.prev t.heap.permanent t.heap.top t.collector.cursor with
    | some i =>
      obtain ⟨hlo, hhi, hi⟩ := ColorMap.find_eq_some hf
      exact ih (hc.reclaim hm hi hlo hhi rfl) hphase
    | none =>
      refine .inr ⟨⟨hc.1, hc.2, hc.3, hc.4, hc.5, hc.6, hc.7⟩, fun m' hm' i h1 h2 => ?_, rfl⟩
      obtain rfl : m = m' := Option.some.inj (hm.symm.trans hm')
      exact ColorMap.find_eq_none hf h1 h2

namespace Completes

theorem free_iff (hc : Completes roots h t) :
    (t.heap.cellAt i).t = .freeT ↔ (h.cellAt i).t = .freeT ∨ h.Garbage roots i := by
  constructor
  · intro hi
    obtain he | ⟨-, hg⟩ := hc.clears.cell i
    · exact .inl (he ▸ hi)
    · exact .inr hg
  · rintro (hi | ⟨h1, h2, h3, h4⟩)
    · obtain he | ⟨he, -⟩ := hc.clears.cell i
      · exact he ▸ hi
      · exact he
    · -- Garbage in use would look unreached.
      by_contra hu
      obtain ⟨m, hm⟩ := Option.isSome_iff_exists.1 hc.clears.colored
      obtain ⟨l, hf⟩ := hc.clears.sound.allocator
      have hv := hc.clears.sound.tinted m hm
      have hres : Word.reserved ≤ i := Nat.le_trans hf.reserved_le (hc.clears.permanent ▸ h1)
      have htop : i < t.heap.top := hc.clears.top ▸ h2
      obtain he | he | he | he := hv.labelled.cases (m.color i)
      · exact hc.done m hm i (hc.clears.permanent ▸ h1) htop he
      · exact h4 ((hc.clears.live m hm i hres).1 he)
      · exact hc.clears.scanned m hm i hres htop he
      · exact (hv.inUse i).2 ⟨htop, hu⟩ he

theorem rested (hc : Completes roots h t) : t.heap.Rested := by
  intro m hm i hi
  have hv := hc.clears.sound.tinted m hm
  by_cases hfree : m.color i = .free
  · exact .inr hfree
  · obtain ⟨htop, hu⟩ := (hv.inUse i).1 hfree
    refine .inl ((hc.clears.live m hm i hi).2 ?_)
    have hsame : t.heap.cellAt i = h.cellAt i := (hc.clears.cell i).resolve_right fun hg => hu hg.1
    by_cases hperm : i < h.permanent
    · exact .permanent hi hperm (hsame ▸ hu)
    · by_contra hr
      exact hu (hc.free_iff.2 (.inr ⟨Nat.not_lt.1 hperm, hc.clears.top ▸ htop, hsame ▸ hu, hr⟩))

theorem marked_report (hc : Completes roots h t) (hp : h.permanent ≤ h.top) :
    (report t.heap).marked = Word.reserved + {i | h.Reach roots i}.ncard := by
  obtain ⟨m, hm⟩ := Option.isSome_iff_exists.1 hc.clears.colored
  unfold report
  rw [hm]
  dsimp only
  have hset : {i | h.Reach roots i} =
      ↑((List.range' Word.reserved (t.heap.top - Word.reserved)).filter
        fun i => decide (m.color i = m.next)).toFinset := by
    ext i
    simp only [Set.mem_ofPred_eq, List.coe_toFinset, List.mem_filter, List.mem_range'_1,
      decide_eq_true_eq]
    constructor
    · intro hr
      obtain ⟨h1, h2, -⟩ := hr.inUse hp
      refine ⟨⟨h1, ?_⟩, (hc.clears.live m hm i h1).2 hr⟩
      rw [hc.clears.top]
      omega
    · rintro ⟨⟨h1, -⟩, h2⟩
      exact (hc.clears.live m hm i h1).1 h2
  rw [hset, Set.ncard_coe_finset, List.toFinset_card_of_nodup ((List.nodup_range' 1).filter _),
    List.countP_eq_length_filter]

end Completes

/-- A cycle that began with the heap is under way, or just about to begin. -/
def Underway (roots : Roots) (h : Heap) (t : Turn Incremental) : Prop :=
  match t.collector.phase with
  | .flip => t.heap = h
  | .roots | .scan => Explores roots h t
  | .sweep => Clears roots h t

theorem settings_shadeRoots (roots : Roots) (n : Nat) (t : Turn Incremental) :
    (shadeRoots roots n t).collector.stride = t.collector.stride ∧
      (shadeRoots roots n t).collector.completed = t.collector.completed := by
  induction n generalizing t with
  | zero => exact ⟨rfl, rfl⟩
  | succ n ih =>
    unfold shadeRoots
    split
    · exact ih _
    · exact ⟨rfl, rfl⟩

theorem settings_scan (n : Nat) (t : Turn Incremental) :
    (scan n t).collector.stride = t.collector.stride ∧
      (scan n t).collector.completed = t.collector.completed := by
  induction n generalizing t with
  | zero => exact ⟨rfl, rfl⟩
  | succ n ih =>
    unfold scan
    split
    · exact ⟨rfl, rfl⟩
    · split
      · exact ih _
      · exact ⟨rfl, rfl⟩

theorem settings_sweep (hphase : t.collector.phase = .sweep) (n : Nat) :
    (sweep n t).collector.stride = t.collector.stride ∧
      (sweep n t).collector.completed =
        t.collector.completed + if (sweep n t).collector.phase = .flip then 1 else 0 := by
  induction n generalizing t with
  | zero =>
    refine ⟨rfl, ?_⟩
    unfold sweep
    rw [hphase]
    rfl
  | succ n ih =>
    unfold sweep
    dsimp only
    cases t.heap.colors.bind fun m =>
      m.find m.prev t.heap.permanent t.heap.top t.collector.cursor with
    | some i => exact ih hphase
    | none => exact ⟨rfl, rfl⟩

theorem Underway.step (hs : h.Sound) (hc : h.colors.isSome = true) (hr : h.Rested)
    (hu : Underway roots h t) :
    (step roots t).collector.stride = t.collector.stride ∧
    ((step roots t).collector.completed = t.collector.completed ∧
      (step roots t).collector.phase ≠ .flip ∧
        Underway roots h (step roots t) ∨
      (step roots t).collector.completed = t.collector.completed + 1 ∧
      Completes roots h (step roots t)) := by
  unfold Underway at hu
  unfold Incremental.step
  cases hphase : t.collector.phase with
  | flip =>
    rw [hphase] at hu
    obtain ⟨m, hm⟩ := Option.isSome_iff_exists.1 hc
    obtain ⟨he, hp⟩ := explores_flip roots (t := t) (hu ▸ hs) (hu ▸ hc) (hu ▸ hr)
    refine ⟨?_, .inl ⟨?_, by simp [hp], ?_⟩⟩
    · simp only [flip, hu, hm]
    · simp only [flip, hu, hm]
    · unfold Underway
      rw [hp]
      exact hu ▸ he
  | roots =>
    rw [hphase] at hu
    dsimp only
    rw [if_pos hu.marks.colored]
    have hshades := shades_shadeRoots roots hu.marks.sound hphase t.collector.stride
    have he := hu.shadeRoots hphase t.collector.stride
    obtain ⟨hstride, hcompleted⟩ := settings_shadeRoots roots t.collector.stride t
    refine ⟨hstride, .inl ⟨hcompleted, ?_⟩⟩
    unfold Underway
    obtain hp | ⟨hp, -⟩ := hshades.phase <;> rw [hp] <;> exact ⟨by simp, he⟩
  | scan =>
    rw [hphase] at hu
    obtain ⟨hstride, hcompleted⟩ := settings_scan t.collector.stride t
    refine ⟨hstride, .inl ⟨hcompleted, ?_⟩⟩
    unfold Underway
    obtain ⟨hp, he⟩ | ⟨hp, he⟩ := hu.scan hphase t.collector.stride <;> dsimp only <;> rw [hp] <;>
      exact ⟨by simp, he⟩
  | sweep =>
    rw [hphase] at hu
    obtain ⟨hstride, hcompleted⟩ := settings_sweep hphase t.collector.stride
    refine ⟨hstride, ?_⟩
    dsimp only
    rw [hcompleted]
    obtain ⟨hp, he⟩ | he := hu.sweep hphase t.collector.stride
    · refine .inl ⟨by simp [hp], by simp [hp], ?_⟩
      unfold Underway
      rw [hp]
      exact he
    · exact .inr ⟨by simp [he.phase], he⟩

theorem Underway.stepUntil {n : Nat} {task : String} {r : Report} (hs : h.Sound)
    (hc : h.colors.isSome = true) (hr : h.Rested) (hu : Underway roots h t)
    (ht : stepUntil roots (t.collector.completed + 1) ⟨n, task⟩ t = (.ok r, t')) :
    r = report t'.heap ∧ t'.collector.stride = t.collector.stride ∧ Completes roots h t' := by
  induction n generalizing t with
  | zero =>
    unfold Incremental.stepUntil at ht
    rw [if_pos (Nat.lt_succ_self _)] at ht
    cases ht
  | succ n ih =>
    unfold Incremental.stepUntil at ht
    rw [if_pos (Nat.lt_succ_self _)] at ht
    change Incremental.stepUntil roots _ ⟨n, task⟩ (Incremental.step roots t) = _ at ht
    obtain ⟨hstride, ⟨hsame, -, hu'⟩ | ⟨hmore, hdone⟩⟩ := hu.step hs hc hr
    · rw [← hsame] at ht
      rw [← hstride]
      exact ih hu' ht
    · unfold Incremental.stepUntil at ht
      rw [if_neg (by omega)] at ht
      cases ht
      exact ⟨rfl, hstride, hdone⟩

end Incremental

end ActorMachine
