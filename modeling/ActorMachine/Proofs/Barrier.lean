import ActorMachine.Proofs.Agreement
import ActorMachine.Proofs.Cycle
/-! The write barrier is enough. Cells are taken and written to between the turns of a collector, at
any point of its cycles, by actions that only know what can be reached when they begin. Main
statement: no turn reclaims a cell that can be reached from the pinned words, the symbols or the
permanent cells. -/

namespace ActorMachine

open Heap

variable {α : Type} {h h' : Heap} {m : ColorMap} {l₀ l l' : Lexicon} {C : Nat → Prop}
  {pinned : Array Word}
  {gc : Incremental} {t : Turn Incremental} {c : Cell} {v w : Word} {i : Nat}

inductive Mutation
  | alloc (c : Cell)
  | cons (head tail : Word)
  | store (v : Word) (f : Field) (w : Word)
  | intern (chars : Word)

namespace Mutation

def run : Mutation → LexiconM Unit
  | alloc c => do
    let _ ← Heap.alloc c
    return ()
  | cons head tail => do
    let _ ← Heap.cons head tail
    return ()
  | store v f w => Heap.store v f w
  | intern chars => do
    let _ ← Lexicon.intern chars
    return ()

def words : Mutation → List Word
  | alloc c => c.words
  | cons head tail => [head, tail]
  | store v _ w => [v, w]
  | intern chars => [chars]

end Mutation

namespace Lexicon

def roots (l : Lexicon) (pinned : Array Word) :
    Roots := { symbols := l.table.buckets.toArray, pinned }

/-- In an action that began with the first lexicon, the word is known now: a cell that it leads to
could be reached then, or was not in use then and so was taken by the action itself. -/
def Knows (pinned : Array Word) (l₀ l : Lexicon) (w : Word) : Prop :=
  ∀ i, l.heap.Leads w i →
    l₀.heap.Reach (l₀.roots pinned) i ∨ l₀.heap.top ≤ i ∨ (l₀.heap.cellAt i).t = .freeT

end Lexicon

def Mutation.Lawful (pinned : Array Word) (l₀ l : Lexicon) (u : Mutation) : Prop :=
  (∀ w ∈ u.words, Lexicon.Knows pinned l₀ l w) ∧
    match u with
    | alloc c => c.t ≠ .freeT
    | store v f w =>
      (l.heap.isCell v = true → (l.heap.cellAt v.index).t ≠ .freeT) ∧ (f = .t → w ≠ .freeT)
    | cons .. | intern _ => True

namespace Lexicon

/-- An action that began with the first lexicon has come to the second one. -/
inductive Acts (pinned : Array Word) (l₀ : Lexicon) : Lexicon → Prop
  | start : Acts pinned l₀ l₀
  | mutate {l : Lexicon} (u : Mutation) : Acts pinned l₀ l → u.Lawful pinned l₀ l →
      Acts pinned l₀ (final u.run l)

def turn (l : Lexicon) (pinned : Array Word) (gc : Incremental) : Turn Incremental :=
  Incremental.step (l.roots pinned) { collector := gc, heap := l.heap }

/-- Actions and turns of a collector that was idle at first, in any order. -/
inductive Interleaved (pinned : Array Word) : Lexicon → Incremental → Prop
  | start {l : Lexicon} {gc : Incremental} :
  l.Tended → l.heap.colors.isSome = true → gc.phase = .flip →
      Interleaved pinned l gc
  | act {l l' : Lexicon} {gc : Incremental} : Interleaved pinned l gc → l.Acts pinned l' →
      Interleaved pinned l' gc
  | step {l : Lexicon} {gc : Incremental} : Interleaved pinned l gc →
      Interleaved pinned { l with heap := (l.turn pinned gc).heap } (l.turn pinned gc).collector

/-- The second lexicon comes from the first one while the cells of the set were given up. What was
in use is in use, nothing has turned unreached, and symbols that are new were reached. -/
structure Follows (C : Nat → Prop) (l₀ l : Lexicon) : Prop where
  sound : l.heap.Sound
  fades : l₀.heap.Fades l.heap
  permanent : l.heap.permanent = l₀.heap.permanent
  inUse : ∀ i, i < l₀.heap.top → (l₀.heap.cellAt i).t ≠ .freeT → i < l.heap.top ∧
  (l.heap.cellAt i).t ≠ .freeT
  bucket : ∀ (k : Nat) w, l.table.buckets.toArray[k]? = some w →
    l₀.table.buckets.toArray[k]? = some w ∨ l.heap.Lit w
  shuns : l.heap.Shuns C
  avoids : ∀ w ∈ l.table.buckets.toArray.toList, w.Avoids C

namespace Follows

theorem refl (hs : l.heap.Sound) (hh : l.heap.Shuns C)
    (hw : ∀ w ∈ l.table.buckets.toArray.toList, w.Avoids C) :
    Follows C l l :=
  ⟨hs, .refl _, rfl, fun _ h1 h2 => ⟨h1, h2⟩, fun _ _ hk => .inl hk, hh, hw⟩

section Follows

variable (hl : Follows C l₀ l)

include hl

theorem alloc (hC : ∀ i, C i → i < l₀.heap.top ∧ (l₀.heap.cellAt i).t ≠ .freeT)
    (ht : c.t ≠ .freeT) (hc : ∀ w ∈ c.words, w.Avoids C) (he : alloc c l.heap = .ok v h') :
    Follows C l₀ { l with heap := h' } ∧ h'.Lit v ∧ v.Avoids C := by
  obtain ⟨i, rfl, htake, hf, hs⟩ := hl.sound.alloc he ht
  -- Cells that are given up are in use, and what is taken was not.
  have hi : ¬ C i := fun hi => by
    obtain ⟨h1, h2⟩ := hC i hi
    obtain ⟨h3, h4⟩ := hl.inUse i h1 h2
    exact h4 (htake.fresh h3)
  have hshuns := hl.sound.respects_alloc ht he C hl.shuns
    (List.forall_mem_cons.2 ⟨Word.avoids_ref.2 hi, hc⟩)
  refine ⟨⟨hs, hl.fades.trans hf, htake.permanent.trans hl.permanent, fun j h1 h2 => ?_,
    fun k w hk => ?_, hshuns, hl.avoids⟩, htake.lit hl.sound hf, hi⟩
  · obtain ⟨h3, h4⟩ := hl.inUse j h1 h2
    refine ⟨Nat.lt_of_lt_of_le h3 htake.top_le, ?_⟩
    change (h'.cellAt j).t ≠ .freeT
    rw [htake.cellAt]
    split
    · exact ht
    · exact h4
  · exact (hl.bucket k w hk).imp_right hf.lit

theorem store {f : Field} {x : Unit}
    (hv : l.heap.isCell v = true → (l.heap.cellAt v.index).t ≠ .freeT) (hf : f = .t → w ≠ .freeT)
    (hw : w.Avoids C) (he : store v f w l.heap = .ok x h') :
    Follows C l₀ { l with heap := h' } := by
  obtain ⟨i, rfl, hi, hset, hfade, hs⟩ := hl.sound.store he
  have hu : (l.heap.cellAt i).t ≠ .freeT := hv (isCell_iff.2 ⟨i, rfl, hi⟩)
  have hu' : ((l.heap.cellAt i).set f w).t ≠ .freeT := by
    cases f with
    | t => exact hf rfl
    | x | y | z => exact hu
  have hshuns := hl.sound.respects_store he hu C hl.shuns (by simpa using hw)
  refine ⟨hs hu hu', hl.fades.trans hfade, hset.permanent.trans hl.permanent, fun j h1 h2 => ?_,
    fun k w hk => (hl.bucket k w hk).imp_right hfade.lit, hshuns, hl.avoids⟩
  obtain ⟨h3, h4⟩ := hl.inUse j h1 h2
  refine ⟨hset.top ▸ h3, ?_⟩
  change (h'.cellAt j).t ≠ .freeT
  rw [hset.cellAt]
  split
  · exact hu'
  · exact h4

theorem setBucket (hash : UInt32) (hlit : l.heap.Lit w) (hw : w.Avoids C) :
    Follows C l₀ { l with table := l.table.setBucket hash w } := by
  refine ⟨hl.sound, hl.fades, hl.permanent, hl.inUse, fun k v hk => ?_, hl.shuns, fun v hv => ?_⟩
  · simp only [SymbolTable.setBucket, Vector.toArray_set, Array.getElem?_set] at hk
    split at hk
    · cases hk
      exact .inr hlit
    · exact hl.bucket k v hk
  · simp only [SymbolTable.setBucket, Vector.toArray_set, Array.toList_set] at hv
    obtain hv | rfl := List.mem_or_eq_of_mem_set hv
    · exact hl.avoids v hv
    · exact hw

theorem onHeap_bind {β : Type} {act : HeapM α} {k : α → LexiconM β}
    (herr : ∀ e h', act l.heap = .error e h' → h' = l.heap)
    (hok : ∀ a h', act l.heap = .ok a h' → Follows C l₀ (final (k a) { l with heap := h' })) :
    Follows C l₀ (final (onHeap act >>= k) l) := by
  refine final_bind_cases (fun a l' he => ?_) fun e l' he => ?_
  · unfold onHeap at he
    dsimp only at he
    split at he
    · next hr =>
      cases he
      exact hok a _ hr
    · cases he
  · unfold onHeap at he
    dsimp only at he
    split at he
    · cases he
    · next hr =>
      cases he
      rw [herr _ _ hr]
      exact hl

theorem query_bind {β : Type} {f : Heap → Except Fault α} {k : α → LexiconM β}
    (hok : ∀ a, f l.heap = .ok a → Follows C l₀ (final (k a) l)) :
    Follows C l₀ (final (onHeap (query f) >>= k) l) := by
  refine hl.onHeap_bind (fun e h' he => ?_) fun a h' he => ?_
  · unfold query at he
    split at he
    · cases he
    · cases he
      rfl
  · unfold query at he
    split at he
    · next hr =>
      cases he
      exact hok _ hr
    · cases he

end Follows

variable (hC : ∀ i, C i → i < l₀.heap.top ∧ (l₀.heap.cellAt i).t ≠ .freeT)

include hC

theorem alloc_bind {β : Type} {k : Word → LexiconM β} (hl : Follows C l₀ l) (ht : c.t ≠ .freeT)
    (hc : ∀ w ∈ c.words, w.Avoids C)
    (hok : ∀ v h', h'.Lit v → v.Avoids C → Follows C l₀ { l with heap := h' } →
      Follows C l₀ (final (k v) { l with heap := h' })) :
    Follows C l₀ (final (onHeap (Heap.alloc c) >>= k) l) := by
  refine hl.onHeap_bind (fun e h' he => (alloc_error he).2.2.2) fun v h' he => ?_
  obtain ⟨hl', hlit, hv⟩ := hl.alloc hC ht hc he
  exact hok v h' hlit hv hl'

theorem intern (hl : Follows C l₀ l) {chars : Word} (hc : chars.Avoids C) :
    Follows C l₀ (final (Lexicon.intern chars) l) := by
  have hliteral : ∀ j < Word.reserved, (Word.ref j).Avoids C := fun j hj => hl.shuns.literal hj
  unfold Lexicon.intern
  refine hl.query_bind fun hash _ => ?_
  change Follows C l₀ (final (onHeap (Heap.query fun h => SymbolTable.find? h (.fix hash.toNat)
    chars (h.budget "symbol lookup") (l.table.bucket hash)) >>= _) l)
  refine hl.query_bind fun found _ => ?_
  cases found with
  | some sym => exact hl
  | none =>
    refine hl.alloc_bind hC (show Word.symbolT ≠ .freeT by decide) ?_ fun sym h₁ _ hsym hl₁ => ?_
    · exact Cell.forall_words.2 ⟨hliteral _ (by decide), trivial, hc, hliteral _ (by decide)⟩
    refine hl₁.alloc_bind hC (show Word.pairT ≠ .freeT by decide) ?_ fun bucket h₂ hlit hb hl₂ => ?_
    · refine Cell.forall_words.2 ⟨hliteral _ (by decide), hsym, hl.avoids _ ?_,
        hliteral _ (by decide)⟩
      exact Array.mem_toList_iff.2 (Array.getElem_mem ..)
    · exact hl₂.setBucket hash hlit hb

theorem avoids_known (hl : Follows C l₀ l) (hR : ∀ i, C i → ¬ l₀.heap.Reach (l₀.roots pinned) i)
    (hw : Knows pinned l₀ l w) : w.Avoids C := by
  have hnot : ∀ i, w = .ref i ∨ w = .cap i → ¬ C i := by
    intro i hi hc
    obtain ⟨h1, h2⟩ := hC i hc
    obtain hr | htop | hfree := hw i ⟨hi, hl.shuns.reserved_le i hc, hl.inUse i h1 h2⟩
    · exact hR i hc hr
    · exact Nat.not_lt.2 htop h1
    · exact h2 hfree
  cases w with
  | fixnum n => trivial
  | ref i => exact hnot i (.inl rfl)
  | cap i => exact hnot i (.inr rfl)

theorem mutate (hl : Follows C l₀ l) (hR : ∀ i, C i → ¬ l₀.heap.Reach (l₀.roots pinned) i)
    {u : Mutation} (hu : u.Lawful pinned l₀ l) : Follows C l₀ (final u.run l) := by
  have hliteral : ∀ j < Word.reserved, (Word.ref j).Avoids C := fun j hj => hl.shuns.literal hj
  have hwords : ∀ w ∈ u.words, w.Avoids C := fun w hw => hl.avoids_known hC hR (hu.1 w hw)
  cases u with
  | alloc c => exact hl.alloc_bind hC hu.2 hwords fun _ _ _ _ hl' => hl'
  | cons head tail =>
    refine hl.alloc_bind hC (show Word.pairT ≠ .freeT by decide) ?_ fun _ _ _ _ hl' => hl'
    exact Cell.forall_words.2 ⟨hliteral _ (by decide), hwords head (by simp [Mutation.words]),
      hwords tail (by simp [Mutation.words]), hliteral _ (by decide)⟩
  | store v f w =>
    change Follows C l₀ (final (onHeap (Heap.store v f w)) l)
    rw [final_onHeap]
    unfold final
    cases he : Heap.store v f w l.heap with
    | ok x h' => exact hl.store hu.2.1 hu.2.2 (hwords w (by simp [Mutation.words])) he
    | error e h' =>
      rw [Heap.store_error he]
      exact hl
  | intern chars =>
    have hi := hl.intern hC (hwords chars (by simp [Mutation.words]))
    unfold final at hi
    refine final_bind_cases (P := Follows C l₀) (fun a l' he => ?_) fun e l' he => ?_
    · rw [he] at hi
      exact hi
    · rw [he] at hi
      exact hi

theorem acts (hl : Follows C l₀ l₀) (hR : ∀ i, C i → ¬ l₀.heap.Reach (l₀.roots pinned) i)
    (ha : l₀.Acts pinned l) : Follows C l₀ l := by
  induction ha with
  | start => exact hl
  | mutate u _ hu ih => exact ih.mutate hC hR hu

end Follows

end Lexicon

namespace Heap

def Unreached (h : Heap) (i : Nat) : Prop := ¬ h.Lit (.ref i)

theorem unreached_iff (hm : h.colors = some m) :
    h.Unreached i ↔ Word.reserved ≤ i ∧ m.color i = m.prev := by
  unfold Unreached Lit
  simp only [hm, Option.some.injEq, forall_eq', Word.ref.injEq, reduceCtorEq, or_false]
  constructor
  · intro hn
    by_contra hc
    exact hn fun j hr hj hp => hc (hj ▸ ⟨hr, hp⟩)
  · rintro ⟨hr, hp⟩ hn
    exact hn i hr rfl hp

theorem Lit.avoids (hc : h.colors = some m) (hw : h.Lit w) : w.Avoids h.Unreached := by
  have hnot : ∀ i, w = .ref i ∨ w = .cap i → ¬ h.Unreached i := fun i hi hn =>
    hw m hc i ((unreached_iff hc).1 hn).1 hi ((unreached_iff hc).1 hn).2
  cases w with
  | fixnum n => trivial
  | ref i => exact hnot i (.inl rfl)
  | cap i => exact hnot i (.inr rfl)

theorem Sound.inUse_of_unreached (hs : h.Sound) (hm : h.colors = some m) (hi : h.Unreached i) :
    i < h.top ∧ (h.cellAt i).t ≠ .freeT := by
  have hv := hs.tinted m hm
  refine (hv.inUse i).1 ?_
  rw [((unreached_iff hm).1 hi).2]
  exact hv.labelled.prev_ne_free

theorem Scanned.shuns (hd : h.Scanned) (hs : h.Sound) (hm : h.colors = some m) :
    h.Shuns h.Unreached := by
  have hv := hs.tinted m hm
  refine ⟨fun i hi => ((unreached_iff hm).1 hi).1, fun i hr ht hu hi w hw => ?_,
    fun m' hm' i hi => ?_⟩
  · have hl : h.Leads (.ref i) i := ⟨.inl rfl, hr, ht, hu⟩
    have hnext : m.color i = m.next := hd.color hs hm hl fun hp =>
      hi ((unreached_iff hm).2 ⟨hr, hp⟩)
    refine Lit.avoids hm fun m' hm' j hj hwj hp => ?_
    rw [hm] at hm'
    cases hm'
    obtain ⟨h1, h2⟩ := hs.inUse_of_unreached hm ((unreached_iff hm).2 ⟨hj, hp⟩)
    exact hv.closed i hr hnext w hw j ⟨hwj, hj, h1, h2⟩ hp
  · rw [hm] at hm'
    cases hm'
    exact ((unreached_iff hm).1 hi).2

end Heap

namespace Incremental

variable {roots : Roots}

/-- The sweep: what looks unreached is given up. -/
structure Discards (roots : Roots) (h : Heap) : Prop where
  sound : h.Sound
  colored : h.colors.isSome = true
  shuns : h.Shuns h.Unreached
  avoids : ∀ w ∈ roots.words, w.Avoids h.Unreached
  permanent : ∀ i < h.permanent, ¬ h.Unreached i

theorem Discards.not_unreached (hd : Discards roots h) (hr : h.Reach roots i) :
    ¬ h.Unreached i := by
  obtain ⟨l, hf⟩ := hd.sound.allocator
  induction hr with
  | root hw hl => exact hl.not_mem (hd.avoids _ hw)
  | permanent _ hlt _ => exact hd.permanent _ hlt
  | field hr hw hl ih =>
    obtain ⟨h1, h2, h3⟩ := hr.inUse hf.permanent_le
    exact hl.not_mem (hd.shuns.apart _ h1 h2 h3 ih _ hw)

theorem Marks.discards (hk : Marks roots t) (hall : later? roots t.heap t.collector.index = none)
    (hd : t.heap.Scanned) : Discards roots t.heap := by
  obtain ⟨m, hm⟩ := Option.isSome_iff_exists.1 hk.colored
  have hle := later?_eq_none hall
  refine ⟨hk.sound, hk.colored, hd.shuns hk.sound hm, fun w hw =>
    Lit.avoids hm (hk.lit_root hall hw), fun i hi hn => ?_⟩
  have hr := ((unreached_iff hm).1 hn).1
  exact hn (hk.lit_permanent hall hr hi)

theorem Discards.reclaim (hd : Discards roots h) (hm : h.colors = some m) (hi : m.color i = m.prev)
    (hlo : h.permanent ≤ i) (hhi : i < h.top) :
    Discards roots (h.reclaim i) ∧ h.Preserves roots (h.reclaim i) := by
  obtain ⟨l, hf⟩ := hd.sound.allocator
  have hcap : i < h.capacity := Nat.lt_of_lt_of_le hhi hf.top_le
  have hun : h.Unreached i := (unreached_iff hm).2 ⟨Nat.le_trans hf.reserved_le hlo, hi⟩
  obtain ⟨hs, hfade⟩ := hd.sound.reclaim hlo hhi (hd.sound.inUse_of_unreached hm hun).2
  have hcol : (h.reclaim i).colors = some (m.paint i .free) := by
    change h.colors.map _ = _
    rw [hm]
    rfl
  have hiff : ∀ j, (h.reclaim i).Unreached j ↔ h.Unreached j ∧ j ≠ i := by
    intro j
    have hlabel := (hd.sound.tinted m hm).labelled
    rw [unreached_iff hcol, unreached_iff hm,
      ColorMap.color_paint (ColorMap.lt_size (hi ▸ hlabel.prev_ne_free)), and_assoc]
    refine and_congr_right fun _ => ?_
    split
    · next hji => exact iff_of_false hlabel.prev_ne_free.symm fun hc => hc.2 hji
    · next hji => exact (and_iff_left hji).symm
  refine ⟨⟨hs, by rw [hcol]; rfl, (hd.shuns.reclaim hcap).of_iff hiff, fun w hw => ?_,
    fun j hj hn => ?_⟩, rfl, rfl, fun j hj => ?_⟩
  · have hold := hd.avoids w hw
    cases w with
    | fixnum n => trivial
    | ref j | cap j => exact fun hn => hold ((hiff j).1 hn).1
  · exact hd.permanent j hj ((hiff j).1 hn).1
  · rw [cellAt_reclaim h hcap, if_neg]
    rintro rfl
    exact hd.not_unreached hj hun

theorem Discards.sweep (hd : Discards roots t.heap) (hphase : t.collector.phase = .sweep)
    (n : Nat) :
    t.heap.Preserves roots (Incremental.sweep n t).heap ∧
    Discards roots (Incremental.sweep n t).heap ∧
      ((Incremental.sweep n t).collector.phase = .sweep ∨
        (Incremental.sweep n t).collector.phase = .flip ∧
          ∀ i, (Incremental.sweep n t).heap.Lit (.ref i)) := by
  induction n generalizing t with
  | zero => exact ⟨hd.sound.tints.preserves, hd, .inl hphase⟩
  | succ n ih =>
    unfold Incremental.sweep
    obtain ⟨m, hm⟩ := Option.isSome_iff_exists.1 hd.colored
    rw [hm]
    dsimp only [Option.bind_some]
    cases hf : m.find m.prev t.heap.permanent t.heap.top t.collector.cursor with
    | some i =>
      obtain ⟨hlo, hhi, hi⟩ := ColorMap.find_eq_some hf
      obtain ⟨hd', hkeep⟩ := hd.reclaim hm hi hlo hhi
      obtain ⟨hkeep', hrest⟩ := ih (t := { t with
        heap := t.heap.reclaim i
        collector := { t.collector with cursor := i } }) hd' hphase
      exact ⟨hkeep.trans hkeep', hrest⟩
    | none =>
      refine ⟨hd.sound.tints.preserves, hd, .inr ⟨rfl, fun i => Classical.not_not.1 fun hn => ?_⟩⟩
      have hlo : t.heap.permanent ≤ i := Nat.not_lt.1 fun hlt => hd.permanent i hlt hn
      have hn : t.heap.Unreached i := hn
      exact ColorMap.find_eq_none hf hlo (hd.sound.inUse_of_unreached hm hn).1
        ((unreached_iff hm).1 hn).2

end Incremental

namespace Lexicon

/-- What holds between any two turns. -/
inductive Guarded (pinned : Array Word) (l : Lexicon) (gc : Incremental) : Prop
  | idle : gc.phase = .flip → l.heap.Sound → l.heap.colors.isSome = true →
    (∀ i, l.heap.Lit (.ref i)) →
      Guarded pinned l gc
  | marking : gc.phase.isMarking = true →
      Incremental.Marks (l.roots pinned) { collector := gc, heap := l.heap } → Guarded pinned l gc
  | sweeping : gc.phase = .sweep → Incremental.Discards (l.roots pinned) l.heap →
    Guarded pinned l gc

theorem Follows.later? (hf : Follows C l l')
    (hw : Incremental.later? (l'.roots pinned) l'.heap i = some w) :
    Incremental.later? (l.roots pinned) l.heap i = some w ∨ l'.heap.Lit w := by
  unfold Incremental.later? at hw
  split at hw
  · next v hv =>
    cases hw
    refine (hf.bucket i w hv).imp_left fun hold => ?_
    unfold Incremental.later?
    rw [show (l.roots pinned).symbols[i]? = some w from hold]
  · next hnone =>
    have hsize : (l'.roots pinned).symbols.size = (l.roots pinned).symbols.size := by
      simp [Lexicon.roots]
    have hnone' : (l.roots pinned).symbols[i]? = none := by
      rw [Array.getElem?_eq_none_iff] at hnone ⊢
      omega
    left
    unfold Incremental.later?
    rw [hnone']
    rwa [hsize, hf.permanent] at hw

theorem Follows.marks (hf : Follows C l l')
    (hk : Incremental.Marks (l.roots pinned) { collector := gc, heap := l.heap }) :
    Incremental.Marks (l'.roots pinned) { collector := gc, heap := l'.heap } := by
  refine ⟨hf.sound, Incremental.isSome_of_fades hf.fades hk.colored, fun w hw =>
    hf.fades.lit (hk.direct w hw), fun i hi w hw => ?_, fun hp => ?_⟩
  · obtain hw | hw := hf.later? hw
    · exact hf.fades.lit (hk.later i hi w hw)
    · exact hw
  · have hle := Incremental.later?_eq_none (hk.complete hp)
    cases hnone : Incremental.later? (l'.roots pinned) l'.heap gc.index with
    | none => rfl
    | some w =>
      have hlt := Incremental.lt_of_later? hnone
      have hsize : (l'.roots pinned).symbols.size = (l.roots pinned).symbols.size := by
        simp [Lexicon.roots]
      rw [hf.permanent] at hlt
      dsimp only at hle
      omega

namespace Guarded

theorem turn (hg : Guarded pinned l gc) :
    Guarded pinned { l with heap := (l.turn pinned gc).heap } (l.turn pinned gc).collector ∧
      l.heap.Preserves (l.roots pinned) (l.turn pinned gc).heap := by
  unfold Lexicon.turn Incremental.step
  cases hg with
  | idle hphase hs hc hlit =>
    rw [hphase]
    obtain ⟨hk, hp, hcell, hperm, htop⟩ := Incremental.marks_flip
      (t := { collector := gc, heap := l.heap })
      (l.roots pinned) hs hc hlit
    exact ⟨.marking (by rw [hp]; rfl) ⟨hk.1, hk.2, hk.3, hk.4, hk.5⟩, htop, hperm,
      fun i _ => hcell i⟩
  | marking hmarking hk =>
    cases hphase : gc.phase with
    | flip | sweep =>
      rw [hphase] at hmarking
      cases hmarking
    | roots =>
      dsimp only
      rw [if_pos hk.colored]
      have hs := Incremental.shades_shadeRoots (t := { collector := gc, heap := l.heap })
        (l.roots pinned)
        hk.sound hphase gc.stride
      have hk' := hk.shades hs
      refine ⟨.marking ?_ ⟨hk'.1, hk'.2, hk'.3, hk'.4, hk'.5⟩, hs.tints.preserves⟩
      obtain hp | ⟨hp, -⟩ := hs.phase <;> rw [hp] <;> rfl
    | scan =>
      have hs :=
        Incremental.scans_scan (t := { collector := gc, heap := l.heap }) hk.sound hphase gc.stride
      have hk' := hk.scans hphase hs
      refine ⟨?_, hs.tints.preserves⟩
      obtain hp | ⟨hp, hd⟩ := hs.phase
      · exact .marking (by rw [hp]; rfl) ⟨hk'.1, hk'.2, hk'.3, hk'.4, hk'.5⟩
      · refine .sweeping hp (hk'.discards ?_ hd)
        rw [Incremental.later?_congr _ hs.tints.permanent, hs.index]
        exact hk.complete hphase
  | sweeping hphase hd =>
    rw [hphase]
    obtain ⟨hkeep, hd', hend⟩ :=
      hd.sweep (t := { collector := gc, heap := l.heap }) hphase gc.stride
    refine ⟨?_, hkeep⟩
    obtain hp | ⟨hp, hlit⟩ := hend
    · exact .sweeping hp hd'
    · exact .idle hp hd'.sound hd'.colored hlit

theorem discards_acts (hd : Incremental.Discards (l.roots pinned) l.heap) (ha : l.Acts pinned l') :
    Incremental.Discards (l'.roots pinned) l'.heap := by
  -- What is given up stays so during an action, since no word that it knows leads there.
  obtain ⟨m, hm⟩ := Option.isSome_iff_exists.1 hd.colored
  have hf : Follows l.heap.Unreached l l' := Follows.acts (fun i hi =>
    hd.sound.inUse_of_unreached hm hi)
    (.refl hd.sound hd.shuns fun w hw => hd.avoids w (List.mem_append_left _ hw))
    (fun i hi hr => hd.not_unreached hr hi) ha
  obtain ⟨m', hm', -⟩ := hf.fades.some m hm
  have heq : l'.heap.Unreached = l.heap.Unreached := funext fun i => propext
    ⟨fun hn hl => hn (hf.fades.lit hl), fun hn =>
      (unreached_iff hm').2 ⟨hf.shuns.reserved_le i hn, hf.shuns.color m' hm' i hn⟩⟩
  refine ⟨hf.sound, by rw [hm']; rfl, heq ▸ hf.shuns, fun w hw => ?_, fun i hi => ?_⟩
  · rw [heq]
    obtain hw | hw := List.mem_append.1 hw
    · exact hf.avoids w hw
    · exact hd.avoids w (List.mem_append_right _ hw)
  · rw [heq]
    exact hd.permanent i (hf.permanent ▸ hi)

theorem follows (hs : l.heap.Sound) (ha : l.Acts pinned l') : Follows (fun _ => False) l l' :=
  Follows.acts (fun _ hi => hi.elim)
    (.refl hs (.of_none fun _ => id) fun w _ => w.avoids_of_none fun _ => id) (fun _ hi =>
      hi.elim) ha

theorem acts (hg : Guarded pinned l gc) (ha : l.Acts pinned l') : Guarded pinned l' gc := by
  cases hg with
  | idle hp hs hc hlit =>
    have hf := follows hs ha
    exact .idle hp hf.sound (Incremental.isSome_of_fades hf.fades hc) fun i => hf.fades.lit (hlit i)
  | marking hp hk => exact .marking hp ((follows hk.sound ha).marks hk)
  | sweeping hp hd => exact .sweeping hp (discards_acts hd ha)

theorem sound (hg : Guarded pinned l gc) : l.heap.Sound := by
  cases hg with
  | idle _ hs => exact hs
  | marking _ hk => exact hk.sound
  | sweeping _ hd => exact hd.sound

end Guarded

theorem Interleaved.guarded (hi : Interleaved pinned l gc) : Guarded pinned l gc := by
  induction hi with
  | start ht hc hp =>
    obtain ⟨hs, hr⟩ := ht.rested
    exact .idle hp hs hc (hr.lit hs)
  | act _ ha ih => exact ih.acts ha
  | step _ ih => exact ih.turn.1

/-- No turn reclaims or changes a cell that can be reached from the pinned words, the symbols or the
permanent cells, and no action makes a cell in use look free, however the two are interleaved. -/
theorem Interleaved.never_reclaims (hi : Interleaved pinned l gc) :
    (∀ i, l.heap.Reach (l.roots pinned) i → (l.heap.cellAt i).t ≠ .freeT ∧
      (l.turn pinned gc).heap.cellAt i = l.heap.cellAt i ∧
      (l.turn pinned gc).heap.Reach (l.roots pinned) i) ∧
    ∀ l', l.Acts pinned l' → ∀ i < l.heap.top, (l.heap.cellAt i).t ≠ .freeT →
      (l'.heap.cellAt i).t ≠ .freeT := by
  have hg := hi.guarded
  obtain ⟨free, hf⟩ := hg.sound.allocator
  obtain ⟨-, hkeep⟩ := hg.turn
  refine ⟨fun i hr => ⟨(hr.inUse hf.permanent_le).2.2, hkeep.cell i hr, ?_⟩,
    fun l' ha i ht hu => ?_⟩
  · exact hr.congr hkeep.top hkeep.permanent hkeep.cell
  · exact ((Guarded.follows hg.sound ha).inUse i ht hu).2

theorem knows_of_reach (hr : l₀.heap.Reach (l₀.roots pinned) i) : Knows pinned l₀ l (.ref i) := by
  rintro j ⟨hj | hj, -⟩
  · cases hj
    exact .inl hr
  · cases hj

theorem knows_literal (hi : i < Word.reserved) : Knows pinned l₀ l (.ref i) := by
  rintro j ⟨hj | hj, hr, -⟩
  · cases hj
    exact absurd hi (Nat.not_lt.2 hr)
  · cases hj

theorem Interleaved.never_reclaims_moved : ∃ l gc, Interleaved #[.ref 16, .ref 15] l gc ∧
    ((l.turn #[.ref 16, .ref 15] gc).heap.cellAt 17).t = .freeT ∧
    (l.turn #[.ref 16, .ref 15] gc).heap.cellAt 13 = ⟨.pairT, .fix 7, .nil, .undefined⟩ := by
  -- Of two pinned pairs one leads to a third one, and that to a fourth, which no turn has reached
  -- yet. An action stores it in the other pinned pair, and cuts the way to it. The sweep reclaims a
  -- fifth pair but not the fourth.
  have hmove : ∀ {l gc}, Interleaved #[.ref 16, .ref 15] l gc → l.heap.Leads (.ref 16) 16 →
      l.heap.Leads (.ref 15) 15 → .ref 14 ∈ (l.heap.cellAt 15).words → l.heap.Leads (.ref 14) 14 →
      .ref 13 ∈ (l.heap.cellAt 14).words → l.heap.Leads (.ref 13) 13 →
      ((final (Mutation.store (.ref 16) .x (.ref 13)).run l).heap.cellAt 14).t ≠ .freeT →
      Interleaved #[.ref 16, .ref 15] (final (Mutation.store (.ref 14) .x .nil).run
        (final (Mutation.store (.ref 16) .x (.ref 13)).run l)) gc := by
    intro l gc hi h16 h15 hw14 h14 hw13 h13 hu
    have hr16 : l.heap.Reach (l.roots #[.ref 16, .ref 15]) 16 :=
      .root (by simp [Roots.words, Roots.direct, Lexicon.roots]) h16
    have hr14 : l.heap.Reach (l.roots #[.ref 16, .ref 15]) 14 :=
      .field (.root (by simp [Roots.words, Roots.direct, Lexicon.roots]) h15) hw14 h14
    refine .act hi (.mutate _ (.mutate _ .start ⟨?_, ?_⟩) ⟨?_, ?_⟩)
    · simp [Mutation.words, knows_of_reach hr16, knows_of_reach (.field hr14 hw13 h13)]
    · exact ⟨fun _ => h16.2.2.2, fun e => by cases e⟩
    · simp only [Mutation.words, List.mem_cons, List.not_mem_nil, or_false, forall_eq_or_imp,
        forall_eq]
      exact ⟨knows_of_reach hr14, knows_literal (by decide)⟩
    · exact ⟨fun _ => hu, fun e => by cases e⟩
  have h₁ : Tended _ := .enableColors (.request (.cons .nil .nil) (.request (.cons .nil .nil)
    (.request (.cons (.ref 14) .nil) (.request (.cons (.ref 13) .nil)
      (.request (.cons (.fix 7) .nil)
      (.new 20 20) trivial) trivial) trivial) trivial) trivial)
  have h₂ : Interleaved #[.ref 16, .ref 15] _ _ := .step (.start h₁ (by decide +kernel)
    (show ({ Incremental.ofConfig {} with stride := 1000 } : Incremental).phase = .flip from rfl))
  have h₃ := hmove h₂ (by decide +kernel) (by decide +kernel) (by decide +kernel)
    (by decide +kernel)
    (by decide +kernel) (by decide +kernel) (by decide +kernel)
  have h₄ : ∃ l gc, Interleaved #[.ref 16, .ref 15] l gc ∧ l.heap.Leads (.ref 16) 16 ∧
      .ref 13 ∈ (l.heap.cellAt 16).words ∧ l.heap.Leads (.ref 13) 13 ∧
      l.heap.cellAt 13 = ⟨.pairT, .fix 7, .nil, .undefined⟩ ∧
      ((l.turn #[.ref 16, .ref 15] gc).heap.cellAt 17).t = .freeT :=
      ⟨_, _, h₃.step.step, by decide +kernel⟩
  obtain ⟨l, gc, hi, h16, hw, h13, hcell, hfree⟩ := h₄
  obtain ⟨hkeep, -⟩ := hi.never_reclaims
  refine ⟨l, gc, hi, hfree, ?_⟩
  rw [← hcell]
  exact (hkeep 13
    (.field (.root (by simp [Roots.words, Roots.direct, Lexicon.roots]) h16) hw h13)).2.1

end Lexicon

end ActorMachine
