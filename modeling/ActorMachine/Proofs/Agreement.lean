import ActorMachine.Proofs.Progress
import ActorMachine.Symbol

namespace ActorMachine

variable {α : Type} {h h' : Heap} {l l' : Lexicon} {roots : Roots}

namespace Heap

theorem Changes.rested (hc : h.Changes h') (hs : h.Sound) (hr : h.Rested) :
    h'.Sound ∧ h'.Rested := by
  cases hc with
  | take ht he =>
    obtain ⟨i, -, htake, -, hs'⟩ := hs.alloc he ht
    refine ⟨hs', hr.of_markLive hs ?_ (colors_alloc he)⟩
    rw [← htake.capacity]
    exact hs'.top_le
  | give he =>
    obtain ⟨-, ht, rfl, -, hs'⟩ := hs.free he
    exact ⟨hs', hr.reclaim hs ht⟩
  | write hu hw he =>
    obtain ⟨i, rfl, -, hset, -, hs'⟩ := hs.store he
    refine ⟨hs' hu ?_, hr.of_markLive hs ?_ (colors_store he)⟩
    · rename_i f
      cases f with
      | t => exact hw rfl
      | x | y | z => exact hu
    · rw [hset.top]
      exact hs.top_le
  | sealCells he =>
    obtain ⟨l, hf⟩ := hs.allocator
    rw [sealCells_ok hf he]
    exact ⟨hs.sealed, hr⟩

theorem Evolves.rested (he : h.Evolves h') (hs : h.Sound) (hr : h.Rested) :
    h'.Sound ∧ h'.Rested := by
  induction he with
  | refl => exact ⟨hs, hr⟩
  | tail _ hc ih => exact hc.rested ih.1 ih.2

end Heap

namespace Lexicon

theorem final_onHeap (act : HeapM α) (l : Lexicon) :
    final (onHeap act) l = { l with heap := final act l.heap } := by
  unfold final onHeap
  dsimp only
  cases act l.heap <;> rfl

theorem evolves_bind {β : Type} {act : HeapM α} {k : α → LexiconM β}
    (ha : l.heap.Evolves (final act l.heap))
    (hk : ∀ a (l' : Lexicon), l'.heap.Evolves (final (k a) l').heap) :
    l.heap.Evolves (final (onHeap act >>= k) l).heap := by
  refine final_bind (fun l l' => l.heap.Evolves l'.heap) Heap.Evolves.trans ?_ fun a l' _ => hk a l'
  rw [final_onHeap]
  exact ha

theorem evolves_query (f : Heap → Except Fault α) (h : Heap) :
    h.Evolves (final (Heap.query f) h) := by
  unfold final Heap.query
  cases f h <;> exact .refl h

theorem evolves_intern (chars : Word) (l : Lexicon) :
    l.heap.Evolves (final (intern chars) l).heap := by
  unfold intern
  refine evolves_bind (evolves_query _ _) fun hash l => ?_
  change l.heap.Evolves (final (onHeap (Heap.query fun h =>
    SymbolTable.find? h (.fix hash.toNat) chars (h.budget "symbol lookup")
    (l.table.bucket hash)) >>= _) l).heap
  refine evolves_bind (evolves_query _ _) fun found l => ?_
  cases found with
  | some sym => exact .refl _
  | none =>
    refine evolves_bind (.alloc (show Word.symbolT ≠ .freeT by decide)) fun sym l => ?_
    exact evolves_bind (.cons _ _) fun bucket l => .refl _

theorem evolves_internText (name : String) (l : Lexicon) :
    l.heap.Evolves (final (internText name) l).heap := by
  unfold internText
  refine evolves_bind (.prepend _ _) fun chars l => ?_
  refine final_bind (fun l l' : Lexicon => l.heap.Evolves l'.heap) Heap.Evolves.trans
    (evolves_intern chars l)
    fun sym l _ => ?_
  refine evolves_bind (evolves_query _ _) fun name l => ?_
  split
  · exact evolves_bind (.freeSpine chars) fun _ l => .refl _
  · exact .refl _

/-- Requests were made of a new heap, names were interned, and cycles of idle collectors have run to
their end, in any order. -/
inductive Tended : Lexicon → Prop
  | new (capacity sanity : Nat) : Tended ⟨(Heap.new capacity).withSanity sanity, .empty⟩
  | request {l : Lexicon} (r : Request) : Tended l → r.Lawful l.heap →
      Tended { l with heap := final r.run l.heap }
  | intern {l : Lexicon} (chars : Word) : Tended l → Tended (final (Lexicon.intern chars) l)
  | internText {l : Lexicon} (name : String) : Tended l → Tended (final (Lexicon.internText name) l)
  | enableColors {l : Lexicon} : Tended l → Tended { l with heap := l.heap.enableColors }
  | collect {l : Lexicon} (gc : Incremental) (roots : Roots) (r : Report) : Tended l →
    gc.phase = .flip →
      (gc.collect roots l.heap).1 = .ok r →
      Tended { l with heap := (gc.collect roots l.heap).2.heap }

end Lexicon

namespace Heap

theorem Rested.enableColors (hs : h.Sound) (hr : h.Rested) :
    h.enableColors.Sound ∧ h.enableColors.Rested ∧ h.enableColors.colors.isSome = true := by
  cases hc : h.colors with
  | some m =>
    have hsome : h.colors.isSome = true := by rw [hc]; rfl
    rw [enableColors_eq hsome]
    exact ⟨hs, hr, hsome⟩
  | none =>
    obtain ⟨l, hf⟩ := hs.allocator
    exact ⟨sound_enableColors hf hc, rested_enableColors hf.top_le hc,
      (lit_enableColors hf.top_le hc 0).1⟩

end Heap

namespace Incremental

variable {gc : Incremental} {r : Report} {t : Turn Incremental}

theorem completes_collect (hs : h.Sound) (hr : h.Rested) (hp : gc.phase = .flip)
    (hc : gc.collect roots h = (.ok r, t)) :
    r = report t.heap ∧ t.collector.stride = gc.stride ∧ Completes roots h.enableColors t := by
  obtain ⟨hs', hr', hcolor⟩ := hr.enableColors hs
  unfold collect at hc
  rw [if_pos hp] at hc
  have hu : Underway roots h.enableColors { collector := gc, heap := h.enableColors } := by
    unfold Underway
    rw [hp]
  exact hu.stepUntil hs' hcolor hr' hc

theorem collect_ok (hs : h.Sound) (hr : h.Rested) (hstride : 1 ≤ gc.stride)
    (hsymbols : roots.symbols.size ≤ 256) :
    ∃ r t, gc.collect roots h = (.ok r, t) := by
  obtain ⟨hs', -, hcolor⟩ := hr.enableColors hs
  obtain ⟨t, he, -⟩ := finishes_collect (hs'.tracked hcolor) hstride roots hsymbols
  exact ⟨report t.heap, t, he⟩

end Incremental

theorem Lexicon.Tended.rested (hl : l.Tended) : l.heap.Sound ∧ l.heap.Rested := by
  induction hl with
  | new capacity sanity =>
    have hnone : ((Heap.new capacity).withSanity sanity).colors = none := rfl
    exact ⟨⟨⟨[], Heap.freeList_new capacity sanity⟩, fun m hm => by cases hnone.symm.trans hm⟩,
      fun m hm => by cases hnone.symm.trans hm⟩
  | request r _ hr ih =>
    obtain ⟨free, hf⟩ := ih.1.allocator
    exact (r.evolves hr hf).rested ih.1 ih.2
  | intern chars _ ih => exact (Lexicon.evolves_intern chars _).rested ih.1 ih.2
  | internText name _ ih => exact (Lexicon.evolves_internText name _).rested ih.1 ih.2
  | enableColors _ ih =>
    obtain ⟨hs, hr, -⟩ := ih.2.enableColors ih.1
    exact ⟨hs, hr⟩
  | collect gc roots r _ hp hr ih =>
    obtain ⟨-, -, hc⟩ := Incremental.completes_collect ih.1 ih.2 hp (Prod.ext hr rfl)
    exact ⟨hc.clears.sound, hc.rested⟩

theorem MarkSweep.free_iff (gc : MarkSweep) (roots : Roots) {free : List Nat} (hf : h.FreeList free)
    {i : Nat} :
    ((gc.collect roots h).2.heap.cellAt i).t = .freeT ↔ (h.cellAt i).t = .freeT ∨
      h.Garbage roots i := by
  have hs := swept_markAndSweep gc roots false hf
  by_cases hdead : i ∈ unmarked (gc.markAndSweep roots false h).2.collector.marks h
  · obtain ⟨h1, h2, h3⟩ := (mem_dead gc roots false hf).1 hdead
    refine iff_of_true (hs.freed i hdead) ?_
    by_cases hu : (h.cellAt i).t = .freeT
    · exact .inl hu
    · exact .inr ⟨h1, h2, hu, h3⟩
  · have hcell : (gc.collect roots h).2.heap.cellAt i = h.cellAt i := hs.kept i hdead
    rw [hcell]
    refine (or_iff_left fun hg => hdead ?_).symm
    exact (mem_dead gc roots false hf).2 ⟨hg.1, hg.2.1, hg.2.2.2⟩

namespace Heap

theorem FreeList.perm {free free' : List Nat} (hf : h.FreeList free) (hf' : h'.FreeList free')
    (hp : h'.permanent = h.permanent) (ht : h'.top = h.top)
    (hfree : ∀ i, (h'.cellAt i).t = .freeT ↔ (h.cellAt i).t = .freeT) : free'.Perm free := by
  refine (List.perm_ext_iff_of_nodup hf'.chain.nodup hf.chain.nodup).2 fun i => ?_
  rw [hf'.mem_iff, hf.mem_iff, hp, ht, hfree]

theorem reach_enableColors {i : Nat} : h.enableColors.Reach roots i ↔ h.Reach roots i :=
  ⟨Reach.congr h.top_enableColors.symm h.permanent_enableColors.symm fun j _ =>
    (h.cellAt_enableColors j).symm, Reach.congr h.top_enableColors h.permanent_enableColors
    fun j _ => h.cellAt_enableColors j⟩

end Heap

/-- A complete cycle of an idle incremental collector and a mark and sweep reclaim the same cells of
a heap and give the same report, whatever happened to the heap before. The cycle changes no other
cell, and leaves the collector idle. -/
theorem Lexicon.Tended.collectors_agree (hl : l.Tended) (gc : Incremental) (hp : gc.phase = .flip)
    (hstride : 1 ≤ gc.stride) (roots : Roots) (hsymbols : roots.symbols.size ≤ 256)
    (ms : MarkSweep) :
    ∃ t, gc.collect roots l.heap = (.ok (ms.collect roots l.heap).1, t) ∧
      (∀ i, (t.heap.cellAt i).t = .freeT ↔ ((ms.collect roots l.heap).2.heap.cellAt i).t = .freeT) ∧
      (∀ i, (l.heap.cellAt i).t = .freeT ∨ (t.heap.cellAt i).t ≠ .freeT →
        t.heap.cellAt i = l.heap.cellAt i) ∧
      (∃ free free', t.heap.Chain .z t.heap.freeHead free ∧
        (ms.collect roots l.heap).2.heap.Chain .z (ms.collect roots l.heap).2.heap.freeHead free' ∧
        free.Perm free') ∧
      t.heap.top = l.heap.top ∧ t.heap.permanent = l.heap.permanent ∧
      t.collector.phase = .flip ∧ t.collector.stride = gc.stride := by
  obtain ⟨hs, hr⟩ := hl.rested
  obtain ⟨_, hf⟩ := hs.allocator
  obtain ⟨r, t, hok⟩ := Incremental.collect_ok hs hr hstride hsymbols
  obtain ⟨rfl, hsame, hc⟩ := Incremental.completes_collect hs hr hp hok
  have htop : t.heap.top = l.heap.top := hc.clears.top.trans l.heap.top_enableColors
  have hperm : t.heap.permanent = l.heap.permanent :=
    hc.clears.permanent.trans l.heap.permanent_enableColors
  have hgarbage : ∀ i, l.heap.enableColors.Garbage roots i ↔ l.heap.Garbage roots i := by
    intro i
    unfold Heap.Garbage
    rw [l.heap.permanent_enableColors, l.heap.top_enableColors, l.heap.cellAt_enableColors,
      Heap.reach_enableColors]
  have hfree : ∀ i, (t.heap.cellAt i).t = .freeT ↔
      ((ms.collect roots l.heap).2.heap.cellAt i).t = .freeT := by
    intro i
    rw [ms.free_iff roots hf, hc.free_iff, l.heap.cellAt_enableColors, hgarbage]
  have hswept := MarkSweep.swept_markAndSweep ms roots false hf
  have hlist := MarkSweep.freeList_markAndSweep ms roots false hf
  obtain ⟨free, hf'⟩ := hc.clears.sound.allocator
  have hp' : free.Perm _ := hlist.perm hf' (hperm.trans hswept.permanent.symm)
    (htop.trans hswept.top.symm) hfree
  refine ⟨t, ?_, hfree, fun i hi => ?_, ⟨free, _, hf'.chain, hlist.chain, hp'⟩, htop, hperm,
    hc.phase, hsame⟩
  · rw [hok]
    have hmarked : (Incremental.report t.heap).marked = (ms.collect roots l.heap).1.marked := by
      have hset : {i | l.heap.enableColors.Reach roots i} = {i | l.heap.Reach roots i} :=
        Set.ext fun i => Heap.reach_enableColors
      rw [hc.marked_report (by rw [l.heap.permanent_enableColors,
        l.heap.top_enableColors]; exact hf.permanent_le), hset]
      exact (MarkSweep.marked_markAndSweep ms roots false hf).symm
    have hcount : t.heap.freeCount = (ms.collect roots l.heap).2.heap.freeCount :=
      hf'.count.trans (hp'.length_eq.trans hlist.count.symm)
    have hreport : Incremental.report t.heap =
        ⟨t.heap.top, (Incremental.report t.heap).marked, t.heap.freeCount⟩ := rfl
    rw [hreport, htop.trans hswept.top.symm, hmarked, hcount]
    rfl
  · obtain he | ⟨he, -, -, hg, -⟩ := hc.clears.cell i
    · rw [he, l.heap.cellAt_enableColors]
    · rw [l.heap.cellAt_enableColors] at hg
      exact absurd he (hi.resolve_left hg)

theorem Lexicon.Tended.collectors_agree_again : ∃ l : Lexicon, l.Tended ∧ ∀ ms : MarkSweep,
    let (report, turn) := ms.collect { symbols := #[.ref 16], pinned := #[.ref 18] } l.heap
    report = ⟨19, 18, 1⟩ ∧ (turn.heap.cellAt 17).t = .freeT := by
  -- A list is sealed, a symbol is made, a cycle is completed, and then two pairs are taken of which
  -- only the second is pinned. Both collectors reclaim the first one, and find the same cells in
  -- use.
  have h₁ : Tended _ :=
    .intern .nil (.request .sealCells (.request (.list [.fix 1, .fix 2]) (.new 24 24) trivial)
    trivial)
  have h₂ : Tended _ := .collect { Incremental.ofConfig {} with stride := 3 }
    { pinned := #[.ref 16] } ⟨17, 17, 0⟩
    h₁ rfl (by decide +kernel)
  have h₃ : Tended _ :=
    .request (.cons (.fix 2) .nil) (.request (.cons (.fix 1) .nil) h₂ trivial) trivial
  have h₄ : ∃ l : Lexicon, l.Tended ∧
      ((Incremental.ofConfig {}).collect
        { symbols := #[.ref 16], pinned := #[.ref 18] } l.heap).1 = .ok ⟨19, 18, 1⟩ ∧
      (((Incremental.ofConfig {}).collect
        { symbols := #[.ref 16], pinned := #[.ref 18] } l.heap).2.heap.cellAt 17).t = .freeT :=
    ⟨_, h₃, by decide +kernel, by decide +kernel⟩
  obtain ⟨l, hl, hreport, hcell⟩ := h₄
  refine ⟨l, hl, fun ms => ?_⟩
  obtain ⟨t, ht, hfree, -⟩ := hl.collectors_agree (.ofConfig {}) rfl (by decide)
    { symbols := #[.ref 16], pinned := #[.ref 18] } (by simp) ms
  rw [ht] at hreport hcell
  exact ⟨Except.ok.inj hreport, (hfree 17).1 hcell⟩

end ActorMachine
