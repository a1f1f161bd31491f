import ActorMachine.Proofs.Success

namespace ActorMachine

open Heap

namespace Heap

variable {h h' : Heap} {I I' S S' : List (Nat × Cell)} {i : Nat} {c : Cell} {f : Field}
  {t v w : Word}

theorem lit_nil (h : Heap) : h.Lit .nil := by
  rintro cm - j hj (hn | hn) <;> cases hn
  exact absurd hj (by decide)

/-- Cells in use are listed with their contents: all permanent ones, those apart that are reserved,
and others. There is as much room as in the smallest heap with no more than these in it. -/
structure Shows (h : Heap) (I S : List (Nat × Cell)) : Prop where
  sound : h.Sound
  pristine : h.Pristine
  live : ∀ p ∈ I ++ S, h.Live p.1 ∧ h.cellAt p.1 = p.2
  reserved_le : ∀ p ∈ I ++ S, Word.reserved ≤ p.1
  nodup : ((I ++ S).map Prod.fst).Nodup
  permanent : ∀ p ∈ I, p.1 < h.permanent
  loose : ∀ p ∈ S, h.permanent ≤ p.1
  whole : h.permanent ≤ Word.reserved + I.length
  room : h.inUse + Config.minHeap ≤ h.capacity + Word.reserved + (I ++ S).length
  capacity : Config.minHeap ≤ h.capacity
  sanity : Config.minHeap ≤ h.sanity

namespace Shows

section Shows

variable (hs : h.Shows I S)

include hs

theorem cellAt (hp : (i, c) ∈ I ++ S) : h.cellAt i = c := (hs.live _ hp).2

theorem fetch_eq (hp : (i, c) ∈ I ++ S) (f : Field) : fetch (.ref i) f h = .ok (c.get f) h := by
  unfold fetch query
  dsimp only
  rw [field_ref (hs.live _ hp).1.1, hs.cellAt hp]

theorem hasType (hp : (i, c) ∈ I ++ S) (ht : c.t = t) : h.hasType t (.ref i) = true :=
  hasType_iff.2 ⟨i, rfl, (hs.live _ hp).1.1, by rw [hs.cellAt hp, ht]⟩

theorem isActor (hp : (i, c) ∈ I ++ S) (ht : c.t = .actorT) : h.isActor (.cap i) = true :=
  isActor_iff.2 ⟨i, rfl, (hs.live _ hp).1.1, by rw [hs.cellAt hp, ht]⟩

theorem perm (hp : S.Perm S') : h.Shows I S' := by
  have hall : (I ++ S).Perm (I ++ S') := hp.append_left I
  refine ⟨hs.sound, hs.pristine, fun p h => hs.live p (hall.mem_iff.2 h), fun p h =>
    hs.reserved_le p (hall.mem_iff.2 h), (hall.map _).nodup_iff.1 hs.nodup, hs.permanent, fun p h =>
    hs.loose p (hp.mem_iff.2 h), hs.whole, ?_, hs.capacity, hs.sanity⟩
  rw [← hall.length_eq]
  exact hs.room

theorem sets (hset : h.Sets i c h') (hsound : h'.Sound) (hi : Word.reserved ≤ i)
    (hc : c.t ≠ .freeT) (hI : I'.map Prod.fst = I.map Prod.fst)
    (hS : S'.map Prod.fst = S.map Prod.fst)
    (hp : ∀ p ∈ I' ++ S', p = (i, c) ∨ p ∈ I ++ S ∧ p.1 ≠ i) (hlive : h.Live i) :
    h'.Shows I' S' := by
  have hkeys : (I' ++ S').map Prod.fst = (I ++ S).map Prod.fst := by
    rw [List.map_append, List.map_append, hI, hS]
  have hlen : (I' ++ S').length = (I ++ S).length := by simpa using congrArg List.length hkeys
  have hlenI : I'.length = I.length := by simpa using congrArg List.length hI
  refine ⟨hsound, fun j hj => ?_, fun p h => ?_, fun p h => ?_, hkeys ▸ hs.nodup, fun p h => ?_,
    fun p h => ?_, ?_, ?_, hset.capacity ▸ hs.capacity, hset.sanity ▸ hs.sanity⟩
  · rw [hset.ne (by omega)]
    exact hs.pristine j hj
  · obtain rfl | ⟨h, hne⟩ := hp p h
    · exact ⟨⟨hset.top ▸ hlive.1, by rw [hset.self]; exact hc⟩, hset.self⟩
    · obtain ⟨hl, he⟩ := hs.live p h
      exact ⟨⟨hset.top ▸ hl.1, by rw [hset.ne hne]; exact hl.2⟩, by rw [hset.ne hne, he]⟩
  · obtain rfl | ⟨h, -⟩ := hp p h
    · exact hi
    · exact hs.reserved_le p h
  · obtain ⟨q, hq, he⟩ := List.mem_map.1 (hI ▸ List.mem_map_of_mem h)
    rw [hset.permanent, ← he]
    exact hs.permanent q hq
  · obtain ⟨q, hq, he⟩ := List.mem_map.1 (hS ▸ List.mem_map_of_mem h)
    rw [hset.permanent, ← he]
    exact hs.loose q hq
  · rw [hset.permanent, hlenI]
    exact hs.whole
  · rw [hset.inUse, hset.capacity, hlen]
    exact hs.room

theorem achieves_write (hmem : (i, c) ∈ I ++ S) (hw : f = .t → w ≠ .freeT)
    (hI : I'.map Prod.fst = I.map Prod.fst) (hS : S'.map Prod.fst = S.map Prod.fst)
    (hp : ∀ p ∈ I' ++ S', p = (i, c.set f w) ∨ p ∈ I ++ S ∧ p.1 ≠ i) :
    Achieves (store (.ref i) f w) h fun _ h' => h'.Shows I' S' ∧ h.Fades h' := by
  obtain ⟨hlive, hcell⟩ := hs.live _ hmem
  have hok : h.isCell (.ref i) = true := isCell_iff.2 ⟨i, rfl, hlive.1⟩
  obtain ⟨h', hr⟩ : ∃ h', store (.ref i) f w h = .ok () h' := ⟨_, by rw [store, if_pos hok]⟩
  refine ⟨(), h', hr, ?_⟩
  obtain ⟨j, hj, -, hset, hfade, hsound⟩ := hs.sound.store hr
  cases hj
  have hfree := hlive.set hw
  rw [hcell] at hset hfree hsound
  exact ⟨hs.sets hset (hsound (hcell ▸ hlive.2) hfree) (hs.reserved_le _ hmem) hfree hI hS hp hlive,
    hfade⟩

end Shows

theorem ne_of_mem (hs : h.Shows I ((i, c) :: S)) {p : Nat × Cell} (hp : p ∈ I ++ S) : p.1 ≠ i := by
  have hn := hs.nodup
  rw [(List.perm_middle.map _).nodup_iff, List.map_cons, List.nodup_cons] at hn
  exact fun he => hn.1 (List.mem_map.2 ⟨p, hp, he⟩)

theorem achieves_store (hs : h.Shows I ((i, c) :: S)) (hw : f = .t → w ≠ .freeT) :
    Achieves (store (.ref i) f w) h fun _ h' => h'.Shows I ((i, c.set f w) :: S) ∧ h.Fades h' := by
  refine hs.achieves_write (c := c) (by simp) hw rfl rfl fun p hp => ?_
  obtain rfl | hp := List.mem_cons.1 (List.perm_middle.mem_iff.1 hp)
  · exact .inl rfl
  · exact .inr ⟨List.perm_middle.mem_iff.2 (List.mem_cons_of_mem _ hp), hs.ne_of_mem hp⟩

theorem achieves_storeFirst (hs : h.Shows ((i, c) :: I) S) (hw : f = .t → w ≠ .freeT) :
    Achieves (store (.ref i) f w) h fun _ h' => h'.Shows ((i, c.set f w) :: I) S ∧ h.Fades h' := by
  refine hs.achieves_write (c := c) (by simp) hw rfl rfl fun p hp => ?_
  have hn := hs.nodup
  rw [List.cons_append, List.map_cons, List.nodup_cons] at hn
  obtain rfl | hp := List.mem_cons.1 hp
  · exact .inl rfl
  · exact .inr ⟨List.mem_cons_of_mem _ hp, fun he => hn.1 (List.mem_map.2 ⟨p, hp, he⟩)⟩

theorem achieves_alloc (hs : h.Shows I S) (hc : c.t ≠ .freeT)
    (hroom : Word.reserved + (I ++ S).length < Config.minHeap) :
    Achieves (alloc c) h fun v h' => ∃ i, v = .ref i ∧ h'.Shows I ((i, c) :: S) ∧ h.Fades h' ∧
      h'.Lit (.ref i) := by
  obtain ⟨l, hl⟩ := hs.sound.allocator
  obtain ⟨v, h', hr⟩ := hl.alloc_isOk (by have := hs.room; omega) c
  obtain ⟨i, rfl, htake, hfade, hsound⟩ := hs.sound.alloc hr hc
  have hmid : ∀ p, p ∈ I ++ (i, c) :: S ↔ p = (i, c) ∨ p ∈ I ++ S := fun p =>
    List.perm_middle.mem_iff.trans List.mem_cons
  have hne : ∀ p ∈ I ++ S, p.1 ≠ i := fun p hp he => htake.not_live (he ▸ (hs.live p hp).1)
  have hres : Word.reserved ≤ i := hl.reserved_le.trans htake.permanent_le
  refine ⟨_, h', hr, i, rfl, ⟨hsound, fun j hj => ?_, fun p hp => ?_, fun p hp => ?_, ?_,
    fun p hp => ?_, fun p hp => ?_, htake.permanent ▸ hs.whole, ?_, htake.capacity ▸ hs.capacity,
    htake.sanity ▸ hs.sanity⟩, hfade, htake.lit hs.sound hfade⟩
  · rw [htake.ne (by omega)]
    exact hs.pristine j hj
  · obtain rfl | hp := (hmid p).1 hp
    · exact ⟨⟨htake.lt_top, by rw [htake.self]; exact hc⟩, htake.self⟩
    · obtain ⟨hlive, he⟩ := hs.live p hp
      rw [Live, htake.ne (hne p hp)]
      exact ⟨⟨hlive.1.trans_le htake.top_le, hlive.2⟩, he⟩
  · obtain rfl | hp := (hmid p).1 hp
    · exact hres
    · exact hs.reserved_le p hp
  · rw [(List.perm_middle.map _).nodup_iff, List.map_cons, List.nodup_cons]
    refine ⟨fun hm => ?_, hs.nodup⟩
    obtain ⟨p, hp, he⟩ := List.mem_map.1 hm
    exact hne p hp he
  · exact htake.permanent ▸ hs.permanent p hp
  · rw [htake.permanent]
    obtain rfl | hp := List.mem_cons.1 hp
    · exact htake.permanent_le
    · exact hs.loose p hp
  · have := hs.room
    rw [hl.inUse_alloc hc hr, htake.capacity, List.perm_middle.length_eq, List.length_cons]
    omega

theorem achieves_free (hs : h.Shows I ((i, c) :: S)) :
    Achieves (free (.ref i)) h fun _ h' => h'.Shows I S ∧ h.Fades h' := by
  obtain ⟨l, hl⟩ := hs.sound.allocator
  have hperm : h.permanent ≤ i := hs.loose _ List.mem_cons_self
  obtain ⟨hlive, -⟩ := hs.live (i, c) (by simp)
  obtain ⟨hsound, hfade⟩ := hs.sound.reclaim hperm hlive.1 hlive.2
  have hmid : ∀ p ∈ I ++ S, p ∈ I ++ (i, c) :: S := fun p hp =>
    List.perm_middle.mem_iff.2 (List.mem_cons_of_mem _ hp)
  have hcell : ∀ j, j ≠ i → (h.reclaim i).cellAt j = h.cellAt j := fun j hj => by
    rw [cellAt_reclaim h (hlive.1.trans_le hs.sound.top_le), if_neg hj]
  refine ⟨(), h.reclaim i, free_eq (v := .ref _) hperm hlive,
    ⟨hsound, fun j hj => ?_, fun p hp => ?_, fun p hp => hs.reserved_le p (hmid p hp), ?_,
      hs.permanent, fun p hp => hs.loose p (List.mem_cons_of_mem _ hp), hs.whole, ?_, ?_,
      hs.sanity⟩, hfade⟩
  · rw [hcell j (by have := hl.reserved_le; omega)]
    exact hs.pristine j hj
  · obtain ⟨hl, he⟩ := hs.live p (hmid p hp)
    rw [Live, hcell _ (hs.ne_of_mem hp)]
    exact ⟨hl, he⟩
  · have hn := hs.nodup
    rw [(List.perm_middle.map _).nodup_iff, List.map_cons, List.nodup_cons] at hn
    exact hn.2
  · have hn := hs.room
    rw [← hl.inUse_reclaim hperm hlive, List.perm_middle.length_eq, List.length_cons] at hn
    rw [capacity_reclaim]
    omega
  · rw [capacity_reclaim]
    exact hs.capacity

theorem shade (hs : h.Shows I S) (v : Word) : (h.shade v).Shows I S := by
  refine ⟨(hs.sound.shade v).1, fun j hj => ?_, fun p hp => ?_, hs.reserved_le, hs.nodup,
    fun p hp => ?_, fun p hp => ?_, ?_, ?_, ?_, ?_⟩
  · rw [cellAt_shade]
    exact hs.pristine j hj
  · rw [Live, cellAt_shade, top_shade]
    exact hs.live p hp
  · exact permanent_shade h v ▸ hs.permanent p hp
  · exact permanent_shade h v ▸ hs.loose p hp
  · exact permanent_shade h v ▸ hs.whole
  · rw [inUse, top_shade, freeCount_shade, capacity_shade]
    exact hs.room
  · exact capacity_shade h v ▸ hs.capacity
  · exact sanity_shade h v ▸ hs.sanity

theorem achieves_put (hs : h.Shows I ((i, c) :: S)) :
    Achieves (Queue.empty.put (.ref i)) h fun q h' =>
      q = ⟨.ref i, .ref i⟩ ∧ h'.Shows I ((i, c.set .z .nil) :: S) ∧ h.Fades h' ∧
      h'.Lit (.ref i) := by
  unfold Queue.put
  refine (hs.achieves_store (f := .z) nofun).bind ?_
  rintro - h₁ ⟨hs₁, hf₁⟩
  exact ⟨_, _, rfl, rfl, hs₁.shade _, hf₁.trans (hs₁.sound.shade _).2, hs₁.sound.lit_shade _⟩

theorem achieves_putEvent {a : Nat} {cell : Cell} {y z : Word}
    (hs : h.Shows I ((i, ⟨.eventT, .cap a, y, z⟩) :: S)) (ha : (a, cell) ∈ I)
    (ht : cell.t = .actorT) :
    Achieves (Queue.empty.putEvent (.ref i)) h fun q h' => q = ⟨.ref i, .ref i⟩ ∧
      h'.Shows I ((i, ⟨.eventT, .cap a, y, .nil⟩) :: S) ∧ h.Fades h' ∧ h'.Lit (.ref i) := by
  have hi : (i, (⟨.eventT, .cap a, y, z⟩ : Cell)) ∈ I ++ (i, ⟨.eventT, .cap a, y, z⟩) :: S := by
    simp
  have hevent : h.isEvent (.ref i) = true := hs.hasType hi rfl
  have hactor : h.isActor (.cap a) = true := hs.isActor (List.mem_append_left _ ha) ht
  unfold Queue.putEvent
  rw [achieves_get_bind, hevent, Bool.not_true, if_neg Bool.false_ne_true,
    achieves_bind (hs.fetch_eq hi .x), achieves_get_bind]
  change Achieves (if (!h.isActor (.cap a)) = true then _ else _) h _
  rw [hactor, Bool.not_true, if_neg Bool.false_ne_true]
  exact hs.achieves_put

theorem achieves_unlink (hs : h.Shows I ((i, c) :: S)) (hz : c.z = .nil) :
    Achieves (Queue.pop ⟨.ref i, .ref i⟩) h fun r h' =>
      r = (some (.ref i), .empty) ∧ h'.Shows I ((i, c.set .z .nil) :: S) ∧ h.Fades h' := by
  have hi : Word.reserved ≤ i := hs.reserved_le (i, c) (by simp)
  have hne : Queue.isEmpty ⟨.ref i, .ref i⟩ = false := by
    simp only [Queue.isEmpty, Word.nil, Word.ref.injEq, decide_eq_false_iff_not]
    unfold Word.reserved at hi
    omega
  unfold Queue.pop
  rw [hne, if_neg Bool.false_ne_true, achieves_bind (hs.fetch_eq (c := c) (by simp) .z)]
  refine (hs.achieves_store (f := .z) (by simp)).bind ?_
  rintro - h₁ ⟨hs₁, hf₁⟩
  refine ⟨_, _, rfl, ?_, hs₁, hf₁⟩
  change (some (Word.ref i), (⟨c.z, if c.z = .nil then .nil else .ref i⟩ : Queue)) = _
  rw [hz, if_pos rfl]
  rfl

end Shows

end Heap

def Collector.margins : Collector → Option (Nat × Nat)
  | markSweep gc => if gc.automatic then some (gc.topMargin, gc.lowWater) else none
  | incremental _ => none

structure View where
  symbols : SymbolTable
  pinned : Array Word
  margins : Option (Nat × Nat)
  console : Console
  clock : Option Clock
  trace : Trace
  stats : Stats

def Machine.view (m : Machine) : View :=
  ⟨m.symbols, m.pinned, m.collector.margins, m.console, m.clock, m.trace, m.stats⟩

def View.tally (view : View) (g : Stats → Stats) : View := { view with stats := g view.stats }

structure Scene where
  image : List (Nat × Cell)
  cells : List (Nat × Cell)
  events : Queue
  threads : Queue
  view : View

namespace Machine

variable {m m' : Machine} {s : Scene} {I S S' : List (Nat × Cell)} {events threads : Queue}
  {view : View}
  {i t : Nat} {c : Cell} {f : Field} {ip sp y z v w : Word} {β : Type}

/-- The machine is as the scene says. The collector has seen the first event and the first
thread. -/
structure Shows (m : Machine) (s : Scene) : Prop where
  heap : m.heap.Shows s.image s.cells
  events : m.events = s.events
  threads : m.threads = s.threads
  view : m.view = s.view
  litEvents : m.heap.Lit s.events.head
  litThreads : m.heap.Lit s.threads.head

namespace Shows

theorem onHeap {h : Heap} (hs : m.Shows ⟨I, S, events, threads, view⟩) {J : List (Nat × Cell)}
    (hh : h.Shows J S') (hf : m.heap.Fades h) :
    ({ m with heap := h } : Machine).Shows ⟨J, S', events, threads, view⟩ :=
  ⟨hh, hs.events, hs.threads, hs.view, hf.lit hs.litEvents, hf.lit hs.litThreads⟩

theorem perm (hs : m.Shows ⟨I, S, events, threads, view⟩) (hp : S.Perm S') :
    m.Shows ⟨I, S', events, threads, view⟩ :=
  ⟨hs.heap.perm hp, hs.events, hs.threads, hs.view, hs.litEvents, hs.litThreads⟩

theorem note (hs : m.Shows s) (n : Notice) : ({ m with log := m.log.push n } : Machine).Shows s :=
  ⟨hs.heap, hs.events, hs.threads, hs.view, hs.litEvents, hs.litThreads⟩

theorem tally (hs : m.Shows ⟨I, S, events, threads, view⟩) (g : Stats → Stats) :
    (m.tally g).Shows ⟨I, S, events, threads, view.tally g⟩ :=
  ⟨hs.heap, hs.events, hs.threads, congrArg (View.tally · g) hs.view, hs.litEvents, hs.litThreads⟩

theorem achieves_noteDispatch (hs : m.Shows s) (n : Notice) :
    Achieves (noteDispatch n) m fun _ m' => m'.Shows s := by
  unfold noteDispatch
  rw [achieves_get_bind]
  cases m.config.traceDispatch with
  | false => exact ⟨(), m, rfl, hs⟩
  | true => exact ⟨(), _, rfl, hs.note n⟩

theorem fetch_eq (hs : m.Shows s) (hi : (i, c) ∈ s.image ++ s.cells) (f : Field) :
    (liftM (fetch (.ref i) f) : MachineM Word) m = .ok (c.get f) m := by
  rw [Machine.fetch_eq (hs.heap.live _ hi).1.1, hs.heap.cellAt hi]

theorem achieves_store (hs : m.Shows ⟨I, (i, c) :: S, events, threads, view⟩)
    (hw : f = .t → w ≠ .freeT) :
    Achieves (liftM (store (.ref i) f w) : MachineM Unit) m fun _ m' =>
      m'.Shows ⟨I, (i, c.set f w) :: S, events, threads, view⟩ :=
  achieves_onHeap ((hs.heap.achieves_store hw).mono fun _ _ h => hs.onHeap h.1 h.2)

theorem achieves_storeFirst (hs : m.Shows ⟨(i, c) :: I, S, events, threads, view⟩)
    (hw : f = .t → w ≠ .freeT) :
    Achieves (liftM (store (.ref i) f w) : MachineM Unit) m fun _ m' =>
      m'.Shows ⟨(i, c.set f w) :: I, S, events, threads, view⟩ :=
  achieves_onHeap ((hs.heap.achieves_storeFirst hw).mono fun _ _ h => hs.onHeap h.1 h.2)

theorem achieves_alloc (hs : m.Shows ⟨I, S, events, threads, view⟩) (hc : c.t ≠ .freeT)
    (hroom : Word.reserved + (I ++ S).length < Config.minHeap) :
    Achieves (liftM (alloc c) : MachineM Word) m fun v m' =>
      ∃ i, v = .ref i ∧ m'.Shows ⟨I, (i, c) :: S, events, threads, view⟩ := by
  refine achieves_onHeap ((hs.heap.achieves_alloc hc hroom).mono ?_)
  rintro - h ⟨i, rfl, hh, hf, -⟩
  exact ⟨i, rfl, hs.onHeap hh hf⟩

theorem achieves_free (hs : m.Shows ⟨I, (i, c) :: S, events, threads, view⟩) :
    Achieves (liftM (free (.ref i)) : MachineM Unit) m fun _ m' =>
      m'.Shows ⟨I, S, events, threads, view⟩ :=
  achieves_onHeap (hs.heap.achieves_free.mono fun _ _ h => hs.onHeap h.1 h.2)

theorem achieves_putThread (hs : m.Shows ⟨I, (i, c) :: S, events, .empty, view⟩) :
    Achieves (putThread (.ref i)) m fun _ m' =>
      m'.Shows ⟨I, (i, c.set .z .nil) :: S, events, ⟨.ref i, .ref i⟩, view⟩ := by
  have hput : Achieves (liftM (m.threads.put (.ref i)) : MachineM Queue) m fun q m' =>
      ({ m' with threads := q } : Machine).Shows
        ⟨I, (i, c.set .z .nil) :: S, events, ⟨.ref i, .ref i⟩, view⟩ := by
    rw [hs.threads]
    refine achieves_onHeap (hs.heap.achieves_put.mono ?_)
    rintro - h ⟨rfl, hh, hf, hlit⟩
    exact ⟨hh, hs.events, rfl, hs.view, hf.lit hs.litEvents, hlit⟩
  exact hput.bind fun _ _ h => ⟨_, _, rfl, h⟩

theorem achieves_popThread (hs : m.Shows ⟨I, (i, c) :: S, events, ⟨.ref i, .ref i⟩, view⟩)
    (hz : c.z = .nil) :
    Achieves popThread m fun v m' =>
      v = some (.ref i) ∧ m'.Shows ⟨I, (i, c.set .z .nil) :: S, events, .empty, view⟩ := by
  have hpop : Achieves (liftM m.threads.pop : MachineM (Option Word × Queue)) m fun r m' =>
    r.1 = some (.ref i) ∧
      ({ m' with threads := r.2 } : Machine).Shows ⟨I, (i, c.set .z .nil) :: S, events, .empty,
        view⟩ := by
    rw [hs.threads]
    refine achieves_onHeap ((hs.heap.achieves_unlink hz).mono ?_)
    rintro - h ⟨rfl, hh, hf⟩
    exact ⟨rfl, hh, hs.events, rfl, hs.view, hf.lit hs.litEvents, lit_nil _⟩
  exact hpop.bind fun _ _ h => ⟨_, _, rfl, h⟩

theorem achieves_putEvent {a : Nat} {cell : Cell}
    (hs : m.Shows ⟨I, (i, ⟨.eventT, .cap a, y, z⟩) :: S, .empty, threads, view⟩)
    (ha : (a, cell) ∈ I) (ht : cell.t = .actorT) :
    Achieves (putEvent (.ref i)) m fun _ m' =>
      m'.Shows ⟨I, (i, ⟨.eventT, .cap a, y, .nil⟩) :: S, ⟨.ref i, .ref i⟩, threads, view⟩ := by
  have hput : Achieves (liftM (m.events.putEvent (.ref i)) : MachineM Queue) m fun q m' =>
      ({ m' with events := q } : Machine).Shows
        ⟨I, (i, ⟨.eventT, .cap a, y, .nil⟩) :: S, ⟨.ref i, .ref i⟩, threads, view⟩ := by
    rw [hs.events]
    refine achieves_onHeap ((hs.heap.achieves_putEvent ha ht).mono ?_)
    rintro - h ⟨rfl, hh, hf, hlit⟩
    exact ⟨hh, rfl, hs.threads, hs.view, hlit, hf.lit hs.litThreads⟩
  exact hput.bind fun _ _ h => ⟨_, _, rfl, h⟩

theorem achieves_popEvent (hs : m.Shows ⟨I, (i, c) :: S, ⟨.ref i, .ref i⟩, threads, view⟩)
    (hz : c.z = .nil) :
    Achieves popEvent m fun v m' =>
      v = some (.ref i) ∧ m'.Shows ⟨I, (i, c.set .z .nil) :: S, .empty, threads, view⟩ := by
  have hpop : Achieves (liftM m.events.pop : MachineM (Option Word × Queue)) m fun r m' =>
    r.1 = some (.ref i) ∧
      ({ m' with events := r.2 } : Machine).Shows ⟨I, (i, c.set .z .nil) :: S, .empty, threads,
        view⟩ := by
    rw [hs.events]
    refine achieves_onHeap ((hs.heap.achieves_unlink hz).mono ?_)
    rintro - h ⟨rfl, hh, hf⟩
    exact ⟨rfl, hh, rfl, hs.threads, hs.view, lit_nil _, hf.lit hs.litThreads⟩
  exact hpop.bind fun _ _ h => ⟨_, _, rfl, h⟩

section Shows

variable (hs : m.Shows ⟨I, (t, ⟨ip, sp, y, z⟩) :: S, events, ⟨.ref t, w⟩, view⟩)

include hs

theorem stack_eq : stack m = .ok sp m := by
  have ht : thread m = .ok (.ref t) m := by
    change EStateM.Result.ok m.threads.head m = _
    rw [hs.threads]
  unfold stack
  rw [run_bind ht]
  exact hs.fetch_eq (c := ⟨ip, sp, y, z⟩) (by simp) .x

theorem achieves_setStack (v : Word) : Achieves (setStack v) m fun _ m' =>
      m'.Shows ⟨I, (t, ⟨ip, v, y, z⟩) :: S, events, ⟨.ref t, w⟩, view⟩ := by
  have ht : thread m = .ok (.ref t) m := by
    change EStateM.Result.ok m.threads.head m = _
    rw [hs.threads]
  unfold setStack
  rw [achieves_bind ht]
  exact hs.achieves_store (f := .x) nofun

theorem achieves_push (v : Word)
    (hroom : Word.reserved + (I ++ (t, (⟨ip, sp, y, z⟩ : Cell)) :: S).length < Config.minHeap) :
    Achieves (push v) m fun _ m' => ∃ p, m'.Shows
      ⟨I, (t, ⟨ip, .ref p, y, z⟩) :: (p, ⟨.pairT, v, sp, .undefined⟩) :: S, events, ⟨.ref t, w⟩,
        view⟩ := by
  unfold push cons
  rw [achieves_bind hs.stack_eq]
  refine (hs.achieves_alloc (c := ⟨.pairT, v, sp, .undefined⟩) nofun hroom).bind ?_
  rintro - m₁ ⟨p, rfl, hs₁⟩
  exact ((hs₁.perm (.swap _ _ _)).achieves_setStack _).mono fun _ _ h => ⟨p, h⟩

end Shows

theorem achieves_pop {p : Nat} {u : Word}
    (hs : m.Shows ⟨I, (t, ⟨ip, .ref p, y, z⟩) :: (p, ⟨.pairT, v, sp, u⟩) :: S, events,
      ⟨.ref t, w⟩, view⟩) :
    Achieves pop m fun r m' => r = v ∧
      m'.Shows ⟨I, (t, ⟨ip, sp, y, z⟩) :: S, events, ⟨.ref t, w⟩, view⟩ := by
  have hp : (p, (⟨.pairT, v, sp, u⟩ : Cell)) ∈
      I ++ (t, ⟨ip, .ref p, y, z⟩) :: (p, ⟨.pairT, v, sp, u⟩) :: S := by simp
  have hpair : m.heap.isPair (.ref p) = true := hs.heap.hasType hp rfl
  have hcell : m.heap.cellAt p = ⟨.pairT, v, sp, u⟩ := hs.heap.cellAt hp
  have hcar : m.heap.car (.ref p) = v := by
    rw [car, if_pos hpair]
    exact congrArg Cell.x hcell
  have hcdr : m.heap.cdr (.ref p) = sp := by
    rw [cdr, if_pos hpair]
    exact congrArg Cell.y hcell
  unfold pop
  rw [achieves_bind hs.stack_eq, achieves_look_bind, if_pos hpair, achieves_look_bind,
    achieves_look_bind, hcar, hcdr]
  refine (hs.achieves_setStack sp).bind fun _ m₁ hs₁ => ?_
  exact (hs₁.perm (.swap _ _ _)).achieves_free.bind fun _ m₂ hs₂ => ⟨_, _, rfl, rfl, hs₂⟩

end Shows

end Machine

end ActorMachine
