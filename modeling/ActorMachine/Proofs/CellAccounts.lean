import ActorMachine.Proofs.Conservation
import ActorMachine.Proofs.Operand
/-! What the transactions keep in use. Between two rounds each cell that was taken since the machine
was idle is an event that waits, a thread with its event, an operand, or an event that an actor
withholds. Main statement: as long as the instructions make nothing that outlives a transaction, the
count of cells in use is the count of these, so that nothing is lost. -/

namespace ActorMachine

open Heap

open Machine

variable {h h' : Heap} {m m' : Machine} {F : Nat → Prop} {i t e a : Nat} {l q line own : List Nat}

/-- An actor withholds the events that it has sent, newest first. -/
structure Heap.Withholds (h : Heap) (a : Nat) (l : List Nat) : Prop where
  actor : h.isActor (.cap a) = true
  chain : h.Chain .z (h.cellAt a).z l
  events : ∀ i ∈ l, h.isEvent (.ref i) = true

/-- A transaction: its thread and its event, the pairs of its stack, and what its actor
withholds. -/
structure Job where
  thread : Nat
  event : Nat
  actor : Nat
  stack : List Nat
  sends : List Nat

namespace Job

variable {j : Job}

def cells (j : Job) : List Nat := j.thread :: j.event :: (j.stack ++ j.sends)

/-- The thread handles its event, and the event asks for nothing to become. -/
structure Sits (j : Job) (h : Heap) : Prop where
  link : (h.cellAt j.thread).y = .ref j.event
  pairs : h.Pairs (h.cellAt j.thread).x j.stack
  target : (h.cellAt j.event).x = .cap j.actor
  bare : (h.cellAt j.event).z = .nil

structure Stands (j : Job) (h : Heap) : Prop where
  sits : j.Sits h
  withholds : h.Withholds j.actor j.sends

end Job

theorem Heap.isEvent_congr (ht : h.top ≤ h'.top) (hi : (h'.cellAt i).t = (h.cellAt i).t)
    (he : h.isEvent (.ref i) = true) : h'.isEvent (.ref i) = true := by
  obtain ⟨k, hk, hlt, hty⟩ := hasType_iff.1 he
  cases hk
  exact hasType_iff.2 ⟨i, rfl, Nat.lt_of_lt_of_le hlt ht, hi.trans hty⟩

theorem Heap.Withholds.congr (hw : h.Withholds a l) (ht : h.top ≤ h'.top)
    (ha : h'.cellAt a = h.cellAt a)
    (hl : ∀ i ∈ l, h'.cellAt i = h.cellAt i) : h'.Withholds a l := by
  obtain ⟨k, hk, hlt, hty⟩ := isActor_iff.1 hw.actor
  cases hk
  refine ⟨isActor_iff.2 ⟨a, rfl, Nat.lt_of_lt_of_le hlt ht, ha ▸ hty⟩, ?_, fun i hi => ?_⟩
  · rw [ha]
    exact hw.chain.congr fun i hi => by rw [hl i hi]
  · exact isEvent_congr ht (by rw [hl i hi]) (hw.events i hi)

theorem Job.Stands.congr {j : Job} (hj : j.Stands h) (ht : h.top ≤ h'.top)
    (hx : (h'.cellAt j.thread).x = (h.cellAt j.thread).x)
    (hy : (h'.cellAt j.thread).y = (h.cellAt j.thread).y)
    (hrest : ∀ i ∈ j.event :: (j.stack ++ j.sends), h'.cellAt i = h.cellAt i)
    (ha : h'.cellAt j.actor = h.cellAt j.actor) : j.Stands h' := by
  have he := hrest j.event List.mem_cons_self
  refine ⟨⟨hy.trans hj.sits.link, ?_, he ▸ hj.sits.target, he ▸ hj.sits.bare⟩,
    hj.withholds.congr ht ha fun i hi => hrest i (by simp [hi])⟩
  rw [hx]
  refine ⟨hj.sits.pairs.1.congr fun i hi => by rw [hrest i (by simp [hi])], fun i hi => ?_⟩
  obtain ⟨k, hk, hlt, hty⟩ := isPair_iff.1 (hj.sits.pairs.2 i hi)
  cases hk
  exact isPair_iff.2 ⟨i, rfl, Nat.lt_of_lt_of_le hlt ht, by rw [hrest i (by simp [hi]), hty]⟩

/-- Everything that the cells taken are in use for: cells that are on their way, events that wait,
the line of the threads, the transactions, and the actors that have stopped with what they
withhold. -/
structure Stock where
  own : List Nat
  queue : List Nat
  line : List Nat
  jobs : List Job
  halts : List (Nat × List Nat)

namespace Stock

def cells (s : Stock) : List Nat :=
  s.own ++ (s.queue ++ (s.jobs.flatMap Job.cells ++ s.halts.flatMap Prod.snd))

def actors (s : Stock) : List Nat := s.jobs.map Job.actor ++ s.halts.map Prod.fst

end Stock

def Collector.isManual : Collector → Bool
  | markSweep gc => !gc.automatic
  | incremental _ => false

/-- The books agree with the machine: each of the cells is there once, and their count is that of
the cells in use beyond the base, with those of the actors that have been released. -/
structure Books (base released : Nat) (s : Stock) (m : Machine) : Prop where
  sound : m.heap.Sound
  pristine : m.heap.Pristine
  manual : m.collector.isManual = true
  nodup : s.cells.Nodup
  loose : ∀ i ∈ s.cells, m.heap.permanent ≤ i ∧ m.heap.Live i ∧ (m.heap.cellAt i).t ≠ .actorT
  actors : s.actors.Nodup
  events : ∀ i ∈ s.queue, m.heap.isEvent (.ref i) = true
  threads : ∀ i ∈ s.line, i ∈ s.own ∨ i ∈ s.jobs.map Job.thread
  jobs : ∀ j ∈ s.jobs, j.Stands m.heap
  halts : ∀ k ∈ s.halts, m.heap.Withholds k.1 k.2
  waiting : m.Waiting s.queue
  lined : m.Lined s.line
  balance : m.heap.inUse + released = base + s.cells.length

theorem Job.thread_not_mem {js : List Job} (hn : (js.flatMap Job.cells).Nodup) {j k : Job}
    (hj : j ∈ js) (hk : k ∈ js) :
    j.thread ∉ k.event :: (k.stack ++ k.sends) := by
  induction js with
  | nil => cases hj
  | cons i js ih =>
    obtain ⟨hself, hrest, hdis⟩ := List.nodup_append.1 hn
    intro hmem
    obtain rfl | hj' := List.mem_cons.1 hj
    · obtain rfl | hk' := List.mem_cons.1 hk
      · exact (List.nodup_cons.1 hself).1 hmem
      · exact hdis _ List.mem_cons_self _ (List.mem_flatMap.2 ⟨k, hk',
          List.mem_cons_of_mem _ hmem⟩) rfl
    · obtain rfl | hk' := List.mem_cons.1 hk
      · exact hdis _ (List.mem_cons_of_mem _ hmem) _
          (List.mem_flatMap.2 ⟨j, hj', List.mem_cons_self⟩) rfl
      · exact ih hrest hj' hk' hmem

theorem Heap.Relinks.inUse (hr : h.Relinks l h') (hs : h.Sound) : h'.inUse = h.inUse := by
  obtain ⟨k, hf⟩ := hs.allocator
  obtain ⟨k', hf'⟩ := hr.sound.allocator
  have hperm : k'.Perm k := (List.perm_ext_iff_of_nodup hf'.chain.nodup hf.chain.nodup).2
      fun i => by
    rw [hf'.mem_iff, hf.mem_iff, hr.permanent, hr.top, hr.t]
  unfold Heap.inUse
  rw [hr.top, hf'.count, hf.count, hperm.length_eq]

theorem Heap.Relinks.pairs {w : Word} {k : List Nat} (hr : h.Relinks l h') (hp : h.Pairs w k) :
    h'.Pairs w k := by
  refine ⟨hp.1.congr fun i _ => hr.fields (by decide) i, fun i hi => ?_⟩
  obtain ⟨c, hc, hlt, hty⟩ := isPair_iff.1 (hp.2 i hi)
  cases hc
  exact isPair_iff.2 ⟨i, rfl, hr.top ▸ hlt, by rw [hr.t, hty]⟩

namespace Books

variable {B n n' : Nat} {s : Stock} {js : List Job} {ks : List (Nat × List Nat)}
  {own' q' line' : List Nat}

section Books

variable (hb : Books B n s m)

include hb

theorem of_eq (hh : m'.heap = m.heap) (he : m'.events = m.events) (ht : m'.threads = m.threads)
    (hc : m'.collector = m.collector) : Books B n s m' := by
  have hw : m'.Waiting s.queue := by
    unfold Waiting
    rw [hh, he]
    exact hb.waiting
  have hl : m'.Lined s.line := by
    unfold Lined
    rw [hh, ht]
    exact hb.lined
  exact ⟨hh ▸ hb.sound, hh ▸ hb.pristine, hc ▸ hb.manual, hb.nodup, hh ▸ hb.loose, hb.actors,
    hh ▸ hb.events, hb.threads, hh ▸ hb.jobs, hh ▸ hb.halts, hw, hl, hh ▸ hb.balance⟩

theorem quiet (hq : Quiet m m') : Books B n s m' :=
  hb.of_eq hq.heap hq.events hq.threads hq.collector

theorem tally (f : Stats → Stats) : Books B n s (m.tally f) := hb.of_eq rfl rfl rfl rfl

theorem reserved_le (hi : i ∈ s.cells) : Word.reserved ≤ i := by
  obtain ⟨k, hf⟩ := hb.sound.allocator
  exact Nat.le_trans hf.reserved_le (hb.loose i hi).1

theorem actor (ha : a ∈ s.actors) : m.heap.Live a ∧ (m.heap.cellAt a).t = .actorT := by
  have hactor : m.heap.isActor (.cap a) = true := by
    obtain h | h := List.mem_append.1 ha
    · obtain ⟨j, hj, rfl⟩ := List.mem_map.1 h
      exact (hb.jobs j hj).withholds.actor
    · obtain ⟨k, hk, rfl⟩ := List.mem_map.1 h
      exact (hb.halts k hk).actor
  obtain ⟨k, hk, hlt, ht⟩ := isActor_iff.1 hactor
  cases hk
  exact ⟨⟨hlt, by rw [ht]; decide⟩, ht⟩

theorem mem_cells (hi : i ∈ s.own ∨ i ∈ s.queue ∨ i ∈ s.line) : i ∈ s.cells := by
  have hjob : i ∈ s.jobs.map Job.thread → i ∈ s.jobs.flatMap Job.cells := fun h => by
    obtain ⟨j, hj, rfl⟩ := List.mem_map.1 h
    exact List.mem_flatMap.2 ⟨j, hj, List.mem_cons_self⟩
  unfold Stock.cells
  obtain h | h | h := hi
  · exact List.mem_append_left _ h
  · exact List.mem_append_right _ (List.mem_append_left _ h)
  · obtain h | h := hb.threads i h
    · exact List.mem_append_left _ h
    · exact List.mem_append_right _ (List.mem_append_right _ (List.mem_append_left _ (hjob h)))

theorem not_thread (hi : i ∈ s.own) : i ∉ s.jobs.map Job.thread := fun h => by
  obtain ⟨j, hj, rfl⟩ := List.mem_map.1 h
  refine (List.nodup_append.1 hb.nodup).2.2 _ hi _
    (List.mem_append_right _ (List.mem_append_left _ ?_)) rfl
  exact List.mem_flatMap.2 ⟨j, hj, List.mem_cons_self⟩

end Books

theorem step (hb : Books B n ⟨own, q, line, js, ks⟩ m) (hu : Untouched m m')
    (ht : m.heap.Tends F m'.heap) (hF : ∀ i, m.heap.Live i → F i →
      i ∈ own ∨ (m.heap.cellAt i).t = .actorT ∧ i ∉ Stock.actors ⟨own, q, line, js, ks⟩)
    (hown : own'.Nodup)
    (hnew : ∀ i ∈ own', (i ∈ own ∨ ¬ m.heap.Live i) ∧ m.heap.permanent ≤ i ∧ m'.heap.Live i ∧
      (m'.heap.cellAt i).t ≠ .actorT)
    (hline : ∀ i ∈ line, i ∈ own → i ∈ own' ∧ (m'.heap.cellAt i).z = (m.heap.cellAt i).z)
    (huse : m'.heap.inUse + n' + own.length = m.heap.inUse + n + own'.length) :
    Books B n' ⟨own', q, line, js, ks⟩ m' := by
  -- An action on cells that are on their way, on fresh cells and on idle actors leaves the rest as
  -- it is.
  obtain ⟨hnd, hndr, hdis⟩ := List.nodup_append.1 hb.nodup
  have hsame : ∀ i ∈ q ++ (js.flatMap Job.cells ++ ks.flatMap Prod.snd),
      m'.heap.cellAt i = m.heap.cellAt i ∧ m'.heap.Live i := by
    intro i hi
    obtain ⟨-, hlive, hty⟩ := hb.loose i (List.mem_append_right _ hi)
    have hn : ¬ F i := fun hf => by
      obtain h | ⟨h, -⟩ := hF i hlive hf
      · exact hdis i h i hi rfl
      · exact hty h
    exact ⟨ht.same hlive hn, ht.live hlive hn⟩
  have hactor : ∀ i ∈ Stock.actors ⟨own, q, line, js, ks⟩, m'.heap.cellAt i = m.heap.cellAt i := by
    intro i hi
    obtain ⟨hlive, hty⟩ := hb.actor hi
    refine ht.same hlive fun hf => ?_
    obtain h | ⟨-, h⟩ := hF i hlive hf
    · exact (hb.loose i (List.mem_append_left _ h)).2.2 hty
    · exact h hi
  have hjob : ∀ j ∈ js, ∀ i ∈ j.cells, m'.heap.cellAt i = m.heap.cellAt i := fun j hj i hi =>
    (hsame i (List.mem_append_right _ (List.mem_append_left _ (List.mem_flatMap.2 ⟨j, hj, hi⟩)))).1
  have htop := ht.reworks.top_le
  refine ⟨ht.sound, hb.pristine.tends hb.sound ht fun i hlive hf => ?_, hu.collector ▸ hb.manual,
    List.nodup_append.2 ⟨hown, hndr, fun i hi k hk => ?_⟩, fun i hi => ?_, hb.actors,
    fun i hi => ?_, fun i hi => ?_, fun j hj => ?_, fun k hk => ?_, ?_, ?_, ?_⟩
  · obtain h | ⟨h, -⟩ := hF i hlive hf
    · exact hb.reserved_le (List.mem_append_left _ h)
    · exact hb.pristine.reserved_le (by rw [h]; decide) (by rw [h]; decide)
  · rintro rfl
    obtain h | h := (hnew i hi).1
    · exact hdis i h i hk rfl
    · exact h (hb.loose i (List.mem_append_right _ hk)).2.1
  · rw [ht.reworks.permanent]
    obtain h | h := List.mem_append.1 hi
    · exact (hnew i h).2
    · obtain ⟨hp, -, hty⟩ := hb.loose i (List.mem_append_right _ h)
      exact ⟨hp, (hsame i h).2, (hsame i h).1 ▸ hty⟩
  · exact isEvent_congr htop (by rw [(hsame i (List.mem_append_left _ hi)).1]) (hb.events i hi)
  · exact (hb.threads i hi).imp (fun h => (hline i hi h).1) id
  · have hthread := hjob j hj j.thread List.mem_cons_self
    refine (hb.jobs j hj).congr htop (by rw [hthread]) (by rw [hthread]) (fun i hi => ?_) ?_
    · exact hjob j hj i (List.mem_cons_of_mem _ hi)
    · exact hactor j.actor (List.mem_append_left _ (List.mem_map_of_mem hj))
  · refine (hb.halts k hk).congr htop
      (hactor k.1 (List.mem_append_right _ (List.mem_map_of_mem hk))) fun i hi => ?_
    refine (hsame i (List.mem_append_right _ (List.mem_append_right _ ?_))).1
    exact List.mem_flatMap.2 ⟨k, hk, hi⟩
  · unfold Waiting
    rw [hu.events]
    exact hb.waiting.congr fun i hi => by rw [(hsame i (List.mem_append_left _ hi)).1]
  · unfold Lined
    rw [hu.threads]
    refine hb.lined.congr fun i hi => ?_
    obtain h | h := hb.threads i hi
    · exact (hline i hi h).2
    · obtain ⟨j, hj, rfl⟩ := List.mem_map.1 h
      rw [hjob j hj j.thread List.mem_cons_self]
  · have := hb.balance
    simp only [Stock.cells, List.length_append] at this ⊢
    omega

theorem reorder (hb : Books B n ⟨own, q, line, js, ks⟩ m) (hp : own.Perm own') :
    Books B n ⟨own', q, line, js, ks⟩ m := by
  have hcells := hp.append_right (q ++ (js.flatMap Job.cells ++ ks.flatMap Prod.snd))
  exact ⟨hb.sound, hb.pristine, hb.manual, hcells.nodup hb.nodup, fun i hi =>
    hb.loose i (hcells.mem_iff.2 hi), hb.actors, hb.events, fun i hi =>
    (hb.threads i hi).imp hp.mem_iff.1 id, hb.jobs, hb.halts, hb.waiting, hb.lined,
    hcells.length_eq ▸ hb.balance⟩

section actions

variable {c : Cell} {f : Field} {w : Word} {E : Machine → Prop}

theorem ensures_take (hb : Books B n ⟨own, q, line, js, ks⟩ m) (hc : c.t ≠ .freeT)
    (ha : c.t ≠ .actorT) :
    Ensures (liftM (alloc c) : MachineM Word) m
      (fun v m' => ∃ i, v = .ref i ∧ m.heap.Takes i c m'.heap ∧
        Books B n ⟨i :: own, q, line, js, ks⟩ m' ∧
        m.heap.Tends (fun _ => False) m'.heap ∧ Untouched m m') E := by
  refine (Machine.ensures_take hb.sound hc).imp ?_
  rintro v m' ⟨i, rfl, htake, ht, huse, hu⟩
  have hlive : ∀ j ∈ own, m.heap.Live j := fun j hj => (hb.loose j (List.mem_append_left _ hj)).2.1
  have hne : ∀ j ∈ own, j ≠ i := fun j hj h => htake.not_live (h ▸ hlive j hj)
  refine ⟨i, rfl, htake, hb.step hu ht (fun _ _ h => h.elim) ?_ ?_ ?_ ?_, ht, hu⟩
  · exact List.nodup_cons.2 ⟨fun h => hne i h rfl, (List.nodup_append.1 hb.nodup).1⟩
  · refine List.forall_mem_cons.2 ⟨⟨.inr htake.not_live, htake.permanent_le, ⟨htake.lt_top, ?_⟩,
      ?_⟩, fun j hj => ?_⟩
    · rw [htake.self]
      exact hc
    · rw [htake.self]
      exact ha
    · obtain ⟨hp, -, hty⟩ := hb.loose j (List.mem_append_left _ hj)
      exact ⟨.inl hj, hp, ht.live (hlive j hj) (by simp), by rwa [htake.ne (hne j hj)]⟩
  · intro j _ hj
    exact ⟨List.mem_cons_of_mem i hj, by rw [htake.ne (hne j hj)]⟩
  · rw [List.length_cons]
    omega

theorem ensures_give (hb : Books B n ⟨i :: own, q, line, js, ks⟩ m) (hi : i ∉ line) :
    Ensures (liftM (free (.ref i)) : MachineM Unit) m
      (fun _ m' => Books B n ⟨own, q, line, js, ks⟩ m' ∧ m.heap.Tends (· = i) m'.heap ∧
        Untouched m m') E := by
  refine (Machine.ensures_give (v := .ref i) hb.sound).imp ?_
  rintro - m' ⟨-, -, ht, huse, hu⟩
  obtain ⟨hni, hnd⟩ := List.nodup_cons.1 (List.nodup_append.1 hb.nodup).1
  have hsame : ∀ j ∈ own, m'.heap.cellAt j = m.heap.cellAt j ∧ m'.heap.Live j := fun j hj =>
    have hlive := (hb.loose j (List.mem_append_left _ (List.mem_cons_of_mem i hj))).2.1
    have hji : j ≠ i := fun h => hni (h ▸ hj)
    ⟨ht.same hlive hji, ht.live hlive hji⟩
  refine ⟨hb.step hu ht (fun j _ h => .inl (h ▸ List.mem_cons_self)) hnd (fun j hj => ?_)
    (fun j hl hj => ?_) ?_, ht, hu⟩
  · obtain ⟨hp, -, hty⟩ := hb.loose j (List.mem_append_left _ (List.mem_cons_of_mem i hj))
    exact ⟨.inl (List.mem_cons_of_mem i hj), hp, (hsame j hj).2, (hsame j hj).1 ▸ hty⟩
  · obtain rfl | hj := List.mem_cons.1 hj
    · exact absurd hl hi
    · exact ⟨hj, by rw [(hsame j hj).1]⟩
  · rw [List.length_cons]
    have : m'.heap.inUse + 1 = m.heap.inUse := huse
    omega

theorem ensures_write (hb : Books B n ⟨own, q, line, js, ks⟩ m)
    (hw : f = .t → w ≠ .freeT ∧ w ≠ .actorT) (hlive : m.heap.Live i)
    (hi : i ∈ own ∧ (f = .z → i ∉ line) ∨
      (m.heap.cellAt i).t = .actorT ∧ i ∉ js.map Job.actor ++ ks.map Prod.fst) :
    Ensures (liftM (store (.ref i) f w) : MachineM Unit) m
      (fun _ m' => Books B n ⟨own, q, line, js, ks⟩ m' ∧
        m.heap.Sets i ((m.heap.cellAt i).set f w) m'.heap ∧
        m.heap.Tends (· = i) m'.heap ∧ Untouched m m') E := by
  refine (Machine.ensures_write hb.sound hlive fun h => (hw h).1).imp ?_
  rintro - m' ⟨hset, ht, huse, hu⟩
  refine ⟨hb.step hu ht ?_ (List.nodup_append.1 hb.nodup).1 (fun j hj => ?_) (fun j hl hj =>
    ⟨hj, ?_⟩) (by omega), hset, ht, hu⟩
  · rintro j - rfl
    exact hi.imp (·.1) id
  · obtain ⟨hp, hlive, ha⟩ := hb.loose j (List.mem_append_left _ hj)
    refine ⟨.inl hj, hp, hset.live (fun h => (hw h).1) hlive, ?_⟩
    by_cases hji : j = i
    · rw [hji, hset.self]
      by_cases hf : f = .t
      · rw [hf]
        exact (hw hf).2
      · rw [show ((m.heap.cellAt i).set f w).t = (m.heap.cellAt i).t
          from Cell.get_set_ne _ _ (Ne.symm hf), ← hji]
        exact ha
    · rw [hset.ne hji]
      exact ha
  · by_cases hji : j = i
    · subst hji
      rw [hset.self]
      refine Cell.get_set_ne (g := .z) _ _ fun h => ?_
      obtain ⟨-, h'⟩ | ⟨h', -⟩ := hi
      · exact h' h.symm hl
      · exact (hb.loose j (List.mem_append_left _ hj)).2.2 h'
    · rw [hset.ne hji]

theorem relinks (hb : Books B n ⟨own, q, line, js, ks⟩ m) (hr : m.heap.Relinks l h')
    (hl : ∀ i ∈ l, i ∈ own ∨ i ∈ q ∨ i ∈ line) (hp : (own ++ q).Perm (own' ++ q'))
    (hq : ∀ i ∈ q', m.heap.isEvent (.ref i) = true)
    (hline : ∀ i ∈ line', i ∈ own' ∨ i ∈ js.map Job.thread)
    {events threads : Queue} (hw : events.Holds h' q') (hlined : threads.Holds h' line') :
    Books B n ⟨own', q', line', js, ks⟩
      { m with heap := h', events := events, threads := threads } := by
  have hcells : (Stock.cells ⟨own, q, line, js, ks⟩).Perm
      (Stock.cells ⟨own', q', line', js, ks⟩) := by
    simpa only [Stock.cells, List.append_assoc] using
      hp.append_right (js.flatMap Job.cells ++ ks.flatMap Prod.snd)
  have htop : m.heap.top ≤ h'.top := Nat.le_of_eq hr.top.symm
  obtain ⟨-, hndr, hdis⟩ := List.nodup_append.1 hb.nodup
  obtain ⟨-, hndr, hdisq⟩ := List.nodup_append.1 hndr
  obtain ⟨hndj, -, hdisj⟩ := List.nodup_append.1 hndr
  have hout : ∀ i ∈ js.flatMap Job.cells ++ ks.flatMap Prod.snd, i ∉ js.map Job.thread →
      h'.cellAt i = m.heap.cellAt i := by
    intro i hi ht
    refine hr.same i fun h => ?_
    obtain h | h | h := hl i h
    · exact hdis i h i (List.mem_append_right _ hi) rfl
    · exact hdisq i h i hi rfl
    · obtain h | h := hb.threads i h
      · exact hdis i h i (List.mem_append_right _ hi) rfl
      · exact ht h
  have hactor : ∀ i ∈ Stock.actors ⟨own, q, line, js, ks⟩, h'.cellAt i = m.heap.cellAt i := by
    intro i hi
    refine hr.same i fun h => ?_
    exact (hb.loose i (hb.mem_cells (hl i h))).2.2 (hb.actor hi).2
  refine ⟨hr.sound, fun i hi => ?_, hb.manual, hcells.nodup hb.nodup, fun i hi => ?_, hb.actors,
    fun i hi => ?_, hline, fun j hj => ?_, fun k hk => ?_, hw, hlined, ?_⟩
  · refine (hr.same i fun h => ?_).trans (hb.pristine i hi)
    exact Nat.not_lt.2 (hb.reserved_le (hb.mem_cells (hl i h))) hi
  · obtain ⟨h1, ⟨h2, h3⟩, h4⟩ := hb.loose i (hcells.mem_iff.2 hi)
    exact ⟨hr.permanent ▸ h1, ⟨hr.top ▸ h2, by rwa [hr.t]⟩, by rwa [hr.t]⟩
  · exact isEvent_congr htop (hr.t i) (hq i hi)
  · refine (hb.jobs j hj).congr htop (hr.x _) (hr.y _) (fun i hi => ?_)
      (hactor j.actor (List.mem_append_left _ (List.mem_map_of_mem hj)))
    refine hout i (List.mem_append_left _ (List.mem_flatMap.2 ⟨j, hj, List.mem_cons_of_mem _ hi⟩))
      fun h => ?_
    obtain ⟨k, hk, rfl⟩ := List.mem_map.1 h
    exact Job.thread_not_mem hndj hk hj hi
  · refine (hb.halts k hk).congr htop
      (hactor k.1 (List.mem_append_right _ (List.mem_map_of_mem hk))) fun i hi => ?_
    have hmem : i ∈ ks.flatMap Prod.snd := List.mem_flatMap.2 ⟨k, hk, hi⟩
    refine hout i (List.mem_append_right _ hmem) fun h => ?_
    obtain ⟨j, hj, rfl⟩ := List.mem_map.1 h
    exact hdisj _ (List.mem_flatMap.2 ⟨j, hj, List.mem_cons_self⟩) _ hmem rfl
  · change h'.inUse + n = _
    rw [hr.inUse hb.sound, hb.balance, hcells.length_eq]

theorem not_queued (hb : Books B n ⟨own, q, line, js, ks⟩ m) (hi : i ∈ own ∨ i ∈ line) : i ∉ q := by
  obtain ⟨-, hndr, hdis⟩ := List.nodup_append.1 hb.nodup
  intro hq
  have hown : i ∉ own := fun h => hdis i h i (List.mem_append_left _ hq) rfl
  obtain h | h := (hi.resolve_left hown |> hb.threads i)
  · exact hown h
  · obtain ⟨j, hj, rfl⟩ := List.mem_map.1 h
    refine (List.nodup_append.1 hndr).2.2 _ hq _ (List.mem_append_left _ ?_) rfl
    exact List.mem_flatMap.2 ⟨j, hj, List.mem_cons_self⟩

theorem ensures_putEvent (hb : Books B n ⟨i :: own, q, line, js, ks⟩ m)
    (he : m.heap.isEvent (.ref i) = true) (hi : i ∉ line) :
    Ensures (putEvent (.ref i)) m
      (fun _ m' => Books B n ⟨own, q ++ [i], line, js, ks⟩ m' ∧ m.heap.Relinks (i :: q) m'.heap ∧
        m'.threads = m.threads) E := by
  have hmem : ∀ j ∈ i :: q, j ∈ i :: own ∨ j ∈ q ∨ j ∈ line := fun j hj => by
    obtain rfl | hj := List.mem_cons.1 hj
    · exact .inl List.mem_cons_self
    · exact .inr (.inl hj)
  refine (ensures_enqueue hb.sound hb.waiting (hb.not_queued (.inl List.mem_cons_self))
    (hb.reserved_le List.mem_cons_self) fun j hj =>
    (hb.loose j (hb.mem_cells (hmem j hj))).2.1.2).imp ?_
  rintro - m' ⟨h', p, rfl, hw, hr⟩
  refine ⟨hb.relinks hr hmem ?_ (fun j hj => ?_)
    (fun j hj => ?_) hw (hb.lined.congr fun j hj => ?_), hr, rfl⟩
  · simpa [List.append_assoc] using (List.perm_append_singleton i (own ++ q)).symm
  · obtain hj | hj := List.mem_append.1 hj
    · exact hb.events j hj
    · rw [List.mem_singleton.1 hj]
      exact he
  · have hji : j ≠ i := fun h => hi (h ▸ hj)
    exact (hb.threads j hj).imp (fun h => (List.mem_cons.1 h).resolve_left hji) id
  · rw [hr.same j]
    exact List.not_mem_cons_of_ne_of_not_mem (fun h => hi (h ▸ hj)) (hb.not_queued (.inr hj))

theorem ensures_popEvent (hb : Books B n ⟨own, q, line, js, ks⟩ m) :
    Ensures popEvent m
      (fun r m' => q = [] ∧ r = none ∧ m' = m ∨ ∃ i q', q = i :: q' ∧ r = some (.ref i) ∧ i ∉ line ∧
        (m'.heap.cellAt i).z = .nil ∧ m'.heap.isEvent (.ref i) = true ∧
        Books B n ⟨i :: own, q', line, js, ks⟩ m') E := by
  refine (ensures_dequeue hb.sound hb.waiting fun j hj => ?_).imp ?_
  · exact (hb.loose j (hb.mem_cells (.inr (.inl hj)))).2.1.2
  rintro r m' (h | ⟨i, q', h', p, rfl, rfl, rfl, hw, hz, hr⟩)
  · exact .inl h
  have hil : i ∉ line := fun h => hb.not_queued (.inr h) List.mem_cons_self
  refine .inr ⟨i, q', rfl, rfl, hil, hz, ?_, ?_⟩
  · exact isEvent_congr (Nat.le_of_eq hr.top.symm) (hr.t i) (hb.events i List.mem_cons_self)
  refine hb.relinks hr (fun j hj => ?_) List.perm_middle (fun j hj => ?_) (fun j hj => ?_) hw
    (hb.lined.congr fun j hj => ?_)
  · exact .inr (.inl (List.mem_singleton.1 hj ▸ List.mem_cons_self))
  · exact hb.events j (List.mem_cons_of_mem i hj)
  · exact (hb.threads j hj).imp (List.mem_cons_of_mem i) id
  · rw [hr.same j]
    exact fun h => hil (List.mem_singleton.1 h ▸ hj)

theorem ensures_putThread (hb : Books B n ⟨own, q, line, js, ks⟩ m) (hown : i ∈ own)
    (hi : i ∉ line) :
    Ensures (putThread (.ref i)) m
      (fun _ m' => Books B n ⟨own, q, line ++ [i], js, ks⟩ m' ∧
        m.heap.Relinks (i :: line) m'.heap) E := by
  have hmem : ∀ j ∈ i :: line, j ∈ own ∨ j ∈ q ∨ j ∈ line := fun j hj => by
    obtain rfl | hj := List.mem_cons.1 hj
    · exact .inl hown
    · exact .inr (.inr hj)
  refine (ensures_enline hb.sound hb.lined hi (hb.reserved_le (hb.mem_cells (.inl hown)))
    fun j hj => (hb.loose j (hb.mem_cells (hmem j hj))).2.1.2).imp ?_
  rintro - m' ⟨h', p, rfl, hl, hr⟩
  refine ⟨hb.relinks hr hmem (.refl _) hb.events (fun j hj => ?_) (hb.waiting.congr
    fun j hj => ?_) hl, hr⟩
  · obtain hj | hj := List.mem_append.1 hj
    · exact hb.threads j hj
    · exact .inl (List.mem_singleton.1 hj ▸ hown)
  · rw [hr.same j]
    intro h
    obtain rfl | h := List.mem_cons.1 h
    · exact hb.not_queued (.inl hown) hj
    · exact hb.not_queued (.inr h) hj

theorem ensures_popThread (hb : Books B n ⟨own, q, i :: line, js, ks⟩ m) :
    Ensures popThread m
      (fun r m' => r = some (.ref i) ∧ Books B n ⟨own, q, line, js, ks⟩ m' ∧
        m.heap.Relinks [i] m'.heap) E := by
  refine (ensures_deline hb.sound hb.lined fun j hj => ?_).imp ?_
  · exact (hb.loose j (hb.mem_cells (.inr (.inr hj)))).2.1.2
  rintro r m' (⟨h, -⟩ | ⟨k, l', h', p, hl, rfl, rfl, hl', hr⟩)
  · cases h
  cases hl
  refine ⟨rfl, ?_, hr⟩
  refine hb.relinks hr (fun j hj => ?_) (.refl _) hb.events (fun j hj => ?_) (hb.waiting.congr
    fun j hj => ?_) hl'
  · exact .inr (.inr (List.mem_singleton.1 hj ▸ List.mem_cons_self))
  · exact hb.threads j (List.mem_cons_of_mem i hj)
  · rw [hr.same j]
    exact fun h => hb.not_queued (.inr List.mem_cons_self) (List.mem_singleton.1 h ▸ hj)

theorem ensures_release (hb : Books B n ⟨own, q, line, js, ks⟩ m)
    (ht : (m.heap.cellAt a).t = .actorT) (ha : a ∉ js.map Job.actor ++ ks.map Prod.fst) :
    Ensures (liftM (free (.ref a)) : MachineM Unit) m
      (fun _ m' => Books B (n + 1) ⟨own, q, line, js, ks⟩ m' ∧ m.heap.Tends (· = a) m'.heap ∧
        Untouched m m') E := by
  refine (Machine.ensures_give (v := .ref a) hb.sound).imp ?_
  rintro - m' ⟨-, -, htend, huse, hu⟩
  have hsame : ∀ j ∈ own, m'.heap.cellAt j = m.heap.cellAt j ∧ m'.heap.Live j := fun j hj => by
    obtain ⟨-, hlive, hty⟩ := hb.loose j (List.mem_append_left _ hj)
    have hja : j ≠ a := fun h => hty (h ▸ ht)
    exact ⟨htend.same hlive hja, htend.live hlive hja⟩
  refine ⟨hb.step hu htend ?_ (List.nodup_append.1 hb.nodup).1 (fun j hj => ?_)
    (fun j _ hj => ?_) ?_, htend, hu⟩
  · rintro j - rfl
    exact .inr ⟨ht, ha⟩
  · obtain ⟨hp, -, hty⟩ := hb.loose j (List.mem_append_left _ hj)
    exact ⟨.inl hj, hp, (hsame j hj).2, (hsame j hj).1 ▸ hty⟩
  · exact ⟨hj, by rw [(hsame j hj).1]⟩
  · have : m'.heap.inUse + 1 = m.heap.inUse := huse
    omega

end actions

/-! Cells change hands between the lists. -/

theorem take_job {j : Job} (hb : Books B n ⟨own, q, line, j :: js, ks⟩ m) :
    Books B n ⟨own ++ j.cells, q, line, js, ks⟩ m ∧ j.Stands m.heap ∧
      j.actor ∉ js.map Job.actor ++ ks.map Prod.fst := by
  have hcells : (Stock.cells ⟨own, q, line, j :: js, ks⟩).Perm
      (Stock.cells ⟨own ++ j.cells, q, line, js, ks⟩) := by
    simp only [Stock.cells, List.flatMap_cons, List.append_assoc]
    exact (List.perm_append_left_iff own).2 (List.perm_append_comm_assoc ..)
  obtain ⟨hj, hjobs⟩ := List.forall_mem_cons.1 hb.jobs
  obtain ⟨ha, hactors⟩ := List.nodup_cons.1 hb.actors
  refine ⟨⟨hb.sound, hb.pristine, hb.manual, hcells.nodup hb.nodup, fun i hi =>
    hb.loose i (hcells.mem_iff.2 hi), hactors, hb.events, fun i hi => ?_, hjobs, hb.halts,
    hb.waiting, hb.lined, hcells.length_eq ▸ hb.balance⟩, hj, ha⟩
  obtain h | h := hb.threads i hi
  · exact .inl (List.mem_append_left _ h)
  · obtain rfl | h := List.mem_cons.1 h
    · exact .inl (List.mem_append_right _ List.mem_cons_self)
    · exact .inr h

theorem give_job {j : Job} (hb : Books B n ⟨j.cells, q, js.map Job.thread ++ [j.thread], js, ks⟩ m)
    (hj : j.Stands m.heap) (ha : j.actor ∉ js.map Job.actor ++ ks.map Prod.fst) :
    Books B n ⟨[], q, (js ++ [j]).map Job.thread, js ++ [j], ks⟩ m := by
  have hcells : (Stock.cells ⟨j.cells, q, [], js, ks⟩).Perm
      (Stock.cells ⟨[], q, [], js ++ [j], ks⟩) := by
    simp only [Stock.cells, List.flatMap_append, List.flatMap_cons, List.flatMap_nil,
      List.append_nil, List.nil_append, List.append_assoc]
    refine (List.perm_append_comm_assoc ..).trans ((List.perm_append_left_iff q).2 ?_)
    exact List.perm_append_comm_assoc ..
  have hactors : (j.actor :: (js.map Job.actor ++ ks.map Prod.fst)).Perm
      ((js ++ [j]).map Job.actor ++ ks.map Prod.fst) := by
    simpa using List.perm_middle.symm
  refine ⟨hb.sound, hb.pristine, hb.manual, hcells.nodup hb.nodup, fun i hi =>
    hb.loose i (hcells.mem_iff.2 hi), hactors.nodup (List.nodup_cons.2 ⟨ha, hb.actors⟩), hb.events,
    fun i hi => .inr hi, fun k hk => ?_, hb.halts, hb.waiting, ?_, hcells.length_eq ▸ hb.balance⟩
  · obtain h | h := List.mem_append.1 hk
    · exact hb.jobs k h
    · exact List.mem_singleton.1 h ▸ hj
  · rw [List.map_append]
    exact hb.lined

theorem halt (hb : Books B n ⟨own ++ l, q, line, js, ks⟩ m) (hw : m.heap.Withholds a l)
    (ha : a ∉ js.map Job.actor ++ ks.map Prod.fst) (hline : ∀ i ∈ line, i ∉ l) :
    Books B n ⟨own, q, line, js, (a, l) :: ks⟩ m := by
  have hcells : (Stock.cells ⟨own ++ l, q, line, js, ks⟩).Perm
      (Stock.cells ⟨own, q, line, js, (a, l) :: ks⟩) := by
    simp only [Stock.cells, List.flatMap_cons, List.append_assoc]
    refine (List.perm_append_left_iff own).2 ((List.perm_append_comm_assoc ..).trans
      ((List.perm_append_left_iff q).2 ?_))
    exact List.perm_append_comm_assoc ..
  have hactors : (a :: (js.map Job.actor ++ ks.map Prod.fst)).Perm
    (js.map Job.actor ++ a :: ks.map Prod.fst) :=
    List.perm_middle.symm
  refine ⟨hb.sound, hb.pristine, hb.manual, hcells.nodup hb.nodup, fun i hi =>
    hb.loose i (hcells.mem_iff.2 hi), hactors.nodup (List.nodup_cons.2 ⟨ha, hb.actors⟩), hb.events,
    fun i hi => ?_, hb.jobs, List.forall_mem_cons.2 ⟨hw, hb.halts⟩, hb.waiting, hb.lined,
    hcells.length_eq ▸ hb.balance⟩
  exact (hb.threads i hi).imp (fun h => (List.mem_append.1 h).resolve_right (hline i hi)) id

end Books

end ActorMachine
