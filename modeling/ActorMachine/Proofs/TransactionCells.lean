import ActorMachine.Proofs.CellAccounts

namespace ActorMachine

open Machine

variable {B n i : Nat} {j : Job} {q l : List Nat} {js : List Job} {ks : List (Nat × List Nat)}
  {m m' : Machine}
  {E : Machine → Prop} {α β : Type}
variable {P : β → Machine → Prop} {ip : Word}

/-- The first thread runs, and its transaction has its cells for itself. -/
structure Underway (B n : Nat) (j : Job) (q : List Nat) (js : List Job) (ks : List (Nat × List Nat))
    (m : Machine) :
    Prop where
  books : Books B n ⟨j.cells, q, j.thread :: js.map Job.thread, js, ks⟩ m
  stands : j.Stands m.heap
  apart : j.actor ∉ js.map Job.actor ++ ks.map Prod.fst

namespace Underway

variable (ht : Underway B n j q js ks m)

include ht

theorem quiet (hq : Quiet m m') : Underway B n j q js ks m' :=
  ⟨ht.books.quiet hq, hq.heap ▸ ht.stands, ht.apart⟩

theorem tally (f : Stats → Stats) : Underway B n j q js ks (m.tally f) :=
  ⟨ht.books.tally f, ht.stands, ht.apart⟩

theorem head : m.threads.head = .ref j.thread := ht.books.lined.1.1

theorem nodup : j.cells.Nodup := (List.nodup_append.1 ht.books.nodup).1

theorem loose (hi : i ∈ j.cells) :
    m.heap.permanent ≤ i ∧ m.heap.Live i ∧ (m.heap.cellAt i).t ≠ .actorT :=
  ht.books.loose i (List.mem_append_left _ hi)

theorem not_lined (hi : i ∈ j.cells) : i ∉ js.map Job.thread := ht.books.not_thread hi

theorem seat : Seat j.thread j.stack m := by
  refine ⟨ht.books.sound, ht.books.pristine, ht.head, ht.stands.sits.pairs, fun h => ?_,
    fun i hi => ?_⟩
  · exact (List.nodup_cons.1 ht.nodup).1 (by simp [h])
  · obtain ⟨h1, h2, -⟩ := ht.loose (i := i) (by
      obtain rfl | h := List.mem_cons.1 hi
      · exact List.mem_cons_self
      · simp [Job.cells, h])
    exact ⟨h1, h2⟩

theorem shifts (hs : Seat j.thread l m') (hw : Shifts j.thread j.stack l m m') :
    Underway B n { j with stack := l } q js ks m' := by
  obtain ⟨htn, hen, hnd⟩ : j.thread ∉ j.event :: (j.stack ++ j.sends) ∧
    j.event ∉ j.stack ++ j.sends ∧
      (j.stack ++ j.sends).Nodup := by
    obtain ⟨h1, h2⟩ := List.nodup_cons.1 ht.nodup
    exact ⟨h1, List.nodup_cons.1 h2⟩
  obtain ⟨-, hns, hdis⟩ := List.nodup_append.1 hnd
  have hlive : ∀ i ∈ j.cells, m.heap.Live i := fun i hi => (ht.loose hi).2.1
  have hrest : ∀ i ∈ j.event :: j.sends, i ∈ j.cells ∧ i ≠ j.thread ∧ i ∉ j.stack ∧
      m'.heap.cellAt i = m.heap.cellAt i ∧ m'.heap.Live i ∧ i ∉ l := by
    intro i hi
    have hc : i ∈ j.cells ∧ i ≠ j.thread ∧ i ∉ j.stack := by
      obtain rfl | hi := List.mem_cons.1 hi
      · exact ⟨by simp [Job.cells], fun h => htn (by simp [h]), fun h => hen (by simp [h])⟩
      · exact ⟨by simp [Job.cells, hi], fun h => htn (by simp [← h, hi]), fun h =>
          hdis i h i hi rfl⟩
    have hn : ¬ (i = j.thread ∨ i ∈ j.stack) := by simp [hc]
    refine ⟨hc.1, hc.2.1, hc.2.2, hw.tends.same (hlive i hc.1) hn, hw.tends.live (hlive i hc.1) hn,
      fun h => ?_⟩
    obtain h | h := hw.fresh i h
    · exact hc.2.2 h
    · exact h (hlive i hc.1)
  refine ⟨ht.books.step hw.untouched hw.tends ?_ ?_ ?_ ?_ ?_, ?_, ht.apart⟩
  · rintro i - (rfl | hi)
    · exact .inl List.mem_cons_self
    · exact .inl (by simp [Job.cells, hi])
  · refine List.nodup_cons.2 ⟨?_,
      List.nodup_cons.2 ⟨?_, List.nodup_append.2 ⟨hs.pairs.1.nodup, hns, ?_⟩⟩⟩
    · simp only [List.mem_cons, List.mem_append, not_or]
      exact ⟨fun h => htn (by simp [h]), hs.apart, fun h => htn (by simp [h])⟩
    · simp only [List.mem_append, not_or]
      exact ⟨(hrest j.event List.mem_cons_self).2.2.2.2.2, fun h => hen (by simp [h])⟩
    · rintro i hi k hk rfl
      exact (hrest i (List.mem_cons_of_mem _ hk)).2.2.2.2.2 hi
  · intro i hi
    have hcases : i = j.thread ∨ i ∈ j.event :: j.sends ∨ i ∈ l := by
      simp only [Job.cells, List.mem_cons, List.mem_append] at hi ⊢
      tauto
    obtain rfl | hi | hi := hcases
    · obtain ⟨hp, -, hty⟩ := ht.loose List.mem_cons_self
      exact ⟨.inl List.mem_cons_self, hp, hs.permanent_le.2, fun h =>
        hty ((hw.thread .t (by decide)).symm.trans h)⟩
    · obtain ⟨hc, -, -, hsame, hl, -⟩ := hrest i hi
      exact ⟨.inl hc, (ht.loose hc).1, hl, hsame ▸ (ht.loose hc).2.2⟩
    · obtain ⟨k, hk, -, hty⟩ := Heap.isPair_iff.1 (hs.pairs.2 i hi)
      cases hk
      refine ⟨(hw.fresh i hi).imp (fun h => by simp [Job.cells, h]) id, ?_,
        (hs.loose i (List.mem_cons_of_mem _ hi)).2, ?_⟩
      · exact hw.tends.reworks.permanent ▸ (hs.loose i (List.mem_cons_of_mem _ hi)).1
      · rw [hty]
        decide
  · intro i hi hc
    obtain rfl | h := List.mem_cons.1 hi
    · exact ⟨List.mem_cons_self, hw.thread .z (by decide)⟩
    · exact absurd h (ht.not_lined hc)
  · have := hw.inUse
    simp only [Job.cells, List.length_cons, List.length_append]
    omega
  · have he := (hrest j.event List.mem_cons_self).2.2.2.1
    have hy : (m'.heap.cellAt j.thread).y = (m.heap.cellAt j.thread).y := hw.thread .y (by decide)
    refine ⟨⟨hy.trans ht.stands.sits.link, hs.pairs, he ▸ ht.stands.sits.target,
      he ▸ ht.stands.sits.bare⟩, ?_⟩
    obtain ⟨k, hk, hlt, hty⟩ := Heap.isActor_iff.1 ht.stands.withholds.actor
    cases hk
    refine ht.stands.withholds.congr hw.tends.reworks.top_le ?_ fun i hi =>
      (hrest i (List.mem_cons_of_mem _ hi)).2.2.2.1
    refine hw.tends.same ⟨hlt, by rw [hty]; decide⟩ ?_
    rintro (h | h)
    · exact (ht.loose List.mem_cons_self).2.2 (h ▸ hty)
    · exact (ht.loose (i := j.actor) (by simp [Job.cells, h])).2.2 hty

theorem handles {act : MachineM α} (ha : Handles j.thread j.stack m act) :
    Ensures act m (fun _ m' => ∃ l, Underway B n { j with stack := l } q js ks m')
      fun m' => ∃ l, Underway B n { j with stack := l } q js ks m' :=
  Ensures.mono ha (fun _ _ ⟨l, hs, hw⟩ => ⟨l, ht.shifts hs hw⟩) fun _ ⟨l, hs, hw⟩ =>
  ⟨l, ht.shifts hs hw⟩

theorem clearStack :
    Ensures clearStack m (fun _ m' => Underway B n { j with stack := [] } q js ks m') E :=
  ht.seat.ensures_clearStack.imp (fun _ _ ⟨hs, hw⟩ => ht.shifts hs hw)

theorem event_bind {k : Word → MachineM β} (hk : Ensures (k (.ref j.event)) m P E) :
    Ensures (event >>= k) m P E := by
  unfold event
  simp only [bind_assoc]
  rw [ensures_thread_bind, ht.head]
  refine ensures_fetch_bind fun i hi _ => ?_
  cases hi
  rw [show (m.heap.cellAt j.thread).get .y = _ from ht.stands.sits.link]
  exact hk

theorem me_bind {k : Word → MachineM β} (hk : Ensures (k (.ref j.actor)) m P E) :
    Ensures (me >>= k) m P E := by
  unfold me
  simp only [bind_assoc]
  refine ht.event_bind (ensures_fetch_bind fun i hi _ => ?_)
  cases hi
  rw [show (m.heap.cellAt j.event).get .x = _ from ht.stands.sits.target, ensures_look_bind,
    ht.stands.withholds.actor]
  exact hk

theorem takeBecome_bind {k : Option (Word × Word) → MachineM β} (hk : Ensures (k none) m P E) :
    Ensures (takeBecome >>= k) m P E := by
  unfold takeBecome
  simp only [bind_assoc]
  refine ht.event_bind (ensures_fetch_bind fun i hi _ => ?_)
  cases hi
  rw [show (m.heap.cellAt j.event).get .z = _ from ht.stands.sits.bare, ensures_look_bind,
    ht.books.pristine.not_isPair_nil]
  exact hk

theorem discardBecome_bind {k : Unit → MachineM β}
    (hk : Ensures (k ()) m P E) : Ensures (discardBecome >>= k) m P E := by
  unfold discardBecome
  simp only [bind_assoc]
  exact ht.takeBecome_bind hk

theorem actor : m.heap.Live j.actor ∧ (m.heap.cellAt j.actor).t = .actorT := by
  obtain ⟨k, hk, hlt, hty⟩ := Heap.isActor_iff.1 ht.stands.withholds.actor
  cases hk
  exact ⟨⟨hlt, by rw [hty]; decide⟩, hty⟩

theorem actor_ne (hi : i ∈ j.cells) : i ≠ j.actor :=
  fun h => (ht.loose hi).2.2 (h ▸ ht.actor.2)

theorem holdBack (target msg : Word) :
    Ensures (holdBack target msg) m (fun _ m' => ∃ i,
      Underway B n { j with sends := i :: j.sends } q js ks m')
      E := by
  unfold Machine.holdBack
  refine ht.me_bind (ensures_fetch_bind fun k hk _ => ?_)
  cases hk
  refine (ht.books.ensures_take (show Word.eventT ≠ .freeT by decide)
    (show Word.eventT ≠ .actorT by decide)).bind ?_
  rintro v m₁ ⟨i, rfl, htake, hb, htend, hu⟩
  have hsame : ∀ k, m.heap.Live k → k ≠ i ∧ m₁.heap.cellAt k = m.heap.cellAt k := fun k hk =>
    have hki : k ≠ i := fun h => htake.not_live (h ▸ hk)
    ⟨hki, htake.ne hki⟩
  have hactor := hsame j.actor ht.actor.1
  have hlive₁ : m₁.heap.Live j.actor := htend.live ht.actor.1 (by simp)
  refine (hb.ensures_write (w := .ref i) (f := .z) nofun hlive₁ (.inr ⟨?_, ht.apart⟩)).imp ?_
  · rw [hactor.2]
    exact ht.actor.2
  rintro - m₂ ⟨hb₂, hset, htend₂, hu₂⟩
  have hcells : ∀ k ∈ j.cells, m₂.heap.cellAt k = m.heap.cellAt k := fun k hk => by
    rw [hset.ne (ht.actor_ne hk), (hsame k (ht.loose hk).2.1).2]
  have hcell : m₂.heap.cellAt i = ⟨.eventT, target, msg, (m.heap.cellAt j.actor).z⟩ := by
    rw [hset.ne hactor.1.symm, htake.self]
    rfl
  have htop : m.heap.top ≤ m₂.heap.top := hset.top ▸ htend.reworks.top_le
  refine ⟨i, hb₂.reorder ?_, ⟨⟨?_, ?_, ?_, ?_⟩, ⟨?_, ⟨?_, ?_, ?_⟩, ?_⟩⟩, ht.apart⟩
  · exact (@List.perm_middle _ i (j.thread :: j.event :: j.stack) j.sends).symm
  · rw [hcells j.thread List.mem_cons_self]
    exact ht.stands.sits.link
  · rw [hcells j.thread List.mem_cons_self]
    refine htend₂.reworks.pairs (htend.reworks.pairs ht.stands.sits.pairs (by simp)) fun k hk => ?_
    exact ht.actor_ne (by simp [Job.cells, hk])
  · rw [hcells j.event (by simp [Job.cells])]
    exact ht.stands.sits.target
  · rw [hcells j.event (by simp [Job.cells])]
    exact ht.stands.sits.bare
  · refine Heap.isActor_iff.2 ⟨j.actor, rfl, Nat.lt_of_lt_of_le ht.actor.1.1 htop, ?_⟩
    rw [hset.self, hactor.2]
    exact ht.actor.2
  · rw [hset.self]
    rfl
  · exact hb₂.reserved_le List.mem_cons_self
  · rw [hcell]
    refine ht.stands.withholds.chain.congr fun k hk => ?_
    rw [hcells k (by simp [Job.cells, hk])]
  · refine List.forall_mem_cons.2 ⟨Heap.hasType_iff.2 ⟨i, rfl, hset.top ▸ htake.lt_top,
      by rw [hcell]⟩, fun k hk => ?_⟩
    refine Heap.isEvent_congr htop ?_ (ht.stands.withholds.events k hk)
    rw [hcells k (by simp [Job.cells, hk])]

end Underway

structure Minds (own : List Nat) (m m' : Machine) : Prop where
  own : ∀ i ∈ own, m'.heap.cellAt i = m.heap.cellAt i
  actors : ∀ i, m.heap.Live i → (m.heap.cellAt i).t = .actorT → m'.heap.cellAt i = m.heap.cellAt i
  top_le : m.heap.top ≤ m'.heap.top
  permanent : m'.heap.permanent = m.heap.permanent

namespace Minds

variable {own : List Nat} {m'' : Machine}

theorem refl : Minds own m m := ⟨fun _ _ => rfl, fun _ _ _ => rfl, Nat.le_refl _, rfl⟩

theorem live {a : Nat} (hm : Minds own m m') (ha : m.heap.Live a)
    (ht : (m.heap.cellAt a).t = .actorT) :
    m'.heap.Live a ∧ (m'.heap.cellAt a).t = .actorT := by
  have hcell := hm.actors a ha ht
  exact ⟨⟨Nat.lt_of_lt_of_le ha.1 hm.top_le, hcell ▸ ha.2⟩, hcell ▸ ht⟩

theorem trans {own' : List Nat} (h₁ : Minds own m m') (h₂ : Minds own' m' m'')
    (ho : ∀ i ∈ own', i ∈ own) :
    Minds own' m m'' := by
  refine ⟨fun i hi => (h₂.own i hi).trans (h₁.own i (ho i hi)), fun i hi ht => ?_,
    Nat.le_trans h₁.top_le h₂.top_le, h₂.permanent.trans h₁.permanent⟩
  have h := h₁.live hi ht
  exact (h₂.actors i h.1 h.2).trans (h₁.actors i hi ht)

end Minds

namespace Books

variable {own line : List Nat}

theorem minds_give (hb : Books B n ⟨i :: own, q, line, js, ks⟩ m)
    (ht : m.heap.Tends (· = i) m'.heap) :
    Minds own m m' := by
  have hni : i ∉ own := (List.nodup_cons.1 (List.nodup_append.1 hb.nodup).1).1
  refine ⟨fun k hk => ?_, fun k hk hty => ht.same hk fun h => ?_, ht.reworks.top_le,
    ht.reworks.permanent⟩
  · exact ht.same (hb.loose k (List.mem_append_left _ (List.mem_cons_of_mem i hk))).2.1 fun h =>
      hni (h ▸ hk)
  · exact (hb.loose i List.mem_cons_self).2.2 (h ▸ hty)

theorem ensures_deliver (hb : Books B n ⟨i :: own, q, line, js, ks⟩ m)
    (he : m.heap.isEvent (.ref i) = true) (hi : i ∉ line) :
    Ensures (deliver (.ref i)) m
      (fun _ m' => ∃ q', Books B n ⟨own, q', line, js, ks⟩ m' ∧ Minds own m m') E := by
  unfold deliver
  refine ensures_fetch_bind fun _ _ _ => ?_
  rw [ensures_look_bind]
  refine .ite (fun _ => ?_) fun _ => ?_
  · refine (hb.ensures_putEvent he hi).bind ?_
    rintro - m' ⟨hb', hr, -⟩
    have hout : ∀ k ∈ i :: q, k ∈ Stock.cells ⟨i :: own, q, line, js, ks⟩ := fun k hk => by
      obtain rfl | hk := List.mem_cons.1 hk
      · exact List.mem_cons_self
      · exact hb.mem_cells (.inr (.inl hk))
    refine ⟨_, hb', fun k hk => hr.same k fun h => ?_, fun k _ hty => hr.same k fun h => ?_,
      Nat.le_of_eq hr.top.symm, hr.permanent⟩
    · obtain rfl | h := List.mem_cons.1 h
      · exact (List.nodup_cons.1 (List.nodup_append.1 hb.nodup).1).1 hk
      · exact hb.not_queued (.inl (List.mem_cons_of_mem i hk)) h
    · exact (hb.loose k (hout k h)).2.2 hty
  · refine (Silent.note _).bind fun _ m₁ hq => ?_
    refine ((hb.quiet hq).ensures_give hi).bind ?_
    rintro - m₂ ⟨hb₂, ht, hu⟩
    rw [ensures_count_bind]
    have hm : Minds own m m₂ := hb.minds_give (hq.heap ▸ ht)
    exact ⟨q, hb₂.tally _, hm.own, hm.actors, hm.top_le, hm.permanent⟩

theorem ensures_deliverAll (hb : Books B n ⟨l ++ own, q, line, js, ks⟩ m)
    (hl : ∀ i ∈ l, m.heap.isEvent (.ref i) = true ∧ i ∉ line) :
    Ensures ((l.map Word.ref).mapM deliver) m
      (fun _ m' => ∃ q', Books B n ⟨own, q', line, js, ks⟩ m' ∧ Minds own m m') E := by
  induction l generalizing q m with
  | nil =>
    rw [List.map_nil, List.mapM_nil]
    exact ⟨q, hb, .refl⟩
  | cons i l ih =>
    obtain ⟨hi, hl⟩ := List.forall_mem_cons.1 hl
    rw [List.map_cons, List.mapM_cons]
    refine (hb.ensures_deliver hi.1 hi.2).bind ?_
    rintro b m₁ ⟨q₁, hb₁, hm₁⟩
    refine (ih hb₁ fun k hk => ⟨?_, (hl k hk).2⟩).bind ?_
    · exact Heap.isEvent_congr hm₁.top_le (by rw [hm₁.own k (List.mem_append_left _ hk)])
        (hl k hk).1
    rintro bs m₂ ⟨q₂, hb₂, hm₂⟩
    exact ⟨q₂, hb₂, hm₁.trans hm₂ fun k hk => List.mem_append_right _ hk⟩

theorem ensures_freeAll (hb : Books B n ⟨l ++ own, q, line, js, ks⟩ m) (hl : ∀ i ∈ l, i ∉ line) :
    Ensures ((l.map Word.ref).forM fun v => (liftM (Heap.free v) : MachineM Unit)) m
      (fun _ m' => Books B n ⟨own, q, line, js, ks⟩ m' ∧ Minds own m m') E := by
  induction l generalizing m with
  | nil => exact ⟨hb, .refl⟩
  | cons i l ih =>
    obtain ⟨hi, hl⟩ := List.forall_mem_cons.1 hl
    refine (hb.ensures_give hi).bind ?_
    rintro - m₁ ⟨hb₁, ht, -⟩
    have hm₁ := hb.minds_give ht
    exact (ih hb₁ hl).imp (fun _ m₂ ⟨hb₂, hm₂⟩ =>
      ⟨hb₂, hm₁.trans hm₂ fun k hk => List.mem_append_right _ hk⟩)

end Books

/-- The transaction has ended, and what is left of it is its thread and its event. -/
structure Over (B n t e : Nat) (q : List Nat) (js : List Job) (ks : List (Nat × List Nat))
    (m : Machine) : Prop where
  books : Books B n ⟨[t, e], q, t :: js.map Job.thread, js, ks⟩ m
  link : (m.heap.cellAt t).y = .ref e

namespace Over

variable {t e a : Nat}

variable (ho : Over B n t e q js ks m)

include ho

theorem quiet (hq : Quiet m m') : Over B n t e q js ks m' :=
  ⟨ho.books.quiet hq, hq.heap ▸ ho.link⟩

theorem tally (f : Stats → Stats) : Over B n t e q js ks (m.tally f) :=
  ⟨ho.books.tally f, ho.link⟩

theorem ensures_write {f : Field} {w : Word} (hf : f ≠ .t) (ha : m.heap.Live a)
    (hty : (m.heap.cellAt a).t = .actorT) (hapart : a ∉ js.map Job.actor ++ ks.map Prod.fst) :
    Ensures (liftM (Heap.store (.ref a) f w) : MachineM Unit) m
      (fun _ m' => Over B n t e q js ks m' ∧ m'.heap.Live a ∧ (m'.heap.cellAt a).t = .actorT ∧
        m'.heap.permanent = m.heap.permanent) E := by
  refine (ho.books.ensures_write (fun h => absurd h hf) ha (.inr ⟨hty, hapart⟩)).imp ?_
  rintro - m' ⟨hb, hset, -, -⟩
  have hta : t ≠ a := fun h => (ho.books.loose t List.mem_cons_self).2.2 (h ▸ hty)
  refine ⟨⟨hb, ?_⟩, hset.live (fun h => absurd h hf) ha, ?_, hset.permanent⟩
  · rw [hset.ne hta]
    exact ho.link
  · rw [hset.self]
    exact (Cell.get_set_ne _ _ hf.symm).trans hty

theorem ensures_retire :
    Ensures retire m (fun _ m' => Books B n ⟨[], q, js.map Job.thread, js, ks⟩ m') E := by
  unfold retire
  refine ho.books.ensures_popThread.bind ?_
  rintro r m₁ ⟨rfl, hb₁, hr⟩
  refine ensures_fetch_bind fun k hk _ => ?_
  cases hk
  rw [show (m₁.heap.cellAt t).get .y = .ref e from (hr.y t).trans ho.link]
  refine ((hb₁.reorder (.swap e t [])).ensures_give (hb₁.not_thread (by simp))).bind ?_
  rintro - m₂ ⟨hb₂, -, -⟩
  exact (hb₂.ensures_give (hb₂.not_thread (by simp))).imp (fun _ _ h => h.1)

end Over

theorem Job.perm_cells (hstack : j.stack = []) :
    j.cells.Perm (j.sends.reverse ++ [j.thread, j.event]) := by
  unfold Job.cells
  rw [hstack, List.nil_append]
  exact (@List.perm_append_comm _ [j.thread, j.event] j.sends).trans
    (j.sends.reverse_perm.symm.append_right _)

namespace Underway

variable (ht : Underway B n j q js ks m)

include ht

theorem sends_not_lined (hi : i ∈ j.sends) : i ∉ j.thread :: js.map Job.thread := fun h => by
  obtain rfl | h := List.mem_cons.1 h
  · exact (List.nodup_cons.1 ht.nodup).1 (by simp [hi])
  · exact ht.not_lined (by simp [Job.cells, hi]) h

theorem flushSends (hstack : j.stack = []) : Ensures (flushSends (.ref j.actor)) m
      (fun _ m' => ∃ q', Over B n j.thread j.event q' js ks m' ∧ m'.heap.Live j.actor ∧
        (m'.heap.cellAt j.actor).t = .actorT ∧ m'.heap.permanent = m.heap.permanent) E := by
  unfold Machine.flushSends
  refine ensures_pendingSends_bind ?_ ht.stands.withholds.chain ht.stands.withholds.events
    ht.actor.1.1 ?_
  · exact ht.books.pristine.not_isEvent_nil
  refine ((ht.books.reorder (Job.perm_cells hstack)).ensures_deliverAll fun i hi => ?_).bind ?_
  · have hi := List.mem_reverse.1 hi
    exact ⟨ht.stands.withholds.events i hi, ht.sends_not_lined hi⟩
  rintro bs m' ⟨q', hb, hm⟩
  obtain ⟨hlive, hty⟩ := hm.live ht.actor.1 ht.actor.2
  refine ⟨q', ⟨hb, ?_⟩, hlive, hty, hm.permanent⟩
  rw [hm.own j.thread (by simp)]
  exact ht.stands.sits.link

theorem abort :
    Ensures abortTransaction m (fun _ m' => Over B n j.thread j.event q js ks m') E := by
  unfold abortTransaction
  refine ht.me_bind (ht.discardBecome_bind (ht.clearStack.bind ?_))
  rintro - m₁ ht₁
  refine ensures_pendingSends_bind ht₁.books.pristine.not_isEvent_nil ht₁.stands.withholds.chain
    ht₁.stands.withholds.events ht₁.actor.1.1 ?_
  refine ((ht₁.books.reorder (Job.perm_cells rfl)).ensures_freeAll fun i hi => ?_).bind ?_
  · exact ht₁.sends_not_lined (List.mem_reverse.1 hi)
  rintro - m₂ ⟨hb, hm⟩
  obtain ⟨hlive, hty⟩ := hm.live ht₁.actor.1 ht₁.actor.2
  have ho : Over B n j.thread j.event q js ks m₂ := by
    refine ⟨hb, ?_⟩
    rw [hm.own j.thread (by simp)]
    exact ht₁.stands.sits.link
  refine (ho.ensures_write (show Field.z ≠ .t by decide) hlive hty ht.apart).bind ?_
  rintro - m₃ ⟨ho₃, -⟩
  rw [ensures_count]
  exact ho₃.tally _

theorem stop : Ensures (stopTransaction (.ref j.actor)) m
      (fun _ m' => Over B n j.thread j.event q js ((j.actor, j.sends) :: ks) m') E := by
  unfold stopTransaction
  refine ht.discardBecome_bind (ht.clearStack.bind ?_)
  rintro - m₁ ht₁
  have hb : Books B n ⟨[j.thread, j.event] ++ j.sends, q, j.thread :: js.map Job.thread, js,
    ks⟩ m₁ := ht₁.books
  have ho : Over B n j.thread j.event q js ((j.actor, j.sends) :: ks) m₁ :=
    ⟨hb.halt ht₁.stands.withholds ht₁.apart fun i hi hs => ht₁.sends_not_lined hs hi,
      ht₁.stands.sits.link⟩
  rw [ensures_count_bind]
  exact (Silent.note _).ensures fun _ _ hq => (ho.tally _).quiet hq

theorem commit :
    Ensures (commitTransaction (.ref j.actor)) m (fun _ m' => ∃ q',
      Over B n j.thread j.event q' js ks m')
      E := by
  unfold commitTransaction
  refine ht.clearStack.bind ?_
  rintro - m₁ ht₁
  refine ht₁.takeBecome_bind ((ht₁.flushSends rfl).bind ?_)
  rintro sent m₂ ⟨q', ho, hlive, hty, -⟩
  refine (ho.ensures_write (show Field.z ≠ .t by decide) hlive hty ht.apart).bind ?_
  rintro - m₃ ⟨ho₃, -⟩
  rw [ensures_count_bind]
  exact (Silent.noteDispatch _).ensures fun _ _ hq => ⟨q', (ho₃.tally _).quiet hq⟩

theorem release : Ensures (releaseActor (.ref j.actor)) m
      (fun _ m' => ∃ q',
        Over B (n + if m.heap.permanent ≤ j.actor then 1 else 0) j.thread j.event q' js ks
          m') E := by
  unfold releaseActor
  refine ht.discardBecome_bind (ht.seat.ensures_clearStack.bind ?_)
  rintro - m₁ ⟨hs, hw⟩
  have ht₁ := ht.shifts hs hw
  refine (ht₁.flushSends rfl).bind ?_
  rintro sent m₂ ⟨q', ho₂, hlive₂, hty₂, hp₂⟩
  refine (ho₂.ensures_write (show Field.y ≠ .t by decide) hlive₂ hty₂ ht.apart).bind ?_
  rintro - m₃ ⟨ho₃, hlive₃, hty₃, hp₃⟩
  have hp : m₃.heap.permanent = m.heap.permanent := by rw [hp₃, hp₂, hw.tends.reworks.permanent]
  have hend : ∀ {k : Nat} {m₄ : Machine}, Over B k j.thread j.event q' js ks m₄ →
      k = n + (if m.heap.permanent ≤ j.actor then 1 else 0) →
      Ensures (do
          count fun s => { s with releases := s.releases + 1 }
          note (.released (Word.ref j.actor).toCap sent)) m₄
        (fun _ m' => ∃ q',
          Over B (n + if m.heap.permanent ≤ j.actor then 1 else 0) j.thread j.event q' js ks m')
        E := by
    rintro _ m₄ ho₄ rfl
    rw [ensures_count_bind]
    exact (Silent.note _).ensures fun _ _ hq => ⟨q', (ho₄.tally _).quiet hq⟩
  rw [ensures_look_bind]
  refine .ite (fun hperm => ?_) fun hperm => ?_
  · have hlt : ¬ m.heap.permanent ≤ j.actor := by
      rw [← hp]
      exact Nat.not_le.2 (of_decide_eq_true hperm)
    refine (Silent.note _).bind fun _ m₄ hq => ?_
    have ho₄ := ho₃.quiet hq
    refine (ho₄.ensures_write (show Field.z ≠ .t by decide) (hq.heap ▸ hlive₃)
      (hq.heap ▸ hty₃) ht.apart).bind ?_
    rintro - m₅ ⟨ho₅, -⟩
    exact hend ho₅ (by rw [if_neg hlt, Nat.add_zero])
  · have hle : m.heap.permanent ≤ j.actor := by
      rw [← hp]
      exact Nat.le_of_not_lt fun hlt => hperm (decide_eq_true hlt)
    refine (ho₃.books.ensures_release hty₃ ht.apart).bind ?_
    rintro - m₄ ⟨hb₄, htend, -⟩
    have hta : j.thread ≠ j.actor := fun h =>
      (ho₃.books.loose j.thread List.mem_cons_self).2.2 (h ▸ hty₃)
    refine hend ⟨hb₄, ?_⟩ (by rw [if_pos hle])
    rw [htend.same (ho₃.books.loose j.thread List.mem_cons_self).2.1 hta]
    exact ho₃.link

theorem ensures_endTransaction (en : Ending) : Ensures (endTransaction en) m
      (fun _ m' => ∃ q', Over B (n + if en = .release ∧
        m.heap.permanent ≤ j.actor then 1 else 0) j.thread j.event q' js
        ((if en = .stop then [(j.actor, j.sends)] else []) ++ ks) m') E := by
  unfold endTransaction
  refine ht.me_bind ?_
  cases en with
  | abort =>
    refine ht.seat.ensures_pop.bind ?_
    rintro reason m₁ ⟨l, hs, hw⟩
    refine (Silent.note _).bind fun _ m₂ hq => ?_
    exact ((ht.shifts hs hw).quiet hq).abort.imp (fun _ _ ho => ⟨q, by simpa using ho⟩)
  | stop => exact ht.stop.imp (fun _ _ ho => ⟨q, by simpa using ho⟩)
  | commit => exact ht.commit.imp (fun _ _ ⟨q', ho⟩ => ⟨q', by simpa using ho⟩)
  | release => exact ht.release.imp (fun _ _ ⟨q', ho⟩ => ⟨q', by simpa using ho⟩)

theorem ensures_perform (i : Instruction) {next : Word} (hi : i.isFrugal = true)
    (hfinish : ∀ en, i ≠ .finish en) :
    Ensures (perform i next) m
      (fun flow m' => ∃ ip l k, flow = .next ip ∧
        Underway B n { j with stack := l, sends := k } q js ks m')
      fun m' => ∃ l, Underway B n { j with stack := l } q js ks m' := by
  by_cases hsend : ∃ c, i = .send c
  · obtain ⟨c, rfl⟩ := hsend
    have hc : c = 0 := of_decide_eq_true hi
    subst hc
    unfold perform
    refine (ht.handles ht.seat.handles_composeMessage).bind ?_
    rintro ⟨target, msg⟩ m₁ ⟨l, ht₁⟩
    refine (ht₁.holdBack target msg).bind ?_
    rintro - m₂ ⟨e, ht₂⟩
    exact ⟨next, l, e :: j.sends, rfl, ht₂⟩
  · refine (ht.seat.ensures_perform i hi (fun c h => hsend ⟨c, h⟩) hfinish).mono ?_ ?_
    · rintro flow m' ⟨⟨ip, rfl⟩, l, hs, hw⟩
      exact ⟨ip, l, j.sends, rfl, ht.shifts hs hw⟩
    · rintro m' ⟨l, hs, hw⟩
      exact ⟨l, ht.shifts hs hw⟩

theorem ensures_performAt
    (hi : ∀ i next, m.heap.instruction ip = .ok (i, next) → i.isFrugal = true ∧
      ∀ en, i ≠ .finish en) :
    Ensures (performAt ip) m
      (fun flow m' => ∃ ip' l k, flow = .next ip' ∧ m'.heap.isCode ip' = true ∧
        Underway B n { j with stack := l, sends := k } q js ks m')
      fun m' => ∃ l k, Underway B n { j with stack := l, sends := k } q js ks m' := by
  unfold performAt
  refine Ensures.bind (Q := fun r m' => m' = m ∧ m.heap.instruction ip = .ok r) ?_ ?_
  · rw [ensures_ask]
    cases m.heap.instruction ip with
    | ok r => exact ⟨rfl, rfl⟩
    | error f => exact .inr ⟨j.stack, j.sends, ht⟩
  rintro ⟨i, next⟩ m' ⟨rfl, hin⟩
  obtain ⟨hfrugal, hfinish⟩ := hi i next hin
  refine Ensures.bind ((ht.ensures_perform i hfrugal hfinish).mono (fun _ _ h => h) ?_) ?_
  · rintro m₁ ⟨l, ht₁⟩
    exact ⟨l, j.sends, ht₁⟩
  rintro flow m₁ ⟨ip', l, k, rfl, ht₁⟩
  dsimp only
  rw [ensures_look_bind]
  cases hc : m₁.heap.isCode ip' with
  | true => exact ⟨ip', l, k, rfl, hc, ht₁⟩
  | false => exact .inr ⟨l, k, ht₁⟩

theorem ensures_performAt_finish {next : Word} {en : Ending}
    (hi : m.heap.instruction ip = .ok (.finish en, next)) :
    Ensures (performAt ip) m
      (fun flow m' => flow = .ended en ∧ ∃ q',
        Over B (n + if en = .release ∧ m.heap.permanent ≤ j.actor then 1 else 0) j.thread
          j.event q' js
          ((if en = .stop then [(j.actor, j.sends)] else []) ++ ks) m') E := by
  unfold performAt
  refine Ensures.bind (Q := fun r m' => m' = m ∧ r = (.finish en, next)) ?_ ?_
  · rw [ensures_ask, hi]
    exact ⟨rfl, rfl⟩
  rintro r m' ⟨rfl, rfl⟩
  refine Ensures.bind (Q := fun flow m'' => flow = .ended en ∧ ∃ q',
    Over B (n + if en = .release ∧ m'.heap.permanent ≤ j.actor then 1 else 0) j.thread j.event q' js
      ((if en = .stop then [(j.actor, j.sends)] else []) ++ ks) m'') ?_ ?_
  · unfold perform
    exact (ht.ensures_endTransaction en).bind fun _ _ ho => ⟨rfl, ho⟩
  · rintro flow m₁ ⟨rfl, ho⟩
    exact ⟨rfl, ho⟩

theorem ensures_continue (hc : m.heap.isCode ip = true) : Ensures (do
        Heap.store (.ref j.thread) .t ip
        rotate : MachineM Unit) m
      (fun _ m' => Books B n ⟨[], q, (js ++ [j]).map Job.thread, js ++ [j], ks⟩ m') E := by
  obtain ⟨c, rfl, hlt, hcode⟩ := Heap.hasType_iff.1 hc
  have hres : Word.reserved ≤ c := ht.books.pristine.reserved_le (by rw [hcode]; decide)
    (by rw [hcode]; decide)
  have hne : ∀ k < Word.reserved, Word.ref c ≠ .ref k := fun k hk h => by
    cases h
    omega
  have hth := ht.loose (i := j.thread) List.mem_cons_self
  refine (ht.books.ensures_write (f := .t) (fun _ => ⟨hne _ (by decide), hne _ (by decide)⟩) hth.2.1
    (.inl ⟨List.mem_cons_self, nofun⟩)).bind ?_
  rintro - m₁ ⟨hb₁, hset, -, -⟩
  have hrest : ∀ i ∈ j.event :: (j.stack ++ j.sends), i ≠ j.thread := fun i hi h =>
    (List.nodup_cons.1 ht.nodup).1 (h ▸ hi)
  have hj₁ : j.Stands m₁.heap := by
    refine ht.stands.congr (Nat.le_of_eq hset.top.symm) ?_ ?_ (fun i hi => hset.ne (hrest i hi))
      (hset.ne (ht.actor_ne List.mem_cons_self).symm)
    · rw [hset.self]
      rfl
    · rw [hset.self]
      rfl
  have ht₁ : Underway B n j q js ks m₁ := ⟨hb₁, hj₁, ht.apart⟩
  unfold rotate
  refine hb₁.ensures_popThread.bind ?_
  rintro r m₂ ⟨rfl, hb₂, hr⟩
  refine (hb₂.ensures_putThread List.mem_cons_self (ht.not_lined List.mem_cons_self)).imp ?_
  rintro - m₃ ⟨hb₃, hr'⟩
  have hr := hr.trans hr' (n := j.thread :: js.map Job.thread) (by simp) fun i hi => hi
  refine hb₃.give_job (hj₁.congr (Nat.le_of_eq hr.top.symm) (hr.x _) (hr.y _) (fun i hi =>
    hr.same i ?_)
    (hr.same _ fun h => ?_)) ht.apart
  · exact List.not_mem_cons_of_ne_of_not_mem (hrest i hi) (ht.not_lined (List.mem_cons_of_mem _ hi))
  · exact (hb₁.loose j.actor (hb₁.mem_cells (.inr (.inr h)))).2.2 ht₁.actor.2

theorem current_eq : m.current = j.actor := by
  unfold current
  rw [ht.head, show (m.heap.cellAt (Word.ref j.thread).index).y = _ from ht.stands.sits.link,
    show (m.heap.cellAt (Word.ref j.event).index).x = _ from ht.stands.sits.target]
  rfl

end Underway

end ActorMachine
