import ActorMachine.Proofs.TransactionCells

namespace ActorMachine

open Machine

variable {B n i : Nat} {j : Job} {q l : List Nat} {js : List Job} {ks : List (Nat × List Nat)}
  {m m' : Machine}
  {E : Machine → Prop} {α β : Type}

/-- Between two rounds every cell that was taken has its place, and the actors that have stopped are
known. -/
def Accounted (B n : Nat) (stopped : List Nat) (m : Machine) : Prop :=
  ∃ q js ks, Books B n ⟨[], q, js.map Job.thread, js, ks⟩ m ∧ ks.map Prod.fst = stopped

namespace Machine

def halting (m : Machine) :
    List Nat := if m.instruction? = some (.finish .stop) then [m.current] else []

def releasing (m : Machine) : Nat :=
  if m.instruction? = some (.finish .release) ∧ m.heap.permanent ≤ m.current then 1 else 0

theorem instruction?_iff {ip : Word} {m₁ : Machine} {i : Instruction}
    (hip : nextAddress m.threads.head m = .ok ip m₁) :
    m.instruction? = some i ↔ ∃ next, m₁.heap.instruction ip = .ok (i, next) := by
  refine ⟨fun h => ?_, fun ⟨_, h⟩ => instruction?_eq hip h⟩
  cases hi : m₁.heap.instruction ip with
  | ok r =>
    rw [instruction?_eq (i := r.1) hip hi] at h
    cases h
    exact ⟨r.2, rfl⟩
  | error f => simp [instruction?, hip, hi] at h

end Machine

namespace Underway

theorem ensures_advance (ht : Underway B n j q js ks m)
    (hf : ∀ i, m.instruction? = some i → i.isFrugal = true) :
    Ensures (advance (.ref j.thread)) m
      (fun _ m' => Accounted B (n + m.releasing) (m.halting ++ ks.map Prod.fst) m') E := by
  unfold advance
  refine Ensures.bind (Q := fun ip m' => nextAddress (.ref j.thread) m = .ok ip m' ∧
    m' = m.tally .performed)
    (Ensures.result ?_) ?_
  · unfold nextAddress
    exact ensures_fetch_bind fun _ _ _ => rfl
  rintro ip m₁ ⟨hip, rfl⟩
  rw [← ht.head] at hip
  have ht₁ := ht.tally .performed
  by_cases hfinish : ∃ en next, m.heap.instruction ip = .ok (.finish en, next)
  · obtain ⟨en, next, hi⟩ := hfinish
    have hins := instruction?_eq hip hi
    refine ensures_attempt_bind (F := fun _ => False) (ht₁.ensures_performAt_finish hi) ?_ ?_
    · rintro flow m₂ - ⟨rfl, q', ho⟩
      refine ho.ensures_retire.bind ?_
      rintro - m₃ hb
      refine ⟨q', js, (if en = .stop then [(j.actor, j.sends)] else []) ++ ks, ?_, ?_⟩
      · unfold releasing
        simp only [hins, Option.some.injEq, Instruction.finish.injEq, ht.current_eq]
        exact hb
      · unfold halting
        simp only [hins, Option.some.injEq, Instruction.finish.injEq, ht.current_eq]
        split <;> rfl
    · rintro f m₂ - (hfatal | h)
      · dsimp only
        rw [if_pos hfatal]
        exact (Silent.note _).bind fun _ _ _ => .inl hfatal
      · exact h.elim
  · have hno : ∀ en, m.instruction? ≠ some (.finish en) := fun en h =>
      have ⟨next, hi⟩ := (instruction?_iff hip).1 h
      hfinish ⟨en, next, hi⟩
    have hhalt : m.halting = [] := if_neg (hno .stop)
    have hrel : m.releasing = 0 := if_neg fun h => hno .release h.1
    rw [hhalt, hrel]
    refine ensures_attempt_bind (ht₁.ensures_performAt fun i next hi => ⟨?_, ?_⟩) ?_ ?_
    · exact hf i (instruction?_eq hip hi)
    · rintro en rfl
      exact hfinish ⟨en, next, hi⟩
    · rintro flow m₂ - ⟨ip', l, k, rfl, hc, ht₂⟩
      dsimp only
      rw [← bind_assoc]
      refine (ht₂.ensures_continue hc).bind ?_
      rintro - m₃ hb
      exact ⟨q, _, ks, hb, rfl⟩
    · rintro f m₂ - hf
      dsimp only
      refine .ite (fun hfatal => ?_) fun hfatal => ?_
      · exact (Silent.note _).bind fun _ _ _ => .inl hfatal
      obtain ⟨l, k, ht₂⟩ := hf.resolve_left hfatal
      refine (Silent.note _).bind fun _ m₃ hq => ?_
      refine (ht₂.quiet hq).abort.bind ?_
      rintro - m₄ ho
      refine ho.ensures_retire.bind ?_
      rintro - m₅ hb
      exact ⟨q, js, ks, hb, rfl⟩

end Underway

theorem Collector.eq_markSweep {c : Collector} (hc : c.isManual = true) :
    ∃ gc : MarkSweep, c = .markSweep gc ∧ gc.automatic = false := by
  cases c with
  | markSweep gc => exact ⟨gc, rfl, by simpa [Collector.isManual] using hc⟩
  | incremental gc => cases hc

namespace Books

theorem ensures_safepoint {s : Stock} (hb : Books B n s m) :
    Ensures safepoint m (fun _ m' => Books B n s m') E := by
  obtain ⟨gc, hgc, hauto⟩ := Collector.eq_markSweep hb.manual
  have hsafe : m.collector.safepoint m.roots m.heap = (none, ⟨m.collector, m.heap, []⟩) := by
    rw [hgc]
    unfold Collector.safepoint MarkSweep.safepoint
    simp [hauto]
  unfold Ensures
  rw [safepoint_eq hsafe]
  exact hb.of_eq rfl rfl rfl rfl

theorem instruction?_eq_none {s : Stock} (hb : Books B n s m) (hhead : m.threads.head = .nil) :
    m.instruction? = none := by
  have haddr : Ensures (nextAddress .nil) m (fun ip m' => m'.heap.isCode ip = false)
      fun _ => True := by
    unfold nextAddress
    refine ensures_fetch_bind fun i hi _ => ?_
    cases hi
    rw [ensures_count_bind, ensures_pure]
    change m.heap.isCode (m.heap.cellAt 1).t = false
    obtain h | h := hb.pristine.type (i := 1) (by decide) <;> rw [h] <;>
      exact hb.pristine.hasType_eq (by decide) (by decide) (by decide)
  rw [Option.eq_none_iff_forall_ne_some]
  intro i hi
  rw [← hhead] at haddr
  cases hip : nextAddress m.threads.head m with
  | error f m₁ => simp [instruction?, hip] at hi
  | ok ip m₁ =>
    obtain ⟨next, hin⟩ := (instruction?_iff hip).1 hi
    unfold Heap.instruction at hin
    rw [haddr.ok hip] at hin
    cases hin

theorem ensures_execute (hb : Books B n ⟨[], q, js.map Job.thread, js, ks⟩ m)
    (hf : ∀ i, m.instruction? = some i → i.isFrugal = true) :
    Ensures execute m
      (fun _ m' => Accounted B (n + m.releasing) (m.halting ++ ks.map Prod.fst) m') E := by
  unfold execute
  rw [ensures_thread_bind]
  cases js with
  | nil =>
    have hhead : m.threads.head = .nil := hb.lined.1
    have hnone := hb.instruction?_eq_none hhead
    rw [if_pos hhead, ensures_pure, show m.releasing = 0 by simp [releasing, hnone],
      show m.halting = [] by simp [halting, hnone]]
    exact ⟨q, [], ks, hb, rfl⟩
  | cons j js =>
    obtain ⟨hb₁, hj, ha⟩ := hb.take_job
    have ht : Underway B n j q js ks m := ⟨hb₁, hj, ha⟩
    obtain ⟨gc, hgc, -⟩ := Collector.eq_markSweep hb.manual
    rw [ht.head, if_neg (ht.head ▸ hb.lined.1.ne_nil)]
    refine Ensures.bind (Q := fun _ m' => m = m') ?_ ?_
    · unfold Ensures
      rw [collectorStep_eq hgc]
    rintro - m' rfl
    refine (ht.ensures_advance hf).bind ?_
    rintro step m₁ ⟨q₁, js₁, ks₁, hb₂, hk⟩
    cases step with
    | noThreads | continued => exact ⟨q₁, js₁, ks₁, hb₂, hk⟩
    | retired en => exact hb₂.ensures_safepoint.bind fun _ m₂ hb₃ => ⟨q₁, js₁, ks₁, hb₃, hk⟩

theorem ensures_lay {own line : List Nat} (hb : Books B n ⟨own, q, line, js, ks⟩ m)
    (items : List Word) :
    Ensures (liftM (Heap.ofItems items) : MachineM Word) m
      (fun v m' => ∃ l, m'.heap.Pairs v l ∧ Books B n ⟨l ++ own, q, line, js, ks⟩ m' ∧
        m.heap.Tends (fun _ => False) m'.heap ∧ Untouched m m') E := by
  rw [ensures_onHeap]
  refine (hb.sound.ensures_lay items).imp ?_
  rintro v h' ⟨l, hlay, ht⟩
  have hlive : ∀ i ∈ own, m.heap.Live i := fun i hi => (hb.loose i (List.mem_append_left _ hi)).2.1
  have hlen : items.length = l.length := by rw [← hlay.values, List.length_map]
  refine ⟨l, hlay.pairs, hb.step (.onHeap ..) ht (fun _ _ h => h.elim) ?_ (fun i hi => ?_)
    (fun i _ hi => ?_) ?_, ht, .onHeap ..⟩
  · refine List.nodup_append.2 ⟨hlay.pairs.1.nodup, (List.nodup_append.1 hb.nodup).1, ?_⟩
    rintro i hi k hk rfl
    exact (hlay.fresh i hi).1 (hlive i hk)
  · obtain h | h := List.mem_append.1 hi
    · obtain ⟨k, hk, hlt, hty⟩ := Heap.isPair_iff.1 (hlay.pairs.2 i h)
      cases hk
      exact ⟨.inr (hlay.fresh i h).1, (hlay.fresh i h).2, ⟨hlt, by rw [hty]; decide⟩,
        by rw [hty]; decide⟩
    · obtain ⟨hp, hl, hty⟩ := hb.loose i (List.mem_append_left _ h)
      exact ⟨.inl h, hp, ht.live hl (by simp), (ht.same hl (by simp)).symm ▸ hty⟩
  · exact ⟨List.mem_append_right _ hi, congrArg Cell.z (ht.same (hlive i hi) (by simp))⟩
  · change h'.inUse + _ + _ = _
    rw [hlay.inUse, hlen, List.length_append]
    omega

theorem not_engaged {s : Stock} {a : Nat} (hb : Books B n s m)
    (hz : (m.heap.cellAt a).z = .undefined) :
    a ∉ s.actors := fun ha => by
  have hchain : ∃ l, m.heap.Chain .z (m.heap.cellAt a).z l := by
    obtain h | h := List.mem_append.1 ha
    · obtain ⟨j, hj, rfl⟩ := List.mem_map.1 h
      exact ⟨_, (hb.jobs j hj).withholds.chain⟩
    · obtain ⟨k, hk, rfl⟩ := List.mem_map.1 h
      exact ⟨_, (hb.halts k hk).chain⟩
  obtain ⟨l, hl⟩ := hchain
  rw [hz] at hl
  cases l with
  | nil => cases hl
  | cons i l =>
    obtain ⟨h, hres, -⟩ := hl
    cases h
    exact absurd hres (by decide)

theorem ensures_spawn {i a : Nat} (hb : Books B n ⟨[i], q, js.map Job.thread, js, ks⟩ m)
    (hx : (m.heap.cellAt i).x = .cap a) (hbare : (m.heap.cellAt i).z = .nil)
    (ha : m.heap.isActor (.cap a) = true) (hidle : (m.heap.cellAt a).z = .undefined) :
    Ensures (spawn (.ref i) (.ref a)) m
      (fun _ m' => ∃ js', Books B n ⟨[], q, js'.map Job.thread, js', ks⟩ m') E := by
  obtain ⟨k, hk, hlt, hty⟩ := Heap.isActor_iff.1 ha
  cases hk
  have hlive : m.heap.Live a := ⟨hlt, by rw [hty]; decide⟩
  have hapart : a ∉ js.map Job.actor ++ ks.map Prod.fst := hb.not_engaged hidle
  have hi := hb.loose i List.mem_cons_self
  have hia : i ≠ a := fun h => hi.2.2 (h ▸ hty)
  have hout : i ∉ js.map Job.thread := hb.not_thread List.mem_cons_self
  unfold spawn
  refine ensures_fetch_bind fun k hk _ => ?_
  cases hk
  rw [ensures_look_bind]
  cases hc : m.heap.isCode ((m.heap.cellAt a).get .x) with
  | false => exact .inl rfl
  | true =>
    obtain ⟨c, hcode, -, hct⟩ := Heap.hasType_iff.1 hc
    have hres : Word.reserved ≤ c := hb.pristine.reserved_le (by rw [hct]; decide)
      (by rw [hct]; decide)
    have hne : ∀ k < Word.reserved, Word.ref c ≠ .ref k := fun k hk h => by
      cases h
      omega
    rw [hcode]
    refine ensures_fetch_bind fun k hk _ => ?_
    cases hk
    refine (hb.ensures_write (f := .z) nofun hlive (.inr ⟨hty, hapart⟩)).bind ?_
    rintro - m₁ ⟨hb₁, hset, -, -⟩
    -- The stack is a fresh copy of the state.
    refine Ensures.bind (Q := fun sp m' => ∃ l, m'.heap.Pairs sp l ∧
      Books B n ⟨l ++ [i], q, js.map Job.thread, js, ks⟩ m' ∧
      m₁.heap.Tends (fun _ => False) m'.heap) ?_ ?_
    · unfold copyList
      refine Ensures.bind (Q := fun _ m' => m' = m₁) ?_ ?_
      · rw [ensures_ask]
        cases hitems : m₁.heap.items ((m.heap.cellAt a).get .y) with
        | ok r => rfl
        | error f => exact .inl (Heap.isFatal_of_items hitems)
      rintro items m' rfl
      exact (hb₁.ensures_lay items).imp (fun _ _ ⟨l, hp, hb₂, ht, _⟩ => ⟨l, hp, hb₂, ht⟩)
    rintro sp m₂ ⟨l, hpairs, hb₂, ht₂⟩
    refine (hb₂.ensures_take (hne _ (by decide)) (hne _ (by decide))).bind ?_
    rintro v m₃ ⟨t, rfl, htake, hb₃, ht₃, -⟩
    have hsame : ∀ k, m₁.heap.Live k → k ≠ t ∧ m₃.heap.cellAt k = m₁.heap.cellAt k := fun k hk => by
      have hk₂ := ht₂.live hk (by simp)
      have hkt : k ≠ t := fun h => htake.not_live (h ▸ hk₂)
      exact ⟨hkt, (htake.ne hkt).trans (ht₂.same hk (by simp))⟩
    refine (hb₃.ensures_putThread List.mem_cons_self (hb₃.not_thread List.mem_cons_self)).bind ?_
    rintro - m₄ ⟨hb₄, hr⟩
    have hlive₁ : ∀ k, m.heap.Live k → m₁.heap.Live k := fun k hk => hset.live nofun hk
    have hkeep : ∀ k, m.heap.Live k → k ∉ js.map Job.thread → m₄.heap.cellAt k = m₁.heap.cellAt k :=
      fun k hk hn =>
      have h := hsame k (hlive₁ k hk)
      (hr.same k (List.not_mem_cons_of_ne_of_not_mem h.1 hn)).trans h.2
    have hcell : m₄.heap.cellAt i = m.heap.cellAt i := by rw [hkeep i hi.2.1 hout, hset.ne hia]
    have hactor : m₄.heap.cellAt a = (m.heap.cellAt a).set .z .nil := by
      rw [hkeep a hlive fun h => ?_, hset.self]
      exact (hb.loose a (hb.mem_cells (.inr (.inr h)))).2.2 hty
    have hstands : Job.Stands ⟨t, i, a, l, []⟩ m₄.heap := by
      refine ⟨⟨?_, ?_, hcell ▸ hx, hcell ▸ hbare⟩, ?_, ?_, by simp⟩
      · exact (hr.y t).trans (by rw [htake.self])
      · rw [hr.x t, htake.self]
        exact hr.pairs (ht₃.reworks.pairs hpairs (by simp))
      · refine Heap.isActor_iff.2 ⟨a, rfl, ?_, by rw [hactor]; exact hty⟩
        rw [hr.top]
        exact Nat.lt_of_lt_of_le (hset.top ▸ hlt)
          (Nat.le_trans ht₂.reworks.top_le ht₃.reworks.top_le)
      · rw [hactor]
        rfl
    have hperm : (t :: (l ++ [i])).Perm (Job.cells ⟨t, i, a, l, []⟩) := by
      unfold Job.cells
      rw [List.append_nil]
      exact (List.perm_append_singleton i l).cons t
    have hb₅ := (hb₄.reorder hperm).give_job hstands hapart
    rw [ensures_count_bind]
    exact (Silent.noteDispatch _).bind fun _ m₅ hq => ⟨_, (hb₅.tally _).quiet hq⟩

variable (hb : Books B n ⟨[], q, js.map Job.thread, js, ks⟩ m)

include hb

theorem ensures_dispatch :
    Ensures dispatch m (fun _ m' => ∃ q' js',
      Books B n ⟨[], q', js'.map Job.thread, js', ks⟩ m') E := by
  unfold dispatch
  refine hb.ensures_popEvent.bind ?_
  rintro r m₁ (⟨rfl, rfl, rfl⟩ | ⟨i, q', rfl, rfl, hline, hbare, he, hb₁⟩)
  · exact ⟨[], js, hb⟩
  dsimp only
  refine ensures_fetch_bind fun k hk _ => ?_
  cases hk
  rw [ensures_look_bind]
  cases ha : m₁.heap.isActor ((m₁.heap.cellAt i).get .x) with
  | false =>
    refine (Silent.note _).bind fun _ m₂ hq => ?_
    refine ((hb₁.quiet hq).ensures_give hline).bind ?_
    rintro - m₃ ⟨hb₃, -⟩
    rw [ensures_count_bind]
    exact ⟨q', js, hb₃.tally _⟩
  | true =>
    obtain ⟨a, hx, -, -⟩ := Heap.isActor_iff.1 ha
    rw [hx, show (Word.cap a).toRef = .ref a from rfl]
    refine ensures_fetch_bind fun k hk _ => ?_
    cases hk
    refine .ite (fun _ => ?_) fun hidle => ?_
    · refine (Silent.noteDispatch _).bind fun _ m₂ hq => ?_
      refine ((hb₁.quiet hq).ensures_putEvent (hq.heap ▸ he) hline).bind ?_
      rintro - m₃ ⟨hb₃, -⟩
      rw [ensures_count_bind]
      exact ⟨_, js, hb₃.tally _⟩
    · refine (hb₁.ensures_spawn hx hbare (hx ▸ ha) (Decidable.not_not.1 hidle)).imp ?_
      rintro - m₂ ⟨js', hb₂⟩
      exact ⟨q', js', hb₂⟩

theorem ensures_dispatchNext (b : Budget) : Ensures (dispatchNext b) m
      (fun _ m' => ∃ q' js', Books B n ⟨[], q', js'.map Job.thread, js', ks⟩ m') E := by
  obtain ⟨left, task⟩ := b
  induction left generalizing q js m with
  | zero =>
    unfold dispatchNext
    refine hb.ensures_dispatch.bind ?_
    rintro d m₁ h
    cases d with
    | dropped v => exact .inl rfl
    | idle | busy | spawned => exact h
  | succ left ih =>
    unfold dispatchNext
    refine hb.ensures_dispatch.bind ?_
    rintro d m₁ ⟨q', js', hb₁⟩
    cases d with
    | dropped v => exact ih hb₁
    | idle | busy | spawned => exact ⟨q', js', hb₁⟩

theorem ensures_post (target message : Word) : Ensures (do
        let event ← Heap.alloc ⟨.eventT, target, message, .nil⟩
        putEvent event : MachineM Unit) m
      (fun _ m' => ∃ q', Books B n ⟨[], q', js.map Job.thread, js, ks⟩ m') E := by
  refine (hb.ensures_take (show Word.eventT ≠ .freeT by decide)
    (show Word.eventT ≠ .actorT by decide)).bind ?_
  rintro v m₁ ⟨i, rfl, htake, hb₁, -, -⟩
  refine (hb₁.ensures_putEvent ?_ (hb₁.not_thread List.mem_cons_self)).imp (fun _ _ h => ⟨_, h.1⟩)
  exact Heap.hasType_iff.2 ⟨i, rfl, htake.lt_top, by rw [htake.self]⟩

theorem ensures_interrupt :
    Ensures interrupt m (fun _ m' => ∃ q', Books B n ⟨[], q', js.map Job.thread, js, ks⟩ m') E := by
  unfold interrupt
  rw [ensures_get_bind]
  cases m.clock with
  | none => exact ⟨q, hb⟩
  | some clock =>
    dsimp only
    obtain ⟨_ | seconds, clock⟩ := clock.poll
    · exact ⟨q, hb⟩
    dsimp only
    rw [ensures_modify_bind, ensures_look_bind]
    have hb₁ : Books B n ⟨[], q, js.map Job.thread, js, ks⟩ { m with clock := some clock } :=
      hb.of_eq rfl rfl rfl rfl
    refine .ite (fun _ => ?_) fun _ => ⟨q, hb₁⟩
    rw [← bind_assoc]
    refine (hb₁.ensures_post _ _).bind ?_
    rintro - m₂ ⟨q', hb₂⟩
    rw [ensures_count_bind]
    exact (Silent.note _).bind fun _ m₃ hq => ⟨q', (hb₂.tally _).quiet hq⟩

theorem ensures_prepare :
    Ensures prepare m (fun _ m' => ∃ q' js', Books B n ⟨[], q', js'.map Job.thread, js',
      ks⟩ m') E := by
  unfold prepare
  refine hb.ensures_interrupt.bind ?_
  rintro - m₁ ⟨q', hb₁⟩
  rw [ensures_look_bind]
  exact hb₁.ensures_dispatchNext _

end Books

/-- The machine is idle and does not collect by itself, and its heap is in order. -/
structure Machine.AtEase (m : Machine) : Prop where
  sound : m.heap.Sound
  pristine : m.heap.Pristine
  manual : m.collector.isManual = true
  waiting : m.Waiting []
  lined : m.Lined []

theorem Layout.atEase {ρ : Roles} (hl : m.Arranged ρ) (hm : m.collector.isManual = true)
    (hi : m.isIdle = true) : m.AtEase := by
  obtain ⟨he, ht⟩ := (Bool.and_eq_true _ _).mp hi
  obtain ⟨q, hq, -⟩ := hl.queue
  obtain ⟨line, hline, -⟩ := hl.line
  obtain rfl := hq.isEmpty_iff.1 he
  obtain rfl := hline.isEmpty_iff.1 ht
  exact ⟨hl.sound, hl.literals, hm, hq, hline⟩

/-- A run of messages from outside and of rounds whose instructions make nothing that outlives a
transaction, with the actors that have stopped and the count of those that have been freed since. -/
inductive Frugal (m₀ : Machine) : Machine → List Nat → Nat → Prop
  | start : Frugal m₀ m₀ [] 0
  | send {m m' : Machine} {stopped : List Nat} {released : Nat} (target message : Word) :
      Frugal m₀ m stopped released → send target message m = .ok () m' →
      Frugal m₀ m' stopped released
  | refused {m m' : Machine} {stopped : List Nat} {released : Nat} {f : Fault}
    (target message : Word) :
      Frugal m₀ m stopped released → send target message m = .error f m' → f.isFatal = false →
      Frugal m₀ m' stopped released
  | tick {m m₁ m' : Machine} {stopped : List Nat} {released : Nat} {b : Bool} :
    Frugal m₀ m stopped released →
      prepare m = .ok () m₁ → (∀ i, m₁.instruction? = some i → i.isFrugal = true) →
      tick m = .ok b m' → Frugal m₀ m' (m₁.halting ++ stopped) (released + m₁.releasing)

def Machine.posts? (m : Machine) (letters : List (Word × Word)) : Option Machine :=
  letters.foldlM (fun m l => final? (send l.1 l.2 m)) m

def Machine.rounds? (count : Nat) (r : Machine × List Nat × Nat) :
    Option (Machine × List Nat × Nat) :=
  (List.replicate count ()).foldlM (fun r _ => do
    let m₁ ← final? (prepare r.1)
    if m₁.instruction?.all Instruction.isFrugal then
      let m' ← final? (tick r.1)
      return (m', m₁.halting ++ r.2.1, r.2.2 + m₁.releasing)
    else none) r

theorem Books.ensures_send (hb : Books B n ⟨[], q, js.map Job.thread, js, ks⟩ m)
    (target message : Word) :
    Ensures (send target message) m (fun _ m' => ∃ q',
      Books B n ⟨[], q', js.map Job.thread, js, ks⟩ m')
      fun m' => m' = m := by
  unfold send
  rw [ensures_look_bind]
  cases m.heap.isActor target with
  | false => exact .inr rfl
  | true => exact hb.ensures_post target message

theorem Books.ensures_tick (hb : Books B n ⟨[], q, js.map Job.thread, js, ks⟩ m)
    (hf : ∀ m₁ i, prepare m = .ok () m₁ → m₁.instruction? = some i → i.isFrugal = true) :
    Ensures tick m
      (fun _ m' => ∃ m₁, prepare m = .ok () m₁ ∧
        Accounted B (n + m₁.releasing) (m₁.halting ++ ks.map Prod.fst) m') E := by
  unfold tick
  refine hb.ensures_prepare.result.bind ?_
  rintro ⟨⟩ m₁ ⟨hp, q₁, js₁, hb₁⟩
  refine (hb₁.ensures_execute fun i hi => hf m₁ i hp hi).bind fun step m₂ ha => ?_
  cases step <;> exact ⟨m₁, hp, ha⟩

theorem Machine.AtEase.books {m₀ : Machine} (h₀ : m₀.AtEase) :
    Books m₀.heap.inUse 0 ⟨[], [], [], [], []⟩ m₀ where
  sound := h₀.sound
  pristine := h₀.pristine
  manual := h₀.manual
  nodup := .nil
  loose _ hi := nomatch hi
  actors := .nil
  events _ hi := nomatch hi
  threads _ hi := nomatch hi
  jobs _ hi := nomatch hi
  halts _ hi := nomatch hi
  waiting := h₀.waiting
  lined := h₀.lined
  balance := rfl

namespace Frugal

variable {m₀ : Machine} {stopped : List Nat} {released : Nat}

theorem accounted (h₀ : m₀.AtEase) (hr : Frugal m₀ m stopped released) :
    Accounted m₀.heap.inUse released stopped m := by
  induction hr with
  | start => exact ⟨[], [], [], h₀.books, rfl⟩
  | send target message _ hsend ih =>
    obtain ⟨q, js, ks, hb, hk⟩ := ih
    obtain ⟨q', hb'⟩ := (hb.ensures_send target message).ok hsend
    exact ⟨q', js, ks, hb', hk⟩
  | refused target message _ hsend hf ih =>
    obtain ⟨q, js, ks, hb, hk⟩ := ih
    obtain rfl := (hb.ensures_send target message).error hsend hf
    exact ⟨q, js, ks, hb, hk⟩
  | @tick m m₁ m' stopped released b _ hp hf ht ih =>
    obtain ⟨q, js, ks, hb, rfl⟩ := ih
    have hround := hb.ensures_tick (E := fun _ => True) fun m₂ i hp₂ hi => by
      cases hp.symm.trans hp₂
      exact hf i hi
    obtain ⟨m₂, hp₂, ha⟩ := hround.ok ht
    cases hp.symm.trans hp₂
    exact ha

/-- No cell is lost, whether the transactions end well or not. A round that fails is a fatal
fault. -/
theorem inUse_eq (h₀ : m₀.AtEase) (hr : Frugal m₀ m stopped released) :
    ∃ (q : List Nat) (jobs : List Job) (halts : List (Nat × List Nat)),
      m.Waiting q ∧ m.pendingEvents =
        (if q.length ≤ m.heap.sanity then .ok (q.map .ref) else .error (.runaway "queue walk")) ∧
      m.Lined (jobs.map Job.thread) ∧ m.pendingThreads =
        (if jobs.length ≤ m.heap.sanity then .ok (jobs.map fun j => .ref j.thread)
          else .error (.runaway "queue walk")) ∧
      (∀ j ∈ jobs, j.Stands m.heap) ∧ halts.map Prod.fst = stopped ∧
      (∀ k ∈ halts, m.heap.Withholds k.1 k.2) ∧
      m.heap.inUse + released = m₀.heap.inUse + q.length +
        (jobs.map fun j => 2 + j.stack.length + j.sends.length).sum +
        (halts.map fun k => k.2.length).sum ∧
      (m.isIdle = true → stopped = [] → released = 0 → m.heap.inUse = m₀.heap.inUse) ∧
      ∀ f m', Machine.tick m = .error f m' →
        (∀ m₁ i, Machine.prepare m = .ok () m₁ → m₁.instruction? = some i → i.isFrugal = true) →
          f.isFatal = true := by
  obtain ⟨q, js, ks, hb, rfl⟩ := hr.accounted h₀
  have hjobs : (js.flatMap Job.cells).length = (js.map fun j =>
      2 + j.stack.length + j.sends.length).sum := by
    rw [List.length_flatMap]
    congr 1
    refine List.map_congr_left fun j _ => ?_
    simp only [Job.cells, List.length_cons, List.length_append]
    omega
  have hlen : m.heap.inUse + released = m₀.heap.inUse + q.length +
      (js.map fun j => 2 + j.stack.length + j.sends.length).sum + (ks.map fun k =>
        k.2.length).sum := by
    rw [hb.balance, ← hjobs]
    simp only [Stock.cells, List.nil_append, List.length_append, List.length_flatMap]
    omega
  refine ⟨q, js, ks, hb.waiting, ?_, hb.lined, ?_, hb.jobs, rfl, hb.halts, hlen,
    fun hidle hstop hrel => ?_, fun f m' ht hf => ?_⟩
  · exact hb.waiting.toList fun i hi => (hb.loose i (hb.mem_cells (.inr (.inl hi)))).2.1.1
  · have h := hb.lined.toList fun i hi => (hb.loose i (hb.mem_cells (.inr (.inr hi)))).2.1.1
    simpa [Machine.pendingThreads, Function.comp_def] using h
  · obtain ⟨he, ht⟩ := (Bool.and_eq_true _ _).mp hidle
    have hq : q = [] := hb.waiting.isEmpty_iff.1 he
    have hjs : js = [] := List.map_eq_nil_iff.1 (hb.lined.isEmpty_iff.1 ht)
    have hks : ks = [] := List.map_eq_nil_iff.1 hstop
    subst hq hjs hks hrel
    simpa using hlen
  · by_contra hfatal
    exact (hb.ensures_tick (E := fun _ => False) hf).error ht (by simpa using hfatal)

theorem posts {letters : List (Word × Word)} (hr : Frugal m₀ m stopped released)
    (hp : m.posts? letters = some m') : Frugal m₀ m' stopped released := by
  refine foldlM_induction (I := fun m => Frugal m₀ m stopped released) hr hp
    fun m l m' hr hsend => ?_
  obtain ⟨⟨⟩, hsend⟩ := final?_eq_some hsend
  exact .send l.1 l.2 hr hsend

theorem rounds {r r' : Machine × List Nat × Nat} {count : Nat} (hr : Frugal m₀ r.1 r.2.1 r.2.2)
    (hp : rounds? count r = some r') : Frugal m₀ r'.1 r'.2.1 r'.2.2 := by
  refine foldlM_induction (I := fun r => Frugal m₀ r.1 r.2.1 r.2.2) hr hp fun r _ r' hr hround => ?_
  obtain ⟨m₁, hprep, hround⟩ := Option.bind_eq_some_iff.1 hround
  split at hround
  · rename_i hall
    obtain ⟨m', htick, hround⟩ := Option.bind_eq_some_iff.1 hround
    cases hround
    obtain ⟨⟨⟩, hprep⟩ := final?_eq_some hprep
    obtain ⟨b, htick⟩ := final?_eq_some htick
    refine .tick hr hprep (fun i hi => ?_) htick
    rw [hi] at hall
    exact hall
  · cases hround

end Frugal

theorem Frugal.inUse_eq_underway : ∃ m₀ m, m₀.AtEase ∧ Frugal m₀ m [17] 1 ∧ m₀.heap.inUse = 30 ∧
    m.heap.inUse = 37 ∧ ∃ (q : List Nat) (jobs : List Job) (halts : List (Nat × List Nat)),
      m.Waiting q ∧ m.Lined (jobs.map Job.thread) ∧ (∀ j ∈ jobs, j.Stands m.heap) ∧
      halts.map Prod.fst = [17] ∧
      (∀ k ∈ halts, m.heap.Withholds k.1 k.2) ∧ 37 + 1 = 30 + q.length +
        (jobs.map fun j => 2 + j.stack.length + j.sends.length).sum +
        (halts.map fun k => k.2.length).sum := by
  -- One actor has stopped with an event withheld and one has been freed. A third is at work on an
  -- event while another one waits for it, and it is about to fail.
  have hplay : (play { heapCapacity := 90, topMargin := 8, strategy := .manual }
      [.block [.push (.fix 1), .my .self, .send 0, .finish .stop], .actor (.ref 16) [],
        .block [.push (.fix 2), .my .self, .pick 2, .pick 2, .send 0, .alu .add, .finish .commit],
        .actor (.ref 24) [.fix 7], .block [.depth, .finish .release]]
      [.newActor (.ref 28) .nil]).any (fun m₀ =>
      (m₀.posts? [(.cap 17, .nil), (.cap 29, .nil), (.cap 26, .nil), (.cap 26, .nil)]).any fun m₁ =>
        (Machine.rounds? 11 (m₁, [], 0)).any fun r =>
        decide (m₀.collector.isManual = true ∧ m₀.isIdle = true ∧
          m₀.heap.inUse = 30 ∧ r.1.heap.inUse = 37 ∧ r.2 = ([17], 1))) = true := by
    decide +kernel
  obtain ⟨m₀, hm₀, hfacts⟩ := (Option.any_eq_true _ _).1 hplay
  obtain ⟨m₁, hm₁, hfacts⟩ := (Option.any_eq_true _ _).1 hfacts
  obtain ⟨⟨m, k⟩, hm, hfacts⟩ := (Option.any_eq_true _ _).1 hfacts
  obtain ⟨hmanual, hidle, huse₀, huse, rfl⟩ := of_decide_eq_true hfacts
  obtain ⟨ρ, ht⟩ := (Running.of_play hm₀).tidy (by decide)
  have h₀ := ht.settled.orderly.layout.atEase hmanual hidle
  have hr : Frugal m₀ m [17] 1 := (Frugal.start.posts hm₁).rounds (r := (m₁, [], 0)) hm
  obtain ⟨q, jobs, halts, hq, -, hl, -, hjobs, hk, hhalts, hbalance, -⟩ := hr.inUse_eq h₀
  rw [huse, huse₀] at hbalance
  exact ⟨m₀, m, h₀, hr, huse₀, huse, q, jobs, halts, hq, hl, hjobs, hk, hhalts, hbalance⟩

end ActorMachine
