import ActorMachine.Proofs.Transaction

namespace ActorMachine

open Heap

open Machine

variable {ρ ρ' ρ'' : Roles} {h h' : Heap} {m m' m'' : Machine} {α β : Type}
variable {w : Word} {r : Role} {held k : List Nat} {m₁ m₂ : Machine} {ρ₁ ρ₂ : Roles}
  {P : β → Machine → Prop}
  {f : Field}

def Final (t e a i : Nat) (r : Role) : Prop :=
  Staging t e i r ∨ i = a ∨ r = .pending a ∨ r = .queued

abbrev Ends (t e a : Nat) := Keeps (Final t e a)

/-- The transaction of the thread has ended. The others are still in the hands of its end. -/
structure Closing (t e : Nat) (others : List Nat) (ρ : Roles) (m : Machine) : Prop where
  orderly : Orderly ρ m
  head : m.threads.head = .ref t
  thread : ρ t = .spent
  event : ρ e = .held
  link : (m.heap.cellAt t).y = .ref e
  brief : ∀ i, (ρ i).isBrief = true → i = t ∨ i = e ∨ i ∈ others

/-- What the actor has sent is still to be put on its way, and the actor is on its way to be
idle. -/
structure Leaving (t e a : Nat) (l : List Nat) (ρ : Roles) (m : Machine) : Prop where
  closing : Closing t e (l.reverse ++ [a]) ρ m
  actor : ρ a = .transit
  chain : m.heap.Chain .z (m.heap.cellAt a).z l
  sent : ∀ i ∈ l, i ≠ e ∧ ρ i = .held ∧ Suits ρ (m.heap.cellAt i) .queued

theorem Stages.ends {t e a : Nat} (hs : Stages t e ρ m ρ' m') : Ends t e a ρ m ρ' m' :=
  .of_untouched (hs.frame.mono fun _ _ => .inl) hs.untouched

theorem Within.ends {t e a : Nat} (hw : Within t ρ m ρ' m') : Ends t e a ρ m ρ' m' :=
  Stages.ends hw.stages

theorem Keeps.tally {M : Nat → Role → Prop} (f : Stats → Stats) : Keeps M ρ m ρ (m.tally f) :=
  ⟨.refl, .tally f, rfl⟩

structure Spares (m m' : Machine) : Prop where
  waiting : ∀ q, m.Waiting q → m'.Waiting q
  same : ∀ q, m.Waiting q → ∀ i ∈ q, m'.heap.cellAt i = m.heap.cellAt i
  stats : m'.stats = m.stats

theorem Spares.trans (h₁ : Spares m m') (h₂ : Spares m' m'') : Spares m m'' :=
  ⟨fun q hq => h₂.waiting q (h₁.waiting q hq),
    fun q hq i hi => (h₂.same q (h₁.waiting q hq) i hi).trans (h₁.same q hq i hi),
    h₂.stats.trans h₁.stats⟩

theorem Confined.spares {M : Nat → Role → Prop} (hc : Confined M ρ m ρ' m')
    (hl : m.Arranged ρ) (hM : ∀ i, ρ i = .queued → ¬ M i .queued) : Spares m m' := by
  refine ⟨fun q => hc.frame.waiting hc.untouched.events hl hM, fun q hq i hi => ?_,
    hc.untouched.stats⟩
  have hr := (hl.mem_waiting hq).1 hi
  exact (hc.frame.same (by rw [hr]; exact hM i hr)).2

theorem Quiet.spares (hq : Quiet m m') : Spares m m' := by
  refine ⟨fun q hw => ?_, fun q _ i _ => by rw [hq.heap], hq.stats⟩
  unfold Waiting
  rw [hq.events, hq.heap]
  exact hw

theorem Open.spares {t e a : Nat} (ho : Open t e a held ρ m) (hs : Stages t e ρ m ρ' m') :
    Spares m m' := by
  refine hs.spares ho.orderly.layout fun i hi => ?_
  rintro ((rfl | hr | hr) | rfl | hr)
  · simp [ho.role] at hi
  · cases hr
  · cases hr
  · simp [ho.roles.1] at hi
  · cases hr

theorem Open.same_sends {t e a i : Nat} (ho : Open t e a held ρ m)
    (hs : Stages t e ρ m ρ' m') (hi : i = a ∨ ρ i = .pending a) : Same ρ ρ' m.heap m'.heap i := by
  obtain ⟨-, hta, hea⟩ := ho.orderly.layout.distinct ho.role
  refine hs.frame.same ?_
  obtain rfl | hi := hi
  · rw [ho.roles.2]
    rintro ((rfl | hr | hr) | rfl | hr)
    · exact hta rfl
    · cases hr
    · cases hr
    · exact hea rfl
    · cases hr
  · have hne : ∀ j, ρ j ≠ .pending a → i ≠ j := by
      rintro j hj rfl
      exact hj hi
    rw [hi]
    rintro ((rfl | hr | hr) | rfl | hr)
    · exact hne i (by rw [ho.role]; simp) rfl
    · cases hr
    · cases hr
    · exact hne i (by rw [ho.roles.1]; simp) rfl
    · cases hr

theorem Open.sends {t e a : Nat} (ho : Open t e a held ρ m) :
    ∃ l, m.heap.Chain .z (m.heap.cellAt a).z l ∧ ∀ i, i ∈ l ↔ ρ i = .pending a :=
  ho.orderly.layout.listed .sends a (by rw [ho.roles.2]; rfl)

theorem Open.chain {t e a : Nat} {l : List Nat} (ho : Open t e a held ρ m)
    (hs : Stages t e ρ m ρ' m') (hc : m.heap.Chain .z (m.heap.cellAt a).z l) :
    m'.heap.Chain .z (m'.heap.cellAt a).z l := by
  obtain ⟨k, hk, hm⟩ := ho.sends
  obtain rfl := hc.unique hk
  rw [(ho.same_sends hs (.inl rfl)).2]
  exact hc.congr fun i hi => by rw [(ho.same_sends hs (.inr ((hm i).1 hi))).2]

theorem Heap.Chain.events (hnil : h.isEvent .nil = false) {l : List Nat}
    (hc : h.Chain .z w l) (he : ∀ i ∈ l, h.isEvent (.ref i) = true) (b : Budget) :
    match h.eventChain b w with
    | .ok s => s = l.map .ref
    | .error f => f.isFatal = true := by
  induction l generalizing w b with
  | nil =>
    rw [show w = .nil from hc]
    unfold eventChain
    simp [hnil]
  | cons i l ih =>
    have hi := he i List.mem_cons_self
    rw [hc.1]
    unfold eventChain
    rw [if_pos hi]
    obtain ⟨_ | n, task⟩ := b
    · rfl
    · have ih := ih hc.2.2 (fun j hj => he j (List.mem_cons_of_mem i hj)) ⟨n, task⟩
      have hf : h.field (.ref i) .z = .ok (h.cellAt i).z := by
        obtain ⟨j, hj, hlt, -⟩ := hasType_iff.1 hi
        cases hj
        exact field_ref hlt .z
      change match h.field (.ref i) .z >>= fun p => (.ref i :: ·) <$> h.eventChain ⟨n, task⟩ p with
        | .ok s => s = (i :: l).map Word.ref
        | .error f => f.isFatal = true
      rw [hf]
      change match (.ref i :: ·) <$> h.eventChain ⟨n, task⟩ (h.cellAt i).z with
        | .ok s => s = (i :: l).map Word.ref
        | .error f => f.isFatal = true
      revert ih
      change (match h.eventChain ⟨n, task⟩ (h.cellAt i).z with
        | .ok s => s = l.map Word.ref
        | .error f => f.isFatal = true) → _
      cases h.eventChain ⟨n, task⟩ (h.cellAt i).z with
      | ok s =>
        rintro rfl
        rfl
      | error f => exact id

theorem Machine.ensures_pendingSends_bind {a : Nat} {l : List Nat} {k : List Word → MachineM β}
    {E : Machine → Prop} (hnil : m.heap.isEvent .nil = false)
    (hc : m.heap.Chain .z (m.heap.cellAt a).z l) (he : ∀ i ∈ l, m.heap.isEvent (.ref i) = true)
    (ha : a < m.heap.top) (hk : Ensures (k (l.reverse.map .ref)) m P E) :
    Ensures (pendingSends (.ref a) >>= k) m P E := by
  have hf : m.heap.field (.ref a) .z = .ok (m.heap.cellAt a).z := field_ref ha .z
  have hev := hc.events hnil he (m.heap.budget "pending events")
  refine Ensures.bind (Q := fun s m' => m = m' ∧ s = l.reverse.map .ref) ?_ ?_
  · unfold pendingSends
    rw [ensures_ask]
    simp only [hf, bind, Except.bind, pure, Except.pure]
    revert hev
    cases m.heap.eventChain (m.heap.budget "pending events") (m.heap.cellAt a).z with
    | ok s =>
      rintro rfl
      exact ⟨trivial, List.map_reverse.symm⟩
    | error f => exact .inl
  · rintro s m' ⟨rfl, rfl⟩
    exact hk

namespace Open

variable {t e a : Nat} {E : Machine → Prop}

variable (ho : Open t e a [] ρ m)

include ho

theorem ends_finish (hr : r = .transit ∨ r = .stopped) : Ends t e a ρ m (ρ.finish t e a r) m := by
  have ht := ho.role
  obtain ⟨he, ha⟩ := ho.roles
  refine ⟨⟨?_, ?_, .refl _, rfl, rfl, Nat.le_refl _⟩, .refl m, rfl⟩
  · intro i
    unfold Roles.finish Same Final Staging Mine
    grind [Role.isSpare]
  · exact ho.orderly.layout.coherent.grows_finish ht hr

theorem closing_finish (hr : r = .transit ∨ r = .stopped)
    (hstack : ∀ i, ρ i ≠ .operand t) (hbecome : ∀ i, ρ i ≠ .staged e) (others : List Nat)
    (hothers : r = .transit → ∀ i, i = a ∨ ρ i = .pending a → i ∈ others) :
    Closing t e others (ρ.finish t e a r) m := by
  have hl := ho.orderly.layout
  have hs := (hl.fits t).2
  rw [ho.role] at hs
  have hg := (ho.ends_finish hr).frame.grows
  refine ⟨ho.orderly.relabel hg (hl.finish ho.role hr hstack hbecome)
      fun i => hl.coherent.finish_plain ho.role hr rfl (by simp) (by simp),
    ho.head, if_pos rfl, hl.coherent.finish_event ho.role, hs.2, ?_⟩
  · intro i hi
    have hb := ho.brief i
    unfold Roles.finish at hi
    grind [Role.isBrief]

theorem finish (hstack : ∀ i, ρ i ≠ .operand t)
    (hbecome : ∀ i, ρ i ≠ .staged e) {l : List Nat} (hc : m.heap.Chain .z (m.heap.cellAt a).z l) :
    Leaving t e a l (ρ.finish t e a .transit) m := by
  have hl := ho.orderly.layout
  obtain ⟨he, ha⟩ := ho.roles
  obtain ⟨k, hk, hm⟩ := ho.sends
  obtain rfl := hc.unique hk
  have hends := ho.ends_finish (.inl rfl)
  refine ⟨?_, hl.coherent.finish_actor ho.role, hc, ?_⟩
  · refine ho.closing_finish (.inl rfl) hstack hbecome _ fun _ i hi => ?_
    rw [List.mem_append, List.mem_reverse, hm, List.mem_singleton]
    exact hi.symm
  · intro i hi
    have hi : ρ i = .pending a := (hm i).1 hi
    have hne : ∀ j, ρ j ≠ .pending a → i ≠ j := by
      rintro j hj rfl
      exact hj hi
    have hs := (hl.fits i).2
    rw [hi] at hs
    refine ⟨hne e (by rw [he]; simp), ?_, Suits.mono (r := .queued) hends.frame.grows hs⟩
    simp [Roles.finish, hi, hne t (by rw [ho.role]; simp), hne e (by rw [he]; simp),
      hne a (by rw [ha]; simp)]

theorem isActor_finish (hr : r.isActor = true) (i : Nat) :
    (ρ.finish t e a r i).isActor = (ρ i).isActor := by
  obtain ⟨he, ha⟩ := ho.roles
  unfold Roles.finish
  split
  · next hi => rw [hi, ho.role]; rfl
  · split
    · next hi => rw [hi, he]; rfl
    · split
      · next hi => rw [hi, ha, hr]; rfl
      · split
        · next hi => rw [hi.1]; rfl
        · rfl

end Open

namespace Closing

variable {t e a i : Nat} {others : List Nat} {E : Machine → Prop}

section Closing

variable (hc : Closing t e others ρ m)

include hc

theorem quiet (hq : Quiet m m') : Closing t e others ρ m' :=
  ⟨hc.orderly.quiet hq, hq.threads ▸ hc.head, hc.thread, hc.event, hq.heap ▸ hc.link, hc.brief⟩

theorem tally (f : Stats → Stats) : Closing t e others ρ (m.tally f) :=
  ⟨hc.orderly.tally f, hc.head, hc.thread, hc.event, hc.link, hc.brief⟩

theorem set (others' : List Nat) (ho : Orderly (ρ.set i r) m') (hthreads : m'.threads = m.threads)
    (hcell : m'.heap.cellAt t = m.heap.cellAt t) (hi : ρ i ≠ .spent) (hie : i ≠ e)
    (hr : r.isBrief = false) (hothers : ∀ j ∈ others, j = i ∨ j ∈ others') :
    Closing t e others' (ρ.set i r) m' := by
  have hit : t ≠ i := by
    rintro rfl
    exact hi hc.thread
  refine ⟨ho, hthreads ▸ hc.head, ?_, ?_, hcell ▸ hc.link, ?_⟩
  · rw [Roles.set_ne _ _ hit, hc.thread]
  · rw [Roles.set_ne _ _ hie.symm, hc.event]
  · intro j hj
    by_cases hji : j = i
    · rw [hji, Roles.set_self, hr] at hj
      cases hj
    · rw [Roles.set_ne _ _ hji] at hj
      obtain h | h | h := hc.brief j hj
      · exact .inl h
      · exact .inr (.inl h)
      · exact .inr (.inr ((hothers j h).resolve_left hji))

theorem ensures_free (others' : List Nat) (hi : ρ i = .held ∨ ρ i = .transit) (hie : i ≠ e)
    (hothers : ∀ j ∈ others, j = i ∨ j ∈ others') :
    Ensures (liftM (free (.ref i)) : MachineM Unit) m
      (fun _ m' => Closing t e others' (ρ.set i .free) m' ∧
        Frame (fun j _ => j = i) ρ m.heap (ρ.set i .free) m'.heap ∧ Untouched m m') E := by
  have hit : t ≠ i := by
    rintro rfl
    simp [hc.thread] at hi
  refine (hc.orderly.ensures_free (v := .ref i) ?_ ?_ ?_).imp ?_
  · obtain hi | hi := hi <;> rw [Word.index, hi] <;> rfl
  · obtain hi | hi := hi <;> rw [Word.index, hi] <;> simp
  · obtain hi | hi := hi <;> rw [Word.index, hi] <;> simp
  · rintro - m' ⟨ho, hframe, hu⟩
    refine ⟨hc.set others' ho hu.threads (hframe.same hit).2 ?_ hie rfl hothers, hframe, hu⟩
    obtain hi | hi := hi <;> rw [hi] <;> simp

theorem ensures_store (ha : ρ a = .transit) (hf : f ≠ .t) (hw : Safe ρ w) :
    Ensures (liftM (store (.ref a) f w) : MachineM Unit) m
      (fun _ m' => m.heap.Sets a ((m.heap.cellAt a).set f w) m'.heap ∧ Closing t e others ρ m' ∧
        Confined (fun j _ => j = a) ρ m ρ m') E := by
  have hs := (hc.orderly.layout.fits a).2
  have hta : t ≠ a := by
    rintro rfl
    simp [hc.thread] at ha
  have hs' : Suits ρ ((m.heap.cellAt a).set f w) (ρ a) := by
    rw [ha] at hs ⊢
    obtain ⟨h1, h2, h3⟩ := hs
    cases f with
    | t => exact absurd rfl hf
    | x => exact ⟨h1, hw, h3⟩
    | y => exact ⟨h1, h2, hw⟩
    | z => exact ⟨h1, h2, h3⟩
  have hu : ∀ c, Suits ρ c (ρ a) → c.t ≠ .freeT := by
    intro c hs
    rw [ha] at hs
    rw [hs.1]
    decide
  refine (hc.orderly.ensures_store (by rw [ha]; rfl) (by rw [ha]; simp) (hu _ hs) hs' (hu _ hs')
    (hc.orderly.layout.avoids hw)).imp ?_
  rintro - m' ⟨hset, ho, hframe, hu⟩
  refine ⟨hset, ⟨ho, hu.threads ▸ hc.head, hc.thread, hc.event, ?_, hc.brief⟩, hframe, hu⟩
  rw [hset.ne hta]
  exact hc.link

end Closing

theorem retain (hc : Closing t e [a] ρ m) (ha : ρ a = .transit)
    (hz : (m.heap.cellAt a).z = .undefined) :
    Closing t e [] (ρ.set a .idle) m ∧
      Frame (fun j _ => j = a) ρ m.heap (ρ.set a .idle) m.heap := by
  have hl := hc.orderly.layout
  have hg : Grows ρ (ρ.set a .idle) := Roles.grows_set (by rw [ha]; simp) (by simp)
  have hae : a ≠ e := by
    rintro rfl
    simp [hc.event] at ha
  have hfit := hl.fits a
  rw [ha] at hfit
  have hlay : m.Arranged (ρ.set a .idle) := by
    refine hl.relabel hg fun i => ?_
    by_cases hi : i = a
    · rw [hi, Roles.set_self, ha]
      exact .inr ⟨rfl, rfl, by simp, hfit.1,
        Suits.mono (r := .idle) hg ⟨hfit.2.1, hfit.2.2.1, hfit.2.2.2, hz⟩⟩
    · exact .inl (Roles.set_ne _ _ hi)
  have ho := hc.orderly.relabel hg hlay (Roles.condemned_set (by rw [ha]; simp) (by simp))
  refine ⟨hc.set [] ho rfl rfl (by rw [ha]; simp) hae rfl (by simp), ?_⟩
  exact .set (fun _ _ => rfl) (by rw [ha]; simp) (by simp) (.refl _) rfl rfl (Nat.le_refl _)

end Closing

def Machine.reaches (m : Machine) (i : Nat) : Bool := m.heap.isActor (m.heap.cellAt i).x

/-- The events are put on their way, one after the other. Those whose target is gone are freed. -/
structure Delivers (k : List Nat) (ρ : Roles) (m : Machine) (ρ' : Roles) (m' : Machine) : Prop where
  keeps : Keeps (fun i r => i ∈ k ∨ r = .queued) ρ m ρ' m'
  roles : ∀ i, ρ' i = if i ∈ k then if m.reaches i then .queued else .free else ρ i
  waiting : ∀ q, m.Waiting q → m'.Waiting (q ++ k.filter m.reaches)
  fields : ∀ i f, (i ∈ k → m.reaches i = true) → f ≠ .z →
  (m'.heap.cellAt i).get f = (m.heap.cellAt i).get f
  stats : m'.stats = { m.stats with dropped := m.stats.dropped + k.countP (!m.reaches ·) }

namespace Delivers

theorem nil : Delivers [] ρ m ρ m :=
  ⟨.refl, fun i => by simp, fun q hq => by simpa using hq, fun _ _ _ _ => rfl, rfl⟩

theorem cons {i : Nat} (h₁ : Delivers [i] ρ m ρ' m') (h₂ : Delivers k ρ' m' ρ'' m'')
    (hr : ∀ j ∈ k, m'.reaches j = m.reaches j) : Delivers (i :: k) ρ m ρ'' m'' := by
  refine ⟨.trans (h₁.keeps.mono ?_) (h₂.keeps.mono ?_), fun j => ?_, fun q hq => ?_,
    fun j f hj hf => ?_, ?_⟩
  · rintro j r (hj | hr)
    · exact .inl (by simpa using .inl (List.mem_singleton.1 hj))
    · exact .inr hr
  · exact fun j r => .imp_left (List.mem_cons_of_mem i)
  · rw [h₂.roles j, h₁.roles j]
    by_cases hjk : j ∈ k
    · simp [hjk, hr j hjk]
    · simp [hjk]
  · have := h₂.waiting _ (h₁.waiting q hq)
    rw [List.append_assoc, List.filter_congr hr, ← List.filter_append] at this
    exact this
  · have hj₁ : j ∈ [i] → m.reaches j = true :=
      fun h => hj (by simpa using .inl (List.mem_singleton.1 h))
    have hj₂ : j ∈ k → m'.reaches j = true :=
      fun h => (hr j h).trans (hj (List.mem_cons_of_mem i h))
    exact (h₂.fields j f hj₂ hf).trans (h₁.fields j f hj₁ hf)
  · have hcount : k.countP (!m'.reaches ·) = k.countP (!m.reaches ·) :=
      List.countP_congr fun j hj => by rw [hr j hj]
    rw [h₂.stats, h₁.stats, hcount]
    simp [List.countP_cons, Nat.add_assoc, Nat.add_comm]

end Delivers

namespace Closing

variable {t e a i : Nat} {others : List Nat} {E : Machine → Prop}

theorem ensures_deliver (hc : Closing t e others ρ m) (others' : List Nat) (hi : ρ i = .held)
    (hie : i ≠ e) (hs : Suits ρ (m.heap.cellAt i) .queued)
    (hothers : ∀ j ∈ others, j = i ∨ j ∈ others') :
    Ensures (deliver (.ref i)) m
      (fun _ m' => ∃ ρ', Closing t e others' ρ' m' ∧ Delivers [i] ρ m ρ' m') E := by
  have hroles : ∀ r j, ρ.set i r j = if j ∈ [i] then r else ρ j := fun r j => by
    simp [Roles.set]
  unfold deliver
  refine ensures_fetch_bind fun j hj _ => ?_
  cases hj
  rw [ensures_look_bind]
  refine .ite (fun hreach => ?_) fun hgone => ?_
  · replace hreach : m.reaches i = true := hreach
    refine (hc.orderly.ensures_putEvent hi hs).bind ?_
    rintro - m' ⟨ho, hkeep, hput⟩
    refine ⟨_, hc.set others' ho hkeep.threads ?_ (by rw [hi]; simp) hie rfl hothers, ?_,
      fun j => ?_, fun q hq => ?_, fun j f _ hf => hput.fields j f hf, ?_⟩
    · refine (hkeep.frame.same ?_).2
      rintro (rfl | ht)
      · simp [hc.thread] at hi
      · simp [hc.thread] at ht
    · exact hkeep.mono fun j r => .imp_left List.mem_singleton.2
    · rw [hroles]
      by_cases hj : j ∈ [i]
      · rw [if_pos hj, if_pos hj, List.mem_singleton.1 hj, hreach, if_pos rfl]
      · rw [if_neg hj, if_neg hj]
    · simpa [hreach] using hput.waiting q hq
    · simp [hput.stats, hreach]
  · replace hgone : m.reaches i = false := Bool.eq_false_iff.2 hgone
    refine (Silent.note _).bind fun _ m₁ hq₁ => ?_
    refine ((hc.quiet hq₁).ensures_free others' (.inl hi) hie hothers).bind ?_
    rintro - m₂ ⟨hc₂, hframe, hu⟩
    have hconf : Confined (fun j _ => j = i) ρ m (ρ.set i .free) m₂ :=
      hq₁.confined.trans ⟨hframe, hu⟩
    have hspare := hconf.spares hc.orderly.layout fun j hj hji => by
      rw [hji, hi] at hj
      cases hj
    rw [ensures_count_bind]
    refine ⟨_, hc₂.tally _, ?_, fun j => ?_, fun q hq => ?_, fun j f hj _ => ?_, ?_⟩
    · exact .trans (.of_untouched (hconf.frame.mono fun j _ h => .inl (List.mem_singleton.2 h))
        hconf.untouched) (.tally _)
    · rw [hroles]
      by_cases hj : j ∈ [i]
      · rw [if_pos hj, if_pos hj, List.mem_singleton.1 hj, hgone]
        rfl
      · rw [if_neg hj, if_neg hj]
    · rw [List.filter_cons_of_neg (by simp [hgone]), List.filter_nil, List.append_nil]
      exact hspare.waiting q hq
    · have hji : j ≠ i := by
        rintro rfl
        simp [hgone] at hj
      exact congrArg (Cell.get · f) (hconf.frame.same hji).2
    · simp [Machine.tally, hspare.stats, hgone]

theorem ensures_deliverAll (hk : k.Nodup) (hc : Closing t e (k ++ others) ρ m)
    (hs : ∀ i ∈ k, i ≠ e ∧ ρ i = .held ∧ Suits ρ (m.heap.cellAt i) .queued) :
    Ensures ((k.map Word.ref).mapM deliver) m
      (fun _ m' => ∃ ρ', Closing t e others ρ' m' ∧ Delivers k ρ m ρ' m') E := by
  induction k generalizing ρ m with
  | nil => exact ⟨ρ, hc, .nil⟩
  | cons i k ih =>
    obtain ⟨hik, hk⟩ := List.nodup_cons.1 hk
    obtain ⟨hie, hi, hsi⟩ := hs i List.mem_cons_self
    rw [List.map_cons, List.mapM_cons]
    refine (hc.ensures_deliver (k ++ others) hi hie hsi (by simp)).bind ?_
    rintro b m₁ ⟨ρ₁, hc₁, hd₁⟩
    have hsame : ∀ j ∈ k, Same ρ ρ₁ m.heap m₁.heap j := by
      intro j hj
      refine hd₁.keeps.frame.same ?_
      rintro (hji | hq)
      · rw [List.mem_singleton.1 hji] at hj
        exact hik hj
      · rw [(hs j (List.mem_cons_of_mem i hj)).2.1] at hq
        cases hq
    -- No actor comes or goes with an event, so the targets that are left stay what they are.
    have hreach : ∀ j ∈ k, m₁.reaches j = m.reaches j := by
      intro j hj
      unfold reaches
      rw [(hsame j hj).2]
      refine hd₁.keeps.frame.isActor_eq hc.orderly.layout hc₁.orderly.layout ?_ ?_ _
      · rintro n (hn | hn)
        · rw [List.mem_singleton.1 hn, hi]
          simp
        · rw [hn]
          simp
      · intro n
        rw [hd₁.roles n]
        split
        · next hn =>
          rw [List.mem_singleton.1 hn, hi]
          split <;> rfl
        · rfl
    refine (ih hk hc₁ ?_).bind ?_
    · intro j hj
      obtain ⟨h1, h2, h3⟩ := hs j (List.mem_cons_of_mem i hj)
      rw [(hsame j hj).1, (hsame j hj).2]
      exact ⟨h1, h2, h3.mono hd₁.keeps.frame.grows⟩
    · rintro bs m₂ ⟨ρ₂, hc₂, hd₂⟩
      exact ⟨ρ₂, hc₂, hd₁.cons hd₂ hreach⟩

theorem ensures_freeAll (hk : k.Nodup) (hc : Closing t e (k ++ others) ρ m)
    (hs : ∀ i ∈ k, i ≠ e ∧ ρ i = .held) :
    Ensures ((k.map Word.ref).forM fun v => liftM (free v)) m
      (fun _ m' => Closing t e others (ρ.setAll k .free) m' ∧
        Confined (fun i _ => i ∈ k) ρ m (ρ.setAll k .free) m') E := by
  induction k generalizing ρ m with
  | nil =>
    rw [Roles.setAll_nil]
    exact ⟨hc, .refl⟩
  | cons i k ih =>
    obtain ⟨hik, hk⟩ := List.nodup_cons.1 hk
    obtain ⟨hie, hi⟩ := hs i List.mem_cons_self
    refine (hc.ensures_free (k ++ others) (.inl hi) hie (by simp)).bind ?_
    rintro b m₁ ⟨hc₁, hframe, hu⟩
    rw [Roles.setAll_cons]
    refine (ih hk hc₁ ?_).imp ?_
    · intro j hj
      rw [(hframe.same (i := j) (by rintro rfl; exact hik hj)).1]
      exact hs j (List.mem_cons_of_mem i hj)
    · rintro - m₂ ⟨hc₂, hconf⟩
      refine ⟨hc₂, .trans ⟨hframe.mono ?_, hu⟩ (hconf.mono ?_)⟩
      · rintro j - rfl
        exact List.mem_cons_self
      · exact fun j _ => List.mem_cons_of_mem i

theorem ensures_clearMarker (hc : Closing t e [a] ρ m) (ha : ρ a = .transit) :
    Ensures (liftM (store (.ref a) .z .undefined) : MachineM Unit) m
      (fun _ m' => Closing t e [] (ρ.set a .idle) m' ∧
        Confined (fun j _ => j = a) ρ m (ρ.set a .idle) m' ∧
        m'.heap.cellAt a = (m.heap.cellAt a).set .z .undefined) E := by
  refine (hc.ensures_store ha (f := .z) (by decide) safe_undefined).imp ?_
  rintro - m₁ ⟨hset, hc₁, hconf⟩
  obtain ⟨hc₂, hframe⟩ := hc₁.retain ha (by rw [hset.self]; rfl)
  exact ⟨hc₂, hconf.trans ⟨hframe, .refl m₁⟩, hset.self⟩

end Closing

theorem Confined.ends {t e a : Nat} (hc : Confined (fun j _ => j = a) ρ m ρ' m') :
    Ends t e a ρ m ρ' m' :=
  .of_untouched (hc.frame.mono fun _ _ => .inr ∘ .inl) hc.untouched

namespace Leaving

variable {t e a : Nat} {l : List Nat} {E : Machine → Prop}

variable (hv : Leaving t e a l ρ m)

include hv

theorem nodup : l.reverse.Nodup :=
  List.pairwise_reverse.2 (hv.chain.nodup.imp Ne.symm)

theorem not_mem : a ∉ l.reverse := by
  intro hal
  have := (hv.sent a (List.mem_reverse.1 hal)).2.1
  rw [hv.actor] at this
  cases this

theorem pendingSends_bind {k : List Word → MachineM β}
    (hk : Ensures (k (l.reverse.map .ref)) m P E) :
    Ensures (pendingSends (.ref a) >>= k) m P E := by
  have hl := hv.closing.orderly.layout
  refine ensures_pendingSends_bind ?_ hv.chain ?_ (hl.bounds (by rw [hv.actor]; simp)).2 hk
  · have h1 : (m.heap.cellAt 1).t ≠ .eventT := by
      rw [hl.literals 1 (by decide)]
      decide
    simp [isEvent, hasType, Word.nil, Word.index, h1]
  · intro i hi
    obtain ⟨-, hr, ht, -⟩ := hv.sent i hi
    exact hasType_iff.2 ⟨i, rfl, (hl.bounds (by rw [hr]; simp)).2, ht⟩

theorem ensures_store (hf : f = .x ∨ f = .y) (hw : Safe ρ w) :
    Ensures (liftM (store (.ref a) f w) : MachineM Unit) m
      (fun _ m' => Leaving t e a l ρ m' ∧ m.heap.Sets a ((m.heap.cellAt a).set f w) m'.heap ∧
        Confined (fun j _ => j = a) ρ m ρ m') E := by
  have hft : f ≠ .t ∧ .z ≠ f := by
    obtain rfl | rfl := hf <;> decide
  refine (hv.closing.ensures_store hv.actor hft.1 hw).imp ?_
  rintro - m' ⟨hset, hc, hconf⟩
  have hne : ∀ i ∈ l, i ≠ a := by
    rintro i hi rfl
    exact hv.not_mem (List.mem_reverse.2 hi)
  refine ⟨⟨hc, hv.actor, ?_, ?_⟩, hset, hconf⟩
  · rw [hset.self, show ((m.heap.cellAt a).set f w).z = (m.heap.cellAt a).z from
      Cell.get_set_ne _ _ hft.2]
    exact hv.chain.congr fun i hi => by rw [hset.ne (hne i hi)]
  · intro i hi
    rw [hset.ne (hne i hi)]
    exact hv.sent i hi

theorem spares (hc : Confined (fun j _ => j = a) ρ m ρ' m') : Spares m m' := by
  refine hc.spares hv.closing.orderly.layout ?_
  rintro i hi rfl
  rw [hv.actor] at hi
  cases hi

theorem ensures_flushSends : Ensures (flushSends (.ref a)) m
      (fun _ m' => ∃ ρ', Closing t e [a] ρ' m' ∧ Delivers l.reverse ρ m ρ' m' ∧
        Same ρ ρ' m.heap m'.heap a) E := by
  unfold flushSends
  refine hv.pendingSends_bind ?_
  refine (hv.closing.ensures_deliverAll hv.nodup fun i hi =>
    hv.sent i (List.mem_reverse.1 hi)).bind ?_
  rintro - m' ⟨ρ', hc, hd⟩
  refine ⟨ρ', hc, hd, hd.keeps.frame.same ?_⟩
  rintro (hal | hr)
  · exact hv.not_mem hal
  · rw [hv.actor] at hr
    cases hr

theorem ends_delivers (hd : Delivers l.reverse ρ m ρ' m') : Ends t e a ρ m ρ' m' := by
  refine ⟨hd.keeps.frame.select ?_ ?_, hd.keeps.steady, hd.keeps.threads⟩
  · rintro i (hi | hi)
    · exact .inl (.inl (.spare (by rw [(hv.sent i (List.mem_reverse.1 hi)).2.1]; rfl)))
    · exact .inr (.inr (.inr hi))
  · rintro i - (hi | hi)
    · rw [hd.roles i, if_pos hi]
      split
      · exact .inl (.inr (.inr (.inr rfl)))
      · exact .inl (.inl (.inl (.spare rfl)))
    · exact .inl (.inr (.inr (.inr hi)))

theorem ends_freed (hc : Confined (fun i _ => i ∈ l.reverse) ρ m (ρ.setAll l.reverse .free) m') :
    Ends t e a ρ m (ρ.setAll l.reverse .free) m' := by
  refine .of_untouched (hc.frame.select ?_ ?_) hc.untouched
  · intro i hi
    exact .inl (.inl (.spare (by rw [(hv.sent i (List.mem_reverse.1 hi)).2.1]; rfl)))
  · intro i hi _
    exact .inl (.inl (.inl (.spare (by rw [Roles.setAll_mem _ hi]; rfl))))

end Leaving

namespace Ending

def leaves : Ending → Role → Prop
  | .abort | .commit => (· = .idle)
  | .stop => (· = .stopped)
  | .release => fun r => r = .idle ∨ r = .free

def count : Ending → Stats → Stats
  | .abort, s => { s with aborts := s.aborts + 1 }
  | .stop, s => { s with stops := s.stops + 1 }
  | .commit, s => { s with commits := s.commits + 1 }
  | .release, s => { s with releases := s.releases + 1 }

def outgoing : Ending → List Nat → List Nat
  | .commit, l | .release, l => l.reverse
  | .abort, _ | .stop, _ => []

end Ending

/-- What a transaction has held back, the newest first, is sent if the transaction ends so. -/
structure Accounts (ending : Ending) (l : List Nat) (m : Machine) (ρ' : Roles) (m' : Machine) :
    Prop where
  waiting : ∀ q, m.Waiting q → m'.Waiting (q ++ (ending.outgoing l).filter m.reaches)
  fields : ∀ q, m.Waiting q → ∀ i ∈ q ++ (ending.outgoing l).filter m.reaches, ∀ f, f ≠ .z →
    (m'.heap.cellAt i).get f = (m.heap.cellAt i).get f
  dropped : ∀ i ∈ ending.outgoing l, m.reaches i = false → ρ' i = .free
  stats : m'.stats = ending.count
    { m.stats with dropped := m.stats.dropped + (ending.outgoing l).countP (!m.reaches ·) }

namespace Accounts

variable {ending : Ending} {l : List Nat}

theorem quiet (ha : Accounts ending l m ρ' m') (hq : Quiet m' m'') :
    Accounts ending l m ρ' m'' := by
  have hs := hq.spares
  refine ⟨fun q hw => hs.waiting _ (ha.waiting q hw), fun q hw i hi f hf => ?_, ha.dropped, ?_⟩
  · rw [hq.heap]
    exact ha.fields q hw i hi f hf
  · rw [hq.stats]
    exact ha.stats

theorem of_spares (ending : Ending) (hs : Spares m m') (ho : ending.outgoing l = []) :
    Accounts ending l m ρ' (m'.tally ending.count) := by
  refine ⟨fun q hq => ?_, fun q hq i hi f _ => ?_, ?_, ?_⟩
  · rw [ho, List.filter_nil, List.append_nil]
    exact hs.waiting q hq
  · rw [ho, List.filter_nil, List.append_nil] at hi
    exact congrArg (Cell.get · f) (hs.same q hq i hi)
  · simp [ho]
  · simp [tally, ho, hs.stats]

theorem after (ha : Accounts ending l m' ρ' m'') (hs : Spares m m') (ho : ending.outgoing l = []) :
    Accounts ending l m ρ' m'' := by
  obtain ⟨hw, hf, hd, hst⟩ := ha
  simp only [ho, List.filter_nil, List.append_nil, List.countP_nil] at hw hf hd hst
  refine ⟨fun q hq => ?_, fun q hq i hi f hne => ?_, by simp [ho], by simp [hst, hs.stats, ho]⟩
  · simpa [ho] using hw q (hs.waiting q hq)
  · replace hi : i ∈ q := by simpa [ho] using hi
    rw [hf q (hs.waiting q hq) i hi f hne, hs.same q hq i hi]

theorem of_delivers (h₁ : Spares m m₁)
    (hd : Delivers l.reverse ρ₁ m₁ ρ₂ m₂) (h₂ : Spares m₂ m') (ho : ending.outgoing l = l.reverse)
    (hl : ∀ i ∈ l, m₁.heap.cellAt i = m.heap.cellAt i)
    (ha : ∀ w, m₁.heap.isActor w = m.heap.isActor w)
    (hout : ∀ q, m.Waiting q → ∀ i ∈ q, i ∉ l) (hr : ∀ i ∈ l, ρ₂ i = .free → ρ' i = .free) :
    Accounts ending l m ρ' (m'.tally ending.count) := by
  have hreach : ∀ i ∈ l.reverse, m₁.reaches i = m.reaches i := by
    intro i hi
    unfold reaches
    rw [hl i (List.mem_reverse.1 hi), ha]
  have hcount : l.reverse.countP (!m₁.reaches ·) = l.reverse.countP (!m.reaches ·) :=
    List.countP_congr fun i hi => by rw [hreach i hi]
  have hwait : ∀ q, m.Waiting q → m₂.Waiting (q ++ (ending.outgoing l).filter m.reaches) := by
    intro q hq
    rw [ho, ← List.filter_congr hreach]
    exact hd.waiting q (h₁.waiting q hq)
  refine ⟨fun q hq => h₂.waiting _ (hwait q hq), fun q hq i hi f hf => ?_, fun i hi hgone => ?_, ?_⟩
  · refine (congrArg (Cell.get · f) (h₂.same _ (hwait q hq) i hi)).trans ?_
    rw [ho] at hi
    obtain hi | hi := List.mem_append.1 hi
    · refine (hd.fields i f (fun hil => ?_) hf).trans (congrArg (Cell.get · f) (h₁.same q hq i hi))
      exact absurd (List.mem_reverse.1 hil) (hout q hq i hi)
    · obtain ⟨hil, hr⟩ := List.mem_filter.1 hi
      refine (hd.fields i f (fun _ => (hreach i hil).trans hr) hf).trans ?_
      rw [hl i (List.mem_reverse.1 hil)]
  · rw [ho] at hi
    refine hr i (List.mem_reverse.1 hi) ?_
    rw [hd.roles i, if_pos hi, hreach i hi, hgone]
    rfl
  · simp [tally, h₂.stats, hd.stats, h₁.stats, ho, hcount]

end Accounts

/-- The actor has taken on what was staged: a behaviour and the items of a state, or nothing at
all. -/
def Machine.TakesOn (m : Machine) (a : Nat) (m' : Machine) : List Word → Prop
  | [] => (m'.heap.cellAt a).x = (m.heap.cellAt a).x ∧ (m'.heap.cellAt a).y = (m.heap.cellAt a).y
  | beh :: items => (m'.heap.cellAt a).x = beh ∧ m'.heap.Lists (m'.heap.cellAt a).y items

structure Closed (t e a : Nat) (ρ : Roles) (m : Machine) (ending : Ending) (ρ' : Roles)
    (m' : Machine) : Prop where
  closing : Closing t e [] ρ' m'
  ends : Ends t e a ρ m ρ' m'
  actor : ending.leaves (ρ' a)
  accounts : ∀ l, m.heap.Chain .z (m.heap.cellAt a).z l → Accounts ending l m ρ' m'
  /-- A transaction that was stopped keeps what it has sent. -/
  stopped : ending = .stop →
    m'.heap.cellAt a = m.heap.cellAt a ∧ ∀ i, ρ i = .pending a → Same ρ ρ' m.heap m'.heap i
  /-- A transaction that was aborted leaves nothing. -/
  aborted : ending = .abort → m'.heap.cellAt a = (m.heap.cellAt a).set .z .undefined ∧
    ∀ i, ρ i = .operand t ∨ ρ i = .staged e ∨ ρ i = .pending a ∨ ρ i = .free → ρ' i = .free
  /-- A transaction that is committed takes on what was staged. -/
  committed : ending = .commit → ∀ s, m.heap.Lists (m.heap.cellAt e).z s →
    (m'.heap.cellAt a).z = .undefined ∧ m.TakesOn a m' s
  /-- An actor that is released and stays has the behaviour that it had. -/
  released : ending = .release → ρ' a = .idle → (m'.heap.cellAt a).x = (m.heap.cellAt a).x
  others : ∀ b, b ≠ a → (ρ' b).isActor = (ρ b).isActor

structure Discards (t e : Nat) (ρ : Roles) (m : Machine) (ρ' : Roles) (m' : Machine) : Prop where
  stages : Stages t e ρ m ρ' m'
  freed : ∀ i, ρ i = .operand t ∨ ρ i = .staged e → ρ' i = .free
  others : ∀ i, ρ i ≠ .operand t → ρ i ≠ .staged e → ρ' i = ρ i

namespace Discards

variable {t e : Nat}

theorem ne_operand (hd : Discards t e ρ m ρ' m') (i : Nat) : ρ' i ≠ .operand t := by
  intro hi
  by_cases h : ρ i = .operand t ∨ ρ i = .staged e
  · rw [hd.freed i h] at hi
    cases hi
  · rw [not_or] at h
    exact h.1 (hd.others i h.1 h.2 ▸ hi)

theorem ne_staged (hd : Discards t e ρ m ρ' m') (i : Nat) : ρ' i ≠ .staged e := by
  intro hi
  by_cases h : ρ i = .operand t ∨ ρ i = .staged e
  · rw [hd.freed i h] at hi
    cases hi
  · rw [not_or] at h
    exact h.2 (hd.others i h.1 h.2 ▸ hi)

theorem isActor_eq (hd : Discards t e ρ m ρ' m') (i : Nat) : (ρ' i).isActor = (ρ i).isActor := by
  by_cases h : ρ i = .operand t ∨ ρ i = .staged e
  · rw [hd.freed i h]
    obtain h | h := h <;> rw [h] <;> rfl
  · rw [not_or] at h
    rw [hd.others i h.1 h.2]

end Discards

namespace Open

variable {t e a : Nat} {E : Machine → Prop}

variable (ho : Open t e a [] ρ m)

include ho

theorem not_condemned {i : Nat} (hi : Final t e a i (ρ i)) : ρ i ≠ .condemned := by
  intro hc
  rw [hc] at hi
  obtain ((rfl | hr | hr) | rfl | hr) | rfl | hr | hr := hi
  · simp [ho.role] at hc
  · cases hr
  · cases hr
  · simp [ho.roles.1] at hc
  · cases hr
  · simp [ho.roles.2] at hc
  · cases hr
  · cases hr

theorem not_waiting {l q : List Nat} (hc : m.heap.Chain .z (m.heap.cellAt a).z l)
    (hq : m.Waiting q) {i : Nat} (hi : i ∈ q) : i ∉ l := by
  obtain ⟨k, hk, hm⟩ := ho.sends
  obtain rfl := hc.unique hk
  rw [hm, (ho.orderly.layout.mem_waiting hq).1 hi]
  simp

theorem ensures_discard_clear {k : MachineM β}
    (hk : ∀ ρ' m', Open t e a [] ρ' m' → Discards t e ρ m ρ' m' → Ensures k m' P E) :
    Ensures (do discardBecome; clearStack; k) m P E := by
  refine ho.ensures_discardBecome.bind ?_
  rintro - m₁ ⟨ρ₁, ho₁, hw₁, hc₁⟩
  refine ho₁.ensures_clearStack.bind ?_
  rintro - m₂ ⟨ρ₂, ho₂, hw₂, hc₂⟩
  refine hk ρ₂ m₂ ho₂ ⟨hw₁.trans hw₂.stages, fun i hi => ?_, fun i h1 h2 => ?_⟩
  · obtain hi | hi := hi
    · refine (hc₂.members i ?_).trans (if_neg List.not_mem_nil)
      rw [hc₁.role (by rw [hi]; exact (by simp [Bundle.member])), hi]
      rfl
    · have hfree : ρ₁ i = .free := (hc₁.members i hi).trans (if_neg List.not_mem_nil)
      rw [hc₂.role (by rw [hfree]; simp [Bundle.member]), hfree]
  · have hr : ρ₁ i = ρ i := hc₁.role h2
    rw [hc₂.role (by rw [hr]; exact h1), hr]

theorem ensures_abortTransaction :
    Ensures abortTransaction m (fun _ m' => ∃ ρ', Closed t e a ρ m .abort ρ' m') E := by
  obtain ⟨l, hchain, hm⟩ := ho.sends
  unfold abortTransaction
  refine ho.me_bind ?_
  refine ho.ensures_discard_clear fun ρ₁ m₁ ho₁ hd => ?_
  have hv := ho₁.finish hd.ne_operand hd.ne_staged (ho.chain hd.stages hchain)
  refine hv.pendingSends_bind ?_
  refine (hv.closing.ensures_freeAll hv.nodup fun i hi => ?_).bind ?_
  · obtain ⟨h1, h2, -⟩ := hv.sent i (List.mem_reverse.1 hi)
    exact ⟨h1, h2⟩
  rintro - m₂ ⟨hc₂, hconf₂⟩
  obtain ⟨ha₂, hcell₂⟩ := hconf₂.frame.same (i := a) hv.not_mem
  refine (hc₂.ensures_clearMarker (ha₂.trans hv.actor)).bind ?_
  rintro - m₃ ⟨hc₃, hconf₃, hcell₃⟩
  rw [ensures_count]
  have hspare₂ := hconf₂.spares hv.closing.orderly.layout fun i hi hil => by
    rw [(hv.sent i (List.mem_reverse.1 hil)).2.1] at hi
    cases hi
  have hspare₃ := hconf₃.spares hc₂.orderly.layout fun i hi hia => by
    rw [hia, ha₂, hv.actor] at hi
    cases hi
  have hspare := ((ho.spares hd.stages).trans hspare₂).trans hspare₃
  refine ⟨_, hc₃.tally _, ?_, Roles.set_self .., fun k _ => .of_spares .abort hspare rfl,
    by simp, fun _ => ⟨?_, fun i hi => ?_⟩, by simp, by simp, fun b hb => ?_⟩
  · exact (((Stages.ends hd.stages).trans (ho₁.ends_finish (.inl rfl))).trans
      (hv.ends_freed hconf₂)).trans (hconf₃.ends.trans (.tally _))
  · rw [show (m₃.tally _).heap = m₃.heap from rfl, hcell₃, hcell₂,
      (ho.same_sends hd.stages (.inl rfl)).2]
  · have hia : i ≠ a := by
      rintro rfl
      simp [ho.roles.2] at hi
    rw [Roles.set_ne _ _ hia]
    by_cases hil : i ∈ l.reverse
    · exact Roles.setAll_mem _ hil
    · rw [Roles.setAll_not_mem _ hil]
      refine (ho₁.orderly.layout.coherent.finish_plain ho₁.role (.inl rfl) rfl (by simp)
        (by simp)).2 ?_
      by_cases hown : ρ i = .operand t ∨ ρ i = .staged e
      · exact hd.freed i hown
      · rw [not_or] at hown
        rw [hd.others i hown.1 hown.2]
        have hp : ρ i ≠ .pending a := fun h => hil (List.mem_reverse.2 ((hm i).2 h))
        grind
  · rw [Roles.set_ne _ _ hb, Roles.isActor_setAll rfl fun i hi => ?_, ho₁.isActor_finish rfl,
      hd.isActor_eq]
    rw [(hv.sent i (List.mem_reverse.1 hi)).2.1]
    rfl

theorem ensures_stopTransaction :
    Ensures (stopTransaction (.ref a)) m (fun _ m' => ∃ ρ', Closed t e a ρ m .stop ρ' m') E := by
  unfold stopTransaction
  refine ho.ensures_discard_clear fun ρ₁ m₁ ho₁ hd => ?_
  have hc₂ := ho₁.closing_finish (.inr rfl) hd.ne_operand hd.ne_staged [] (by simp)
  have hends := (Stages.ends hd.stages).trans (ho₁.ends_finish (.inr rfl))
  rw [ensures_count_bind]
  refine (Silent.note _).ensures fun _ m₂ hq => ?_
  have hheap : m₂.heap = m₁.heap := hq.heap
  refine ⟨_, (hc₂.tally _).quiet hq, (hends.trans (.tally _)).trans (.quiet hq),
    ho₁.orderly.layout.coherent.finish_actor ho₁.role,
    fun l _ => (Accounts.of_spares .stop (ho.spares hd.stages) rfl).quiet hq, fun _ =>
    ⟨?_, fun i hi => ?_⟩, by simp, by simp, by simp, fun b _ =>
    (ho₁.isActor_finish rfl b).trans (hd.isActor_eq b)⟩
  · rw [hheap, (ho.same_sends hd.stages (.inl rfl)).2]
  · obtain ⟨hr, hc⟩ := ho.same_sends hd.stages (.inr hi)
    have hne : ∀ j, ρ j ≠ .pending a → i ≠ j := by
      rintro j hj rfl
      exact hj hi
    refine ⟨?_, by rw [hheap, hc]⟩
    simp [Roles.finish, hne t (by rw [ho.role]; simp), hne e (by rw [ho.roles.1]; simp),
      hne a (by rw [ho.roles.2]; simp), hr]

end Open

/-- The transaction has cleared up, and what it has held back is still to be sent. -/
structure Parting (t e a : Nat) (l : List Nat) (ρ : Roles) (m : Machine) (ρ' : Roles)
    (m' : Machine) :
    Prop where
  leaving : Leaving t e a l ρ' m'
  ends : Ends t e a ρ m ρ' m'
  spares : Spares m m'
  sent : ∀ i ∈ l, m'.heap.cellAt i = m.heap.cellAt i
  actors : ∀ i, (ρ' i).isActor = (ρ i).isActor

namespace Parting

variable {t e a : Nat} {l : List Nat} {E : Machine → Prop}

theorem of_stages (ho : Open t e a [] ρ m) (hs : Stages t e ρ m ρ' m') (ho' : Open t e a [] ρ' m')
    (hstack : ∀ i, ρ' i ≠ .operand t) (hbecome : ∀ i, ρ' i ≠ .staged e)
    (ha : ∀ i, (ρ' i).isActor = (ρ i).isActor) (hc : m.heap.Chain .z (m.heap.cellAt a).z l) :
    Parting t e a l ρ m (ρ'.finish t e a .transit) m' := by
  obtain ⟨k, hk, hm⟩ := ho.sends
  obtain rfl := hc.unique hk
  exact ⟨ho'.finish hstack hbecome (ho.chain hs hc),
    (Stages.ends hs).trans (ho'.ends_finish (.inl rfl)), ho.spares hs, fun i hi =>
    (ho.same_sends hs (.inr ((hm i).1 hi))).2, fun i => (ho'.isActor_finish rfl i).trans (ha i)⟩

theorem ensures_store (hp : Parting t e a l ρ m ρ' m') (hf : f = .x ∨ f = .y) (hw : Safe ρ' w) :
    Ensures (liftM (store (.ref a) f w) : MachineM Unit) m'
      (fun _ m'' => Parting t e a l ρ m ρ' m'' ∧
        m'.heap.Sets a ((m'.heap.cellAt a).set f w) m''.heap) E := by
  refine (hp.leaving.ensures_store hf hw).imp ?_
  rintro - m'' ⟨hv, hset, hconf⟩
  refine ⟨⟨hv, hp.ends.trans hconf.ends, hp.spares.trans (hp.leaving.spares hconf), fun i hi => ?_,
      hp.actors⟩,
    hset⟩
  rw [hset.ne (by rintro rfl; exact hp.leaving.not_mem (List.mem_reverse.2 hi)), hp.sent i hi]

theorem accounts (ending : Ending) (hp : Parting t e a l ρ m ρ' m')
    (ho : Open t e a [] ρ m) (hc : m.heap.Chain .z (m.heap.cellAt a).z l)
    (hd : Delivers l.reverse ρ' m' ρ₁ m₁) (hl : m₁.Arranged ρ₁)
    (ha : ρ₁ a = .transit) (hconf : Confined (fun j _ => j = a) ρ₁ m₁ ρ₂ m₂)
    (hout : ending.outgoing l = l.reverse) : Accounts ending l m ρ₂ (m₂.tally ending.count) := by
  -- What happens to the actor after everything was sent does not matter to the events.
  refine .of_delivers hp.spares hd ?_ hout hp.sent ?_ (fun q hq i => ho.not_waiting hc hq)
    fun i hi hr => ?_
  · refine hconf.spares hl ?_
    rintro i hi rfl
    rw [ha] at hi
    cases hi
  · exact hp.ends.frame.isActor_eq ho.orderly.layout hp.leaving.closing.orderly.layout
      (fun i => ho.not_condemned) hp.actors
  · rw [(hconf.frame.same (i := i) ?_).1, hr]
    rintro rfl
    rw [ha] at hr
    cases hr

theorem isActor_delivers (hp : Parting t e a l ρ m ρ' m')
    (hd : Delivers l.reverse ρ' m' ρ₁ m₁) (i : Nat) : (ρ₁ i).isActor = (ρ i).isActor := by
  rw [hd.roles i, ← hp.actors i]
  split
  · next hi =>
    rw [(hp.leaving.sent i (List.mem_reverse.1 hi)).2.1]
    split <;> rfl
  · rfl

theorem lists {s : List Word} (hp : Parting t e a l ρ m ρ' m') (hd : Delivers l.reverse ρ' m' ρ₁ m₁)
    (hconf : Confined (fun j _ => j = a) ρ₁ m₁ ρ₂ m₂) (hw : Safe ρ' w) (hs : m'.heap.Lists w s) :
    m₂.heap.Lists w s := by
  refine hs.congr hp.leaving.closing.orderly.layout hw
    (Nat.le_trans hd.keeps.frame.top_le hconf.frame.top_le) fun i hi => ?_
  have hia : i ≠ a := by
    rintro rfl
    rw [hp.leaving.actor] at hi
    cases hi
  rw [(hconf.frame.same hia).2, (hd.keeps.frame.same ?_).2]
  rintro (hil | hr)
  · rw [(hp.leaving.sent i (List.mem_reverse.1 hil)).2.1] at hi
    cases hi
  · rw [hr] at hi
    cases hi

theorem ensures_commit (hp : Parting t e a l ρ m ρ₂ m₂) (ho : Open t e a [] ρ m)
    (hchain : m.heap.Chain .z (m.heap.cellAt a).z l)
    (htakes : ∀ s, m.heap.Lists (m.heap.cellAt e).z s → m.TakesOn a m₂ s) :
    Ensures (do
      let sent ← flushSends (.ref a)
      store (.ref a) .z .undefined
      count fun s => { s with commits := s.commits + 1 }
      noteDispatch (.committed (Word.ref a).toCap sent)) m₂
      (fun _ m' => ∃ ρ', Closed t e a ρ m .commit ρ' m') E := by
  -- What remains of a commit is the same whether or not a new behaviour was taken on.
  have hv := hp.leaving
  refine hv.ensures_flushSends.bind ?_
  rintro n m₃ ⟨ρ₃, hc₃, hd, hsame⟩
  have ha₃ : ρ₃ a = .transit := hsame.1.trans hv.actor
  refine (hc₃.ensures_clearMarker ha₃).bind ?_
  rintro - m₄ ⟨hc₄, hconf, hcell⟩
  rw [ensures_count_bind]
  refine (Silent.noteDispatch _).ensures fun _ m₅ hq => ?_
  refine ⟨_, (hc₄.tally _).quiet hq, ?_, Roles.set_self .., fun k hk => ?_, by simp, by simp,
    fun _ s hs => ?_, by simp, fun b hb => ?_⟩
  · exact (((hp.ends.trans (hv.ends_delivers hd)).trans hconf.ends).trans (.tally _)).trans
      (.quiet hq)
  · obtain rfl := hchain.unique hk
    exact (hp.accounts .commit ho hchain hd hc₃.orderly.layout ha₃ hconf rfl).quiet hq
  · have hheap : m₅.heap = m₄.heap := hq.heap
    have hfield : ∀ f, f ≠ .z → (m₅.heap.cellAt a).get f = (m₂.heap.cellAt a).get f := by
      intro f hf
      rw [hheap, hcell, Cell.get_set_ne _ _ hf, hsame.2]
    refine ⟨by rw [hheap, hcell]; rfl, ?_⟩
    have htake := htakes s hs
    have hsafe : Safe ρ₂ (m₂.heap.cellAt a).y := by
      have := (hv.closing.orderly.layout.fits a).2
      rw [hv.actor] at this
      exact this.2.2
    cases s with
    | nil => exact ⟨(hfield .x (by decide)).trans htake.1, (hfield .y (by decide)).trans htake.2⟩
    | cons beh items =>
      refine ⟨(hfield .x (by decide)).trans htake.1, ?_⟩
      have hy : (m₅.heap.cellAt a).y = (m₂.heap.cellAt a).y := hfield .y (by decide)
      rw [hy, hheap]
      exact hp.lists hd hconf hsafe htake.2
  · rw [Roles.set_ne _ _ hb, hp.isActor_delivers hd]

end Parting

namespace Open

variable {t e a : Nat} {E : Machine → Prop}

theorem ensures_commitTransaction (ho : Open t e a [] ρ m) :
    Ensures (commitTransaction (.ref a)) m
      (fun _ m' => ∃ ρ', Closed t e a ρ m .commit ρ' m') E := by
  obtain ⟨l, hchain, hm⟩ := ho.sends
  unfold commitTransaction
  refine ho.ensures_clearStack.bind ?_
  rintro - m₁ ⟨ρ₁, ho₁, hw₁, hc₁⟩
  have hno₁ : ∀ i, ρ₁ i ≠ Bundle.stack.member t := hc₁.no_member (.inl ⟨rfl, rfl⟩)
  have hplan : ∀ s, m.heap.Lists (m.heap.cellAt e).z s → m₁.heap.Lists (m₁.heap.cellAt e).z s := by
    intro s hs
    refine ho.orderly.layout.lists_staged (by rw [ho.roles.1]; rfl) hs hw₁.frame.top_le fun i hi =>
      (hc₁.same i ?_ ?_).2
    · rintro rfl
      simp [(ho.orderly.layout.distinct ho.role).1, ho.role] at hi
    · obtain rfl | hi := hi
      · rw [ho.roles.1]
        simp [Bundle.member]
      · rw [hi]
        simp [Bundle.member]
  refine ho₁.ensures_takeBecome.bind ?_
  rintro (- | ⟨beh, state⟩) m₂ ⟨ρ₂, k, ho₂, hs₂, hc₂, -, hr⟩
  all_goals
    have hs := hw₁.stages.trans hs₂
    have hno₂ : ∀ i, ρ₂ i ≠ Bundle.stack.member t := hc₂.no_member (.inr hno₁)
    have hact : ∀ i, (ρ₂ i).isActor = (ρ i).isActor := fun i =>
      (hc₂.isActor_eq i).trans (hc₁.isActor_eq i)
  · obtain ⟨rfl, hnone⟩ := hr
    have hp := Parting.of_stages ho hs ho₂ hno₂ (hc₂.no_member (.inl ⟨rfl, rfl⟩)) hact hchain
    refine hp.ensures_commit ho hchain fun s hsome => ?_
    obtain rfl := hnone.unique (hplan s hsome)
    have hcell := (ho.same_sends hs (.inl rfl)).2
    exact ⟨by rw [hcell], by rw [hcell]⟩
  · obtain ⟨hb, hstr, hsome⟩ := hr
    rw [List.append_nil] at ho₂
    obtain ⟨ho₃, hw₃, hsafe⟩ := ho₂.publish hstr
    have hno : ∀ (b : Bundle) o, (∀ i, ρ₂ i ≠ b.member o) → ∀ i,
        ρ₂.setAll k .data i ≠ b.member o := by
      intro b o hno i hi
      unfold Roles.setAll at hi
      split at hi
      · cases b <;> cases hi
      · exact hno i hi
    have hact₃ := Roles.isActor_setAll (ρ := ρ₂) (l := k) (r := .data) rfl fun i hi => by
      rw [(hstr.2 i hi).1]
      rfl
    have hp := Parting.of_stages ho (hs.trans hw₃.stages) ho₃ (hno .stack t hno₂)
      (hno .become e (hc₂.no_member (.inl ⟨rfl, rfl⟩))) (fun i => (hact₃ i).trans (hact i)) hchain
    have hgrow := (ho₃.ends_finish (.inl rfl)).frame.grows
    refine (hp.ensures_store (.inl rfl) ((hw₃.safe hb).mono hgrow)).bind ?_
    rintro - m₄ ⟨hp₄, hset₄⟩
    refine (hp₄.ensures_store (.inr rfl) (hsafe.mono hgrow)).bind ?_
    rintro - m₅ ⟨hp₅, hset₅⟩
    refine hp₅.ensures_commit ho hchain fun s hlist => ?_
    obtain rfl := hsome.unique (hplan s hlist)
    have hcell : ∀ i ∈ k, m₅.heap.cellAt i = m₂.heap.cellAt i := by
      intro i hi
      have hia : i ≠ a := by
        rintro rfl
        have := (hstr.2 i hi).1
        rw [ho₂.roles.2] at this
        cases this
      rw [hset₅.ne hia, hset₄.ne hia]
    have hy : (m₅.heap.cellAt a).y = state := by
      rw [hset₅.self]
      rfl
    refine ⟨?_, ?_⟩
    · rw [hset₅.self, show ((m₄.heap.cellAt a).set .y state).x = (m₄.heap.cellAt a).x from rfl,
        hset₄.self]
      rfl
    · rw [hy]
      refine ⟨k, (hstr.pairs ho₂.orderly.layout).congr ?_ hcell,
        List.map_congr_left fun i hi => by rw [hcell i hi]⟩
      exact Nat.le_of_eq (hset₅.top.trans hset₄.top).symm

theorem ensures_releaseActor (ho : Open t e a [] ρ m) :
    Ensures (releaseActor (.ref a)) m
      (fun _ m' => ∃ ρ', Closed t e a ρ m .release ρ' m') E := by
  obtain ⟨l, hchain, hm⟩ := ho.sends
  unfold releaseActor
  refine ho.ensures_discard_clear fun ρ₁ m₁ ho₁ hd => ?_
  have hp := Parting.of_stages ho hd.stages ho₁ hd.ne_operand hd.ne_staged hd.isActor_eq hchain
  have hv := hp.leaving
  refine hv.ensures_flushSends.bind ?_
  rintro n m₃ ⟨ρ₃, hc₃, hd₃, hsame⟩
  have ha₃ : ρ₃ a = .transit := hsame.1.trans hv.actor
  refine (hc₃.ensures_store ha₃ (f := .y) (by decide) safe_nil).bind ?_
  rintro - m₄ ⟨hset₄, hc₄, hconf₄⟩
  have hx₄ : (m₄.heap.cellAt a).x = (m.heap.cellAt a).x := by
    rw [hset₄.self, ← (ho.same_sends hd.stages (.inl rfl)).2, ← hsame.2]
    rfl
  -- The actor is kept if it is permanent, and freed if it is not.
  have hclosed : ∀ ρ₅ m₅ m₆, Closing t e [] ρ₅ m₅ → Confined (fun j _ => j = a) ρ₃ m₄ ρ₅ m₅ →
      Ending.leaves .release (ρ₅ a) → (ρ₅ a = .idle → (m₅.heap.cellAt a).x = (m₄.heap.cellAt a).x) →
      Quiet (m₅.tally Ending.release.count) m₆ → Closed t e a ρ m .release ρ₅ m₆ := by
    intro ρ₅ m₅ m₆ hc₅ hconf₅ hrole hx₅ hq
    have hothers : ∀ b, b ≠ a → (ρ₅ b).isActor = (ρ b).isActor := fun b hb => by
      rw [(hconf₅.frame.same hb).1, hp.isActor_delivers hd₃]
    have hconf := hconf₄.trans hconf₅
    refine ⟨(hc₅.tally _).quiet hq, ?_, hrole, fun k hk => ?_, by simp, by simp, by simp,
      fun _ hidle => ?_, hothers⟩
    · exact (((hp.ends.trans (hv.ends_delivers hd₃)).trans hconf.ends).trans (.tally _)).trans
        (.quiet hq)
    · obtain rfl := hchain.unique hk
      exact (hp.accounts .release ho hchain hd₃ hc₃.orderly.layout ha₃ hconf rfl).quiet hq
    · rw [show m₆.heap = m₅.heap from hq.heap, hx₅ hidle, hx₄]
  rw [ensures_look_bind]
  dsimp only
  refine .ite (fun _ => ?_) fun _ => ?_
  · refine (Silent.note _).bind fun _ m₅ hq₅ => ?_
    refine ((hc₄.quiet hq₅).ensures_clearMarker ha₃).bind ?_
    rintro - m₆ ⟨hc₆, hconf₆, hcell₆⟩
    rw [ensures_count_bind]
    refine (Silent.note _).ensures fun _ m₇ hq₇ => ?_
    refine ⟨_, hclosed _ m₆ m₇ hc₆ (hq₅.confined.trans hconf₆) (.inl (Roles.set_self ..))
      (fun _ => ?_) hq₇⟩
    rw [hcell₆, hq₅.heap]
    rfl
  · have hae : a ≠ e := by
      rintro rfl
      simp [hc₄.event] at ha₃
    refine (hc₄.ensures_free [] (.inr ha₃) hae (by simp)).bind ?_
    rintro - m₅ ⟨hc₅, hframe, hu⟩
    rw [ensures_count_bind]
    refine (Silent.note _).ensures fun _ m₆ hq₆ => ?_
    exact ⟨_, hclosed _ m₅ m₆ hc₅ ⟨hframe, hu⟩ (.inr (Roles.set_self ..)) (by simp) hq₆⟩

theorem ensures_endTransaction (ho : Open t e a [] ρ m) (ending : Ending) :
    Ensures (endTransaction ending) m (fun _ m' => ∃ ρ', Closed t e a ρ m ending ρ' m')
      fun m' => ∃ ρ', Open t e a [] ρ' m' ∧ Within t ρ m ρ' m' := by
  unfold endTransaction
  refine ho.me_bind ?_
  cases ending with
  | abort =>
    refine Ensures.bind ho.runs_popTop ?_
    rintro reason m₁ ⟨ρ₁, ho₁, hw₁, -, hroles, -⟩
    refine (Silent.note _).bind fun _ m₂ hq => ?_
    have hw₂ : Within t ρ m ρ₁ m₂ := hw₁.trans hq.confined
    refine (ho₁.quiet hq).ensures_abortTransaction.imp ?_
    rintro - m₃ ⟨ρ₃, hc⟩
    have hcell := (ho.same_sends hw₂.stages (.inl rfl)).2
    obtain ⟨hactor, hfreed⟩ := hc.aborted rfl
    refine ⟨ρ₃, hc.closing, (Within.ends hw₂).trans hc.ends, hc.actor, fun l hl => ?_, by simp,
      fun _ => ⟨by rw [hactor, hcell], fun i hi => hfreed i ?_⟩, by simp, by simp, fun b hb => ?_⟩
    · exact (hc.accounts l (ho.chain hw₂.stages hl)).after (ho.spares hw₂.stages) rfl
    · obtain hr | ⟨-, hr⟩ := hroles i
      · rw [hr]
        exact hi
      · exact .inr (.inr (.inr hr))
    · rw [hc.others b hb]
      obtain hr | ⟨hr, hr'⟩ := hroles b
      · rw [hr]
      · rw [hr, hr']
        rfl
  | stop => exact ho.ensures_stopTransaction
  | commit => exact ho.ensures_commitTransaction
  | release => exact ho.ensures_releaseActor

end Open

end ActorMachine
