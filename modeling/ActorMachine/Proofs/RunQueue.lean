import ActorMachine.Machine.Schedule
import ActorMachine.Proofs.Running

namespace ActorMachine

open Machine

variable {ρ ρ' ρ'' : Roles} {h h' : Heap} {m m' m'' : Machine}
  {events events' threads threads' : Queue}
  {i : Nat}
variable {r : Role} {t : Nat}

/-- What no event, thread or collection changes. -/
structure Steady (m m' : Machine) : Prop where
  config : m'.config = m.config
  pinned : m'.pinned = m.pinned
  collector : m'.collector = m.collector
  handler : m'.clock.map Clock.handler = m.clock.map Clock.handler

theorem Steady.refl (m : Machine) : Steady m m := ⟨rfl, rfl, rfl, rfl⟩

theorem Steady.trans (h₁ : Steady m m') (h₂ : Steady m' m'') : Steady m m'' :=
  ⟨h₂.1.trans h₁.1, h₂.2.trans h₁.2, h₂.3.trans h₁.3, h₂.4.trans h₁.4⟩

theorem Steady.tally (f : Stats → Stats) : Steady m (m.tally f) := ⟨rfl, rfl, rfl, rfl⟩

theorem Untouched.steady (hu : Untouched m m') : Steady m m' :=
  ⟨hu.config, hu.pinned, hu.collector, by rw [hu.clock]⟩

/-- What is not selected stays as it is, and so does the line of threads. -/
structure Keeps (M : Nat → Role → Prop) (ρ : Roles) (m : Machine) (ρ' : Roles) (m' : Machine) :
    Prop where
  frame : Frame M ρ m.heap ρ' m'.heap
  steady : Steady m m'
  threads : m'.threads = m.threads

namespace Keeps

variable {M N : Nat → Role → Prop}

theorem refl : Keeps M ρ m ρ m := ⟨.refl, .refl m, rfl⟩

theorem trans (h₁ : Keeps M ρ m ρ' m') (h₂ : Keeps M ρ' m' ρ'' m'') : Keeps M ρ m ρ'' m'' :=
  ⟨h₁.frame.trans h₂.frame, h₁.steady.trans h₂.steady, h₂.threads.trans h₁.threads⟩

theorem mono (hk : Keeps M ρ m ρ' m') (hmn : ∀ i r, M i r → N i r) : Keeps N ρ m ρ' m' :=
  ⟨hk.frame.mono hmn, hk.steady, hk.threads⟩

theorem of_untouched (hf : Frame M ρ m.heap ρ' m'.heap) (hu : Untouched m m') :
    Keeps M ρ m ρ' m' :=
  ⟨hf, hu.steady, hu.threads⟩

theorem quiet (hq : Quiet m m') : Keeps M ρ m ρ m' :=
  .of_untouched (by rw [hq.heap]; exact .refl) hq.untouched

end Keeps

def Machine.Waiting (m : Machine) (q : List Nat) : Prop := m.events.Holds m.heap q

def Machine.Lined (m : Machine) (l : List Nat) : Prop := m.threads.Holds m.heap l

theorem Queue.Holds.unique {q : Queue} {l k : List Nat} (hl : q.Holds h l)
    (hk : q.Holds h k) : l = k :=
  hl.1.unique hk.1

namespace Machine

variable {E : Machine → Prop} {l : List Nat}

/-! What the actions on the lines do to the cells in them. -/

theorem ensures_enqueue (hs : m.heap.Sound) (hq : m.Waiting l) (hi : i ∉ l) (hr : Word.reserved ≤ i)
    (hu : ∀ j ∈ i :: l, (m.heap.cellAt j).t ≠ .freeT) :
    Ensures (putEvent (.ref i)) m
      (fun _ m' => ∃ h' q, m' = { m with heap := h', events := q } ∧ q.Holds h' (l ++ [i]) ∧
        m.heap.Relinks (i :: l) h') E := by
  unfold putEvent
  rw [ensures_get_bind]
  refine Ensures.bind (Q := fun q m' => ∃ h', m' = { m with heap := h' } ∧ q.Holds h' (l ++ [i]) ∧
    m.heap.Relinks (i :: l) h') ?_ ?_
  · rw [ensures_onHeap]
    unfold Queue.putEvent
    rw [ensures_get_bind]
    dsimp only
    refine .ite (fun _ => .inl rfl) fun _ => Heap.ensures_fetch_bind fun _ _ _ => ?_
    rw [ensures_get_bind]
    refine .ite (fun _ => .inl rfl) fun _ => ?_
    exact (Queue.ensures_put hs hq hi hr hu).imp (fun q h' h => ⟨h', rfl, h⟩)
  · rintro q m' ⟨h', rfl, hq', hlink⟩
    exact ⟨h', q, rfl, hq', hlink⟩

theorem ensures_dequeue (hs : m.heap.Sound) (hq : m.Waiting l)
    (hu : ∀ j ∈ l, (m.heap.cellAt j).t ≠ .freeT) :
    Ensures popEvent m
      (fun r m' => l = [] ∧ r = none ∧ m' = m ∨ ∃ i l' h' q, l = i :: l' ∧ r = some (.ref i) ∧
        m' = { m with heap := h', events := q } ∧ q.Holds h' l' ∧ (h'.cellAt i).z = .nil ∧
        m.heap.Relinks [i] h') E := by
  unfold popEvent
  rw [ensures_get_bind]
  refine Ensures.bind (Q := fun r m' => l = [] ∧ r.1 = none ∧ r.2 = m.events ∧ m' = m ∨ ∃ i l' h',
    l = i :: l' ∧ r.1 = some (.ref i) ∧ m' = { m with heap := h' } ∧ r.2.Holds h' l' ∧
    (h'.cellAt i).z = .nil ∧ m.heap.Relinks [i] h') ?_ ?_
  · rw [ensures_onHeap]
    refine (Queue.ensures_pop hs hq hu).imp ?_
    rintro r h' (⟨h1, rfl, rfl⟩ | ⟨i, l', hl', hr, hq', hz, hlink⟩)
    · exact .inl ⟨h1, rfl, rfl, rfl⟩
    · exact .inr ⟨i, l', h', hl', hr, rfl, hq', hz, hlink⟩
  · rintro ⟨v, q⟩ m' (⟨h1, rfl, rfl, rfl⟩ | ⟨i, l', h', rfl, hv, rfl, hq', hz, hlink⟩)
    · exact .inl ⟨h1, rfl, rfl⟩
    · exact .inr ⟨i, l', h', q, rfl, hv, rfl, hq', hz, hlink⟩

theorem ensures_enline (hs : m.heap.Sound) (hq : m.Lined l) (hi : i ∉ l) (hr : Word.reserved ≤ i)
    (hu : ∀ j ∈ i :: l, (m.heap.cellAt j).t ≠ .freeT) :
    Ensures (putThread (.ref i)) m
      (fun _ m' => ∃ h' q, m' = { m with heap := h', threads := q } ∧ q.Holds h' (l ++ [i]) ∧
        m.heap.Relinks (i :: l) h') E := by
  unfold putThread
  rw [ensures_get_bind]
  refine Ensures.bind (Q := fun q m' => ∃ h', m' = { m with heap := h' } ∧ q.Holds h' (l ++ [i]) ∧
    m.heap.Relinks (i :: l) h') ?_ ?_
  · rw [ensures_onHeap]
    exact (Queue.ensures_put hs hq hi hr hu).imp (fun q h' h => ⟨h', rfl, h⟩)
  · rintro q m' ⟨h', rfl, hq', hlink⟩
    exact ⟨h', q, rfl, hq', hlink⟩

theorem ensures_deline (hs : m.heap.Sound) (hq : m.Lined l)
    (hu : ∀ j ∈ l, (m.heap.cellAt j).t ≠ .freeT) :
    Ensures popThread m
      (fun r m' => l = [] ∧ r = none ∧ m' = m ∨ ∃ i l' h' q, l = i :: l' ∧ r = some (.ref i) ∧
        m' = { m with heap := h', threads := q } ∧ q.Holds h' l' ∧ m.heap.Relinks [i] h') E := by
  unfold popThread
  rw [ensures_get_bind]
  refine Ensures.bind (Q := fun r m' => l = [] ∧ r.1 = none ∧ r.2 = m.threads ∧ m' = m ∨ ∃ i l' h',
    l = i :: l' ∧ r.1 = some (.ref i) ∧ m' = { m with heap := h' } ∧ r.2.Holds h' l' ∧
    m.heap.Relinks [i] h') ?_ ?_
  · rw [ensures_onHeap]
    refine (Queue.ensures_pop hs hq hu).imp ?_
    rintro r h' (⟨h1, rfl, rfl⟩ | ⟨i, l', hl', hr, hq', -, hlink⟩)
    · exact .inl ⟨h1, rfl, rfl, rfl⟩
    · exact .inr ⟨i, l', h', hl', hr, rfl, hq', hlink⟩
  · rintro ⟨v, q⟩ m' (⟨h1, rfl, rfl, rfl⟩ | ⟨i, l', h', rfl, hv, rfl, hq', hlink⟩)
    · exact .inl ⟨h1, rfl, rfl⟩
    · exact .inr ⟨i, l', h', q, rfl, hv, rfl, hq', hlink⟩

end Machine

theorem Layout.mem_waiting (hl : m.Arranged ρ) {q : List Nat} (hq : m.Waiting q) :
    i ∈ q ↔ ρ i = .queued := by
  obtain ⟨q', hq', hm⟩ := hl.queue
  rw [hq.unique hq']
  exact hm i

theorem Layout.mem_lined (hl : m.Arranged ρ) {l : List Nat} (hq : m.Lined l) :
    i ∈ l ↔ (ρ i).inLine = true := by
  obtain ⟨l', hl', hm⟩ := hl.line
  rw [hq.unique hl']
  exact hm i

theorem Frame.waiting {M : Nat → Role → Prop} {q : List Nat} (hf : Frame M ρ m.heap ρ' m'.heap)
    (he : m'.events = m.events) (hl : m.Arranged ρ)
    (hM : ∀ i, ρ i = .queued → ¬ M i .queued) (hq : m.Waiting q) : m'.Waiting q := by
  unfold Waiting
  rw [he]
  refine hq.congr fun i hi => ?_
  have hr := (hl.mem_waiting hq).1 hi
  rw [(hf.same (by rw [hr]; exact hM i hr)).2]

theorem Frame.lined {M : Nat → Role → Prop} {l : List Nat} (hf : Frame M ρ m.heap ρ' m'.heap)
    (ht : m'.threads = m.threads) (hl : m.Arranged ρ)
    (hM : ∀ i, (ρ i).inLine = true → ¬ M i (ρ i)) (hq : m.Lined l) : m'.Lined l := by
  unfold Lined
  rw [ht]
  refine hq.congr fun i hi => ?_
  rw [(hf.same (hM i ((hl.mem_lined hq).1 hi))).2]

theorem Role.isNew_of_inLine (hr : r.inLine = true) : r.isNew = false := by
  cases r <;> first | rfl | cases hr

theorem Frame.inLine_iff {M : Nat → Role → Prop} (hf : Frame M ρ h ρ' h')
    (hM : ∀ r : Role, r.inLine = true → ¬ M i r) : (ρ' i).inLine = true ↔ (ρ i).inLine = true := by
  constructor <;> intro hi
  · rwa [← (hf.same_of_after (hM _ hi) (Role.isNew_of_inLine hi)).1]
  · rwa [(hf.same (hM _ hi)).1]

theorem Layout.lined_length {l : List Nat} (hl : m.Arranged ρ)
    (hl' : m'.Arranged ρ') (hr : ∀ i, (ρ' i).inLine = true ↔ (ρ i).inLine = true)
    (hq : m.Lined l) : ∃ l', m'.Lined l' ∧ l'.length = l.length := by
  obtain ⟨l', hq', hm'⟩ := hl'.line
  refine ⟨l', hq', List.Perm.length_eq ?_⟩
  refine (List.perm_ext_iff_of_nodup hq'.1.nodup hq.1.nodup).2 fun i => ?_
  rw [hm', hr, hl.mem_lined hq]

theorem Layout.lined_length_succ {l : List Nat} (hl : m.Arranged ρ)
    (hl' : m'.Arranged ρ') (ht : (ρ t).inLine = false)
    (hr : ∀ i, (ρ' i).inLine = true ↔ i = t ∨ (ρ i).inLine = true) (hq : m.Lined l) :
    ∃ l', m'.Lined l' ∧ l'.length = l.length + 1 := by
  obtain ⟨l', hq', hm'⟩ := hl'.line
  refine ⟨l', hq', ?_⟩
  have htl : t ∉ l := by
    rw [hl.mem_lined hq, ht]
    simp
  have hperm : l'.Perm (t :: l) := by
    refine (List.perm_ext_iff_of_nodup hq'.1.nodup (List.nodup_cons.2 ⟨htl, hq.1.nodup⟩)).2
      fun i => ?_
    rw [hm', hr, List.mem_cons, hl.mem_lined hq]
  rw [hperm.length_eq, List.length_cons]

def Stats.ended (s : Stats) : Nat := s.commits + s.aborts + s.releases + s.stops

/-- So many events have come in from elsewhere. An event that comes in is on its way until it is
dropped or dispatched, and one that is dispatched has a thread until its transaction ends. -/
structure Balances (k : Nat) (m m' : Machine) : Prop where
  events : ∀ q, m.Waiting q → ∃ q', m'.Waiting q' ∧
    k + m'.stats.clockEvents + (m.stats.dispatched + m.stats.dropped + q.length) =
      m.stats.clockEvents + (m'.stats.dispatched + m'.stats.dropped + q'.length)
  threads : ∀ l, m.Lined l → ∃ l', m'.Lined l' ∧
    m'.stats.dispatched + (m.stats.ended + l.length) = m.stats.dispatched +
    (m'.stats.ended + l'.length)

namespace Balances

variable {j k : Nat}

theorem refl : Balances 0 m m :=
  ⟨fun q hq => ⟨q, hq, by omega⟩, fun l hl => ⟨l, hl, by omega⟩⟩

theorem trans (h₁ : Balances j m m') (h₂ : Balances k m' m'') : Balances (j + k) m m'' := by
  refine ⟨fun q hq => ?_, fun l hl => ?_⟩
  · obtain ⟨q', hq', e₁⟩ := h₁.events q hq
    obtain ⟨q'', hq'', e₂⟩ := h₂.events q' hq'
    exact ⟨q'', hq'', by omega⟩
  · obtain ⟨l', hl', e₁⟩ := h₁.threads l hl
    obtain ⟨l'', hl'', e₂⟩ := h₂.threads l' hl'
    exact ⟨l'', hl'', by omega⟩

theorem of_eq (hw : ∀ q, m.Waiting q → m'.Waiting q) (hl : ∀ l, m.Lined l → m'.Lined l)
    (hs : m'.stats = m.stats) : Balances 0 m m' := by
  refine ⟨fun q hq => ⟨q, hw q hq, ?_⟩, fun l h => ⟨l, hl l h, ?_⟩⟩
  · rw [hs]
    omega
  · rw [hs]

theorem of_heap (hh : m'.heap = m.heap) (he : m'.events = m.events) (ht : m'.threads = m.threads)
    (hs : m'.stats = m.stats) : Balances 0 m m' := by
  refine of_eq (fun q hq => ?_) (fun l hl => ?_) hs
  · unfold Waiting
    rw [hh, he]
    exact hq
  · unfold Lined
    rw [hh, ht]
    exact hl

theorem quiet (hq : Quiet m m') : Balances 0 m m' := of_heap hq.heap hq.events hq.threads hq.stats

end Balances

/-- The first thread, which may have come to other code, has gone to the end of the line. -/
structure Relays (ρ : Roles) (m m' : Machine) : Prop where
  frame : Frame (fun _ r => r.inLine = true) ρ m.heap ρ m'.heap
  stack : ∀ i, (m'.heap.cellAt i).x = (m.heap.cellAt i).x
  others : ∀ i, m.threads.head ≠ .ref i → ∀ f, f ≠ .z →
    (m'.heap.cellAt i).get f = (m.heap.cellAt i).get f
  line : ∀ t l, m.Lined (t :: l) → m'.Lined (l ++ [t])
  steady : Steady m m'
  events : m'.events = m.events
  stats : m'.stats = m.stats

structure Enqueues (i : Nat) (m m' : Machine) : Prop where
  waiting : ∀ q, m.Waiting q → m'.Waiting (q ++ [i])
  fields : ∀ j f, f ≠ .z → (m'.heap.cellAt j).get f = (m.heap.cellAt j).get f
  stats : m'.stats = m.stats

structure Dequeues (i : Nat) (m m' : Machine) : Prop where
  waiting : ∀ q, m.Waiting q → ∃ q', q = i :: q' ∧ m'.Waiting q'
  fields : ∀ j f, f ≠ .z → (m'.heap.cellAt j).get f = (m.heap.cellAt j).get f
  stats : m'.stats = m.stats

theorem Heap.Relinks.fields {l : List Nat} (hr : h.Relinks l h') {f : Field} (hf : f ≠ .z)
    (j : Nat) :
    (h'.cellAt j).get f = (h.cellAt j).get f := by
  cases f with
  | t => exact hr.t j
  | x => exact hr.x j
  | y => exact hr.y j
  | z => exact absurd rfl hf

theorem Suits.relink {l : List Nat} (hr : h.Relinks l h') (hs : Suits ρ (h.cellAt i) .queued) :
    Suits ρ (h'.cellAt i) .queued := by
  simpa only [Suits, hr.t i, hr.x i, hr.y i] using hs

theorem Heap.Relinks.frame {l : List Nat} (hr : h.Relinks l h') (hd : ρ i ≠ .data)
    (hc : r ≠ .condemned) :
    Frame (fun j _ => j = i ∨ j ∈ l) ρ h (ρ.set i r) h' := by
  refine ⟨?_, Roles.grows_set hd hc, hr.fades, hr.permanent, hr.sanity, Nat.le_of_eq hr.top.symm⟩
  intro j
  by_cases hj : j = i ∨ j ∈ l
  · exact .inr ⟨hj, .inl hj⟩
  · rw [not_or] at hj
    exact .inl ⟨Roles.set_ne _ _ hj.1, hr.same j hj.2⟩

namespace Layout

theorem queued (hl : Layout ρ h events threads) {l : List Nat} (hr : h.Relinks l h')
    (hrole : ρ i = .held ∧ r = .queued ∨ ρ i = .queued ∧ r = .held)
    (hlist : ∀ j ∈ l, j = i ∨ ρ j = .queued) (hs : Suits ρ (h.cellAt i) .queued)
    (hq : ∃ l, events'.Holds h' l ∧ ∀ j, j ∈ l ↔ ρ.set i r j = .queued) :
    Layout (ρ.set i r) h' events' threads := by
  have hd : ρ i ≠ .data ∧ r ≠ .condemned := by
    obtain ⟨h1, rfl⟩ | ⟨h1, rfl⟩ := hrole <;> rw [h1] <;> simp
  have hg : Grows ρ (ρ.set i r) := Roles.grows_set hd.1 hd.2
  have htop := Nat.le_of_eq hr.top.symm
  refine hl.plain hr.sound hr.permanent htop hg ?_ hq
  intro j
  by_cases hj : j = i
  · subst hj
    have hout : ρ j ≠ .outside := by
      obtain ⟨h1, -⟩ | ⟨h1, -⟩ := hrole <;> rw [h1] <;> simp
    have hp := (hl.fits j).1.mono hr.permanent htop fun e => absurd e hout
    have hs' := (hs.relink hr).mono hg
    refine .inr ?_
    rw [Roles.set_self]
    obtain ⟨h1, rfl⟩ | ⟨h1, rfl⟩ := hrole <;> rw [h1] at hp
    · exact ⟨by rw [h1]; rfl, rfl, (hl.bounds hout).1, hp, hs'⟩
    · refine ⟨by rw [h1]; rfl, rfl, (hl.bounds hout).1, hp, ?_⟩
      exact Suits.held_of_member (k := .sends) (o := 0) hs'
  · rw [Roles.set_ne _ _ hj]
    by_cases hjl : j ∈ l
    · have hjq : ρ j = .queued := (hlist j hjl).resolve_left hj
      have hout : ρ j ≠ .outside := by rw [hjq]; simp
      have hf := hl.fits j
      rw [hjq] at hf
      refine .inr ⟨by rw [hjq]; rfl, by rw [hjq]; rfl, (hl.bounds hout).1, ?_⟩
      rw [hjq]
      exact ⟨hf.1.mono hr.permanent htop (by simp), (hf.2.relink hr).mono hg⟩
    · refine .inl ⟨⟨Roles.set_ne _ _ hj, hr.same j hjl⟩, ?_⟩
      intro e
      rw [hr.top]
      exact hl.outside_iff.1 e

end Layout

namespace Orderly

variable {E : Machine → Prop}

theorem relinks {l : List Nat} (ho : Orderly ρ m) (hr : m.heap.Relinks l h') (hg : Grows ρ ρ')
    (hl : ∀ j ∈ l, ρ j ≠ .condemned) (hc : ∀ j, ρ'.condemned j ↔ ρ.condemned j)
    (hlay : Layout ρ' h' events' threads') :
    Orderly ρ' { m with heap := h', events := events', threads := threads' } := by
  refine ⟨hlay, fun w hw => (ho.kept w hw).mono hg,
    (hr.respects _ ho.shuns fun w hw => ?_).of_iff hc, fun w hw => hr.fades.lit (ho.lit w hw)⟩
  obtain ⟨j, hj, rfl⟩ := List.mem_map.1 hw
  exact hl j hj

theorem ne_condemned_of_inLine (hi : (ρ i).inLine = true) : ρ i ≠ .condemned := by
  intro e
  rw [e] at hi
  cases hi

theorem ensures_putEvent (ho : Orderly ρ m) (hi : ρ i = .held)
    (hs : Suits ρ (m.heap.cellAt i) .queued) :
    Ensures (putEvent (.ref i)) m
      (fun _ m' => Orderly (ρ.set i .queued) m' ∧
        Keeps (fun j r => j = i ∨ r = .queued) ρ m (ρ.set i .queued) m' ∧ Enqueues i m m') E := by
  have hl := ho.layout
  obtain ⟨l, hq, hm⟩ := hl.queue
  have hil : i ∉ l := by
    rw [hm, hi]
    simp
  have hu : ∀ j ∈ i :: l, (m.heap.cellAt j).t ≠ .freeT := by
    intro j hj
    have hj : Suits ρ (m.heap.cellAt j) .queued := by
      obtain rfl | hj := List.mem_cons.1 hj
      · exact hs
      · have := (hl.fits j).2
        rwa [(hm j).1 hj] at this
    rw [hj.1]
    decide
  refine (ensures_enqueue ho.sound hq hil (hl.bounds (by rw [hi]; simp)).1 hu).imp ?_
  rintro - m' ⟨h', q, rfl, hq', hr⟩
  have hrole : ∀ j, j ∈ l ++ [i] ↔ ρ.set i .queued j = .queued := by
    intro j
    by_cases hj : j = i
    · simp [hj]
    · simp [hj, Roles.set_ne, hm]
  have hg : Grows ρ (ρ.set i .queued) := Roles.grows_set (by rw [hi]; simp) (by simp)
  refine ⟨ho.relinks hr hg ?_ (Roles.condemned_set (by rw [hi]; simp) (by simp)) ?_,
    ⟨?_, ⟨rfl, rfl, rfl, rfl⟩, rfl⟩, fun k hk => hk.unique hq ▸ hq', fun j f hf =>
    hr.fields hf j, rfl⟩
  · intro j hj
    obtain rfl | hj := List.mem_cons.1 hj
    · rw [hi]
      simp
    · rw [(hm j).1 hj]
      simp
  · refine hl.queued hr (.inl ⟨hi, rfl⟩) ?_ hs ⟨_, hq', hrole⟩
    intro j hj
    exact (List.mem_cons.1 hj).imp_right (hm j).1
  · refine (hr.frame (i := i) (r := .queued) (by rw [hi]; simp) (by simp)).select ?_ ?_
    · rintro j (hj | hj)
      · exact .inl hj
      · exact (List.mem_cons.1 hj).imp_right (hm j).1
    · rintro j (hj | hj) _
      · exact .inl (.inl hj)
      · refine .inl ((List.mem_cons.1 hj).imp_right fun hj => ?_)
        exact (hrole j).1 (by simp [hj])

theorem ensures_popEvent (ho : Orderly ρ m) :
    Ensures popEvent m
      (fun r m' => r = none ∧ m' = m ∧ m.Waiting [] ∨ ∃ i, r = some (.ref i) ∧ ρ i = .queued ∧
        Orderly (ρ.set i .held) m' ∧ Suits (ρ.set i .held) (m'.heap.cellAt i) .queued ∧
        (m'.heap.cellAt i).z = .nil ∧ Keeps (fun j _ => j = i) ρ m (ρ.set i .held) m' ∧
        Dequeues i m m') E := by
  have hl := ho.layout
  obtain ⟨l, hq, hm⟩ := hl.queue
  have hsuit : ∀ j ∈ l, Suits ρ (m.heap.cellAt j) .queued := by
    intro j hj
    have := (hl.fits j).2
    rwa [(hm j).1 hj] at this
  refine (ensures_dequeue ho.sound hq fun j hj => ?_).imp ?_
  · rw [(hsuit j hj).1]
    decide
  rintro r m' (⟨rfl, rfl, rfl⟩ | ⟨i, l', h', q, rfl, hv, rfl, hq', hz, hlink⟩)
  · exact .inl ⟨rfl, rfl, hq⟩
  · have hi : ρ i = .queued := (hm i).1 List.mem_cons_self
    have hil : i ∉ l' := (List.nodup_cons.1 hq.1.nodup).1
    have hs := hsuit i List.mem_cons_self
    have hg : Grows ρ (ρ.set i .held) := Roles.grows_set (by rw [hi]; simp) (by simp)
    have hrole : ∀ j, j ∈ l' ↔ ρ.set i .held j = .queued := by
      intro j
      by_cases hj : j = i
      · simp [hj, hil]
      · rw [Roles.set_ne _ _ hj, ← hm]
        simp [hj]
    refine .inr ⟨i, hv, hi, ho.relinks hlink hg ?_ (Roles.condemned_set ?_ (by simp)) ?_,
      (hs.relink hlink).mono hg, hz, ⟨?_, ⟨rfl, rfl, rfl, rfl⟩, rfl⟩, fun k hk =>
      ⟨l', hk.unique hq, hq'⟩, fun j f hf => hlink.fields hf j, rfl⟩
    · simp [hi]
    · simp [hi]
    · exact hl.queued hlink (.inr ⟨hi, rfl⟩) (by simp) hs ⟨l', hq', hrole⟩
    · exact (hlink.frame (i := i) (r := .held) (by rw [hi]; simp) (by simp)).mono (by simp)

theorem ensures_takeThread (ho : Orderly ρ m) {l : List Nat} (hq : m.Lined l)
    (hm : ∀ i, i ∈ l ↔ (ρ i).inLine = true) :
    Ensures popThread m
      (fun r m' => l = [] ∧ r = none ∧ m' = m ∨ ∃ i l' h' q, l = i :: l' ∧ r = some (.ref i) ∧
        m' = { m with heap := h', threads := q } ∧ q.Holds h' l' ∧ m.heap.Relinks [i] h') E := by
  refine ensures_deline ho.sound hq fun j hj => ?_
  exact (ho.layout.suits_of_moves ((hm j).1 hj) (ho.layout.moves_self ((hm j).1 hj) rfl)).2.1

theorem moves_of_relinks (hl : Layout ρ h events threads) {l : List Nat} (hr : h.Relinks l h')
    (hi : (ρ i).inLine = true) : Layout.Moves ρ h h' i :=
  ⟨hr.x i, hr.y i, by rw [hr.t i]; exact hl.code hi⟩

theorem ensures_rotate (ho : Orderly ρ m) :
    Ensures rotate m
      (fun _ m' => Orderly ρ m' ∧ Relays ρ m m') E := by
  have hl := ho.layout
  obtain ⟨l, hq, hm⟩ := hl.line
  unfold rotate
  refine (ho.ensures_takeThread hq hm).bind ?_
  rintro r m' (⟨rfl, rfl, rfl⟩ | ⟨i, l, h', q, rfl, rfl, rfl, hq', hlink⟩)
  · refine ⟨ho, .refl, fun _ => rfl, fun _ _ _ _ => rfl, fun t k hk => ?_, .refl _, rfl, rfl⟩
    cases hk.unique hq
  have hil : i ∉ l := (List.nodup_cons.1 hq.1.nodup).1
  have hi : (ρ i).inLine = true := (hm i).1 List.mem_cons_self
  have hu : ∀ j ∈ i :: l, (h'.cellAt j).t ≠ .freeT := by
    intro j hj
    rw [hlink.t j]
    exact (hl.suits_of_moves ((hm j).1 hj) (hl.moves_self ((hm j).1 hj) rfl)).2.1
  have hres : Word.reserved ≤ i := (hl.bounds (by intro e; rw [e] at hi; cases hi)).1
  refine (ensures_enline (m := { m with heap := h', threads := q }) hlink.sound hq' hil hres
    hu).imp ?_
  rintro - m' ⟨h'', q', rfl, hq'', hlink₂⟩
  have hlink' := hlink.trans hlink₂ (by simp) fun j hj => hj
  have hline : ∀ j, j ∈ l ++ [i] ↔ (ρ j).inLine = true := by
    intro j
    rw [← hm]
    simp [or_comm]
  refine ⟨ho.relinks hlink' (.refl ρ) (fun j hj => ne_condemned_of_inLine ((hm j).1 hj))
    (fun _ => .rfl) ?_, ?_, hlink'.x, fun j _ f hf => hlink'.fields hf j, fun t k hk => ?_,
    ⟨rfl, rfl, rfl, rfl⟩, rfl, rfl⟩
  · refine hl.reline hlink'.sound hlink'.permanent hlink'.top (fun _ => .inl rfl) ?_
      (fun j hj => moves_of_relinks hl hlink' hj) ⟨_, hq'', hline⟩
    intro j hj
    refine hlink'.same j ?_
    rw [hm, hj]
    simp
  · refine ⟨?_, .refl ρ, hlink'.fades, hlink'.permanent, hlink'.sanity,
      Nat.le_of_eq hlink'.top.symm⟩
    intro j
    cases hj : (ρ j).inLine with
    | true => exact .inr ⟨rfl, .inl rfl⟩
    | false =>
      refine .inl ⟨rfl, hlink'.same j ?_⟩
      rw [hm, hj]
      simp
  · cases hk.unique hq
    exact hq''

theorem ensures_popThread (ho : Orderly ρ m) (hhead : m.threads.head = .ref t) (ht : ρ t = .spent) :
    Ensures popThread m
      (fun r m' => r = some (.ref t) ∧ Orderly (ρ.set t .held) m' ∧
        Frame (fun j _ => j = t) ρ m.heap (ρ.set t .held) m'.heap ∧
        (m'.heap.cellAt t).y = (m.heap.cellAt t).y ∧
        Steady m m' ∧ m'.events = m.events ∧ m'.stats = m.stats) E := by
  have hl := ho.layout
  obtain ⟨l, hq, hm⟩ := hl.line
  have htl : t ∈ l := by
    rw [hm, ht]
    rfl
  refine (ho.ensures_takeThread hq hm).imp ?_
  rintro r m' (⟨rfl, -⟩ | ⟨i, l, h', q, rfl, rfl, rfl, hq', hlink⟩)
  · cases htl
  have hi : i = t := by
    have := hq.1.1
    rw [hhead] at this
    cases this
    rfl
  subst hi
  have hil : i ∉ l := (List.nodup_cons.1 hq.1.nodup).1
  have hg : Grows ρ (ρ.set i .held) := Roles.grows_set (by rw [ht]; simp) (by simp)
  refine ⟨rfl, ho.relinks hlink hg ?_ (Roles.condemned_set ?_ (by simp)) ?_, ?_, hlink.y i,
    ⟨rfl, rfl, rfl, rfl⟩, rfl, rfl⟩
  · simp [ht]
  · simp [ht]
  · refine hl.reline hlink.sound hlink.permanent hlink.top ?_ ?_
      (fun j hj => moves_of_relinks hl hlink hj) ⟨l, hq', ?_⟩
    · intro j
      by_cases hj : j = i
      · exact .inr ⟨hj ▸ ht, by rw [hj, Roles.set_self]⟩
      · exact .inl (Roles.set_ne _ _ hj)
    · intro j hj
      refine hlink.same j ?_
      simp only [List.mem_singleton]
      rintro rfl
      rw [ht] at hj
      cases hj
    · intro j
      by_cases hj : j = i
      · rw [hj, Roles.set_self]
        simp [hil, Role.inLine]
      · rw [Roles.set_ne _ _ hj, ← hm]
        simp [hj]
  · exact (hlink.frame (i := i) (r := .held) (by rw [ht]; simp) (by simp)).mono (by simp)

theorem ensures_putThread {e a : Nat} {l : List Nat} (ho : Orderly ρ m) (hr : ρ.Ready t e a l)
    (hct : Suits ρ (m.heap.cellAt t) (.thread e a))
    (hce : Suits ρ (m.heap.cellAt e) (.handled t a)) (hez : (m.heap.cellAt e).z = .nil)
    (haz : (m.heap.cellAt a).z = .nil) (hchain : m.heap.Chain .y (m.heap.cellAt t).x l)
    (hcl : ∀ i ∈ l, Suits ρ (m.heap.cellAt i) (.operand t)) :
    Ensures (putThread (.ref t)) m
      (fun _ m' => Orderly (ρ.spawn t e a l) m' ∧
        Frame (fun j r => j = t ∨ j = e ∨ j = a ∨ j ∈ l ∨ r.inLine = true) ρ m.heap
          (ρ.spawn t e a l) m'.heap ∧
        (∀ j, j ≠ t → (ρ j).inLine = false → m'.heap.cellAt j = m.heap.cellAt j) ∧
        Steady m m' ∧ m'.events = m.events ∧ m'.stats = m.stats) E := by
  have hlay := ho.layout
  have ht := hr.thread
  have hg := hr.grows
  obtain ⟨q, hq, hm⟩ := hlay.line
  have htq : t ∉ q := by
    rw [hm, ht]
    simp [Role.inLine]
  have hu : ∀ j ∈ t :: q, (m.heap.cellAt j).t ≠ .freeT := by
    intro j hj
    obtain rfl | hj := List.mem_cons.1 hj
    · have := (hlay.fits j).2
      rw [ht] at this
      exact this.1
    · exact (hlay.suits_of_moves ((hm j).1 hj) (hlay.moves_self ((hm j).1 hj) rfl)).2.1
  refine (ensures_enline ho.sound hq htq (hlay.bounds (by rw [ht]; simp)).1 hu).imp ?_
  rintro - m' ⟨h', q', rfl, hq', hlink⟩
  have hother : ∀ i, i ≠ t → (ρ i).inLine = false → h'.cellAt i = m.heap.cellAt i := by
    intro i hit hi
    refine hlink.same i ?_
    simp [hit, hm, hi]
  have hcell : h'.Chain .y (h'.cellAt t).x l := by
    rw [hlink.x t]
    refine hchain.congr ?_
    intro i _
    exact hlink.y i
  have hlay' := hlay.spawn ⟨hr, hlink.permanent, hlink.top, hother,
      fun i hi => moves_of_relinks hlay hlink hi,
      ⟨by simpa only [Suits, hlink.t t, hlink.y t] using hct, hcell⟩, ⟨hce, hez⟩, haz, hcl⟩
    hlink.sound ⟨_, hq', fun i => by simp [hm]⟩
  have hchange : ∀ j, ¬ (j = t ∨ j = e ∨ j = a ∨ j ∈ l) → ρ.spawn t e a l j = ρ j := by
    intro j hj
    simp only [not_or] at hj
    simp only [Roles.spawn, hj, if_false]
  refine ⟨ho.relinks hlink hg (fun j hj => ?_)
      (fun j => hr.spawn_plain rfl (by simp) (by simp)) hlay',
    ⟨?_, hg, hlink.fades, hlink.permanent, hlink.sanity, Nat.le_of_eq hlink.top.symm⟩, hother,
    ⟨rfl, rfl, rfl, rfl⟩, rfl, rfl⟩
  · obtain rfl | hj := List.mem_cons.1 hj
    · rw [ht]
      simp
    · exact ne_condemned_of_inLine ((hm j).1 hj)
  intro j
  by_cases hc : j = t ∨ j = e ∨ j = a ∨ j ∈ l
  · exact .inr ⟨by simp only [← or_assoc] at hc ⊢; exact .inl hc,
      .inl (by simp only [← or_assoc] at hc ⊢; exact .inl hc)⟩
  · have hj := hchange j hc
    cases hi : (ρ j).inLine with
    | true =>
      refine .inr ⟨by simp, .inl ?_⟩
      rw [hj]
      simp [hi]
    | false =>
      rw [not_or] at hc
      exact .inl ⟨hj, hother j hc.1 hi⟩

end Orderly

end ActorMachine
