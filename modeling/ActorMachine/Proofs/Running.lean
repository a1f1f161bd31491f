import ActorMachine.Proofs.Transition
/-! A machine in order, and what the thread that runs may change: its stack, its event, data, and
cells that nobody has. -/

namespace ActorMachine

open Heap

variable {ρ ρ' ρ'' : Roles} {h h' h'' : Heap} {m m' m'' : Machine} {α β : Type}
variable {w : Word} {l : List Nat} {k : Bundle} {o : Nat} {f : Field}

def Role.isNew : Role → Bool
  | data | idle => true
  | _ => false

/-- Cells that change are selected before and after, or turn into data or new actors. -/
structure Frame (M : Nat → Role → Prop) (ρ : Roles) (h : Heap) (ρ' : Roles) (h' : Heap) : Prop where
  changes : ∀ i, Same ρ ρ' h h' i ∨ M i (ρ i) ∧ (M i (ρ' i) ∨ (ρ' i).isNew = true)
  grows : Grows ρ ρ'
  fades : h.Fades h'
  permanent : h'.permanent = h.permanent
  sanity : h'.sanity = h.sanity
  top_le : h.top ≤ h'.top

namespace Frame

variable {M N : Nat → Role → Prop}

theorem refl : Frame M ρ h ρ h :=
  ⟨fun _ => .inl ⟨rfl, rfl⟩, .refl ρ, .refl h, rfl, rfl, Nat.le_refl _⟩

theorem trans (h₁ : Frame M ρ h ρ' h') (h₂ : Frame M ρ' h' ρ'' h'') : Frame M ρ h ρ'' h'' := by
  refine ⟨?_, h₁.grows.trans h₂.grows, h₁.fades.trans h₂.fades, h₂.permanent.trans h₁.permanent,
    h₂.sanity.trans h₁.sanity, Nat.le_trans h₁.top_le h₂.top_le⟩
  intro i
  obtain ⟨r₁, c₁⟩ | ⟨b₁, a₁⟩ := h₁.changes i
  · obtain ⟨r₂, c₂⟩ | ⟨b₂, a₂⟩ := h₂.changes i
    · exact .inl ⟨r₂.trans r₁, c₂.trans c₁⟩
    · exact .inr ⟨r₁ ▸ b₂, a₂⟩
  · obtain ⟨r₂, -⟩ | ⟨-, a₂⟩ := h₂.changes i
    · rw [← r₂] at a₁
      exact .inr ⟨b₁, a₁⟩
    · exact .inr ⟨b₁, a₂⟩

variable (hf : Frame M ρ h ρ' h')

include hf

theorem select (hb : ∀ i, M i (ρ i) → N i (ρ i))
    (ha : ∀ i, M i (ρ i) → M i (ρ' i) → N i (ρ' i) ∨ (ρ' i).isNew = true) : Frame N ρ h ρ' h' :=
  ⟨fun i => (hf.changes i).imp_right fun hi =>
    ⟨hb i hi.1, hi.2.elim (ha i hi.1) .inr⟩, hf.2, hf.3, hf.4, hf.5, hf.6⟩

theorem mono (hmn : ∀ i r, M i r → N i r) : Frame N ρ h ρ' h' :=
  hf.select (fun i => hmn i _) fun i _ hi => .inl (hmn i _ hi)

theorem same {i : Nat} (hi : ¬ M i (ρ i)) : Same ρ ρ' h h' i :=
  (hf.changes i).resolve_right fun hc => hi hc.1

theorem same_of_after {i : Nat} (hi : ¬ M i (ρ' i)) (ha : (ρ' i).isNew = false) :
    Same ρ ρ' h h' i :=
  (hf.changes i).resolve_right fun hc => hc.2.elim hi fun hn => by simp [ha] at hn

end Frame

/-- Only the log and the devices may have changed. -/
structure Quiet (m m' : Machine) : Prop where
  config : m'.config = m.config
  heap : m'.heap = m.heap
  events : m'.events = m.events
  threads : m'.threads = m.threads
  symbols : m'.symbols = m.symbols
  pinned : m'.pinned = m.pinned
  collector : m'.collector = m.collector
  clock : m'.clock = m.clock
  stats : m'.stats = m.stats

/-- Only the heap may have changed, and what programs cannot see: symbols, log and devices. -/
structure Untouched (m m' : Machine) : Prop where
  config : m'.config = m.config
  events : m'.events = m.events
  threads : m'.threads = m.threads
  pinned : m'.pinned = m.pinned
  collector : m'.collector = m.collector
  clock : m'.clock = m.clock
  stats : m'.stats = m.stats

theorem Untouched.refl (m : Machine) : Untouched m m := ⟨rfl, rfl, rfl, rfl, rfl, rfl, rfl⟩

theorem Untouched.onHeap (m : Machine) (h : Heap) : Untouched m { m with heap := h } :=
  ⟨rfl, rfl, rfl, rfl, rfl, rfl, rfl⟩

theorem Quiet.untouched (hq : Quiet m m') : Untouched m m' :=
  ⟨hq.config, hq.events, hq.threads, hq.pinned, hq.collector, hq.clock, hq.stats⟩

theorem Untouched.trans (h₁ : Untouched m m') (h₂ : Untouched m' m'') : Untouched m m'' :=
  ⟨h₂.1.trans h₁.1, h₂.2.trans h₁.2, h₂.3.trans h₁.3, h₂.4.trans h₁.4, h₂.5.trans h₁.5,
    h₂.6.trans h₁.6, h₂.7.trans h₁.7⟩

def Machine.tally (m : Machine) (f : Stats → Stats) : Machine := { m with stats := f m.stats }

def Machine.kept (m : Machine) : List Word :=
  m.symbols.buckets.toList ++ m.pinned.toList ++ (m.clock.map Clock.handler).toList

def Collector.passed : Collector → Nat
  | markSweep _ => 0
  | incremental gc =>
    match gc.phase with
    | .roots | .scan => gc.index
    | .flip | .sweep => 0

def Machine.passed (m : Machine) : List Word := m.symbols.buckets.toList.take m.collector.passed

/-- The machine is laid out as the roles say, and keeps safe words only. What is condemned is left
alone, and what the collector has been to was reached. -/
structure Orderly (ρ : Roles) (m : Machine) : Prop where
  layout : Layout ρ m.heap m.events m.threads
  kept : ∀ w ∈ m.kept, Safe ρ w
  shuns : m.heap.Shuns ρ.condemned
  lit : ∀ w ∈ m.passed, m.heap.Lit w

theorem Orderly.sound (ho : Orderly ρ m) : m.heap.Sound := ho.layout.sound

theorem Orderly.onHeap (ho : Orderly ρ m) (hg : Grows ρ ρ') (hl : Layout ρ' h' m.events m.threads)
    (hs : h'.Shuns ρ'.condemned) (hf : m.heap.Fades h') : Orderly ρ' { m with heap := h' } :=
  ⟨hl, fun w hw => (ho.kept w hw).mono hg, hs, fun w hw => hf.lit (ho.lit w hw)⟩

theorem Orderly.relabel (ho : Orderly ρ m) (hg : Grows ρ ρ')
    (hl : Layout ρ' m.heap m.events m.threads)
    (hc : ∀ i, ρ'.condemned i ↔ ρ.condemned i) : Orderly ρ' m :=
  ⟨hl, fun w hw => (ho.kept w hw).mono hg, ho.shuns.of_iff hc, ho.lit⟩

theorem Orderly.quiet (ho : Orderly ρ m) (hq : Quiet m m') : Orderly ρ m' := by
  refine ⟨?_, ?_, ?_, ?_⟩
  · rw [hq.heap, hq.events, hq.threads]
    exact ho.layout
  · unfold Machine.kept
    rw [hq.symbols, hq.pinned, hq.clock]
    exact ho.kept
  · rw [hq.heap]
    exact ho.shuns
  · unfold Machine.passed
    rw [hq.symbols, hq.collector, hq.heap]
    exact ho.lit

theorem Orderly.tally (ho : Orderly ρ m) (f : Stats → Stats) : Orderly ρ (m.tally f) :=
  ⟨ho.layout, ho.kept, ho.shuns, ho.lit⟩

def Role.isBrief : Role → Bool
  | held | spent | transit => true
  | _ => false

/-- The thread runs the transaction of the actor on the event. All that is held is on the list. -/
structure Open (t e a : Nat) (held : List Nat) (ρ : Roles) (m : Machine) : Prop where
  orderly : Orderly ρ m
  head : m.threads.head = .ref t
  role : ρ t = .thread e a
  brief : ∀ i, (ρ i).isBrief = true → i ∈ held

theorem Open.quiet {t e a : Nat} {held : List Nat} (ho : Open t e a held ρ m) (hq : Quiet m m') :
    Open t e a held ρ m' :=
  ⟨ho.orderly.quiet hq, hq.threads ▸ ho.head, ho.role, ho.brief⟩

theorem Open.tally {t e a : Nat} {held : List Nat} (ho : Open t e a held ρ m) (f : Stats → Stats) :
    Open t e a held ρ (m.tally f) :=
  ⟨ho.orderly.tally f, ho.head, ho.role, ho.brief⟩

def Role.isSpare : Role → Bool
  | outside | free | held => true
  | _ => false

/-- Only cells that are selected have changed, and nothing outside the heap that programs can
see. -/
structure Confined (M : Nat → Role → Prop) (ρ : Roles) (m : Machine) (ρ' : Roles) (m' : Machine) :
    Prop where
  frame : Frame M ρ m.heap ρ' m'.heap
  untouched : Untouched m m'

namespace Confined

variable {M N : Nat → Role → Prop}

theorem refl : Confined M ρ m ρ m := ⟨.refl, .refl m⟩

theorem trans (h₁ : Confined M ρ m ρ' m') (h₂ : Confined M ρ' m' ρ'' m'') :
    Confined M ρ m ρ'' m'' :=
  ⟨h₁.frame.trans h₂.frame, h₁.untouched.trans h₂.untouched⟩

theorem mono (hc : Confined M ρ m ρ' m') (hmn : ∀ i r, M i r → N i r) : Confined N ρ m ρ' m' :=
  ⟨hc.frame.mono hmn, hc.untouched⟩

theorem safe (hc : Confined M ρ m ρ' m') (hs : Safe ρ w) : Safe ρ' w :=
  hs.mono hc.frame.grows

end Confined

theorem Quiet.confined {M : Nat → Role → Prop} (hq : Quiet m m') : Confined M ρ m ρ m' :=
  ⟨by rw [hq.heap]; exact .refl, hq.untouched⟩

def Mine (t i : Nat) (r : Role) : Prop := i = t ∨ r.isSpare = true ∨ r = .operand t

theorem Mine.spare {t i : Nat} {r : Role} (hr : r.isSpare = true) : Mine t i r := .inr (.inl hr)

abbrev Within (t : Nat) := Confined (Mine t)

def Silent (act : MachineM α) : Prop := ∀ m, Ensures act m (fun _ m' => Quiet m m') fun _ => False

theorem Quiet.refl (m : Machine) : Quiet m m := ⟨rfl, rfl, rfl, rfl, rfl, rfl, rfl, rfl, rfl⟩

theorem Quiet.symm (hq : Quiet m m') : Quiet m' m := by
  obtain ⟨h1, h2, h3, h4, h5, h6, h7, h8, h9⟩ := hq
  exact ⟨h1.symm, h2.symm, h3.symm, h4.symm, h5.symm, h6.symm, h7.symm, h8.symm, h9.symm⟩

namespace Silent

variable {act : MachineM α} {E : Machine → Prop}

theorem ensures {P : α → Machine → Prop} (hs : Silent act) (hp : ∀ r m', Quiet m m' → P r m') :
    Ensures act m P E :=
  (hs m).mono hp fun _ => False.elim

theorem bind {k : α → MachineM β} {P : β → Machine → Prop} (hs : Silent act)
    (hk : ∀ r m', Quiet m m' → Ensures (k r) m' P E) : Ensures (act >>= k) m P E :=
  (hs.ensures fun r m' hq => hk r m' hq).bind fun _ _ h => h

theorem note (n : Notice) : Silent (Machine.note n) := fun _ =>
  ⟨rfl, rfl, rfl, rfl, rfl, rfl, rfl, rfl, rfl⟩

theorem noteDispatch (n : Notice) : Silent (Machine.noteDispatch n) := by
  intro m
  unfold Machine.noteDispatch
  rw [ensures_get_bind]
  exact .ite (fun _ => note n m) fun _ => Quiet.refl m

end Silent

@[simp] theorem Machine.ensures_count {f : Stats → Stats} {P : Unit → Machine → Prop}
    {E : Machine → Prop} : Ensures (count f) m P E ↔ P () (m.tally f) := .rfl

@[simp] theorem Machine.ensures_count_bind {f : Stats → Stats} {k : Unit → MachineM β}
    {P : β → Machine → Prop} {E : Machine → Prop} :
    Ensures (count f >>= k) m P E ↔ Ensures (k ()) (m.tally f) P E := .rfl

def Runs (t e a : Nat) (ρ : Roles) (m : Machine) (act : MachineM α)
    (P : Roles → Machine → α → Prop) : Prop :=
  Ensures act m
    (fun r m' => ∃ ρ', Open t e a [] ρ' m' ∧ Within t ρ m ρ' m' ∧ P ρ' m' r)
    fun m' => ∃ ρ', Open t e a [] ρ' m' ∧ Within t ρ m ρ' m'

namespace Runs

variable {t e a : Nat} {act : MachineM α} {P Q : Roles → Machine → α → Prop}

theorem mono (hr : Runs t e a ρ m act P) (hp : ∀ ρ' m' r, P ρ' m' r → Q ρ' m' r) :
    Runs t e a ρ m act Q :=
  Ensures.mono hr (fun r m' ⟨ρ', ho, hw, h⟩ => ⟨ρ', ho, hw, hp ρ' m' r h⟩) fun _ h => h

theorem after (hw : Within t ρ m ρ' m') (hr : Runs t e a ρ' m' act P) :
    Ensures act m' (fun r m'' => ∃ ρ'', Open t e a [] ρ'' m'' ∧ Within t ρ m ρ'' m'' ∧ P ρ'' m'' r)
      fun m'' => ∃ ρ'', Open t e a [] ρ'' m'' ∧ Within t ρ m ρ'' m'' :=
  Ensures.mono hr (fun _ _ ⟨ρ'', ho, hw', h⟩ => ⟨ρ'', ho, hw.trans hw', h⟩)
    fun _ ⟨ρ'', ho, hw'⟩ => ⟨ρ'', ho, hw.trans hw'⟩

theorem bind {k : α → MachineM β} {R : Roles → Machine → β → Prop} (hr : Runs t e a ρ m act P)
    (hk : ∀ r ρ' m', Open t e a [] ρ' m' → Within t ρ m ρ' m' → P ρ' m' r →
      Runs t e a ρ' m' (k r) R) : Runs t e a ρ m (act >>= k) R :=
  Ensures.bind hr fun r m' ⟨ρ', ho, hw, h⟩ => after hw (hk r ρ' m' ho hw h)

theorem pure {r : α} (ho : Open t e a [] ρ m) (hp : P ρ m r) : Runs t e a ρ m (pure r) P :=
  ⟨ρ, ho, .refl, hp⟩

theorem throw {f : Fault} (ho : Open t e a [] ρ m) : Runs t e a ρ m (throw f : MachineM α) P :=
  .inr ⟨ρ, ho, .refl⟩

theorem throw_bind {f : Fault} {k : β → MachineM α} (ho : Open t e a [] ρ m) :
    Runs t e a ρ m (MonadExcept.throw f >>= k) P :=
  .inr ⟨ρ, ho, .refl⟩

theorem ite {c : Prop} [Decidable c] {other : MachineM α} (h₁ : c → Runs t e a ρ m act P)
    (h₂ : ¬ c → Runs t e a ρ m other P) : Runs t e a ρ m (if c then act else other) P :=
  Ensures.ite h₁ h₂

end Runs

namespace Roles

variable {i : Nat} {r : Role}

theorem grows_set (hd : ρ i ≠ .data) (hr : r ≠ .condemned) : Grows ρ (ρ.set i r) := by
  refine ⟨?_, ?_⟩
  · intro j hj
    rw [set_ne _ _ (by rintro rfl; exact hd hj), hj]
  · intro j hj
    by_cases hji : j = i
    · rw [hji, set_self] at hj
      exact absurd hj hr
    · rwa [set_ne _ _ hji] at hj

theorem condemned_set (hi : ρ i ≠ .condemned) (hr : r ≠ .condemned) (j : Nat) :
    (ρ.set i r).condemned j ↔ ρ.condemned j := by
  by_cases hj : j = i
  · simp [condemned, hj, hi, hr]
  · rw [condemned, set_ne _ _ hj]

theorem condemned_setAll (hl : ∀ i ∈ l, ρ i ≠ .condemned) (hr : r ≠ .condemned) (j : Nat) :
    (ρ.setAll l r).condemned j ↔ ρ.condemned j := by
  by_cases hj : j ∈ l
  · simp [condemned, setAll_mem, hj, hl j hj, hr]
  · rw [condemned, setAll_not_mem _ hj]

end Roles

namespace Frame

variable {i : Nat} {r : Role} {c : Cell}

theorem set (hc : ∀ j, j ≠ i → h'.cellAt j = h.cellAt j) (hd : ρ i ≠ .data) (hr : r ≠ .condemned)
    (hf : h.Fades h') (hp : h'.permanent = h.permanent) (hs : h'.sanity = h.sanity)
    (ht : h.top ≤ h'.top) : Frame (fun j _ => j = i) ρ h (ρ.set i r) h' := by
  refine ⟨?_, Roles.grows_set hd hr, hf, hp, hs, ht⟩
  intro j
  by_cases hj : j = i
  · exact .inr ⟨hj, .inl hj⟩
  · exact .inl ⟨Roles.set_ne _ _ hj, hc j hj⟩

theorem sets (hset : h.Sets i c h') (hf : h.Fades h') : Frame (fun j _ => j = i) ρ h ρ h' := by
  refine ⟨?_, .refl ρ, hf, hset.permanent, hset.sanity, Nat.le_of_eq hset.top.symm⟩
  intro j
  by_cases hj : j = i
  · exact .inr ⟨hj, .inl hj⟩
  · exact .inl ⟨rfl, hset.ne hj⟩

theorem one {M : Nat → Role → Prop} (hf : Frame (fun j _ => j = i) ρ h ρ' h') (hb : M i (ρ i))
    (ha : M i (ρ' i) ∨ (ρ' i).isNew = true) : Frame M ρ h ρ' h' :=
  hf.select (fun _ hj => hj ▸ hb) fun _ hj _ => hj ▸ ha

end Frame

theorem Confined.within {t i : Nat} (hc : Confined (fun j _ => j = i) ρ m ρ m') (hi : ρ i = .held) :
    Within t ρ m ρ m' :=
  have hs : (ρ i).isSpare = true := by rw [hi]; rfl
  ⟨hc.frame.one (.spare hs) (.inl (.spare hs)), hc.untouched⟩

def Bundled (k : Bundle) (o j : Nat) (r : Role) : Prop := j = o ∨ r = .held ∨ r = k.member o

theorem Bundled.mine {t j : Nat} {r : Role} (hb : Bundled .stack t j r) : Mine t j r := by
  obtain hj | hr | hr := hb
  · exact .inl hj
  · exact .spare (by rw [hr]; rfl)
  · exact .inr (.inr hr)

namespace Orderly

variable {E : Machine → Prop} {r : Role} {c : Cell} {v : Word}

section Orderly

variable (ho : Orderly ρ m)

include ho

theorem ensures_alloc (hr : r = .held ∨ r = .data ∨ r = .idle)
    (ht : c.t ≠ .freeT) (hc : ∀ i, ρ i = .free ∨ ρ i = .outside → Suits (ρ.set i r) c r)
    (hw : ∀ w ∈ c.words, w.Avoids ρ.condemned) :
    Ensures (liftM (alloc c) : MachineM Word) m
      (fun w m' => ∃ i, w = .ref i ∧ (ρ i = .free ∨ ρ i = .outside) ∧ m.heap.Takes i c m'.heap ∧
        Orderly (ρ.set i r) m' ∧ Frame (fun j _ => j = i) ρ m.heap (ρ.set i r) m'.heap ∧
        Untouched m m') E := by
  rw [Machine.ensures_onHeap]
  refine Heap.ensures_alloc ho.sound ht ?_
  intro i h' htake hfade hsound hrespect
  have hi := ho.layout.fresh htake
  have hd : ρ i ≠ .data := by
    intro e
    simp [e] at hi
  have hrc : r ≠ .condemned := by
    rintro rfl
    simp at hr
  have hic : ρ i ≠ .condemned := by
    intro e
    simp [e] at hi
  have hshuns : h'.Shuns (ρ.set i r).condemned :=
    (hrespect _ ho.shuns (List.forall_mem_cons.2 ⟨hic, hw⟩)).of_iff (Roles.condemned_set hic hrc)
  exact ⟨i, rfl, hi, htake,
    ho.onHeap (Roles.grows_set hd hrc) (ho.layout.take htake hsound hr (hc i hi)) hshuns hfade,
    .set (fun j hj => htake.ne hj) hd hrc hfade htake.permanent htake.sanity htake.top_le,
    .onHeap ..⟩

theorem ensures_free (hr : (ρ v.index).isLoose = true) (hd : ρ v.index ≠ .data)
    (hcon : ρ v.index ≠ .condemned) :
    Ensures (liftM (free v) : MachineM Unit) m
      (fun _ m' => Orderly (ρ.set v.index .free) m' ∧
        Frame (fun j _ => j = v.index) ρ m.heap (ρ.set v.index .free) m'.heap ∧
        Untouched m m') E := by
  rw [Machine.ensures_onHeap]
  refine Heap.ensures_free ho.sound ?_
  intro hp ht hfade hsound hrespect
  have hshuns := (hrespect _ ho.shuns (by simpa using hcon)).of_iff
    (Roles.condemned_set (r := .free) hcon (by simp))
  refine ⟨ho.onHeap (Roles.grows_set hd (by simp)) (ho.layout.give hsound hp ht hr hd) hshuns hfade,
    ?_, .onHeap ..⟩
  refine .set ?_ hd (by simp) hfade rfl rfl (Nat.le_refl _)
  intro j hj
  rw [cellAt_reclaim _ (Nat.lt_of_lt_of_le ht ho.layout.top_le), if_neg hj]

theorem ensures_store {i : Nat} (hr : (ρ i).isLoose = true) (hout : ρ i ≠ .outside)
    (hu : (m.heap.cellAt i).t ≠ .freeT)
    (hc : Suits ρ ((m.heap.cellAt i).set f w) (ρ i)) (ht : ((m.heap.cellAt i).set f w).t ≠ .freeT)
    (hw : w.Avoids ρ.condemned) :
    Ensures (liftM (store (.ref i) f w) : MachineM Unit) m
      (fun _ m' => m.heap.Sets i ((m.heap.cellAt i).set f w) m'.heap ∧ Orderly ρ m' ∧
        Frame (fun j _ => j = i) ρ m.heap ρ m'.heap ∧ Untouched m m') E := by
  rw [Machine.ensures_onHeap]
  refine Heap.ensures_store ho.sound ?_
  intro i' h' hv hlt hset hfade hsound
  cases hv
  obtain ⟨hsound, hrespect⟩ := hsound hu ht
  exact ⟨hset, ho.onHeap (.refl ρ) (ho.layout.write hset hsound hr hout hc)
    (hrespect _ ho.shuns (by simpa using hw)) hfade, .sets hset hfade, .onHeap ..⟩

theorem literal {i : Nat} (hi : i < Word.reserved) : (Word.ref i).Avoids ρ.condemned :=
  ho.shuns.literal hi

theorem avoids_pair {x y : Word} (hx : Safe ρ x) (hy : y.Avoids ρ.condemned) :
    Word.pairT.Avoids ρ.condemned ∧ x.Avoids ρ.condemned ∧ y.Avoids ρ.condemned ∧
      Word.undefined.Avoids ρ.condemned :=
  ⟨ho.literal (by decide), ho.layout.avoids hx, hy, ho.literal (by decide)⟩

theorem avoids_get {i : Nat} (hu : (ρ i).inUse = true) (hc : ρ i ≠ .condemned)
    (f : Field) : ((m.heap.cellAt i).get f).Avoids ρ.condemned := by
  obtain ⟨hr, ht, hf⟩ := ho.layout.inUse hu
  exact ho.shuns.apart i hr ht hf hc _ (Cell.get_mem_words ..)

theorem avoids_chain (hc : m.heap.Chain f w l) (hl : ∀ i ∈ l, ρ i ≠ .condemned) :
    w.Avoids ρ.condemned := by
  cases l with
  | nil =>
    rw [show w = .nil from hc]
    exact ho.shuns.literal (by decide)
  | cons i l =>
    rw [hc.1]
    exact hl i List.mem_cons_self

end Orderly

theorem frame_bundle {i : Nat} (hset : h.Sets i c h') (hfade : h.Fades h')
    (hi : Bundled k o i (ρ i))
    (hl : ∀ i ∈ l, ρ i = .held ∨ ρ i = k.member o) :
    Frame (Bundled k o) ρ h (ρ.bundle k o l) h' := by
  refine ⟨fun j => ?_, Roles.grows_bundle hl, hfade, hset.permanent, hset.sanity,
    Nat.le_of_eq hset.top.symm⟩
  by_cases hj : Bundled k o j (ρ j)
  · refine .inr ⟨hj, .inl ?_⟩
    by_cases hjo : j = o
    · exact .inl hjo
    · refine .inr ?_
      unfold Roles.bundle
      split
      · exact .inr rfl
      · split
        · exact .inl rfl
        · exact hj.resolve_left hjo
  · have hj' := hj
    simp only [Bundled, not_or] at hj
    exact .inl ⟨(Roles.bundle_eq_iff hl hj.2.1 hj.2.2).2 rfl, hset.ne (by rintro rfl; exact hj' hi)⟩

theorem shuns_bundle (ho : Orderly ρ m)
    (hr : m.heap.Respects [w] h') (hc : m.heap.Chain f w l)
    (hl : ∀ i ∈ l, ρ i = .held ∨ ρ i = k.member o)
    (l' : List Nat) (hl' : ∀ i ∈ l', ρ i = .held ∨ ρ i = k.member o) :
    h'.Shuns (ρ.bundle k o l').condemned := by
  have hne : ∀ i, ρ i = .held ∨ ρ i = k.member o → ρ i ≠ .condemned := by
    rintro i (hi | hi) <;> rw [hi]
    · simp
    · cases k <;> simp [Bundle.member]
  have hw := ho.avoids_chain hc fun i hi => hne i (hl i hi)
  refine (hr _ ho.shuns (by simpa using hw)).of_iff fun i => ?_
  exact Roles.bundle_eq_iff hl' (by simp) (by cases k <;> simp [Bundle.member])

theorem ensures_lead (ho : Orderly ρ m) (hown : k.owner (ρ o) = true)
    (hchain : m.heap.Chain k.link w l)
    (hnew : ∀ i ∈ l, (ρ i = .held ∨ ρ i = k.member o) ∧ Suits ρ (m.heap.cellAt i) (k.member o)) :
    Ensures (liftM (store (.ref o) k.start w) : MachineM Unit) m
      (fun _ m' => m.heap.Sets o ((m.heap.cellAt o).set k.start w) m'.heap ∧
        Orderly (ρ.bundle k o l) m' ∧
        Frame (Bundled k o) ρ m.heap (ρ.bundle k o l) m'.heap ∧ Untouched m m') E := by
  have hl := ho.layout
  rw [Machine.ensures_onHeap]
  refine Heap.ensures_store ho.sound ?_
  intro i' h' hv hlt hset hfade hsound
  cases hv
  have hstart : k.start ≠ .t := by cases k <;> decide
  have ht : (m.heap.cellAt o).t ≠ .freeT := by
    intro hf
    rw [hl.isFree_iff (Bundle.ne_outside_of_owner hown)] at hf
    obtain hf | hf := hf <;> rw [hf] at hown <;> cases k <;> cases hown
  have ht' : ((m.heap.cellAt o).set k.start w).t ≠ .freeT := by
    rwa [show ((m.heap.cellAt o).set k.start w).t = (m.heap.cellAt o).t from
      Cell.get_set_ne _ _ hstart.symm]
  have hne : ∀ i, ρ i = .held ∨ ρ i = k.member o → i ≠ o := by
    rintro i hi rfl
    obtain hi | hi := hi
    · exact Bundle.ne_held_of_owner hown hi
    · exact Bundle.ne_member_of_owner hown hi
  have hframe := frame_bundle (l := l) hset hfade (.inl rfl) fun i hi => (hnew i hi).1
  obtain ⟨hsound, hrespect⟩ := hsound ht ht'
  have hshuns := ho.shuns_bundle hrespect hchain fun i hi => (hnew i hi).1
  refine ⟨hset, ho.onHeap hframe.grows ?_ (hshuns l fun i hi => (hnew i hi).1) hfade, hframe,
    .onHeap ..⟩
  refine hl.rebundle hsound ⟨hset.permanent, hset.top, hown, ?_, ?_, ?_, ?_, ?_⟩
  · intro i hio _ _
    exact hset.ne hio
  · intro f hf
    rw [hset.self, Cell.get_set_ne _ _ hf]
  · rw [hset.self, Cell.get_set_self]
    refine hchain.congr fun i hi => ?_
    rw [hset.ne (hne i (hnew i hi).1)]
  · intro i hi
    rw [hset.ne (hne i (hnew i hi).1)]
    exact hnew i hi
  · intro i hi _
    rw [hset.ne (hne i hi)]
    have hs := (hl.fits i).2
    obtain hi | hi := hi <;> rw [hi] at hs
    · exact hs
    · exact hs.held_of_member

theorem ensures_relink {j : Nat} {l₁ l₂ l₃ : List Nat} (ho : Orderly ρ m)
    (hown : k.owner (ρ o) = true)
    (hold : m.heap.Chain k.link ((m.heap.cellAt o).get k.start) (l₁ ++ j :: l₂))
    (hmem : ∀ i, i ∈ l₁ ++ j :: l₂ ↔ ρ i = k.member o) (hchain : m.heap.Chain k.link w l₃)
    (hnew : ∀ i ∈ l₃, (ρ i = .held ∨ ρ i = k.member o) ∧ Suits ρ (m.heap.cellAt i) (k.member o))
    (hj : j ∉ l₃) :
    Ensures (liftM (store (.ref j) k.link w) : MachineM Unit) m
      (fun _ m' => m.heap.Sets j ((m.heap.cellAt j).set k.link w) m'.heap ∧
        Orderly (ρ.bundle k o (l₁ ++ j :: l₃)) m' ∧
        Frame (Bundled k o) ρ m.heap (ρ.bundle k o (l₁ ++ j :: l₃)) m'.heap ∧
        Untouched m m') E := by
  have hl := ho.layout
  rw [Machine.ensures_onHeap]
  refine Heap.ensures_store ho.sound ?_
  intro i' h' hv hlt hset hfade hsound
  cases hv
  have hlink : k.link ≠ .t := by cases k <;> decide
  have hjm : ρ j = k.member o := (hmem j).1 (by simp)
  have hjs : Suits ρ (m.heap.cellAt j) (k.member o) := hjm ▸ (hl.fits j).2
  have hjs' : Suits ρ ((m.heap.cellAt j).set k.link w) (k.member o) :=
    hjs.link fun f hf => Cell.get_set_ne _ _ hf
  have hjo : j ≠ o := by
    rintro rfl
    exact Bundle.ne_member_of_owner hown hjm
  have hjl : j ∉ l₁ := by
    have := hold.nodup
    simp only [List.nodup_append] at this
    exact fun hjl => this.2.2 j hjl j List.mem_cons_self rfl
  have hrole : ∀ i ∈ l₁ ++ j :: l₃, ρ i = .held ∨ ρ i = k.member o := by
    intro i hi
    simp only [List.mem_append, List.mem_cons] at hi
    obtain hi | rfl | hi := hi
    · exact .inr ((hmem i).1 (by simp [hi]))
    · exact .inr hjm
    · exact (hnew i hi).1
  have hframe := frame_bundle hset hfade (.inr (.inr hjm)) hrole
  obtain ⟨hsound, hrespect⟩ := hsound hjs.held_of_member.1 hjs'.held_of_member.1
  have hshuns := ho.shuns_bundle hrespect hchain fun i hi => (hnew i hi).1
  refine ⟨hset, ho.onHeap hframe.grows ?_ (hshuns _ hrole) hfade, hframe, .onHeap ..⟩
  refine hl.rebundle hsound ⟨hset.permanent, hset.top, hown, ?_, ?_, ?_, ?_, ?_⟩
  · intro i _ _ him
    exact hset.ne (by rintro rfl; exact him hjm)
  · intro f _
    rw [hset.ne hjo.symm]
  · rw [hset.ne hjo.symm]
    refine hold.splice ?_ ?_
    · intro i hi
      rw [hset.ne (by rintro rfl; exact hjl hi)]
    · rw [hset.self, Cell.get_set_self]
      refine hchain.congr fun i hi => ?_
      rw [hset.ne (by rintro rfl; exact hj hi)]
  · intro i hi
    refine ⟨hrole i hi, ?_⟩
    by_cases hij : i = j
    · rw [hij, hset.self]
      exact hjs'
    · rw [hset.ne hij]
      simp only [List.mem_append, List.mem_cons, hij, false_or] at hi
      obtain hi | hi := hi
      · have := (hl.fits i).2
        rwa [(hmem i).1 (by simp [hi])] at this
      · exact (hnew i hi).2
  · intro i hi hil
    rw [hset.ne (by rintro rfl; simp at hil)]
    have hs := (hl.fits i).2
    obtain hi | hi := hi <;> rw [hi] at hs
    · exact hs
    · exact hs.held_of_member

end Orderly

namespace Open

variable {t e a : Nat} {held : List Nat} {E : Machine → Prop}

variable (ho : Open t e a held ρ m)

include ho

theorem roles : ρ e = .handled t a ∧ ρ a = .busy t :=
  ho.orderly.layout.coherent.thread t e a ho.role

theorem ensures_alloc {r : Role} {c : Cell} (hr : r = .held ∨ r = .data ∨ r = .idle)
    (ht : c.t ≠ .freeT) (hc : ∀ i, ρ i = .free ∨ ρ i = .outside → Suits (ρ.set i r) c r)
    (hw : ∀ w ∈ c.words, w.Avoids ρ.condemned) :
    Ensures (liftM (alloc c) : MachineM Word) m
      (fun w m' => ∃ i, w = .ref i ∧ (ρ i = .free ∨ ρ i = .outside) ∧
        m.heap.Takes i c m'.heap ∧ Within t ρ m (ρ.set i r) m' ∧
        ∀ held', (∀ j, j = i ∧ r = .held ∨ j ∈ held → j ∈ held') →
          Open t e a held' (ρ.set i r) m') E := by
  refine (ho.orderly.ensures_alloc hr ht hc hw).imp ?_
  rintro w m' ⟨i, rfl, hi, htake, ho', hframe, hu⟩
  refine ⟨i, rfl, hi, htake, ⟨hframe.one ?_ ?_, hu⟩, ?_⟩
  · exact .spare (by obtain hi | hi := hi <;> rw [hi] <;> rfl)
  · rw [Roles.set_self]
    obtain rfl | rfl | rfl := hr
    · exact .inl (.spare rfl)
    · exact .inr rfl
    · exact .inr rfl
  · intro held' hheld
    refine ⟨ho', hu.threads ▸ ho.head, ?_, ?_⟩
    · rw [Roles.set_ne, ho.role]
      rintro rfl
      simp [ho.role] at hi
    · intro j hj
      by_cases hji : j = i
      · subst hji
        rw [Roles.set_self] at hj
        refine hheld j (.inl ⟨rfl, ?_⟩)
        obtain rfl | rfl | rfl := hr
        · rfl
        · cases hj
        · cases hj
      · rw [Roles.set_ne _ _ hji] at hj
        exact hheld j (.inr (ho.brief j hj))

theorem ensures_free (held' : List Nat) {i : Nat} (hi : ρ i = .held)
    (hheld : ∀ j ∈ held, j = i ∨ j ∈ held') :
    Ensures (liftM (free (.ref i)) : MachineM Unit) m
      (fun _ m' => Frame (fun j _ => j = i) ρ m.heap (ρ.set i .free) m'.heap ∧
        Open t e a held' (ρ.set i .free) m' ∧ Within t ρ m (ρ.set i .free) m') E := by
  refine (ho.orderly.ensures_free (v := .ref i) (by rw [Word.index, hi]; rfl)
    (by rw [Word.index, hi]; simp) (by rw [Word.index, hi]; simp)).imp ?_
  rintro - m' ⟨ho', hframe, hu⟩
  refine ⟨hframe, ⟨ho', hu.threads ▸ ho.head, ?_, ?_⟩, ⟨hframe.one ?_ (.inl ?_), hu⟩⟩
  · rw [Roles.set_ne, ho.role]
    rintro rfl
    rw [ho.role] at hi
    cases hi
  · intro j hj
    by_cases hji : j = i
    · subst hji
      rw [Roles.set_self] at hj
      cases hj
    · rw [Roles.set_ne _ _ hji] at hj
      exact (hheld j (ho.brief j hj)).resolve_left hji
  · exact .spare (by rw [Word.index, hi]; rfl)
  · exact .spare (by rw [Word.index, Roles.set_self]; rfl)

theorem ensures_store {i : Nat} (hr : ρ i = .data ∨ ρ i = .held)
    (hc : Suits ρ ((m.heap.cellAt i).set f w) (ρ i)) (hw : w.Avoids ρ.condemned) :
    Ensures (liftM (store (.ref i) f w) : MachineM Unit) m
      (fun _ m' => m.heap.Sets i ((m.heap.cellAt i).set f w) m'.heap ∧ Open t e a held ρ m' ∧
        Confined (fun j _ => j = i) ρ m ρ m') E := by
  have hu : ∀ c, Suits ρ c (ρ i) → c.t ≠ .freeT := by
    intro c hs
    obtain hr | hr := hr <;> rw [hr] at hs <;> exact hs.1
  refine (ho.orderly.ensures_store ?_ ?_ (hu _ (ho.orderly.layout.fits i).2) hc (hu _ hc) hw).imp ?_
  · obtain hr | hr := hr <;> rw [hr] <;> rfl
  · obtain hr | hr := hr <;> rw [hr] <;> simp
  · rintro - m' ⟨hset, ho', hframe, hu⟩
    exact ⟨hset, ⟨ho', hu.threads ▸ ho.head, ho.role, ho.brief⟩, hframe, hu⟩

theorem bundle {held' : List Nat} (ho' : Orderly (ρ.bundle k o l) m') (hu : Untouched m m')
    (hl : ∀ i ∈ l, ρ i = .held ∨ ρ i = k.member o)
    (hheld : ∀ i, i ∉ l → ρ i = k.member o ∨ i ∈ held → i ∈ held') :
    Open t e a held' (ρ.bundle k o l) m' := by
  have hiff := fun i r => Roles.bundle_eq_iff (i := i) (r := r) hl
  refine ⟨ho', hu.threads ▸ ho.head,
    (hiff t _ (by simp) (by cases k <;> simp [Bundle.member])).2 ho.role, ?_⟩
  intro i hi
  refine hheld i ?_ ?_
  · intro hil
    rw [Roles.bundle_member.1 hil] at hi
    cases k <;> cases hi
  · by_cases hil : i ∈ l
    · rw [Roles.bundle_member.1 hil] at hi
      cases k <;> cases hi
    · unfold Roles.bundle at hi
      rw [if_neg hil] at hi
      split at hi
      · next hm => exact .inl hm
      · exact .inr (ho.brief i hi)

end Open

end ActorMachine
