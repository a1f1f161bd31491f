import ActorMachine.Proofs.Authority
import ActorMachine.Proofs.Collection
/-! Mishaps: a reference that leads nowhere, a cell that is freed twice, a behaviour that is not
code. Main statement: a round of a machine that is in order ends in none of those that are looked
at, if the symbol table lists cells only and the actors that are idle have code for a behaviour. -/

namespace ActorMachine

open Heap

open Machine

variable {σ α β : Type} {ρ ρ' : Roles} {h h' : Heap} {m m' : Machine} {t e a : Nat} {v w : Word}
  {f : Field}
variable {g : Heap → Except Fault α} {k : α → EStateM Fault σ β} {c : Cell} {vs : List Word}
  {R : α → Prop}

def Fault.isMishap : Fault → Bool
  | invalidRef _ | doubleFree _ => true
  | assertion what => what = "actor behavior is not code"
  | _ => false

def Harmless (r : Except Fault α) : Prop := ∀ f, r = .error f → f.isMishap = false

namespace Harmless

variable {r : Except Fault α}

theorem ok {a : α} : Harmless (.ok a) := fun _ h => by cases h

theorem error {f : Fault} (hf : f.isMishap = false) : Harmless (.error f : Except Fault α) := by
  rintro _ ⟨⟩
  exact hf

theorem bind {k : α → Except Fault β} (hr : Harmless r) (hk : ∀ a, r = .ok a → Harmless (k a)) :
    Harmless (r >>= k) := by
  cases r with
  | ok a => exact hk a rfl
  | error f => exact .error (hr f rfl)

theorem map {g : α → β} (hr : Harmless r) : Harmless (g <$> r) := by
  cases r with
  | ok a => exact .ok
  | error f => exact .error (hr f rfl)

end Harmless

def Averts (F : Fault → Prop) (act : EStateM Fault σ α) (s : σ) : Prop :=
  ∀ f s', act s = .error f s' → f.isMishap = true → ¬ F f

namespace Averts

variable {F : Fault → Prop} {act other : EStateM Fault σ α} {s : σ}

theorem pure {a : α} : Averts F (pure a : EStateM Fault σ α) s := fun _ _ h => by cases h

theorem throw {f : Fault} (hf : f.isMishap = false) : Averts F (throw f : EStateM Fault σ α) s := by
  intro _ _ h hm
  cases h
  rw [hf] at hm
  cases hm

theorem bind (ha : Averts F act s) (hk : ∀ a s', act s = .ok a s' → Averts F (k a) s') :
    Averts F (act >>= k) s := by
  intro f s' h
  change EStateM.bind act k s = _ at h
  unfold EStateM.bind at h
  cases hr : act s with
  | ok a s₁ =>
    rw [hr] at h
    exact hk a s₁ hr f s' h
  | error g s₁ =>
    rw [hr] at h
    cases h
    exact ha _ _ hr

theorem step {a : α} {s' : σ} (hr : act s = .ok a s') (hk : Averts F (k a) s') :
    Averts F (act >>= k) s := by
  unfold Averts
  rw [run_bind hr]
  exact hk

theorem throw_bind {f : Fault} {k : β → EStateM Fault σ α} (hf : f.isMishap = false) :
    Averts F (MonadExcept.throw f >>= k) s := (throw hf).bind fun _ _ h => by cases h

theorem bind_ensures {Q : α → σ → Prop} {E : σ → Prop} (ha : Averts F act s)
    (he : Ensures act s Q E) (hk : ∀ a s', Q a s' → Averts F (k a) s') : Averts F (act >>= k) s :=
  ha.bind fun a s' hr => hk a s' (he.ok hr)

theorem ite {c : Prop} [Decidable c] (h₁ : c → Averts F act s) (h₂ : ¬ c → Averts F other s) :
    Averts F (if c then act else other) s := by
  split
  · next h => exact h₁ h
  · next h => exact h₂ h

theorem modify {g : σ → σ} : Averts F (modify g : EStateM Fault σ Unit) s := fun _ _ h => by cases h

end Averts

theorem Averts.bind_runs {F : Fault → Prop} {act : MachineM α} {P : Roles → Machine → α → Prop}
    {k : α → MachineM β} (ha : Averts F act m) (hr : Runs t e a ρ m act P)
    (hk : ∀ r ρ' m', Open t e a [] ρ' m' → P ρ' m' r → Averts F (k r) m') :
    Averts F (act >>= k) m :=
  ha.bind_ensures hr fun r m' ⟨ρ', ho, _, hp⟩ => hk r ρ' m' ho hp

/-- The action keeps the invariant, and averts mishaps where the invariant holds. -/
structure Reliable (I : σ → Prop) (F : Fault → Prop) (act : EStateM Fault σ α) : Prop where
  upholds : Upholds I act fun _ => True
  averts : ∀ {s}, I s → Averts F act s

namespace Reliable

variable {I : σ → Prop} {F : Fault → Prop} {act other : EStateM Fault σ α}

theorem pure {a : α} : Reliable I F (pure a : EStateM Fault σ α) := ⟨.pure trivial, fun _ => .pure⟩

theorem throw_bind {f : Fault} {k : β → EStateM Fault σ α} (hf : f.isMishap = false) :
    Reliable I F (MonadExcept.throw f >>= k) := ⟨.throw_bind, fun _ => .throw_bind hf⟩

theorem modify {g : σ → σ} (hg : ∀ s, I s → I (g s)) :
    Reliable I F (modify g : EStateM Fault σ Unit) :=
  ⟨.modify hg, fun _ => .modify⟩

theorem bind (ha : Reliable I F act) (hk : ∀ a, Reliable I F (k a)) : Reliable I F (act >>= k) :=
  ⟨ha.upholds.bind fun a _ => (hk a).upholds, fun {s} hs => (ha.averts hs).bind fun a _ hr =>
    (hk a).averts ((ha.upholds s hs).ok hr).1⟩

theorem ite {c : Prop} [Decidable c] (h₁ : Reliable I F act) (h₂ : Reliable I F other) :
    Reliable I F (if c then act else other) := by
  split
  · exact h₁
  · exact h₂

theorem foldrM {γ : Type} {g : γ → α → EStateM Fault σ α} {xs : List γ} {a : α}
    (hg : ∀ x a, Reliable I F (g x a)) : Reliable I F (xs.foldrM g a) := by
  induction xs with
  | nil => exact pure
  | cons x xs ih =>
    rw [List.foldrM_cons]
    exact ih.bind (hg x)

theorem forM {γ : Type} {g : γ → EStateM Fault σ Unit} {xs : List γ}
    (hg : ∀ x, Reliable I F (g x)) :
    Reliable I F (xs.forM g) := by
  induction xs with
  | nil => exact pure
  | cons x xs ih =>
    rw [List.forM_eq_forM, List.forM_cons]
    exact (hg x).bind fun _ => ih

end Reliable

variable {F : Fault → Prop}

namespace Heap

theorem isCell_of_hasType (hv : h.hasType w v = true) : h.isCell v = true := by
  unfold hasType at hv
  exact (Bool.and_eq_true_iff.1 hv).1

theorem averts_query (hg : ∀ f, g h = .error f → f.isMishap = true → ¬ F f) :
    Averts F (query g) h := by
  intro f h' hr
  unfold query at hr
  cases hgh : g h with
  | ok a =>
    rw [hgh] at hr
    cases hr
  | error f' =>
    rw [hgh] at hr
    cases hr
    exact hg f hgh

theorem averts_fetch (hv : h.isCell v = true) : Averts F (fetch v f) h := by
  refine averts_query fun f' hr => ?_
  unfold field cell at hr
  rw [if_pos hv] at hr
  cases hr

theorem averts_store (hv : h.isCell v = true) : Averts F (store v f w) h := by
  intro f' h' hr
  unfold store at hr
  rw [if_pos hv] at hr
  cases hr

theorem averts_alloc : Averts F (alloc c) h := by
  intro f h' hr hm
  obtain ⟨-, -, rfl, -⟩ := alloc_error hr
  cases hm

structure Freeable (i : Nat) (h : Heap) : Prop where
  permanent : h.permanent ≤ i
  top : i < h.top
  inUse : (h.cellAt i).t ≠ .freeT

theorem averts_free {i : Nat} (hi : h.Freeable i) : Averts F (free (.ref i)) h := by
  intro f' h' hr
  unfold free at hr
  have hr₁ := not_or.2 ⟨Nat.not_lt.2 hi.permanent, Nat.not_le.2 hi.top⟩
  rw [Word.index, if_neg hr₁, if_neg hi.inUse] at hr
  cases hr

def Extant (t : Nat) (h : Heap) : Prop := t < h.top

theorem extant_alloc : Upholds (Extant t) (alloc c) fun _ => True := by
  refine fun h ht => .intro (fun w h' hr => ?_) fun f h' hr => ?_
  · unfold alloc at hr
    split at hr
    · cases hr
      rw [Extant, top_shade]
      exact ⟨ht, trivial⟩
    · split at hr
      · cases hr
        rw [Extant, top_shade]
        exact ⟨Nat.lt_succ_of_lt ht, trivial⟩
      · cases hr
  · rw [(alloc_error hr).2.2.2]
    exact ht

theorem extant_store : Upholds (Extant t) (store v f w) fun _ => True := by
  refine fun h ht => .intro (fun u h' hr => ?_) fun g h' hr => ?_
  all_goals
    unfold store at hr
    split at hr <;> cases hr
  · rw [Extant, top_shade]
    exact ⟨ht, trivial⟩
  · exact ht

theorem reliable_alloc : Reliable (Extant t) F (alloc c) := ⟨extant_alloc, fun _ => averts_alloc⟩

theorem reliable_store : Reliable (Extant t) F (store (.ref t) f w) :=
  ⟨extant_store, fun ht => averts_store (isCell_iff.2 ⟨t, rfl, ht⟩)⟩

theorem reliable_fetch : Reliable (Extant t) F (fetch (.ref t) f) :=
  ⟨.query, fun ht => averts_fetch (isCell_iff.2 ⟨t, rfl, ht⟩)⟩

theorem reliable_prepend : Reliable (Extant t) F (prepend vs v) :=
  .foldrM fun _ _ => reliable_alloc

theorem averts_prepend : Averts F (prepend vs v) h := by
  refine Reliable.averts (I := fun _ => True) (.foldrM fun _ _ =>
    ⟨fun _ _ => ?_, fun _ => averts_alloc⟩) trivial
  exact .intro (fun _ _ _ => ⟨trivial, trivial⟩) fun _ _ _ => trivial

theorem reliable_setCdr : Reliable (Extant t) F (setCdr v w) := by
  refine ⟨Upholds.get.bind fun h _ => ?_, fun _ =>
    Averts.bind (fun _ _ h => by cases h) fun h₁ h₂ hr => ?_⟩
  · exact .ite (fun _ => extant_store.bind fun _ _ => .pure trivial) fun _ => .pure trivial
  · cases hr
    refine .ite (fun hp => ?_) fun _ => .pure
    exact (averts_store (isCell_of_hasType hp)).bind fun _ _ _ => .pure

theorem averts_freeSpine : Averts F (freeSpine v) h := by
  have hgo : ∀ b v h, Averts F (freeSpine.go b v) h := by
    rintro ⟨n, task⟩
    induction n with
    | zero =>
      intro v h
      unfold freeSpine.go
      refine Averts.bind (fun _ _ h => by cases h) fun h₁ h₂ hr => ?_
      exact .ite (fun _ => .throw rfl) fun _ => .pure
    | succ n ih =>
      intro v h
      unfold freeSpine.go
      refine Averts.bind (fun _ _ h => by cases h) fun h₁ h₂ hr => ?_
      cases hr
      refine .ite (fun hc => ?_) fun _ => .pure
      simp only [Bool.and_eq_true, decide_eq_true_eq] at hc
      obtain ⟨hpair, hp⟩ := hc
      obtain ⟨i, rfl, hi, ht⟩ := isPair_iff.1 hpair
      refine (averts_free ⟨hp, hi, ?_⟩).bind fun _ _ _ => ih _ _
      exact ht.trans_ne (by decide)
  unfold freeSpine
  exact Averts.bind (fun _ _ h => by cases h) fun h₁ h₂ _ => hgo _ _ _

section Harmless

variable {op : String} {b : Budget}

theorem harmless_spend {e : Fault} (hb : b.spend = .error e) :
    Harmless (.error e : Except Fault α) := by
  rw [(Budget.exhausted hb).2]
  exact .error rfl

theorem harmless_spine : Harmless (h.spine b v) := by
  fun_induction spine h b v with
  | case1 b v hp e hb => exact harmless_spend hb
  | case2 b v hp b' hb ih => exact ih.map
  | case3 => exact .ok

theorem harmless_listLength : Harmless (h.listLength v) := harmless_spine.map

theorem harmless_items : Harmless (h.items v) := harmless_spine.map

theorem harmless_splitItems {n : Nat} : Harmless (h.splitItems n v) := by
  fun_induction splitItems h n v with
  | case1 => exact .ok
  | case2 n v hp ih => exact ih.bind fun _ _ => .ok
  | case3 => exact .error rfl

theorem harmless_parseFixnum : Harmless (h.parseFixnum v) := by
  have hgo : ∀ b n v, Harmless (parseFixnum.go h b n v) := by
    intro b n v
    fun_induction parseFixnum.go h b n v with
    | case1 b n v hp e hb => exact harmless_spend hb
    | case2 b n v hp b' hb n' hr ih => exact ih
    | case3 => exact .ok
    | case4 => exact .ok
  exact hgo _ _ _

theorem harmless_equalAll {work : List (Word × Word)} : Harmless (h.equalAll b work) := by
  fun_induction equalAll h b work with
  | case1 => exact .ok
  | case2 b y rest ih => exact ih
  | case3 b x y rest hne hp e hb => exact harmless_spend hb
  | case4 b x y rest hne hp b' hb ih => exact ih
  | case5 => exact .ok

theorem harmless_field (hv : h.isCell v = true) : Harmless (h.field v f) := by
  unfold field cell
  rw [if_pos hv]
  exact .ok

theorem harmless_atomText : Harmless (h.atomText v) := by
  unfold atomText
  split
  · exact .ok
  · exact .ok
  · split
    · exact .ok
    · split
      · next hs =>
        exact (harmless_field (isCell_of_hasType hs)).bind fun _ _ => harmless_spine.map
      · exact .ok

theorem harmless_render : Harmless (h.render v) := by
  have hall : ∀ b out work, Harmless (h.renderAll b out work) := by
    intro b out work
    fun_induction renderAll h b out work with
    | case1 => exact .ok
    | case2 b out rest ih => exact ih
    | case3 b out p rest hp ih => exact ih
    | case4 b out rest hp ih => exact ih
    | case5 b out p rest hp hn ih => exact ih
    | case6 b out p rest e hb => exact harmless_spend hb
    | case7 b out p rest b' hb ih => exact ih
    | case8 b out v rest e hb => exact harmless_spend hb
    | case9 b out v rest b' hb hl ih => exact ih
    | case10 b out v rest b' hb hl ih => exact harmless_atomText.bind fun text _ => ih text
  exact hall _ _ _

theorem harmless_readCount : Harmless (Instruction.readCount op v) := by
  unfold Instruction.readCount
  split
  · exact .ok
  · exact .error rfl

theorem harmless_select [Selector α] : Harmless (Selector.read op v : Except Fault α) := by
  unfold Selector.read
  split
  · exact .ok
  · exact .error rfl

theorem harmless_instruction : Harmless (h.instruction v) := by
  unfold instruction
  split
  · refine Harmless.map ?_
    unfold Instruction.ofCell
    split
    · next code _ => cases code <;>
        first | exact .ok | exact harmless_readCount.map | exact harmless_select.map
    · exact .error rfl
  · exact .error rfl

end Harmless

end Heap

namespace Machine

theorem averts_lift {act : HeapM α} (ha : Averts F act m.heap) :
    Averts F (liftM act : MachineM α) m := by
  intro f m' hr
  obtain ⟨h, hact, -⟩ := lift_eq_error.1 hr
  exact ha f h hact

theorem averts_look_bind {g : Heap → α} {k : α → MachineM β} (hk : Averts F (k (g m.heap)) m) :
    Averts F (look g >>= k) m := fun f m' hr => hk f m' hr

theorem averts_note (n : Notice) : Averts F (note n) m := .modify

theorem averts_note_bind {n : Notice} {k : Unit → MachineM β}
    (hk : ∀ m', Quiet m m' → Averts F (k ()) m') :
    Averts F (note n >>= k) m := (averts_note n).bind_ensures (Silent.note n m)
      fun _ m' hq => hk m' hq

theorem averts_count (g : Stats → Stats) : Averts F (count g) m := .modify

theorem averts_noteDispatch (n : Notice) : Averts F (noteDispatch n) m := by
  refine Averts.bind (fun _ _ h => by cases h) fun m₁ m₂ _ => ?_
  exact .ite (fun _ => averts_note n) fun _ => .pure

theorem averts_ask (hg : Harmless (g m.heap)) : Averts F (ask g) m :=
  averts_lift (averts_query fun f hr hm => by rw [hg f hr] at hm; cases hm)

def Seated (t : Nat) (m : Machine) : Prop := m.threads.head = .ref t ∧ t < m.heap.top

theorem Seated.isCell (hs : m.Seated t) : m.heap.isCell m.threads.head = true := by
  rw [hs.1]
  simpa [Heap.isCell] using hs.2

theorem averts_thread_bind {k : Word → MachineM β} (hk : Averts F (k m.threads.head) m) :
    Averts F (thread >>= k) m := fun f m' hr => hk f m' hr

theorem seated_lift {act : HeapM α} (ha : Upholds (Extant t) act R) :
    Upholds (Seated t) (liftM act : MachineM α) R := by
  rintro m ⟨hh, ht⟩
  exact (ha m.heap ht).lift fun _ ht => ⟨hh, ht⟩

theorem reliable_lift {act : HeapM α} (ha : Reliable (Extant t) F act) :
    Reliable (Seated t) F (liftM act : MachineM α) :=
  ⟨seated_lift ha.upholds, fun hs => averts_lift (ha.averts hs.2)⟩

theorem reliable_look {g : Heap → α} : Reliable (Seated t) F (look g) :=
  ⟨fun _ hs => ⟨hs, trivial⟩, fun _ _ _ h => by cases h⟩

theorem reliable_ask (hg : ∀ h, Harmless (g h)) : Reliable (Seated t) F (ask g) :=
  reliable_lift ⟨.query, fun _ => averts_query fun f hr hm => by rw [hg _ f hr] at hm; cases hm⟩

theorem reliable_thread_bind {k : Word → MachineM β} (hk : Reliable (Seated t) F (k (.ref t))) :
    Reliable (Seated t) F (thread >>= k) := by
  have hr : ∀ {m}, m.Seated t → (thread >>= k) m = k (.ref t) m := fun hs => hs.1 ▸ rfl
  refine ⟨fun m hs => ?_, fun hs => ?_⟩
  · unfold Leaves
    rw [hr hs]
    exact hk.upholds m hs
  · unfold Averts
    rw [hr hs]
    exact hk.averts hs

theorem reliable_stack : Reliable (Seated t) F stack :=
  reliable_thread_bind (reliable_lift reliable_fetch)

theorem reliable_setStack : Reliable (Seated t) F (setStack v) :=
  reliable_thread_bind (reliable_lift reliable_store)

theorem reliable_push : Reliable (Seated t) F (push v) :=
  reliable_stack.bind fun _ => (reliable_lift reliable_alloc).bind fun _ => reliable_setStack

theorem reliable_pushAll : Reliable (Seated t) F (pushAll vs) := .forM fun _ => reliable_push

theorem reliable_depth : Reliable (Seated t) F depth :=
  reliable_stack.bind fun _ => reliable_ask fun _ => harmless_listLength

theorem reliable_stackCount (op : String) (n : Int) : Reliable (Seated t) F (stackCount op n) :=
  .ite (.throw_bind rfl) (reliable_depth.bind fun _ => .ite (.throw_bind rfl) .pure)

theorem reliable_setCdr : Reliable (Seated t) F (setCdr v w) :=
  (reliable_lift Heap.reliable_setCdr).bind fun _ => .modify fun _ hs => hs

theorem reliable_carve (op : String) (n : Int) : Reliable (Seated t) F (carve op n) := by
  refine .ite (.throw_bind rfl) (.ite .pure ?_)
  refine reliable_depth.bind fun d => .ite (.throw_bind rfl) ?_
  refine reliable_stack.bind fun top => reliable_look.bind fun last =>
    reliable_look.bind fun rest => ?_
  exact reliable_setStack.bind fun _ => reliable_setCdr.bind fun _ => .pure

theorem reliable_pick (n : Int) : Reliable (Seated t) F (pick n) :=
  .ite (reliable_stack.bind fun _ => reliable_look.bind fun _ => reliable_push) reliable_push

theorem reliable_dup (n : Int) : Reliable (Seated t) F (dup n) := by
  refine reliable_depth.bind fun d => .ite (.throw_bind rfl) ?_
  exact reliable_stack.bind fun sp => reliable_look.bind fun vs => reliable_pushAll

end Machine

def Role.isPassing : Role → Bool
  | held | queued | thread .. | spent | operand _ | handled .. | staged _ | pending _ => true
  | _ => false

theorem Layout.freeable {events threads : Queue} {i : Nat} (hl : Layout ρ h events threads)
    (hi : (ρ i).isPassing = true) : h.Freeable i := by
  have hu : (ρ i).inUse = true := by
    cases hρ : ρ i <;> rw [hρ] at hi <;> first | rfl | cases hi
  obtain ⟨-, htop, hfree⟩ := hl.inUse hu
  refine ⟨?_, htop, hfree⟩
  have hp := (hl.fits i).1
  cases hρ : ρ i <;> rw [hρ] at hi hp <;> first | exact hp.1 | cases hi

namespace Machine

theorem fetch_eq {i : Nat} (hi : i < m.heap.top) :
    (liftM (fetch (.ref i) f) : MachineM Word) m = .ok ((m.heap.cellAt i).get f) m := by
  exact lift_eq_ok.2 ⟨m.heap, query_ok (field_ref hi f), rfl⟩

end Machine

/-- No cell came to the heap, and those that are looked at have kept their types. -/
structure Heap.Intact (h₀ : Heap) (D : Nat → Prop) (h : Heap) : Prop where
  top : h.top = h₀.top
  permanent : h.permanent = h₀.permanent
  capacity : h.capacity = h₀.capacity
  types : ∀ i, D i → (h.cellAt i).t = (h₀.cellAt i).t

namespace Heap

variable {h₀ : Heap} {D : Nat → Prop}

theorem Intact.refl : h.Intact D h := ⟨rfl, rfl, rfl, fun _ _ => rfl⟩

theorem Intact.freeable {i : Nat} (hi : h₀.Intact D h) (hD : D i) (hf : h₀.Freeable i) :
    h.Freeable i :=
  ⟨hi.permanent ▸ hf.permanent, hi.top ▸ hf.top, hi.types i hD ▸ hf.inUse⟩

theorem Intact.isCell (hi : h₀.Intact D h) : h.isCell v = h₀.isCell v := by
  unfold Heap.isCell
  rw [hi.top]

theorem intact_store (ht : h₀.top ≤ h₀.capacity) (hf : f ≠ .t) :
    Upholds (h₀.Intact D) (store v f w) fun _ => True := by
  refine fun h hi => .intro (fun u h' hr => ⟨?_, trivial⟩) fun g h' hr => ?_
  · obtain ⟨j, -, -, hset⟩ := store_ok (by rw [hi.top, hi.capacity]; exact ht) hr
    refine ⟨hset.top.trans hi.top, hset.permanent.trans hi.permanent,
      hset.capacity.trans hi.capacity, fun i hD => ?_⟩
    rw [← hi.types i hD, hset.cellAt]
    split
    · next hij => exact hij ▸ Cell.get_set_ne (h.cellAt j) w (Ne.symm hf)
    · rfl
  · unfold store at hr
    split at hr <;> cases hr
    exact hi

theorem intact_free (ht : h₀.top ≤ h₀.capacity) (hv : ¬ D v.index) :
    Upholds (h₀.Intact D) (free v) fun _ => True := by
  refine fun h hi => .intro (fun u h' hr => ⟨?_, trivial⟩) fun g h' hr => ?_
  · obtain ⟨-, htop, -, rfl⟩ := free_ok hr
    have hcap : v.index < h.capacity := by
      have h₁ := hi.top
      have h₂ := hi.capacity
      omega
    refine ⟨hi.top, hi.permanent, (capacity_reclaim h _).trans hi.capacity, fun i hD => ?_⟩
    rw [cellAt_reclaim h hcap, if_neg (by rintro rfl; exact hv hD), hi.types i hD]
  · rw [free_error hr]
    exact hi

theorem intact_shade :
    Upholds (h₀.Intact D) (modify fun h => h.shade v : HeapM Unit) fun _ => True := by
  refine .modify fun h hi => ⟨?_, ?_, ?_, fun i hD => ?_⟩
  · rw [top_shade, hi.top]
  · rw [permanent_shade, hi.permanent]
  · rw [capacity_shade, hi.capacity]
  · rw [cellAt_shade, hi.types i hD]

end Heap

namespace Machine

theorem intact_of_lift {act : HeapM α} {r : α} {m' : Machine} {D : Nat → Prop}
    (ha : Upholds (m.heap.Intact D) act R) (hr : (liftM act : MachineM α) m = .ok r m') :
    m.heap.Intact D m'.heap := by
  obtain ⟨h, hh, rfl⟩ := lift_eq_ok.1 hr
  exact ((ha _ .refl).ok hh).1

end Machine

namespace Open

variable {held : List Nat}

theorem seated (ho : Open t e a held ρ m) : m.Seated t :=
  ⟨ho.head, (ho.orderly.layout.bounds (by rw [ho.role]; simp)).2⟩

theorem stack_eq (ho : Open t e a held ρ m) : stack m = .ok (m.heap.cellAt t).x m := by
  change (liftM (fetch m.threads.head .x) : MachineM Word) m = _
  rw [ho.head]
  exact fetch_eq ho.seated.2

theorem averts_pop (ho : Open t e a held ρ m) : Averts F pop m := by
  have hl := ho.orderly.layout
  refine .step ho.stack_eq (averts_look_bind (.ite (fun hp => ?_) fun _ => ?_))
  · obtain ⟨l, hpairs, hm⟩ := ho.stacked
    cases l with
    | nil =>
      have hnil : (m.heap.cellAt t).x = .nil := hpairs.1
      rw [hnil, hl.not_isPair_nil] at hp
      cases hp
    | cons i l =>
      have hi : ρ i = .operand t := (hm i).1 List.mem_cons_self
      have hfree : m.heap.Freeable i := hl.freeable (by rw [hi]; rfl)
      rw [hpairs.cdr.1]
      refine averts_look_bind (averts_look_bind ?_)
      refine (reliable_setStack.averts ho.seated).bind fun _ m' hr => ?_
      refine (averts_lift (averts_free ?_)).bind fun _ _ _ => .pure
      exact (intact_of_lift (D := (· = i)) (intact_store hl.top_le (by decide)) hr).freeable rfl
        hfree
  · refine averts_thread_bind ?_
    refine (averts_lift (averts_fetch ho.seated.isCell)).bind fun _ _ _ => ?_
    exact (averts_note _).bind fun _ _ _ => .pure

theorem averts_popN (ho : Open t e a [] ρ m) (n : Nat) : Averts F (popN n) m := by
  induction n generalizing ρ m with
  | zero => exact .pure
  | succ n ih =>
    exact ho.averts_pop.bind_runs ho.runs_pop fun v ρ' m' ho' _ => (ih ho').bind fun _ _ _ => .pure

theorem averts_popNumber (ho : Open t e a [] ρ m) (op : String) : Averts F (popNumber op) m := by
  refine ho.averts_pop.bind fun v m' _ => ?_
  split
  · exact .pure
  · exact .throw rfl

theorem averts_push (ho : Open t e a held ρ m) : Averts F (push v) m :=
  reliable_push.averts ho.seated

theorem averts_dropItems (ho : Open t e a [] ρ m) (n : Int) : Averts F (dropItems n) m := by
  refine (reliable_depth.averts ho.seated).bind_runs ho.runs_depth fun d ρ₁ m₁ ho₁ _ => ?_
  refine (ho₁.averts_popN _).bind_runs (ho₁.runs_popN _) fun vs ρ₂ m₂ ho₂ _ => ?_
  exact .ite (fun _ => ho₂.averts_pop.bind fun _ _ _ => .pure) fun _ => .pure

theorem averts_roll (ho : Open t e a [] ρ m) (n : Int) : Averts F (roll n) m := by
  refine (reliable_depth.averts ho.seated).bind_runs ho.runs_depth fun d ρ₁ m₁ ho₁ _ => ?_
  refine .ite (fun _ => .ite (fun _ => ?_) fun _ => ?_) fun _ => .pure
  · exact .ite (fun _ => ho₁.averts_push) fun _ => ho₁.averts_pop.bind fun _ _ _ => .pure
  · refine Reliable.averts (reliable_stack.bind fun sp => .ite ?_ ?_) ho₁.seated
    · refine reliable_look.bind fun before => reliable_look.bind fun moved => ?_
      refine reliable_look.bind fun rest => reliable_setCdr.bind fun _ => ?_
      exact reliable_setCdr.bind fun _ => reliable_setStack
    · refine reliable_look.bind fun after => reliable_look.bind fun rest => ?_
      refine reliable_setStack.bind fun _ => reliable_look.bind fun last => ?_
      exact reliable_setCdr.bind fun _ => reliable_setCdr

end Open

def Queue.Anchored (q : Queue) (h : Heap) : Prop :=
  q.isEmpty = false → h.isCell q.head = true ∧ h.isCell q.tail = true

theorem Queue.Holds.anchored {q : Queue} {l : List Nat} (hq : q.Holds h l)
    (hl : ∀ i ∈ l, i < h.top) :
    q.Anchored h := by
  intro hne
  cases l with
  | nil =>
    rw [hq.isEmpty_iff.2 rfl] at hne
    cases hne
  | cons i l =>
    refine ⟨isCell_iff.2 ⟨i, hq.1.1, hl i List.mem_cons_self⟩, isCell_iff.2 ?_⟩
    have hlast := List.getLast_mem (List.cons_ne_nil i l)
    exact ⟨_, by rw [hq.2, List.getLast?_eq_some_getLast (List.cons_ne_nil i l)]; rfl, hl _ hlast⟩

theorem Orderly.anchored_events (ho : Orderly ρ m) : m.events.Anchored m.heap := by
  obtain ⟨l, hq, hm⟩ := ho.layout.queue
  refine hq.anchored fun i hi => (ho.layout.bounds ?_).2
  rw [(hm i).1 hi]
  simp

theorem Orderly.anchored_threads (ho : Orderly ρ m) : m.threads.Anchored m.heap := by
  obtain ⟨l, hq, hm⟩ := ho.layout.line
  refine hq.anchored fun i hi => (ho.layout.bounds ?_).2
  intro hout
  have := (hm i).1 hi
  rw [hout] at this
  cases this

namespace Queue

variable {q : Queue}

theorem averts_put (hq : q.Anchored h) (hv : h.isCell v = true) : Averts F (q.put v) h := by
  refine (averts_store hv).bind fun _ h₁ hr => .ite (fun hne => ?_) fun _ => ?_
  · have hne : q.isEmpty = false := by simpa using hne
    obtain ⟨j, htail, hj⟩ := isCell_iff.1 (hq hne).2
    have hj₁ : h₁.Extant j := ((extant_store h hj).ok hr).1
    refine (averts_store (isCell_iff.2 ⟨j, htail, hj₁⟩)).bind fun _ _ _ => ?_
    exact Averts.modify.bind fun _ _ _ => .pure
  · exact Averts.modify.bind fun _ _ _ => .pure

theorem averts_putEvent (hq : q.Anchored h) : Averts F (q.putEvent v) h := by
  refine Averts.bind (fun _ _ h => by cases h) fun h₁ h₂ hr => ?_
  cases hr
  refine .ite (fun _ => .throw_bind rfl) fun he => ?_
  have he : h.isEvent v = true := by simpa using he
  have hv := isCell_of_hasType he
  refine (averts_fetch hv).bind fun target h₁ hr => ?_
  rw [(fetch_ok hr).1]
  refine Averts.bind (fun _ _ h => by cases h) fun h₁ h₂ hr => ?_
  cases hr
  exact .ite (fun _ => .throw_bind rfl) fun _ => averts_put hq hv

theorem averts_pop (hq : q.Anchored h) : Averts F q.pop h := by
  refine .ite (fun _ => .pure) fun hne => ?_
  have hhead := (hq (by simpa using hne)).1
  refine (averts_fetch hhead).bind fun next h₁ hr => ?_
  rw [(fetch_ok hr).1]
  exact (averts_store hhead).bind fun _ _ _ => .pure

end Queue

namespace Machine

theorem averts_putEvent (hq : m.events.Anchored m.heap) : Averts F (putEvent v) m :=
  Averts.step rfl ((averts_lift (Queue.averts_putEvent hq)).bind fun _ _ _ => .modify)

theorem averts_popEvent (hq : m.events.Anchored m.heap) : Averts F popEvent m :=
  Averts.step rfl ((averts_lift (Queue.averts_pop hq)).bind fun _ _ _ =>
    Averts.modify.bind fun _ _ _ => .pure)

theorem averts_putThread (hq : m.threads.Anchored m.heap) (hv : m.heap.isCell v = true) :
    Averts F (putThread v) m :=
  Averts.step rfl ((averts_lift (Queue.averts_put hq hv)).bind fun _ _ _ => .modify)

theorem averts_popThread (hq : m.threads.Anchored m.heap) : Averts F popThread m :=
  Averts.step rfl ((averts_lift (Queue.averts_pop hq)).bind fun _ _ _ =>
    Averts.modify.bind fun _ _ _ => .pure)

end Machine

theorem Heap.harmless_eventChain {b : Budget} : Harmless (h.eventChain b v) := by
  fun_induction eventChain h b v with
  | case1 b v he e hb => exact harmless_spend hb
  | case2 b v he b' hb ih =>
    exact (harmless_field (isCell_of_hasType he)).bind fun next _ => (ih next).bind fun _ _ => .ok
  | case3 => exact .ok

theorem Heap.Takes.same {i j : Nat} (ht : h.Takes i c h') (hj : j < h.top)
    (hu : (h.cellAt j).t ≠ .freeT) : h'.cellAt j = h.cellAt j := by
  refine ht.ne ?_
  rintro rfl
  exact hu (ht.fresh hj)

namespace Machine

theorem averts_pendingSends (ha : a < m.heap.top) : Averts F (pendingSends (.ref a)) m :=
  averts_ask ((harmless_field (isCell_iff.2 ⟨a, rfl, ha⟩)).bind fun _ _ =>
    harmless_eventChain.bind fun _ _ => .ok)

theorem event_eq (hs : m.Seated t) (hy : (m.heap.cellAt t).y = .ref e) :
    event m = .ok (.ref e) m := by
  change (liftM (fetch m.threads.head .y) : MachineM Word) m = _
  rw [hs.1, fetch_eq hs.2]
  exact congrArg (EStateM.Result.ok · m) hy

end Machine

namespace Open

variable {held : List Nat}

variable (ho : Open t e a held ρ m)

include ho

theorem link : (m.heap.cellAt t).y = .ref e := by
  have hs := (ho.orderly.layout.fits t).2
  rw [ho.role] at hs
  exact hs.2

theorem event_lt : e < m.heap.top :=
  (ho.orderly.layout.bounds (by rw [ho.roles.1]; simp)).2

theorem actor_lt : a < m.heap.top :=
  (ho.orderly.layout.bounds (by rw [ho.roles.2]; simp)).2

theorem event_eq : event m = .ok (.ref e) m :=
  Machine.event_eq ho.seated ho.link

theorem me_eq : me m = .ok (.ref a) m := by
  have he := (ho.orderly.layout.fits e).2
  rw [ho.roles.1] at he
  have ha : m.heap.isActor (.cap a) = true := by
    rw [ho.orderly.layout.isActor_cap_iff (by rw [ho.roles.2]; simp), ho.roles.2]
    rfl
  have hx : (m.heap.cellAt e).get .x = .cap a := he.2.1
  unfold me
  rw [run_bind ho.event_eq, run_bind (fetch_eq ho.event_lt), hx]
  change (if !m.heap.isActor (.cap a) then _ else _ : MachineM Word) m = _
  rw [ha]
  rfl

theorem averts_takeBecome : Averts F takeBecome m := by
  have hl := ho.orderly.layout
  refine .step ho.event_eq (.step (fetch_eq ho.event_lt) ?_)
  refine averts_look_bind (.ite (fun hp => ?_) fun _ => .pure)
  obtain ⟨l, hpairs, hm⟩ := ho.staged
  have hz : (m.heap.cellAt e).get .z = (m.heap.cellAt e).z := rfl
  rw [hz] at hp ⊢
  cases l with
  | nil =>
    have hnil : (m.heap.cellAt e).z = .nil := hpairs.1
    rw [hnil, hl.not_isPair_nil] at hp
    cases hp
  | cons i l =>
    have hi : ρ i = .staged e := (hm i).1 List.mem_cons_self
    have hfree : m.heap.Freeable i := hl.freeable (by rw [hi]; rfl)
    rw [hpairs.cdr.1]
    refine averts_look_bind (averts_look_bind ?_)
    refine (averts_lift (averts_store (isCell_iff.2 ⟨e, rfl, ho.event_lt⟩))).bind
      fun _ m' hr => ?_
    refine (averts_lift (averts_free ?_)).bind fun _ _ _ => .pure
    exact (intact_of_lift (D := (· = i)) (intact_store hl.top_le (by decide)) hr).freeable rfl hfree

theorem averts_discardBecome : Averts F discardBecome m := by
  refine ho.averts_takeBecome.bind fun r m' _ => ?_
  cases r with
  | none => exact .pure
  | some staged => exact averts_lift averts_freeSpine

theorem averts_stageBecome {beh state : Word} : Averts F (Machine.stageBecome beh state) m := by
  refine ho.averts_discardBecome.bind_ensures (ho.ensures_discardBecome (E := fun _ => True)) ?_
  rintro - m₁ ⟨ρ₁, ho₁, -⟩
  refine (averts_lift averts_alloc).bind fun w m₂ hr => ?_
  obtain ⟨h₂, hh, rfl⟩ := lift_eq_ok.1 hr
  obtain ⟨i, -, htake, -⟩ := ho₁.orderly.layout.sound.alloc hh (show Word.pairT ≠ .freeT by decide)
  have htop := htake.top_le
  have hcell : h₂.cellAt t = m₁.heap.cellAt t :=
    htake.same ho₁.seated.2 (ho₁.orderly.layout.inUse (by rw [ho₁.role]; rfl)).2.2
  have hseat : Seated t { m₁ with heap := h₂ } := ⟨ho₁.head, Nat.lt_of_lt_of_le ho₁.seated.2 htop⟩
  refine .step (Machine.event_eq hseat ((congrArg Cell.y hcell).trans ho₁.link)) ?_
  have he : h₂.isCell (.ref e) = true := isCell_iff.2 ⟨e, rfl, Nat.lt_of_lt_of_le ho₁.event_lt htop⟩
  exact averts_lift (averts_store he)

theorem averts_clearStack : Averts F clearStack m := by
  refine .step ho.stack_eq ((reliable_setStack.averts ho.seated).bind fun _ _ _ => ?_)
  exact averts_lift averts_freeSpine

theorem averts_discard_clear {k : MachineM β}
    (hk : ∀ ρ' m', Open t e a held ρ' m' → Averts F k m') :
    Averts F (do discardBecome; clearStack; k) m := by
  refine ho.averts_discardBecome.bind_ensures (ho.ensures_discardBecome (E := fun _ => True)) ?_
  rintro - m₁ ⟨ρ₁, ho₁, -⟩
  refine ho₁.averts_clearStack.bind_ensures (ho₁.ensures_clearStack (E := fun _ => True)) ?_
  rintro - m₂ ⟨ρ₂, ho₂, -⟩
  exact hk ρ₂ m₂ ho₂

end Open

/-- No cell came to the machine, those that are looked at have kept their types, and the events on
their way have cells at both ends. -/
def Machine.Intact (m₀ : Machine) (D : Nat → Prop) (m : Machine) : Prop :=
  m₀.heap.Intact D m.heap ∧ m.events.Anchored m₀.heap

section Deliver

variable {m₀ : Machine} {D : Nat → Prop} {i : Nat}

theorem Queue.intact_put {q : Queue} {h₀ : Heap} (ht : h₀.top ≤ h₀.capacity) (hq : q.Anchored h₀)
    (hv : h₀.isCell v = true) : Upholds (h₀.Intact D) (q.put v) fun q' => q'.Anchored h₀ := by
  have hanchored : (⟨if q.isEmpty then v else q.head, v⟩ : Queue).Anchored h₀ := by
    intro _
    refine ⟨?_, hv⟩
    by_cases he : q.isEmpty = true
    · simpa [he] using hv
    · simpa [he] using (hq (by simpa using he)).1
  refine (intact_store ht (by decide)).bind fun _ _ => .ite (fun _ => ?_) fun _ => ?_
  · refine (intact_store ht (by decide)).bind fun _ _ => ?_
    exact intact_shade.bind fun _ _ => .pure hanchored
  · exact intact_shade.bind fun _ _ => .pure hanchored

namespace Machine

theorem Intact.anchored (hm : m₀.Intact D m) : m.events.Anchored m.heap := by
  intro hne
  rw [hm.1.isCell, hm.1.isCell]
  exact hm.2 hne

theorem intact_lift {act : HeapM α} (ha : Upholds (m₀.heap.Intact D) act R) :
    Upholds (m₀.Intact D) (liftM act : MachineM α) R := by
  rintro m ⟨hh, hq⟩
  exact (ha m.heap hh).lift fun _ hh => ⟨hh, hq⟩

theorem intact_deliver (ht : m₀.heap.top ≤ m₀.heap.capacity) (hi : i < m₀.heap.top) (hD : ¬ D i) :
    Upholds (m₀.Intact D) (deliver (.ref i)) fun _ => True := by
  refine (intact_lift .query).bind fun target _ => ?_
  refine Upholds.bind (R := fun _ => True) (fun m hm => ⟨hm, trivial⟩) fun b _ =>
    .ite (fun _ => ?_) fun _ => ?_
  · refine Upholds.bind (R := fun _ => True) (Upholds.get.bind fun m hm => ?_) fun _ _ =>
      .pure trivial
    refine Upholds.bind (R := fun q => q.Anchored m₀.heap) (intact_lift ?_) fun q hq => ?_
    · refine Upholds.get.bind fun h _ => .ite (fun _ => .throw_bind) fun _ => ?_
      refine Upholds.query.bind fun _ _ => Upholds.get.bind fun h _ =>
        .ite (fun _ => .throw_bind) fun _ => ?_
      exact Queue.intact_put ht hm.2 (isCell_iff.2 ⟨i, rfl, hi⟩)
    · exact .modify fun m hm => ⟨hm.1, hq⟩
  · refine Upholds.bind (R := fun _ => True) (.modify fun m hm => hm) fun _ _ => ?_
    refine (intact_lift (intact_free ht hD)).bind fun _ _ => ?_
    exact Upholds.bind (R := fun _ => True) (.modify fun m hm => hm) fun _ _ => .pure trivial

theorem Intact.averts_deliver (hm : m₀.Intact D m) (hD : D i) (hi : m₀.heap.Freeable i) :
    Averts F (deliver (.ref i)) m := by
  have hcell : m.heap.isCell (.ref i) = true := isCell_iff.2 ⟨i, rfl, hm.1.top ▸ hi.top⟩
  refine (averts_lift (averts_fetch hcell)).bind fun target m₁ hr => ?_
  obtain ⟨h₁, hh, rfl⟩ := lift_eq_ok.1 hr
  rw [(fetch_ok hh).1]
  refine averts_look_bind (.ite (fun _ => ?_) fun _ => ?_)
  · exact (averts_putEvent hm.anchored).bind fun _ _ _ => .pure
  · refine averts_note_bind fun m₁ hq => ?_
    have hi₁ : m₁.heap.Freeable i := hq.heap ▸ hm.1.freeable hD hi
    refine (averts_lift (averts_free hi₁)).bind fun _ _ _ => ?_
    exact (averts_count _).bind fun _ _ _ => .pure

theorem Intact.averts_deliverAll {k : List Nat} (ht : m₀.heap.top ≤ m₀.heap.capacity) (hk : k.Nodup)
    (hf : ∀ i ∈ k, m₀.heap.Freeable i) (hm : m₀.Intact (· ∈ k) m) :
    Averts F ((k.map Word.ref).mapM deliver) m := by
  induction k generalizing m with
  | nil => exact .pure
  | cons i k ih =>
    obtain ⟨hik, hk⟩ := List.nodup_cons.1 hk
    have hi := hf i List.mem_cons_self
    rw [List.map_cons, List.mapM_cons]
    refine (hm.averts_deliver List.mem_cons_self hi).bind fun b m₁ hr => ?_
    have hm : m₀.Intact (· ∈ k) m :=
      ⟨⟨hm.1.top, hm.1.permanent, hm.1.capacity, fun j hj =>
        hm.1.types j (List.mem_cons_of_mem i hj)⟩, hm.2⟩
    have hm₁ := ((intact_deliver ht hi.top hik m hm).ok hr).1
    exact (ih hk (fun j hj => hf j (List.mem_cons_of_mem i hj)) hm₁).bind fun _ _ _ => .pure

theorem averts_freeAll {k : List Nat} {h₀ : Heap} (ht : h₀.top ≤ h₀.capacity) (hk : k.Nodup)
    (hf : ∀ i ∈ k, h₀.Freeable i) (hm : h₀.Intact (· ∈ k) m.heap) :
    Averts F ((k.map Word.ref).forM fun v => liftM (free v)) m := by
  induction k generalizing m with
  | nil => exact .pure
  | cons i k ih =>
    obtain ⟨hik, hk⟩ := List.nodup_cons.1 hk
    have hi := hm.freeable List.mem_cons_self (hf i List.mem_cons_self)
    refine (averts_lift (averts_free hi)).bind fun u m₁ hr => ?_
    obtain ⟨h₁, hh, rfl⟩ := lift_eq_ok.1 hr
    have hm : h₀.Intact (· ∈ k) m.heap :=
      ⟨hm.top, hm.permanent, hm.capacity, fun j hj => hm.types j (List.mem_cons_of_mem i hj)⟩
    exact ih hk (fun j hj => hf j (List.mem_cons_of_mem i hj)) ((intact_free ht hik _ hm).ok hh).1

end Machine

end Deliver

structure Machine.Laden (a : Nat) (l : List Nat) (m : Machine) : Prop where
  top_le : m.heap.top ≤ m.heap.capacity
  actor : a < m.heap.top ∧ (m.heap.cellAt a).t ≠ .freeT
  chain : m.heap.Chain .z (m.heap.cellAt a).z l
  sent : ∀ i ∈ l, i ≠ a ∧ m.heap.isEvent (.ref i) = true ∧ m.heap.Freeable i
  nil : m.heap.isEvent .nil = false
  anchored : m.events.Anchored m.heap

theorem Layout.not_isEvent_nil {events threads : Queue} (hl : Layout ρ h events threads) :
    h.isEvent .nil = false := by
  have h1 : (h.cellAt 1).t ≠ .eventT := by
    rw [hl.literals 1 (by decide)]
    decide
  simp [isEvent, hasType, Word.nil, Word.index, h1]

theorem Open.laden {held : List Nat} (ho : Open t e a held ρ m) : ∃ l, m.Laden a l := by
  have hl := ho.orderly.layout
  obtain ⟨l, hc, hm⟩ := ho.sends
  refine ⟨l, hl.top_le, ⟨ho.actor_lt, (hl.inUse (by rw [ho.roles.2]; rfl)).2.2⟩, hc, fun i hi => ?_,
    hl.not_isEvent_nil, ho.orderly.anchored_events⟩
  have hp := (hm i).1 hi
  have hs := (hl.fits i).2
  rw [hp] at hs
  refine ⟨?_, hasType_iff.2 ⟨i, rfl, (hl.bounds (by rw [hp]; simp)).2, hs.1⟩,
    hl.freeable (by rw [hp]; rfl)⟩
  rintro rfl
  rw [ho.roles.2] at hp
  cases hp

namespace Machine.Laden

variable {l : List Nat}

variable (hl : m.Laden a l)

include hl

theorem isCell : m.heap.isCell (.ref a) = true := isCell_iff.2 ⟨a, rfl, hl.actor.1⟩

theorem nodup : l.reverse.Nodup := List.pairwise_reverse.2 (hl.chain.nodup.imp Ne.symm)

theorem store {m' : Machine} (hf : f = .x ∨ f = .y)
    (hr : (liftM (store (.ref a) f w) : MachineM Unit) m = .ok () m') : m'.Laden a l := by
  obtain ⟨h, hh, rfl⟩ := lift_eq_ok.1 hr
  have hft : f ≠ .t ∧ f ≠ .z := by
    obtain rfl | rfl := hf <;> decide
  have hi : m.heap.Intact (fun _ => True) h := ((intact_store hl.top_le hft.1 _ .refl).ok hh).1
  obtain ⟨j, hj, -, hset⟩ := store_ok hl.top_le hh
  cases hj
  have hz : ∀ i, (h.cellAt i).z = (m.heap.cellAt i).z := by
    intro i
    rw [hset.cellAt]
    split
    · next hi => exact hi ▸ Cell.get_set_ne (m.heap.cellAt a) w hft.2.symm
    · rfl
  have hevent : ∀ v, h.isEvent v = m.heap.isEvent v := by
    intro v
    unfold isEvent hasType
    rw [hi.isCell, hi.types _ trivial]
  refine ⟨?_, ?_, ?_, fun i hil => ?_, ?_, ?_⟩
  · rw [hi.top, hi.capacity]
    exact hl.top_le
  · rw [hi.top, hi.types _ trivial]
    exact hl.actor
  · rw [hz]
    exact hl.chain.congr (f := .z) fun i _ => hz i
  · rw [hevent]
    exact ⟨(hl.sent i hil).1, (hl.sent i hil).2.1, hi.freeable trivial (hl.sent i hil).2.2⟩
  · rw [hevent]
    exact hl.nil
  · intro hne
    rw [hi.isCell, hi.isCell]
    exact hl.anchored hne

theorem pendingSends_eq {r : List Word} {m' : Machine}
    (hr : pendingSends (.ref a) m = .ok r m') : m' = m ∧ r = l.reverse.map Word.ref := by
  have he : Ensures (pendingSends (.ref a)) m (fun r m' => m' = m ∧ r = l.reverse.map Word.ref)
      fun _ => True := by
    have hb := ensures_pendingSends_bind (k := Pure.pure) (E := fun _ => True)
      (P := fun r m' => m' = m ∧ r = l.reverse.map Word.ref) hl.nil hl.chain (fun i hi =>
        (hl.sent i hi).2.1)
      hl.actor.1 ⟨rfl, rfl⟩
    rwa [bind_pure] at hb
  exact he.ok hr

theorem flushSends_bind {k : Nat → MachineM β}
    (hk : ∀ n m', m.heap.Intact (· = a) m'.heap → Averts F (k n) m') :
    Averts F (flushSends (.ref a) >>= k) m := by
  unfold flushSends
  rw [bind_assoc]
  refine (averts_pendingSends hl.actor.1).bind fun r m₁ hr => ?_
  obtain ⟨rfl, rfl⟩ := hl.pendingSends_eq hr
  have hsent : ∀ i ∈ l.reverse, i ≠ a ∧ m₁.heap.Freeable i := fun i hi =>
    ⟨(hl.sent i (List.mem_reverse.1 hi)).1, (hl.sent i (List.mem_reverse.1 hi)).2.2⟩
  rw [bind_assoc]
  refine (Intact.averts_deliverAll hl.top_le hl.nodup (fun i hi => (hsent i hi).2) ⟨.refl,
    hl.anchored⟩).bind
    fun bs m₂ hr => ?_
  have hup : Upholds (m₁.Intact (· = a)) ((l.reverse.map Word.ref).mapM deliver) fun _ => True := by
    refine .mapM fun v hv => ?_
    obtain ⟨i, hi, rfl⟩ := List.mem_map.1 hv
    exact intact_deliver hl.top_le (hsent i hi).2.top (hsent i hi).1
  exact hk _ m₂ ((hup m₁ ⟨.refl, hl.anchored⟩).ok hr).1.1

end Machine.Laden

namespace Open

variable (ho : Open t e a [] ρ m)

include ho

theorem averts_abortTransaction : Averts F abortTransaction m := by
  refine .step ho.me_eq (ho.averts_discard_clear fun ρ₁ m₁ ho₁ => ?_)
  obtain ⟨l, hl⟩ := ho₁.laden
  refine (averts_pendingSends hl.actor.1).bind fun r m₂ hr => ?_
  obtain ⟨rfl, rfl⟩ := hl.pendingSends_eq hr
  have hsent : ∀ i ∈ l.reverse, i ≠ a ∧ m₂.heap.Freeable i := fun i hi =>
    ⟨(hl.sent i (List.mem_reverse.1 hi)).1, (hl.sent i (List.mem_reverse.1 hi)).2.2⟩
  refine (averts_freeAll hl.top_le hl.nodup (fun i hi => (hsent i hi).2) .refl).bind
    fun _ m₃ hr => ?_
  have hup : Upholds (m₂.Intact (· = a)) ((l.reverse.map Word.ref).forM fun v => liftM (free v))
      fun _ => True := by
    refine .forM fun v hv => ?_
    obtain ⟨i, hi, rfl⟩ := List.mem_map.1 hv
    exact intact_lift (intact_free hl.top_le (hsent i hi).1)
  have hi₃ := ((hup m₂ ⟨.refl, hl.anchored⟩).ok hr).1.1
  refine (averts_lift (averts_store (hi₃.isCell.trans hl.isCell))).bind fun _ _ _ => ?_
  exact averts_count _

theorem averts_stopTransaction : Averts F (stopTransaction v) m := by
  refine ho.averts_discard_clear fun ρ₁ m₁ ho₁ => ?_
  exact (averts_count _).bind fun _ _ _ => averts_note _

theorem averts_commitTransaction : Averts F (commitTransaction (.ref a)) m := by
  refine ho.averts_clearStack.bind_ensures (ho.ensures_clearStack (E := fun _ => True)) ?_
  rintro - m₁ ⟨ρ₁, ho₁, -⟩
  refine ho₁.averts_takeBecome.bind_ensures (ho₁.ensures_takeBecome (E := fun _ => True)) ?_
  rintro r m₂ ⟨ρ₂, k, ho₂, -⟩
  have hrest : ∀ m₃ l, m₃.Laden a l → Averts F (do
      let sent ← flushSends (.ref a)
      store (.ref a) .z .undefined
      count fun s => { s with commits := s.commits + 1 }
      noteDispatch (.committed (Word.ref a).toCap sent)) m₃ := by
    intro m₃ l hl
    refine hl.flushSends_bind fun n m₄ hi => ?_
    refine (averts_lift (averts_store (hi.isCell.trans hl.isCell))).bind fun _ _ _ => ?_
    exact (averts_count _).bind fun _ _ _ => averts_noteDispatch _
  obtain ⟨l, hl⟩ := ho₂.laden
  cases r with
  | none => exact hrest m₂ l hl
  | some staged =>
    refine (averts_lift (averts_store hl.isCell)).bind fun _ m₃ hr => ?_
    have hl₃ := hl.store (.inl rfl) hr
    refine (averts_lift (averts_store hl₃.isCell)).bind fun _ m₄ hr => ?_
    exact hrest m₄ l (hl₃.store (.inr rfl) hr)

theorem averts_releaseActor : Averts F (releaseActor (.ref a)) m := by
  refine ho.averts_discard_clear fun ρ₁ m₁ ho₁ => ?_
  obtain ⟨l, hl⟩ := ho₁.laden
  refine hl.flushSends_bind fun n m₂ hi₂ => ?_
  refine (averts_lift (averts_store (hi₂.isCell.trans hl.isCell))).bind fun _ m₃ hr => ?_
  obtain ⟨h₃, hh, rfl⟩ := lift_eq_ok.1 hr
  have hi₃ := ((intact_store hl.top_le (by decide) _ hi₂).ok hh).1
  have hdone : ∀ (n : Notice) m, Averts F (do
      count fun s => { s with releases := s.releases + 1 }
      note n) m := fun n _ => (averts_count _).bind fun _ _ _ => averts_note n
  refine averts_look_bind (.ite (fun _ => ?_) fun hp => ?_)
  · refine averts_note_bind fun m₄ hq => ?_
    have hcell : m₄.heap.isCell (.ref a) = true := hq.heap ▸ hi₃.isCell.trans hl.isCell
    exact (averts_lift (averts_store hcell)).bind fun _ _ _ => hdone _ _
  · have hperm : h₃.permanent ≤ a := by
      refine Nat.not_lt.1 fun hlt => hp ?_
      simp [isPermanent, Word.isFixnum, Word.index, hlt]
    have hfree : h₃.Freeable a := ⟨hperm, hi₃.top ▸ hl.actor.1, hi₃.types a rfl ▸ hl.actor.2⟩
    exact (averts_lift (averts_free hfree)).bind fun _ _ _ => hdone _ _

theorem averts_endTransaction (ending : Ending) : Averts F (endTransaction ending) m := by
  refine .step ho.me_eq ?_
  cases ending with
  | abort =>
    refine ho.averts_pop.bind_runs ho.runs_pop fun reason ρ₁ m₁ ho₁ _ => ?_
    exact averts_note_bind fun m₂ hq => (ho₁.quiet hq).averts_abortTransaction
  | stop => exact ho.averts_stopTransaction
  | commit => exact ho.averts_commitTransaction
  | release => exact ho.averts_releaseActor

end Open

end ActorMachine
