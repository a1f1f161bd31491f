import ActorMachine.Machine.Basic
import ActorMachine.Proofs.Unreached

namespace ActorMachine

variable {σ α β : Type} {act : EStateM Fault σ α} {s : σ} {Q R : α → σ → Prop} {E : σ → Prop}

def Ensures (act : EStateM Fault σ α) (s : σ) (Q : α → σ → Prop) (E : σ → Prop) : Prop :=
  match act s with
  | .ok a s' => Q a s'
  | .error f s' => f.isFatal = true ∨ E s'

namespace Ensures

section Ensures

variable (h : Ensures act s Q E)

include h

theorem ok {a : α} {s' : σ} (hr : act s = .ok a s') : Q a s' := by
  unfold Ensures at h
  rwa [hr] at h

theorem error {f : Fault} {s' : σ} (hr : act s = .error f s') (hf : f.isFatal = false) : E s' := by
  unfold Ensures at h
  simp only [hr, hf] at h
  simpa using h

theorem mono {F : σ → Prop} (hq : ∀ a s', Q a s' → R a s') (he : ∀ s', E s' → F s') :
    Ensures act s R F := by
  unfold Ensures at *
  cases hr : act s with
  | ok a s' =>
    rw [hr] at h
    exact hq a s' h
  | error f s' =>
    rw [hr] at h
    exact h.imp_right (he s')

theorem imp (hq : ∀ a s', Q a s' → R a s') : Ensures act s R E := h.mono hq fun _ he => he

theorem result : Ensures act s (fun a s' => act s = .ok a s' ∧ Q a s') E := by
  unfold Ensures at *
  cases hr : act s with
  | ok a s' =>
    rw [hr] at h
    exact ⟨rfl, h⟩
  | error f s' =>
    rw [hr] at h
    exact h

theorem refusal : Ensures act s Q fun s' => (∃ f, act s = .error f s') ∧ E s' := by
  unfold Ensures at *
  cases hr : act s with
  | ok a s' =>
    rw [hr] at h
    exact h
  | error f s' =>
    rw [hr] at h
    exact h.imp_right fun he => ⟨⟨f, rfl⟩, he⟩

end Ensures

theorem of_result (h : Ensures act s (fun a s' => act s = .ok a s' → Q a s') E) :
    Ensures act s Q E :=
  h.result.imp fun _ _ ⟨hr, hq⟩ => hq hr

theorem bind {f : α → EStateM Fault σ β} {P : β → σ → Prop} (h : Ensures act s Q E)
    (hf : ∀ a s', Q a s' → Ensures (f a) s' P E) : Ensures (act >>= f) s P E := by
  unfold Ensures at *
  change match EStateM.bind act f s with
    | .ok b s' => P b s'
    | .error f s' => f.isFatal = true ∨ E s'
  unfold EStateM.bind
  cases hr : act s with
  | ok a s' =>
    rw [hr] at h
    exact hf a s' h
  | error e s' =>
    rw [hr] at h
    exact h

theorem any : Ensures act s (fun _ _ => True) fun _ => True := by
  unfold Ensures
  split
  · trivial
  · exact .inr trivial

theorem ite {c : Prop} [Decidable c] {other : EStateM Fault σ α} (h₁ : c → Ensures act s Q E)
    (h₂ : ¬ c → Ensures other s Q E) : Ensures (if c then act else other) s Q E := by
  split
  · next h => exact h₁ h
  · next h => exact h₂ h

end Ensures

@[simp] theorem ensures_pure {a : α} : Ensures (pure a) s Q E ↔ Q a s := .rfl

@[simp] theorem ensures_get_bind {k : σ → EStateM Fault σ β} {P : β → σ → Prop} :
    Ensures (get >>= k) s P E ↔ Ensures (k s) s P E := .rfl

@[simp] theorem ensures_modify {f : σ → σ} {P : Unit → σ → Prop} :
    Ensures (modify f : EStateM Fault σ Unit) s P E ↔ P () (f s) := .rfl

@[simp] theorem ensures_modify_bind {f : σ → σ} {k : Unit → EStateM Fault σ β}
    {P : β → σ → Prop} : Ensures (modify f >>= k) s P E ↔ Ensures (k ()) (f s) P E := .rfl

namespace Heap

variable {h : Heap} {v : Word} {f : Field}

theorem ensures_fetch {P : Word → Heap → Prop} {E : Heap → Prop}
    (hp : ∀ i, v = .ref i → i < h.top → P ((h.cellAt i).get f) h) : Ensures (fetch v f) h P E := by
  unfold Ensures
  cases hr : fetch v f h with
  | ok w h' =>
    obtain ⟨rfl, i, hv, hi, rfl⟩ := fetch_ok hr
    exact hp i hv hi
  | error e h' =>
    unfold fetch query field cell at hr
    by_cases hc : h.isCell v = true
    · simp [hc, Functor.map, Except.map] at hr
    · simp only [hc, Functor.map, Except.map] at hr
      cases hr
      exact .inl rfl

theorem ensures_fetch_bind {k : Word → HeapM β} {P : β → Heap → Prop} {E : Heap → Prop}
    (hk : ∀ i, v = .ref i → i < h.top → Ensures (k ((h.cellAt i).get f)) h P E) :
    Ensures (fetch v f >>= k) h P E := by
  refine (ensures_fetch (P := fun w h' => h = h' ∧ Ensures (k w) h P E) ?_).bind ?_
  · intro i hv hi
    exact ⟨rfl, hk i hv hi⟩
  · rintro w s' ⟨rfl, hw⟩
    exact hw

theorem ensures_store {w : Word} {P : Unit → Heap → Prop} {E : Heap → Prop} (hs : h.Sound)
    (hp : ∀ i h', v = .ref i → i < h.top → h.Sets i ((h.cellAt i).set f w) h' → h.Fades h' →
      ((h.cellAt i).t ≠ .freeT → ((h.cellAt i).set f w).t ≠ .freeT → h'.Sound ∧ h.Respects [w] h') →
      P () h') :
    Ensures (store v f w) h P E := by
  unfold Ensures
  cases hr : store v f w h with
  | ok u h' =>
    obtain ⟨i, rfl, hi, hset, hfade, hsound⟩ := hs.store hr
    exact hp i h' rfl hi hset hfade fun hu hc => ⟨hsound hu hc, hs.respects_store hr hu⟩
  | error e h' =>
    unfold store at hr
    split at hr
    · cases hr
    · cases hr
      exact .inl rfl

theorem ensures_alloc {c : Cell} {P : Word → Heap → Prop} {E : Heap → Prop} (hs : h.Sound)
    (hc : c.t ≠ .freeT)
    (hp : ∀ i h', h.Takes i c h' → h.Fades h' → h'.Sound → h.Respects (.ref i :: c.words) h' →
      P (.ref i) h') :
    Ensures (alloc c) h P E := by
  unfold Ensures
  cases hr : alloc c h with
  | ok w h' =>
    obtain ⟨i, rfl, ht, hf, hs'⟩ := hs.alloc hr hc
    exact hp i h' ht hf hs' (hs.respects_alloc hc hr)
  | error e h' =>
    unfold alloc at hr
    split at hr
    · cases hr
    · split at hr
      · cases hr
      · cases hr
        exact .inl rfl

theorem ensures_free {P : Unit → Heap → Prop} {E : Heap → Prop} (hs : h.Sound)
    (hp : h.permanent ≤ v.index → v.index < h.top → h.Fades (h.reclaim v.index) →
      (h.reclaim v.index).Sound → h.Respects [.ref v.index] (h.reclaim v.index) →
      P () (h.reclaim v.index)) : Ensures (free v) h P E := by
  unfold Ensures
  cases hr : free v h with
  | ok w h' =>
    obtain ⟨h1, h2, rfl, h3, h4⟩ := hs.free hr
    exact hp h1 h2 h3 h4 (respects_reclaim (Nat.lt_of_lt_of_le h2 hs.top_le))
  | error e h' =>
    unfold free at hr
    split at hr
    · cases hr
      exact .inl rfl
    · split at hr
      · cases hr
        exact .inl rfl
      · cases hr

theorem query_ok {f : Heap → Except Fault α} {a : α} (hf : f h = .ok a) : query f h = .ok a h := by
  unfold query
  rw [hf]

theorem query_error {f : Heap → Except Fault α} {e : Fault} (hf : f h = .error e) :
    query f h = .error e h := by
  unfold query
  rw [hf]

theorem ensures_query {g : Heap → Except Fault α} {P : α → Heap → Prop} {E : Heap → Prop} :
    Ensures (query g) h P E ↔
      match g h with
      | .ok a => P a h
      | .error e => e.isFatal = true ∨ E h := by
  unfold Ensures query
  cases g h <;> rfl

end Heap

namespace Machine

variable {m : Machine} {P : α → Machine → Prop} {E : Machine → Prop}

theorem lift_eq_ok {act : HeapM α} {a : α} {m' : Machine} :
    (liftM act : MachineM α) m = .ok a m' ↔ ∃ h, act m.heap = .ok a h ∧ m' =
    { m with heap := h } := by
  change onHeap act m = _ ↔ _
  unfold onHeap
  dsimp only
  cases act m.heap with
  | ok b h =>
    constructor
    · rintro ⟨⟩
      exact ⟨h, rfl, rfl⟩
    · rintro ⟨h, ⟨⟩, rfl⟩
      rfl
  | error e h => simp

theorem lift_eq_error {act : HeapM α} {e : Fault} {m' : Machine} :
    (liftM act : MachineM α) m = .error e m' ↔ ∃ h, act m.heap = .error e h ∧ m' =
    { m with heap := h } := by
  change onHeap act m = _ ↔ _
  unfold onHeap
  dsimp only
  cases act m.heap with
  | ok b h => simp
  | error e h =>
    constructor
    · rintro ⟨⟩
      exact ⟨h, rfl, rfl⟩
    · rintro ⟨h, ⟨⟩, rfl⟩
      rfl

@[simp] theorem ensures_onHeap {act : HeapM α} :
    Ensures (liftM act : MachineM α) m P E ↔
      Ensures act m.heap (fun a h => P a { m with heap := h }) fun h => E { m with heap := h } := by
  have hr : (liftM act : MachineM α) m = Machine.onHeap act m := rfl
  unfold Ensures
  rw [hr]
  unfold Machine.onHeap
  dsimp only
  cases act m.heap <;> rfl

theorem ensures_fetch_bind {v : Word} {f : Field} {k : Word → MachineM β}
    {P : β → Machine → Prop}
    (hk : ∀ i, v = .ref i → i < m.heap.top → Ensures (k ((m.heap.cellAt i).get f)) m P E) :
    Ensures ((liftM (Heap.fetch v f) : MachineM Word) >>= k) m P E := by
  refine Ensures.bind (Q := fun w m' => m = m' ∧ Ensures (k w) m P E) ?_ ?_
  · rw [ensures_onHeap]
    exact Heap.ensures_fetch fun i hv hi => ⟨rfl, hk i hv hi⟩
  · rintro w s' ⟨rfl, hw⟩
    exact hw

@[simp] theorem ensures_look_bind {f : Heap → α} {k : α → MachineM β} {P : β → Machine → Prop} :
    Ensures (look f >>= k) m P E ↔ Ensures (k (f m.heap)) m P E := .rfl

@[simp] theorem ensures_ask {f : Heap → Except Fault α} :
    Ensures (ask f) m P E ↔
      match f m.heap with
      | .ok a => P a m
      | .error e => e.isFatal = true ∨ E m := by
  unfold ask
  rw [ensures_onHeap, Heap.ensures_query]

end Machine

end ActorMachine
