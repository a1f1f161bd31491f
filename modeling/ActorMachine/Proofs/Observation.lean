import ActorMachine.Proofs.Serialization
/-! Watching runs. An observer writes something down at every command, with the history of the run
at hand. Main statement: what holds at the start, and is kept by every command, is true of all that
an observer writes down. -/

namespace ActorMachine

variable {γ : Type}

namespace Machine

def current (m : Machine) : Nat :=
  (m.heap.cellAt (m.heap.cellAt m.threads.head.index).y.index).x.index

def instruction? (m : Machine) : Option Instruction :=
  match nextAddress m.threads.head m with
  | .ok ip m₁ =>
    match m₁.heap.instruction ip with
    | .ok (i, _) => some i
    | .error _ => none
  | .error .. => none

theorem instruction?_eq {m m' : Machine} {ip next : Word} {i : Instruction}
    (hip : nextAddress m.threads.head m = .ok ip m') (hi : m'.heap.instruction ip = .ok (i, next)) :
    m.instruction? = some i := by
  unfold instruction?
  rw [hip]
  dsimp only
  rw [hi]

end Machine

theorem Open.current_eq {ρ : Roles} {m : Machine} {t e a : Nat} (ho : Open t e a [] ρ m) :
    m.current = a := by
  have hl := ho.orderly.layout
  have ht := (hl.fits t).2
  have he := (hl.fits e).2
  rw [ho.role] at ht
  rw [ho.roles.1] at he
  unfold Machine.current
  rw [ho.head, Word.index, ht.2, Word.index, he.2.1]
  rfl

/-- Somebody who watches a run, and knows its history. -/
structure Observer (γ : Type) where
  start : γ
  watch : History → γ → Machine → Machine → Command → γ

/-- A run with its history, and with what an observer has written down. -/
inductive Observed (o : Observer γ) (config : Config) : Machine → History → γ → Prop
  | start {m m' : Machine} : Building config m → Machine.sealImage m = .ok () m' →
      Observed o config m' (fun _ => {}) o.start
  | command {m m' : Machine} {H : History} {g : γ} (c : Command) : Observed o config m H g →
      (∀ w ∈ c.words, m.heap.Offers m.heap.permanent w) → c.run m = .ok () m' →
      Observed o config m' (H.watch m m' c) (o.watch H g m m' c)
  | refused {m m' : Machine} {H : History} {g : γ} {f : Fault} (c : Command) :
    Observed o config m H g →
      (∀ w ∈ c.words, m.heap.Offers m.heap.permanent w) → c.run m = .error f m' →
      f.isFatal = false →
      Observed o config m' H g

variable {o : Observer γ} {config : Config} {m : Machine} {H : History} {g : γ}

theorem Running.observed (o : Observer γ) (hr : Running config m) :
    ∃ H g, Observed o config m H g := by
  induction hr with
  | start hb hs => exact ⟨_, _, .start hb hs⟩
  | command c _ hw hrun ih =>
    obtain ⟨H, g, hg⟩ := ih
    exact ⟨_, _, .command c hg hw hrun⟩
  | refused c _ hw hrun hf ih =>
    obtain ⟨H, g, hg⟩ := ih
    exact ⟨H, g, .refused c hg hw hrun hf⟩

theorem Observed.invariant {P : Roles → Machine → γ → Prop} (hr : Observed o config m H g)
    (hc : config.strategy ≠ .incremental)
    (hstart : ∀ ρ m, Tidy ρ m → (∀ i, (ρ i).isBasic = true) → m.stats = {} → P ρ m o.start)
    (hstep : ∀ ρ m ρ' m' H g c, Tidy ρ m → Tidy ρ' m' → (∀ a, Recounts ρ m a (H a)) →
      Command.Effect ρ m ρ' m' c → P ρ m g → P ρ' m' (o.watch H g m m' c)) :
    ∃ ρ, Tidy ρ m ∧ (∀ a, Recounts ρ m a (H a)) ∧ P ρ m g := by
  induction hr with
  | start hb hs =>
    obtain ⟨ρ, ht, hbasic, hstats⟩ := hb.tidy hs hc
    exact ⟨ρ, ht, fun a => .of_basic (hbasic a), hstart ρ _ ht hbasic hstats⟩
  | command c _ hw hrun ih =>
    obtain ⟨ρ, ht, hH, hP⟩ := ih
    obtain ⟨ρ', ht', he⟩ := (ht.ensures_command c hw).ok hrun
    exact ⟨ρ', ht', fun a => he.recounts ht ht' hH, hstep ρ _ ρ' _ _ _ c ht ht' hH he hP⟩
  | refused c _ hw hrun hf ih =>
    obtain ⟨ρ, ht, hH, hP⟩ := ih
    obtain rfl := (ht.ensures_command c hw).error hrun hf
    exact ⟨ρ, ht, hH, hP⟩

end ActorMachine
