import ActorMachine.Proofs.FaultFreeRounds

namespace ActorMachine

variable {ρ : Roles} {m m' : Machine} {config : Config}

/-- Nothing is under way: no event waits, no transaction is open, and no actor holds an event
back. -/
def Machine.Dormant (m : Machine) : Prop :=
  m.isIdle = true ∧ ∀ a < m.heap.top, m.heap.isActor (.cap a) = true →
    (m.heap.cellAt a).z = .undefined ∨ (m.heap.cellAt a).z = .nil

instance (m : Machine) : Decidable m.Dormant := inferInstanceAs (Decidable (_ ∧ _))

namespace Tidy

variable (ht : Tidy ρ m)

include ht

variable (hr : m.Dormant)

include hr

theorem not_inLine (i : Nat) : (ρ i).inLine = false := by
  obtain ⟨l, hq, hm⟩ := ht.settled.orderly.layout.line
  have hempty : m.threads.isEmpty = true := (Bool.and_eq_true_iff.1 hr.1).2
  cases hi : (ρ i).inLine with
  | false => rfl
  | true => simpa [hq.isEmpty_iff.1 hempty] using (hm i).2 hi

theorem ne_queued (i : Nat) : ρ i ≠ .queued := by
  obtain ⟨l, hq, hm⟩ := ht.settled.orderly.layout.queue
  have hempty : m.events.isEmpty = true := (Bool.and_eq_true_iff.1 hr.1).1
  intro hi
  simpa [hq.isEmpty_iff.1 hempty] using (hm i).2 hi

theorem ne_busy (a t : Nat) : ρ a ≠ .busy t := by
  intro ha
  obtain ⟨e, he⟩ := ht.settled.orderly.layout.coherent.busy a t ha
  cases (he ▸ ht.not_inLine hr t : (Role.thread e a).inLine = false)

theorem ne_handled (e t a : Nat) : ρ e ≠ .handled t a := by
  intro he
  have hthread := ht.settled.orderly.layout.coherent.handled e t a he
  cases (hthread ▸ ht.not_inLine hr t : (Role.thread e a).inLine = false)

theorem ne_pending (i a : Nat) : ρ i ≠ .pending a := by
  -- An actor that was stopped leads to what it holds back.
  intro hi
  have hl := ht.settled.orderly.layout
  have hown := hl.owned .sends a i hi
  have hactor : (ρ a).isActor = true := by
    cases ha : ρ a with
    | busy | stopped => rfl
    | _ =>
      rw [ha] at hown
      cases hown
  obtain ⟨l, hchain, hm⟩ := hl.listed .sends a hown
  have hil : i ∈ l := (hm i).2 hi
  have hcap := (hl.isActor_cap_iff (ht.clean a)).2 hactor
  have hout : ρ a ≠ .outside := by
    intro h
    rw [h] at hactor
    cases hactor
  cases l with
  | nil => cases hil
  | cons j l =>
    have hz : (m.heap.cellAt a).z = .ref j := hchain.1
    have hj : Word.reserved ≤ j := by
      refine (hl.bounds (i := j) ?_).1
      rw [(hm j).1 List.mem_cons_self]
      simp [Bundle.member]
    obtain h | h := hr.2 a (hl.bounds hout).2 hcap <;> rw [hz] at h <;> cases h <;>
      revert hj <;> decide

theorem resting (i : Nat) : (ρ i).isResting = true := by
  have hl := ht.settled.orderly.layout
  cases hi : ρ i with
  | outside | lost | free | data | idle | stopped => rfl
  | condemned => exact absurd hi (ht.clean i)
  | held | transit | spent => cases ht.settled.brief i (by rw [hi]; rfl)
  | queued => exact absurd hi (ht.ne_queued hr i)
  | thread e a => cases (hi ▸ ht.not_inLine hr i : (Role.thread e a).inLine = false)
  | handled t a => exact absurd hi (ht.ne_handled hr i t a)
  | busy t => exact absurd hi (ht.ne_busy hr i t)
  | pending a => exact absurd hi (ht.ne_pending hr i a)
  | operand t =>
    have hown := hl.owned .stack t i hi
    cases ht' : ρ t with
    | thread e a => cases (ht' ▸ ht.not_inLine hr t : (Role.thread e a).inLine = false)
    | _ =>
      rw [ht'] at hown
      cases hown
  | staged e =>
    have hown := hl.owned .become e i hi
    cases he : ρ e with
    | handled t a => exact absurd he (ht.ne_handled hr e t a)
    | _ =>
      rw [he] at hown
      cases hown

theorem ensures_seal {E : Machine → Prop} :
    Ensures Machine.sealImage m (fun _ m' => Tidy ρ.seal m') E := by
  refine (Machine.ensures_sealImage ht.settled.orderly.layout.sound).imp ?_
  rintro - m' hq
  refine ⟨(ht.settled.seal (ht.resting hr)).quiet hq, fun i hi => ?_, ?_, ?_, ?_⟩
  · exact ht.clean i ((Roles.seal_eq (by simp) (by simp)).1 hi)
  · rw [hq.heap]
    exact ht.colors
  · rw [hq.collector]
    exact ht.collector
  · rw [hq.clock, hq.pinned]
    exact ht.clock

theorem ensures_construct (c : Construct) (hw : ∀ w ∈ c.words, m.heap.Offers m.heap.top w) :
    Ensures c.run m (fun _ m' => ∃ ρ', Tidy ρ' m') fun _ => True := by
  have hl := ht.settled.orderly.layout
  have hsafe : ∀ w ∈ c.words, Safe ρ w := fun w hm =>
    hl.safe_offer (w.avoids_of_none ht.clean) (.inr ⟨Nat.le_refl _, ht.resting hr⟩) (hw w hm)
  refine (c.yields ht.settled hsafe).imp ?_
  rintro w m' ⟨ρ', hs', hb, -⟩
  exact ⟨ρ', ht.proceeds hs' (Builds.proceeds hb)⟩

end Tidy

/-- The program has been run, and while it was dormant it was added to and sealed again. -/
inductive Resealed (config : Config) : Machine → Prop
  | start {m m' : Machine} : Building config m → Machine.sealImage m = .ok () m' →
    Resealed config m'
  | command {m m' : Machine} (c : Command) : Resealed config m →
      (∀ w ∈ c.words, m.heap.Offers m.heap.permanent w) → c.run m = .ok () m' → Resealed config m'
  | refused {m m' : Machine} {f : Fault} (c : Command) : Resealed config m →
      (∀ w ∈ c.words, m.heap.Offers m.heap.permanent w) → c.run m = .error f m' →
      f.isFatal = false →
      Resealed config m'
  | construct {m m' : Machine} {w : Word} (c : Construct) : Resealed config m → m.Dormant →
      (∀ w ∈ c.words, m.heap.Offers m.heap.top w) → c.run m = .ok w m' → Resealed config m'
  | resealed {m m' : Machine} : Resealed config m → m.Dormant → Machine.sealImage m = .ok () m' →
      Resealed config m'

theorem Resealed.tidy (hr : Resealed config m) (hc : config.strategy ≠ .incremental) :
    ∃ ρ, Tidy ρ m := by
  induction hr with
  | start hb hrun =>
    obtain ⟨ρ, ht, -⟩ := hb.tidy hrun hc
    exact ⟨ρ, ht⟩
  | command c hr hw hrun ih =>
    obtain ⟨ρ, ht⟩ := ih
    obtain ⟨ρ', ht', -⟩ := (ht.ensures_command c hw).ok hrun
    exact ⟨ρ', ht'⟩
  | refused c hr hw hrun hf ih =>
    obtain ⟨ρ, ht⟩ := ih
    exact ⟨ρ, (ht.ensures_command c hw).error hrun hf ▸ ht⟩
  | construct c hr hrest hw hrun ih =>
    obtain ⟨ρ, ht⟩ := ih
    exact (ht.ensures_construct hrest c hw).ok hrun
  | resealed hr hrest hrun ih =>
    obtain ⟨ρ, ht⟩ := ih
    exact ⟨ρ.seal, (ht.ensures_seal (E := fun _ => True) hrest).ok hrun⟩

def Machine.reseal? (m : Machine) : Option Machine :=
  if m.Dormant then final? (Machine.sealImage m) else none

def Machine.amend (m : Machine) (program : List Construct) (commands : List Command) :
    Option Machine := do
  let m ← program.foldlM (fun m c => if m.Dormant then c.next? m else none) m
  let m ← m.reseal?
  commands.foldlM (fun m c => c.next? m) m

namespace Resealed

theorem of_running (hr : Running config m) : Resealed config m := by
  induction hr with
  | start hb hrun => exact .start hb hrun
  | command c hr hw hrun ih => exact .command c ih hw hrun
  | refused c hr hw hrun hf ih => exact .refused c ih hw hrun hf

theorem constructs {program : List Construct} (hr : Resealed config m)
    (hp : program.foldlM (fun m c => if m.Dormant then c.next? m else none) m = some m') :
    Resealed config m' := by
  refine foldlM_induction hr hp fun m c m' hr hc => ?_
  split at hc
  · next hrest =>
    obtain ⟨hw, w, hrun⟩ := Construct.next?_eq_some hc
    exact .construct c hr hrest hw hrun
  · cases hc

theorem commands {commands : List Command} (hr : Resealed config m)
    (hp : commands.foldlM (fun m c => c.next? m) m = some m') : Resealed config m' := by
  refine foldlM_induction hr hp fun m c m' hr hc => ?_
  obtain ⟨hw, hrun⟩ := Command.next?_eq_some hc
  exact .command c hr hw hrun

theorem amend {program : List Construct} {commands : List Command} (hr : Resealed config m)
    (hp : m.amend program commands = some m') : Resealed config m' := by
  simp only [Machine.amend, Option.bind_eq_bind, Option.bind_eq_some_iff] at hp
  obtain ⟨m₁, hprogram, m₂, hseal, hcommands⟩ := hp
  unfold Machine.reseal? at hseal
  split at hseal
  · next hrest =>
    obtain ⟨⟨⟩, hseal⟩ := final?_eq_some hseal
    exact (Resealed.resealed (hr.constructs hprogram) hrest hseal).commands hcommands
  · cases hseal

end Resealed

/-- No round frees a cell twice. A round comes upon a cell that it must not free, or that is none,
only when it looks up a symbol, in a table that a program has written to. -/
theorem Resealed.sealing_safe (hr : Resealed config m) (hc : config.strategy ≠ .incremental) :
    (∀ v m', Machine.tick m ≠ .error (.doubleFree v) m') ∧
    ∀ v m', Machine.tick m = .error (.invalidRef v) m' → ∃ m₁, Machine.prepare m = .ok () m₁ ∧
      m₁.instruction? = some (.convert .listToSymbol) ∧ ¬ m₁.Filed := by
  obtain ⟨ρ, ht⟩ := hr.tidy hc
  constructor
  · intro v m' htick
    refine ht.averts_tick (F := (· = .doubleFree v)) (.inl (by simp [Fault.notBehavior]))
      (fun m₁ _ => .inl ?_)
      _ m' htick rfl rfl
    simp
  · intro v m' htick
    refine Classical.not_not.1 fun hnot => ?_
    refine ht.averts_tick (F := (· = .invalidRef v)) (.inl (by simp [Fault.notBehavior]))
      (fun m₁ hp => .inr ?_)
      _ m' htick rfl rfl
    exact fun hi => Classical.not_not.1 fun hf => hnot ⟨m₁, hp, hi, hf⟩

theorem Resealed.sealing_safe_amended : ∃ m m', Resealed { heapCapacity := 80, topMargin := 8 } m ∧
    m.heap.permanent = 27 ∧ m.stats.commits = 1 ∧
    (∀ v m', Machine.tick m ≠ .error (.doubleFree v) m') ∧
    Machine.tick m = .error (.invalidRef (.fix 5)) m' ∧ ∃ m₁, Machine.prepare m = .ok () m₁ ∧
      m₁.instruction? = some (.convert .listToSymbol) ∧ ¬ m₁.Filed := by
  -- A program is added to once the first message has been handled. What was added writes to the
  -- symbol table, and the symbol that is looked up next leads nowhere.
  have hplay :
    (play { heapCapacity := 80, topMargin := 8 } [.block [.finish .commit], .actor (.ref 13) []]
      [.send (.cap 14) .nil, .tick]).any (fun m₀ =>
        (m₀.amend [.symbol "A", .block [.msg 0, .push (.fix 5), .set .x, .push .nil,
          .push (.fix 65), .pair 1, .convert .listToSymbol, .finish .commit], .actor (.ref 25) []]
          [.send (.cap 26) (.ref 17), .tick, .tick, .tick, .tick, .tick, .tick]).any fun m =>
        decide (m.heap.permanent = 27 ∧ m.stats.commits = 1 ∧
          fault? (Machine.tick m) = some (.invalidRef (.fix 5)))) = true := by
    decide +kernel
  obtain ⟨m₀, hm₀, hfacts⟩ := (Option.any_eq_true _ _).1 hplay
  obtain ⟨m, hm, hfacts⟩ := (Option.any_eq_true _ _).1 hfacts
  obtain ⟨hp, hcommits, hfault⟩ := of_decide_eq_true hfacts
  obtain ⟨m', htick⟩ := fault?_eq_some hfault
  have hr : Resealed _ m := (Resealed.of_running (Running.of_play hm₀)).amend hm
  obtain ⟨htwice, hwhy⟩ := hr.sealing_safe (by decide)
  exact ⟨m, m', hr, hp, hcommits, htwice, htick, hwhy _ m' htick⟩

theorem Running.frees_permanent : ∃ m m₁ m₂, Running { heapCapacity := 80, topMargin := 8 } m ∧
    Machine.sealImage m = .ok () m₁ ∧ Machine.tick m₁ = .error (.invalidRef (.ref 15)) m₂ := by
  -- The seal makes an event permanent that waits, and the round that handles it cannot free it.
  have hplay :
    (play { heapCapacity := 80, topMargin := 8 } [.block [.finish .commit], .actor (.ref 13) []]
      [.send (.cap 14) .nil]).any (fun m => (final? (Machine.sealImage m)).any fun m₁ =>
        decide (fault? (Machine.tick m₁) = some (.invalidRef (.ref 15)))) = true := by
    decide +kernel
  obtain ⟨m, hm, hfacts⟩ := (Option.any_eq_true _ _).1 hplay
  obtain ⟨m₁, hseal, htick⟩ := (Option.any_eq_true _ _).1 hfacts
  obtain ⟨⟨⟩, hseal⟩ := final?_eq_some hseal
  obtain ⟨m₂, htick⟩ := fault?_eq_some (of_decide_eq_true htick)
  exact ⟨m, m₁, m₂, Running.of_play hm, hseal, htick⟩

end ActorMachine
