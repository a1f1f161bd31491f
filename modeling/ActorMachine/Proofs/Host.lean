import ActorMachine.Proofs.Build
import ActorMachine.Proofs.Collection
/-! What a host may do: build a program and seal it, and then run it. A host may supply numbers,
literals, capabilities, and references to cells that are in use, are not actors, and are sealed when
anything runs. Main statement: a machine that is run in this way, with a collector that works
between rounds, is in order after every command. -/

namespace ActorMachine

open Machine

variable {ρ ρ' : Roles} {h : Heap} {m m' : Machine} {config : Config}
variable {w : Word} {program : List Construct} {commands : List Command}

/-- Words that a host may supply: references lead to cells in use below the limit that are not
actors. -/
def Heap.Offers (h : Heap) (limit : Nat) : Word → Prop
  | .fixnum _ | .cap _ => True
  | .ref i => i < Word.reserved ∨ i < limit ∧ (h.cellAt i).t ≠ .freeT ∧ (h.cellAt i).t ≠ .actorT

instance (h : Heap) (limit : Nat) (w : Word) : Decidable (h.Offers limit w) :=
  match w with
  | .fixnum _ | .cap _ => isTrue trivial
  | .ref _ => inferInstanceAs (Decidable (_ ∨ _))

inductive Construct
  | chain (code : List Instruction) (next : Word)
  | block (code : List Instruction)
  | list (items : List Word)
  | string (text : String)
  | symbol (name : String)
  | actor (beh : Word) (state : List Word)
  | newActor (beh state : Word)

namespace Construct

def run : Construct → MachineM Word
  | chain code next => Assembler.chain code next
  | block code => Assembler.block code
  | list items => Assembler.list items
  | string text => Assembler.string text
  | symbol name => intern name
  | actor beh state => Assembler.actor beh state
  | newActor beh state => Machine.newActor beh state

def words : Construct → List Word
  | chain code next => next :: code.map Instruction.operand
  | block code => code.map Instruction.operand
  | list items => items
  | string _ | symbol _ => []
  | actor beh state => beh :: state
  | newActor beh state => [beh, state]

end Construct

inductive Command
  | newActor (beh state : Word)
  | send (target message : Word)
  | tick
  | collect
  | pin (w : Word)
  | attachClock (now : UInt64) (handler : Word)
  | setClock (now : UInt64)

namespace Command

def run : Command → MachineM Unit
  | newActor beh state => do
    let _ ← Machine.newActor beh state
    return ()
  | send target message => Machine.send target message
  | tick => do
    let _ ← Machine.tick
    return ()
  | collect => do
    let _ ← Machine.collect
    return ()
  | pin w => Machine.pin w
  | attachClock now handler => Machine.attachClock now handler
  | setClock now => onClock (·.set now)

def words : Command → List Word
  | newActor beh state => [beh, state]
  | send target message => [target, message]
  | tick | collect | setClock _ => []
  | pin w => [w]
  | attachClock _ handler => [handler]

end Command

/-- A program is being built on a new machine, which may have been given a console. -/
inductive Building (config : Config) : Machine → Prop
  | new {m : Machine} (console : Console) :
  Machine.new config = .ok m → Building config { m with console }
  | construct {m m' : Machine} {w : Word} (c : Construct) : Building config m →
      (∀ w ∈ c.words, m.heap.Offers m.heap.top w) → c.run m = .ok w m' → Building config m'

/-- The program was sealed, and has been run. -/
inductive Running (config : Config) : Machine → Prop
  | start {m m' : Machine} : Building config m → sealImage m = .ok () m' → Running config m'
  | command {m m' : Machine} (c : Command) : Running config m →
      (∀ w ∈ c.words, m.heap.Offers m.heap.permanent w) → c.run m = .ok () m' → Running config m'
  | refused {m m' : Machine} {f : Fault} (c : Command) : Running config m →
      (∀ w ∈ c.words, m.heap.Offers m.heap.permanent w) → c.run m = .error f m' →
      f.isFatal = false →
      Running config m'

def final? : EStateM.Result Fault Machine α → Option Machine
  | .ok _ m => some m
  | .error .. => none

deriving instance DecidableEq for Step

def yield? [DecidableEq α] (a : α) : EStateM.Result Fault Machine α → Option Machine
  | .ok b m => if b = a then some m else none
  | .error .. => none

def fault? : EStateM.Result Fault Machine α → Option Fault
  | .ok .. => none
  | .error f _ => some f

def Construct.next? (c : Construct) (m : Machine) : Option Machine :=
  if ∀ w ∈ c.words, m.heap.Offers m.heap.top w then final? (c.run m) else none

def Command.next? (c : Command) (m : Machine) : Option Machine :=
  if ∀ w ∈ c.words, m.heap.Offers m.heap.permanent w then final? (c.run m) else none

def play (config : Config) (program : List Construct) (commands : List Command) :
    Option Machine := do
  let m ← (Machine.new config).toOption
  let m ← program.foldlM (fun m c => c.next? m) m
  let m ← final? (sealImage m)
  commands.foldlM (fun m c => c.next? m) m

theorem yield?_eq_some [DecidableEq α] {a : α} {r : EStateM.Result Fault Machine α}
    (hr : yield? a r = some m) :
    r = .ok a m := by
  cases r with
  | ok b m' =>
    obtain ⟨rfl, hm⟩ := Option.ite_none_right_eq_some.1 hr
    cases hm
    rfl
  | error => cases hr

theorem ok_of_toOption {ε : Type} {a : α} {r : Except ε α} (h : r.toOption = some a) :
    r = .ok a := by
  cases r with
  | ok b =>
    cases h
    rfl
  | error => cases h

theorem final?_eq_some {r : EStateM.Result Fault Machine α} (hr : final? r = some m) :
    ∃ a, r = .ok a m := by
  cases r with
  | ok a m' =>
    cases hr
    exact ⟨a, rfl⟩
  | error => cases hr

theorem fault?_eq_some {f : Fault} {r : EStateM.Result Fault Machine α} (hr : fault? r = some f) :
    ∃ m, r = .error f m := by
  cases r with
  | ok a m => cases hr
  | error g m =>
    cases hr
    exact ⟨m, rfl⟩

theorem Construct.next?_eq_some {c : Construct} (hc : c.next? m = some m') :
    (∀ w ∈ c.words, m.heap.Offers m.heap.top w) ∧ ∃ w, c.run m = .ok w m' := by
  unfold Construct.next? at hc
  split at hc
  · next hw => exact ⟨hw, final?_eq_some hc⟩
  · cases hc

theorem Command.next?_eq_some {c : Command} (hc : c.next? m = some m') :
    (∀ w ∈ c.words, m.heap.Offers m.heap.permanent w) ∧ c.run m = .ok () m' := by
  unfold Command.next? at hc
  split at hc
  · next hw =>
    obtain ⟨⟨⟩, hrun⟩ := final?_eq_some hc
    exact ⟨hw, hrun⟩
  · cases hc

theorem foldlM_induction {σ γ : Type} {step : σ → γ → Option σ} {I : σ → Prop} {s s' : σ}
    {l : List γ}
    (hs : I s) (hr : l.foldlM step s = some s')
    (hstep : ∀ s c s', I s → step s c = some s' → I s') : I s' := by
  induction l generalizing s with
  | nil =>
    cases hr
    exact hs
  | cons c l ih =>
    rw [List.foldlM_cons, Option.bind_eq_bind, Option.bind_eq_some_iff] at hr
    obtain ⟨s₁, hc, hr⟩ := hr
    exact ih (hstep s c s₁ hs hc) hr

theorem Building.foldlM (hb : Building config m)
    (hr : program.foldlM (fun m c => c.next? m) m = some m') : Building config m' := by
  refine foldlM_induction hb hr fun m c m' hb hc => ?_
  obtain ⟨hw, w, hrun⟩ := Construct.next?_eq_some hc
  exact .construct c hb hw hrun

theorem Running.foldlM (hm : Running config m)
    (hr : commands.foldlM (fun m c => c.next? m) m = some m') : Running config m' := by
  refine foldlM_induction hm hr fun m c m' hm hc => ?_
  obtain ⟨hw, hrun⟩ := Command.next?_eq_some hc
  exact .command c hm hw hrun

theorem Building.of_play (hp : play config program commands = some m) :
    ∃ m₁ m₂, Building config m₁ ∧
      sealImage m₁ = .ok () m₂ ∧ commands.foldlM (fun m c => c.next? m) m₂ = some m := by
  simp only [play, Option.bind_eq_bind, Option.bind_eq_some_iff] at hp
  obtain ⟨m₀, hnew, m₁, hb, m₂, hs, hr⟩ := hp
  have hnew : Machine.new config = .ok m₀ := by
    cases h : Machine.new config with
    | ok m =>
      rw [h] at hnew
      cases hnew
      rfl
    | error e =>
      rw [h] at hnew
      cases hnew
  obtain ⟨⟨⟩, hs⟩ := final?_eq_some hs
  exact ⟨m₁, m₂, (Building.new m₀.console hnew).foldlM hb, hs, hr⟩

theorem Running.of_play (hp : play config program commands = some m) : Running config m := by
  obtain ⟨m₁, m₂, hb, hs, hr⟩ := Building.of_play hp
  exact (Running.start hb hs).foldlM hr

theorem Heap.literals_new (capacity sanity : Nat) {i : Nat} (hi : i < Word.reserved) :
    ((Heap.new capacity).withSanity sanity).cellAt i = Cell.initial i := by
  have : i < max capacity (Word.reserved + 1) := by omega
  simp [Heap.cellAt, withSanity, Heap.new, Array.getD_eq_getD_getElem?, this]

theorem Heap.type_new (capacity sanity i : Nat) :
    (((Heap.new capacity).withSanity sanity).cellAt i).t ≠ .actorT := by
  have hinitial : (Cell.initial i).t ≠ .actorT := by
    unfold Cell.initial
    split <;> decide
  simp only [Heap.cellAt, withSanity, Heap.new, Array.getD_eq_getD_getElem?]
  by_cases hi : i < max capacity (Word.reserved + 1)
  · simpa [hi] using hinitial
  · simpa [hi] using (by decide : Cell.blank.t ≠ .actorT)

theorem Layout.empty (hs : h.Sound) (ht : h.top = Word.reserved)
    (hl : ∀ i < Word.reserved, h.cellAt i = Cell.initial i) (hn : ∀ i, (h.cellAt i).t ≠ .actorT) :
    Layout (fun _ => .outside) h .empty .empty := by
  refine ⟨hs, hl, fun i => ⟨?_, hn i⟩, ⟨?_, ?_, ?_⟩, ?_, ?_, ?_, ?_⟩
  · simp only [Placed]
    omega
  · simp
  · simp
  · simp
  · intro k o i hi
    cases k <;> cases hi
  · intro k o ho
    cases k <;> cases ho
  · exact ⟨[], ⟨rfl, rfl⟩, by simp⟩
  · exact ⟨[], ⟨rfl, rfl⟩, by simp [Role.inLine]⟩

theorem Collector.passed_ofConfig (config : Config) : (Collector.ofConfig config).passed = 0 := by
  unfold Collector.ofConfig
  split <;> rfl

theorem Machine.new_eq_ok (hm : Machine.new config = .ok m) : config.validate = .ok () ∧
    m = { config, collector := .ofConfig config,
          heap := if (Collector.ofConfig config).usesColors then
              ((Heap.new config.heapCapacity).withSanity config.effectiveSanity).enableColors
            else (Heap.new config.heapCapacity).withSanity config.effectiveSanity
          events := .empty, threads := .empty, symbols := .empty, pinned := #[]
          console := .null, clock := none, trace := {}, stats := {}
          log := #[.created config.heapCapacity (Collector.ofConfig config).name] } := by
  unfold Machine.new at hm
  cases hv : config.validate with
  | error e =>
    rw [hv] at hm
    cases hm
  | ok u =>
    rw [hv] at hm
    cases hm
    exact ⟨rfl, rfl⟩

theorem Machine.built_new (hm : Machine.new config = .ok m) (console : Console) :
    Built (fun _ => .outside) { m with console } := by
  have hf := Heap.freeList_new config.heapCapacity config.effectiveSanity
  have hl := fun i => @Heap.literals_new config.heapCapacity config.effectiveSanity i
  have hn := Heap.type_new config.heapCapacity config.effectiveSanity
  obtain ⟨-, rfl⟩ := Machine.new_eq_ok hm
  refine ⟨⟨⟨?_, fun w hw => ?_, .of_none (by simp), ?_⟩, fun i hi => by cases hi⟩, fun i => rfl⟩
  · dsimp only
    split
    · exact .empty (Heap.sound_enableColors hf rfl) rfl hl hn
    · exact .empty ⟨⟨[], hf⟩, fun m hm => by cases hm⟩ rfl hl hn
  · have hw : w ∈ (Vector.replicate 256 Word.nil).toList ++ [] ++ [] := hw
    rw [List.append_nil, List.append_nil, Vector.toList_replicate, List.mem_replicate] at hw
    rw [hw.2]
    exact safe_nil
  · rw [passed, Collector.passed_ofConfig]
    simp

theorem Construct.yields (c : Construct) (hs : Settled [] ρ m) (hw : ∀ w ∈ c.words, Safe ρ w) :
    Yields ρ m c.run := by
  cases c with
  | chain code next =>
    refine hs.yields_chain (fun i hi => hw _ ?_) (hw next List.mem_cons_self)
    exact List.mem_cons_of_mem next (List.mem_map_of_mem hi)
  | block code => exact hs.yields_block fun i hi => hw _ (List.mem_map_of_mem hi)
  | list items => exact hs.yields_list hw
  | string text => exact hs.yields_string text
  | symbol name => exact hs.yields_symbol name
  | actor beh state =>
    exact hs.yields_actor (hw beh List.mem_cons_self) fun w h => hw w (List.mem_cons_of_mem beh h)
  | newActor beh state =>
    exact hs.yields_newActor (hw beh List.mem_cons_self) (hw state (by simp [words]))

theorem Layout.safe_offer {events threads : Queue} {limit : Nat}
    (hl : Layout ρ h events threads) (hc : w.Avoids ρ.condemned)
    (hb : limit ≤ h.permanent ∨ limit ≤ h.top ∧ ∀ i, (ρ i).isResting = true)
    (hw : h.Offers limit w) :
    Safe ρ w := by
  cases w with
  | fixnum n => trivial
  | cap i => exact hc
  | ref i =>
    obtain hr | ⟨hlt, hf, ha⟩ := hw
    · exact .inl hr
    by_cases hres : i < Word.reserved
    · exact .inl hres
    have htop := hl.permanent_le
    have hout : ρ i ≠ .outside := by
      rw [ne_eq, hl.outside_iff]
      omega
    rw [ne_eq, hl.isFree_iff hout] at hf
    rw [ne_eq, hl.isActor_iff hout hc] at ha
    have hp := (hl.fits i).1
    refine .inr ?_
    cases hr : ρ i with
    | data => rfl
    | outside => exact absurd hr hout
    | free | lost => simp [hr] at hf
    | condemned => exact absurd hr hc
    | idle | busy | stopped | transit => simp [hr, Role.isActor] at ha
    | _ =>
      -- All other cells lie above the permanent ones, and are in use only while something is under
      -- way.
      obtain hlim | ⟨-, hrest⟩ := hb
      · rw [hr] at hp
        have := hp.1
        omega
      · have := hrest i
        rw [hr] at this
        cases this

theorem Machine.new_eq (hm : Machine.new config = .ok m) :
    m.collector = .ofConfig config ∧ m.clock = none ∧ m.stats = {} ∧
      (m.collector.usesColors = false → m.heap.colors = none) := by
  obtain ⟨-, rfl⟩ := Machine.new_eq_ok hm
  refine ⟨rfl, rfl, rfl, fun hc => ?_⟩
  dsimp only at hc ⊢
  rw [hc]
  rfl

theorem Machine.lit_new (hm : Machine.new config = .ok m) (hc : m.collector.usesColors = true) :
    m.heap.colors.isSome = true ∧ ∀ i, m.heap.Lit (.ref i) := by
  have hf := Heap.freeList_new config.heapCapacity config.effectiveSanity
  obtain ⟨-, rfl⟩ := Machine.new_eq_ok hm
  dsimp only at hc ⊢
  rw [if_pos hc]
  exact ⟨(Heap.lit_enableColors hf.top_le rfl 0).1, fun i =>
    (Heap.lit_enableColors hf.top_le rfl i).2⟩

theorem Building.built (hb : Building config m) :
    ∃ m₀ ρ, Machine.new config = .ok m₀ ∧ Built ρ m ∧ Steady m₀ m ∧ m₀.heap.Fades m.heap ∧
      m.stats = m₀.stats := by
  induction hb with
  | @new m console hm => exact ⟨m, _, hm, built_new hm console, ⟨rfl, rfl, rfl, rfl⟩, .refl _, rfl⟩
  | @construct m m' w c hb hw hr ih =>
    obtain ⟨m₀, ρ, hm₀, hbuilt, hst, hf, hstats⟩ := ih
    have hsafe : ∀ w ∈ c.words, Safe ρ w := fun w hm =>
      hbuilt.settled.orderly.layout.safe_offer (w.avoids_of_none hbuilt.ne_condemned)
        (.inr ⟨Nat.le_refl _, hbuilt.resting⟩) (hw w hm)
    obtain ⟨ρ', hs', hb', -⟩ := (c.yields hbuilt.settled hsafe).ok hr
    exact ⟨m₀, ρ', hm₀, hbuilt.next hs' hb', hst.trans hb'.untouched.steady,
      hf.trans hb'.frame.fades, hb'.untouched.stats.trans hstats⟩

def Welcomes (ρ : Roles) (m : Machine) (ρ' : Roles) (m' : Machine) : Prop :=
  ∀ a, (ρ' a).isActor = true → Undisturbed a ρ m ρ' m' ∨ ρ' a = .idle ∧ (ρ a).isActor = false

theorem Builds.welcomes (hb : Builds ρ m ρ' m') : Welcomes ρ m ρ' m' := by
  have hspare : ∀ {r : Role}, r.isActing = true → ¬ r.isSpare = true := by
    intro r hr hs
    rw [Posting.not_isActing (i := 0) (.inl hs)] at hr
    cases hr
  intro a ha
  cases hact : (ρ a).isActor with
  | true =>
    exact .inl (hb.frame.undisturbed (hspare (Role.isActing_of_isActor hact))
      (fun i _ => hspare rfl) fun i _ => hspare rfl)
  | false =>
    refine .inr ⟨?_, rfl⟩
    obtain ⟨hr, -⟩ | ⟨-, hr⟩ := hb.frame.changes a
    · rw [hr, hact] at ha
      cases ha
    · exact Role.eq_idle (hr.resolve_left (hspare (Role.isActing_of_isActor ha))) ha

/-- Cells, events, threads and counters are left alone. -/
structure Idles (m m' : Machine) : Prop where
  heap : m'.heap = m.heap
  events : m'.events = m.events
  threads : m'.threads = m.threads
  stats : m'.stats = m.stats

def Command.Effect (ρ : Roles) (m : Machine) (ρ' : Roles) (m' : Machine) : Command → Prop
  | tick => ∃ b, Round ρ m b ρ' m'
  | newActor .. => Builds ρ m ρ' m'
  | send target message => Posts ρ m ρ' m' ∧ Balances 1 m m' ∧ ∃ i, Extends [i] ρ m m' ∧
    (m'.heap.cellAt i).x = target ∧ (m'.heap.cellAt i).y = message
  | collect => Sweeps ρ m ρ' m'
  | pin _ | attachClock .. | setClock _ => ρ' = ρ ∧ Idles m m'

theorem Command.Effect.welcomes {c : Command} (he : c.Effect ρ m ρ' m') (hc : c ≠ .tick)
    (hl : m.Arranged ρ) : Welcomes ρ m ρ' m' := by
  cases c with
  | tick => exact absurd rfl hc
  | newActor => exact Builds.welcomes he
  | send => exact fun a ha => .inl (he.1.still (fun _ => True) a trivial (.inr ha))
  | collect => exact fun a ha => .inl (Sweeps.undisturbed he hl ha)
  | pin | attachClock | setClock =>
    obtain ⟨rfl, hi⟩ := he
    exact fun a _ => .inl ⟨⟨rfl, by rw [hi.heap]⟩, fun _ => .rfl, fun _ _ => by rw [hi.heap]⟩

namespace Orderly

theorem pin (ho : Orderly ρ m) (hw : Safe ρ w) :
    Orderly ρ { m with heap := m.heap.shade w, pinned := m.pinned.push w } := by
  obtain ⟨hs, hf⟩ := ho.sound.shade w
  refine ⟨ho.layout.recolor hs (by simp) (by simp) (by simp), fun v hv => ?_, ?_,
    fun v hv => hf.lit (ho.lit v hv)⟩
  · have hkept := ho.kept v
    simp only [Machine.kept, List.mem_append, Array.toList_push, List.mem_singleton] at hv hkept
    grind
  · exact ho.sound.respects_shade w _ ho.shuns (by simpa using ho.layout.avoids hw)

theorem withClock {clock : Option Clock} (ho : Orderly ρ m)
    (hc : ∀ w ∈ clock.map Clock.handler, w ∈ m.pinned) : Orderly ρ { m with clock } := by
  refine ⟨ho.layout, fun v hv => ho.kept v ?_, ho.shuns, ho.lit⟩
  simp only [Machine.kept, List.mem_append, Option.mem_toList] at hv ⊢
  refine .inl (hv.elim id fun hv => .inr ?_)
  exact Array.mem_toList_iff.2 (hc v hv)

end Orderly

theorem Settled.ensures_send (hs : Settled [] ρ m) {target message : Word} (htarget : Safe ρ target)
    (hmessage : Safe ρ message) :
    Ensures (send target message) m
      (fun _ m' => ∃ ρ', Settled [] ρ' m' ∧ Posts ρ m ρ' m' ∧ Balances 1 m m' ∧
        ∃ i, Extends [i] ρ m m' ∧
        (m'.heap.cellAt i).x = target ∧ (m'.heap.cellAt i).y = message) (m = ·) := by
  unfold send
  rw [ensures_look_bind]
  dsimp only
  refine .ite (fun _ => .inr rfl) fun ha => ?_
  refine (hs.ensures_post (by simpa using ha) htarget hmessage).imp ?_
  rintro - m' ⟨ρ', i, hs', hp, hstats, hpost⟩
  refine ⟨ρ', hs', hp, hp.balances hs.orderly.layout ?_ ?_ fun q hq => ?_, i, hpost⟩
  · rw [hstats]
  · rw [hstats]
  · refine ⟨q ++ [i], hpost.1.waiting q hq, ?_⟩
    rw [hstats, List.length_append, List.length_singleton]
    omega

namespace Machine

theorem ensures_attachClock {now : UInt64} {Q : Machine → Prop} (hq : Q { m with
    heap := m.heap.shade w, pinned := m.pinned.push w, clock := some (.start now w) }) :
    Ensures (attachClock now w) m (fun _ => Q) (m = ·) := by
  unfold attachClock
  rw [ensures_look_bind]
  dsimp only
  refine .ite (fun _ => .inr rfl) fun _ => ?_
  unfold pin
  rwa [ensures_modify_bind, ensures_modify]

theorem handler_pinned (hc : ∀ w ∈ m.clock.map Clock.handler, w ∈ m.pinned) (now : UInt64) :
    ∀ w ∈ (m.clock.map (Clock.set · now)).map Clock.handler, w ∈ m.pinned := by
  rwa [Option.map_map]

end Machine

namespace Tidy

theorem safe (ht : Tidy ρ m) (hw : m.heap.Offers m.heap.permanent w) : Safe ρ w :=
  ht.settled.orderly.layout.safe_offer (w.avoids_of_none ht.clean) (.inl (Nat.le_refl _)) hw

theorem heap_shade (ht : Tidy ρ m) (w : Word) : m.heap.shade w = m.heap := by
  unfold Heap.shade
  rw [ht.colors]

theorem pin (ht : Tidy ρ m) (hw : Safe ρ w) :
    Tidy ρ { m with heap := m.heap.shade w, pinned := m.pinned.push w } := by
  refine ⟨⟨ht.settled.orderly.pin hw, ht.settled.brief⟩, ht.clean, ?_, ht.collector,
    fun v hv => Array.mem_push_of_mem _ (ht.clock v hv)⟩
  rw [ht.heap_shade]
  exact ht.colors

theorem withClock (ht : Tidy ρ m) {clock : Option Clock}
    (hc : ∀ w ∈ clock.map Clock.handler, w ∈ m.pinned) : Tidy ρ { m with clock } :=
  ⟨⟨ht.settled.orderly.withClock hc, ht.settled.brief⟩, ht.clean, ht.colors, ht.collector, hc⟩

theorem ensures_command (ht : Tidy ρ m) (c : Command)
    (hw : ∀ w ∈ c.words, m.heap.Offers m.heap.permanent w) :
    Ensures c.run m (fun _ m' => ∃ ρ', Tidy ρ' m' ∧ c.Effect ρ m ρ' m') (m = ·) := by
  have hsafe : ∀ w ∈ c.words, Safe ρ w := fun w hm => ht.safe (hw w hm)
  cases c with
  | newActor beh state =>
    refine Ensures.bind (ht.settled.ensures_newActor (hsafe beh (by simp [Command.words]))
      (hsafe state (by simp [Command.words]))) ?_
    rintro w m' ⟨ρ', hs', hb, -⟩
    exact ⟨ρ', ht.proceeds hs' (Builds.proceeds hb), hb⟩
  | send target message =>
    refine (ht.settled.ensures_send (hsafe target (by simp [Command.words]))
      (hsafe message (by simp [Command.words]))).imp ?_
    rintro - m' ⟨ρ', hs', hp, hb⟩
    exact ⟨ρ', ht.proceeds hs' hp.proceeds, hp, hb⟩
  | tick =>
    refine Ensures.bind ht.ensures_tick ?_
    rintro b m' ⟨ρ', ht', hr⟩
    exact ⟨ρ', ht', b, hr⟩
  | collect =>
    refine Ensures.bind ht.ensures_collect ?_
    rintro r m' hr
    exact hr
  | pin w => exact ⟨ρ, ht.pin (hsafe w List.mem_cons_self), rfl, ht.heap_shade w, rfl, rfl, rfl⟩
  | attachClock now handler =>
    refine Machine.ensures_attachClock ⟨ρ, (ht.pin (hsafe handler List.mem_cons_self)).withClock ?_,
      rfl, ht.heap_shade handler, rfl, rfl, rfl⟩
    simp [Clock.start]
  | setClock now =>
    exact ⟨ρ, ht.withClock (Machine.handler_pinned ht.clock now), rfl, rfl, rfl, rfl, rfl⟩

end Tidy

theorem Building.tidy (hb : Building config m) (hr : sealImage m = .ok () m')
    (hc : config.strategy ≠ .incremental) :
    ∃ ρ, Tidy ρ m' ∧ (∀ i, (ρ i).isBasic = true) ∧ m'.stats = {} := by
  obtain ⟨m₀, ρ, hm₀, hbuilt, hst, hf, hstats⟩ := hb.built
  obtain ⟨hb', hcol, hst', hstats'⟩ := (hbuilt.ensures_seal (E := fun _ => True)).ok hr
  obtain ⟨hgc, hclock, hstats₀, hcolors⟩ := new_eq hm₀
  obtain ⟨gc, hms⟩ : ∃ gc, m₀.collector = .markSweep gc := by
    rw [hgc]
    unfold Collector.ofConfig
    split
    · exact ⟨_, rfl⟩
    · exact ⟨_, rfl⟩
    · next h => exact absurd h hc
  refine ⟨_, ⟨hb'.settled, hb'.ne_condemned, ?_, ⟨gc, ?_⟩, ?_⟩, hb'.basic, ?_⟩
  · rw [hcol]
    exact hf.none (hcolors (by rw [hms]; rfl))
  · rw [hst'.collector, hst.collector, hms]
  · rw [hst'.handler, hst.handler, hclock]
    simp
  · rw [hstats', hstats, hstats₀]

theorem Running.tidy (hr : Running config m) (hc : config.strategy ≠ .incremental) :
    ∃ ρ, Tidy ρ m := by
  induction hr with
  | start hb hr =>
    obtain ⟨ρ, ht, -⟩ := hb.tidy hr hc
    exact ⟨ρ, ht⟩
  | command c hr hw hrun ih =>
    obtain ⟨ρ, ht⟩ := ih
    obtain ⟨ρ', ht', -⟩ := (ht.ensures_command c hw).ok hrun
    exact ⟨ρ', ht'⟩
  | refused c hr hw hrun hf ih =>
    obtain ⟨ρ, ht⟩ := ih
    have hsame := (ht.ensures_command c hw).error hrun hf
    exact ⟨ρ, hsame ▸ ht⟩

end ActorMachine
