import ActorMachine.Machine.Transaction
import ActorMachine.Proofs.Queue
/-! Who has charge of each cell. Every cell of a machine has one role: it is free, or data that
programs may share, or an actor, or it belongs to one queue, one thread or one open transaction
alone. -/

namespace ActorMachine

inductive Role
  /-- Reserved or never handed out. -/
  | outside
  /-- Free below the permanent boundary, and never handed out again. -/
  | lost
  | free
  /-- In the hands of an action under way. -/
  | held
  /-- About to be swept. -/
  | condemned
  | data
  | queued
  | thread (event actor : Nat)
  /-- A thread whose transaction has ended. -/
  | spent
  | operand (thread : Nat)
  | handled (thread actor : Nat)
  | staged (event : Nat)
  | idle
  | busy (thread : Nat)
  | stopped
  /-- An actor between idle and busy. -/
  | transit
  | pending (actor : Nat)
  deriving DecidableEq

namespace Role

def isPlain : Role → Bool
  | outside | lost | free | held | condemned | data | queued | idle | transit => true
  | _ => false

def isLoose : Role → Bool
  | queued => false
  | r => r.isPlain

def isLinked : Role → Bool
  | thread .. | handled .. | busy _ => true
  | _ => false

def isThread : Role → Bool
  | thread .. => true
  | _ => false

def inLine : Role → Bool
  | thread .. | spent => true
  | _ => false

def isHandled : Role → Bool
  | handled .. => true
  | _ => false

def isOpen : Role → Bool
  | busy _ | stopped => true
  | _ => false

def isActor : Role → Bool
  | idle | busy _ | stopped | transit => true
  | _ => false

def inUse : Role → Bool
  | outside | lost | free => false
  | _ => true

end Role

abbrev Roles := Nat → Role

def Roles.set (ρ : Roles) (i : Nat) (r : Role) : Roles := fun j => if j = i then r else ρ j

@[simp] theorem Roles.set_self (ρ : Roles) (i : Nat) (r : Role) : ρ.set i r i = r := if_pos rfl

theorem Roles.set_ne (ρ : Roles) {i j : Nat} (r : Role) (hj : j ≠ i) :
    ρ.set i r j = ρ j := if_neg hj

abbrev Roles.condemned (ρ : Roles) (i : Nat) : Prop := ρ i = .condemned

def Safe (ρ : Roles) : Word → Prop
  | .fixnum _ => True
  | .ref i => i < Word.reserved ∨ ρ i = .data
  | .cap i => ρ i ≠ .condemned

/-- More words are safe under the second roles. -/
structure Grows (ρ ρ' : Roles) : Prop where
  data : ∀ i, ρ i = .data → ρ' i = .data
  condemned : ∀ i, ρ' i = .condemned → ρ i = .condemned

def Placed (h : Heap) (i : Nat) : Role → Prop
  | .outside => i < Word.reserved ∨ h.top ≤ i
  | .lost => Word.reserved ≤ i ∧ i < h.permanent
  | .data | .idle | .busy _ | .stopped | .transit => Word.reserved ≤ i ∧ i < h.top
  | _ => h.permanent ≤ i ∧ i < h.top

def Suits (ρ : Roles) (c : Cell) : Role → Prop
  | .outside => c.t ≠ .actorT
  | .lost | .free => c.t = .freeT
  | .condemned => c.t ≠ .freeT
  | .held => c.t ≠ .freeT ∧ c.t ≠ .actorT
  | .data => c.t ≠ .freeT ∧ c.t ≠ .actorT ∧ ∀ w ∈ c.words, Safe ρ w
  | .queued | .pending _ => c.t = .eventT ∧ c.x.isCap ∧ Safe ρ c.x ∧ Safe ρ c.y
  | .thread e _ => (∃ j, c.t = .ref j ∧ ρ j = .data) ∧ c.y = .ref e
  | .spent => ∃ j, c.t = .ref j ∧ ρ j = .data
  | .operand _ | .staged _ => c.t = .pairT ∧ Safe ρ c.x ∧ c.z = .undefined
  | .handled _ a => c.t = .eventT ∧ c.x = .cap a ∧ Safe ρ c.y
  | .idle => c.t = .actorT ∧ Safe ρ c.x ∧ Safe ρ c.y ∧ c.z = .undefined
  | .busy _ | .stopped | .transit => c.t = .actorT ∧ Safe ρ c.x ∧ Safe ρ c.y

def Fits (ρ : Roles) (h : Heap) (i : Nat) (r : Role) : Prop := Placed h i r ∧ Suits ρ (h.cellAt i) r

/-- Roles that name each other do so both ways. -/
structure Coherent (ρ : Roles) : Prop where
  thread : ∀ t e a, ρ t = .thread e a → ρ e = .handled t a ∧ ρ a = .busy t
  handled : ∀ e t a, ρ e = .handled t a → ρ t = .thread e a
  busy : ∀ a t, ρ a = .busy t → ∃ e, ρ t = .thread e a

/-- The lists that belong to one cell: the stack of a thread, what an event has staged, and what an
actor has sent. -/
inductive Bundle
  | stack | become | sends

namespace Bundle

def start : Bundle → Field
  | stack => .x
  | become | sends => .z

def link : Bundle → Field
  | stack | become => .y
  | sends => .z

def owner : Bundle → Role → Bool
  | stack => Role.isThread
  | become => Role.isHandled
  | sends => Role.isOpen

def member (o : Nat) : Bundle → Role
  | stack => .operand o
  | become => .staged o
  | sends => .pending o

end Bundle

def Listed (ρ : Roles) (h : Heap) (k : Bundle) (o : Nat) : Prop :=
  ∃ l, h.Chain k.link ((h.cellAt o).get k.start) l ∧ ∀ i, i ∈ l ↔ ρ i = k.member o

/-- Heap and queues are laid out as the roles say. -/
structure Layout (ρ : Roles) (h : Heap) (events threads : Queue) : Prop where
  sound : h.Sound
  literals : ∀ i < Word.reserved, h.cellAt i = Cell.initial i
  fits : ∀ i, Fits ρ h i (ρ i)
  coherent : Coherent ρ
  owned : ∀ (k : Bundle) o i, ρ i = k.member o → k.owner (ρ o) = true
  listed : ∀ (k : Bundle) o, k.owner (ρ o) = true → Listed ρ h k o
  queue : ∃ l, events.Holds h l ∧ ∀ i, i ∈ l ↔ ρ i = .queued
  line : ∃ l, threads.Holds h l ∧ ∀ i, i ∈ l ↔ (ρ i).inLine = true

abbrev Machine.Arranged (m : Machine) (ρ : Roles) : Prop := Layout ρ m.heap m.events m.threads

section Safe

variable {ρ ρ' ρ'' : Roles}

theorem Grows.refl (ρ : Roles) : Grows ρ ρ := ⟨fun _ hi => hi, fun _ hi => hi⟩

theorem Grows.trans (h₁ : Grows ρ ρ') (h₂ : Grows ρ' ρ'') : Grows ρ ρ'' :=
  ⟨fun i hi => h₂.data i (h₁.data i hi), fun i hi => h₁.condemned i (h₂.condemned i hi)⟩

theorem Safe.mono {w : Word} (hg : Grows ρ ρ') (hw : Safe ρ w) : Safe ρ' w := by
  cases w with
  | fixnum n => trivial
  | ref i => exact hw.imp_right (hg.data i)
  | cap i => exact fun hi => hw (hg.condemned i hi)

theorem Safe.literal {i : Nat} (hi : i < Word.reserved) : Safe ρ (.ref i) := .inl hi

@[simp] theorem safe_undefined : Safe ρ .undefined := .literal (by decide)

@[simp] theorem safe_nil : Safe ρ .nil := .literal (by decide)

@[simp] theorem safe_fix (n : Int) : Safe ρ (.fix n) := trivial

@[simp] theorem safe_ofBool (b : Bool) : Safe ρ (.ofBool b) := by
  cases b <;> exact .literal (by decide)

theorem Suits.words {c : Cell} {r : Role} (hw : ∀ w ∈ c.words, Safe ρ w → Safe ρ' w)
    (hd : ∀ j, ρ j = .data → .ref j ∈ c.words → ρ' j = .data) (hs : Suits ρ c r) :
    Suits ρ' c r := by
  have hx := hw c.x (by simp [Cell.words])
  have hy := hw c.y (by simp [Cell.words])
  have ht : ∀ {j : Nat}, c.t = .ref j → .ref j ∈ c.words := fun h => h ▸ by simp [Cell.words]
  cases r with
  | data => exact ⟨hs.1, hs.2.1, fun w hm => hw w hm (hs.2.2 w hm)⟩
  | queued | pending => exact ⟨hs.1, hs.2.1, hx hs.2.2.1, hy hs.2.2.2⟩
  | thread =>
    obtain ⟨⟨j, hj, hdata⟩, he⟩ := hs
    exact ⟨⟨j, hj, hd j hdata (ht hj)⟩, he⟩
  | spent =>
    obtain ⟨j, hj, hdata⟩ := hs
    exact ⟨j, hj, hd j hdata (ht hj)⟩
  | operand | staged => exact ⟨hs.1, hx hs.2.1, hs.2.2⟩
  | handled => exact ⟨hs.1, hs.2.1, hy hs.2.2⟩
  | idle => exact ⟨hs.1, hx hs.2.1, hy hs.2.2.1, hs.2.2.2⟩
  | busy | stopped | transit => exact ⟨hs.1, hx hs.2.1, hy hs.2.2⟩
  | _ => exact hs

theorem Suits.mono {c : Cell} {r : Role} (hg : Grows ρ ρ') (hs : Suits ρ c r) : Suits ρ' c r :=
  hs.words (fun _ _ hw => hw.mono hg) fun j hj _ => hg.data j hj

end Safe

namespace Layout

variable {ρ : Roles} {h : Heap} {events threads : Queue} {i : Nat}

variable (hl : Layout ρ h events threads)

include hl

theorem reserved_le_permanent : Word.reserved ≤ h.permanent := by
  obtain ⟨l, hf⟩ := hl.sound.allocator
  exact hf.reserved_le

theorem top_le : h.top ≤ h.capacity := by
  obtain ⟨l, hf⟩ := hl.sound.allocator
  exact hf.top_le

theorem permanent_le : h.permanent ≤ h.top := by
  obtain ⟨l, hf⟩ := hl.sound.allocator
  exact hf.permanent_le

theorem outside_iff : ρ i = .outside ↔ i < Word.reserved ∨ h.top ≤ i := by
  have hr := hl.reserved_le_permanent
  have hp := hl.permanent_le
  have hf := (hl.fits i).1
  constructor
  · intro hi
    rw [hi] at hf
    exact hf
  · intro hi
    cases hρ : ρ i <;> simp only [hρ, Placed] at hf <;> first | rfl | omega

theorem bounds (hi : ρ i ≠ .outside) : Word.reserved ≤ i ∧ i < h.top := by
  rw [ne_eq, hl.outside_iff] at hi
  omega

theorem avoids {w : Word} (hw : Safe ρ w) : w.Avoids ρ.condemned := by
  cases w with
  | fixnum n => trivial
  | cap j => exact hw
  | ref j =>
    intro hc
    obtain hj | hj := hw
    · rw [Roles.condemned, hl.outside_iff.2 (.inl hj)] at hc
      cases hc
    · rw [Roles.condemned, hj] at hc
      cases hc

theorem code (hi : (ρ i).inLine = true) : ∃ j, (h.cellAt i).t = .ref j ∧ ρ j = .data := by
  have hs := (hl.fits i).2
  cases hρ : ρ i with
  | thread =>
    rw [hρ] at hs
    exact hs.1
  | spent =>
    rw [hρ] at hs
    exact hs
  | _ =>
    rw [hρ] at hi
    cases hi

theorem not_inLine {j : Nat} (hj : (h.cellAt i).t = .ref j) (hr : j < Word.reserved) :
    (ρ i).inLine = false := by
  cases hi : (ρ i).inLine with
  | false => rfl
  | true =>
    obtain ⟨k, hk, hd⟩ := hl.code hi
    rw [hk] at hj
    cases hj
    have := (hl.bounds (i := j) (by rw [hd]; decide)).1
    omega

theorem isFree_iff (hi : ρ i ≠ .outside) : (h.cellAt i).t = .freeT ↔ ρ i = .free ∨ ρ i = .lost := by
  have hs := (hl.fits i).2
  constructor
  · intro hc
    have hn := hl.not_inLine hc (by decide)
    cases hρ : ρ i with
    | free => exact .inl rfl
    | lost => exact .inr rfl
    | outside => exact absurd hρ hi
    | condemned =>
      rw [hρ] at hs
      exact absurd hc hs
    | held | data =>
      rw [hρ] at hs
      exact absurd hc hs.1
    | thread | spent =>
      rw [hρ] at hn
      cases hn
    | _ =>
      rw [hρ] at hs
      exact absurd (hc.symm.trans hs.1) (by decide)
  · rintro (hρ | hρ)
    all_goals
      rw [hρ] at hs
      exact hs

theorem inUse (hi : (ρ i).inUse = true) :
    Word.reserved ≤ i ∧ i < h.top ∧ (h.cellAt i).t ≠ .freeT := by
  have hout : ρ i ≠ .outside := by
    intro e
    rw [e] at hi
    cases hi
  refine ⟨(hl.bounds hout).1, (hl.bounds hout).2, ?_⟩
  rw [ne_eq, hl.isFree_iff hout]
  rintro (e | e) <;> rw [e] at hi <;> cases hi

theorem inUse_of_cell (hr : Word.reserved ≤ i) (ht : i < h.top)
    (hf : (h.cellAt i).t ≠ .freeT) : (ρ i).inUse = true := by
  have hout : ρ i ≠ .outside := by
    rw [ne_eq, hl.outside_iff]
    omega
  rw [ne_eq, hl.isFree_iff hout] at hf
  cases hρ : ρ i with
  | outside => exact absurd hρ hout
  | free | lost => simp [hρ] at hf
  | _ => rfl

theorem isActor_iff (hi : ρ i ≠ .outside) (hn : ρ i ≠ .condemned) :
    (h.cellAt i).t = .actorT ↔ (ρ i).isActor = true := by
  have hs := (hl.fits i).2
  constructor
  · intro hc
    have ht := hl.not_inLine hc (by decide)
    cases hρ : ρ i with
    | outside => exact absurd hρ hi
    | condemned => exact absurd hρ hn
    | idle | busy | stopped | transit => rfl
    | held | data =>
      rw [hρ] at hs
      first | exact absurd hc hs.2 | exact absurd hc hs.2.1
    | thread | spent =>
      rw [hρ] at ht
      cases ht
    | free | lost =>
      rw [hρ] at hs
      exact absurd (hc.symm.trans hs) (by decide)
    | _ =>
      rw [hρ] at hs
      exact absurd (hc.symm.trans hs.1) (by decide)
  · intro ha
    cases hρ : ρ i with
    | idle | busy | stopped | transit =>
      rw [hρ] at hs
      exact hs.1
    | _ =>
      rw [hρ] at ha
      cases ha

theorem isActor_of_type (hn : ρ i ≠ .condemned) (ht : (h.cellAt i).t = .actorT) :
    (ρ i).isActor = true := by
  by_cases hout : ρ i = .outside
  · have hs := (hl.fits i).2
    rw [hout] at hs
    exact absurd ht hs
  · exact (hl.isActor_iff hout hn).1 ht

theorem isActor_cap_iff (hn : ρ i ≠ .condemned) :
    h.isActor (.cap i) = true ↔ (ρ i).isActor = true := by
  by_cases hout : ρ i = .outside
  · rw [hout]
    refine iff_of_false (fun ha => ?_) (by decide)
    obtain ⟨j, hj, hlt, ht⟩ := Heap.isActor_iff.1 ha
    cases hj
    have hr : i < Word.reserved := (hl.outside_iff.1 hout).resolve_right (by omega)
    rw [hl.literals i hr] at ht
    have : ∀ i < Word.reserved, (Cell.initial i).t ≠ .actorT := by decide
    exact this i hr ht
  · rw [← hl.isActor_iff hout hn, Heap.isActor_iff]
    constructor
    · rintro ⟨j, hj, -, ht⟩
      cases hj
      exact ht
    · exact fun ht => ⟨i, rfl, (hl.bounds hout).2, ht⟩

end Layout

end ActorMachine
