import ActorMachine.Proofs.Host

namespace ActorMachine

variable {ρ : Roles} {h : Heap} {m : Machine} {config : Config} {events threads : Queue} {i j : Nat}
  {w : Word}
variable {l : List Nat} {r : Role}

def Role.isLive : Role → Bool
  | outside | lost | free | condemned => false
  | _ => true

def Sturdy (ρ : Roles) : Word → Prop
  | .fixnum _ => True
  | .ref i => i < Word.reserved ∨ (ρ i).isLive = true
  | .cap i => ρ i ≠ .condemned

theorem Role.inUse_of_isLive (hr : r.isLive = true) : r.inUse = true := by
  cases r <;> first | rfl | cases hr

theorem Role.isLive_of_inLine (hr : r.inLine = true) : r.isLive = true := by
  cases r <;> first | rfl | cases hr

theorem Role.isLive_of_inUse (hr : r.inUse = true) (hc : r ≠ .condemned) : r.isLive = true := by
  cases r <;> first | rfl | exact absurd rfl hc | cases hr

theorem Safe.sturdy (hw : Safe ρ w) : Sturdy ρ w := by
  cases w with
  | fixnum n => trivial
  | ref i => exact hw.imp_right fun hd => by rw [hd]; rfl
  | cap i => exact hw

theorem Sturdy.literal (hi : i < Word.reserved) : Sturdy ρ (.ref i) := .inl hi

theorem Heap.Chain.sturdy {f : Field} (hc : h.Chain f w l) (hl : ∀ i ∈ l, (ρ i).isLive = true) :
    Sturdy ρ w := by
  cases l with
  | nil =>
    rw [show w = .nil from hc]
    exact .literal (by decide)
  | cons i l =>
    rw [hc.1]
    exact .inr (hl i List.mem_cons_self)

theorem Heap.Chain.sturdy_link {f : Field} (hc : h.Chain f w l)
    (hl : ∀ i ∈ l, (ρ i).isLive = true) (hi : i ∈ l) : Sturdy ρ ((h.cellAt i).get f) := by
  obtain e | ⟨j, hj, e⟩ := hc.link hi
  · rw [e]
    exact .literal (by decide)
  · rw [e]
    exact .inr (hl j hj)

namespace Layout

variable (hl : Layout ρ h events threads)

include hl

theorem sturdy_start {k : Bundle} (hi : k.owner (ρ i) = true) :
    Sturdy ρ ((h.cellAt i).get k.start) := by
  obtain ⟨l, hc, hm⟩ := hl.listed k i hi
  refine hc.sturdy fun j hj => ?_
  rw [(hm j).1 hj]
  cases k <;> rfl

theorem sturdy_member {k : Bundle} {o : Nat} (hi : ρ i = k.member o) :
    Sturdy ρ ((h.cellAt i).get k.link) := by
  obtain ⟨l, hc, hm⟩ := hl.listed k o (hl.owned k o i hi)
  refine hc.sturdy_link (fun j hj => ?_) ((hm i).2 hi)
  rw [(hm j).1 hj]
  cases k <;> rfl

theorem sturdy_queued (hi : ρ i = .queued) : Sturdy ρ (h.cellAt i).z := by
  obtain ⟨l, hq, hm⟩ := hl.queue
  refine hq.1.sturdy_link (fun j hj => ?_) ((hm i).2 hi)
  rw [(hm j).1 hj]
  rfl

theorem sturdy_thread (hi : (ρ i).inLine = true) : Sturdy ρ (h.cellAt i).z := by
  obtain ⟨l, hq, hm⟩ := hl.line
  exact hq.1.sturdy_link (fun j hj => Role.isLive_of_inLine ((hm j).1 hj)) ((hm i).2 hi)

theorem sturdy (hi : (ρ i).isLive = true) (hb : (ρ i).isBrief = false) :
    ∀ w ∈ (h.cellAt i).words, Sturdy ρ w := by
  have hs := (hl.fits i).2
  have hlit : ∀ {w : Word} {j : Nat}, w = .ref j → j < Word.reserved → Sturdy ρ w := by
    rintro w j rfl hj
    exact .literal hj
  suffices hfour : Sturdy ρ (h.cellAt i).t ∧ Sturdy ρ (h.cellAt i).x ∧ Sturdy ρ (h.cellAt i).y ∧
      Sturdy ρ (h.cellAt i).z by
    intro w hw
    simp only [Cell.words, List.mem_cons, List.not_mem_nil, or_false] at hw
    obtain rfl | rfl | rfl | rfl := hw
    exacts [hfour.1, hfour.2.1, hfour.2.2.1, hfour.2.2.2]
  cases hr : ρ i with
  | outside | lost | free | condemned =>
    rw [hr] at hi
    cases hi
  | held | spent | transit =>
    rw [hr] at hb
    cases hb
  | data =>
    rw [hr] at hs
    have hw : ∀ w ∈ (h.cellAt i).words, Sturdy ρ w := fun w hw => (hs.2.2 w hw).sturdy
    exact Cell.forall_words.1 hw
  | queued =>
    rw [hr] at hs
    exact ⟨hlit hs.1 (by decide), hs.2.2.1.sturdy, hs.2.2.2.sturdy, hl.sturdy_queued hr⟩
  | pending a =>
    rw [hr] at hs
    exact ⟨hlit hs.1 (by decide), hs.2.2.1.sturdy, hs.2.2.2.sturdy,
      hl.sturdy_member (k := .sends) hr⟩
  | thread e a =>
    rw [hr] at hs
    obtain ⟨⟨j, hj, hd⟩, he⟩ := hs
    refine ⟨?_, hl.sturdy_start (k := .stack) (by rw [hr]; rfl), ?_,
      hl.sturdy_thread (by rw [hr]; rfl)⟩
    · rw [hj]
      exact Safe.sturdy (.inr hd)
    · rw [he]
      refine .inr ?_
      rw [(hl.coherent.thread i e a hr).1]
      rfl
  | operand t =>
    rw [hr] at hs
    exact ⟨hlit hs.1 (by decide), hs.2.1.sturdy, hl.sturdy_member (k := .stack) hr,
      hlit hs.2.2 (by decide)⟩
  | staged e =>
    rw [hr] at hs
    exact ⟨hlit hs.1 (by decide), hs.2.1.sturdy, hl.sturdy_member (k := .become) hr,
      hlit hs.2.2 (by decide)⟩
  | handled t a =>
    rw [hr] at hs
    refine ⟨hlit hs.1 (by decide), ?_, hs.2.2.sturdy,
      hl.sturdy_start (k := .become) (by rw [hr]; rfl)⟩
    rw [hs.2.1]
    intro ha
    rw [(hl.coherent.thread t i a (hl.coherent.handled i t a hr)).2] at ha
    cases ha
  | idle =>
    rw [hr] at hs
    exact ⟨hlit hs.1 (by decide), hs.2.1.sturdy, hs.2.2.1.sturdy, hlit hs.2.2.2 (by decide)⟩
  | busy | stopped =>
    rw [hr] at hs
    exact ⟨hlit hs.1 (by decide), hs.2.1.sturdy, hs.2.2.sturdy,
      hl.sturdy_start (k := .sends) (by rw [hr]; rfl)⟩

theorem isLive_of_leads (hw : Sturdy ρ w) (hj : h.Leads w j) : (ρ j).isLive = true := by
  obtain ⟨rfl | rfl, hres, htop, hfree⟩ := hj
  · exact hw.resolve_left (Nat.not_lt.2 hres)
  · exact Role.isLive_of_inUse (hl.inUse_of_cell hres htop hfree) hw

theorem inUse_of_sturdy (hw : Sturdy ρ (.ref j)) : j < h.top ∧ (h.cellAt j).t ≠ .freeT := by
  obtain hj | hj := hw
  · have hlit : ∀ j < Word.reserved, (Cell.initial j).t ≠ .freeT := by decide
    have := hl.reserved_le_permanent
    have := hl.permanent_le
    refine ⟨by omega, ?_⟩
    rw [hl.literals j hj]
    exact hlit j hj
  · exact (hl.inUse (Role.inUse_of_isLive hj)).2

end Layout

namespace Settled

variable (hs : Settled [] ρ m)

include hs

theorem not_brief (i : Nat) : (ρ i).isBrief = false := by
  cases hb : (ρ i).isBrief with
  | false => rfl
  | true => exact absurd (hs.brief i hb) List.not_mem_nil

theorem sturdy_roots (hw : w ∈ m.roots.words) : Sturdy ρ w := by
  have hl := hs.orderly.layout
  have hkept : ∀ {w}, w ∈ m.kept → Sturdy ρ w := fun hw => (hs.orderly.kept _ hw).sturdy
  simp only [Machine.kept, List.mem_append] at hkept
  obtain hw | rfl | rfl | hw := Machine.mem_roots.1 hw
  · exact hkept (.inl (.inl hw))
  · obtain ⟨l, hq, hm⟩ := hl.queue
    refine hq.1.sturdy fun i hi => ?_
    rw [(hm i).1 hi]
    rfl
  · obtain ⟨l, hq, hm⟩ := hl.line
    exact hq.1.sturdy fun i hi => Role.isLive_of_inLine ((hm i).1 hi)
  · exact hkept (.inl (.inr hw))

theorem isLive_of_reach (hr : m.heap.Reach m.roots i) : (ρ i).isLive = true := by
  have hl := hs.orderly.layout
  refine hr.minimal (fun w hw j => hl.isLive_of_leads (hs.sturdy_roots hw))
    (fun j hres hperm hfree => ?_)
    fun j hj w hw k => hl.isLive_of_leads (hl.sturdy hj (hs.not_brief j) w hw)
  have hp := (hl.fits j).1
  have htop := Nat.lt_of_lt_of_le hperm hl.permanent_le
  refine Role.isLive_of_inUse (hl.inUse_of_cell hres htop hfree) fun hc => ?_
  rw [hc] at hp
  exact absurd hp.1 (Nat.not_le.2 hperm)

end Settled

inductive Part
  | free
  | events
  | threads
  | stack (thread : Nat)
  | event (thread : Nat)
  | become (thread : Nat)
  | sends (actor : Nat)

namespace Part

def Present (m : Machine) : Part → Prop
  | .free | .events | .threads => True
  | .stack t | .event t | .become t => ∃ l, m.heap.Chain .z m.threads.head l ∧ t ∈ l
  | .sends a => a < m.heap.top ∧ (m.heap.cellAt a).t = .actorT ∧ (m.heap.cellAt a).z ≠ .undefined

def Lists (m : Machine) : Part → List Nat → Prop
  | .free, l => m.heap.Chain .z m.heap.freeHead l
  | .events, l => m.heap.Chain .z m.events.head l
  | .threads, l => m.heap.Chain .z m.threads.head l
  | .stack t, l => m.heap.Chain .y (m.heap.cellAt t).x l
  | .event t, l => ∃ e, (m.heap.cellAt t).y = .ref e ∧ l = [e]
  | .become t, l => ∃ e, (m.heap.cellAt t).y = .ref e ∧ m.heap.Chain .y (m.heap.cellAt e).z l
  | .sends a, l => m.heap.Chain .z (m.heap.cellAt a).z l

end Part

def Roles.part? (ρ : Roles) (i : Nat) : Option Part :=
  match ρ i with
  | .free => some .free
  | .queued => some .events
  | .thread .. => some .threads
  | .operand t => some (.stack t)
  | .handled t _ => some (.event t)
  | .staged e =>
    match ρ e with
    | .handled t _ => some (.become t)
    | _ => none
  | .pending a => some (.sends a)
  | _ => none

namespace Settled

variable (hs : Settled [] ρ m)

include hs

theorem thread_of_line {t : Nat} (hc : m.heap.Chain .z m.threads.head l) (ht : t ∈ l) :
    ∃ e a, ρ t = .thread e a := by
  obtain ⟨k, hq, hm⟩ := hs.orderly.layout.line
  rw [hc.unique hq.1] at ht
  have hline := (hm t).1 ht
  have hb := hs.not_brief t
  cases hr : ρ t with
  | thread e a => exact ⟨e, a, rfl⟩
  | spent =>
    rw [hr] at hb
    cases hb
  | _ =>
    rw [hr] at hline
    cases hline

theorem isOpen_of_marker {a : Nat} (hn : ρ a ≠ .condemned) (hlt : a < m.heap.top)
    (ht : (m.heap.cellAt a).t = .actorT) (hz : (m.heap.cellAt a).z ≠ .undefined) :
    (ρ a).isOpen = true := by
  have hl := hs.orderly.layout
  have hrole :=
    hl.role_of_isActor (a := a) (by simp [Heap.isActor, Word.isCap, Heap.hasType_iff, ht, hlt]) hn
  have hsuit := (hl.fits a).2
  have hb := hs.not_brief a
  cases hr : ρ a with
  | busy | stopped => rfl
  | idle =>
    rw [hr] at hsuit
    exact absurd hsuit.2.2.2 hz
  | transit =>
    rw [hr] at hb
    cases hb
  | _ =>
    rw [hr] at hrole
    cases hrole

theorem lists (hc : ∀ i, ρ i ≠ .condemned) {p : Part} (hp : p.Present m) :
    ∃ l, p.Lists m l ∧ ∀ i ∈ l, ρ.part? i = some p := by
  have hl := hs.orderly.layout
  cases p with
  | free =>
    obtain ⟨l, hf⟩ := hl.sound.allocator
    refine ⟨l, hf.chain, fun i hi => ?_⟩
    have hr := hl.reserved_le_permanent
    obtain ⟨hlow, htop, ht⟩ := (hf.mem_iff i).1 hi
    have hout : ρ i ≠ .outside := by
      rw [ne_eq, hl.outside_iff]
      omega
    obtain hfree | hlost := (hl.isFree_iff hout).1 ht
    · simp only [Roles.part?, hfree]
    · have hplace := (hl.fits i).1
      rw [hlost] at hplace
      exact absurd hplace.2 (Nat.not_lt.2 hlow)
  | events =>
    obtain ⟨l, hq, hm⟩ := hl.queue
    exact ⟨l, hq.1, fun i hi => by simp only [Roles.part?, (hm i).1 hi]⟩
  | threads =>
    obtain ⟨l, hq, hm⟩ := hl.line
    refine ⟨l, hq.1, fun i hi => ?_⟩
    obtain ⟨e, a, hr⟩ := hs.thread_of_line hq.1 hi
    simp only [Roles.part?, hr]
  | stack t =>
    obtain ⟨k, hk, ht⟩ := hp
    obtain ⟨e, a, hr⟩ := hs.thread_of_line hk ht
    obtain ⟨l, hc, hm⟩ := hl.listed .stack t (by rw [hr]; rfl)
    exact ⟨l, hc, fun i hi => by simp only [Roles.part?, (hm i).1 hi, Bundle.member]⟩
  | event t =>
    obtain ⟨k, hk, ht⟩ := hp
    obtain ⟨e, a, hr⟩ := hs.thread_of_line hk ht
    have hsuit := (hl.fits t).2
    rw [hr] at hsuit
    refine ⟨[e], ⟨e, hsuit.2, rfl⟩, fun i hi => ?_⟩
    rw [List.mem_singleton.1 hi]
    simp only [Roles.part?, (hl.coherent.thread t e a hr).1]
  | become t =>
    obtain ⟨k, hk, ht⟩ := hp
    obtain ⟨e, a, hr⟩ := hs.thread_of_line hk ht
    have hsuit := (hl.fits t).2
    rw [hr] at hsuit
    have he := (hl.coherent.thread t e a hr).1
    obtain ⟨l, hc, hm⟩ := hl.listed .become e (by rw [he]; rfl)
    exact ⟨l, ⟨e, hsuit.2, hc⟩, fun i hi => by simp only [Roles.part?, (hm i).1 hi,
      Bundle.member, he]⟩
  | sends a =>
    obtain ⟨l, hchain, hm⟩ := hl.listed .sends a (hs.isOpen_of_marker (hc a) hp.1 hp.2.1 hp.2.2)
    exact ⟨l, hchain, fun i hi => by simp only [Roles.part?, (hm i).1 hi, Bundle.member]⟩

end Settled

theorem Part.Lists.unique {p : Part} {k : List Nat} (hl : p.Lists m l) (hk : p.Lists m k) :
    l = k := by
  cases p with
  | free | events | threads | stack | sends => exact Heap.Chain.unique hl hk
  | event t =>
    obtain ⟨e, he, rfl⟩ := hl
    obtain ⟨e', he', rfl⟩ := hk
    rw [he] at he'
    cases he'
    rfl
  | become t =>
    obtain ⟨e, he, hl⟩ := hl
    obtain ⟨e', he', hk⟩ := hk
    rw [he] at he'
    cases he'
    exact hl.unique hk

def Machine.Refers (m : Machine) (j : Nat) : Prop :=
  .ref j ∈ m.roots.words ∨ ∃ i, m.heap.Reach m.roots i ∧ .ref j ∈ (m.heap.cellAt i).words

/-- Between rounds, every reference that can be found leads to a cell in use, and the lists of the
machine do not share a cell. -/
theorem Running.memory_safe (hr : Running config m) (hc : config.strategy ≠ .incremental) :
    (∀ j, m.Refers j → j < m.heap.top ∧ (m.heap.cellAt j).t ≠ .freeT) ∧
      (∀ p : Part, p.Present m → ∃ l, p.Lists m l) ∧
      ∀ (p q : Part) l k, p.Present m → q.Present m → p ≠ q → p.Lists m l → q.Lists m k →
        l.Disjoint k := by
  obtain ⟨ρ, ht⟩ := hr.tidy hc
  have hs := ht.settled
  have hl := hs.orderly.layout
  refine ⟨fun j hj => hl.inUse_of_sturdy ?_, fun p hp => ?_,
    fun p q l k hp hq hne hpl hqk i hil hik => ?_⟩
  · obtain hj | ⟨i, hi, hj⟩ := hj
    · exact hs.sturdy_roots hj
    · exact hl.sturdy (hs.isLive_of_reach hi) (hs.not_brief i) _ hj
  · obtain ⟨l, hp, -⟩ := hs.lists ht.clean hp
    exact ⟨l, hp⟩
  · obtain ⟨l', hl', hpo⟩ := hs.lists ht.clean hp
    obtain ⟨k', hk', hqo⟩ := hs.lists ht.clean hq
    rw [hpl.unique hl'] at hil
    rw [hqk.unique hk'] at hik
    have hpq := (hpo i hil).symm.trans (hqo i hik)
    exact hne (Option.some.inj hpq)

theorem Running.memory_safe_busy : ∃ m,
    Running { heapCapacity := 80 } m ∧ (Part.sends 20).Lists m [24] ∧
    (Part.become 23).Lists m [25] ∧
      Part.events.Lists m [22] ∧ [24].Disjoint [22] ∧ [24].Disjoint [25] := by
  -- An actor in the middle of a transaction: it has sent a message to itself and staged a
  -- behaviour, and another message is waiting for it.
  have hplay : (play { heapCapacity := 80 }
      [.block [.push (.fix 7), .my .self, .send 0, .my .beh, .beh 0, .push (.fix 8),
        .finish .commit], .actor (.ref 19) []]
      [.send (.cap 20) .nil, .send (.cap 20) .nil, .tick, .tick, .tick, .tick, .tick, .tick]).any
      (fun m => decide (20 < m.heap.top ∧ (m.heap.cellAt 20).t = .actorT ∧
        (m.heap.cellAt 20).z ≠ .undefined ∧
        m.heap.Chain .z m.threads.head [23] ∧ m.heap.Chain .z (m.heap.cellAt 20).z [24] ∧
        (m.heap.cellAt 23).y = .ref 21 ∧ m.heap.Chain .y (m.heap.cellAt 21).z [25] ∧
        m.heap.Chain .z m.events.head [22])) = true := by decide +kernel
  obtain ⟨m, hm, hfacts⟩ := (Option.any_eq_true _ _).1 hplay
  have hr := Running.of_play hm
  obtain ⟨hlt, ht, hz, hline, hsends, he, hbecome, hevents⟩ := of_decide_eq_true hfacts
  obtain ⟨-, -, hdisj⟩ := hr.memory_safe (by decide)
  exact ⟨m, hr, hsends, ⟨21, he, hbecome⟩, hevents,
    hdisj (.sends 20) .events _ _ ⟨hlt, ht, hz⟩ trivial (by simp) hsends hevents,
    hdisj (.sends 20) (.become 23) _ _ ⟨hlt, ht, hz⟩ ⟨_, hline, by simp⟩ (by simp) hsends ⟨21,
      he, hbecome⟩⟩

end ActorMachine
