import ActorMachine.Proofs.Capability
import ActorMachine.Proofs.Executable
import ActorMachine.Proofs.Spelling

namespace ActorMachine

open Machine

variable {S S' X : Nat → Prop} {ρ ρ' ρ'' : Roles} {h h' h'' : Heap} {m m' : Machine} {t e a i : Nat}
  {v w : Word}
  {events threads : Queue}
variable {α : Type} {ip : Word}

namespace Machine

variable {T : SymbolTable} {C : Console}

def Lettered (S : SymbolTable) (C : Console) (m : Machine) : Prop := m.symbols = S ∧ m.console = C

abbrev Aloof (S : SymbolTable) (C : Console) (act : MachineM α) : Prop :=
  Upholds (Lettered S C) act fun _ => True

theorem lettered : Shelters (.plain fun _ => True) (Lettered T C) :=
  shelters_letters fun hm hs hc => ⟨hs.trans hm.1, hc.trans hm.2⟩

theorem shelters_symbols : Shelters (.plain fun _ => True) (fun m => m.symbols = T) :=
  shelters_letters fun hm hs _ => hs.trans hm

theorem granted_plain : v.Granted fun _ => True := Word.granted_of_forall fun _ => trivial

theorem aloof_lift {act : HeapM α} : Aloof T C (liftM act : MachineM α) := by
  have hall := Heap.vouched_of_forall (C := fun _ => True) fun _ => trivial
  exact lettered.lift fun _ _ => .intro (fun _ h _ => ⟨hall h, trivial⟩) fun _ h _ => hall h

theorem Shelters.perform_aloof {I : Machine → Prop} {i : Instruction} {next : Word}
    (hI : Shelters (.plain fun _ => True) I) (hi : i.isAloof = true) :
    Upholds I (perform i next) fun _ => True := by
  by_cases hnew : ∃ n, i = .new n
  · obtain ⟨n, rfl⟩ := hnew
    have hcreate : Upholds I (createActor n) fun _ => True := fun m hm =>
      hI.createActor hm fun _ _ _ => ⟨trivial, trivial⟩
    exact hcreate.bind fun _ _ => .pure trivial
  · exact hI.perform granted_plain (fun n h => hnew ⟨n, h⟩) hi

end Machine

theorem MarkSweep.sanity_safepoint (gc : MarkSweep) (roots : Roots) (h : Heap) :
    (gc.safepoint roots h).2.heap.sanity = h.sanity := by
  unfold MarkSweep.safepoint
  split
  · rfl
  · dsimp only
    split
    · exact (sanity_markAndSweep _ roots true).trans (sanity_markAndSweep gc roots false)
    · exact sanity_markAndSweep gc roots false

theorem Incremental.durable_sanity (n : Nat) : Durable fun h => h.sanity = n :=
  ⟨fun _ => id, fun _ => id⟩

namespace Machine

abbrev Thrifty {α : Type} (n : Nat) (act : MachineM α) : Prop :=
  Upholds (fun m : Machine => m.heap.sanity = n) act fun _ => True

variable {n : Nat}

theorem thrifty_collectorStep : Thrifty n collectorStep := by
  rintro m rfl
  refine ⟨?_, trivial⟩
  change (m.collector.step m.lendHeap.roots m.heap).heap.sanity = _
  unfold Collector.step
  split
  · rfl
  · exact (Incremental.durable_sanity _).step _ rfl

theorem thrifty_safepoint : Thrifty n safepoint := by
  rintro m rfl
  have hs : (m.lendHeap.collector.safepoint m.lendHeap.roots m.heap).2.heap.sanity =
      m.heap.sanity := by
    unfold Collector.safepoint
    split
    · exact MarkSweep.sanity_safepoint _ _ m.heap
    · rfl
  unfold Leaves safepoint
  dsimp only
  cases hr : m.lendHeap.collector.safepoint m.lendHeap.roots m.heap with
  | mk report t =>
    rw [hr] at hs
    cases report with
    | none => exact ⟨hs, trivial⟩
    | some r => exact ⟨hs, trivial⟩

theorem thrifty_collect : Thrifty n collect := by
  rintro m rfl
  have hs : (m.lendHeap.collector.collect m.lendHeap.roots m.heap).2.heap.sanity =
      m.heap.sanity := by
    unfold Collector.collect
    split
    · exact MarkSweep.sanity_markAndSweep _ _ false
    · refine (Incremental.durable_sanity _).stepUntil _ _ _ ?_
      unfold Heap.enableColors
      split <;> rfl
  unfold Leaves collect
  dsimp only
  cases hr : m.lendHeap.collector.collect m.lendHeap.roots m.heap with
  | mk report t =>
    rw [hr] at hs
    cases report with
    | ok r => exact ⟨hs, trivial⟩
    | error f => exact hs

end Machine

def Machine.lexicon (m : Machine) : Lexicon := ⟨m.heap, m.symbols⟩

namespace Layout

variable (hl : Layout ρ h events threads)

include hl

theorem isPair_nil : h.isPair .nil = false := by
  refine Bool.eq_false_iff.2 fun hp => ?_
  obtain ⟨i, hi, -, ht⟩ := Heap.isPair_iff.1 hp
  cases hi
  rw [hl.literals 1 (by decide)] at ht
  exact absurd ht (by decide)

theorem live_of_safe (hw : Safe ρ (.ref i)) : h.Live i := by
  refine ⟨hl.lt_top_of_safe hw, ?_⟩
  obtain hi | hi := hw
  · rw [hl.literals i hi]
    exact (by decide : ∀ i < Word.reserved, (Cell.initial i).t ≠ .freeT) i hi
  · have hs := (hl.fits i).2
    rw [hi] at hs
    exact hs.1

theorem safe_of_touches (hv : Safe ρ v) (ht : h.Touches v i) : Safe ρ (.ref i) := by
  induction ht with
  | here => exact hv
  | car _ _ ih => exact ih (hl.safe_car hv)
  | cdr _ _ ih => exact ih (hl.safe_cdr hv)

theorem safe_of_walks (hv : Safe ρ v) (hw : h.Walks S v i) : Safe ρ (.ref i) := by
  induction hw with
  | here => exact hv
  | next _ _ _ ih => exact ih (hl.safe_cdr hv)

end Layout

namespace Orderly

theorem safe_get (ho : Orderly ρ m) (k : Fin 256) : Safe ρ (m.symbols.buckets.get k) :=
  safe_bucket ho (by simp [Vector.get])

theorem safe_entry {k : Fin 256} {p s : Nat} (ho : Orderly ρ m) (he : m.lexicon.Entry S k p s) :
    Safe ρ (.ref s) := by
  have hp := ho.layout.safe_of_walks (ho.safe_get k) he.walks
  have hcar := ho.layout.safe_car hp
  have hpair : m.heap.isPair (.ref p) = true := he.isPair
  have hx : (m.heap.cellAt p).x = .ref s := he.symbol
  rw [Heap.car_eq hpair, hx] at hcar
  exact hcar

theorem safe_uses (ho : Orderly ρ m) (hu : m.lexicon.Uses S i) : Safe ρ (.ref i) := by
  cases hu with
  | chain hw => exact ho.layout.safe_of_walks (ho.safe_get _) hw
  | symbol he => exact ho.safe_entry he
  | @spelling k p s _ he _ ht =>
    have hs := ho.safe_entry he
    have hy : Safe ρ ((m.heap.cellAt s).get .y) :=
      ho.layout.safe_field hs (Heap.isCell_iff.2 ⟨s, rfl, ho.layout.lt_top_of_safe hs⟩) .y
    exact ho.layout.safe_of_touches hy ht

theorem live_uses (ho : Orderly ρ m) (hu : m.lexicon.Uses S i) : m.heap.Live i :=
  ho.layout.live_of_safe (ho.safe_uses hu)

end Orderly

structure Conserves (X : Nat → Prop) (ρ : Roles) (h : Heap) (ρ' : Roles) (h' : Heap) : Prop where
  data : ∀ i, ρ i = .data → ρ' i = .data ∧ (h'.cellAt i = h.cellAt i ∨ X i)
  top_le : h.top ≤ h'.top
  sanity : h'.sanity = h.sanity

namespace Conserves

theorem of_frame {M : Nat → Role → Prop} (hf : Frame M ρ h ρ' h')
    (hm : ∀ i, ρ i = .data → ¬ M i .data) :
    Conserves X ρ h ρ' h' := by
  refine ⟨fun i hi => ?_, hf.top_le, hf.sanity⟩
  obtain ⟨hr, hcell⟩ := hf.same (i := i) (by rw [hi]; exact hm i hi)
  exact ⟨hr.trans hi, .inl hcell⟩

theorem of_tied {M : Nat → Role → Prop} (hf : Frame M ρ h ρ' h')
    (hm : ∀ i r, M i r → r.isTied = false) :
    Conserves X ρ h ρ' h' := of_frame hf fun i _ h => by cases hm i _ h

theorem of_posts (hp : Posts ρ m ρ' m') : Conserves X ρ m.heap ρ' m'.heap :=
  of_tied hp.keeps.frame fun _ _ => Posting.not_isTied

theorem of_builds (hb : Builds ρ m ρ' m') : Conserves X ρ m.heap ρ' m'.heap :=
  of_tied hb.frame fun _ _ => Role.not_isTied_of_isSpare

theorem of_relays (hr : Relays ρ m m') : Conserves X ρ m.heap ρ m'.heap :=
  of_tied hr.frame fun _ _ => Role.not_isTied_of_inLine

theorem of_begins (hb : Begins t e a ρ m ρ' m') : Conserves X ρ m.heap ρ' m'.heap := by
  have hfree : ∀ {i}, ρ i = .data → ¬ Posting i (ρ i) := fun hi h => by
    have := h.not_isTied
    rw [hi] at this
    cases this
  refine of_frame hb.frame fun i hi => ?_
  rintro (h | h | rfl | rfl | rfl | h)
  · cases h.not_isTied
  · cases h
  · exact hfree hi hb.free.1
  · exact hfree hi hb.free.2
  · cases hi.symm.trans hb.idle
  · cases h

theorem of_within (ho : Open t e a [] ρ m) (hw : Within t ρ m ρ' m') :
    Conserves X ρ m.heap ρ' m'.heap :=
  of_frame hw.frame fun i hi h => ho.not_mine (i := i) (by rw [hi]; rfl) (hi ▸ h)

theorem of_closed {en : Ending} (ho : Open t e a [] ρ m) (hc : Closed t e a ρ m en ρ' m') :
    Conserves X ρ m.heap ρ' m'.heap := by
  refine of_frame hc.ends.frame fun i hi => ?_
  rintro (h | rfl | h | h)
  · exact ho.not_staging hi h
  · cases hi.symm.trans ho.roles.2
  · cases h
  · cases h

theorem of_retires (hc : Closing t e [] ρ m) (hr : Retires t e ρ m ρ' m') :
    Conserves X ρ m.heap ρ' m'.heap := by
  refine of_frame hr.frame fun i hi => ?_
  rintro (rfl | rfl)
  · cases hi.symm.trans hc.thread
  · cases hi.symm.trans hc.event

theorem of_performs {code : Instruction} (ho : Open t e a [] ρ m)
    (hp : Performs t e a code ρ m ρ' m')
    (hx : ∀ f, code = .set f → ∀ v c s, m.Stacks t (v :: .ref c :: s) → X c) :
    Conserves X ρ m.heap ρ' m'.heap := by
  by_cases hset : ∃ f, code = .set f
  · obtain ⟨f, rfl⟩ := hset
    obtain ⟨next, ip, hrun⟩ := hp.run
    have hcells : Ensures (perform (.set f) next) m
        (fun _ m' => ∀ i, ρ i = .data → m'.heap.cellAt i = m.heap.cellAt i ∨
          ∃ v, m'.heap.cellAt i = (m.heap.cellAt i).set f v ∧
            ∀ s, m.Stacks t s → s = v :: .ref i :: s.tail.tail) fun _ => True :=
      ((ho.ensures_setWord f).mono (fun _ _ h => h) fun _ _ => trivial).bind
        fun _ _ ⟨_, _, _, h⟩ => ensures_pure.2 h
    refine ⟨fun i hi => ⟨hp.confined.frame.grows.data i hi, ?_⟩, hp.confined.frame.top_le,
      hp.confined.frame.sanity⟩
    refine (hcells.ok hrun i hi).imp_right ?_
    rintro ⟨v, -, hstack⟩
    obtain ⟨l, hpairs, -⟩ := ho.stacked
    have hlist : m.Stacks t _ := ⟨l, hpairs, rfl⟩
    exact hx f rfl v i _ (hstack _ hlist ▸ hlist)
  · refine of_frame hp.confined.frame fun i hi hm => ?_
    obtain rfl | ⟨h, -⟩ | ⟨-, rfl | h⟩ := ho.reach_tied (hi ▸ hm) (by rw [hi]; rfl)
    · cases hi.symm.trans ho.roles.2
    · exact hset h
    · cases hi.symm.trans ho.roles.1
    · cases hi.symm.trans h

end Conserves

namespace Lexicon.Collates

theorem conserved (hc : m.lexicon.Collates S) (ho : Orderly ρ m) (ho' : Orderly ρ' m')
    (hk : Conserves X ρ m.heap ρ' m'.heap) (hs : m'.symbols = m.symbols) (hS : ∀ i, S i → S' i)
    (hx : ∀ i, X i → m.lexicon.Uses S i → S' i) : m'.lexicon.Collates S' := by
  -- The table stays in order, apart from cells of it that are not as they were.
  unfold lexicon
  rw [hs]
  refine hc.of_same hS (fun i hu hi => ?_) hk.sanity
  have hsafe := ho.safe_uses hu
  have hlt := ho.layout.lt_top_of_safe hsafe
  refine ⟨?_, iff_of_true (Nat.lt_of_lt_of_le hlt hk.top_le) hlt⟩
  change m'.heap.cellAt i = m.heap.cellAt i
  obtain hi' | hi' := hsafe
  · rw [ho.layout.literals i hi', ho'.layout.literals i hi']
  · exact (hk.data i hi').2.resolve_right fun h => hi (hx i h hu)

theorem thins (hc : m.lexicon.Collates S) (ho : Orderly ρ m) (ho' : Orderly ρ' m')
    (ht : Thins ρ m.heap ρ' m'.heap) (hs : m'.symbols = m.symbols)
    (hn : m'.heap.sanity = m.heap.sanity) :
    m'.lexicon.Collates S := by
  -- What the table is made of afterwards is still data, and was so before.
  have hback : ∀ i, m'.lexicon.Uses S i → m'.heap.SameAt m.heap i := by
    intro i hu
    have hsafe := ho'.safe_uses hu
    obtain hi | hi := hsafe
    · have hlit : Safe ρ (.ref i) := .inl hi
      refine ⟨?_, iff_of_true (ho.layout.lt_top_of_safe hlit) (ho'.layout.lt_top_of_safe (.inl hi))⟩
      rw [ho.layout.literals i hi, ho'.layout.literals i hi]
    · obtain ⟨hcell, hr⟩ := ht i (by rw [hi]; rfl) (by rw [hi]; simp)
      have hout : ρ i ≠ .outside := by
        intro h
        obtain hr | ⟨-, a, ha⟩ := hr
        · cases (hi.symm.trans hr).trans h
        · cases h.symm.trans ha
      exact ⟨hcell.symm, iff_of_true (ho.layout.bounds hout).2
        (ho'.layout.bounds (by rw [hi]; simp)).2⟩
  have htable : (⟨m.heap, m'.lexicon.table⟩ : Lexicon) = m.lexicon := by
    unfold lexicon
    rw [hs]
  unfold lexicon
  rw [hs]
  refine hc.of_same (fun _ => id) (fun i hu _ => ?_) hn
  rw [← htable] at hu
  exact (hback i (hu.of_same hback)).symm

end Lexicon.Collates

theorem Leaves.of_final {σ : Type} {I : σ → Prop} {act : EStateM Fault σ α} {s : σ}
    (h : I (ActorMachine.final act s)) : Leaves I act (fun _ => True) s := by
  unfold ActorMachine.final at h
  refine .intro (fun a s' hr => ?_) fun f s' hr => ?_
  · rw [hr] at h
    exact ⟨h, trivial⟩
  · rw [hr] at h
    exact h

theorem Machine.onLexicon_ok {act : LexiconM α} {r : α} (hr : onLexicon act m = .ok r m') :
    act m.lexicon = .ok r m'.lexicon := by
  unfold onLexicon at hr
  dsimp only at hr
  change act ⟨m.heap, m.symbols⟩ = _
  cases hact : act ⟨m.heap, m.symbols⟩ with
  | ok a l =>
    rw [hact] at hr
    cases hr
    rfl
  | error f l =>
    rw [hact] at hr
    cases hr

theorem Machine.lexicon_onLexicon (act : LexiconM α) (m : Machine) :
    (final (onLexicon act) m).lexicon = final act m.lexicon := by
  unfold final onLexicon lexicon
  dsimp only
  cases act ⟨m.heap, m.symbols⟩ with
  | ok a l => rfl
  | error f l => rfl

namespace Machine

theorem symbols_perform {T : SymbolTable} {code : Instruction} {next : Word}
    (hi : code ≠ .convert .listToSymbol) :
    Upholds (fun m => m.symbols = T) (perform code next) fun _ => True := by
  by_cases haloof : code.isAloof = true
  · exact shelters_symbols.perform_aloof haloof
  cases code with
  | putc =>
    have hwrite : Upholds (fun m => m.symbols = T) writeByte fun _ => True :=
      (shelters_symbols.popNumber _).bind fun _ _ => .modify fun _ hm => hm
    exact hwrite.bind fun _ _ => .pure trivial
  | getc =>
    have hread : Upholds (fun m => m.symbols = T) readByte fun _ => True := by
      refine Upholds.get.bind fun m _ => Upholds.bind (R := fun _ => True) (.modify fun _ hm => hm)
        fun _ _ => ?_
      split
      · exact shelters_symbols.push trivial
      · exact shelters_symbols.push trivial
    exact hread.bind fun _ _ => .pure trivial
  | convert c =>
    cases c with
    | listToNumber => exact absurd rfl haloof
    | listToSymbol => exact absurd rfl hi
  | _ => exact absurd rfl haloof

theorem symbols_performAt
    (hi : ∀ next, m.heap.instruction ip ≠ .ok (.convert .listToSymbol, next)) :
    Leaves (fun m' => m'.symbols = m.symbols) (performAt ip) (fun _ => True) m := by
  refine Leaves.bind (shelters_symbols.ask (fun _ _ _ _ => trivial) m rfl)
    fun r m₁ hr _ (_ : True) => ?_
  obtain ⟨rfl, hcode⟩ := ask_eq_ok.1 hr
  have hperform : Upholds (fun m => m.symbols = m₁.symbols) (perform r.1 r.2) fun _ => True :=
    symbols_perform fun h => hi r.2 (by rw [hcode, ← h])
  refine (hperform m₁ rfl).bind fun flow m₂ _ hm₂ _ => ?_
  cases flow with
  | ended e => exact ⟨hm₂, trivial⟩
  | next ip =>
    have hlook : Upholds (fun m => m.symbols = m₁.symbols) (do
        if !(← look (·.isCode ip)) then throw (.notCode "next instruction" ip)
        return Flow.next ip) fun _ => True :=
      shelters_symbols.see.bind fun _ _ => .ite (fun _ => .throw_bind) fun _ => .pure trivial
    exact hlook m₂ hm₂

end Machine

theorem Lexicon.Collates.ensures {act : MachineM α} {Q : α → Machine → Prop} {E : Machine → Prop}
    (hc : m.lexicon.Collates S) (ho : Orderly ρ m) (ha : Aloof m.symbols m.console act)
    (he : Ensures act m Q E)
    (hq : ∀ r m', Q r m' → ∃ ρ', Orderly ρ' m' ∧ Conserves (fun _ => False) ρ m.heap ρ' m'.heap)
    (hf : ∀ m', E m' → ∃ ρ', Orderly ρ' m' ∧ Conserves (fun _ => False) ρ m.heap ρ' m'.heap) :
    Ensures act m (fun r m' => m'.lexicon.Collates S ∧ Q r m') fun m' => m'.lexicon.Collates S ∧
      E m' := by
  have hkeep : ∀ {m'}, m'.symbols = m.symbols →
      (∃ ρ', Orderly ρ' m' ∧ Conserves (fun _ => False) ρ m.heap ρ' m'.heap) →
      m'.lexicon.Collates S := by
    rintro m' hs ⟨ρ', ho', hk⟩
    exact hc.conserved ho ho' hk hs (fun _ => id) fun _ h => h.elim
  refine ((ha m ⟨rfl, rfl⟩).ensures he).mono ?_ ?_
  · rintro r m' ⟨hl, hr⟩
    exact ⟨hkeep hl.1 (hq r m' hr), hr⟩
  · rintro m' ⟨hl, hr⟩
    exact ⟨hkeep hl.1 (hf m' hr), hr⟩

namespace Open

theorem ensures_aloof {act : MachineM α} {P : Roles → Machine → α → Prop} (ho : Open t e a [] ρ m)
    (hc : m.lexicon.Collates S) (ha : Aloof m.symbols m.console act) (hr : Runs t e a ρ m act P) :
    Ensures act m (fun r m' => m'.lexicon.Collates S ∧ ∃ ρ', Open t e a [] ρ' m' ∧ P ρ' m' r)
      fun m' => m'.lexicon.Collates S := by
  refine (hc.ensures ho.orderly ha hr ?_ ?_).mono ?_ fun _ h => h.1
  · exact fun _ _ ⟨ρ', ho', hw, _⟩ => ⟨ρ', ho'.orderly, .of_within ho hw⟩
  · exact fun _ ⟨ρ', ho', hw⟩ => ⟨ρ', ho'.orderly, .of_within ho hw⟩
  · exact fun _ _ ⟨hc', ρ', ho', _, hp⟩ => ⟨hc', ρ', ho', hp⟩

theorem ensures_convert (ho : Open t e a [] ρ m) (hc : m.lexicon.Collates S) :
    Ensures (convert .listToSymbol) m (fun _ m' => m'.lexicon.Collates S)
      fun m' => m'.lexicon.Collates S := by
  unfold convert
  refine (ho.ensures_aloof hc lettered.pop.any ho.runs_pop).bind ?_
  rintro chars m₁ ⟨hc₁, ρ₁, ho₁, hchars⟩
  have hl := ho₁.orderly.layout
  obtain ⟨free, hf⟩ := hl.sound.allocator
  have hintern : Leaves (fun m => m.lexicon.Collates S) (internList chars) (fun _ => True) m₁ := by
    refine .of_final ?_
    unfold internList
    rw [lexicon_onLexicon]
    exact hc₁.intern hf (fun i hu _ => ho₁.orderly.live_uses hu)
      fun i ht => hl.live_of_safe (hl.safe_of_touches hchars ht)
  have hsym := ho₁.orderly.ensures_internList ho₁.orderly hchars (E := fun _ => True) trivial
  refine ((hintern.ensures hsym).mono (fun _ _ h => h) fun m' h => h.1).bind ?_
  rintro sym m₂ ⟨hc₂, ⟨rfl, hw⟩ | ⟨i, j, rfl, hij, -, ho₂, hframe, hu⟩⟩
  · exact (ho₁.ensures_aloof hc₂ (lettered.push granted_plain) (ho₁.runs_push hw)).mono
      (fun _ _ h => h.1) fun _ h => h
  · obtain ⟨hopen, -⟩ := ho₁.spare ho₂ hframe hu fun k hk =>
      Roles.held_of_set (by simp) (Roles.held_of_set (by simp) hk)
    have hw : Safe ((ρ₁.set i .data).set j .data) (.ref i) :=
      .inr (by rw [Roles.set_ne _ _ hij, Roles.set_self])
    exact (hopen.ensures_aloof hc₂ (lettered.push granted_plain) (hopen.runs_push hw)).mono
      (fun _ _ h => h.1)
      fun _ h => h

end Open

def Machine.target? (m : Machine) : Option Nat :=
  let cell := m.heap.car (m.heap.cdr (m.heap.cellAt m.threads.head.index).x)
  if (∃ f ∈ [Field.t, .x, .y, .z], m.instruction? = some (.set f)) ∧
    cell.isRef = true then some cell.index
  else none

theorem Open.target?_eq {next : Word} {f : Field} {c : Nat} {s : List Word} (ho : Open t e a [] ρ m)
    (hip : nextAddress (.ref t) m = .ok ip m') (hi : m'.heap.instruction ip = .ok (.set f, next))
    (hs : m.Stacks t (v :: .ref c :: s)) : m.target? = some c := by
  have hins : m.instruction? = some (.set f) := instruction?_eq (by rw [ho.head]; exact hip) hi
  have hfield : f ∈ [Field.t, .x, .y, .z] := by cases f <;> simp
  obtain ⟨-, hrest⟩ := Heap.Lists.rest hs
  obtain ⟨hcell, -⟩ := hrest.rest
  unfold target?
  dsimp only
  rw [ho.head, Word.index, hcell]
  exact if_pos ⟨⟨f, hfield, hins⟩, rfl⟩

theorem Lexicon.Collates.mono {l : Lexicon} (hc : l.Collates S) (hS : ∀ i, S i → S' i) :
    l.Collates S' :=
  hc.of_same hS (fun _ _ _ => ⟨rfl, .rfl⟩) rfl

theorem Ensures.and {σ : Type} {act : EStateM Fault σ α} {s : σ} {Q R : α → σ → Prop}
    {E F : σ → Prop} (h₁ : Ensures act s Q E) (h₂ : Ensures act s R F) :
    Ensures act s (fun a s' => Q a s' ∧ R a s') fun s' => E s' ∧ F s' := by
  unfold Ensures at *
  cases hr : act s with
  | ok a s' =>
    rw [hr] at h₁ h₂
    exact ⟨h₁, h₂⟩
  | error f s' =>
    rw [hr] at h₁ h₂
    by_cases hf : f.isFatal = true
    · exact .inl hf
    · exact .inr ⟨h₁.resolve_left hf, h₂.resolve_left hf⟩

namespace Open

theorem ensures_collatesAt (ho : Open t e a [] ρ m) (hc : m.lexicon.Collates S) (hip : Safe ρ ip)
    (hS : ∀ i, S i → S' i)
    (hx : ∀ f next, m.heap.instruction ip = .ok (.set f, next) →
      ∀ v c s, m.Stacks t (v :: .ref c :: s) →
      m.lexicon.Uses S c → S' c) :
    Ensures (performAt ip) m (fun _ m' => m'.lexicon.Collates S') fun m' =>
      m'.lexicon.Collates S' := by
  by_cases hconv : ∃ next, m.heap.instruction ip = .ok (.convert .listToSymbol, next)
  · obtain ⟨next, hi⟩ := hconv
    unfold performAt
    refine Ensures.bind (Q := fun r m' => m = m' ∧ r = (.convert .listToSymbol, next)) ?_ ?_
    · rw [ensures_ask, hi]
      exact ⟨rfl, rfl⟩
    rintro r m' ⟨rfl, rfl⟩
    have hperform : Ensures (perform (.convert .listToSymbol) next) m
        (fun _ m' => m'.lexicon.Collates S') fun m' => m'.lexicon.Collates S' :=
      ((ho.ensures_convert hc).mono (fun _ _ h => h.mono hS) fun _ h => h.mono hS).bind
        fun _ _ h => ensures_pure.2 h
    refine hperform.bind ?_
    rintro (ip' | en) m' hc'
    · dsimp only
      rw [ensures_look_bind]
      exact .ite (fun _ => .inr hc') fun _ => hc'
    · exact hc'
  · -- Other instructions do not have to do with symbols.
    have hsym := symbols_performAt fun next hi => hconv ⟨next, hi⟩
    have hperforms : ∀ {code next ρ' m'}, m.heap.instruction ip = .ok (code, next) →
      Open t e a [] ρ' m' →
        Performs t e a code ρ m ρ' m' → m'.symbols = m.symbols → m'.lexicon.Collates S' := by
      intro code next ρ' m' hi ho' hp hs
      have hk := Conserves.of_performs (X := fun c => ∃ f v s, code = .set f ∧
        m.Stacks t (v :: .ref c :: s)) ho hp
        fun f hf v c s hstack => ⟨f, v, s, hf, hstack⟩
      refine hc.conserved ho.orderly ho'.orderly hk hs hS ?_
      rintro c ⟨f, v, s, rfl, hstack⟩ hu
      exact hx f next hi v c s hstack hu
    refine (hsym.ensures (ho.ensures_performAt hip)).mono ?_ ?_
    · rintro flow m' ⟨hs, i, next, hi, hflow, -⟩
      cases flow with
      | next ip' =>
        obtain ⟨ρ', ho', hp, -⟩ := hflow
        exact hperforms hi ho' hp hs
      | ended en =>
        obtain ⟨-, ρ', hcl⟩ := hflow
        exact hc.conserved ho.orderly hcl.closing.orderly
          (.of_closed (X := fun _ => False) ho hcl) hs hS
          fun _ h => h.elim
    · rintro m' ⟨hs, ρ', ho', hw | ⟨i, next, hi, hp⟩⟩
      · exact hc.conserved ho.orderly ho'.orderly (.of_within (X := fun _ => False) ho hw) hs hS
          fun _ h => h.elim
      · exact hperforms hi ho' hp hs

theorem ensures_collates {E : Machine → Prop} (ho : Open t e a [] ρ m) (hc : m.lexicon.Collates S)
    (hS : ∀ i, S i → S' i) (hx : ∀ i, m.target? = some i → m.lexicon.Uses S i → S' i) :
    Ensures (advance (.ref t)) m (fun _ m' => m'.lexicon.Collates S') E := by
  unfold advance
  refine ho.ensures_nextAddress.bind ?_
  rintro ip - ⟨hip, hsafe, rfl⟩
  have ho₁ := ho.tally .performed
  have hc₁ : (m.tally .performed).lexicon.Collates S := hc
  have hretire : ∀ {ρ₁ m₁}, Closing t e [] ρ₁ m₁ → m₁.lexicon.Collates S' →
      Ensures retire m₁ (fun _ m' => m'.lexicon.Collates S') E := by
    intro ρ₁ m₁ hclosing hc₁
    refine (hc₁.ensures hclosing.orderly lettered.retire
      (hclosing.ensures_retire (E := fun _ => False)) ?_
      fun _ h => h.elim).mono (fun _ _ h => h.1) fun _ h => h.2.elim
    exact fun _ _ ⟨ρ', hs, hr⟩ => ⟨ρ', hs.orderly, .of_retires hclosing hr⟩
  refine ensures_attempt_bind
    ((ho₁.ensures_performAt hsafe).and (ho₁.ensures_collatesAt hc₁ hsafe hS ?_)) ?_ ?_
  · exact fun f next hi v c s hstack hu => hx c (ho.target?_eq hip hi hstack) hu
  · rintro (next | en) m₂ hrun ⟨⟨i, next', hi, hflow, hcode⟩, hc₂⟩
    · obtain ⟨ρ₂, ho₂, hperf, hnext⟩ := hflow
      have haloof : Aloof m₂.symbols m₂.console (do
          Heap.store (.ref t) .t next
          rotate) := aloof_lift.bind fun _ _ => lettered.rotate
      dsimp only
      rw [← bind_assoc]
      refine Ensures.bind ((hc₂.ensures ho₂.orderly haloof
        (ho₂.ensures_continue (E := fun _ => False) hnext (hcode next rfl)) ?_ fun _ h =>
        h.elim).mono
          (fun _ _ h => h.1) fun _ h => h.2.elim) fun _ _ h => h
      exact fun _ _ ⟨hs, hr⟩ => ⟨ρ₂, hs.orderly, .of_relays hr⟩
    · obtain ⟨rfl, ρ₂, hcl⟩ := hflow
      exact (hretire hcl.closing hc₂).bind fun _ _ h => h
  · intro f m₂ hrun hf
    dsimp only
    refine .ite (fun hfatal => ?_) fun hfatal => ?_
    · exact (Silent.note _).bind fun _ _ _ => .inl hfatal
    obtain ⟨⟨ρ₂, ho₂, -⟩, hc₂⟩ := hf.resolve_left hfatal
    refine (Silent.note _).bind fun _ m₃ hq₃ => ?_
    have ho₃ := ho₂.quiet hq₃
    have hc₃ : m₃.lexicon.Collates S' := by
      unfold lexicon
      rw [hq₃.heap, hq₃.symbols]
      exact hc₂
    refine Ensures.bind ((hc₃.ensures ho₃.orderly lettered.abortTransaction
      (ho₃.ensures_abortTransaction (E := fun _ => False)) ?_ fun _ h => h.elim).mono
        (fun _ _ h => h) fun _ h => h.2.elim) ?_
    · exact fun _ _ ⟨ρ', hcl⟩ => ⟨ρ', hcl.closing.orderly, .of_closed ho₃ hcl⟩
    · rintro - m₄ ⟨hc₄, ρ₄, hcl⟩
      exact (hretire hcl.closing hc₄).bind fun _ _ h => h

end Open

end ActorMachine
