import ActorMachine.Proofs.MachineSymbols

namespace ActorMachine

open Heap

open Machine

variable {S S' : Nat → Prop} {ρ ρ' : Roles} {h h' : Heap} {m m' : Machine} {config : Config}
  {c : Command}
  {l l' : Lexicon} {v w : Word} {i : Nat} {name : String}

namespace Lexicon

theorem release_cases {sym chars : Word} (hr : (onHeap (fetch sym .y) >>= fun y => do
      if y ≠ chars then onHeap (freeSpine chars)
      return sym : LexiconM Word) l = .ok v l') :
    l' = l ∨ ∃ y h', fetch sym .y l.heap = .ok y l.heap ∧ y ≠ chars ∧
      freeSpine chars l.heap = .ok () h' ∧ l' = ⟨h', l.table⟩ := by
  cases hy : fetch sym .y l.heap with
  | error f h₁ =>
    rw [onHeap_bind_error hy] at hr
    cases hr
  | ok y h₁ =>
    obtain ⟨rfl, -⟩ := fetch_ok hy
    rw [onHeap_bind_ok hy] at hr
    by_cases hne : y = chars
    · rw [if_neg (not_not.2 hne)] at hr
      cases hr
      exact .inl rfl
    · rw [if_pos hne] at hr
      cases hfree : freeSpine chars l.heap with
      | error f h₂ =>
        rw [onHeap_bind_error hfree] at hr
        cases hr
      | ok u h₂ =>
        rw [onHeap_bind_ok hfree] at hr
        cases hr
        exact .inr ⟨y, h₂, rfl, hne, rfl, rfl⟩

theorem Collates.internText {free : List Nat} (hc : l.Collates S) (hf : l.heap.FreeList free)
    (hnil : l.heap.isPair .nil = false) (hone : l.heap.Live 1)
    (hlive : ∀ i, l.Uses S i → l.heap.Live i)
    (hr : internText name l = .ok v l') : l'.Collates S := by
  change (onHeap (ofText name) >>= _) l = _ at hr
  cases htext : ofText name l.heap with
  | error f h₁ =>
    rw [onHeap_bind_error htext] at hr
    cases hr
  | ok chars h₁ =>
    rw [onHeap_bind_ok htext] at hr
    obtain ⟨ks, hlays⟩ := hf.lays htext
    have hre := hlays.reworks
    obtain ⟨free₁, hf₁⟩ := hre.allocator
    have hsame : ∀ i, l.Uses S i → l.heap.SameAt h₁ i := fun i hu => (hlive i hu).sameAt hre
    have hc₁ : Collates S ⟨h₁, l.table⟩ := hc.of_same (fun _ => id) (fun i hu _ =>
      hsame i hu) hre.sanity
    have hlive₁ : ∀ i, Uses S ⟨h₁, l.table⟩ i → l.heap.Live i :=
      fun i hu => hlive i (hu.of_same hsame)
    have hnil₁ : h₁.isPair .nil = false := (hone.sameAt hre).isPair.trans hnil
    have hflat : ∀ j ∈ ks, (h₁.cellAt j).x.isFixnum = true := by
      intro j hj
      have hmem : (h₁.cellAt j).x ∈ ks.map (fun k => (h₁.cellAt k).x) := List.mem_map_of_mem hj
      rw [hlays.values] at hmem
      exact Text.isFixnum_codes name _ hmem
    have hchars : ∀ i, h₁.Touches chars i → h₁.Live i := by
      intro i ht
      obtain hi | hi := hlays.pairs.touches hnil₁ hflat ht
      · exact live_of_isPair (hlays.pairs.2 i hi)
      · cases hi
        exact hre.live hone id
    obtain ⟨sym, l₂, hintern, hi⟩ | ⟨f, h₂, hintern, -⟩ :=
      intern_cases (l := ⟨h₁, l.table⟩) hf₁ chars
    · rw [run_bind hintern] at hr
      have hc₂ := hc₁.interns (fun i hu _ => hre.live (hlive₁ i hu) id) hchars hi
      obtain rfl | ⟨y, h', hy, hne, hfree, rfl⟩ := release_cases hr
      · exact hc₂
      cases hi with
      | found =>
        -- The table is made of cells that were there before.
        have hperm : ∀ k ∈ ks, h₁.permanent ≤ k := fun k hk => by
          rw [hre.permanent]
          exact (hlays.fresh k hk).2
        obtain ⟨hre', -⟩ := hlays.pairs.freeSpine_go hf₁ hnil₁ hperm (h₁.budget "free spine")
        have hfinal : final (freeSpine.go (h₁.budget "free spine") chars) h₁ = h' := by
          change final (freeSpine chars) h₁ = h'
          unfold final
          rw [hfree]
        rw [hfinal] at hre'
        refine hc₁.of_same (fun _ => id) (fun i hu _ => ?_) hre'.sanity
        have hi := hlive₁ i hu
        have hk : i ∉ ks := fun hk => (hlays.fresh i hk).1 hi
        have hi₁ := hre.live hi id
        exact ⟨hre'.same i hi₁ hk, iff_of_true (hre'.live hi₁ hk).1 hi₁.1⟩
      | made hcrc _ htake hpair hre₂ =>
        -- A new symbol keeps the list.
        have hread : h₁.Reads _ chars := fun i ht => (hchars i ht).sameAt hre₂
        have hfiles := files_of_takes htake hpair ((hread.checksum hre₂.sanity).trans hcrc)
        obtain ⟨-, i, hi, -, hcell⟩ := fetch_ok hy
        cases hi
        rw [show _ = _ from hfiles.cell] at hcell
        exact absurd hcell hne
    · rw [run_bind_error hintern] at hr
      cases hr

end Lexicon

theorem Construct.aloof {c : Construct} {T : SymbolTable} {C : Console}
    (hc : ∀ name, c ≠ .symbol name) :
    Aloof T C c.run := by
  have hchain : ∀ {code next}, Aloof T C (Assembler.chain code next) :=
    .foldrM trivial fun _ _ _ _ =>
    aloof_lift
  cases c with
  | chain code next => exact hchain
  | block code =>
    change Aloof T C (Assembler.block code)
    unfold Assembler.block
    split
    · exact .ite (fun _ => hchain) fun _ => .throw
    · exact .throw
  | list items => exact aloof_lift
  | string text => exact aloof_lift
  | symbol name => exact absurd rfl (hc name)
  | actor beh state =>
    exact Upholds.bind (R := fun _ => True) aloof_lift fun _ _ =>
      lettered.newActor granted_plain granted_plain
  | newActor beh state => exact lettered.newActor granted_plain granted_plain

theorem Lexicon.Collates.construct {c : Construct} (hc : m.lexicon.Collates S) (ho : Orderly ρ m)
    (ho' : Orderly ρ' m') (hb : Builds ρ m ρ' m') (hr : c.run m = .ok w m') :
    m'.lexicon.Collates S := by
  by_cases hsym : ∃ name, c = .symbol name
  · obtain ⟨name, rfl⟩ := hsym
    have hl := ho.layout
    obtain ⟨free, hf⟩ := hl.sound.allocator
    have hone : m.heap.Live 1 := hl.live_of_safe (.inl (by decide))
    exact hc.internText hf hl.isPair_nil hone (fun i hu => ho.live_uses hu) (onLexicon_ok hr)
  · have hkeep := (Construct.aloof (fun name h => hsym ⟨name, h⟩) m ⟨rfl, rfl⟩).ok hr
    exact hc.conserved ho ho' (.of_builds (X := fun _ => False) hb) hkeep.1.1 (fun _ => id)
      fun _ h => h.elim

theorem Building.collates (hb : Building config m) : m.lexicon.Collates S := by
  induction hb with
  | @new m console hm =>
    have hnil := (built_new hm console).settled.orderly.layout.isPair_nil
    obtain ⟨-, rfl⟩ := new_eq_ok hm
    exact Lexicon.collates_empty hnil
  | @construct m m' w c hb hw hr ih =>
    obtain ⟨m₀, ρ, -, hbuilt, -⟩ := hb.built
    have hl := hbuilt.settled.orderly.layout
    have hsafe : ∀ w ∈ c.words, Safe ρ w := fun w hm =>
      hl.safe_offer (w.avoids_of_none hbuilt.ne_condemned)
      (.inr ⟨Nat.le_refl _, hbuilt.resting⟩) (hw w hm)
    obtain ⟨ρ', hs', hb', -⟩ := (c.yields hbuilt.settled hsafe).ok hr
    exact ih.construct hbuilt.settled.orderly hs'.orderly hb' hr

/-- Of the cells of the table, those that the first thread is about to write to once the action is
done. -/
def Machine.Spoils (act : MachineM Unit) (S : Nat → Prop) (m : Machine) (i : Nat) : Prop :=
  ∃ m', act m = .ok () m' ∧ m'.target? = some i ∧ m'.lexicon.Uses S i

def Command.Spoils (S : Nat → Prop) (m : Machine) : Command → Nat → Prop
  | tick => m.Spoils (do
    prepare
    collectorStep) S
  | _ => fun _ => False

def Legible (S : Nat → Prop) (m : Machine) : Prop := ∃ ρ, Fit ρ m ∧ m.lexicon.Collates S

namespace Legible

variable {E : Machine → Prop}

theorem ensures_part {α : Type} {act : MachineM α} {R : Roles → Machine → Prop} (hf : Fit ρ m)
    (hc : m.lexicon.Collates S) (ha : Aloof m.symbols m.console act)
    (he : Ensures act m (fun _ m' => ∃ ρ', Settled [] ρ' m' ∧ R ρ' m') E)
    (hr : ∀ ρ' m', Settled [] ρ' m' → R ρ' m' →
      Proceeds ρ m ρ' m' ∧ Conserves (fun _ => False) ρ m.heap ρ' m'.heap) :
    Ensures act m (fun _ m' => Legible S m') E := by
  refine ((ha m ⟨rfl, rfl⟩).ensures he).mono ?_ fun _ h => h.2
  rintro - m' ⟨hl, ρ', hs', hR⟩
  obtain ⟨hp, hk⟩ := hr ρ' m' hs' hR
  exact ⟨ρ', hf.proceeds hs' hp,
    hc.conserved hf.settled.orderly hs'.orderly hk hl.1 (fun _ => id) fun _ h => h.elim⟩

theorem ensures_thins {α : Type} {act : MachineM α} (hf : Fit ρ m) (hc : m.lexicon.Collates S)
    (ha : Aloof m.symbols m.console act) (hn : Thrifty m.heap.sanity act)
    (he : Ensures act m (fun _ m' => ∃ ρ', Fit ρ' m' ∧ Thins ρ m.heap ρ' m'.heap) E) :
    Ensures act m (fun _ m' => Legible S m') E := by
  refine ((ha m ⟨rfl, rfl⟩).ensures ((hn m rfl).ensures he)).mono ?_ fun _ h => h.2.2
  rintro - m' ⟨hl, hsanity, ρ', hf', ht⟩
  exact ⟨ρ', hf', hc.thins hf.settled.orderly hf'.settled.orderly ht hl.1 hsanity⟩

theorem ensures_interrupt (ha : Legible S m) :
    Ensures interrupt m (fun _ m' => Legible S m') E := by
  obtain ⟨ρ, hf, hc⟩ := ha
  refine ensures_part (R := fun ρ' m' => Posts ρ m ρ' m') hf hc (lettered.interrupt fun _ h => h)
    (hf.settled.ensures_interrupt.mono ?_ fun _ h => h) fun ρ' m' _ hp =>
    ⟨hp.proceeds, .of_posts hp⟩
  rintro - m' ⟨ρ', new, hs', hp, -⟩
  exact ⟨ρ', hs', hp⟩

theorem dispatched (hs' : Settled [] ρ' m') (hd : Posts ρ m ρ' m' ∨
    ∃ t e a, Begins t e a ρ m ρ' m') :
    Proceeds ρ m ρ' m' ∧ Conserves (fun _ => False) ρ m.heap ρ' m'.heap := by
  obtain hp | ⟨t, e, a, hb⟩ := hd
  · exact ⟨hp.proceeds, .of_posts hp⟩
  · exact ⟨hb.proceeds hs'.orderly.layout, .of_begins hb⟩

variable (ha : Legible S m)

include ha

theorem ensures_dispatch : Ensures dispatch m (fun _ m' => Legible S m') E := by
  obtain ⟨ρ, hf, hc⟩ := ha
  exact ensures_part hf hc lettered.dispatch hf.settled.ensures_dispatched fun _ _ hs' hd =>
    dispatched hs' hd

theorem ensures_prepare : Ensures prepare m (fun _ m' => Legible S m') E := by
  obtain ⟨ρ, hf, hc⟩ := ha
  exact ensures_part hf hc lettered.prepare hf.settled.ensures_prepare fun _ _ hs' hd =>
    dispatched hs' hd.begins

theorem ensures_execute (ho : m.threads.head = .nil ∨ m.overlooks 1 = false)
    (hS : ∀ i, S i → S' i) (hx : ∀ i, m.Spoils collectorStep S i → S' i) :
    Ensures execute m (fun _ m' => Legible S' m') E := by
  obtain ⟨ρ, hf, hc⟩ := ha
  unfold execute
  rw [ensures_thread_bind]
  by_cases hnil : m.threads.head = .nil
  · rw [hnil, if_pos rfl]
    exact ⟨ρ, hf, hc.mono hS⟩
  rw [if_neg hnil]
  have hstep : Ensures collectorStep m (fun _ m' => Legible S m' ∧ m'.threads = m.threads) E := by
    have hthin := hf.ensures_collectorStep (E := E) (ho.resolve_left hnil)
    refine ((ensures_thins hf hc lettered.collectorStep thrifty_collectorStep
      (hthin.mono (fun _ _ h => h.1) fun _ h => h)).and hthin).mono ?_ fun _ h => h.1
    exact fun _ _ h => ⟨h.1, h.2.2⟩
  refine hstep.result.bind ?_
  rintro ⟨⟩ m₁ ⟨hrun, ⟨ρ₁, hf₁, hc₁⟩, hthreads⟩
  obtain ⟨-, t, e, a, hopen⟩ := hf₁.settled.open.resolve_left (hthreads ▸ hnil)
  rw [← hthreads, hopen.head]
  have hadvance := (hopen.ensures_advance (E := E)).and
    (hopen.ensures_collates (E := E) hc₁ hS fun i hw hu => hx i ⟨m₁, hrun, hw, hu⟩)
  refine (hadvance.mono (fun _ _ h => h) fun _ h => h.1).bind ?_
  rintro step m₂ ⟨⟨ρ₂, hs₂, hadv⟩, hc₂⟩
  have hf₂ := hf₁.proceeds hs₂ hadv.proceeds
  cases step with
  | noThreads | continued => exact ⟨ρ₂, hf₂, hc₂⟩
  | retired en =>
    exact (ensures_thins hf₂ hc₂ lettered.safepoint thrifty_safepoint hf₂.ensures_safepoint).bind
      fun _ _ h => h

theorem ensures_tick (ho : Command.tick.overlooks m = false) (hS : ∀ i, S i → S' i)
    (hx : ∀ i, Command.tick.Spoils S m i → S' i) :
    Ensures tick m (fun _ m' => Legible S' m') E := by
  unfold tick
  refine ha.ensures_prepare.result.bind ?_
  rintro ⟨⟩ m₁ ⟨hprep, ha₁⟩
  have ho₁ : m₁.threads.head = .nil ∨ m₁.overlooks 1 = false := by
    simpa [Command.overlooks, hprep, Classical.or_iff_not_imp_left] using ho
  refine (ha₁.ensures_execute ho₁ hS fun i hi => hx i ?_).bind ?_
  · obtain ⟨m₂, hrun, hi⟩ := hi
    exact ⟨m₂, by rw [run_bind hprep]; exact hrun, hi⟩
  · rintro step m' ha'
    cases step <;> exact ha'

theorem mono (hS : ∀ i, S i → S' i) : Legible S' m := by
  obtain ⟨ρ, hf, hc⟩ := ha
  exact ⟨ρ, hf, hc.mono hS⟩

theorem ensures_command (hw : ∀ w ∈ c.words, m.heap.Offers m.heap.permanent w)
    (ho : c.overlooks m = false) (hS : ∀ i, S i → S' i) (hx : ∀ i, c.Spoils S m i → S' i) :
    Ensures c.run m (fun _ m' => Legible S' m') (m = ·) := by
  obtain ⟨ρ, hf, hc⟩ := ha
  have hsafe : ∀ w ∈ c.words, Safe ρ w := fun w hm =>
    hf.safe (fun hs => Command.lit_of_not_overlooks ho hs hm) (hw w hm)
  -- Words that are pinned are shaded, and nothing else is done to the heap.
  have hpin : ∀ {w m'}, Fit ρ m' → m'.heap = m.heap.shade w → m'.symbols = m.symbols →
      Legible S' m' := by
    intro w m' hf' hh hs
    refine ⟨ρ, hf',
      (hc.thins hf.settled.orderly hf'.settled.orderly (.of_cells fun i => ?_) hs ?_).mono hS⟩
    · rw [hh]
      exact m.heap.cellAt_shade w i
    · rw [hh]
      exact m.heap.sanity_shade w
  have hmono : ∀ {α : Type} {act : MachineM α}, Ensures act m (fun _ m' => Legible S m') (m = ·) →
      Ensures act m (fun _ m' => Legible S' m') (m = ·) := fun h =>
      h.mono (fun _ _ h => h.mono hS) fun _ h => h
  cases c with
  | newActor beh state =>
    have hnew := hf.settled.ensures_newActor (hsafe beh (by simp [Command.words]))
      (hsafe state (by simp [Command.words]))
    refine Ensures.bind (hmono (ensures_part (R := fun ρ' m' => Builds ρ m ρ' m') hf hc
      (lettered.newActor granted_plain granted_plain) (hnew.imp ?_)
      fun ρ' m' _ hb => ⟨hb.proceeds, .of_builds hb⟩)) fun _ _ h => h
    rintro w m' ⟨ρ', hs', hb, -⟩
    exact ⟨ρ', hs', hb⟩
  | send target message =>
    have hsend := hf.settled.ensures_send (hsafe target (by simp [Command.words]))
      (hsafe message (by simp [Command.words]))
    refine hmono (ensures_part (R := fun ρ' m' => Posts ρ m ρ' m') hf hc
      (lettered.send granted_plain granted_plain)
      (hsend.imp ?_) fun ρ' m' _ hp => ⟨hp.proceeds, .of_posts hp⟩)
    rintro - m' ⟨ρ', hs', hp, -⟩
    exact ⟨ρ', hs', hp⟩
  | tick => exact Ensures.bind (ensures_tick ⟨ρ, hf, hc⟩ ho hS hx) fun _ _ h => h
  | collect =>
    exact Ensures.bind (hmono (ensures_thins hf hc lettered.collect thrifty_collect
      (hf.ensures_collect ho))) fun _ _ h => h
  | pin w => exact hpin (hf.pin (hsafe w List.mem_cons_self)) rfl rfl
  | attachClock now handler =>
    have hfit := hf.pin (hsafe handler List.mem_cons_self)
    exact ensures_attachClock (hpin (hfit.withClock (by simp [Clock.start])) rfl rfl)
  | setClock now => exact ⟨ρ, hf.withClock (handler_pinned hf.clock now), hc.mono hS⟩

theorem intern (hr : intern name m = .ok w m') : Legible S m' := by
  obtain ⟨ρ, hf, hc⟩ := ha
  obtain ⟨ρ', hs', hb, -⟩ := ((Construct.symbol name).yields hf.settled fun _ h =>
    absurd h List.not_mem_nil).ok hr
  exact ⟨ρ', hf.proceeds hs' hb.proceeds,
    Lexicon.Collates.construct (c := .symbol name) hc hf.settled.orderly hs'.orderly hb hr⟩

end Legible

theorem Building.legible (hb : Building config m) (hr : sealImage m = .ok () m') :
    Legible S m' := by
  obtain ⟨ρ, hf, -⟩ := hb.able (S := S) hr
  obtain ⟨m₀, ρ₀, -, hbuilt, -⟩ := hb.built
  have hq := (ensures_sealImage (E := fun _ => True) hbuilt.settled.orderly.layout.sound).ok hr
  refine ⟨ρ, hf, ?_⟩
  unfold lexicon
  rw [hq.heap, hq.symbols]
  change Lexicon.Collates S ⟨m.heap.sealed, m.lexicon.table⟩
  exact hb.collates.of_same (fun _ => id) (fun _ _ _ => ⟨rfl, .rfl⟩) rfl

/-- A run in commands or in parts of rounds in which nothing is overlooked, with a record of the
cells of the symbol table that a program has written to. The host may intern more names at any
time. -/
inductive Inscribed (config : Config) : (Nat → Prop) → Machine → Prop
  | start {m m' : Machine} : Building config m → sealImage m = .ok () m' →
      Inscribed config (fun _ => False) m'
  | command {S : Nat → Prop} {m m' : Machine} (c : Command) : Inscribed config S m →
      (∀ w ∈ c.words, m.heap.Offers m.heap.permanent w) → c.overlooks m = false →
      c.run m = .ok () m' →
      Inscribed config (fun i => S i ∨ c.Spoils S m i) m'
  | refused {S : Nat → Prop} {m m' : Machine} {f : Fault} (c : Command) : Inscribed config S m →
      (∀ w ∈ c.words, m.heap.Offers m.heap.permanent w) → c.overlooks m = false →
      c.run m = .error f m' →
      f.isFatal = false → Inscribed config S m'
  | intern {S : Nat → Prop} {m m' : Machine} {w : Word} (name : String) : Inscribed config S m →
      intern name m = .ok w m' → Inscribed config S m'
  | interrupt {S : Nat → Prop} {m m' : Machine} {b : Bool} : Inscribed config S m →
      interrupt m = .ok b m' → Inscribed config S m'
  | dispatch {S : Nat → Prop} {m m' : Machine} {d : Dispatch} : Inscribed config S m →
      dispatch m = .ok d m' → Inscribed config S m'
  | execute {S : Nat → Prop} {m m' : Machine} {s : Step} : Inscribed config S m →
      m.threads.head = .nil ∨ m.overlooks 1 = false → execute m = .ok s m' →
      Inscribed config (fun i => S i ∨ m.Spoils collectorStep S i) m'

theorem Inscribed.legible (hr : Inscribed config S m) : Legible S m := by
  induction hr with
  | start hb hs => exact hb.legible hs
  | command c _ hw ho hrun ih =>
    exact (ih.ensures_command hw ho (fun _ => .inl) fun _ => .inr).ok hrun
  | @refused S m _ _ c _ hw ho hrun hf ih =>
    have hall : Ensures c.run m (fun _ m' => Legible (fun _ => True) m') (m = ·) :=
      ih.ensures_command hw ho (fun _ _ => trivial) fun _ _ => trivial
    exact hall.error hrun hf ▸ ih
  | intern name _ hrun ih => exact ih.intern hrun
  | interrupt _ hrun ih => exact (ih.ensures_interrupt (E := fun _ => True)).ok hrun
  | dispatch _ hrun ih => exact (ih.ensures_dispatch (E := fun _ => True)).ok hrun
  | execute _ ho hrun ih =>
    exact (ih.ensures_execute (E := fun _ => True) ho (fun _ => .inl) fun _ => .inr).ok hrun

def Command.target? (m : Machine) : Command → Option Nat
  | tick => (final? ((do
    prepare
    Machine.collectorStep : MachineM Unit) m)).bind Machine.target?
  | _ => none

theorem Command.Spoils.target?_eq (hs : c.Spoils S m i) : c.target? m = some i := by
  cases c with
  | tick =>
    obtain ⟨m', hrun, hi, -⟩ := hs
    unfold Command.target?
    rw [hrun]
    exact hi
  | _ => exact hs.elim

theorem Inscribed.foldlM {commands : List Command} (hm : Inscribed config (fun _ => False) m)
    (hr : commands.foldlM (fun m c => if c.target? m = none then c.watch? m else none) m =
      some m') :
    Inscribed config (fun _ => False) m' := by
  refine foldlM_induction hm hr fun m c m' hm hc => ?_
  split at hc
  · next hnone =>
    obtain ⟨ho, hw, hrun⟩ := Command.watch?_eq_some hc
    have hclean : (fun i => False ∨ c.Spoils (fun _ => False) m i) = fun _ => False := by
      funext i
      refine propext ⟨fun h => ?_, False.elim⟩
      cases hnone.symm.trans (h.resolve_left id).target?_eq
    exact hclean ▸ .command c hm hw ho hrun
  · cases hc

/-- Symbols keep their spelling, as long as no program writes to them. Every pair of a bucket lists
a symbol that has the checksum of its characters and is in the bucket for it, and two symbols with
the same characters are the same. This goes for all cells that can be come upon without passing one
of the record. -/
theorem Inscribed.keeps_spelling (hr : Inscribed config S m) :
    (∀ k p, m.heap.Walks S (m.symbols.buckets.get k) p → m.heap.isPair (.ref p) = true → ¬ S p →
      ∃ s, m.lexicon.Entry S k p s) ∧
    (∀ k p s, m.lexicon.Entry S k p s → m.lexicon.Intact S s → m.heap.isSymbol (.ref s) = true ∧
      ∃ crc, m.heap.checksum (m.heap.cellAt s).y = .ok crc ∧ (m.heap.cellAt s).x = .fix crc.toNat ∧
        SymbolTable.slot crc = k) ∧
    ∀ k p s k' q t, m.lexicon.Entry S k p s → m.lexicon.Entry S k' q t → m.lexicon.Intact S s →
      m.lexicon.Intact S t → ¬ m.heap.Differs (m.heap.cellAt s).y (m.heap.cellAt t).y → p = q ∧
        s = t := by
  obtain ⟨ρ, hf, hc⟩ := hr.legible
  refine ⟨fun k p hw hp hS => ?_, hc.spelled, fun k p s k' q t he he' hi hi' hd => ?_⟩
  · obtain ⟨s, hs⟩ := hc.lists k p hw hp hS
    exact ⟨s, hw, hp, hS, hs⟩
  · obtain rfl := hc.unique k p s k' q t he he' hi hi' hd
    exact ⟨rfl, Word.ref.inj (he.symbol.symm.trans he'.symbol)⟩

theorem Inscribed.keeps_spelling_beside :
    ∃ S m, Inscribed { heapCapacity := 80, topMargin := 8 } S m ∧ S 28 ∧
    (m.heap.cellAt 28).x = .fix 66 ∧ m.lexicon.Entry S 215 15 14 ∧ m.lexicon.Intact S 14 ∧
    ∃ crc, m.heap.checksum (m.heap.cellAt 14).y = .ok crc ∧ (m.heap.cellAt 14).x = .fix crc.toNat ∧
      SymbolTable.slot crc = 215 := by
  -- Another symbol keeps its spelling when a program misspells one.
  have hrun : (play { heapCapacity := 80, topMargin := 8 }
      [.symbol "C", .block [.push .nil, .push (.fix 65), .pair 1, .dup 1,
        .convert .listToSymbol, .drop 1, .push (.fix 66), .set .x, .finish .commit],
        .actor (.ref 24) []] []).any (fun m₀ =>
      (([.send (.cap 25) .nil, .tick, .tick, .tick, .tick, .tick, .tick, .tick] :
        List Command).foldlM
        (fun m c => if c.target? m = none then c.watch? m else none) m₀).any fun m₁ =>
      (final? ((do
        Machine.prepare
        Machine.collectorStep : MachineM Unit) m₁)).any (fun m₂ => decide (m₂.target? = some 28 ∧
          m₂.symbols.buckets.get 216 = .ref 31 ∧ m₂.heap.isPair (.ref 31) = true ∧
          (m₂.heap.cellAt 31).x = .ref 30 ∧ (m₂.heap.cellAt 30).y = .ref 28)) &&
      (Command.tick.watch? m₁).any fun m => decide ((m.heap.cellAt 28).x = .fix 66 ∧
        m.symbols.buckets.get 215 = .ref 15 ∧ m.heap.isPair (.ref 15) = true ∧
        (m.heap.cellAt 15).x = .ref 14 ∧
        (m.heap.cellAt 14).y = .ref 13 ∧ m.heap.car (.ref 13) = .fix 67 ∧
        m.heap.cdr (.ref 13) = .nil ∧
        m.heap.isPair .nil = false)) = true := by
    decide +kernel
  simp only [Option.any_eq_true, Bool.and_eq_true, decide_eq_true_eq] at hrun
  obtain ⟨m₀, hplay, m₁, hfold, ⟨m₂, hprep, htarget, hb₂, hp₂, hx₂, hy₂⟩, m, hwatch, hx, hb, hp,
    hs, hy, hcar, hcdr, hnil⟩ := hrun
  obtain ⟨m', m₀', hbuild, hseal, hnone⟩ := Building.of_play hplay
  cases hnone
  obtain ⟨⟨⟩, hprep⟩ := final?_eq_some hprep
  obtain ⟨ho, hw, htick⟩ := Command.watch?_eq_some hwatch
  have hr := Inscribed.command .tick ((Inscribed.start hbuild hseal).foldlM hfold) hw ho htick
  have hentry : m₂.lexicon.Entry (fun _ => False) 216 31 30 := by
    refine ⟨?_, hp₂, id, hx₂⟩
    rw [show m₂.lexicon.table.buckets.get 216 = _ from hb₂]
    exact .here
  have hspoiled : Command.tick.Spoils (fun _ => False) m₁ 28 :=
    ⟨m₂, hprep, htarget,
      .spelling hentry id (by rw [show (m₂.lexicon.heap.cellAt 30).y = _ from hy₂]; exact .here)⟩
  have honly : ∀ i, False ∨ Command.tick.Spoils (fun _ => False) m₁ i → i = 28 := fun i hi =>
    Option.some.inj ((hi.resolve_left id).target?_eq.symm.trans hspoiled.target?_eq)
  have hentry' : m.lexicon.Entry (fun i => False ∨
      Command.tick.Spoils (fun _ => False) m₁ i) 215 15 14 := by
    refine ⟨?_, hp, fun h => (by cases honly 15 h), hs⟩
    rw [show m.lexicon.table.buckets.get 215 = _ from hb]
    exact .here
  have hintact : m.lexicon.Intact (fun i => False ∨
      Command.tick.Spoils (fun _ => False) m₁ i) 14 := by
    refine ⟨fun h => (by cases honly 14 h), fun i ht h => ?_⟩
    rw [show (m.lexicon.heap.cellAt 14).y = _ from hy] at ht
    obtain rfl := honly i h
    cases ht with
    | car _ ht =>
      rw [show m.lexicon.heap.car (.ref 13) = _ from hcar] at ht
      cases ht with
      | car hp => cases hp
      | cdr hp => cases hp
    | cdr _ ht =>
      rw [show m.lexicon.heap.cdr (.ref 13) = _ from hcdr] at ht
      cases ht with
      | car hp => cases hnil.symm.trans hp
      | cdr hp => cases hnil.symm.trans hp
  obtain ⟨-, hspelled, -⟩ := hr.keeps_spelling
  exact ⟨_, m, hr, .inr hspoiled, hx, hentry', hintact, (hspelled 215 15 14 hentry' hintact).2⟩

theorem Running.misspells : ∃ m k p s crc, Running { heapCapacity := 80, topMargin := 8 } m ∧
    m.lexicon.Entry (fun _ => False) k p s ∧ m.heap.isSymbol (.ref s) = true ∧
    m.heap.checksum (m.heap.cellAt s).y = .ok crc ∧ (m.heap.cellAt s).x ≠ .fix crc.toNat := by
  -- A program may misspell a symbol: it turns a list into a symbol, and then writes to the list.
  have hplay : (play { heapCapacity := 80, topMargin := 8 }
      [.block [.push .nil, .push (.fix 65), .pair 1, .dup 1, .convert .listToSymbol, .drop 1,
        .push (.fix 66), .set .x, .finish .commit], .actor (.ref 21) []]
      [.send (.cap 22) .nil, .tick, .tick, .tick, .tick, .tick, .tick, .tick, .tick]).any
      (fun m => decide (m.symbols.buckets.get 216 = .ref 28 ∧ m.heap.isPair (.ref 28) = true ∧
        (m.heap.cellAt 28).x = .ref 27 ∧ m.heap.isSymbol (.ref 27) = true ∧
        (m.heap.checksum (m.heap.cellAt 27).y).toOption = some 445255691 ∧
        (m.heap.cellAt 27).x = .fix 1751207896)) = true := by
    decide +kernel
  obtain ⟨m, hm, hfacts⟩ := (Option.any_eq_true _ _).1 hplay
  obtain ⟨hb, hpair, hx, hsym, hsum, hhash⟩ := of_decide_eq_true hfacts
  refine ⟨m, 216, 28, 27, 445255691, Running.of_play hm, ⟨?_, hpair, id, hx⟩, hsym, ?_, ?_⟩
  · rw [show m.lexicon.table.buckets.get 216 = _ from hb]
    exact .here
  · cases hc : m.heap.checksum (m.heap.cellAt 27).y with
    | error f =>
      rw [hc] at hsum
      cases hsum
    | ok crc =>
      rw [hc] at hsum
      cases hsum
      rfl
  · rw [hhash]
    decide

end ActorMachine
