import ActorMachine.Assembler
import ActorMachine.Proofs.Dispatch

namespace ActorMachine

open Machine

variable {ρ ρ' ρ'' : Roles} {h : Heap} {m m' m'' : Machine} {α : Type}
variable {r : Role} {w beh : Word}

abbrev Builds := Confined fun _ r => r.isSpare = true

theorem Builds.proceeds (hb : Builds ρ m ρ' m') : Proceeds ρ m ρ' m' :=
  ⟨hb.frame.mono fun i _ hr => Posting.movable (i := i) (.inl hr), hb.untouched.steady⟩

def Staffs (ρ ρ' : Roles) (h' : Heap) : Prop :=
  ∀ a, (ρ' a).isActor = true → (ρ a).isActor = true ∨ h'.isCode (h'.cellAt a).x = true

theorem Staffs.refl : Staffs ρ ρ h := fun _ => .inl

theorem Staffs.set {i : Nat} (hr : r.isActor = false) (hs : Staffs ρ ρ' h) :
    Staffs ρ (ρ'.set i r) h := by
  intro a ha
  by_cases hai : a = i
  · rw [hai, Roles.set_self, hr] at ha
    cases ha
  · rw [Roles.set_ne _ _ hai] at ha
    exact hs a ha

theorem Staffs.setAll {l : List Nat} (hr : r.isActor = false) (hs : Staffs ρ ρ' h) :
    Staffs ρ (ρ'.setAll l r) h := by
  intro a ha
  by_cases hal : a ∈ l
  · rw [Roles.setAll_mem _ hal, hr] at ha
    cases ha
  · rw [Roles.setAll_not_mem _ hal] at ha
    exact hs a ha

theorem Builds.isCode (hb : Builds ρ m ρ' m') (hl : m.Arranged ρ)
    (hw : Safe ρ w) (hc : m.heap.isCode w = true) : m'.heap.isCode w = true :=
  hb.frame.isCode hl (fun _ _ => by simp [Role.isSpare]) hw hc

theorem Staffs.trans (h₁ : Staffs ρ ρ' m'.heap) (h₂ : Staffs ρ' ρ'' m''.heap)
    (hb : Builds ρ' m' ρ'' m'') (hl : m'.Arranged ρ') : Staffs ρ ρ'' m''.heap := by
  intro a ha
  obtain ha' | hc := h₂ a ha
  · refine (h₁ a ha').imp_right fun hc => ?_
    have hspare : (ρ' a).isSpare ≠ true := by
      intro hs
      have hact := Posting.not_isActing (i := a) (.inl hs)
      rw [Role.isActing_of_isActor ha'] at hact
      cases hact
    have hs := (hl.fits a).2
    have hsafe : Safe ρ' (m'.heap.cellAt a).x := by
      cases hr : ρ' a with
      | idle | busy | stopped | transit =>
        rw [hr] at hs
        exact hs.2.1
      | _ =>
        rw [hr] at ha'
        cases ha'
    rw [(hb.frame.same hspare).2]
    exact hb.isCode hl hsafe hc
  · exact .inr hc

def Yields (ρ : Roles) (m : Machine) (act : MachineM Word) : Prop :=
  Ensures act m (fun w m' => ∃ ρ', Settled [] ρ' m' ∧ Builds ρ m ρ' m' ∧ Safe ρ' w ∧
    Staffs ρ ρ' m'.heap)
    fun _ => True

namespace Yields

variable {act : MachineM Word}

theorem pure (hs : Settled [] ρ m) (hw : Safe ρ w) : Yields ρ m (pure w) :=
  ⟨ρ, hs, .refl, hw, .refl⟩

theorem bind {k : Word → MachineM Word} (hy : Yields ρ m act)
    (hk : ∀ w ρ' m', Settled [] ρ' m' → Builds ρ m ρ' m' → Safe ρ' w → Yields ρ' m' (k w)) :
    Yields ρ m (act >>= k) := by
  refine Ensures.bind hy ?_
  rintro w m' ⟨ρ', hs', hb', hw, hst'⟩
  refine (hk w ρ' m' hs' hb' hw).imp ?_
  rintro w' m'' ⟨ρ'', hs'', hb'', hw', hst''⟩
  exact ⟨ρ'', hs'', hb'.trans hb'', hw', hst'.trans hst'' hb'' hs'.orderly.layout⟩

theorem foldrM {f : α → Word → MachineM Word} {xs : List α} (hs : Settled [] ρ m)
    (hw : Safe ρ w) (hf : ∀ x ∈ xs, ∀ ρ' m' w, Settled [] ρ' m' → Builds ρ m ρ' m' → Safe ρ' w →
      Yields ρ' m' (f x w)) : Yields ρ m (xs.foldrM f w) := by
  induction xs with
  | nil => exact .pure hs hw
  | cons x xs ih =>
    rw [List.foldrM_cons]
    refine (ih fun y hy => hf y (List.mem_cons_of_mem x hy)).bind fun v ρ' m' hs' hb' hv => ?_
    exact hf x List.mem_cons_self ρ' m' v hs' hb' hv

end Yields

namespace Settled

variable {E : Machine → Prop} {c : Cell}

variable (hs : Settled [] ρ m)

include hs

theorem ensures_alloc (hr : r = .data ∨ r = .idle) (ht : c.t ≠ .freeT)
    (hw : ∀ w ∈ c.words, Safe ρ w)
    (hc : ∀ i, ρ i = .free ∨ ρ i = .outside → Suits (ρ.set i r) c r) :
    Ensures (liftM (Heap.alloc c) : MachineM Word) m
      (fun w m' => ∃ i, w = .ref i ∧ m'.heap.cellAt i = c ∧
        Settled [] (ρ.set i r) m' ∧ Builds ρ m (ρ.set i r) m') E := by
  refine (hs.orderly.ensures_alloc (.inr hr) ht hc fun w hm =>
    hs.orderly.layout.avoids (hw w hm)).imp ?_
  rintro w m' ⟨i, rfl, hi, htake, ho, hf, hu⟩
  refine ⟨i, rfl, htake.self, hs.set [] ho ?_ (by simp), hf.one ?_ ?_, hu⟩
  · obtain rfl | rfl := hr <;> simp [Role.isBrief]
  · obtain hi | hi := hi <;> rw [hi] <;> rfl
  · rw [Roles.set_self]
    obtain rfl | rfl := hr <;> exact .inr rfl

theorem yields_alloc (ht : c.t ≠ .freeT ∧ c.t ≠ .actorT)
    (hw : ∀ w ∈ c.words, Safe ρ w) : Yields ρ m (liftM (Heap.alloc c)) := by
  refine (hs.ensures_alloc (.inl rfl) ht.1 hw fun i hi => ⟨ht.1, ht.2, fun w hm => ?_⟩).imp ?_
  · exact (hw w hm).mono (Roles.grows_set (by obtain hi | hi := hi <;> simp [hi]) (by simp))
  · rintro w m' ⟨i, rfl, -, hs', hb⟩
    exact ⟨_, hs', hb, .inr (Roles.set_self ..), .set rfl .refl⟩

theorem yields_list {items : List Word} (hi : ∀ w ∈ items, Safe ρ w) :
    Yields ρ m (Assembler.list items) := by
  have ht : Word.pairT ≠ .freeT ∧ Word.pairT ≠ .actorT := by decide
  rw [show Assembler.list items = items.foldrM (fun x w => liftM (Heap.cons x w)) .nil from
    liftM_foldrM ..]
  exact .foldrM hs safe_nil fun x hx ρ' m' w hs' hb' hw =>
    hs'.yields_alloc ht (safe_pair (hb'.safe (hi x hx)) hw)

theorem yields_chain {code : List Instruction} {next : Word} (hc : ∀ i ∈ code, Safe ρ i.operand)
    (hn : Safe ρ next) :
    Yields ρ m (Assembler.chain code next) := by
  have ht : Word.instrT ≠ .freeT ∧ Word.instrT ≠ .actorT := by decide
  refine .foldrM hs hn fun i hi ρ' m' w hs' hb' hw => hs'.yields_alloc ht ?_
  simp only [Instruction.toCell, Cell.words, List.mem_cons, List.not_mem_nil, or_false]
  rintro w' (rfl | rfl | rfl | rfl)
  · exact .literal (by decide)
  · trivial
  · exact hb'.safe (hc i hi)
  · split
    · exact safe_undefined
    · exact hw

theorem yields_block {code : List Instruction}
    (hc : ∀ i ∈ code, Safe ρ i.operand) : Yields ρ m (Assembler.block code) := by
  unfold Assembler.block
  split
  · exact Ensures.ite (fun _ => hs.yields_chain hc safe_undefined) fun _ => .inr trivial
  · exact .inr trivial

theorem yields_string (s : String) : Yields ρ m (Assembler.string s) := by
  rw [show Assembler.string s = Assembler.list (s.toList.map fun c => .fix c.toNat) from rfl]
  refine hs.yields_list fun w hw => ?_
  obtain ⟨c, -, rfl⟩ := List.mem_map.1 hw
  exact safe_fix _

theorem ensures_newActor {state : Word} (hb : Safe ρ beh) (hst : Safe ρ state) :
    Ensures (newActor beh state) m
      (fun w m' => ∃ ρ', Settled [] ρ' m' ∧ Builds ρ m ρ' m' ∧ Safe ρ' w ∧
        Staffs ρ ρ' m'.heap) (m = ·) := by
  unfold newActor
  rw [ensures_look_bind]
  dsimp only
  refine .ite (fun _ => .inr rfl) fun hcode => ?_
  rw [ensures_look_bind]
  refine .ite (fun _ => .inr rfl) fun _ => ?_
  have ht : Word.actorT ≠ .freeT := by decide
  refine (hs.ensures_alloc (c := ⟨.actorT, beh, state, .undefined⟩) (.inr rfl) ht
    (Cell.forall_words.2 ⟨.literal (by decide), hb, hst, safe_undefined⟩) fun i hi => ?_).bind ?_
  · have hg : Grows ρ (ρ.set i .idle) :=
      Roles.grows_set (by obtain hi | hi := hi <;> simp [hi]) (by simp)
    exact ⟨rfl, hb.mono hg, hst.mono hg, rfl⟩
  · rintro w m' ⟨i, rfl, hcell, hs', hb'⟩
    refine ⟨_, hs', hb', ?_, fun a ha => ?_⟩
    · change ρ.set i .idle i ≠ .condemned
      simp
    · by_cases hai : a = i
      · rw [hai, hcell]
        exact .inr (hb'.isCode hs.orderly.layout hb (by simpa using hcode))
      · rw [Roles.set_ne _ _ hai] at ha
        exact .inl ha

theorem yields_newActor {state : Word} (hb : Safe ρ beh) (hst : Safe ρ state) :
    Yields ρ m (newActor beh state) :=
  (hs.ensures_newActor hb hst).mono (fun _ _ h => h) fun _ _ => trivial

theorem yields_actor {state : List Word} (hb : Safe ρ beh)
    (hst : ∀ w ∈ state, Safe ρ w) : Yields ρ m (Assembler.actor beh state) :=
  (hs.yields_list hst).bind fun _ _ _ hs' hb' hw => hs'.yields_newActor (hb'.safe hb) hw

theorem ensures_unspell {l : List Nat} {chars sym : Word}
    (ho : Orderly (ρ.setAll l .held) m') (hstr : Strung (ρ.setAll l .held) m'.heap chars l)
    (hfresh : ∀ i ∈ l, ρ i = .free ∨ ρ i = .outside)
    (hf : Frame (fun i _ => i ∈ l) ρ m.heap (ρ.setAll l .held) m'.heap) (hu : Untouched m m')
    (hsym : Safe (ρ.setAll l .held) sym) :
    Ensures (do
        if (← Heap.fetch sym .y) ≠ chars then Heap.freeSpine chars
        return sym : MachineM Word) m'
      (fun w m'' => ∃ ρ'', Settled [] ρ'' m'' ∧ Builds ρ m ρ'' m'' ∧ Safe ρ'' w ∧
        Staffs ρ ρ'' m''.heap)
      fun _ => True := by
  have hl := ho.layout
  have hspare : ∀ i ∈ l, (ρ i).isSpare = true := by
    intro i hi
    obtain h | h := hfresh i hi <;> rw [h] <;> rfl
  refine ensures_fetch_bind fun k hk hlt => ?_
  subst hk
  have hy : Safe _ ((m'.heap.cellAt k).get .y) := hl.safe_field hsym (decide_eq_true hlt) .y
  dsimp only
  refine .ite (fun _ => ?_) fun hne => ?_
  · refine (ho.ensures_freeSpine (hstr.pairs hl) fun i hi => (hstr.2 i hi).1).bind ?_
    rintro - m'' ⟨ho'', hf', hu'⟩
    refine ⟨_, ⟨ho'', fun i hi => ?_⟩, ⟨(hf.trans hf').select (fun i hi => hspare i hi) ?_,
      hu.trans hu'⟩, hsym.mono hf'.grows, .setAll rfl (.setAll rfl .refl)⟩
    · by_cases hil : i ∈ l
      · rw [Roles.setAll_mem _ hil] at hi
        cases hi
      · rw [Roles.setAll_not_mem _ hil, Roles.setAll_not_mem _ hil] at hi
        exact hs.brief i hi
    · intro i hi _
      rw [Roles.setAll_mem _ hi]
      exact .inl rfl
  · -- A symbol that was there before cannot have the new list for a spelling, unless both are
    -- empty.
    obtain rfl : l = [] := by
      cases l with
      | nil => rfl
      | cons i l =>
        rw [show (m'.heap.cellAt k).get .y = chars from Decidable.not_not.1 hne, hstr.1.1] at hy
        have hi := (hstr.2 i List.mem_cons_self).1
        obtain hr | hd := hy
        · exact absurd hstr.1.2.1 (Nat.not_le.2 hr)
        · rw [hi] at hd
          cases hd
    rw [Roles.setAll_nil] at ho hf hsym
    exact ⟨ρ, ⟨ho, hs.brief⟩, ⟨hf.mono (by simp), hu⟩, hsym, .refl⟩

theorem yields_symbol (name : String) : Yields ρ m (intern name) := by
  have hcodes : ∀ w ∈ name.toList.map fun c => Word.fix c.toNat, Safe ρ w := by
    intro w hw
    obtain ⟨c, -, rfl⟩ := List.mem_map.1 hw
    exact safe_fix _
  rw [intern_eq]
  unfold Heap.ofText
  refine (hs.orderly.ensures_ofItems hcodes).bind ?_
  rintro chars m₁ ⟨l, ho₁, hstr, hfresh, hf₁, hu₁⟩
  obtain ⟨hopub, hfpub, hchars⟩ := ho₁.publish hstr
  refine (ho₁.ensures_internList hopub hchars trivial).bind ?_
  rintro sym m₂ (⟨rfl, hsym⟩ | ⟨i, j, rfl, hij, hy, ho₂, hf₂, hu₂⟩)
  · exact hs.ensures_unspell ho₁ hstr hfresh hf₁ hu₁ hsym
  · refine ensures_fetch_bind fun k hk _ => ?_
    cases hk
    rw [show (m₂.heap.cellAt i).get .y = chars from hy]
    dsimp only
    rw [if_neg (by simp)]
    have hdata : ∀ k ∈ l, (ρ.setAll l .held).setAll l .data k = .data := fun k hk =>
      Roles.setAll_mem _ hk
    refine ⟨_, ⟨ho₂, fun k hk => ?_⟩, ⟨(hf₁.select (fun k hk => ?_) fun k hk _ => ?_).trans
      (hfpub.trans hf₂), hu₁.trans hu₂⟩, .inr ?_,
      .set rfl (.set rfl (.setAll rfl (.setAll rfl .refl)))⟩
    · by_cases hkj : k = j
      · rw [hkj, Roles.set_self] at hk
        cases hk
      · rw [Roles.set_ne _ _ hkj] at hk
        by_cases hki : k = i
        · rw [hki, Roles.set_self] at hk
          cases hk
        · rw [Roles.set_ne _ _ hki] at hk
          by_cases hkl : k ∈ l
          · rw [hdata k hkl] at hk
            cases hk
          · rw [Roles.setAll_not_mem _ hkl, Roles.setAll_not_mem _ hkl] at hk
            exact hs.brief k hk
    · obtain h | h := hfresh k hk <;> rw [h] <;> rfl
    · rw [Roles.setAll_mem _ hk]
      exact .inl rfl
    · rw [Roles.set_ne _ _ hij, Roles.set_self]

end Settled

def Role.isBasic : Role → Bool
  | outside | lost | free | data | idle => true
  | _ => false

def Role.isResting : Role → Bool
  | outside | lost | free | data | idle | stopped => true
  | _ => false

theorem Role.isResting_of_isBasic (hr : r.isBasic = true) : r.isResting = true := by
  cases r <;> first | rfl | cases hr

/-- Nothing has been sent yet. -/
structure Built (ρ : Roles) (m : Machine) : Prop where
  settled : Settled [] ρ m
  basic : ∀ i, (ρ i).isBasic = true

theorem Built.ne_condemned (hb : Built ρ m) (i : Nat) : ρ i ≠ .condemned := by
  intro hi
  have := hb.basic i
  rw [hi] at this
  cases this

theorem Built.resting (hb : Built ρ m) (i : Nat) : (ρ i).isResting = true :=
  Role.isResting_of_isBasic (hb.basic i)

theorem Built.next (hb : Built ρ m) (hs : Settled [] ρ' m') (hn : Builds ρ m ρ' m') :
    Built ρ' m' := by
  refine ⟨hs, fun i => ?_⟩
  obtain ⟨hr, -⟩ | ⟨-, hr | hr⟩ := hn.frame.changes i
  · rw [hr]
    exact hb.basic i
  · cases hρ : ρ' i with
    | outside | free => rfl
    | held => exact absurd (hs.brief i (by rw [hρ]; rfl)) List.not_mem_nil
    | _ =>
      rw [hρ] at hr
      cases hr
  · cases hρ : ρ' i <;> rw [hρ] at hr <;> first | rfl | cases hr

def Roles.seal (ρ : Roles) : Roles := fun i => if ρ i = .free then .lost else ρ i

theorem Roles.seal_eq {i : Nat} (hf : r ≠ .free) (hl : r ≠ .lost) : ρ.seal i = r ↔ ρ i = r := by
  unfold Roles.seal
  split
  · next h =>
    rw [h]
    exact iff_of_false hl.symm hf.symm
  · rfl

theorem Roles.grows_seal : Grows ρ ρ.seal :=
  ⟨fun _ => (seal_eq (by simp) (by simp)).2, fun _ => (seal_eq (by simp) (by simp)).1⟩

theorem Layout.seal {events threads : Queue} (hl : Layout ρ h events threads)
    (hb : ∀ i, (ρ i).isResting = true) :
    Layout ρ.seal h.sealed events threads := by
  have hseal : ∀ i (r : Role), r ≠ .free → r ≠ .lost → (ρ.seal i = r ↔ ρ i = r) := fun i r =>
    Roles.seal_eq
  have hmember : ∀ (k : Bundle) o i, ρ.seal i = k.member o ↔ ρ i = k.member o := fun k o i =>
    hseal i _ (by cases k <;> simp [Bundle.member]) (by cases k <;> simp [Bundle.member])
  have howner : ∀ (k : Bundle) o, k.owner (ρ.seal o) = k.owner (ρ o) := by
    intro k o
    unfold Roles.seal
    split
    · next h =>
      rw [h]
      cases k <;> rfl
    · rfl
  refine ⟨hl.sound.sealed, hl.literals, fun i => ?_, hl.coherent.congr fun i r hr =>
    hseal i r ?_ ?_, fun k o i hi => ?_, fun k o ho => ?_, ?_, ?_⟩
  · have hi := hb i
    have hp := (hl.fits i).1
    have hs := (hl.fits i).2
    cases hr : ρ i with
    | free =>
      rw [hr] at hp hs
      rw [show ρ.seal i = .lost by simp [Roles.seal, hr]]
      exact ⟨⟨Nat.le_trans hl.reserved_le_permanent hp.1, hp.2⟩, hs⟩
    | lost =>
      rw [hr] at hp hs
      rw [show ρ.seal i = .lost by simp [Roles.seal, hr]]
      exact ⟨⟨hp.1, Nat.lt_of_lt_of_le hp.2 hl.permanent_le⟩, hs⟩
    | outside | data | idle | stopped =>
      rw [hr] at hp hs
      rw [(hseal i _ (by simp) (by simp)).2 hr]
      exact ⟨hp, hs.mono Roles.grows_seal⟩
    | _ =>
      rw [hr] at hi
      cases hi
  · rintro rfl
    cases hr
  · rintro rfl
    cases hr
  · rw [howner]
    exact hl.owned k o i ((hmember k o i).1 hi)
  · rw [howner] at ho
    exact Listed.congr (h := h) rfl (hmember k o) (fun _ _ => rfl) (hl.listed k o ho)
  · obtain ⟨l, hq, hm⟩ := hl.queue
    refine ⟨l, Queue.Holds.congr (h := h) (fun _ _ => rfl) hq, fun i => (hm i).trans ?_⟩
    exact (hseal i _ (by simp) (by simp)).symm
  · obtain ⟨l, hq, hm⟩ := hl.line
    refine ⟨l, Queue.Holds.congr (h := h) (fun _ _ => rfl) hq, fun i => (hm i).trans ?_⟩
    unfold Roles.seal
    split
    · next h =>
      rw [h]
      exact Iff.rfl
    · exact Iff.rfl

theorem Machine.ensures_sealImage {E : Machine → Prop} (hs : m.heap.Sound) :
    Ensures sealImage m (fun _ m' => Quiet { m with heap := m.heap.sealed } m') E := by
  obtain ⟨l, hf⟩ := hs.allocator
  unfold sealImage
  refine Ensures.bind (Q := fun _ m' => m' = { m with heap := m.heap.sealed }) ?_ ?_
  · rw [ensures_onHeap]
    unfold Ensures
    rw [hf.sealCells_eq]
    by_cases hlen : l.length ≤ m.heap.sanity
    · rw [if_pos hlen]
    · rw [if_neg hlen]
      exact .inl rfl
  rintro n m' rfl
  exact (Silent.note _).ensures fun _ m' hq => hq

theorem Settled.seal (hs : Settled [] ρ m) (hb : ∀ i, (ρ i).isResting = true) :
    Settled [] ρ.seal { m with heap := m.heap.sealed } := by
  have hsh := hs.orderly.shuns
  refine ⟨⟨hs.orderly.layout.seal hb, fun w hw => ?_, ?_, hs.orderly.lit⟩, fun i hi => ?_⟩
  · exact (hs.orderly.kept w hw).mono Roles.grows_seal
  · exact Heap.Shuns.of_iff (C := ρ.condemned) ⟨hsh.reserved_le, hsh.apart, hsh.color⟩
      fun i => Roles.seal_eq (by simp) (by simp)
  · refine hs.brief i ?_
    unfold Roles.seal at hi
    split at hi
    · cases hi
    · exact hi

theorem Built.ensures_seal {E : Machine → Prop} (hb : Built ρ m) :
    Ensures sealImage m
      (fun _ m' => Built ρ.seal m' ∧ m'.heap.colors = m.heap.colors ∧ Steady m m' ∧
        m'.stats = m.stats) E := by
  refine (ensures_sealImage hb.settled.orderly.layout.sound).imp ?_
  rintro - m' hq
  have hs := hb.settled.seal hb.resting
  refine ⟨⟨hs.quiet hq, fun i => ?_⟩, by rw [hq.heap]; rfl,
    ⟨hq.config, hq.pinned, hq.collector, by rw [hq.clock]⟩, hq.stats⟩
  unfold Roles.seal
  split
  · rfl
  · exact hb.basic i

end ActorMachine
