import ActorMachine.Proofs.FaultFreeRounds
import ActorMachine.Proofs.Capability
import ActorMachine.Proofs.Incremental
import ActorMachine.Proofs.Isolation

namespace ActorMachine

open Machine

variable {S : Nat → Prop} {ρ ρ' : Roles} {h h' : Heap} {m m' : Machine} {w : Word} {t e a : Nat}
  {events threads events' threads' : Queue}
variable {i : Instruction} {c : Nat} {en : Ending}

def Heap.Runnable (S : Nat → Prop) (h : Heap) (w : Word) : Prop :=
  ∃ i, w = .ref i ∧ (h.isCode w = true ∨ S i)

/-- The behaviours of actors, and those that they are about to take on. -/
inductive Behavior (ρ : Roles) (h : Heap) : Word → Prop
  | actor {a : Nat} : (ρ a).isActor = true → Behavior ρ h (h.cellAt a).x
  | staged {e p : Nat} : ρ p = .staged e → (h.cellAt e).z = .ref p → Behavior ρ h (h.cellAt p).x

def Coded (S : Nat → Prop) (ρ : Roles) (h : Heap) : Prop := ∀ w, Behavior ρ h w → h.Runnable S w

theorem Heap.Runnable.of_isCode (hc : h.isCode w = true) : h.Runnable S w := by
  obtain ⟨i, rfl, -⟩ := hasType_iff.1 hc
  exact ⟨i, rfl, .inl hc⟩

theorem Layout.safe_actor (hl : Layout ρ h events threads) (ha : (ρ a).isActor = true) :
    Safe ρ (h.cellAt a).x := by
  have hs := (hl.fits a).2
  cases hr : ρ a with
  | idle | busy | stopped | transit =>
    rw [hr] at hs
    exact hs.2.1
  | _ =>
    rw [hr] at ha
    cases ha

theorem Behavior.safe (hb : Behavior ρ h w) (hl : Layout ρ h events threads) : Safe ρ w := by
  cases hb with
  | actor ha => exact hl.safe_actor ha
  | @staged e p hp =>
    have hs := (hl.fits p).2
    rw [hp] at hs
    exact hs.2.1

theorem Heap.Runnable.mono (hr : h.Runnable S w) (hl : Layout ρ h events threads) (hw : Safe ρ w)
    (hc : ∀ i, w = .ref i → ρ i = .data → (h.cellAt i).t = .instrT →
      i < h'.top ∧ (h'.cellAt i).t = .instrT ∨ S i) : h'.Runnable S w := by
  obtain ⟨i, rfl, hcode | hs⟩ := hr
  · obtain ⟨j, hj, hdata⟩ := hl.data_of_isCode hw hcode
    cases hj
    obtain ⟨j, hj, -, ht⟩ := hasType_iff.1 hcode
    cases hj
    refine ⟨i, rfl, (hc i rfl hdata ht).imp_left fun h => hasType_iff.2 ⟨i, rfl, h⟩⟩
  · exact ⟨i, rfl, .inr hs⟩

namespace Role

def isTied : Role → Bool
  | data | idle | busy _ | stopped | transit | handled .. | staged _ => true
  | _ => false

variable {r : Role}

theorem isTied_of_isActor (hr : r.isActor = true) : r.isTied = true := by
  cases r <;> first | rfl | cases hr

theorem isTied_of_isHandled (hr : r.isHandled = true) : r.isTied = true := by
  cases r <;> first | rfl | cases hr

theorem not_isTied_of_isSpare (hr : r.isSpare = true) : r.isTied = false := by
  cases r <;> first | rfl | cases hr

theorem not_isTied_of_inLine (hr : r.inLine = true) : r.isTied = false := by
  cases r <;> first | rfl | cases hr

end Role

theorem Posting.not_isTied {i : Nat} {r : Role} (hr : Posting i r) : r.isTied = false := by
  obtain hr | rfl := hr
  · exact Role.not_isTied_of_isSpare hr
  · rfl

def KeepsCode (S : Nat → Prop) (ρ : Roles) (h h' : Heap) : Prop :=
  ∀ i, ρ i = .data → (h.cellAt i).t = .instrT → i < h'.top ∧ (h'.cellAt i).t = .instrT ∨ S i

theorem Coded.next (hc : Coded S ρ h) (hl : Layout ρ h events threads) (hk : KeepsCode S ρ h h')
    (hb : ∀ w, Behavior ρ' h' w → Behavior ρ h w ∨ h'.Runnable S w) : Coded S ρ' h' := by
  intro w hw
  obtain hw | hw := hb w hw
  · exact (hc w hw).mono hl (hw.safe hl) fun i _ => hk i
  · exact hw

namespace Frame

variable {M : Nat → Role → Prop}

theorem keepsCode (hf : Frame M ρ h ρ' h') (hl : Layout ρ h events threads)
    (hd : ∀ i, ρ i = .data → ¬ M i .data) : KeepsCode S ρ h h' := by
  intro i hi ht
  have hlt := (hl.bounds (i := i) (by rw [hi]; simp)).2
  have hsame := hf.same (i := i) (by rw [hi]; exact hd i hi)
  exact .inl ⟨Nat.lt_of_lt_of_le hlt hf.top_le, by rw [hsame.2, ht]⟩

theorem behavior (hf : Frame M ρ h ρ' h') (hl' : Layout ρ' h' events' threads')
    (ha : ∀ a, (ρ' a).isActor = true → M a (ρ' a) → Behavior ρ h (h'.cellAt a).x)
    (hs : ∀ e p, ρ' p = .staged e → (h'.cellAt e).z = .ref p → M e (ρ' e) ∨ M p (ρ' p) →
      h'.Runnable S (h'.cellAt p).x)
    (hn : ∀ a, ρ' a = .idle → M a (ρ a) → ¬ M a (ρ' a) → h'.Runnable S (h'.cellAt a).x)
    (hw : Behavior ρ' h' w) : Behavior ρ h w ∨ h'.Runnable S w := by
  cases hw with
  | @actor a hact =>
    by_cases hm' : M a (ρ' a)
    · exact .inl (ha a hact hm')
    · obtain hsame | ⟨hm, hnew⟩ := hf.changes a
      · rw [hsame.2]
        exact .inl (.actor (hsame.1 ▸ hact))
      · exact .inr (hn a (Role.eq_idle (hnew.resolve_left hm') hact) hm hm')
  | @staged e p hp hz =>
    by_cases hm : M e (ρ' e) ∨ M p (ρ' p)
    · exact .inr (hs e p hp hz hm)
    · obtain ⟨hme, hmp⟩ := not_or.1 hm
      have howner : (ρ' e).isHandled = true := hl'.owned .become e p hp
      have hnew : (ρ' e).isNew = false := by
        cases hr : ρ' e <;> rw [hr] at howner <;> first | rfl | cases howner
      have hp' := hf.same_of_after hmp (by rw [hp]; rfl)
      have he' := hf.same_of_after hme hnew
      rw [hp'.2]
      exact .inl (.staged (hp'.1 ▸ hp) (he'.2 ▸ hz))

end Frame

namespace Coded

theorem frame {M : Nat → Role → Prop} (hc : Coded S ρ h) (hl : Layout ρ h events threads)
    (hl' : Layout ρ' h' events' threads') (hf : Frame M ρ h ρ' h')
    (ht : ∀ i, M i (ρ i) → (ρ i).isTied = false) (ht' : ∀ i, M i (ρ' i) → (ρ' i).isTied = false)
    (hn : ∀ a, ρ' a = .idle → M a (ρ a) → h'.Runnable S (h'.cellAt a).x) : Coded S ρ' h' := by
  refine hc.next hl (hf.keepsCode hl fun i hi hm => ?_) fun w =>
    hf.behavior hl' (fun a ha hm => ?_) (fun e p hp _ hm => ?_) fun a ha hm _ => hn a ha hm
  · have := ht i (hi ▸ hm)
    rw [hi] at this
    cases this
  · cases (Role.isTied_of_isActor ha).symm.trans (ht' a hm)
  · obtain hm | hm := hm
    · have howner : (ρ' e).isHandled = true := hl'.owned .become e p hp
      cases (Role.isTied_of_isHandled howner).symm.trans (ht' e hm)
    · have := ht' p hm
      rw [hp] at this
      cases this

theorem posts (hc : Coded S ρ m.heap) (hl : m.Arranged ρ)
    (hl' : m'.Arranged ρ') (hp : Posts ρ m ρ' m') : Coded S ρ' m'.heap := by
  refine hc.frame hl hl' hp.keeps.frame (fun _ => Posting.not_isTied) (fun _ => Posting.not_isTied)
    fun a ha hm => ?_
  have := Posting.not_isTied hm
  rw [← hp.new a (by rw [ha]; rfl), ha] at this
  cases this

theorem builds (hc : Coded S ρ m.heap) (hl : m.Arranged ρ)
    (hl' : m'.Arranged ρ') (hb : Builds ρ m ρ' m') (hs : Staffs ρ ρ' m'.heap) :
    Coded S ρ' m'.heap := by
  refine hc.frame hl hl' hb.frame (fun _ => Role.not_isTied_of_isSpare) (fun _ =>
    Role.not_isTied_of_isSpare)
    fun a ha hm => ?_
  obtain hact | hcode := hs a (by rw [ha]; rfl)
  · cases (Role.isTied_of_isActor hact).symm.trans (Role.not_isTied_of_isSpare hm)
  · exact .of_isCode hcode

theorem thins (hc : Coded S ρ h) (hl : Layout ρ h events threads)
    (hl' : Layout ρ' h' events' threads') (ht : Thins ρ h ρ' h') : Coded S ρ' h' := by
  have hkept : ∀ i, (ρ' i).isTied = true → ρ' i ≠ .data → Same ρ ρ' h h' i := by
    intro i hi hd
    obtain ⟨hcell, hr⟩ := ht i (by cases hr : ρ' i <;> rw [hr] at hi <;> first | rfl | cases hi)
      (fun hr => by rw [hr] at hi; cases hi)
    exact ⟨hr.resolve_right fun h => hd h.1, hcell⟩
  intro w hw
  have hold : Behavior ρ h w := by
    cases hw with
    | @actor a ha =>
      obtain ⟨hr, hcell⟩ := hkept a (Role.isTied_of_isActor ha) fun h => by rw [h] at ha; cases ha
      rw [hcell]
      exact .actor (hr ▸ ha)
    | @staged e p hp hz =>
      have howner : (ρ' e).isHandled = true := hl'.owned .become e p hp
      obtain ⟨hrp, hcp⟩ := hkept p (by rw [hp]; rfl) (by rw [hp]; simp)
      obtain ⟨hre, hce⟩ := hkept e (Role.isTied_of_isHandled howner) fun h => by
        rw [h] at howner; cases howner
      rw [hcp]
      exact .staged (hrp ▸ hp) (hce ▸ hz)
  refine (hc w hold).mono hl (hold.safe hl) fun i hi hdata hcode => .inl ?_
  have hdata' : ρ' i = .data := by
    have hsafe := hw.safe hl'
    rw [hi] at hsafe
    exact hsafe.resolve_left (Nat.not_lt.2 (hl.bounds (by rw [hdata]; simp)).1)
  rw [(ht i (by rw [hdata']; rfl) (by rw [hdata']; simp)).1]
  exact ⟨(hl'.bounds (by rw [hdata']; simp)).2, hcode⟩

theorem relays (hc : Coded S ρ m.heap) (hl : m.Arranged ρ)
    (hl' : m'.Arranged ρ) (hr : Relays ρ m m') : Coded S ρ m'.heap := by
  refine hc.frame hl hl' hr.frame (fun _ => Role.not_isTied_of_inLine) (fun _ =>
    Role.not_isTied_of_inLine)
    fun a ha hm => ?_
  rw [ha] at hm
  cases hm

theorem retires (hc : Coded S ρ m.heap) (hcl : Closing t e [] ρ m)
    (hl' : m'.Arranged ρ') (hr : Retires t e ρ m ρ' m') : Coded S ρ' m'.heap := by
  refine hc.frame hcl.orderly.layout hl' hr.frame (fun i hi => ?_) (fun i hi => ?_)
    fun a ha hm => ?_
  · obtain rfl | rfl := hi
    · rw [hcl.thread]
      rfl
    · rw [hcl.event]
      rfl
  · obtain rfl | rfl := hi
    · rw [hr.free.1]
      rfl
    · rw [hr.free.2]
      rfl
  · obtain rfl | rfl := hm
    · cases ha.symm.trans hr.free.1
    · cases ha.symm.trans hr.free.2

theorem begins (hc : Coded S ρ m.heap) (hl : m.Arranged ρ)
    (hl' : m'.Arranged ρ') (hb : Begins t e a ρ m ρ' m') : Coded S ρ' m'.heap := by
  obtain ⟨he, ha⟩ := hl'.coherent.thread t e a hb.thread
  have hparty : ∀ {i r}, Beginning t e a i r → r.isTied = true → i = t ∨ i = e ∨ i = a := by
    rintro i r (h | h | h | h | h | h) hr
    · cases hr.symm.trans h.not_isTied
    · cases hr.symm.trans (Role.not_isTied_of_inLine h)
    · exact .inl h
    · exact .inr (.inl h)
    · exact .inr (.inr h)
    · rw [h] at hr
      cases hr
  have hold : ∀ i, Beginning t e a i (ρ i) → (ρ i).isTied = true → i = a := by
    intro i hi hr
    obtain rfl | rfl | rfl := hparty hi hr
    · cases hr.symm.trans hb.free.1.not_isTied
    · cases hr.symm.trans hb.free.2.not_isTied
    · rfl
  refine hc.next hl (hb.frame.keepsCode hl fun i hi hm => ?_) fun w =>
    hb.frame.behavior hl' (fun b hact hm => ?_) (fun d p hp hz hm => ?_) fun b hidle hm _ => ?_
  · cases hold i (hi ▸ hm) (by rw [hi]; rfl)
    cases hi.symm.trans hb.idle
  · obtain rfl | rfl | rfl := hparty hm (Role.isTied_of_isActor hact)
    · rw [hb.thread] at hact
      cases hact
    · rw [he] at hact
      cases hact
    · rw [hb.actor]
      exact .actor (by rw [hb.idle]; rfl)
  · have howner : (ρ' d).isHandled = true := hl'.owned .become d p hp
    have hd : d = e := by
      obtain hm | hm := hm
      · obtain rfl | rfl | rfl := hparty hm (Role.isTied_of_isHandled howner)
        · rw [hb.thread] at howner
          cases howner
        · rfl
        · rw [ha] at howner
          cases howner
      · obtain rfl | rfl | rfl := hparty hm (by rw [hp]; rfl)
        · cases hp.symm.trans hb.thread
        · cases hp.symm.trans he
        · cases hp.symm.trans ha
    rw [hd, hb.staged] at hz
    have := (hl'.bounds (i := p) (by rw [hp]; simp)).1
    cases hz
    exact absurd this (by decide)
  · have hnew := hb.new b (by rw [hidle]; rfl)
    cases hold b hm (by rw [← hnew, hidle]; rfl)
    cases hidle.symm.trans ha

end Coded

def Authority.crew (A : Nat → Prop) : Authority :=
  ⟨fun _ => True, fun _ => True, fun _ h => h, True, A⟩

theorem Layout.vouched {A : Nat → Prop} (hl : m.Arranged ρ)
    (ha : ∀ i, (m.heap.cellAt i).t = .actorT → A i) : m.Vouched (.crew A) := by
  have hany : ∀ w : Word, w.Granted fun _ => True := fun w => by cases w <;> trivial
  have hmarkers : ∀ i < Word.reserved, (Cell.initial i).t ≠ .instrT := by decide
  refine ⟨⟨fun _ w _ => hany w, hany _, fun _ => ⟨ha, fun i hi => ?_, hl.reserved_le_permanent⟩⟩,
    fun w _ => hany w, ⟨hany _, hany _⟩, ⟨hany _, hany _⟩, fun w _ => hany w, fun w _ => hany w⟩
  rw [hl.literals i hi]
  exact hmarkers i hi

namespace Machine

theorem leaves_perform {next : Word} (hl : m.Arranged ρ) :
    Leaves (Vouched (.crew fun b => (m.heap.cellAt b).t = .actorT ∨
        ∃ n w m₁, i = .new n ∧ makeActor n m = .ok w m₁ ∧ b = w.index))
      (perform i next) (fun _ => True) m := by
  have hv := hl.vouched (A := fun b => (m.heap.cellAt b).t = .actorT ∨
    ∃ n w m₁, i = .new n ∧ makeActor n m = .ok w m₁ ∧ b = w.index) fun _ => .inl
  by_cases hnew : ∃ n, i = .new n
  · obtain ⟨n, rfl⟩ := hnew
    refine (sheltered.createActor hv fun w m₁ hr =>
      ⟨trivial, .inr ⟨n, w, m₁, rfl, hr, rfl⟩⟩).bind ?_
    exact fun _ _ _ hm _ => ⟨hm, trivial⟩
  · refine honest_perform ?_ (fun n h => hnew ⟨n, h⟩) m hv
    cases i.operand <;> trivial

end Machine

def Heap.Recruits (h h' : Heap) : Prop :=
  ∀ b, (h'.cellAt b).t = .actorT → (h.cellAt b).t = .actorT ∨ h'.isCode (h'.cellAt b).x = true

theorem Heap.Recruits.staffs (hr : h.Recruits h') (hl : Layout ρ h events threads)
    (hl' : Layout ρ' h' events' threads') (hn : ∀ b, (ρ' b).isActor = true → ρ b ≠ .condemned) :
    Staffs ρ ρ' h' := by
  intro b hb
  have htype : (h'.cellAt b).t = .actorT :=
    (hl'.isActor_iff (by rintro h; rw [h] at hb; cases hb)
      (by rintro h; rw [h] at hb; cases hb)).2 hb
  exact (hr b htype).imp_left (hl.isActor_of_type (hn b hb))

namespace Open

theorem not_mine {held : List Nat} {i : Nat} (ho : Open t e a held ρ m) (hi : (ρ i).isTied = true) :
    ¬ Mine t i (ρ i) := by
  rintro (rfl | h | h)
  · rw [ho.role] at hi
    cases hi
  · cases hi.symm.trans (Role.not_isTied_of_isSpare h)
  · rw [h] at hi
    cases hi

variable (ho : Open t e a [] ρ m)

include ho

theorem ensures_createActor (n : Int) : Ensures (createActor n) m
      (fun _ m' => ∀ w m₁, makeActor n m = .ok w m₁ →
        m'.heap.isCode (m'.heap.cellAt w.index).x = true)
      fun _ => ∀ w m₁, makeActor n m ≠ .ok w m₁ := by
  rw [createActor_eq]
  refine Ensures.bind ((Ensures.refusal (ho.runs_makeActor n)).result.mono (fun _ _ h => h) ?_) ?_
  · rintro m' ⟨⟨f, hf⟩, -⟩ w m₁ hr
    cases hf.symm.trans hr
  · rintro w m₁ ⟨hr, ρ₁, ho₁, -, i, rfl, hi, hcode⟩
    have hl := ho₁.orderly.layout
    refine (ho₁.ensures_push (v := .cap i) ?_).imp ?_
    · show ρ₁ i ≠ .condemned
      rw [hi]
      simp
    · rintro - m' ⟨ρ', ho', hw, -⟩ w m₂ hr'
      cases hr.symm.trans hr'
      have hsame := hw.frame.same (ho₁.not_mine (i := i) (by rw [hi]; rfl))
      change m'.heap.isCode (m'.heap.cellAt i).x = true
      rw [hsame.2]
      exact hw.isCode ho₁ (hl.safe_actor (by rw [hi]; rfl)) hcode

theorem ensures_recruits (i : Instruction) (next : Word) :
    Ensures (perform i next) m (fun _ m' => m.heap.Recruits m'.heap)
      fun m' => m.heap.Recruits m'.heap := by
  have hcreate : Ensures (perform i next) m
      (fun _ m' => ∀ n w m₁, i = .new n → makeActor n m = .ok w m₁ →
        m'.heap.isCode (m'.heap.cellAt w.index).x = true)
      fun _ => ∀ n w m₁, i = .new n → makeActor n m ≠ .ok w m₁ := by
    by_cases hnew : ∃ n, i = .new n
    · obtain ⟨n, rfl⟩ := hnew
      refine ((ho.ensures_createActor n).mono (fun _ _ h => h) fun _ h => ?_).bind fun _ _ h =>
        ensures_pure.2 ?_
      · rintro n w m₁ ⟨⟩
        exact h w m₁
      · rintro n w m₁ ⟨⟩
        exact h w m₁
    · exact Ensures.any.mono (fun _ _ _ n _ _ hi => absurd ⟨n, hi⟩ hnew) fun _ _ n _ _ hi =>
        absurd ⟨n, hi⟩ hnew
  refine ((leaves_perform ho.orderly.layout).ensures hcreate).mono ?_ ?_
  · rintro flow m' ⟨hv, hcode⟩ b hb
    refine ((hv.heap.typed trivial).1 b hb).imp_right ?_
    rintro ⟨n, w, m₁, hi, hmake, rfl⟩
    exact hcode n w m₁ hi hmake
  · rintro m' ⟨hv, hno⟩ b hb
    refine .inl (((hv.heap.typed trivial).1 b hb).resolve_right ?_)
    rintro ⟨n, w, m₁, hi, hmake, -⟩
    exact hno n w m₁ hi hmake

theorem ensures_recruitsAt (ip : Word) :
    Ensures (performAt ip) m (fun _ _ => True) fun m' => m.heap.Recruits m'.heap := by
  unfold performAt
  refine Ensures.bind (Q := fun _ m' => m = m') ?_ ?_
  · rw [ensures_ask]
    cases m.heap.instruction ip with
    | ok r => rfl
    | error f => exact .inr fun _ => .inl
  rintro ⟨i, next⟩ m' rfl
  refine (ho.ensures_recruits i next).bind ?_
  rintro (ip' | en) m' hr
  · dsimp only
    rw [ensures_look_bind]
    exact .ite (fun _ => .inr hr) fun _ => trivial
  · trivial

theorem reach_tied (hm : i.reach t e a c (ρ c)) (hr : (ρ c).isTied = true) :
    c = a ∨ (∃ f, i = .set f) ∧ ρ c = .data ∨ (∃ n, i = .beh n) ∧ (c = e ∨ ρ c = .staged e) := by
  have hmine := ho.not_mine hr
  cases i with
  | set f => exact .inr (.inl ⟨⟨f, rfl⟩, hm.resolve_left hmine⟩)
  | beh n => exact .inr (.inr ⟨⟨n, rfl⟩, hm.resolve_left hmine⟩)
  | send n =>
    obtain hm | hm := hm.resolve_left hmine
    · exact .inl hm
    · rw [hm] at hr
      cases hr
  | _ => exact absurd hm hmine

theorem not_reach (hc : ρ c = .condemned) : ¬ i.reach t e a c (ρ c) := by
  have hmine : ¬ Mine t c (ρ c) := by
    rintro (rfl | h | h)
    · cases hc.symm.trans ho.role
    · rw [hc] at h
      cases h
    · cases hc.symm.trans h
  cases i with
  | set f => exact fun h => by cases hc.symm.trans (h.resolve_left hmine)
  | beh n =>
    rintro (h | rfl | h)
    · exact hmine h
    · cases hc.symm.trans ho.roles.1
    · cases hc.symm.trans h
  | send n =>
    rintro (h | rfl | h)
    · exact hmine h
    · cases hc.symm.trans ho.roles.2
    · cases hc.symm.trans h
  | _ => exact hmine

theorem keepsCode (hp : Performs t e a i ρ m ρ' m')
    (hs : i = .set .t → ∀ v c s, m.Stacks t (v :: .ref c :: s) → m.heap.isCode (.ref c) = true →
      v ≠ .instrT → S c) : KeepsCode S ρ m.heap m'.heap := by
  have hl := ho.orderly.layout
  by_cases hset : ∃ f, i = .set f
  · obtain ⟨f, rfl⟩ := hset
    intro c hc ht
    have hlt := (hl.bounds (i := c) (by rw [hc]; simp)).2
    obtain ⟨next, ip, hrun⟩ := hp.run
    have htypes : Ensures (perform (.set f) next) m
        (fun _ m' => ∀ i, ρ i = .data → (m'.heap.cellAt i).t = (m.heap.cellAt i).t ∨
          f = .t ∧ ∀ s, m.Stacks t s → s = (m'.heap.cellAt i).t :: .ref i :: s.tail.tail)
          fun _ => True :=
      ((ho.ensures_setField f).mono (fun _ _ h => h) fun _ _ => trivial).bind
        fun _ _ ⟨_, _, _, h⟩ => ensures_pure.2 h
    by_cases ht' : (m'.heap.cellAt c).t = .instrT
    · exact .inl ⟨Nat.lt_of_lt_of_le hlt hp.confined.frame.top_le, ht'⟩
    · obtain hsame | ⟨rfl, hstack⟩ := htypes.ok hrun c hc
      · exact absurd (hsame.trans ht) ht'
      · obtain ⟨l, hpairs, -⟩ := ho.stacked
        have hlist : m.Stacks t _ := ⟨l, hpairs, rfl⟩
        refine .inr (hs rfl _ c _ (hstack _ hlist ▸ hlist) ?_ ht')
        exact Heap.hasType_iff.2 ⟨c, rfl, hlt, ht⟩
  · refine hp.confined.frame.keepsCode hl fun c hc hm => ?_
    obtain rfl | ⟨h, -⟩ | ⟨-, rfl | h⟩ := ho.reach_tied (hc ▸ hm) (by rw [hc]; rfl)
    · cases hc.symm.trans ho.roles.2
    · exact hset h
    · cases hc.symm.trans ho.roles.1
    · cases hc.symm.trans h

end Open

theorem Coded.performs (hc : Coded S ρ m.heap) (ho : Open t e a [] ρ m)
    (ho' : Open t e a [] ρ' m') (hp : Performs t e a i ρ m ρ' m')
    (hs : i = .set .t → ∀ v c s, m.Stacks t (v :: .ref c :: s) → m.heap.isCode (.ref c) = true →
      v ≠ .instrT → S c) : Coded S ρ' m'.heap := by
  have hl := ho.orderly.layout
  have hl' := ho'.orderly.layout
  refine hc.next hl (ho.keepsCode hp hs) fun w =>
    hp.confined.frame.behavior hl' (fun b hb hm => ?_) (fun d p hd hz hm => ?_) fun b hb hm _ => ?_
  · obtain rfl | ⟨-, h⟩ | ⟨-, rfl | h⟩ := ho'.reach_tied hm (Role.isTied_of_isActor hb)
    · have hx : (m'.heap.cellAt b).x = (m.heap.cellAt b).x := hp.same_actor (f := .x) (by simp)
      rw [hx]
      exact .actor (by rw [ho.roles.2]; rfl)
    · rw [h] at hb
      cases hb
    · rw [ho'.roles.1] at hb
      cases hb
    · rw [h] at hb
      cases hb
  · have howner : (ρ' d).isHandled = true := hl'.owned .become d p hd
    have hstaged : (∃ n, i = .beh n) ∧ d = e := by
      obtain hm | hm := hm
      · obtain rfl | ⟨-, h⟩ | ⟨h, rfl | h'⟩ := ho'.reach_tied hm (Role.isTied_of_isHandled howner)
        · rw [ho'.roles.2] at howner
          cases howner
        · rw [h] at howner
          cases howner
        · exact ⟨h, rfl⟩
        · rw [h'] at howner
          cases howner
      · obtain rfl | ⟨-, h⟩ | ⟨h, rfl | h'⟩ := ho'.reach_tied hm (by rw [hd]; rfl)
        · cases hd.symm.trans ho'.roles.2
        · cases hd.symm.trans h
        · cases hd.symm.trans ho'.roles.1
        · cases hd.symm.trans h'
          exact ⟨h, rfl⟩
    obtain ⟨⟨n, rfl⟩, rfl⟩ := hstaged
    exact .of_isCode (hp.effect.2.2 p hz)
  · obtain ⟨next, ip, hrun⟩ := hp.run
    have hstaffs := ((ho.ensures_recruits i next).ok hrun).staffs hl hl' fun b hb hc => by
      rw [(hp.confined.frame.same (ho.not_reach hc)).1, hc] at hb
      cases hb
    obtain hact | hcode := hstaffs b (by rw [hb]; rfl)
    · obtain rfl | ⟨-, h⟩ | ⟨-, rfl | h⟩ := ho.reach_tied hm (Role.isTied_of_isActor hact)
      · cases hb.symm.trans ho'.roles.2
      · rw [h] at hact
        cases hact
      · cases hb.symm.trans ho'.roles.1
      · rw [h] at hact
        cases hact
    · exact .of_isCode hcode

theorem Coded.within (hc : Coded S ρ m.heap) (ho : Open t e a [] ρ m) (ho' : Open t e a [] ρ' m')
    (hw : Within t ρ m ρ' m') (hr : m.heap.Recruits m'.heap) : Coded S ρ' m'.heap := by
  have hl := ho.orderly.layout
  have hl' := ho'.orderly.layout
  refine hc.frame hl hl' hw.frame (fun j hj => ?_) (fun j hj => ?_) fun b hb hm => ?_
  · exact Bool.eq_false_iff.2 fun h => ho.not_mine h hj
  · exact Bool.eq_false_iff.2 fun h => ho'.not_mine h hj
  · have hstaffs := hr.staffs hl hl' fun b hb hc => by
      rw [(hw.frame.same (ho.not_reach (i := .depth) hc)).1, hc] at hb
      cases hb
    obtain hact | hcode := hstaffs b (by rw [hb]; rfl)
    · exact absurd hm (ho.not_mine (Role.isTied_of_isActor hact))
    · exact .of_isCode hcode

theorem Closed.behavior (hcl : Closed t e a ρ m en ρ' m') (ho : Open t e a [] ρ m)
    (ha : (ρ' a).isActor = true) : Behavior ρ m.heap (m'.heap.cellAt a).x := by
  have hold : Behavior ρ m.heap (m.heap.cellAt a).x := .actor (by rw [ho.roles.2]; rfl)
  cases en with
  | abort =>
    rw [(hcl.aborted rfl).1]
    exact hold
  | stop =>
    rw [(hcl.stopped rfl).1]
    exact hold
  | release =>
    have hleaves := hcl.actor
    rw [hcl.released rfl (hleaves.resolve_right fun h => by rw [h] at ha; cases ha)]
    exact hold
  | commit =>
    obtain ⟨l, hp, hm⟩ := ho.staged
    obtain ⟨-, htakes⟩ := hcl.committed rfl _ ⟨l, hp, rfl⟩
    cases l with
    | nil =>
      rw [htakes.1]
      exact hold
    | cons p l =>
      rw [htakes.1]
      exact .staged ((hm p).1 List.mem_cons_self) hp.1.1

theorem Coded.closed (hc : Coded S ρ m.heap) (ho : Open t e a [] ρ m)
    (hcl : Closed t e a ρ m en ρ' m') : Coded S ρ' m'.heap := by
  have hl' := hcl.closing.orderly.layout
  have hframe := hcl.ends.frame
  have hactor : ρ' a = .idle ∨ ρ' a = .stopped ∨ ρ' a = .free := by
    have hleaves := hcl.actor
    cases en with
    | abort | commit => exact .inl hleaves
    | stop => exact .inr (.inl hleaves)
    | release => exact hleaves.imp_right .inr
  -- Nothing that has to do with behaviours is changed, apart from the actor itself.
  have hself : ∀ i, Final t e a i (ρ' i) → (ρ' i).isTied = true → i = a := by
    rintro i (((rfl | h | h) | rfl | h) | h | h | h) hr
    · rw [hcl.closing.thread] at hr
      cases hr
    · cases hr.symm.trans (Role.not_isTied_of_isSpare h)
    · rw [h] at hr
      cases hr
    · rw [hcl.closing.event] at hr
      cases hr
    · have howner : (ρ' e).isHandled = true := hl'.owned .become e i h
      rw [hcl.closing.event] at howner
      cases howner
    · exact h
    · rw [h] at hr
      cases hr
    · rw [h] at hr
      cases hr
  refine hc.next ho.orderly.layout (hframe.keepsCode ho.orderly.layout fun i hi hm => ?_) fun w =>
    hframe.behavior hl' (fun b hb hm => ?_) (fun d p hp hz hm => ?_) fun b hb hm hm' => ?_
  · obtain h | rfl | h | h := hm
    · exact ho.not_staging hi h
    · cases hi.symm.trans ho.roles.2
    · cases h
    · cases h
  · obtain rfl := hself b hm (Role.isTied_of_isActor hb)
    exact hcl.behavior ho hb
  · have howner : (ρ' d).isHandled = true := hl'.owned .become d p hp
    obtain hm | hm := hm
    · obtain rfl := hself d hm (Role.isTied_of_isHandled howner)
      obtain h | h | h := hactor <;> rw [h] at howner <;> cases howner
    · obtain rfl := hself p hm (by rw [hp]; rfl)
      obtain h | h | h := hactor <;> cases hp.symm.trans h
  · have hba : b ≠ a := by
      rintro rfl
      exact hm' (.inr (.inl rfl))
    have hact : (ρ b).isActor = true := by
      rw [← hcl.others b hba, hb]
      rfl
    obtain (h | rfl | h) | h | h | h := hm
    · exact absurd h (ho.not_mine (Role.isTied_of_isActor hact))
    · rw [ho.roles.1] at hact
      cases hact
    · rw [h] at hact
      cases hact
    · exact absurd h hba
    · rw [h] at hact
      cases hact
    · rw [h] at hact
      cases hact

def Machine.retyped? (m : Machine) : Option Nat :=
  let stack := (m.heap.cellAt m.threads.head.index).x
  let cell := m.heap.car (m.heap.cdr stack)
  if m.instruction? = some (.set .t) ∧ m.heap.isCode cell = true ∧ m.heap.car stack ≠ .instrT then
    some cell.index
  else none

theorem Open.retyped?_eq {ip next v : Word} {s : List Word} (ho : Open t e a [] ρ m)
    (hip : nextAddress (.ref t) m = .ok ip m')
    (hi : m'.heap.instruction ip = .ok (.set .t, next)) (hs : m.Stacks t (v :: .ref c :: s))
    (hc : m.heap.isCode (.ref c) = true) (hv : v ≠ .instrT) : m.retyped? = some c := by
  have hins : m.instruction? = some (.set .t) := instruction?_eq (by rw [ho.head]; exact hip) hi
  obtain ⟨htop, hrest⟩ := Heap.Lists.rest hs
  obtain ⟨hcell, -⟩ := hrest.rest
  unfold retyped?
  dsimp only
  rw [ho.head, Word.index, hcell, htop]
  exact if_pos ⟨hins, hc, hv⟩

theorem Coded.ceases (hc : Coded S ρ m.heap) (ho : Open t e a [] ρ m)
    (hce : Ceases t e a ρ m en ρ' m') (ho' : Open t e a [] ρ' m')
    (hs : ∀ c, m.retyped? = some c → S c) :
    Coded S ρ' m'.heap := by
  have hc₀ : Coded S ρ (m.tally .performed).heap := hc
  cases hce with
  | finish => exact hc
  | @fault ip f _ m₁ _ hip hrun hf hg hq =>
    have ho₁ : Open t e a [] ρ' m₁ := ho'.quiet hq.symm
    have hcoded : Coded S ρ' m₁.heap := by
      obtain hw | ⟨i, next, hi, hp⟩ := hg
      · exact hc₀.within (ho.tally _) ho₁ hw (((ho.tally _).ensures_recruitsAt ip).error hrun hf)
      · refine hc₀.performs (ho.tally _) ho₁ hp ?_
        rintro rfl v c s hstack hcode hv
        exact hs c (ho.retyped?_eq hip hi hstack hcode hv)
    rw [hq.heap]
    exact hcoded

theorem Coded.advances {step : Step} (hc : Coded S ρ m.heap) (ho : Open t e a [] ρ m)
    (ha : Advances t e a ρ m step ρ' m') (hl' : m'.Arranged ρ')
    (hs : ∀ c, m.retyped? = some c → S c) : Coded S ρ' m'.heap := by
  have hout := ha.outcome
  cases step with
  | noThreads => exact hout.elim
  | continued =>
    obtain ⟨ip, i, next, m₁, hip, hi, ho₁, hp, hr⟩ := hout
    have hc₀ : Coded S ρ (m.tally .performed).heap := hc
    refine (hc₀.performs (ho.tally _) ho₁ hp ?_).relays ho₁.orderly.layout hl' hr
    rintro rfl v c s hstack hcode hv
    exact hs c (ho.retyped?_eq hip hi hstack hcode hv)
  | retired en =>
    obtain ⟨ρ₁, m₁, ρ₂, m₂, hce, ho₁, hcl, hr⟩ := hout
    exact ((hc.ceases ho hce ho₁ hs).closed ho₁ hcl).retires hcl.closing hl' hr

end ActorMachine
