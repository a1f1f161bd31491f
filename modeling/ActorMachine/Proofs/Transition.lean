import ActorMachine.Proofs.Layout

namespace ActorMachine

variable {ρ ρ' : Roles} {h h' : Heap} {events events' threads threads' : Queue} {i : Nat}
variable {k k' : Bundle} {r : Role} {o : Nat} {l : List Nat} {c : Cell}

theorem Role.isPlain_of_isLoose (hr : r.isLoose = true) : r.isPlain = true := by
  cases r <;> first | rfl | cases hr

theorem Role.not_isPlain_of_isLinked (hr : r.isLinked = true) : r.isPlain = false := by
  cases r <;> first | rfl | cases hr

theorem Role.not_isPlain_of_inLine (hr : r.inLine = true) : r.isPlain = false := by
  cases r <;> first | rfl | cases hr

namespace Bundle

theorem not_isPlain_owner (hr : k.owner r = true) : r.isPlain = false := by
  cases k <;> cases r <;> first | rfl | cases hr

theorem not_isPlain_member (k : Bundle) (o : Nat) : (k.member o).isPlain = false := by
  cases k <;> rfl

theorem not_owner_member (k k' : Bundle) (o : Nat) : k'.owner (k.member o) = false := by
  cases k <;> cases k' <;> rfl

theorem member_inj {o' : Nat} (he : k.member o = k'.member o') : k = k' ∧ o = o' := by
  cases k <;> cases k' <;> first | (cases he; exact ⟨rfl, rfl⟩) | cases he

theorem owner_inj (hk : k.owner r = true) (hk' : k'.owner r = true) : k = k' := by
  cases k <;> cases k' <;> first
    | rfl
    | cases r <;> simp_all [owner, Role.isThread, Role.isHandled, Role.isOpen]

theorem member_ne_held (k : Bundle) (o : Nat) : k.member o ≠ .held := by
  cases k <;> simp [member]

theorem ne_held_of_owner (hr : k.owner r = true) : r ≠ .held := by
  rintro rfl
  cases k <;> cases hr

theorem ne_member_of_owner (hr : k'.owner r = true) : r ≠ k.member o := by
  rintro rfl
  rw [k.not_owner_member k'] at hr
  cases hr

theorem ne_member_of_inLine (hr : r.inLine = true) : r ≠ k.member o := by
  rintro rfl
  cases k <;> cases hr

theorem eq_stack (hk : k.owner r = true) (hr : r.inLine = true) : k = stack := by
  cases k <;> cases r <;>
    simp_all [owner, Role.isThread, Role.isHandled, Role.isOpen, Role.inLine]

theorem ne_outside_of_owner (hr : k.owner r = true) : r ≠ .outside := by
  rintro rfl
  cases k <;> cases hr

end Bundle

/-- A transaction has ended. Its actor gets the role, and what it has sent is held unless the actor
keeps it. -/
def Roles.finish (ρ : Roles) (t e a : Nat) (r : Role) : Roles := fun i =>
  if i = t then .spent else if i = e then .held else if i = a then r
  else if ρ i = .pending a ∧ r = .transit then .held else ρ i

def Roles.spawn (ρ : Roles) (t e a : Nat) (l : List Nat) : Roles := fun i =>
  if i = t then .thread e a else if i = e then .handled t a else if i = a then .busy t
  else if i ∈ l then .operand t else ρ i

theorem Roles.spawn_congr {t e a : Nat} (hs : ∀ i, i ≠ t → i ≠ a → i ∉ l → ρ' i = ρ i) :
    ρ'.spawn t e a l = ρ.spawn t e a l := by
  funext i
  have := hs i
  unfold spawn
  grind

def Roles.setAll (ρ : Roles) (l : List Nat) (r : Role) : Roles := fun i => if i ∈ l then r else ρ i

theorem Roles.setAll_mem (r : Role) (hi : i ∈ l) : ρ.setAll l r i = r := if_pos hi

theorem Roles.setAll_not_mem (r : Role) (hi : i ∉ l) : ρ.setAll l r i = ρ i := if_neg hi

@[simp] theorem Roles.setAll_nil (ρ : Roles) (r : Role) : ρ.setAll [] r = ρ := by
  funext i
  simp [setAll]

theorem Roles.setAll_cons (ρ : Roles) (j : Nat) (l : List Nat) (r : Role) :
    ρ.setAll (j :: l) r = (ρ.set j r).setAll l r := by
  funext i
  simp only [setAll, set, List.mem_cons]
  by_cases hj : i = j <;> by_cases hl : i ∈ l <;> simp [hj, hl]

def Roles.bundle (ρ : Roles) (k : Bundle) (o : Nat) (l : List Nat) : Roles := fun i =>
  if i ∈ l then k.member o else if ρ i = k.member o then .held else ρ i

theorem Roles.bundle_eq_iff (hl : ∀ i ∈ l, ρ i = .held ∨ ρ i = k.member o) (hr : r ≠ .held)
    (hr' : r ≠ k.member o) : ρ.bundle k o l i = r ↔ ρ i = r := by
  unfold Roles.bundle
  split
  · next hi =>
    refine iff_of_false hr'.symm ?_
    obtain e | e := hl i hi <;> rw [e]
    · exact hr.symm
    · exact hr'.symm
  · split
    · next e =>
      rw [e]
      exact iff_of_false hr.symm hr'.symm
    · rfl

theorem Roles.grows_bundle (hl : ∀ i ∈ l, ρ i = .held ∨ ρ i = k.member o) :
    Grows ρ (ρ.bundle k o l) :=
  ⟨fun _ => (bundle_eq_iff hl (by simp) (by cases k <;> simp [Bundle.member])).2,
    fun _ => (bundle_eq_iff hl (by simp) (by cases k <;> simp [Bundle.member])).1⟩

theorem Roles.bundle_owner {o' : Nat} (hl : ∀ i ∈ l, ρ i = .held ∨ ρ i = k.member o)
    (ho : k'.owner (ρ o') = true) : ρ.bundle k o l o' = ρ o' :=
  (bundle_eq_iff hl (Bundle.ne_held_of_owner ho) (Bundle.ne_member_of_owner ho)).2 rfl

theorem Roles.bundle_member : i ∈ l ↔ ρ.bundle k o l i = k.member o := by
  unfold Roles.bundle
  split
  · next hi => exact iff_of_true hi rfl
  · next hi =>
    refine iff_of_false hi ?_
    split
    · exact (k.member_ne_held o).symm
    · next e => exact e

theorem Roles.bundle_held (hi : i ∉ l) (hr : ρ i = .held ∨ ρ i = k.member o) :
    ρ.bundle k o l i = .held := by
  unfold Roles.bundle
  rw [if_neg hi]
  split
  · rfl
  · next e => exact hr.resolve_right e

theorem Roles.bundle_other (hi : i ∉ l) (hr : ρ i ≠ k.member o) : ρ.bundle k o l i = ρ i := by
  unfold Roles.bundle
  rw [if_neg hi, if_neg hr]

theorem Suits.start {c' : Cell} (hk : k.owner r = true)
    (hc : ∀ f, f ≠ k.start → c'.get f = c.get f) (hs : Suits ρ c r) : Suits ρ c' r := by
  cases k with
  | stack =>
    have ht : c'.t = c.t := hc .t (by decide)
    have hy : c'.y = c.y := hc .y (by decide)
    cases r with
    | thread => simpa only [Suits, ht, hy] using hs
    | _ => cases hk
  | become =>
    have ht : c'.t = c.t := hc .t (by decide)
    have hx : c'.x = c.x := hc .x (by decide)
    have hy : c'.y = c.y := hc .y (by decide)
    cases r with
    | handled => simpa only [Suits, ht, hx, hy] using hs
    | _ => cases hk
  | sends =>
    have ht : c'.t = c.t := hc .t (by decide)
    have hx : c'.x = c.x := hc .x (by decide)
    have hy : c'.y = c.y := hc .y (by decide)
    cases r with
    | busy | stopped => simpa only [Suits, ht, hx, hy] using hs
    | _ => cases hk

theorem Suits.link {c' : Cell} (hc : ∀ f, f ≠ k.link → c'.get f = c.get f)
    (hs : Suits ρ c (k.member o)) :
    Suits ρ c' (k.member o) := by
  have ht : c'.t = c.t := hc .t (by cases k <;> decide)
  have hx : c'.x = c.x := hc .x (by cases k <;> decide)
  cases k with
  | stack | become =>
    have hz : c'.z = c.z := hc .z (by decide)
    simpa only [Bundle.member, Suits, ht, hx, hz] using hs
  | sends =>
    have hy : c'.y = c.y := hc .y (by decide)
    simpa only [Bundle.member, Suits, ht, hx, hy] using hs

theorem Suits.held_of_member (hs : Suits ρ c (k.member o)) : Suits ρ c .held := by
  cases k <;> simp only [Bundle.member, Suits] at hs ⊢ <;> rw [hs.1] <;> decide

theorem Listed.congr (hown : (h'.cellAt o).get k.start = (h.cellAt o).get k.start)
    (hmem : ∀ i, ρ' i = k.member o ↔ ρ i = k.member o)
    (hlink : ∀ i, ρ i = k.member o → (h'.cellAt i).get k.link = (h.cellAt i).get k.link)
    (hl : Listed ρ h k o) : Listed ρ' h' k o := by
  obtain ⟨l, hc, hm⟩ := hl
  refine ⟨l, ?_, fun i => (hm i).trans (hmem i).symm⟩
  rw [hown]
  exact hc.congr fun i hi => hlink i ((hm i).1 hi)

theorem Coherent.congr (hc : Coherent ρ)
    (hsame : ∀ i r, r.isLinked = true → (ρ' i = r ↔ ρ i = r)) : Coherent ρ' := by
  constructor
  · intro t e a ht
    rw [hsame _ _ rfl] at ht
    rw [hsame _ _ rfl, hsame _ _ rfl]
    exact hc.thread t e a ht
  · intro e t a he
    rw [hsame _ _ rfl] at he
    rw [hsame _ _ rfl]
    exact hc.handled e t a he
  · intro a t ha
    rw [hsame _ _ rfl] at ha
    obtain ⟨e, he⟩ := hc.busy a t ha
    exact ⟨e, (hsame _ _ rfl).2 he⟩

theorem Placed.mono (hp : h'.permanent = h.permanent) (ht : h.top ≤ h'.top)
    (ho : r = .outside → i < Word.reserved ∨ h'.top ≤ i) (hi : Placed h i r) : Placed h' i r := by
  cases r with
  | outside => exact ho rfl
  | _ =>
    simp only [Placed, hp] at hi ⊢
    omega

section

variable {t e a : Nat}

/-- Thread, event and stack are held; the actor is on its way from idle to busy. -/
structure Roles.Ready (ρ : Roles) (t e a : Nat) (l : List Nat) : Prop where
  thread : ρ t = .held
  event : ρ e = .held
  actor : ρ a = .transit
  stack : ∀ i ∈ l, ρ i = .held
  apart : t ≠ e ∧ t ∉ l ∧ e ∉ l

namespace Roles.Ready

variable (hr : ρ.Ready t e a l)

include hr

theorem ne_actor (hi : ρ i = .held) : i ≠ a := by
  rintro rfl
  rw [hr.actor] at hi
  cases hi

theorem spawn_event : ρ.spawn t e a l e = .handled t a := by
  simp only [spawn, hr.apart.1.symm, if_false, if_true]

theorem spawn_actor : ρ.spawn t e a l a = .busy t := by
  simp only [spawn, (hr.ne_actor hr.thread).symm, (hr.ne_actor hr.event).symm, if_false, if_true]

theorem spawn_stack (hi : i ∈ l) : ρ.spawn t e a l i = .operand t := by
  have hia := hr.ne_actor (hr.stack i hi)
  have hne := hr.apart
  unfold spawn
  grind

theorem spawn_of_not_isPlain (hi : (ρ i).isPlain = false) : ρ.spawn t e a l i = ρ i := by
  have := hr.thread
  have := hr.event
  have := hr.actor
  have := hr.stack i
  unfold spawn
  grind [Role.isPlain]

theorem spawn_plain (hs : r.isPlain = true) (hh : r ≠ .held) (ht : r ≠ .transit) :
    ρ.spawn t e a l i = r ↔ ρ i = r := by
  have := hr.thread
  have := hr.event
  have := hr.actor
  have := hr.stack i
  unfold spawn
  grind [Role.isPlain]

theorem grows : Grows ρ (ρ.spawn t e a l) :=
  ⟨fun _ => (hr.spawn_plain rfl (by simp) (by simp)).2,
    fun _ => (hr.spawn_plain rfl (by simp) (by simp)).1⟩

theorem inLine_iff : (ρ.spawn t e a l i).inLine = true ↔ (ρ i).inLine = true ∨ i = t := by
  have := hr.event
  have := hr.actor
  have := hr.stack i
  unfold spawn
  grind [Role.inLine]

theorem coherent (hc : Coherent ρ) : Coherent (ρ.spawn t e a l) := by
  have hold : ∀ {i r}, r.isLinked = true → ρ i = r → ρ.spawn t e a l i = r := fun hs hi =>
    (hr.spawn_of_not_isPlain (hi ▸ Role.not_isPlain_of_isLinked hs)).trans hi
  constructor
  · intro t' e' a' h1
    by_cases ht : t' = t
    · cases (if_pos ht).symm.trans h1
      exact ⟨ht ▸ hr.spawn_event, ht ▸ hr.spawn_actor⟩
    · have h2 : ρ t' = .thread e' a' := by
        unfold spawn at h1
        grind
      obtain ⟨h3, h4⟩ := hc.thread t' e' a' h2
      exact ⟨hold rfl h3, hold rfl h4⟩
  · intro e' t' a' h1
    by_cases he : e' = e
    · cases hr.spawn_event.symm.trans (he ▸ h1)
      exact he ▸ if_pos rfl
    · have h2 : ρ e' = .handled t' a' := by
        unfold spawn at h1
        grind
      exact hold rfl (hc.handled e' t' a' h2)
  · intro a' t' h1
    by_cases ha : a' = a
    · cases hr.spawn_actor.symm.trans (ha ▸ h1)
      exact ⟨e, ha ▸ if_pos rfl⟩
    · have h2 : ρ a' = .busy t' := by
        unfold spawn at h1
        grind
      obtain ⟨e', h3⟩ := hc.busy a' t' h2
      exact ⟨e', hold rfl h3⟩

end Roles.Ready

theorem Roles.finish_linked {s : Role} (hr : r = .transit ∨ r = .stopped) (hs : s.isLinked = true) :
    ρ.finish t e a r i = s ↔ ρ i = s ∧ i ≠ t ∧ i ≠ e ∧ i ≠ a := by
  unfold finish
  grind [Role.isLinked]

namespace Coherent

variable (hc : Coherent ρ) (ht : ρ t = .thread e a)

include hc ht

theorem distinct : t ≠ e ∧ t ≠ a ∧ e ≠ a := by
  obtain ⟨he, ha⟩ := hc.thread t e a ht
  refine ⟨?_, ?_, ?_⟩ <;> rintro rfl
  · rw [ht] at he
    cases he
  · rw [ht] at ha
    cases ha
  · rw [he] at ha
    cases ha

theorem finish_event : ρ.finish t e a r e = .held := by
  simp only [Roles.finish, (hc.distinct ht).1.symm, if_false, if_true]

theorem finish_actor : ρ.finish t e a r a = r := by
  obtain ⟨-, hta, hea⟩ := hc.distinct ht
  simp only [Roles.finish, hta.symm, hea.symm, if_false, if_true]

variable (hr : r = .transit ∨ r = .stopped)

include hr

theorem finish_plain {s : Role} (hs : s.isPlain = true) (hh : s ≠ .held) (ht' : s ≠ .transit) :
    ρ.finish t e a r i = s ↔ ρ i = s := by
  obtain ⟨he, ha⟩ := hc.thread t e a ht
  unfold Roles.finish
  grind [Role.isPlain]

theorem finish_member : ρ.finish t e a r i = k.member o ↔
    ρ i = k.member o ∧ (r = .transit → k.member o ≠ .pending a) := by
  obtain ⟨he, ha⟩ := hc.thread t e a ht
  unfold Roles.finish
  cases k <;> simp only [Bundle.member] <;> grind

theorem grows_finish : Grows ρ (ρ.finish t e a r) :=
  ⟨fun _ => (hc.finish_plain ht hr rfl (by simp) (by simp)).2,
    fun _ => (hc.finish_plain ht hr rfl (by simp) (by simp)).1⟩

theorem inLine_finish_iff : (ρ.finish t e a r i).inLine = true ↔ (ρ i).inLine = true := by
  obtain ⟨he, ha⟩ := hc.thread t e a ht
  unfold Roles.finish
  grind [Role.inLine]

theorem finish : Coherent (ρ.finish t e a r) := by
  obtain ⟨he, ha⟩ := hc.thread t e a ht
  have hiff := fun i s => Roles.finish_linked (ρ := ρ) (t := t) (e := e) (a := a) (i := i)
    (s := s) hr
  constructor
  · intro t' e' a' h1
    obtain ⟨h1, h2, -⟩ := (hiff _ _ rfl).1 h1
    obtain ⟨h3, h4⟩ := hc.thread t' e' a' h1
    refine ⟨(hiff _ _ rfl).2 ⟨h3, ?_, ?_, ?_⟩, (hiff _ _ rfl).2 ⟨h4, ?_, ?_, ?_⟩⟩ <;> grind
  · intro e' t' a' h1
    obtain ⟨h1, -, h2, -⟩ := (hiff _ _ rfl).1 h1
    have h3 := hc.handled e' t' a' h1
    refine (hiff _ _ rfl).2 ⟨h3, ?_, ?_, ?_⟩ <;> grind
  · intro a' t' h1
    obtain ⟨h1, -, -, h2⟩ := (hiff _ _ rfl).1 h1
    obtain ⟨e', h3⟩ := hc.busy a' t' h1
    refine ⟨e', (hiff _ _ rfl).2 ⟨h3, ?_, ?_, ?_⟩⟩ <;> grind

end Coherent

end

def Same (ρ ρ' : Roles) (h h' : Heap) (i : Nat) : Prop := ρ' i = ρ i ∧ h'.cellAt i = h.cellAt i

theorem Same.role_iff {P : Role → Prop} (hs : P (ρ i) ∨ P (ρ' i) → Same ρ ρ' h h' i) :
    P (ρ' i) ↔ P (ρ i) := by
  constructor <;> intro hp
  · rwa [← (hs (.inr hp)).1]
  · rwa [(hs (.inl hp)).1]

namespace Layout

section Layout

variable (hl : Layout ρ h events threads)

include hl

theorem change (hs : h'.Sound) (hp : h'.permanent = h.permanent) (ht : h.top ≤ h'.top)
    (hg : Grows ρ ρ')
    (hfits : ∀ i, Same ρ ρ' h h' i ∧ (ρ i = .outside → i < Word.reserved ∨ h'.top ≤ i) ∨
      Word.reserved ≤ i ∧ Fits ρ' h' i (ρ' i))
    (hcoh : Coherent ρ') (howned : ∀ (k : Bundle) o i, ρ' i = k.member o → k.owner (ρ' o) = true)
    (hlisted : ∀ (k : Bundle) o, k.owner (ρ' o) = true → Listed ρ' h' k o)
    (hqueue : ∃ l, events'.Holds h' l ∧ ∀ i, i ∈ l ↔ ρ' i = .queued)
    (hline : ∃ l, threads'.Holds h' l ∧ ∀ i, i ∈ l ↔ (ρ' i).inLine = true) :
    Layout ρ' h' events' threads' := by
  refine ⟨hs, ?_, ?_, hcoh, howned, hlisted, hqueue, hline⟩
  · intro i hi
    obtain ⟨⟨-, hc⟩, -⟩ | ⟨hr, -⟩ := hfits i
    · rw [hc, hl.literals i hi]
    · omega
  · intro i
    obtain ⟨⟨hr, hc⟩, ho⟩ | ⟨-, hf⟩ := hfits i
    · obtain ⟨hpl, hsu⟩ := hl.fits i
      rw [hr]
      refine ⟨hpl.mono hp ht ho, ?_⟩
      rw [hc]
      exact hsu.mono hg
    · exact hf

theorem queue_congr (hc : ∀ i, ρ i = .queued → h'.cellAt i = h.cellAt i)
    (hr : ∀ i, ρ' i = .queued ↔ ρ i = .queued) :
    ∃ l, events.Holds h' l ∧ ∀ i, i ∈ l ↔ ρ' i = .queued := by
  obtain ⟨l, hq, hm⟩ := hl.queue
  exact ⟨l, hq.congr fun i hi => by rw [hc i ((hm i).1 hi)], fun i => (hm i).trans (hr i).symm⟩

theorem plain (hs : h'.Sound) (hp : h'.permanent = h.permanent) (ht : h.top ≤ h'.top)
    (hg : Grows ρ ρ')
    (hsame : ∀ i, Same ρ ρ' h h' i ∧ (ρ i = .outside → i < Word.reserved ∨ h'.top ≤ i) ∨
      (ρ i).isPlain = true ∧ (ρ' i).isPlain = true ∧ Word.reserved ≤ i ∧ Fits ρ' h' i (ρ' i))
    (hqueue : ∃ l, events'.Holds h' l ∧ ∀ i, i ∈ l ↔ ρ' i = .queued) :
    Layout ρ' h' events' threads := by
  have key : ∀ i, (ρ i).isPlain = false ∨ (ρ' i).isPlain = false → Same ρ ρ' h h' i := by
    intro i hi
    obtain hc | ⟨h1, h2, -⟩ := hsame i
    · exact hc.1
    · rw [h1, h2] at hi
      simp at hi
  have hiff : ∀ i r, r.isPlain = false → (ρ' i = r ↔ ρ i = r) := by
    intro i r hr
    refine Same.role_iff (P := (· = r)) fun hi => key i ?_
    exact hi.imp (fun e => by rw [e, hr]) fun e => by rw [e, hr]
  have hmem : ∀ (k : Bundle) o i, ρ' i = k.member o ↔ ρ i = k.member o :=
    fun k o i => hiff i _ (k.not_isPlain_member o)
  have hown : ∀ (k : Bundle) o, k.owner (ρ' o) = k.owner (ρ o) := by
    intro k o
    obtain hc | ⟨h1, h2, -⟩ := hsame o
    · rw [hc.1.1]
    · have ho : ∀ r : Role, r.isPlain = true → k.owner r = false := by
        intro r hr
        cases hk : k.owner r with
        | false => rfl
        | true =>
          rw [Bundle.not_isPlain_owner hk] at hr
          cases hr
      rw [ho _ h1, ho _ h2]
  refine hl.change hs hp ht hg ?_ ?_ ?_ ?_ hqueue ?_
  · intro i
    exact (hsame i).imp_right fun hi => hi.2.2
  · exact hl.coherent.congr fun i r hr => hiff i r (Role.not_isPlain_of_isLinked hr)
  · intro k o i hi
    rw [hown]
    exact hl.owned k o i ((hmem k o i).1 hi)
  · intro k o ho
    rw [hown] at ho
    refine (hl.listed k o ho).congr ?_ (hmem k o) ?_
    · rw [(key o (.inl (Bundle.not_isPlain_owner ho))).2]
    · intro i hi
      rw [(key i (.inl (hi ▸ k.not_isPlain_member o))).2]
  · obtain ⟨l, hq, hm⟩ := hl.line
    refine ⟨l, hq.congr ?_, ?_⟩
    · intro i hi
      rw [(key i (.inl (Role.not_isPlain_of_inLine ((hm i).1 hi)))).2]
    · exact fun i => (hm i).trans (Same.role_iff (P := fun r => r.inLine = true) fun hi =>
        key i (hi.imp Role.not_isPlain_of_inLine Role.not_isPlain_of_inLine)).symm

theorem loose (hs : h'.Sound) (hp : h'.permanent = h.permanent) (ht : h.top ≤ h'.top)
    (hg : Grows ρ ρ')
    (hsame : ∀ i, Same ρ ρ' h h' i ∧ (ρ i = .outside → i < Word.reserved ∨ h'.top ≤ i) ∨
      (ρ i).isLoose = true ∧ (ρ' i).isLoose = true ∧ Word.reserved ≤ i ∧ Fits ρ' h' i (ρ' i)) :
    Layout ρ' h' events threads := by
  refine hl.plain hs hp ht hg ?_ ?_
  · intro i
    exact (hsame i).imp_right fun hi =>
      ⟨Role.isPlain_of_isLoose hi.1, Role.isPlain_of_isLoose hi.2.1, hi.2.2⟩
  · have key : ∀ i, ρ i = .queued ∨ ρ' i = .queued → Same ρ ρ' h h' i := by
      intro i hi
      obtain hc | ⟨h1, h2, -⟩ := hsame i
      · exact hc.1
      · obtain hi | hi := hi
        · rw [hi] at h1
          cases h1
        · rw [hi] at h2
          cases h2
    exact hl.queue_congr (fun i hi => (key i (.inl hi)).2)
      fun i => Same.role_iff (P := (· = .queued)) (key i)

theorem fresh (ht : h.Takes i c h') : ρ i = .free ∨ ρ i = .outside := by
  have hp := ht.permanent_le
  by_cases ho : ρ i = .outside
  · exact .inr ho
  · obtain hf | hf := (hl.isFree_iff ho).1 (ht.fresh (hl.bounds ho).2)
    · exact .inl hf
    · have := (hl.fits i).1
      rw [hf] at this
      exact absurd this.2 (Nat.not_lt.2 hp)

theorem take (ht : h.Takes i c h') (hs : h'.Sound)
    (hr : r = .held ∨ r = .data ∨ r = .idle) (hc : Suits (ρ.set i r) c r) :
    Layout (ρ.set i r) h' events threads := by
  have hi := hl.fresh ht
  have hres := Nat.le_trans hl.reserved_le_permanent ht.permanent_le
  refine hl.loose hs ht.permanent ht.top_le ⟨?_, ?_⟩ ?_
  · intro j hj
    rw [Roles.set_ne _ _ (by rintro rfl; simp [hj] at hi), hj]
  · intro j hj
    by_cases hji : j = i
    · rw [hji, Roles.set_self] at hj
      simp [hj] at hr
    · rwa [Roles.set_ne _ _ hji] at hj
  · intro j
    by_cases hji : j = i
    · subst hji
      refine .inr ⟨?_, ?_, hres, ?_, ?_⟩
      · obtain hi | hi := hi <;> rw [hi] <;> rfl
      · obtain rfl | rfl | rfl := hr <;> rw [Roles.set_self] <;> rfl
      · have := ht.permanent
        have := ht.permanent_le
        have := ht.lt_top
        obtain rfl | rfl | rfl := hr <;> rw [Roles.set_self] <;> simp only [Placed] <;> omega
      · rw [Roles.set_self, ht.self]
        exact hc
    · refine .inl ⟨⟨Roles.set_ne _ _ hji, ht.ne hji⟩, ?_⟩
      intro ho
      have := hl.outside_iff.1 ho
      have := ht.top
      have := ht.le_top
      omega

theorem give (hs : (h.reclaim i).Sound) (hp : h.permanent ≤ i)
    (ht : i < h.top) (hr : (ρ i).isLoose = true) (hd : ρ i ≠ .data) :
    Layout (ρ.set i .free) (h.reclaim i) events threads := by
  have hcell := h.cellAt_reclaim (Nat.lt_of_lt_of_le ht hl.top_le)
  have hres := Nat.le_trans hl.reserved_le_permanent hp
  refine hl.loose hs rfl (Nat.le_refl _) ⟨?_, ?_⟩ ?_
  · intro j hj
    rw [Roles.set_ne _ _ (by rintro rfl; exact hd hj), hj]
  · intro j hj
    by_cases hji : j = i
    · rw [hji, Roles.set_self] at hj
      cases hj
    · rwa [Roles.set_ne _ _ hji] at hj
  · intro j
    by_cases hji : j = i
    · subst hji
      refine .inr ⟨hr, ?_, hres, ?_⟩
      · rw [Roles.set_self]
        rfl
      · rw [Roles.set_self]
        refine ⟨⟨hp, ht⟩, ?_⟩
        rw [hcell, if_pos rfl]
        rfl
    · refine .inl ⟨⟨Roles.set_ne _ _ hji, by rw [hcell, if_neg hji]⟩, ?_⟩
      intro ho
      exact hl.outside_iff.1 ho

theorem write (hset : h.Sets i c h') (hs : h'.Sound)
    (hr : (ρ i).isLoose = true) (ho : ρ i ≠ .outside) (hc : Suits ρ c (ρ i)) :
    Layout ρ h' events threads := by
  refine hl.loose hs hset.permanent (Nat.le_of_eq hset.top.symm) (.refl ρ) ?_
  intro j
  by_cases hji : j = i
  · subst hji
    refine .inr ⟨hr, hr, (hl.bounds ho).1, ?_, ?_⟩
    · refine (hl.fits j).1.mono hset.permanent (Nat.le_of_eq hset.top.symm) ?_
      intro e
      exact absurd e ho
    · rw [hset.self]
      exact hc
  · refine .inl ⟨⟨rfl, hset.ne hji⟩, ?_⟩
    intro e
    rw [hset.top]
    exact hl.outside_iff.1 e

theorem recolor (hs : h'.Sound) (hc : ∀ i, h'.cellAt i = h.cellAt i)
    (hp : h'.permanent = h.permanent) (ht : h'.top = h.top) : Layout ρ h' events threads :=
  hl.loose hs hp (Nat.le_of_eq ht.symm) (.refl ρ) fun i =>
    .inl ⟨⟨rfl, hc i⟩, fun ho => ht ▸ hl.outside_iff.1 ho⟩

theorem relabel (hg : Grows ρ ρ')
    (hsame : ∀ i, ρ' i = ρ i ∨ (ρ i).isLoose = true ∧ (ρ' i).isLoose = true ∧ ρ i ≠ .outside ∧
      Fits ρ' h i (ρ' i)) : Layout ρ' h events threads := by
  refine hl.loose hl.sound rfl (Nat.le_refl _) hg ?_
  intro i
  obtain hi | ⟨h1, h2, h3, h4⟩ := hsame i
  · exact .inl ⟨⟨hi, rfl⟩, hl.outside_iff.1⟩
  · exact .inr ⟨h1, h2, (hl.bounds h3).1, h4⟩

/-- A list is led to other cells: to cells that are held, or that were on it before. -/
structure Rebundles (ρ : Roles) (k : Bundle) (o : Nat) (l : List Nat) (h h' : Heap) : Prop where
  permanent : h'.permanent = h.permanent
  top : h'.top = h.top
  owner : k.owner (ρ o) = true
  other : ∀ i, i ≠ o → ρ i ≠ .held → ρ i ≠ k.member o → h'.cellAt i = h.cellAt i
  own : ∀ f, f ≠ k.start → (h'.cellAt o).get f = (h.cellAt o).get f
  chain : h'.Chain k.link ((h'.cellAt o).get k.start) l
  new : ∀ i ∈ l, (ρ i = .held ∨ ρ i = k.member o) ∧ Suits ρ (h'.cellAt i) (k.member o)
  old : ∀ i, ρ i = .held ∨ ρ i = k.member o → i ∉ l → Suits ρ (h'.cellAt i) .held

theorem fits_bundle (hb : Rebundles ρ k o l h h') (i : Nat) :
    Same ρ (ρ.bundle k o l) h h' i ∧ (ρ i = .outside → i < Word.reserved ∨ h'.top ≤ i) ∨
      Word.reserved ≤ i ∧ Fits (ρ.bundle k o l) h' i (ρ.bundle k o l i) := by
  have hmem := fun i hi => (hb.new i hi).1
  have hg := Roles.grows_bundle hmem
  have hplace : ∀ i, ρ i = .held ∨ ρ i = k.member o →
      Word.reserved ≤ i ∧ h'.permanent ≤ i ∧ i < h'.top := by
    intro i hi
    have hpl : h.permanent ≤ i ∧ i < h.top := by
      have := (hl.fits i).1
      obtain e | e := hi <;> rw [e] at this
      · exact this
      · cases k <;> exact this
    rw [hb.permanent, hb.top]
    exact ⟨Nat.le_trans hl.reserved_le_permanent hpl.1, hpl⟩
  by_cases hio : i = o
  · have hout := Bundle.ne_outside_of_owner hb.owner
    rw [hio, Roles.bundle_owner hmem hb.owner]
    exact .inr ⟨(hl.bounds hout).1,
      (hl.fits o).1.mono hb.permanent (Nat.le_of_eq hb.top.symm) fun e => absurd e hout,
      ((hl.fits o).2.start hb.owner hb.own).mono hg⟩
  by_cases hil : i ∈ l
  · obtain ⟨hres, hpl⟩ := hplace i (hmem i hil)
    rw [Roles.bundle_member.1 hil]
    refine .inr ⟨hres, ?_, (hb.new i hil).2.mono hg⟩
    cases k <;> exact hpl
  by_cases him : ρ i = .held ∨ ρ i = k.member o
  · obtain ⟨hres, hpl⟩ := hplace i him
    rw [Roles.bundle_held hil him]
    exact .inr ⟨hres, hpl, (hb.old i him hil).mono hg⟩
  · rw [not_or] at him
    refine .inl ⟨⟨Roles.bundle_other hil him.2, hb.other i hio him.1 him.2⟩, ?_⟩
    rw [hb.top]
    exact hl.outside_iff.1

theorem listed_bundle {o' : Nat} (hb : Rebundles ρ k o l h h')
    (ho : k'.owner (ρ.bundle k o l o') = true) : Listed (ρ.bundle k o l) h' k' o' := by
  have hmem := fun i hi => (hb.new i hi).1
  by_cases hko : o' = o
  · rw [hko, Roles.bundle_owner hmem hb.owner] at ho
    rw [hko, Bundle.owner_inj ho hb.owner]
    exact ⟨l, hb.chain, fun i => Roles.bundle_member⟩
  · have ho' : k'.owner (ρ o') = true := by
      rwa [(Roles.bundle_eq_iff hmem (Bundle.ne_held_of_owner ho)
        (Bundle.ne_member_of_owner ho)).1 rfl]
    have hne : k'.member o' ≠ k.member o := fun e => hko (Bundle.member_inj e).2
    refine (hl.listed k' o' ho').congr ?_ ?_ ?_
    · rw [hb.other o' hko (Bundle.ne_held_of_owner ho') (Bundle.ne_member_of_owner ho')]
    · exact fun i => Roles.bundle_eq_iff hmem (k'.member_ne_held o') hne
    · intro i hi
      rw [hb.other i (fun e => Bundle.ne_member_of_owner (e ▸ hb.owner) hi)
        (hi ▸ k'.member_ne_held o') (hi ▸ hne)]

theorem rebundle (hs : h'.Sound) (hb : Rebundles ρ k o l h h') :
    Layout (ρ.bundle k o l) h' events threads := by
  have hmem := fun i hi => (hb.new i hi).1
  have hiff : ∀ i r, r ≠ .held → r ≠ k.member o → (ρ.bundle k o l i = r ↔ ρ i = r) :=
    fun i r => Roles.bundle_eq_iff hmem
  have ho := hb.owner
  refine hl.change hs hb.permanent (Nat.le_of_eq hb.top.symm) (Roles.grows_bundle hmem)
    (hl.fits_bundle hb)
    ?_ ?_ (fun _ _ => hl.listed_bundle hb) ?_ ?_
  · refine hl.coherent.congr fun i r hr => hiff i r ?_ ?_
    · rintro rfl
      cases hr
    · rintro rfl
      cases k <;> cases hr
  · intro k' o' i hi
    by_cases hko : k' = k ∧ o' = o
    · rw [hko.1, hko.2, Roles.bundle_owner hmem ho]
      exact ho
    · have him : ρ i = k'.member o' :=
        (hiff i _ (k'.member_ne_held o') fun e => hko (Bundle.member_inj e)).1 hi
      have := hl.owned k' o' i him
      rwa [Roles.bundle_owner hmem this]
  · have hqueued : Role.queued ≠ k.member o := by cases k <;> simp [Bundle.member]
    refine hl.queue_congr (fun i hi => hb.other i ?_ (by simp [hi]) (by rwa [hi]))
      fun i => hiff i _ (by simp) hqueued
    rintro rfl
    rw [hi] at ho
    cases k <;> cases ho
  · obtain ⟨q, hq, hm⟩ := hl.line
    refine ⟨q, hq.congr ?_, ?_⟩
    · intro i hi
      have hi := (hm i).1 hi
      by_cases hio : i = o
      · subst hio
        -- of the owners only those of a stack stand in the line, and the stack is not in Z
        obtain rfl := Bundle.eq_stack ho hi
        exact hb.own .z (by decide)
      · rw [hb.other i hio ?_ (Bundle.ne_member_of_inLine hi)]
        intro e
        rw [e] at hi
        cases hi
    · intro i
      rw [hm]
      have hne : ∀ {r : Role}, r.inLine = true → r ≠ .held ∧ r ≠ k.member o :=
        fun hr => ⟨(by rintro rfl; cases hr), Bundle.ne_member_of_inLine hr⟩
      constructor
      · intro hi
        rwa [(hiff i _ (hne hi).1 (hne hi).2).2 rfl]
      · intro hi
        rwa [(hiff i _ (hne hi).1 (hne hi).2).1 rfl]

end Layout

def Moves (ρ : Roles) (h h' : Heap) (i : Nat) : Prop :=
  (h'.cellAt i).x = (h.cellAt i).x ∧ (h'.cellAt i).y = (h.cellAt i).y ∧
    ∃ j, (h'.cellAt i).t = .ref j ∧ ρ j = .data

theorem Moves.start_eq (ho : k.owner (ρ o) = true)
    (hother : (ρ o).inLine = false → h'.cellAt o = h.cellAt o)
    (hmoves : (ρ o).inLine = true → Moves ρ h h' o) :
    (h'.cellAt o).get k.start = (h.cellAt o).get k.start := by
  cases hi : (ρ o).inLine with
  | false => rw [hother hi]
  | true =>
    obtain rfl := Bundle.eq_stack ho hi
    exact (hmoves hi).1

variable (hl : Layout ρ h events threads)

include hl

theorem moves_self (hi : (ρ i).inLine = true) (hc : h'.cellAt i = h.cellAt i) : Moves ρ h h' i := by
  rw [Moves, hc]
  exact ⟨rfl, rfl, hl.code hi⟩

theorem suits_of_moves (hi : (ρ i).inLine = true)
    (hm : Moves ρ h h' i) : Suits ρ (h'.cellAt i) (ρ i) ∧ Suits ρ (h'.cellAt i) .held := by
  have hs := (hl.fits i).2
  refine ⟨?_, ?_⟩
  · cases hρ : ρ i with
    | thread =>
      rw [hρ] at hs
      exact ⟨hm.2.2, hm.2.1.trans hs.2⟩
    | spent => exact hm.2.2
    | _ =>
      rw [hρ] at hi
      cases hi
  · obtain ⟨j, hj, hd⟩ := hm.2.2
    have := (hl.bounds (i := j) (by rw [hd]; simp)).1
    simp only [Suits, hj]
    constructor <;> intro e <;> cases e <;> revert this <;> decide

theorem placed_of_inLine (hp : h'.permanent = h.permanent) (ht : h'.top = h.top)
    (hi : (ρ i).inLine = true) :
    Word.reserved ≤ i ∧ Placed h' i (ρ i) := by
  have hout : ρ i ≠ .outside := by
    intro ho
    rw [ho] at hi
    cases hi
  exact ⟨(hl.bounds hout).1,
    (hl.fits i).1.mono hp (Nat.le_of_eq ht.symm) fun ho => absurd ho hout⟩

theorem reline (hs : h'.Sound) (hp : h'.permanent = h.permanent)
    (ht : h'.top = h.top) (hroles : ∀ i, ρ' i = ρ i ∨ ρ i = .spent ∧ ρ' i = .held)
    (hother : ∀ i, (ρ i).inLine = false → h'.cellAt i = h.cellAt i)
    (hmoves : ∀ i, (ρ i).inLine = true → Moves ρ h h' i)
    (hline : ∃ l, threads'.Holds h' l ∧ ∀ i, i ∈ l ↔ (ρ' i).inLine = true) :
    Layout ρ' h' events threads' := by
  have hiff : ∀ i r, r ≠ .held → r ≠ .spent → (ρ' i = r ↔ ρ i = r) := by
    intro i r h1 h2
    obtain e | ⟨e, e'⟩ := hroles i
    · rw [e]
    · rw [e, e']
      exact iff_of_false h1.symm h2.symm
  have hmem : ∀ (k : Bundle) o i, ρ' i = k.member o ↔ ρ i = k.member o := fun k o i =>
    hiff i _ (k.member_ne_held o) (by cases k <;> simp [Bundle.member])
  have hown : ∀ (k : Bundle) o, k.owner (ρ' o) = k.owner (ρ o) := by
    intro k o
    obtain e | ⟨e, e'⟩ := hroles o
    · rw [e]
    · rw [e, e']
      cases k <;> rfl
  have hg : Grows ρ ρ' :=
    ⟨fun i => (hiff i _ (by simp) (by simp)).2, fun i => (hiff i _ (by simp) (by simp)).1⟩
  refine hl.change hs hp (Nat.le_of_eq ht.symm) hg ?_ ?_ ?_ ?_ ?_ hline
  · intro i
    cases hi : (ρ i).inLine with
    | false =>
      refine .inl ⟨⟨?_, hother i hi⟩, ?_⟩
      · obtain e | ⟨e, -⟩ := hroles i
        · exact e
        · rw [e] at hi
          cases hi
      · intro e
        rw [ht]
        exact hl.outside_iff.1 e
    | true =>
      obtain ⟨hres, hpl⟩ := hl.placed_of_inLine hp ht hi
      have hsu := hl.suits_of_moves hi (hmoves i hi)
      refine .inr ⟨hres, ?_⟩
      obtain e | ⟨e, e'⟩ := hroles i
      · rw [e]
        exact ⟨hpl, hsu.1.mono hg⟩
      · rw [e']
        rw [e] at hpl
        exact ⟨hpl, hsu.2.mono hg⟩
  · refine hl.coherent.congr fun i r hr => hiff i r ?_ ?_
    · rintro rfl
      cases hr
    · rintro rfl
      cases hr
  · intro k o i hi
    rw [hown]
    exact hl.owned k o i ((hmem k o i).1 hi)
  · intro k o ho
    rw [hown] at ho
    refine (hl.listed k o ho).congr (Moves.start_eq ho (hother o) (hmoves o)) (hmem k o) ?_
    · intro i hi
      rw [hother i]
      rw [hi]
      cases k <;> rfl
  · refine hl.queue_congr (fun i hi => hother i ?_) fun i => hiff i _ (by simp) (by simp)
    rw [hi]
    rfl

section

variable {t e a : Nat} (ht : ρ t = .thread e a)

include ht

theorem distinct : t ≠ e ∧ t ≠ a ∧ e ≠ a := hl.coherent.distinct ht

variable (hr : r = .transit ∨ r = .stopped)

include hr

theorem fits_finish (i : Nat) :
    Same ρ (ρ.finish t e a r) h h i ∨
      Word.reserved ≤ i ∧ Fits (ρ.finish t e a r) h i (ρ.finish t e a r i) := by
  obtain ⟨he, ha⟩ := hl.coherent.thread t e a ht
  have hg := hl.coherent.grows_finish ht hr
  have hheld : ∀ {c : Cell}, c.t = .eventT → Suits (ρ.finish t e a r) c .held := by
    intro c hc
    simp only [Suits, hc]
    decide
  obtain ⟨hpl, hsu⟩ := hl.fits i
  by_cases hit : i = t
  · refine .inr ⟨(hl.bounds (by rw [hit, ht]; simp)).1, ?_⟩
    rw [hit, ht] at hpl hsu
    rw [hit, Roles.finish, if_pos rfl]
    exact ⟨hpl, Suits.mono (r := .spent) hg hsu.1⟩
  by_cases hie : i = e
  · refine .inr ⟨(hl.bounds (by rw [hie, he]; simp)).1, ?_⟩
    rw [hie, he] at hpl hsu
    rw [hie, hl.coherent.finish_event ht]
    exact ⟨hpl, hheld hsu.1⟩
  by_cases hia : i = a
  · refine .inr ⟨(hl.bounds (by rw [hia, ha]; simp)).1, ?_⟩
    rw [hia, ha] at hpl hsu
    rw [hia, hl.coherent.finish_actor ht]
    obtain rfl | rfl := hr <;> exact ⟨hpl, Suits.mono (r := .stopped) hg hsu⟩
  by_cases hip : ρ i = .pending a ∧ r = .transit
  · refine .inr ⟨(hl.bounds (by rw [hip.1]; simp)).1, ?_⟩
    rw [hip.1] at hpl hsu
    simp only [Roles.finish, hit, hie, hia, hip, if_false, if_true, and_self] at hheld ⊢
    exact ⟨hpl, hheld hsu.1⟩
  · refine .inl ⟨?_, rfl⟩
    simp only [Roles.finish, hit, hie, hia, hip, if_false]

theorem finish (hstack : ∀ i, ρ i ≠ .operand t) (hbecome : ∀ i, ρ i ≠ .staged e) :
    Layout (ρ.finish t e a r) h events threads := by
  obtain ⟨he, ha⟩ := hl.coherent.thread t e a ht
  refine hl.change hl.sound rfl (Nat.le_refl _) (hl.coherent.grows_finish ht hr)
    (fun i => (hl.fits_finish ht hr i).imp_left fun hs => ⟨hs, hl.outside_iff.1⟩)
    (hl.coherent.finish ht hr) ?_ ?_ ?_ ?_
  · intro k o i hi
    obtain ⟨hi, hn⟩ := (hl.coherent.finish_member ht hr).1 hi
    have ho := hl.owned k o i hi
    cases k with
    | stack =>
      have hot : o ≠ t := fun h => hstack i (h ▸ hi)
      simp only [Bundle.owner, Roles.finish] at ho ⊢
      grind [Role.isThread]
    | become =>
      have hoe : o ≠ e := fun h => hbecome i (h ▸ hi)
      simp only [Bundle.owner, Roles.finish] at ho ⊢
      grind [Role.isHandled]
    | sends =>
      simp only [Bundle.owner, Bundle.member, Roles.finish] at ho hn ⊢
      grind [Role.isOpen]
  · intro k o ho
    have ho' : k.owner (ρ o) = true := by
      cases k <;> simp only [Bundle.owner, Roles.finish] at ho ⊢ <;>
        grind [Role.isThread, Role.isHandled, Role.isOpen]
    refine (hl.listed k o ho').congr rfl ?_ (fun _ _ => rfl)
    intro i
    rw [hl.coherent.finish_member ht hr]
    refine and_iff_left ?_
    rintro rfl hk
    obtain ⟨rfl, rfl⟩ := Bundle.member_inj (show k.member o = Bundle.sends.member a from hk)
    rw [hl.coherent.finish_actor ht] at ho
    cases ho
  · exact hl.queue_congr (fun _ _ => rfl) fun i =>
      hl.coherent.finish_plain ht hr rfl (by simp) (by simp)
  · obtain ⟨l, hq, hm⟩ := hl.line
    exact ⟨l, hq, fun i => (hm i).trans (hl.coherent.inLine_finish_iff ht hr).symm⟩

end

structure Launches (ρ : Roles) (t e a : Nat) (l : List Nat) (h h' : Heap) : Prop where
  ready : ρ.Ready t e a l
  permanent : h'.permanent = h.permanent
  top : h'.top = h.top
  other : ∀ i, i ≠ t → (ρ i).inLine = false → h'.cellAt i = h.cellAt i
  moves : ∀ i, (ρ i).inLine = true → Moves ρ h h' i
  thread : Suits ρ (h'.cellAt t) (.thread e a) ∧ h'.Chain .y (h'.cellAt t).x l
  event : Suits ρ (h.cellAt e) (.handled t a) ∧ (h.cellAt e).z = .nil
  actor : (h.cellAt a).z = .nil
  stack : ∀ i ∈ l, Suits ρ (h.cellAt i) (.operand t)

section Launches

variable {t e a : Nat}

theorem not_member (hr : ρ.Ready t e a l) (i : Nat) :
    ρ i ≠ .operand t ∧ ρ i ≠ .staged e ∧ ρ i ≠ .pending a := by
  refine ⟨?_, ?_, ?_⟩ <;> intro hi
  · have := hl.owned .stack t i hi
    rw [hr.thread] at this
    cases this
  · have := hl.owned .become e i hi
    rw [hr.event] at this
    cases this
  · have := hl.owned .sends a i hi
    rw [hr.actor] at this
    cases this

theorem spawn_member (hr : ρ.Ready t e a l) :
    ρ.spawn t e a l i = k.member o ↔ ρ i = k.member o ∨ i ∈ l ∧ k.member o = .operand t := by
  have := hl.not_member hr i
  have := hr.thread
  have := hr.event
  have := hr.actor
  have := hr.stack i
  have := hr.apart
  unfold Roles.spawn
  cases k <;> simp only [Bundle.member] <;> grind

theorem owned_spawn (hr : ρ.Ready t e a l) (hi : ρ.spawn t e a l i = k.member o) :
    k.owner (ρ.spawn t e a l o) = true := by
  obtain hi | ⟨hi, hk⟩ := (hl.spawn_member hr).1 hi
  · have ho := hl.owned k o i hi
    rwa [hr.spawn_of_not_isPlain (Bundle.not_isPlain_owner ho)]
  · obtain ⟨rfl, rfl⟩ := Bundle.member_inj (show k.member o = Bundle.stack.member t from hk)
    rw [Roles.spawn, if_pos rfl]
    rfl

variable (hn : Launches ρ t e a l h h')

include hn

theorem fits_spawn (i : Nat) :
    Same ρ (ρ.spawn t e a l) h h' i ∧ (ρ i = .outside → i < Word.reserved ∨ h'.top ≤ i) ∨
      Word.reserved ≤ i ∧ Fits (ρ.spawn t e a l) h' i (ρ.spawn t e a l i) := by
  have hr := hn.ready
  have hg := hr.grows
  have hheld : ∀ i, ρ i = .held → Word.reserved ≤ i ∧ h'.permanent ≤ i ∧ i < h'.top := by
    intro i hi
    have hb := (hl.fits i).1
    rw [hi] at hb
    rw [hn.permanent, hn.top]
    exact ⟨Nat.le_trans hl.reserved_le_permanent hb.1, hb⟩
  by_cases hit : i = t
  · obtain ⟨hb, hb'⟩ := hheld t hr.thread
    rw [hit, Roles.spawn, if_pos rfl]
    exact .inr ⟨hb, hb', hn.thread.1.mono hg⟩
  by_cases hie : i = e
  · obtain ⟨hb, hb'⟩ := hheld e hr.event
    rw [hie, hr.spawn_event, Fits, hn.other e hr.apart.1.symm (by rw [hr.event]; rfl)]
    exact .inr ⟨hb, hb', hn.event.1.mono hg⟩
  by_cases hia : i = a
  · obtain ⟨hb, hsu⟩ := hl.fits a
    rw [hr.actor] at hb hsu
    rw [hia, hr.spawn_actor, Fits, hn.other a (hia ▸ hit) (by rw [hr.actor]; rfl), Placed, hn.top]
    exact .inr ⟨hb.1, hb, Suits.mono (r := .busy t) hg hsu⟩
  by_cases hil : i ∈ l
  · obtain ⟨hb, hb'⟩ := hheld i (hr.stack i hil)
    rw [hr.spawn_stack hil, Fits, hn.other i hit (by rw [hr.stack i hil]; rfl)]
    exact .inr ⟨hb, hb', (hn.stack i hil).mono hg⟩
  have hi : ρ.spawn t e a l i = ρ i := by simp only [Roles.spawn, hit, hie, hia, hil, if_false]
  cases hline : (ρ i).inLine with
  | false =>
    refine .inl ⟨⟨hi, hn.other i hit hline⟩, ?_⟩
    rw [hn.top]
    exact hl.outside_iff.1
  | true =>
    obtain ⟨hb, hb'⟩ := hl.placed_of_inLine hn.permanent hn.top hline
    rw [hi]
    exact .inr ⟨hb, hb', (hl.suits_of_moves hline (hn.moves i hline)).1.mono hg⟩

theorem listed_spawn (ho : k.owner (ρ.spawn t e a l o) = true) :
    Listed (ρ.spawn t e a l) h' k o := by
  have hr := hn.ready
  have hno := hl.not_member hr
  by_cases hot : o = t
  · rw [hot, Roles.spawn, if_pos rfl] at ho
    obtain rfl := Bundle.eq_stack ho rfl
    rw [hot]
    refine ⟨l, hn.thread.2, fun i => ?_⟩
    rw [hl.spawn_member hr]
    simp [Bundle.member, (hno i).1]
  by_cases hoe : o = e
  · rw [hoe, hr.spawn_event] at ho
    rw [hoe]
    cases k with
    | stack | sends => cases ho
    | become =>
      refine ⟨[], ?_, fun i => ?_⟩
      · simp only [Bundle.start, hn.other e hr.apart.1.symm (by rw [hr.event]; rfl)]
        exact hn.event.2
      · rw [hl.spawn_member hr]
        simp [Bundle.member, (hno i).2.1]
  by_cases hoa : o = a
  · rw [hoa, hr.spawn_actor] at ho
    rw [hoa]
    cases k with
    | stack | become => cases ho
    | sends =>
      refine ⟨[], ?_, fun i => ?_⟩
      · simp only [Bundle.start, hn.other a (hoa ▸ hot) (by rw [hr.actor]; rfl)]
        exact hn.actor
      · rw [hl.spawn_member hr]
        simp [Bundle.member, (hno i).2.2]
  have hol : o ∉ l := by
    intro hol
    rw [hr.spawn_stack hol] at ho
    cases k <;> cases ho
  -- the list of another owner is what it was
  have ho : k.owner (ρ o) = true := by
    simpa only [Roles.spawn, hot, hoe, hoa, hol, if_false] using ho
  refine (hl.listed k o ho).congr (Moves.start_eq ho (hn.other o hot) (hn.moves o)) ?_ ?_
  · intro i
    rw [hl.spawn_member hr]
    refine or_iff_left ?_
    rintro ⟨-, hk⟩
    exact hot (Bundle.member_inj (show k.member o = Bundle.stack.member t from hk)).2
  · intro i hi
    rw [hn.other i]
    · rintro rfl
      rw [hr.thread] at hi
      exact k.member_ne_held o hi.symm
    · rw [hi]
      cases k <;> rfl

theorem spawn (hs : h'.Sound) (hline : ∃ q, threads'.Holds h' q ∧ ∀ i, i ∈ q ↔
    (ρ i).inLine = true ∨ i = t) :
    Layout (ρ.spawn t e a l) h' events threads' := by
  have hr := hn.ready
  refine hl.change hs hn.permanent (Nat.le_of_eq hn.top.symm) hr.grows (hl.fits_spawn hn)
    (hr.coherent hl.coherent) (fun _ _ _ => hl.owned_spawn hr) (fun _ _ => hl.listed_spawn hn) ?_ ?_
  · refine hl.queue_congr (fun i hi => hn.other i ?_ ?_) fun i =>
      hr.spawn_plain rfl (by simp) (by simp)
    · rintro rfl
      rw [hr.thread] at hi
      cases hi
    · rw [hi]
      rfl
  · obtain ⟨q, hq, hm⟩ := hline
    exact ⟨q, hq, fun i => (hm i).trans hr.inLine_iff.symm⟩

end Launches

end Layout

end ActorMachine
