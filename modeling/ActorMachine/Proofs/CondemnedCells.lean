import ActorMachine.Proofs.Transition

namespace ActorMachine

variable {ρ : Roles} {h : Heap} {events threads : Queue} {roots : Roots} {N : Nat → Prop} {i : Nat}
variable {w : Word} {a : Nat}

/-- The set holds what the roots and the permanent cells lead to, and what its own cells lead to. -/
structure Heap.Retains (h : Heap) (roots : Roots) (N : Nat → Prop) : Prop where
  root : ∀ w ∈ roots.words, ∀ i, h.Leads w i → N i
  permanent : ∀ i, Word.reserved ≤ i → i < h.permanent → (h.cellAt i).t ≠ .freeT → N i
  field : ∀ i, N i → ∀ w ∈ (h.cellAt i).words, ∀ j, h.Leads w j → N j

theorem Heap.retains_reach : h.Retains roots (h.Reach roots) :=
  ⟨fun _ hw _ hl => .root hw hl, fun _ => .permanent, fun _ hi _ hw _ hl => .field hi hw hl⟩

theorem Heap.Retains.reach (hN : h.Retains roots N) (hr : h.Reach roots i) : N i :=
  hr.minimal hN.root hN.permanent hN.field

theorem Heap.Retains.chain (hN : h.Retains roots N) {f : Field} {l : List Nat}
    (hc : h.Chain f w l) (hw : ∀ i, h.Leads w i → N i)
    (hu : ∀ i ∈ l, i < h.top ∧ (h.cellAt i).t ≠ .freeT) : ∀ i ∈ l, N i := by
  induction l generalizing w with
  | nil => simp
  | cons j l ih =>
    obtain ⟨rfl, hj, hc⟩ := hc
    have hn : N j := hw j ⟨.inl rfl, hj, hu j List.mem_cons_self⟩
    intro i hi
    obtain rfl | hi := List.mem_cons.1 hi
    · exact hn
    · refine ih hc (hN.field j hn _ (Cell.get_mem_words ..)) (fun k hk => ?_) i hi
      exact hu k (List.mem_cons_of_mem j hk)

namespace Role

def isRooted : Role → Bool
  | queued | thread .. | spent | operand _ | handled .. | staged _ | busy _ => true
  | _ => false

theorem inUse_of_isRooted {r : Role} (hr : r.isRooted = true) : r.inUse = true := by
  cases r <;> first | rfl | cases hr

end Role

namespace Layout

theorem leads (hl : Layout ρ h events threads) (hi : (ρ i).inUse = true)
    (hw : w = .ref i ∨ w = .cap i) : h.Leads w i :=
  ⟨hw, hl.inUse hi⟩

theorem retains_member (hl : Layout ρ h events threads) (hN : h.Retains roots N)
    {k : Bundle} {o : Nat} (ho : N o) (hi : ρ i = k.member o) : N i := by
  obtain ⟨l, hc, hm⟩ := hl.listed k o (hl.owned k o i hi)
  refine hN.chain hc (hN.field o ho _ (Cell.get_mem_words ..)) (fun j hj => ?_) i ((hm i).2 hi)
  refine (hl.inUse ?_).2
  rw [(hm j).1 hj]
  cases k <;> rfl

section Retains

variable (hl : Layout ρ h events threads) (hN : h.Retains roots N) (ht : threads.head ∈ roots.words)

include hl hN ht

theorem retains_line (hi : (ρ i).inLine = true) : N i := by
  obtain ⟨l, hq, hm⟩ := hl.line
  refine hN.chain hq.1 (hN.root _ ht) (fun j hj => (hl.inUse ?_).2) i ((hm i).2 hi)
  have hj := (hm j).1 hj
  cases hr : ρ j <;> rw [hr] at hj <;> first | rfl | cases hj

theorem retains_handled {t : Nat} (hi : ρ i = .handled t a) : N i := by
  have hrole := hl.coherent.handled i t a hi
  have hs := (hl.fits t).2
  rw [hrole] at hs
  refine hN.field t (retains_line hl hN ht (by rw [hrole]; rfl)) (h.cellAt t).y
    (by simp [Cell.words]) i ?_
  exact hl.leads (by rw [hi]; rfl) (.inl hs.2)

theorem retains_busy {t : Nat} (hi : ρ i = .busy t) : N i := by
  obtain ⟨e, hrole⟩ := hl.coherent.busy i t hi
  have hh := (hl.coherent.thread t e i hrole).1
  have hs := (hl.fits e).2
  rw [hh] at hs
  refine hN.field e (retains_handled hl hN ht hh) (h.cellAt e).x (by simp [Cell.words]) i ?_
  exact hl.leads (by rw [hi]; rfl) (.inr hs.2.1)

theorem retains_rooted (he : events.head ∈ roots.words) (hi : (ρ i).isRooted = true) : N i := by
  cases hr : ρ i with
  | queued =>
    obtain ⟨l, hq, hm⟩ := hl.queue
    refine hN.chain hq.1 (hN.root _ he) (fun j hj => (hl.inUse ?_).2) i ((hm i).2 hr)
    rw [(hm j).1 hj]
    rfl
  | thread | spent => exact retains_line hl hN ht (by rw [hr]; rfl)
  | operand t =>
    have ho := hl.owned .stack t i hr
    refine hl.retains_member hN (k := .stack) (retains_line hl hN ht ?_) hr
    cases hρ : ρ t <;> rw [hρ] at ho <;> first | rfl | cases ho
  | handled => exact retains_handled hl hN ht hr
  | staged e =>
    have ho := hl.owned .become e i hr
    cases hρ : ρ e with
    | handled => exact hl.retains_member hN (k := .become) (retains_handled hl hN ht hρ) hr
    | _ =>
      rw [hρ] at ho
      cases ho
  | busy => exact retains_busy hl hN ht hr
  | _ =>
    rw [hr] at hi
    cases hi

end Retains

end Layout

open Classical in
/-- Cells in use that are not retained are condemned. What an actor has sent that is condemned
becomes plain data, should it be found in another way. -/
noncomputable def Roles.condemn (ρ : Roles) (N : Nat → Prop) : Roles := fun i =>
  match ρ i with
  | .outside => .outside
  | .lost => .lost
  | .free => .free
  | .pending a => if N a then .pending a else if N i then .data else .condemned
  | r => if N i then r else .condemned

namespace Roles

theorem condemn_of_kept (hi : N i) (hp : ∀ a, ρ i = .pending a → N a) : ρ.condemn N i = ρ i := by
  unfold condemn
  cases hr : ρ i <;> simp_all

theorem condemn_of_retained (hi : N i) (hp : ∀ a, ρ i ≠ .pending a) : ρ.condemn N i = ρ i :=
  condemn_of_kept hi fun a ha => absurd ha (hp a)

theorem condemn_eq_condemned (hc : ρ i ≠ .condemned) (hm : ∀ a, ρ i = .pending a → N a → N i) :
    ρ.condemn N i = .condemned ↔ (ρ i).inUse = true ∧ ¬ N i := by
  unfold condemn
  cases hr : ρ i with
  | condemned => exact absurd hr hc
  | outside | lost | free => simp [Role.inUse]
  | pending a =>
    have := hm a hr
    by_cases ha : N a <;> by_cases hi : N i <;> simp_all [Role.inUse]
  | _ => by_cases hi : N i <;> simp [hi, Role.inUse]

theorem condemn_eq_pending : ρ.condemn N i = .pending a ↔ ρ i = .pending a ∧ N a := by
  unfold condemn
  cases hr : ρ i with
  | outside | lost | free => simp
  | pending b =>
    by_cases ha : N b <;> by_cases hi : N i <;> simp [ha, hi] <;> grind
  | _ => by_cases hi : N i <;> simp [hi]

theorem condemn_eq {r : Role} (hr : r.inUse = true) (hd : r ≠ .data) (hc : r ≠ .condemned)
    (hp : ∀ a, r ≠ .pending a) : ρ.condemn N i = r ↔ ρ i = r ∧ N i := by
  unfold condemn
  cases hρ : ρ i with
  | outside | lost | free =>
    have hne : ∀ r' : Role, r'.inUse = false → r' ≠ r := by
      rintro r' h rfl
      rw [h] at hr
      cases hr
    exact iff_of_false (hne _ rfl) fun h => hne _ rfl h.1
  | pending b =>
    by_cases ha : N b <;> by_cases hi : N i <;> simp [ha, hi] <;> grind
  | _ => by_cases hi : N i <;> simp [hi] <;> grind

theorem owner_of_condemn {k : Bundle} {o : Nat} (ho : k.owner (ρ.condemn N o) = true) :
    k.owner (ρ o) = true ∧ N o := by
  cases hr : ρ.condemn N o with
  | thread | handled | busy | stopped =>
    obtain ⟨hρ, hn⟩ := (condemn_eq rfl (by simp) (by simp) (by simp)).1 hr
    rw [hr] at ho
    rw [hρ]
    exact ⟨ho, hn⟩
  | _ =>
    rw [hr] at ho
    cases k <;> cases ho

end Roles

section Layout

variable (hl : Layout ρ h events threads)

include hl

theorem Layout.fits_orphan {ρ' : Roles} (hi : ρ i = .pending a)
    (hw : ∀ w ∈ (h.cellAt i).words, Safe ρ w → Safe ρ' w)
    (hd : ∀ j, ρ j = .pending a → .ref j ∈ (h.cellAt i).words → ρ' j = .data) :
    Fits ρ' h i .data := by
  -- What an actor has sent is as good as data if what comes behind it is data.
  have hf := hl.fits i
  rw [hi] at hf
  obtain ⟨hplace, ht, -, hx, hy⟩ := hf
  obtain ⟨l, hc, hm⟩ := hl.listed .sends a (hl.owned .sends a i hi)
  have hz : Safe ρ' (h.cellAt i).z := by
    have hmem : (h.cellAt i).z ∈ (h.cellAt i).words := by simp [Cell.words]
    obtain hz | ⟨j, hj, hz⟩ := hc.link ((hm i).2 hi)
    · rw [show (h.cellAt i).z = .nil from hz]
      exact safe_nil
    · rw [show (h.cellAt i).z = .ref j from hz] at hmem ⊢
      exact .inr (hd j ((hm j).1 hj) hmem)
  refine ⟨⟨Nat.le_trans hl.reserved_le_permanent hplace.1, hplace.2⟩, ?_⟩
  have hte : Word.eventT ≠ .freeT ∧ Word.eventT ≠ .actorT := by decide
  refine ⟨ht ▸ hte.1, ht ▸ hte.2, fun w hm => ?_⟩
  have hword := hw w hm
  simp only [Cell.words, List.mem_cons, List.not_mem_nil, or_false] at hm
  obtain rfl | rfl | rfl | rfl := hm
  · rw [ht]
    exact .literal (by decide)
  · exact hword hx
  · exact hword hy
  · exact hz

theorem Layout.condemned_iff (hN : h.Retains roots N)
    (hc : ρ i ≠ .condemned) : ρ.condemn N i = .condemned ↔ (ρ i).inUse = true ∧ ¬ N i :=
  Roles.condemn_eq_condemned hc fun _ hi ha => hl.retains_member hN (k := .sends) ha hi

theorem Layout.data_condemn (hi : ρ i = .data) (hn : h.Leads (.ref i) i → N i) :
    ρ.condemn N i = .data := by
  rw [Roles.condemn_of_retained (hn (hl.leads (by rw [hi]; rfl) (.inl rfl))) (by simp [hi]), hi]

theorem Layout.safe_condemn (hN : h.Retains roots N)
    (hc : ∀ i, ρ i ≠ .condemned) (hn : ∀ j, h.Leads w j → N j) (hs : Safe ρ w) :
    Safe (ρ.condemn N) w := by
  cases w with
  | fixnum n => trivial
  | ref j => exact hs.imp_right fun hj => hl.data_condemn hj (hn j)
  | cap j =>
    rw [Safe, ne_eq, hl.condemned_iff hN (hc j)]
    rintro ⟨hu, hj⟩
    exact hj (hn j (hl.leads hu (.inr rfl)))

theorem Layout.shuns_condemn (hN : h.Retains roots N) (hc : ∀ i, ρ i ≠ .condemned)
    (hcolor : ∀ m, h.colors = some m → ∀ i, (ρ i).inUse = true → ¬ N i → m.color i = m.prev) :
    h.Shuns (ρ.condemn N).condemned := by
  have hcon := fun i => hl.condemned_iff hN (hc i)
  refine ⟨fun i hi => (hl.inUse ((hcon i).1 hi).1).1, fun i hr htop hfree hi w hw => ?_,
    fun m hm i hi => ?_⟩
  · have havoid : ∀ k, w = .ref k ∨ w = .cap k → ρ.condemn N k ≠ .condemned := by
      intro k hk hkc
      obtain ⟨hu, hn⟩ := (hcon k).1 hkc
      refine hn (hN.field i ?_ w hw k (hl.leads hu hk))
      exact Classical.not_not.1 fun hni => hi ((hcon i).2 ⟨hl.inUse_of_cell hr htop hfree, hni⟩)
    cases w with
    | fixnum n => trivial
    | ref k => exact havoid k (.inl rfl)
    | cap k => exact havoid k (.inr rfl)
  · obtain ⟨hu, hn⟩ := (hcon i).1 hi
    exact hcolor m hm i hu hn

theorem Layout.condemn (hN : h.Retains roots N) (he : events.head ∈ roots.words)
    (ht : threads.head ∈ roots.words)
    (hc : ∀ i, ρ i ≠ .condemned) : Layout (ρ.condemn N) h events threads := by
  have hroot : ∀ i (r : Role), r.isRooted = true → (ρ.condemn N i = r ↔ ρ i = r) := by
    intro i r hr
    rw [Roles.condemn_eq (Role.inUse_of_isRooted hr) (by rintro rfl; cases hr)
      (by rintro rfl; cases hr) (by rintro a rfl; cases hr)]
    exact ⟨And.left, fun h => ⟨h, hl.retains_rooted hN ht he (h ▸ hr)⟩⟩
  have hcond : ∀ i, ρ.condemn N i = .condemned ↔ (ρ i).inUse = true ∧ ¬ N i := fun i =>
    hl.condemned_iff hN (hc i)
  have hmember : ∀ (k : Bundle) o i, N o → (ρ.condemn N i = k.member o ↔ ρ i = k.member o) := by
    intro k o i ho
    cases k with
    | stack | become => exact hroot i _ rfl
    | sends => exact Roles.condemn_eq_pending.trans ⟨And.left, fun h => ⟨h, ho⟩⟩
  refine ⟨hl.sound, hl.literals, fun i => ?_, hl.coherent.congr fun i r hr => hroot i r ?_, ?_,
    ?_, ?_, ?_⟩
  · by_cases hcon : ρ.condemn N i = .condemned
    · obtain ⟨hu, hn⟩ := (hcond i).1 hcon
      obtain ⟨hres, htop, hfree⟩ := hl.inUse hu
      rw [hcon]
      refine ⟨⟨?_, htop⟩, hfree⟩
      have := hN.permanent i hres
      grind
    by_cases hu : (ρ i).inUse = true
    · have hn : N i := Classical.not_not.1 fun hn => hcon ((hcond i).2 ⟨hu, hn⟩)
      have hword : ∀ w ∈ (h.cellAt i).words, Safe ρ w → Safe (ρ.condemn N) w := fun w hw =>
        hl.safe_condemn hN hc (hN.field i hn w hw)
      have href : ∀ j, ρ j = .data → .ref j ∈ (h.cellAt i).words → ρ.condemn N j = .data :=
        fun j hj hm => hl.data_condemn hj (hN.field i hn _ hm j)
      by_cases hp : ∃ a, ρ i = .pending a ∧ ¬ N a
      · obtain ⟨a, hr, ha⟩ := hp
        rw [show ρ.condemn N i = .data by simp [Roles.condemn, hr, ha, hn]]
        exact hl.fits_orphan hr hword fun j hj hm => by
          simp [Roles.condemn, hj, ha, hN.field i hn _ hm j
          (hl.leads (by rw [hj]; rfl) (.inl rfl))]
      · rw [Roles.condemn_of_kept hn fun a hr => Classical.not_not.1 fun ha => hp ⟨a, hr, ha⟩]
        exact ⟨(hl.fits i).1, (hl.fits i).2.words hword href⟩
    · have hfit := hl.fits i
      cases hr : ρ i with
      | outside | lost | free =>
        rw [hr] at hfit
        rw [show ρ.condemn N i = ρ i by simp [Roles.condemn, hr], hr]
        exact hfit
      | _ => exact absurd (by rw [hr]; rfl) hu
  · cases r <;> first | rfl | cases hr
  · intro k o i hi
    have howned : ∀ k' : Bundle, k'.owner (ρ o) = true → N o → k'.owner (ρ.condemn N o) = true := by
      intro k' ho hn
      rwa [Roles.condemn_of_retained hn fun a hr => Bundle.ne_member_of_owner (k := .sends) ho hr]
    cases k with
    | stack | become =>
      have ho := hl.owned _ o i ((hroot i _ rfl).1 hi)
      refine howned _ ho (hl.retains_rooted hN ht he ?_)
      cases hr : ρ o <;> rw [hr] at ho <;> first | rfl | cases ho
    | sends =>
      obtain ⟨hi, hn⟩ := Roles.condemn_eq_pending.1 hi
      exact howned .sends (hl.owned .sends o i hi) hn
  · intro k o ho
    obtain ⟨hown, hn⟩ := Roles.owner_of_condemn ho
    obtain ⟨l, hchain, hm⟩ := hl.listed k o hown
    exact ⟨l, hchain, fun i => (hm i).trans (hmember k o i hn).symm⟩
  · obtain ⟨l, hq, hm⟩ := hl.queue
    exact ⟨l, hq, fun i => (hm i).trans (hroot i _ rfl).symm⟩
  · obtain ⟨l, hq, hm⟩ := hl.line
    refine ⟨l, hq, fun i => (hm i).trans ⟨fun hi => ?_, fun hi => ?_⟩⟩
    · cases hr : ρ i with
      | thread | spent =>
        rw [(hroot i _ rfl).2 hr]
        rfl
      | _ =>
        rw [hr] at hi
        cases hi
    · cases hr : ρ.condemn N i with
      | thread | spent =>
        rw [(hroot i _ rfl).1 hr]
        rfl
      | _ =>
        rw [hr] at hi
        cases hi

end Layout

section Thins

variable {ρ' ρ'' : Roles} {h' h'' : Heap}

/-- What is in use and not condemned is as it was. What an actor had sent that is condemned may have
become plain data. -/
def Thins (ρ : Roles) (h : Heap) (ρ' : Roles) (h' : Heap) : Prop :=
  ∀ i, (ρ' i).inUse = true → ρ' i ≠ .condemned →
    h'.cellAt i = h.cellAt i ∧ (ρ' i = ρ i ∨ ρ' i = .data ∧ ∃ a, ρ i = .pending a)

namespace Thins

theorem of_cells (hc : ∀ i, h'.cellAt i = h.cellAt i) : Thins ρ h ρ h' :=
  fun i _ _ => ⟨hc i, .inl rfl⟩

theorem trans (h₁ : Thins ρ h ρ' h') (h₂ : Thins ρ' h' ρ'' h'') : Thins ρ h ρ'' h'' := by
  intro i hu hc
  obtain ⟨hcell₂, hr₂⟩ := h₂ i hu hc
  have hu' : (ρ' i).inUse = true ∧ ρ' i ≠ .condemned := by
    obtain hr | ⟨-, a, hr⟩ := hr₂
    · exact ⟨hr ▸ hu, hr ▸ hc⟩
    · simp [hr, Role.inUse]
  obtain ⟨hcell₁, hr₁⟩ := h₁ i hu'.1 hu'.2
  refine ⟨hcell₂.trans hcell₁, ?_⟩
  obtain hr | ⟨hd, a, hr⟩ := hr₂
  · rw [hr]
    exact hr₁
  · obtain hr' | ⟨hd', -⟩ := hr₁
    · exact .inr ⟨hd, a, hr'.symm.trans hr⟩
    · cases hr.symm.trans hd'

theorem condemn {N : Nat → Prop} : Thins ρ h (ρ.condemn N) h := by
  intro i hu hc
  refine ⟨rfl, ?_⟩
  unfold Roles.condemn at hu hc ⊢
  cases hr : ρ i with
  | outside | lost | free => exact .inl rfl
  | pending a =>
    by_cases ha : N a <;> by_cases hi : N i <;> simp_all
  | _ =>
    by_cases hi : N i <;> simp_all

theorem free : Thins ρ h (ρ.set i .free) h' ↔ ∀ j, j ≠ i → (ρ j).inUse = true → ρ j ≠ .condemned →
    h'.cellAt j = h.cellAt j := by
  constructor
  · intro ht j hj hu hc
    have hr := Roles.set_ne ρ .free hj
    exact (ht j (hr ▸ hu) (hr ▸ hc)).1
  · intro hk j hu hc
    by_cases hj : j = i
    · rw [hj, Roles.set_self] at hu
      cases hu
    · rw [Roles.set_ne _ _ hj] at hu hc ⊢
      exact ⟨hk j hj hu hc, .inl rfl⟩

end Thins

end Thins

end ActorMachine
