import ActorMachine.Proofs.RunQueue
import ActorMachine.Proofs.Stack

namespace ActorMachine

open Machine

variable {ρ ρ' ρ'' : Roles} {h h' : Heap} {m m' m'' : Machine} {α β : Type}
variable {l : List Nat} {w : Word}

theorem Strung.congr (hs : Strung ρ h w l) (hg : Grows ρ ρ') (hl : ∀ i ∈ l, Same ρ ρ' h h' i) :
    Strung ρ' h' w l := by
  refine ⟨hs.1.congr fun i hi => by rw [(hl i hi).2], fun i hi => ?_⟩
  rw [(hl i hi).1, (hl i hi).2]
  exact ⟨(hs.2 i hi).1, (hs.2 i hi).2.mono hg⟩

theorem Orderly.publish (ho : Orderly ρ m) (hs : Strung ρ m.heap w l) :
    Orderly (ρ.setAll l .data) m ∧
      Frame (fun _ r => r.isSpare = true) ρ m.heap (ρ.setAll l .data) m.heap ∧
      Safe (ρ.setAll l .data) w := by
  have hl := ho.layout
  have hg : Grows ρ (ρ.setAll l .data) := by
    constructor
    · intro i hi
      unfold Roles.setAll
      split
      · rfl
      · exact hi
    · intro i hi
      unfold Roles.setAll at hi
      split at hi
      · cases hi
      · exact hi
  have hsafe : ∀ (w : Word) k, m.heap.Chain .y w k → k ⊆ l → Safe (ρ.setAll l .data) w := by
    intro w k hc hk
    cases k with
    | nil =>
      rw [show w = .nil from hc]
      exact safe_nil
    | cons i k =>
      rw [hc.1]
      exact .inr (Roles.setAll_mem _ (hk List.mem_cons_self))
  have hlay : m.Arranged (ρ.setAll l .data) := by
    refine hl.relabel hg fun i => ?_
    by_cases hi : i ∈ l
    · obtain ⟨hr, ht, hx, hz⟩ := hs.2 i hi
      have hp := (hl.fits i).1
      rw [hr] at hp
      obtain ⟨l₁, l₂, hl₂⟩ := List.append_of_mem hi
      have hc := hs.1
      rw [hl₂] at hc
      have hy := hsafe _ l₂ hc.suffix.2.2 (by simp [hl₂])
      rw [Roles.setAll_mem _ hi, hr]
      refine .inr ⟨rfl, rfl, by simp, ⟨Nat.le_trans hl.reserved_le_permanent hp.1, hp.2⟩, ?_⟩
      refine ⟨by rw [ht]; decide, by rw [ht]; decide, ?_⟩
      simp only [Cell.words, List.mem_cons, List.not_mem_nil, or_false]
      rintro w (rfl | rfl | rfl | rfl)
      · rw [ht]
        exact .literal (by decide)
      · exact hx.mono hg
      · exact hy
      · rw [hz]
        exact safe_undefined
    · exact .inl (Roles.setAll_not_mem _ hi)
  have hne : ∀ i ∈ l, ρ i ≠ .condemned := fun i hi => by simp [(hs.2 i hi).1]
  refine ⟨ho.relabel hg hlay (Roles.condemned_setAll hne (by simp)),
    ⟨fun i => ?_, hg, .refl _, rfl, rfl, Nat.le_refl _⟩, hsafe w l hs.1 (List.Subset.refl l)⟩
  by_cases hil : i ∈ l
  · refine .inr ⟨by rw [(hs.2 i hil).1]; rfl, .inr ?_⟩
    rw [Roles.setAll_mem _ hil]
    rfl
  · exact .inl ⟨Roles.setAll_not_mem _ hil, rfl⟩

theorem Frame.isActor_eq {M : Nat → Role → Prop} {events threads events' threads' : Queue}
    (hf : Frame M ρ h ρ' h') (hl : Layout ρ h events threads) (hl' : Layout ρ' h' events' threads')
    (hM : ∀ i, M i (ρ i) → ρ i ≠ .condemned) (hr : ∀ i, (ρ' i).isActor = (ρ i).isActor) (w : Word) :
    h'.isActor w = h.isActor w := by
  cases w with
  | cap i =>
    by_cases hc : ρ i = .condemned
    · obtain ⟨hrole, hcell⟩ := hf.same fun hm => hM i hm hc
      have hlt := (hl.bounds (i := i) (by rw [hc]; simp)).2
      have hlt' := (hl'.bounds (i := i) (by rw [hrole, hc]; simp)).2
      rw [Bool.eq_iff_iff, Heap.isActor_iff, Heap.isActor_iff]
      simp [hcell, hlt, hlt']
    · have hc' : ρ' i ≠ .condemned := fun h => hc (hf.grows.condemned i h)
      rw [Bool.eq_iff_iff, hl.isActor_cap_iff hc, hl'.isActor_cap_iff hc', hr]
  | _ => rfl

theorem Roles.isActor_setAll {r : Role} (hr : r.isActor = false)
    (hl : ∀ i ∈ l, (ρ i).isActor = false) (i : Nat) : (ρ.setAll l r i).isActor = (ρ i).isActor := by
  unfold setAll
  split
  · next hi => rw [hr, hl i hi]
  · rfl

/-- What a transaction may change while it goes on: what its thread has, and what its event has
staged. -/
def Staging (t e i : Nat) (r : Role) : Prop := Mine t i r ∨ i = e ∨ r = .staged e

theorem Bundled.staging {t e j : Nat} {r : Role} (hb : Bundled .become e j r) :
    Staging t e j r := by
  obtain hj | hr | hr := hb
  · exact .inr (.inl hj)
  · exact .inl (.spare (by rw [hr]; rfl))
  · exact .inr (.inr hr)

abbrev Stages (t e : Nat) := Confined (Staging t e)

theorem Confined.stages {t e : Nat} (hw : Within t ρ m ρ' m') : Stages t e ρ m ρ' m' :=
  hw.mono fun _ _ => .inl

namespace Cleared

variable {k : Bundle} {o : Nat} {held : List Nat}

theorem role (hc : Cleared k o held ρ h ρ' h') {i : Nat} (hi : ρ i ≠ k.member o) : ρ' i = ρ i := by
  by_cases hio : i = o
  · rw [hio, hc.owner]
  · exact (hc.same i hio hi).1

theorem isActor_eq (hc : Cleared k o held ρ h ρ' h') (i : Nat) :
    (ρ' i).isActor = (ρ i).isActor := by
  by_cases hi : ρ i = k.member o
  · rw [hc.members i hi, hi]
    split <;> cases k <;> rfl
  · rw [hc.role hi]

end Cleared

namespace Layout

variable {events threads : Queue} {e : Nat}

theorem staged (hl : Layout ρ h events threads) (he : (ρ e).isHandled = true) :
    ∃ l, h.Pairs (h.cellAt e).z l ∧ ∀ i, i ∈ l ↔ ρ i = .staged e := by
  obtain ⟨l, hc, hm⟩ := hl.listed .become e he
  refine ⟨l, ⟨hc, fun i hi => ?_⟩, hm⟩
  have hi : ρ i = .staged e := (hm i).1 hi
  have hs := (hl.fits i).2
  rw [hi] at hs
  exact hl.isPair_of_role (by rw [hi]; simp) hs.1

theorem lists_staged (hl : Layout ρ h events threads) (he : (ρ e).isHandled = true) {s : List Word}
    (hs : h.Lists (h.cellAt e).z s) (ht : h.top ≤ h'.top)
    (hc : ∀ i, i = e ∨ ρ i = .staged e → h'.cellAt i = h.cellAt i) :
    h'.Lists (h'.cellAt e).z s := by
  obtain ⟨l, hp, rfl⟩ := hs
  obtain ⟨k, hk, hm⟩ := hl.staged he
  obtain rfl := hp.1.unique hk.1
  have hcell : ∀ i ∈ l, h'.cellAt i = h.cellAt i := fun i hi => hc i (.inr ((hm i).1 hi))
  rw [hc e (.inl rfl)]
  exact ⟨l, hp.congr ht hcell, List.map_congr_left fun i hi => by rw [hcell i hi]⟩

end Layout

namespace Open

variable {t e a : Nat} {held : List Nat} {E : Machine → Prop}

section Open

variable (ho : Open t e a held ρ m)

include ho

theorem event_bind {k : Word → MachineM β} {P : β → Machine → Prop}
    (hk : Ensures (k (.ref e)) m P E) : Ensures (event >>= k) m P E := by
  have hs := (ho.orderly.layout.fits t).2
  rw [ho.role] at hs
  unfold event
  rw [bind_assoc, ensures_thread_bind, ho.head]
  refine ensures_fetch_bind fun i hi _ => ?_
  cases hi
  rw [show (m.heap.cellAt t).get .y = .ref e from hs.2]
  exact hk

theorem me_bind {k : Word → MachineM β} {P : β → Machine → Prop}
    (hk : Ensures (k (.ref a)) m P E) : Ensures (me >>= k) m P E := by
  have hs := (ho.orderly.layout.fits e).2
  rw [ho.roles.1] at hs
  unfold me
  rw [bind_assoc]
  refine ho.event_bind ?_
  rw [bind_assoc]
  refine ensures_fetch_bind fun i hi _ => ?_
  cases hi
  rw [show (m.heap.cellAt e).get .x = .cap a from hs.2.1, bind_assoc, ensures_look_bind]
  dsimp only
  split
  · exact .inl rfl
  · exact hk

theorem staged : ∃ l, m.heap.Pairs (m.heap.cellAt e).z l ∧ ∀ i, i ∈ l ↔ ρ i = .staged e :=
  ho.orderly.layout.staged (by rw [ho.roles.1]; rfl)

theorem ensures_takeBecome : Ensures takeBecome m
      (fun r m' => ∃ ρ' l, Open t e a (l ++ held) ρ' m' ∧ Stages t e ρ m ρ' m' ∧
        Cleared .become e l ρ m.heap ρ' m'.heap ∧ (∀ i ∈ l, ρ i = .staged e) ∧
        match r with
        | none => l = [] ∧ m.heap.Lists (m.heap.cellAt e).z []
        | some (beh, state) => Safe ρ' beh ∧ Strung ρ' m'.heap state l ∧
          m.heap.Lists (m.heap.cellAt e).z (beh :: l.map fun i => (m'.heap.cellAt i).x)) E := by
  have hl := ho.orderly.layout
  obtain ⟨l, hp, hm⟩ := ho.staged
  unfold takeBecome
  refine ho.event_bind ?_
  refine ensures_fetch_bind fun i hi _ => ?_
  cases hi
  rw [show (m.heap.cellAt e).get .z = (m.heap.cellAt e).z from rfl, ensures_look_bind]
  cases l with
  | nil =>
    rw [show (m.heap.cellAt e).z = .nil from hp.1, hl.not_isPair_nil]
    refine ⟨ρ, [], ho, .refl, ⟨rfl, fun _ _ => rfl, fun i hi => ?_, fun i _ _ => ⟨rfl, rfl⟩⟩,
      by simp, rfl, [], ⟨rfl, by simp⟩, rfl⟩
    exact absurd ((hm i).2 hi) (by simp)
  | cons i l =>
    have hip := hp.2 i List.mem_cons_self
    obtain ⟨hz, -, hrest⟩ := hp.cdr
    rw [hz, hip, if_pos rfl, ensures_look_bind, ensures_look_bind, Heap.car_eq hip,
      Heap.cdr_eq hip]
    have hi : ρ i = .staged e := (hm i).1 List.mem_cons_self
    have hil : i ∉ l := (List.nodup_cons.1 hp.1.nodup).1
    have hne : ∀ j ∈ i :: l, j ≠ e := by
      rintro j hj rfl
      have := (hm j).1 hj
      rw [ho.roles.1] at this
      cases this
    refine (ho.orderly.ensures_lead (k := .become) (o := e) (w := .nil) (l := [])
      (by rw [ho.roles.1]; rfl) rfl (by simp)).bind ?_
    rintro - m' ⟨hset, ho', hframe, hu⟩
    have hopen : Open t e a (i :: (l ++ held)) (ρ.bundle .become e []) m' := by
      refine ho.bundle ho' hu (by simp) fun j _ hj => ?_
      rw [← List.cons_append]
      exact List.mem_append.2 (hj.imp_left (hm j).2)
    have hw : Stages t e ρ m (ρ.bundle .become e []) m' :=
      ⟨hframe.mono fun _ _ => Bundled.staging, hu⟩
    have hheld : ∀ j ∈ i :: l, ρ.bundle .become e [] j = .held := fun j hj =>
      Roles.bundle_held (by simp) (.inr ((hm j).1 hj))
    refine (hopen.ensures_free (l ++ held) (hheld i List.mem_cons_self) (by simp)).bind ?_
    rintro - m'' ⟨hframe', hopen', hw'⟩
    replace hw' : Stages t e (ρ.bundle .become e []) m' _ m'' := hw'.stages
    have hsame : ∀ j ∈ l, Same (ρ.bundle .become e []) ((ρ.bundle .become e []).set i .free) m.heap
        m''.heap j := by
      intro j hj
      obtain ⟨hr, hc⟩ := hframe'.same (i := j) (by rintro rfl; exact hil hj)
      exact ⟨hr, hc.trans (hset.ne (hne j (List.mem_cons_of_mem i hj)))⟩
    have hsuit : ∀ j ∈ i :: l, Suits ρ (m.heap.cellAt j) (.staged e) := by
      intro j hj
      have := (hl.fits j).2
      rwa [(hm j).1 hj] at this
    refine ⟨_, l, hopen', hw.trans hw', ⟨?_, ?_, ?_, ?_⟩, fun j hj =>
      (hm j).1 (List.mem_cons_of_mem i hj), (hw.trans hw').safe (hsuit i List.mem_cons_self).2.1,
      ?_, i :: l, ⟨?_, fun j hj => hp.2 j hj⟩, ?_⟩
    · exact hopen'.roles.1.trans ho.roles.1.symm
    · intro f hf
      rw [(hframe'.same (i := e) (hne i List.mem_cons_self).symm).2, hset.self]
      exact Cell.get_set_ne _ _ hf
    · intro j hj
      by_cases hji : j = i
      · rw [hji, Roles.set_self, if_neg hil]
      · have hjl : j ∈ l := by simpa [hji] using (hm j).2 hj
        rw [Roles.set_ne _ _ hji, hheld j ((hm j).2 hj), if_pos hjl]
    · intro j hje hj
      obtain ⟨hr, hc⟩ := hframe'.same (i := j) (by rintro rfl; exact hj hi)
      exact ⟨hr.trans (Roles.bundle_other (by simp) hj), hc.trans (hset.ne hje)⟩
    · refine ⟨hrest.1.congr fun j hj => by rw [(hsame j hj).2], fun j hj => ?_⟩
      rw [(hsame j hj).1, (hsame j hj).2]
      exact ⟨hheld j (List.mem_cons_of_mem i hj),
        (hsuit j (List.mem_cons_of_mem i hj)).mono (hw.trans hw').frame.grows⟩
    · rw [← hz]
      exact hp.1
    · exact congrArg _ (List.map_congr_left fun j hj => by rw [(hsame j hj).2])

theorem ensures_discardBecome : Ensures discardBecome m
      (fun _ m' => ∃ ρ', Open t e a held ρ' m' ∧ Stages t e ρ m ρ' m' ∧
        Cleared .become e [] ρ m.heap ρ' m'.heap) E := by
  unfold discardBecome
  refine ho.ensures_takeBecome.bind ?_
  rintro (- | ⟨beh, state⟩) m' ⟨ρ', l, ho', hw, hc, hstaged, hr⟩
  · obtain ⟨rfl, -⟩ := hr
    exact ⟨ρ', ho', hw, hc⟩
  obtain ⟨-, hs, -⟩ := hr
  have hp := hs.pairs ho'.orderly.layout
  refine (ho'.ensures_freeSpine held hp (fun i hi => (hs.2 i hi).1) (by simp)).imp ?_
  rintro - m'' ⟨ho'', hframe, hw'⟩
  have hel : e ∉ l := fun h => by simpa [ho.roles.1] using hstaged e h
  refine ⟨_, ho'', hw.trans hw'.stages, ho''.roles.1.trans ho.roles.1.symm, ?_, ?_, ?_⟩
  · intro f hf
    rw [(hframe.same hel).2]
    exact hc.fields f hf
  · intro i hi
    by_cases hil : i ∈ l
    · exact Roles.setAll_mem _ hil
    · rw [Roles.setAll_not_mem _ hil, hc.members i hi, if_neg hil]
      rfl
  · intro i hie hi
    obtain ⟨hr, hcell⟩ := hc.same i hie hi
    obtain ⟨hr', hcell'⟩ := hframe.same (i := i) fun hil => hi (hstaged i hil)
    exact ⟨hr'.trans hr, hcell'.trans hcell⟩

end Open

theorem ensures_stageBecome {beh state : Word} (ho : Open t e a l ρ m)
    (hb : Safe ρ beh) (hs : Strung ρ m.heap state l) :
    Ensures (stageBecome beh state) m
      (fun _ m' => ∃ ρ', Open t e a [] ρ' m' ∧ Stages t e ρ m ρ' m' ∧
        (∀ f, f ≠ .z → (m'.heap.cellAt e).get f = (m.heap.cellAt e).get f) ∧
        m'.heap.Lists (m'.heap.cellAt e).z (beh :: l.map fun i => (m.heap.cellAt i).x)) E := by
  unfold stageBecome
  refine ho.ensures_discardBecome.bind ?_
  rintro - m₁ ⟨ρ₁, ho₁, hw₁, hc₁⟩
  have hsame₁ : ∀ i ∈ l, Same ρ ρ₁ m.heap m₁.heap i := by
    intro i hi
    refine hc₁.same i ?_ ?_
    · rintro rfl
      have := (hs.2 i hi).1
      rw [ho.roles.1] at this
      cases this
    · rw [(hs.2 i hi).1]
      exact (Bundle.member_ne_held _ _).symm
  have hs₁ := hs.congr hw₁.frame.grows hsame₁
  unfold Heap.cons
  have ht : Word.pairT ≠ .freeT ∧ Word.pairT ≠ .actorT := by decide
  have hb₁ := hb.mono hw₁.frame.grows
  refine (ho₁.ensures_alloc (r := .held) (c := ⟨.pairT, beh, state, .undefined⟩) (.inl rfl) ht.1
    (fun i _ => ht)
    (Cell.forall_words.2 (ho₁.orderly.avoids_pair hb₁ (hs₁.avoids ho₁.orderly)))).bind ?_
  rintro w m₂ ⟨i, rfl, hi, htake, hw₂, hopen⟩
  have ho₂ := hopen (i :: l) (by simp +contextual)
  refine ho₂.event_bind ?_
  have hil : ∀ j ∈ l, j ≠ i := by
    rintro j hj rfl
    rw [(hs₁.2 j hj).1] at hi
    simp at hi
  have hheld : ∀ j ∈ i :: l, (ρ₁.set i .held) j = .held := by
    intro j hj
    obtain rfl | hj := List.mem_cons.1 hj
    · rw [Roles.set_self]
    · rw [Roles.set_ne _ _ (hil j hj), (hs₁.2 j hj).1]
  have hchain : m₂.heap.Chain .y (.ref i) (i :: l) := by
    refine ⟨rfl, (ho₂.orderly.layout.bounds (i := i) (by rw [Roles.set_self]; simp)).1, ?_⟩
    rw [htake.self]
    exact hs₁.1.congr fun j hj => by rw [htake.ne (hil j hj)]
  refine (ho₂.orderly.ensures_lead (k := .become) (o := e) (l := i :: l)
    (by rw [ho₂.roles.1]; rfl) hchain ?_).imp ?_
  · intro j hj
    refine ⟨.inl (hheld j hj), ?_⟩
    obtain rfl | hj := List.mem_cons.1 hj
    · rw [htake.self]
      exact ⟨rfl, hw₂.safe (hw₁.safe hb), rfl⟩
    · rw [htake.ne (hil j hj)]
      exact (hs₁.2 j hj).2.mono hw₂.frame.grows
  · rintro - m₃ ⟨hset, ho₃, hframe, hu⟩
    have hopen₃ : Open t e a [] ((ρ₁.set i .held).bundle .become e (i :: l)) m₃ := by
      refine ho₂.bundle ho₃ hu (fun j hj => .inl (hheld j hj)) fun j hj hj' => ?_
      refine absurd (hj'.resolve_left fun hjs => ?_) hj
      rw [Roles.set_ne _ _ (by rintro rfl; simp at hj)] at hjs
      exact hc₁.no_member (.inl ⟨rfl, rfl⟩) j hjs
    have hne : ∀ j ∈ i :: l, j ≠ e := by
      rintro j hj rfl
      have := hheld j hj
      rw [ho₂.roles.1] at this
      cases this
    refine ⟨_, hopen₃, (hw₁.trans hw₂.stages).trans ⟨hframe.mono fun _ _ => Bundled.staging, hu⟩,
      fun f hf => ?_, ?_⟩
    · rw [hset.self]
      refine (Cell.get_set_ne _ _ hf).trans ?_
      rw [htake.ne (hne i List.mem_cons_self).symm]
      exact hc₁.fields f hf
    obtain ⟨k, hk, hm⟩ := hopen₃.staged
    have hz : (m₃.heap.cellAt e).z = .ref i := by
      rw [hset.self]
      rfl
    have hk' : k = i :: l := by
      refine hk.1.unique ?_
      rw [hz]
      exact hchain.congr fun j hj => by rw [hset.ne (hne j hj)]
    refine ⟨k, hk, ?_⟩
    rw [hk', List.map_cons, hset.ne (hne i List.mem_cons_self), htake.self]
    refine congrArg _ (List.map_congr_left fun j hj => ?_)
    rw [hset.ne (hne j (List.mem_cons_of_mem i hj)), htake.ne (hil j hj), (hsame₁ j hj).2]

theorem publish (ho : Open t e a l ρ m) (hs : Strung ρ m.heap w l) :
    Open t e a [] (ρ.setAll l .data) m ∧ Within t ρ m (ρ.setAll l .data) m ∧
      Safe (ρ.setAll l .data) w := by
  obtain ⟨ho', hf, hsafe⟩ := ho.orderly.publish hs
  refine ⟨⟨ho', ho.head, ?_, fun i hi => ?_⟩, ⟨hf.mono fun _ _ => .spare, .refl m⟩, hsafe⟩
  · rw [(hf.same (i := t) (by rw [ho.role]; simp [Role.isSpare])).1, ho.role]
  · by_cases hil : i ∈ l
    · rw [Roles.setAll_mem _ hil] at hi
      cases hi
    · rw [Roles.setAll_not_mem _ hil] at hi
      exact absurd (ho.brief i hi) hil

end Open

end ActorMachine
