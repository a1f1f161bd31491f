import ActorMachine.Machine.Stack
import ActorMachine.Proofs.Running

namespace ActorMachine

open Machine

variable {ρ ρ' : Roles} {h h' : Heap} {m m' : Machine} {α β : Type} {events threads : Queue}
variable {l k : List Nat} {v : Word} {s vs : List Word} {n : Nat} {P : β → Machine → Prop}

theorem Heap.isPair_iff : h.isPair v = true ↔ ∃ i, v = .ref i ∧ i < h.top ∧
    (h.cellAt i).t = .pairT :=
  hasType_iff

theorem Heap.car_eq {i : Nat} (hp : h.isPair (.ref i) = true) : h.car (.ref i) = (h.cellAt i).x :=
  if_pos hp

theorem Heap.cdr_eq {i : Nat} (hp : h.isPair (.ref i) = true) : h.cdr (.ref i) = (h.cellAt i).y :=
  if_pos hp

def Heap.Pairs (h : Heap) (w : Word) (l : List Nat) : Prop :=
  h.Chain .y w l ∧ ∀ i ∈ l, h.isPair (.ref i) = true

theorem Heap.Pairs.cdr {w : Word} {i : Nat} (hc : h.Pairs w (i :: l)) :
    w = .ref i ∧ h.cdr w = (h.cellAt i).y ∧ h.Pairs (h.cellAt i).y l := by
  obtain ⟨⟨rfl, -, hc⟩, hp⟩ := hc
  exact ⟨rfl, cdr_eq (hp i List.mem_cons_self), hc, fun j hj => hp j (List.mem_cons_of_mem i hj)⟩

theorem Heap.Pairs.congr {w : Word} (hc : h.Pairs w l) (ht : h.top ≤ h'.top)
    (hl : ∀ i ∈ l, h'.cellAt i = h.cellAt i) : h'.Pairs w l := by
  refine ⟨hc.1.congr fun i hi => by rw [hl i hi], fun i hi => ?_⟩
  obtain ⟨j, hj, hlt, hp⟩ := isPair_iff.1 (hc.2 i hi)
  cases hj
  exact isPair_iff.2 ⟨i, rfl, Nat.lt_of_lt_of_le hlt ht, by rwa [hl i hi]⟩

def Heap.Lists (h : Heap) (w : Word) (s : List Word) : Prop :=
  ∃ l, h.Pairs w l ∧ l.map (fun i => (h.cellAt i).x) = s

theorem Heap.Pairs.lists_iff {w : Word} (hc : h.Pairs w l) :
    h.Lists w s ↔ l.map (fun i => (h.cellAt i).x) = s := by
  refine ⟨?_, fun hs => ⟨l, hc, hs⟩⟩
  rintro ⟨k, hk, rfl⟩
  rw [hc.1.unique hk.1]

theorem Heap.Lists.head {w : Word} {p : Nat} (hs : h.Lists w (v :: s)) (hw : w = .ref p) :
    (h.cellAt p).x = v := by
  obtain ⟨l, hp, hl⟩ := hs
  cases l with
  | nil => cases hl
  | cons i l =>
    cases hw.symm.trans hp.1.1
    exact (List.cons.inj hl).1

theorem Heap.Lists.rest {w : Word} (hs : h.Lists w (v :: s)) :
    h.car w = v ∧ h.Lists (h.cdr w) s := by
  obtain ⟨l, hp, hl⟩ := hs
  cases l with
  | nil => cases hl
  | cons i l =>
    obtain ⟨rfl, hcdr, hrest⟩ := hp.cdr
    obtain ⟨hv, hs⟩ := List.cons.inj hl
    rw [car_eq (hp.2 i List.mem_cons_self), hcdr]
    exact ⟨hv, l, hrest, hs⟩

theorem Heap.Lists.unique {w : Word} {s' : List Word} (hs : h.Lists w s) (hs' : h.Lists w s') :
    s = s' := by
  obtain ⟨l, hl, rfl⟩ := hs
  exact hl.lists_iff.1 hs'

theorem Heap.spine_pair (hp : h.isPair v = true) (task : String) (n : Nat) :
    h.spine ⟨n + 1, task⟩ v = (v :: ·) <$> h.spine ⟨n, task⟩ (h.cdr v) := by
  conv => lhs; unfold Heap.spine
  rw [if_pos hp]
  rfl

theorem Heap.spine_end (hp : h.isPair v = false) (b : Budget) : h.spine b v = .ok [] := by
  unfold Heap.spine
  rw [hp]
  rfl

theorem Heap.spine_runaway (hp : h.isPair v = true) (task : String) :
    h.spine ⟨0, task⟩ v = .error (.runaway task) := by
  unfold Heap.spine
  rw [if_pos hp]
  rfl

theorem Heap.Pairs.spine_eq (hnil : h.isPair .nil = false) {w : Word} (hc : h.Pairs w l)
    (b : Budget) :
    h.spine b w = if l.length ≤ b.left then .ok (l.map .ref) else .error (.runaway b.task) := by
  induction l generalizing w b with
  | nil =>
    obtain ⟨rfl, -⟩ := hc
    exact spine_end hnil b
  | cons i l ih =>
    obtain ⟨rfl, hcdr, hrest⟩ := hc.cdr
    have hp := hc.2 i List.mem_cons_self
    obtain ⟨_ | n, task⟩ := b
    · exact spine_runaway hp task
    · rw [spine_pair hp, hcdr, ih hrest, List.length_cons]
      by_cases hn : l.length ≤ n
      · rw [if_pos hn, if_pos (Nat.succ_le_succ hn)]
        rfl
      · rw [if_neg hn, if_neg fun h => hn (Nat.le_of_succ_le_succ h)]
        rfl

theorem Heap.Pairs.spine_ok (hnil : h.isPair .nil = false) {w : Word} (hc : h.Pairs w l)
    {b : Budget}
    (hn : l.length ≤ b.left) : h.spine b w = .ok (l.map .ref) :=
  (hc.spine_eq hnil b).trans (if_pos hn)

theorem Heap.Pairs.repeat_cdr {w : Word} {i : Nat}
    (hc : h.Pairs w (l ++ i :: k)) : Nat.repeat h.cdr l.length w = .ref i := by
  induction l generalizing w with
  | nil => exact hc.cdr.1
  | cons j l ih =>
    obtain ⟨rfl, hcdr, hrest⟩ := hc.cdr
    have := ih hrest
    rw [← hcdr] at this
    rw [List.length_cons, ← this]
    clear this hcdr hrest hc ih
    induction l.length with
    | zero => rfl
    | succ n ih => rw [Nat.repeat, ih, Nat.repeat]

theorem Heap.Pairs.rolls_up {w : Word} (hp : h.Pairs w l) (hn : 1 < n)
    (hl : n ≤ l.length) : ∃ l₁ b c k, l = l₁ ++ b :: c :: k ∧ l₁.length + 2 = n ∧
      Nat.repeat h.cdr (n - 2) w = .ref b ∧ h.cdr (.ref b) = .ref c ∧
      h.cdr (.ref c) = (h.cellAt c).y := by
  obtain ⟨l₁, b, c, k, rfl, hlen⟩ : ∃ l₁ b c k, l = l₁ ++ b :: c :: k ∧ l₁.length + 2 = n := by
    refine ⟨l.take (n - 2), l[n - 2], l[n - 2 + 1], l.drop (n - 2 + 1 + 1), ?_, ?_⟩
    · simp
    · simp
      omega
  refine ⟨l₁, b, c, k, rfl, hlen, ?_, ?_, cdr_eq (hp.2 c (by simp))⟩
  · rw [← hlen, Nat.add_sub_cancel, hp.repeat_cdr]
  · rw [cdr_eq (hp.2 b (by simp))]
    exact hp.1.suffix.2.2.1

theorem Heap.Pairs.rolls_down {w : Word} (hp : h.Pairs w l) (hn : 1 < n)
    (hl : n ≤ l.length) : ∃ s l₁ j k, l = s :: (l₁ ++ j :: k) ∧ l₁.length + 2 = n ∧ w = .ref s ∧
      h.cdr (.ref s) = (h.cellAt s).y ∧ Nat.repeat h.cdr (n - 1) w = .ref j := by
  cases l with
  | nil =>
    simp at hl
    omega
  | cons s l =>
    simp only [List.length_cons] at hl
    obtain ⟨l₁, j, k, rfl, hlen⟩ : ∃ l₁ j k, l = l₁ ++ j :: k ∧ l₁.length + 2 = n := by
      refine ⟨l.take (n - 2), l[n - 2], l.drop (n - 2 + 1), ?_, ?_⟩
      · simp
      · simp
        omega
    refine ⟨s, l₁, j, k, rfl, hlen, hp.1.1, cdr_eq (hp.2 s (by simp)), ?_⟩
    rw [← hlen, Nat.add_sub_cancel (l₁.length + 1) 1, ← List.length_cons (a := s)]
    exact Heap.Pairs.repeat_cdr (l := s :: l₁) hp

namespace Layout

variable {i o : Nat}

variable (hl : Layout ρ h events threads)

include hl

theorem not_isPair_nil : h.isPair .nil = false := by
  cases hp : h.isPair .nil with
  | false => rfl
  | true =>
    obtain ⟨i, hi, -, ht⟩ := Heap.isPair_iff.1 hp
    cases hi
    rw [hl.literals 1 (by decide)] at ht
    revert ht
    decide

theorem car_lists {w : Word} (hs : h.Lists w s) : h.car w = s.headD .undefined := by
  obtain ⟨l, hp, rfl⟩ := hs
  cases l with
  | nil =>
    obtain ⟨rfl, -⟩ := hp
    rw [Heap.car, hl.not_isPair_nil]
    rfl
  | cons i l =>
    obtain ⟨rfl, -⟩ := hp.cdr
    exact Heap.car_eq (hp.2 i List.mem_cons_self)

theorem isPair_of_role (hi : ρ i ≠ .outside) (ht : (h.cellAt i).t = .pairT) :
    h.isPair (.ref i) = true :=
  Heap.isPair_iff.2 ⟨i, rfl, (hl.bounds hi).2, ht⟩

theorem operand (hi : ρ i = .operand o) :
    h.isPair (.ref i) = true ∧ Suits ρ (h.cellAt i) (.operand o) := by
  have hs := (hl.fits i).2
  rw [hi] at hs
  exact ⟨hl.isPair_of_role (by rw [hi]; simp) hs.1, hs⟩

theorem safe_field (hv : Safe ρ v) (hc : h.isCell v = true) (f : Field) :
    Safe ρ ((h.cellAt v.index).get f) := by
  obtain ⟨i, rfl, hi⟩ := Heap.isCell_iff.1 hc
  obtain hr | hd := hv
  · rw [Word.index, hl.literals i hr]
    unfold Cell.initial
    split <;> cases f <;> exact .literal (by decide)
  · have hs := (hl.fits i).2
    rw [hd] at hs
    refine hs.2.2 _ ?_
    cases f <;> simp [Cell.words, Cell.get, Word.index]

theorem safe_car (hv : Safe ρ v) : Safe ρ (h.car v) := by
  unfold Heap.car
  split
  · next hp =>
    obtain ⟨i, rfl, hi, -⟩ := Heap.isPair_iff.1 hp
    exact hl.safe_field hv (Heap.isCell_iff.2 ⟨i, rfl, hi⟩) .x
  · exact safe_undefined

theorem safe_cdr (hv : Safe ρ v) : Safe ρ (h.cdr v) := by
  unfold Heap.cdr
  split
  · next hp =>
    obtain ⟨i, rfl, hi, -⟩ := Heap.isPair_iff.1 hp
    exact hl.safe_field hv (Heap.isCell_iff.2 ⟨i, rfl, hi⟩) .y
  · exact safe_undefined

end Layout

/-- Words from which a list can be read: its items are safe. -/
structure Readable (ρ : Roles) (h : Heap) (R : Word → Prop) : Prop where
  car : ∀ w, R w → Safe ρ (h.car w)
  cdr : ∀ w, R w → R (h.cdr w)

namespace Readable

variable {R : Word → Prop} {w : Word}

theorem data (hl : Layout ρ h events threads) : Readable ρ h (Safe ρ) :=
  ⟨fun _ => hl.safe_car, fun _ => hl.safe_cdr⟩

theorem pairAt (hr : Readable ρ h R) {p : Word} (hw : R w) (hp : h.pairAt? n w = some p) : R p := by
  induction n generalizing w with
  | zero =>
    unfold Heap.pairAt? at hp
    split at hp
    · cases hp
      exact hw
    · cases hp
  | succ n ih =>
    unfold Heap.pairAt? at hp
    split at hp
    · exact ih (hr.cdr w hw) hp
    · cases hp

theorem nth_pos (hr : Readable ρ h R) {n : Int} (hw : R w) (hn : 0 < n) : Safe ρ (h.nth w n) := by
  unfold Heap.nth
  rw [if_neg (by omega)]
  split
  · next p hp =>
    rw [if_pos hn]
    exact hr.car p (hr.pairAt hw hp)
  · exact safe_undefined

theorem nth (hl : Layout ρ h events threads) (n : Int) (hw : Safe ρ w) : Safe ρ (h.nth w n) := by
  have hr := data hl
  unfold Heap.nth
  split
  · exact hw
  · split
    · next p hp =>
      have := hr.pairAt hw hp
      split
      · exact hr.car p this
      · exact hr.cdr p this
    · exact safe_undefined

variable (hr : Readable ρ h R)

include hr

theorem firstItems (n : Nat) (hw : R w) : ∀ v ∈ h.firstItems n w, Safe ρ v := by
  induction n generalizing w with
  | zero => simp [Heap.firstItems]
  | succ n ih =>
    intro v hv
    cases hv with
    | head => exact hr.car w hw
    | tail _ hv => exact ih (hr.cdr w hw) v hv

theorem splitItems {rest : Word} (hw : R w)
    (hs : h.splitItems n w = .ok (vs, rest)) : (∀ v ∈ vs, Safe ρ v) ∧ R rest := by
  induction n generalizing w vs with
  | zero =>
    cases hs
    exact ⟨by simp, hw⟩
  | succ n ih =>
    unfold Heap.splitItems at hs
    split at hs
    · cases hrec : h.splitItems n (h.cdr w) with
      | error f =>
        rw [hrec] at hs
        cases hs
      | ok r =>
        obtain ⟨us, u⟩ := r
        rw [hrec] at hs
        cases hs
        obtain ⟨hus, hu⟩ := ih (hr.cdr w hw) hrec
        refine ⟨?_, hu⟩
        intro v hv
        cases hv with
        | head => exact hr.car w hw
        | tail _ hv => exact hus v hv
    · cases hs

theorem spine {task : String} {ps : List Word} (hw : R w) (hs : h.spine ⟨n, task⟩ w = .ok ps) :
    ∀ p ∈ ps, R p := by
  induction n generalizing w ps with
  | zero =>
    unfold Heap.spine at hs
    split at hs
    · cases hs
    · cases hs
      simp
  | succ n ih =>
    unfold Heap.spine at hs
    split at hs
    · change (w :: ·) <$> h.spine ⟨n, task⟩ (h.cdr w) = _ at hs
      cases hrec : h.spine ⟨n, task⟩ (h.cdr w) with
      | error f =>
        rw [hrec] at hs
        cases hs
      | ok qs =>
        rw [hrec] at hs
        cases hs
        intro p hp
        cases hp with
        | head => exact hw
        | tail _ hp => exact ih (hr.cdr w hw) hrec p hp
    · cases hs
      simp

theorem items (hw : R w) (hs : h.items w = .ok vs) : ∀ v ∈ vs, Safe ρ v := by
  unfold Heap.items at hs
  cases hrec : h.spine (h.budget "list_to_vec") w with
  | error f =>
    rw [hrec] at hs
    cases hs
  | ok ps =>
    rw [hrec] at hs
    cases hs
    intro v hv
    obtain ⟨p, hp, rfl⟩ := List.mem_map.1 hv
    exact hr.car p (hr.spine hw hrec p hp)

end Readable

theorem Layout.data_of_pairs (hl : Layout ρ h events threads) {w : Word} (hw : Safe ρ w)
    (hp : h.Pairs w l) : ∀ i ∈ l, ρ i = .data := by
  induction l generalizing w with
  | nil => simp
  | cons j l ih =>
    obtain ⟨rfl, -, hrest⟩ := hp.cdr
    have hj : ρ j = .data := hw.resolve_left (by have := hp.1.2.1; omega)
    have hs := (hl.fits j).2
    rw [hj] at hs
    intro i hi
    obtain rfl | hi := List.mem_cons.1 hi
    · exact hj
    · exact ih (hs.2.2 _ (by simp [Cell.words])) hrest i hi

theorem Heap.Lists.congr {w : Word} (hs : h.Lists w s) (hl : Layout ρ h events threads)
    (hw : Safe ρ w) (ht : h.top ≤ h'.top) (hd : ∀ i, ρ i = .data → h'.cellAt i = h.cellAt i) :
    h'.Lists w s := by
  obtain ⟨l, hp, rfl⟩ := hs
  have hdata := hl.data_of_pairs hw hp
  exact ⟨l, hp.congr ht fun i hi => hd i (hdata i hi),
    List.map_congr_left fun i hi => by rw [hd i (hdata i hi)]⟩

theorem Layout.ensures_freeSpine {E : Heap → Prop} (hl : Layout ρ h events threads) {w : Word}
    (hc : h.Pairs w l) (hheld : ∀ i ∈ l, ρ i = .held) :
    Ensures (Heap.freeSpine w) h
      (fun _ h' => Layout (ρ.setAll l .free) h' events threads ∧
        Frame (fun i _ => i ∈ l) ρ h (ρ.setAll l .free) h' ∧ h.Respects (l.map Word.ref) h') E := by
  unfold Heap.freeSpine
  rw [ensures_get_bind]
  unfold Heap.budget
  generalize h.sanity = n
  induction l generalizing ρ h w n with
  | nil =>
    obtain ⟨rfl, -⟩ := hc
    unfold Heap.freeSpine.go
    rw [ensures_get_bind, hl.not_isPair_nil]
    rw [Roles.setAll_nil]
    exact ⟨hl, .refl, .refl h _⟩
  | cons i l ih =>
    obtain ⟨rfl, hcdr, hrest⟩ := hc.cdr
    have hi := hheld i List.mem_cons_self
    have hp := (hl.fits i).1
    rw [hi] at hp
    have hil : i ∉ l := (List.nodup_cons.1 hc.1.nodup).1
    have hcell := h.cellAt_reclaim (Nat.lt_of_lt_of_le hp.2 hl.top_le)
    have hkeep : ∀ j ∈ l, (h.reclaim i).cellAt j = h.cellAt j := by
      intro j hj
      rw [hcell, if_neg (by rintro rfl; exact hil hj)]
    unfold Heap.freeSpine.go
    rw [ensures_get_bind, hc.2 i List.mem_cons_self, Word.index, decide_eq_true hp.1]
    simp only [Bool.and_self, if_true]
    cases n with
    | zero => exact .inl rfl
    | succ n =>
      change Ensures (Heap.free (.ref i) >>= fun _ =>
        Heap.freeSpine.go ⟨n, "free spine"⟩ (h.cdr (.ref i))) h _ E
      rw [hcdr]
      refine (Heap.ensures_free (P := fun _ h' => h' = h.reclaim i ∧
        Layout (ρ.set i .free) h' events threads ∧
        Frame (fun j _ => j = i) ρ h (ρ.set i .free) h' ∧
        h.Respects [.ref i] h') hl.sound ?_).bind ?_
      · intro h1 h2 hfade hsound hrespect
        refine ⟨rfl, hl.give hsound h1 h2 (by rw [hi]; rfl) (by rw [hi]; simp), ?_, hrespect⟩
        exact .set (fun j hj => (hcell j).trans (if_neg hj)) (by rw [hi]; simp) (by simp) hfade rfl
          rfl (Nat.le_refl _)
      rintro - h' ⟨rfl, hl', hframe, hrespect⟩
      rw [Roles.setAll_cons]
      refine (ih hl' (hrest.congr (Nat.le_refl _) hkeep) ?_ n).imp ?_
      · intro j hj
        rw [Roles.set_ne _ _ (by rintro rfl; exact hil hj)]
        exact hheld j (List.mem_cons_of_mem i hj)
      · rintro - h' ⟨hl'', hframe', hrespect'⟩
        refine ⟨hl'', Frame.trans (hframe.mono ?_) (hframe'.mono ?_),
          hrespect.trans hrespect' (by simp) fun w hw => List.mem_cons_of_mem _ hw⟩
        · rintro j - rfl
          exact List.mem_cons_self
        · exact fun j _ hj => List.mem_cons_of_mem i hj

theorem Orderly.ensures_freeSpine {E : Machine → Prop} (ho : Orderly ρ m) {w : Word}
    (hc : m.heap.Pairs w l) (hheld : ∀ i ∈ l, ρ i = .held) :
    Ensures (liftM (Heap.freeSpine w) : MachineM Unit) m
      (fun _ m' => Orderly (ρ.setAll l .free) m' ∧
        Frame (fun i _ => i ∈ l) ρ m.heap (ρ.setAll l .free) m'.heap ∧ Untouched m m') E := by
  rw [ensures_onHeap]
  refine (ho.layout.ensures_freeSpine hc hheld).imp ?_
  rintro - h' ⟨hl', hframe, hrespect⟩
  have hne : ∀ i ∈ l, ρ i ≠ .condemned := fun i hi => by simp [hheld i hi]
  have hshuns : h'.Shuns ρ.condemned := hrespect _ ho.shuns fun w hw => by
    obtain ⟨i, hi, rfl⟩ := List.mem_map.1 hw
    exact hne i hi
  exact ⟨ho.onHeap hframe.grows hl' (hshuns.of_iff (Roles.condemned_setAll hne (by simp)))
    hframe.fades, hframe, .onHeap ..⟩

structure Cleared (k : Bundle) (o : Nat) (held : List Nat) (ρ : Roles) (h : Heap) (ρ' : Roles)
    (h' : Heap) : Prop where
  owner : ρ' o = ρ o
  fields : ∀ f, f ≠ k.start → (h'.cellAt o).get f = (h.cellAt o).get f
  members : ∀ i, ρ i = k.member o → ρ' i = if i ∈ held then .held else .free
  same : ∀ i, i ≠ o → ρ i ≠ k.member o → Same ρ ρ' h h' i

theorem Cleared.no_member {k k' : Bundle} {o o' : Nat} {held : List Nat}
    (hc : Cleared k o held ρ h ρ' h')
    (hno : k' = k ∧ o' = o ∨ ∀ i, ρ i ≠ k'.member o') (i : Nat) : ρ' i ≠ k'.member o' := by
  intro hi
  by_cases hm : ρ i = k.member o
  · rw [hc.members i hm] at hi
    split at hi <;> cases k' <;> cases hi
  · have hr : ρ' i = ρ i := by
      by_cases hio : i = o
      · rw [hio, hc.owner]
      · exact (hc.same i hio hm).1
    rw [hr] at hi
    obtain ⟨rfl, rfl⟩ | hno := hno
    · exact hm hi
    · exact hno i hi

def Machine.Stacks (m : Machine) (t : Nat) (s : List Word) : Prop :=
  m.heap.Lists (m.heap.cellAt t).x s

@[simp] theorem Machine.ensures_thread_bind {k : Word → MachineM β} {E : Machine → Prop} :
    Ensures (thread >>= k) m P E ↔ Ensures (k m.threads.head) m P E := .rfl

namespace Open

variable {t e a : Nat} {held : List Nat} {E : Machine → Prop}

section Open

variable (ho : Open t e a held ρ m)

include ho

theorem stacked : ∃ l, m.heap.Pairs (m.heap.cellAt t).x l ∧ ∀ i, i ∈ l ↔ ρ i = .operand t := by
  obtain ⟨l, hc, hm⟩ := ho.orderly.layout.listed .stack t (by rw [ho.role]; rfl)
  exact ⟨l, ⟨hc, fun i hi => (ho.orderly.layout.operand ((hm i).1 hi)).1⟩, hm⟩

theorem stack_bind {k : Word → MachineM β}
    (hk : Ensures (k (m.heap.cellAt t).x) m P E) : Ensures (stack >>= k) m P E := by
  refine Ensures.bind (Q := fun w m' => m = m' ∧ w = (m.heap.cellAt t).x) ?_ ?_
  · unfold stack
    rw [ensures_thread_bind, ho.head, ensures_onHeap]
    refine Heap.ensures_fetch fun i hv _ => ?_
    cases hv
    exact ⟨rfl, rfl⟩
  · rintro w m' ⟨rfl, rfl⟩
    exact hk

theorem depth_bind {k : Nat → MachineM β}
    (hk : ∀ l, m.heap.Pairs (m.heap.cellAt t).x l → (∀ i, i ∈ l ↔ ρ i = .operand t) →
      Ensures (k l.length) m P E) : Ensures (depth >>= k) m P E := by
  obtain ⟨l, hc, hm⟩ := ho.stacked
  refine Ensures.bind (Q := fun d m' => m = m' ∧ d = l.length) ?_ ?_
  · unfold depth
    refine ho.stack_bind ?_
    rw [ensures_ask, Heap.listLength, hc.spine_eq ho.orderly.layout.not_isPair_nil]
    by_cases hb : l.length ≤ m.heap.sanity
    · rw [if_pos hb]
      exact ⟨rfl, List.length_map ..⟩
    · rw [if_neg hb]
      exact .inl rfl
  · rintro d m' ⟨rfl, rfl⟩
    exact hk l hc hm

theorem ensures_setStack (held' : List Nat) {w : Word} (hc : m.heap.Chain .y w l)
    (hnew : ∀ i ∈ l, (ρ i = .held ∨ ρ i = .operand t) ∧ Suits ρ (m.heap.cellAt i) (.operand t))
    (hheld : ∀ i, i ∉ l → ρ i = .operand t ∨ i ∈ held → i ∈ held') :
    Ensures (setStack w) m
      (fun _ m' => m.heap.Sets t ((m.heap.cellAt t).set .x w) m'.heap ∧
        Open t e a held' (ρ.bundle .stack t l) m' ∧ Within t ρ m (ρ.bundle .stack t l) m') E := by
  unfold setStack
  rw [ensures_thread_bind, ho.head]
  refine (ho.orderly.ensures_lead (k := .stack) (by rw [ho.role]; rfl) hc hnew).imp ?_
  rintro - m' ⟨hset, ho', hframe, hu⟩
  exact ⟨hset, ho.bundle ho' hu (fun i hi => (hnew i hi).1) hheld,
    hframe.mono (fun _ _ => Bundled.mine), hu⟩

theorem avoids_stack : (m.heap.cellAt t).x.Avoids ρ.condemned :=
  ho.orderly.avoids_get (by rw [ho.role]; rfl) (by rw [ho.role]; simp) .x

end Open

section Open

variable (ho : Open t e a [] ρ m)

include ho

theorem ensures_push (hv : Safe ρ v) {E : Machine → Prop} : Ensures (push v) m
      (fun _ m' => ∃ ρ', Open t e a [] ρ' m' ∧ Within t ρ m ρ' m' ∧
        ∀ s, m.Stacks t s → m'.Stacks t (v :: s)) E := by
  obtain ⟨l, hp, hm⟩ := ho.stacked
  have hc := hp.1
  unfold push
  refine ho.stack_bind ?_
  have ht : Word.pairT ≠ .freeT ∧ Word.pairT ≠ .actorT := by decide
  refine (ho.ensures_alloc (c := ⟨.pairT, v, (m.heap.cellAt t).x, .undefined⟩) (.inl rfl) ht.1
    (fun i hi => ht) (Cell.forall_words.2 (ho.orderly.avoids_pair hv ho.avoids_stack))).bind ?_
  rintro w m' ⟨i, rfl, hi, htake, hw, ho'⟩
  have ho' := ho' [i] (by simp)
  have hil : i ∉ l := by
    rw [hm]
    intro e
    simp [e] at hi
  have hit : t ≠ i := by
    rintro rfl
    simp [ho.role] at hi
  have hchain : m'.heap.Chain .y (.ref i) (i :: l) := by
    refine ⟨rfl, (ho'.orderly.layout.bounds (by simp)).1, ?_⟩
    rw [htake.self]
    refine hc.congr fun j hj => ?_
    rw [htake.ne (by rintro rfl; exact hil hj)]
  refine (ho'.ensures_setStack [] hchain ?_ ?_).imp ?_
  · intro j hj
    by_cases hji : j = i
    · rw [hji, Roles.set_self, htake.self]
      exact ⟨.inl rfl, rfl, hw.safe hv, rfl⟩
    · have hj : ρ j = .operand t := (hm j).1 (by simpa [hji] using hj)
      rw [Roles.set_ne _ _ hji, htake.ne hji]
      exact ⟨.inr hj, (ho.orderly.layout.operand hj).2.mono hw.frame.grows⟩
  · intro j hj hj'
    simp only [List.mem_cons, not_or] at hj
    rw [Roles.set_ne _ _ hj.1, ← hm] at hj'
    simp [hj] at hj'
  · rintro - m'' ⟨hset, ho'', hw'⟩
    refine ⟨_, ho'', hw.trans hw', fun s hs => ?_⟩
    have hcell : ∀ j ∈ i :: l, m''.heap.cellAt j = m'.heap.cellAt j := by
      intro j hj
      refine hset.ne ?_
      rintro rfl
      obtain rfl | hj := List.mem_cons.1 hj
      · exact hit rfl
      · have := (hm j).1 hj
        simp [ho.role] at this
    have hx : (m''.heap.cellAt t).x = .ref i := by
      rw [hset.self]
      rfl
    obtain ⟨k, hk, -⟩ := ho''.stacked
    have hk' : k = i :: l := by
      refine hk.1.unique ?_
      rw [hx]
      exact hchain.congr fun j hj => by rw [hcell j hj]
    obtain rfl := hp.lists_iff.1 hs
    refine ⟨k, hk, ?_⟩
    rw [hk', List.map_cons, hcell i List.mem_cons_self, htake.self]
    refine congrArg _ (List.map_congr_left fun j hj => ?_)
    rw [hcell j (List.mem_cons_of_mem i hj), htake.ne (by rintro rfl; exact hil hj)]

theorem runs_pushTop (hv : Safe ρ v) :
    Runs t e a ρ m (push v) fun _ m' _ => ∀ s, m.Stacks t s → m'.Stacks t (v :: s) :=
  ho.ensures_push hv

theorem runs_push (hv : Safe ρ v) : Runs t e a ρ m (push v) fun _ _ _ => True :=
  (ho.runs_pushTop hv).mono fun _ _ _ _ => trivial

theorem runs_pushAll (hv : ∀ v ∈ vs, Safe ρ v) : Runs t e a ρ m (pushAll vs) fun _ _ _ => True := by
  unfold pushAll
  replace hv : ∀ v ∈ vs.reverse, Safe ρ v := fun v hm => hv v (by simpa using hm)
  generalize vs.reverse = ws at hv ⊢
  induction ws generalizing ρ m with
  | nil => exact .pure ho trivial
  | cons w ws ih =>
    refine (ho.runs_push (hv w List.mem_cons_self)).bind ?_
    intro _ ρ' m' ho' hw _
    exact ih ho' fun v hm' => hw.safe (hv v (List.mem_cons_of_mem w hm'))

theorem runs_popTop : Runs t e a ρ m pop fun ρ' m' v => Safe ρ' v ∧
      (∀ i, ρ' i = ρ i ∨ ρ i = .operand t ∧ ρ' i = .free) ∧
      ∀ s, m.Stacks t s → v = s.headD .undefined ∧ m'.Stacks t s.tail := by
  obtain ⟨l, hp, hm⟩ := ho.stacked
  have hl := ho.orderly.layout
  unfold pop
  refine ho.stack_bind ?_
  rw [ensures_look_bind]
  cases l with
  | nil =>
    obtain ⟨hnil, -⟩ := hp
    have hn := hl.not_isPair_nil
    rw [← (hnil : _ = Word.nil)] at hn
    rw [hn]
    simp only [Bool.false_eq_true, if_false, ensures_thread_bind]
    refine ensures_fetch_bind fun i _ _ => ?_
    refine (Silent.note _).bind fun _ m' hq => ?_
    refine ⟨ρ, ho.quiet hq, hq.confined, safe_undefined, fun i => .inl rfl, fun s hs => ?_⟩
    have hempty : m.heap.Pairs (m.heap.cellAt t).x [] := ⟨hnil, by simp⟩
    obtain rfl := hempty.lists_iff.1 hs
    refine ⟨rfl, ?_⟩
    unfold Stacks
    rw [hq.heap]
    exact hs
  | cons i l =>
    obtain ⟨hx, hcdr, hrest⟩ := hp.cdr
    have hi : ρ i = .operand t := (hm i).1 List.mem_cons_self
    have hpair := hp.2 i List.mem_cons_self
    have hil : i ∉ l := (List.nodup_cons.1 hp.1.nodup).1
    have hsafe : Safe ρ (m.heap.cellAt i).x := (hl.operand hi).2.2.1
    rw [hx] at hcdr ⊢
    rw [hpair, if_pos rfl]
    simp only [ensures_look_bind]
    rw [hcdr]
    refine (ho.ensures_setStack [i] hrest.1 ?_ ?_).bind ?_
    · intro j hj
      have hj : ρ j = .operand t := (hm j).1 (List.mem_cons_of_mem i hj)
      exact ⟨.inr hj, (hl.operand hj).2⟩
    · intro j hj hj'
      simp only [List.not_mem_nil, or_false] at hj'
      rw [← hm] at hj'
      simpa [hj] using hj'
    rintro - m' ⟨hset, ho', hw⟩
    refine (ho'.ensures_free [] (Roles.bundle_held hil (.inr hi)) (by simp)).bind ?_
    rintro - m'' ⟨hframe, ho'', hw'⟩
    rw [Heap.car_eq hpair]
    refine ⟨_, ho'', hw.trans hw', (hw.trans hw').safe hsafe, fun j => ?_, fun s hs => ?_⟩
    · by_cases hji : j = i
      · exact .inr ⟨hji ▸ hi, by rw [hji, Roles.set_self]⟩
      · rw [Roles.set_ne _ _ hji]
        refine .inl ?_
        by_cases hj : ρ j = .operand t
        · rw [hj]
          exact Roles.bundle_member.1 (by simpa [hji] using (hm j).2 hj)
        · exact Roles.bundle_other (fun hjl => hj ((hm j).1 (List.mem_cons_of_mem i hjl))) hj
    have ht : t ≠ i ∧ ∀ j ∈ l, j ≠ t ∧ j ≠ i := by
      have hrole := ho.role
      refine ⟨by rintro rfl; simp [hrole] at hi, fun j hj => ⟨?_, by rintro rfl; exact hil hj⟩⟩
      rintro rfl
      have := (hm j).1 (List.mem_cons_of_mem i hj)
      simp [hrole] at this
    have hcell : ∀ j, j ≠ i → j ≠ t → m''.heap.cellAt j = m.heap.cellAt j := fun j hj hjt =>
      (hframe.same hj).2.trans (hset.ne hjt)
    have hx' : (m''.heap.cellAt t).x = (m.heap.cellAt i).y := by
      rw [(hframe.same ht.1).2, hset.self]
      rfl
    obtain rfl := hp.lists_iff.1 hs
    refine ⟨rfl, l, ?_, ?_⟩
    · rw [hx']
      exact hrest.congr (Nat.le_trans (Nat.le_of_eq hset.top.symm) hframe.top_le) fun j hj =>
        hcell j (ht.2 j hj).2 (ht.2 j hj).1
    · exact List.map_congr_left fun j hj => by rw [hcell j (ht.2 j hj).2 (ht.2 j hj).1]

theorem runs_pop : Runs t e a ρ m pop fun ρ' _ v => Safe ρ' v :=
  ho.runs_popTop.mono fun _ _ _ h => h.1

theorem runs_popN (n : Nat) : Runs t e a ρ m (popN n) fun ρ' _ vs => ∀ v ∈ vs, Safe ρ' v := by
  induction n generalizing ρ m with
  | zero => exact .pure ho (by simp)
  | succ n ih =>
    unfold popN
    refine ho.runs_pop.bind ?_
    intro v ρ' m' ho' _ hv
    refine (ih ho').bind ?_
    intro vs ρ'' m'' ho'' hw hvs
    refine .pure ho'' ?_
    intro w hm
    cases hm with
    | head => exact hw.safe hv
    | tail _ hm => exact hvs w hm

theorem runs_popNumber (op : String) : Runs t e a ρ m (popNumber op) fun _ _ _ => True := by
  unfold popNumber
  refine ho.runs_pop.bind ?_
  intro v ρ' m' ho' _ _
  split
  · exact .pure ho' trivial
  · exact .throw ho'

end Open

theorem readable (ho : Open t e a held ρ m) :
    Readable ρ m.heap fun w =>
      Safe ρ w ∨ ∃ l, m.heap.Pairs w l ∧ ∀ i ∈ l, ρ i = .operand t := by
  have hl := ho.orderly.layout
  constructor
  · rintro w (hw | ⟨l, hp, hm⟩)
    · exact hl.safe_car hw
    · cases l with
      | nil =>
        obtain ⟨rfl, -⟩ := hp
        exact hl.safe_car safe_nil
      | cons i l =>
        obtain ⟨rfl, -⟩ := hp.cdr
        rw [Heap.car_eq (hp.2 i List.mem_cons_self)]
        exact (hl.operand (hm i List.mem_cons_self)).2.2.1
  · rintro w (hw | ⟨l, hp, hm⟩)
    · exact .inl (hl.safe_cdr hw)
    · cases l with
      | nil =>
        obtain ⟨rfl, -⟩ := hp
        exact .inl (hl.safe_cdr safe_nil)
      | cons i l =>
        obtain ⟨-, hcdr, hrest⟩ := hp.cdr
        rw [hcdr]
        exact .inr ⟨l, hrest, fun j hj => hm j (List.mem_cons_of_mem i hj)⟩

section Open

variable (ho : Open t e a [] ρ m)

include ho

theorem runs_depth : Runs t e a ρ m depth fun _ _ _ => True := by
  rw [← bind_pure depth]
  exact ho.depth_bind fun l _ _ => Runs.pure ho trivial

theorem runs_stackCount (op : String) (n : Int) :
    Runs t e a ρ m (stackCount op n) fun _ _ _ => True := by
  unfold stackCount
  dsimp only
  refine .ite (fun _ => .throw_bind ho) fun _ => ho.depth_bind fun l _ _ => ?_
  exact Runs.ite (fun _ => .throw_bind ho) fun _ => .pure ho trivial

theorem runs_pick (n : Int) : Runs t e a ρ m (pick n) fun _ _ _ => True := by
  obtain ⟨l, hp, hm⟩ := ho.stacked
  unfold pick
  refine .ite (fun hn => ?_) fun _ => ho.runs_push safe_undefined
  refine ho.stack_bind ?_
  rw [ensures_look_bind]
  exact ho.runs_push (ho.readable.nth_pos (.inr ⟨l, hp, fun i hi => (hm i).1 hi⟩) hn)

theorem runs_dup (n : Int) : Runs t e a ρ m (dup n) fun _ _ _ => True := by
  unfold dup
  refine ho.depth_bind fun l hp hm => ?_
  refine Runs.ite (fun _ => .throw_bind ho) fun _ => ho.stack_bind ?_
  rw [ensures_look_bind]
  exact ho.runs_pushAll (ho.readable.firstItems n.toNat (.inr ⟨l, hp, fun i hi => (hm i).1 hi⟩))

theorem runs_dropItems (n : Int) : Runs t e a ρ m (dropItems n) fun _ _ _ => True := by
  unfold dropItems
  refine ho.depth_bind fun l _ _ => ?_
  refine (ho.runs_popN _).bind fun _ ρ' m' ho' _ _ => ?_
  refine .ite (fun _ => ?_) fun _ => .pure ho' trivial
  exact ho'.runs_pop.bind fun _ _ _ ho'' _ _ => .pure ho'' trivial

end Open

theorem ensures_freeSpine (ho : Open t e a held ρ m) (held' : List Nat) {w : Word}
    (hc : m.heap.Pairs w l) (hl : ∀ i ∈ l, ρ i = .held) (hheld : ∀ j ∈ held, j ∈ l ∨ j ∈ held') :
    Ensures (liftM (Heap.freeSpine w) : MachineM Unit) m
      (fun _ m' => Open t e a held' (ρ.setAll l .free) m' ∧
        Frame (fun i _ => i ∈ l) ρ m.heap (ρ.setAll l .free) m'.heap ∧
        Within t ρ m (ρ.setAll l .free) m') E := by
  refine (ho.orderly.ensures_freeSpine hc hl).imp ?_
  rintro - m' ⟨ho', hframe, hu⟩
  refine ⟨⟨ho', hu.threads ▸ ho.head, ?_, ?_⟩, hframe, ?_, hu⟩
  · rw [Roles.setAll_not_mem, ho.role]
    intro ht
    have := hl t ht
    rw [ho.role] at this
    cases this
  · intro j hj
    by_cases hjl : j ∈ l
    · rw [Roles.setAll_mem _ hjl] at hj
      cases hj
    · rw [Roles.setAll_not_mem _ hjl] at hj
      exact (hheld j (ho.brief j hj)).resolve_left hjl
  · refine hframe.select ?_ ?_
    · intro i hi
      exact .spare (by rw [hl i hi]; rfl)
    · intro i hi _
      exact .inl (.spare (by rw [Roles.setAll_mem _ hi]; rfl))

theorem ensures_clearStack (ho : Open t e a held ρ m) :
    Ensures clearStack m
      (fun _ m' => ∃ ρ', Open t e a held ρ' m' ∧ Within t ρ m ρ' m' ∧
        Cleared .stack t [] ρ m.heap ρ' m'.heap) E := by
  obtain ⟨l, hp, hm⟩ := ho.stacked
  unfold clearStack
  refine ho.stack_bind ?_
  refine (ho.ensures_setStack (l ++ held) (w := .nil) (l := []) rfl (by simp) ?_).bind ?_
  · intro i _ hi
    rwa [← hm, ← List.mem_append] at hi
  rintro - m' ⟨hset, ho', hw⟩
  have hlt : t ∉ l := by
    rw [hm, ho.role]
    simp
  have hpairs : m'.heap.Pairs (m.heap.cellAt t).x l :=
    hp.congr (Nat.le_of_eq hset.top.symm) fun i hi => hset.ne (by rintro rfl; exact hlt hi)
  refine (ho'.ensures_freeSpine held hpairs ?_ ?_).imp ?_
  · intro i hi
    exact Roles.bundle_held (by simp) (.inr ((hm i).1 hi))
  · simp
  rintro - m'' ⟨ho'', hframe, hw'⟩
  refine ⟨_, ho'', hw.trans hw', ho''.role.trans ho.role.symm, ?_, ?_, ?_⟩
  · intro f hf
    rw [(hframe.same hlt).2, hset.self]
    exact Cell.get_set_ne _ _ hf
  · intro i hi
    exact Roles.setAll_mem _ ((hm i).2 hi)
  · intro i hit hi
    have hil : i ∉ l := fun h => hi ((hm i).1 h)
    obtain ⟨h1, h2⟩ := hframe.same hil
    exact ⟨h1.trans (Roles.bundle_other (by simp) hi), h2.trans (hset.ne hit)⟩

end Open

def Strung (ρ : Roles) (h : Heap) (w : Word) (l : List Nat) : Prop :=
  h.Chain .y w l ∧ ∀ i ∈ l, ρ i = .held ∧ Suits ρ (h.cellAt i) (.operand 0)

theorem Strung.pairs {w : Word} (hs : Strung ρ h w l) (hl : Layout ρ h events threads) :
    h.Pairs w l :=
  ⟨hs.1, fun i hi => hl.isPair_of_role (by rw [(hs.2 i hi).1]; simp) (hs.2 i hi).2.1⟩

theorem Strung.avoids {w : Word} (hs : Strung ρ m.heap w l) (ho : Orderly ρ m) :
    w.Avoids ρ.condemned :=
  ho.avoids_chain hs.1 fun i hi => by simp [(hs.2 i hi).1]

theorem Machine.ensures_setCdr {y : Word} {P : Unit → Machine → Prop} {E : Machine → Prop}
    (hp : m.heap.isPair v = true) (hs : Ensures (liftM (Heap.store v .y y) : MachineM Unit) m P E) :
    Ensures (setCdr v y) m P E := by
  unfold setCdr
  refine Ensures.bind (Q := fun n m' => n = none ∧ P () m') ?_ ?_
  · rw [ensures_onHeap] at hs ⊢
    unfold Heap.setCdr
    rw [ensures_get_bind, hp, if_pos rfl]
    exact hs.bind fun _ _ h => ⟨rfl, h⟩
  · rintro n m' ⟨rfl, h⟩
    simpa [noteAll] using h

namespace Open

variable {t e a : Nat} {held : List Nat} {E : Machine → Prop}

theorem ensures_carve (ho : Open t e a [] ρ m) (op : String) (n : Int) :
    Ensures (carve op n) m
      (fun w m' => ∃ ρ' l, Open t e a l ρ' m' ∧ Within t ρ m ρ' m' ∧ Strung ρ' m'.heap w l ∧
        ∀ s, m.Stacks t s → n.toNat ≤ s.length ∧
          l.map (fun i => (m'.heap.cellAt i).x) = s.take n.toNat)
      fun m' => ∃ ρ', Open t e a [] ρ' m' ∧ Within t ρ m ρ' m' := by
  have hl := ho.orderly.layout
  unfold carve
  dsimp only
  refine .ite (fun _ => .inr ⟨ρ, ho, .refl⟩) fun hn => .ite (fun _ => ?_) fun hn0 => ?_
  · exact ⟨ρ, [], ho, .refl, ⟨rfl, by simp⟩, fun s _ => by simp [*]⟩
  refine ho.depth_bind fun l hp hm => .ite (fun _ => .inr ⟨ρ, ho, .refl⟩) fun hd => ?_
  obtain ⟨l, j, k, rfl, hlen⟩ : ∃ l₁ j l₂, l = l₁ ++ j :: l₂ ∧ l₁.length = n.toNat - 1 := by
    have hlt : n.toNat - 1 < l.length := by omega
    refine ⟨l.take (n.toNat - 1), l[n.toNat - 1], l.drop (n.toNat - 1 + 1), ?_, ?_⟩
    · simp
    · simp
      omega
  have hj : ρ j = .operand t := (hm j).1 (by simp)
  have hjp := (hl.operand hj).1
  have hnodup := hp.1.nodup
  refine ho.stack_bind ?_
  simp only [ensures_look_bind]
  rw [← hlen, hp.repeat_cdr, Heap.cdr_eq hjp]
  have hrest : m.heap.Chain .y (m.heap.cellAt j).y k := hp.1.suffix.2.2
  have hcut : ∀ i, i ∈ l ++ [j] → i ∉ k ∧ ρ i = .operand t := by
    intro i hi
    refine ⟨?_, (hm i).1 ?_⟩
    · intro hik
      simp only [List.nodup_append, List.nodup_cons, List.mem_append,
        List.mem_singleton] at hnodup hi
      obtain hi | rfl := hi
      · exact hnodup.2.2 i hi i (List.mem_cons_of_mem j hik) rfl
      · exact hnodup.2.1.1 hik
    · simp only [List.mem_append, List.mem_singleton] at hi
      simp only [List.mem_append, List.mem_cons]
      exact hi.imp_right .inl
  refine (ho.ensures_setStack (l ++ [j]) hrest ?_ ?_).bind ?_
  · intro i hi
    have hi : ρ i = .operand t := (hm i).1 (by simp [hi])
    exact ⟨.inr hi, (hl.operand hi).2⟩
  · intro i hi hi'
    simp only [List.not_mem_nil, or_false] at hi'
    rw [← hm] at hi'
    simpa [hi] using hi'
  rintro - m' ⟨hset, ho', hw⟩
  have hheld : ∀ i ∈ l ++ [j], ρ.bundle .stack t k i = .held := fun i hi =>
    Roles.bundle_held (hcut i hi).1 (.inr (hcut i hi).2)
  have hne : ∀ i ∈ l ++ [j], i ≠ t := by
    rintro i hi rfl
    have := (hcut i hi).2
    rw [ho.role] at this
    cases this
  have hjh := hheld j (by simp)
  have hcell : ∀ i ∈ l ++ [j], Suits (ρ.bundle .stack t k) (m'.heap.cellAt i) (.operand 0) := by
    intro i hi
    rw [hset.ne (hne i hi)]
    exact Suits.mono (r := .operand 0) hw.frame.grows (hl.operand (hcut i hi).2).2
  have hjs := hcell j (by simp)
  have hjpair : m'.heap.isPair (.ref j) = true :=
    ho'.orderly.layout.isPair_of_role (by rw [hjh]; simp) hjs.1
  refine (ensures_setCdr hjpair (ho'.ensures_store (.inr hjh) ?_
    (ho'.orderly.literal (by decide)))).bind ?_
  · rw [hjh]
    exact Suits.held_of_member (k := .stack) (o := 0) ⟨hjs.1, hjs.2.1, hjs.2.2⟩
  rintro - m'' ⟨hset', ho'', hw'⟩
  refine ⟨_, l ++ [j], ho'', hw.trans (hw'.within hjh), ⟨?_, ?_⟩, fun s hs => ?_⟩
  · refine Heap.Chain.splice hp.1 ?_ ?_
    · intro i hi
      have hij : i ≠ j := by
        rintro rfl
        simp only [List.nodup_append] at hnodup
        exact hnodup.2.2 i hi i List.mem_cons_self rfl
      rw [hset'.ne hij, hset.ne (hne i (by simp [hi]))]
    · rw [hset'.self]
      rfl
  · intro i hi
    refine ⟨hheld i hi, ?_⟩
    by_cases hij : i = j
    · rw [hij, hset'.self]
      exact ⟨hjs.1, hjs.2.1, hjs.2.2⟩
    · rw [hset'.ne hij]
      exact hcell i hi
  · obtain rfl := hp.lists_iff.1 hs
    have hn : n.toNat = (l ++ [j]).length := by
      simp only [List.length_append, List.length_singleton]
      omega
    refine ⟨by simp [hn], ?_⟩
    rw [hn, ← List.map_take, show l ++ j :: k = l ++ [j] ++ k by simp, List.take_left]
    refine List.map_congr_left fun i hi => ?_
    by_cases hij : i = j
    · rw [hij, hset'.self, ← hset.ne (hne j (by simp))]
      rfl
    · rw [hset'.ne hij, hset.ne (hne i hi)]

theorem ensures_relink (ho : Open t e a held ρ m) (held' : List Nat) {w : Word} {j : Nat}
    {l₁ l₂ l₃ : List Nat} (hold : m.heap.Chain .y (m.heap.cellAt t).x (l₁ ++ j :: l₂))
    (hm : ∀ i, i ∈ l₁ ++ j :: l₂ ↔ ρ i = .operand t) (hc : m.heap.Chain .y w l₃)
    (hnew : ∀ i ∈ l₃, (ρ i = .held ∨ ρ i = .operand t) ∧ Suits ρ (m.heap.cellAt i) (.operand t))
    (hj : j ∉ l₃) (hheld : ∀ i, i ∉ l₁ ++ j :: l₃ → ρ i = .operand t ∨ i ∈ held → i ∈ held') :
    Ensures (setCdr (.ref j) w) m
      (fun _ m' => m.heap.Sets j ((m.heap.cellAt j).set .y w) m'.heap ∧
        Open t e a held' (ρ.bundle .stack t (l₁ ++ j :: l₃)) m' ∧
        Within t ρ m (ρ.bundle .stack t (l₁ ++ j :: l₃)) m') E := by
  have hjm : ρ j = .operand t := (hm j).1 (by simp)
  refine ensures_setCdr (ho.orderly.layout.operand hjm).1 ?_
  refine (ho.orderly.ensures_relink (k := .stack) (by rw [ho.role]; rfl) hold hm hc hnew hj).imp ?_
  rintro - m' ⟨hset, ho', hframe, hu⟩
  refine ⟨hset, ho.bundle ho' hu ?_ hheld, hframe.mono (fun _ _ => Bundled.mine), hu⟩
  intro i hi
  simp only [List.mem_append, List.mem_cons] at hi
  obtain hi | rfl | hi := hi
  · exact .inr ((hm i).1 (by simp [hi]))
  · exact .inr hjm
  · exact (hnew i hi).1

theorem ensures_setCdr (ho : Open t e a held ρ m) {i : Nat} {w : Word} (hi : ρ i = .held)
    (hs : Suits ρ (m.heap.cellAt i) (.operand 0)) (hw : w.Avoids ρ.condemned) :
    Ensures (setCdr (.ref i) w) m
      (fun _ m' => m.heap.Sets i ((m.heap.cellAt i).set .y w) m'.heap ∧ Open t e a held ρ m' ∧
        Within t ρ m ρ m' ∧ Suits ρ (m'.heap.cellAt i) (.operand 0)) E := by
  have hs' : Suits ρ ((m.heap.cellAt i).set .y w) (.operand 0) := ⟨hs.1, hs.2.1, hs.2.2⟩
  refine Machine.ensures_setCdr (ho.orderly.layout.isPair_of_role (by rw [hi]; simp) hs.1) ?_
  refine (ho.ensures_store (.inr hi) ?_ hw).imp ?_
  · rw [hi]
    exact Suits.held_of_member (k := .stack) hs'
  · rintro - m' ⟨hset, ho', hw⟩
    exact ⟨hset, ho', hw.within hi, hset.self ▸ hs'⟩

theorem runs_link {c : Nat} (ho : Open t e a [c] ρ m) (hc : ρ c = .held)
    (hs : Suits ρ (m.heap.cellAt c) (.operand 0)) (hy : (m.heap.cellAt c).y = (m.heap.cellAt t).x) :
    Runs t e a ρ m (setStack (.ref c)) fun _ _ _ => True := by
  obtain ⟨l, hp, hm⟩ := ho.stacked
  have hl := ho.orderly.layout
  refine (ho.ensures_setStack [] (l := c :: l) ⟨rfl, (hl.bounds (by rw [hc]; simp)).1, ?_⟩
    ?_ ?_).imp ?_
  · change m.heap.Chain .y (m.heap.cellAt c).y l
    rw [hy]
    exact hp.1
  · intro i hi
    obtain rfl | hi := List.mem_cons.1 hi
    · exact ⟨.inl hc, hs⟩
    · have hi := (hm i).1 hi
      exact ⟨.inr hi, (hl.operand hi).2⟩
  · intro i hi hi'
    rw [← hm] at hi'
    simp only [List.mem_cons, not_or] at hi
    simp [hi] at hi'
  · rintro - m' ⟨-, ho', hw⟩
    exact ⟨_, ho', hw, trivial⟩

theorem runs_rollUp (ho : Open t e a [] ρ m) {b c : Nat}
    (hp : m.heap.Pairs (m.heap.cellAt t).x (l ++ b :: c :: k))
    (hm : ∀ i, i ∈ l ++ b :: c :: k ↔ ρ i = .operand t) :
    Runs t e a ρ m (do
      setCdr (.ref b) (m.heap.cellAt c).y
      setCdr (.ref c) (m.heap.cellAt t).x
      setStack (.ref c)) fun _ _ _ => True := by
  have hl := ho.orderly.layout
  have hnodup := hp.1.nodup
  have hc : ρ c = .operand t := (hm c).1 (by simp)
  have hck : m.heap.Chain .y (m.heap.cellAt c).y k := hp.1.suffix.2.2.2.2
  have hcb : c ≠ b ∧ c ∉ l ++ b :: k ∧ b ∉ k := by grind
  have ht : t ∉ l ++ b :: c :: k := by
    rw [hm, ho.role]
    simp
  have htc : t ≠ c ∧ t ≠ b := by grind
  refine (ho.ensures_relink [c] hp.1 hm hck ?_ hcb.2.2 ?_).bind ?_
  · intro i hi
    have hi := (hm i).1 (by simp [hi])
    exact ⟨.inr hi, (hl.operand hi).2⟩
  · intro i hi hi'
    simp only [List.not_mem_nil, or_false] at hi'
    rw [← hm] at hi'
    grind
  rintro - m' ⟨hset, ho', hw⟩
  have hc' := Roles.bundle_held (k := .stack) (o := t) hcb.2.1 (.inr hc)
  refine (ho'.ensures_setCdr hc' ?_ ?_).bind ?_
  · rw [hset.ne hcb.1]
    exact Suits.mono (r := .operand 0) hw.frame.grows (hl.operand hc).2
  · rw [← hset.ne htc.2]
    exact ho'.avoids_stack
  rintro - m'' ⟨hset', ho'', hw', hs⟩
  refine ((ho''.runs_link hc' hs ?_).after (hw.trans hw'))
  rw [hset'.self, hset'.ne htc.1, hset.ne htc.2]
  rfl

theorem runs_rollDown (ho : Open t e a [] ρ m) {s j : Nat}
    (hp : m.heap.Pairs (m.heap.cellAt t).x (s :: (l ++ j :: k)))
    (hm : ∀ i, i ∈ s :: (l ++ j :: k) ↔ ρ i = .operand t) :
    Runs t e a ρ m (do
      setStack (m.heap.cellAt s).y
      let after ← look (·.cdr (.ref j))
      setCdr (.ref s) after
      setCdr (.ref j) (.ref s)) fun _ _ _ => True := by
  have hl := ho.orderly.layout
  have hnodup := hp.1.nodup
  have hs : ρ s = .operand t := (hm s).1 (by simp)
  have hj : ρ j = .operand t := (hm j).1 (by simp)
  have hsl : s ∉ l ++ j :: k ∧ s ≠ j ∧ j ∉ s :: k := by grind
  have ht : t ∉ s :: (l ++ j :: k) := by
    rw [hm, ho.role]
    simp
  have hts : t ≠ s := by grind
  have hrest := hp.cdr.2.2
  refine (ho.ensures_setStack [s] hrest.1 ?_ ?_).bind ?_
  · intro i hi
    have hi := (hm i).1 (List.mem_cons_of_mem s hi)
    exact ⟨.inr hi, (hl.operand hi).2⟩
  · intro i hi hi'
    simp only [List.not_mem_nil, or_false] at hi'
    rw [← hm] at hi'
    grind
  rintro - m' ⟨hset, ho', hw⟩
  have hs' := Roles.bundle_held (k := .stack) (o := t) hsl.1 (.inr hs)
  have hj' : ρ.bundle .stack t (l ++ j :: k) j = .operand t := Roles.bundle_member.1 (by simp)
  rw [ensures_look_bind, Heap.cdr_eq (ho'.orderly.layout.operand hj').1]
  refine (ho'.ensures_setCdr hs' ?_ ?_).bind ?_
  · rw [hset.ne hts.symm]
    exact Suits.mono (r := .operand 0) hw.frame.grows (hl.operand hs).2
  · exact ho'.orderly.avoids_get (by rw [hj']; rfl) (by rw [hj']; simp) .y
  rintro - m'' ⟨hset', ho'', hw', hsuit⟩
  have hkeep : ∀ i ∈ l ++ j :: k, m''.heap.cellAt i = m.heap.cellAt i := by
    intro i hi
    rw [hset'.ne (by grind), hset.ne (by grind)]
  have hx : (m''.heap.cellAt t).x = (m.heap.cellAt s).y := by
    rw [hset'.ne hts, hset.self]
    rfl
  have hold : m''.heap.Chain .y (m''.heap.cellAt t).x (l ++ j :: k) := by
    rw [hx]
    exact hrest.1.congr fun i hi => by rw [hkeep i hi]
  have hlist : m''.heap.Chain .y (.ref s) (s :: k) := by
    refine ⟨rfl, (ho''.orderly.layout.bounds (by rw [hs']; simp)).1, ?_⟩
    rw [hset'.self, Cell.get_set_self, hset.ne (by grind)]
    exact hrest.1.suffix.2.2.congr fun i hi => by rw [hkeep i (by simp [hi])]
  refine (ho''.ensures_relink [] hold (fun i => Roles.bundle_member) hlist ?_ hsl.2.2 ?_).imp ?_
  · intro i hi
    obtain rfl | hi := List.mem_cons.1 hi
    · exact ⟨.inl hs', hsuit⟩
    · have hi : ρ.bundle .stack t (l ++ j :: k) i = .operand t :=
        Roles.bundle_member.1 (by simp [hi])
      exact ⟨.inr hi, (ho''.orderly.layout.operand hi).2⟩
  · intro i hi hi'
    rw [show (.operand t : Role) = Bundle.stack.member t from rfl, ← Roles.bundle_member] at hi'
    grind
  · rintro - m₃ ⟨-, ho₃, hw₃⟩
    exact ⟨_, ho₃, (hw.trans hw').trans hw₃, trivial⟩

theorem runs_roll (ho : Open t e a [] ρ m) (n : Int) :
    Runs t e a ρ m (roll n) fun _ _ _ => True := by
  unfold roll
  refine ho.depth_bind fun l hp hm => ?_
  dsimp only
  refine Runs.ite (fun hn => .ite (fun _ => ?_) fun hd => ?_) fun _ => .pure ho trivial
  · refine .ite (fun _ => ho.runs_push safe_undefined) fun _ => ?_
    exact ho.runs_pop.bind fun _ _ _ ho' _ _ => .pure ho' trivial
  refine ho.stack_bind (Runs.ite (fun _ => ?_) fun _ => ?_)
  · obtain ⟨l, b, c, k, rfl, -, hb, hc, hk⟩ := hp.rolls_up hn (Nat.le_of_not_lt hd)
    simp only [ensures_look_bind, Runs]
    rw [hb, hc, hk]
    exact ho.runs_rollUp hp hm
  · obtain ⟨s, l, j, k, rfl, -, hs, hcdr, hj⟩ := hp.rolls_down hn (Nat.le_of_not_lt hd)
    simp only [ensures_look_bind, Runs]
    rw [hj, hs, hcdr]
    exact ho.runs_rollDown hp hm

end Open

end ActorMachine
