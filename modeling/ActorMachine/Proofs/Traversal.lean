import ActorMachine.Proofs.ListSplitting
import Mathlib.Data.Finset.Card

namespace ActorMachine.Heap

variable {h h' : Heap} {v w p : Word} {n i j k budget : Nat} {l : List Nat}
  {ps qs items : List Word} {task : String}

def Exceeds (h : Heap) (v : Word) (n : Nat) : Prop := (h.pairAt? n v).isSome = true

instance (h : Heap) (v : Word) (n : Nat) : Decidable (h.Exceeds v n) :=
  inferInstanceAs (Decidable (_ = true))

/-- The chain of pairs comes to an end, and these are all of them. -/
def Ends (h : Heap) (v : Word) (ps : List Word) : Prop := ∀ n, h.pairAt? n v = ps[n]?

/-- The chain of pairs comes to one of them twice. -/
def Cyclic (h : Heap) (v : Word) :
    Prop := ∃ i j, i < j ∧ h.pairAt? i v = h.pairAt? j v ∧ h.Exceeds v j

theorem pairAt?_of_not_isPair (hv : h.isPair v = false) (n : Nat) : h.pairAt? n v = none := by
  cases n <;> simp [pairAt?, hv]

theorem pairAt?_cdr (hv : h.isPair v = true) (n : Nat) :
    h.pairAt? (n + 1) v = h.pairAt? n (h.cdr v) := by
  rw [pairAt?, if_pos hv]

theorem isPair_of_pairAt? (hp : h.pairAt? n v = some p) : h.isPair p = true := by
  induction n generalizing v with
  | zero =>
    unfold pairAt? at hp
    split at hp
    · next hv =>
      cases hp
      exact hv
    · cases hp
  | succ n ih =>
    unfold pairAt? at hp
    split at hp
    · exact ih hp
    · cases hp

theorem pairAt?_add (he : h.pairAt? i v = h.pairAt? j v) (n : Nat) :
    h.pairAt? (i + n) v = h.pairAt? (j + n) v := by
  induction n with
  | zero => exact he
  | succ n ih => rw [← Nat.add_assoc, ← Nat.add_assoc, pairAt?_succ, pairAt?_succ, ih]

theorem Exceeds.mono (he : h.Exceeds v n) (hk : k ≤ n) : h.Exceeds v k := by
  induction hk with
  | refl => exact he
  | step _ ih =>
    apply ih
    unfold Exceeds at he
    rw [pairAt?_succ] at he
    cases hp : h.pairAt? _ v with
    | none =>
      rw [hp] at he
      cases he
    | some p =>
      unfold Exceeds
      rw [hp]
      rfl

theorem exceeds_succ (hv : h.isPair v = true) (n : Nat) :
    h.Exceeds v (n + 1) ↔ h.Exceeds (h.cdr v) n := by
  unfold Exceeds
  rw [pairAt?_cdr hv]

namespace Ends

theorem nil (hv : h.isPair v = false) : h.Ends v [] := by
  intro n
  rw [pairAt?_of_not_isPair hv, List.getElem?_nil]

theorem cons (hv : h.isPair v = true) (he : h.Ends (h.cdr v) ps) : h.Ends v (v :: ps) := by
  intro n
  cases n with
  | zero => rw [pairAt?, if_pos hv, List.getElem?_cons_zero]
  | succ n => rw [pairAt?_cdr hv, he n, List.getElem?_cons_succ]

theorem isPair_eq (he : h.Ends v []) : h.isPair v = false := by
  have hnone := he 0
  simpa [pairAt?] using hnone

theorem uncons (he : h.Ends v (p :: ps)) : v = p ∧ h.isPair v = true ∧ h.Ends (h.cdr v) ps := by
  have hfirst := he 0
  unfold pairAt? at hfirst
  split at hfirst
  · next hv =>
    refine ⟨by simpa using hfirst, hv, fun n => ?_⟩
    rw [← pairAt?_cdr hv, he, List.getElem?_cons_succ]
  · cases hfirst

theorem unique (hp : h.Ends v ps) (hq : h.Ends v qs) : ps = qs := by
  apply List.ext_getElem?
  intro n
  rw [← hp n, hq n]

theorem exceeds_iff (he : h.Ends v ps) : h.Exceeds v n ↔ n < ps.length := by
  unfold Exceeds
  rw [he n, isSome_getElem?]

theorem not_cyclic (he : h.Ends v ps) : ¬ h.Cyclic v := by
  rintro ⟨i, j, hij, heq, hj⟩
  rw [he.exceeds_iff] at hj
  -- As many steps after both places one of them is past the end, and the other is not.
  have hend := pairAt?_add heq (ps.length - j)
  rw [he, he, List.getElem?_eq_getElem (by omega), List.getElem?_eq_none (by omega)] at hend
  cases hend

theorem nodup (he : h.Ends v ps) : ps.Nodup := by
  rw [List.nodup_iff_getElem?_ne_getElem?]
  intro i j hij hj heq
  refine he.not_cyclic ⟨i, j, hij, ?_, he.exceeds_iff.2 hj⟩
  rw [he, he, heq]

theorem isPair (he : h.Ends v ps) : ∀ p ∈ ps, h.isPair p = true := by
  intro p hp
  obtain ⟨n, hn⟩ := List.mem_iff_getElem?.1 hp
  exact isPair_of_pairAt? ((he n).trans hn)

theorem length_le (he : h.Ends v ps) : ps.length ≤ h.capacity :=
  length_le_capacity he.nodup he.isPair

end Ends

theorem spine_cases (h : Heap) (b : Budget) (v : Word) :
    (∃ ps, h.Ends v ps ∧ ps.length ≤ b.left ∧ h.spine b v = .ok ps) ∨
      h.Exceeds v b.left ∧ h.spine b v = .error (.runaway b.task) := by
  obtain ⟨n, task⟩ := b
  induction n generalizing v with
  | zero =>
    cases hv : h.isPair v with
    | false => exact .inl ⟨[], .nil hv, Nat.le_refl 0, spine_end hv _⟩
    | true => exact .inr ⟨by simp [Exceeds, pairAt?, hv], spine_runaway hv task⟩
  | succ n ih =>
    cases hv : h.isPair v with
    | false => exact .inl ⟨[], .nil hv, Nat.zero_le _, spine_end hv _⟩
    | true =>
      rw [spine_pair hv, exceeds_succ hv]
      obtain ⟨ps, he, hlen, hs⟩ | ⟨he, hs⟩ := ih (h.cdr v)
      · exact .inl ⟨v :: ps, .cons hv he, Nat.succ_le_succ hlen, by rw [hs]; rfl⟩
      · exact .inr ⟨he, by rw [hs]; rfl⟩

theorem Ends.spine {b : Budget} (he : h.Ends v ps) (hb : ps.length ≤ b.left) :
    h.spine b v = .ok ps := by
  obtain ⟨qs, hq, -, hs⟩ | ⟨hlong, -⟩ := spine_cases h b v
  · rw [hs, he.unique hq]
  · exact absurd (he.exceeds_iff.1 hlong) (Nat.not_lt.2 hb)

theorem ends_of_not_exceeds (hn : ¬ h.Exceeds v n) : ∃ ps, h.Ends v ps ∧ ps.length ≤ n := by
  obtain ⟨ps, he, hlen, -⟩ | ⟨he, -⟩ := spine_cases h ⟨n, ""⟩ v
  · exact ⟨ps, he, hlen⟩
  · exact absurd he hn

theorem Exceeds.cyclic (he : h.Exceeds v h.capacity) : h.Cyclic v := by
  -- Among more pairs than there are cells, one stands twice.
  have hpair : ∀ n ≤ h.capacity, ∃ i, h.pairAt? n v = some (.ref i) ∧ i < h.capacity := by
    intro n hn
    obtain ⟨p, hp⟩ := Option.isSome_iff_exists.1 (he.mono hn)
    obtain ⟨i, rfl, hi⟩ := index_lt_of_isPair (isPair_of_pairAt? hp)
    exact ⟨i, hp, hi⟩
  let place : Nat → Nat := fun n => ((h.pairAt? n v).getD .undefined).index
  have hplace : ∀ n ∈ Finset.range (h.capacity + 1), place n ∈ Finset.range h.capacity := by
    intro n hn
    obtain ⟨i, hp, hi⟩ := hpair n (Nat.le_of_lt_succ (Finset.mem_range.1 hn))
    simp only [place, hp, Option.getD_some, Word.index]
    exact Finset.mem_range.2 hi
  obtain ⟨i, hi, j, hj, hne, heq⟩ := Finset.exists_ne_map_eq_of_card_lt_of_maps_to (by simp) hplace
  have hle : ∀ {n}, n ∈ Finset.range (h.capacity + 1) → n ≤ h.capacity := fun hn =>
    Nat.le_of_lt_succ (Finset.mem_range.1 hn)
  have hsame : h.pairAt? i v = h.pairAt? j v := by
    obtain ⟨a, ha, -⟩ := hpair i (hle hi)
    obtain ⟨b, hb, -⟩ := hpair j (hle hj)
    simp only [place, ha, hb, Option.getD_some, Word.index] at heq
    rw [ha, hb, heq]
  obtain hij | hji := Nat.lt_or_gt_of_ne hne
  · exact ⟨i, j, hij, hsame, he.mono (hle hj)⟩
  · exact ⟨j, i, hji, hsame.symm, he.mono (hle hi)⟩

theorem Cyclic.exceeds (hc : h.Cyclic v) (n : Nat) : h.Exceeds v n := by
  refine Classical.by_contradiction fun hn => ?_
  obtain ⟨ps, he, -⟩ := ends_of_not_exceeds hn
  exact he.not_cyclic hc

theorem cyclic_iff : h.Cyclic v ↔ ∀ n, h.Exceeds v n :=
  ⟨Cyclic.exceeds, fun he => (he h.capacity).cyclic⟩

/-- The walks along a chain run away in this case. In any other they come to its end, and give what
it holds. -/
structure RunsAwayIff (h : Heap) (v : Word) (P : Prop) : Prop where
  listLength : h.listLength v = .error (.runaway "list_len") ↔ P
  items : h.items v = .error (.runaway "list_to_vec") ↔ P
  checksum : h.checksum v = .error (.runaway "list_crc") ↔ P
  total : ¬ P → ∃ ps, h.Ends v ps ∧ h.listLength v = .ok ps.length ∧
  h.items v = .ok (ps.map h.car) ∧
    ∃ sum, h.checksum v = .ok sum

theorem RunsAwayIff.congr {P Q : Prop} (hr : h.RunsAwayIff v P) (hq : P ↔ Q) :
    h.RunsAwayIff v Q := by
  rwa [← propext hq]

theorem map_spine_eq_runaway_iff {α : Type} (f : List Word → α) :
    f <$> h.spine ⟨n, task⟩ v = .error (.runaway task) ↔ h.Exceeds v n := by
  obtain ⟨ps, he, hlen, hs⟩ | ⟨he, hs⟩ := spine_cases h ⟨n, task⟩ v
  · rw [hs]
    refine iff_of_false (fun hr => by cases hr) fun hx => ?_
    exact Nat.not_lt.2 hlen (he.exceeds_iff.1 hx)
  · rw [hs]
    exact iff_of_true rfl he

theorem runsAwayIff_exceeds (h : Heap) (v : Word) : h.RunsAwayIff v (h.Exceeds v h.sanity) where
  listLength := map_spine_eq_runaway_iff _
  items := map_spine_eq_runaway_iff _
  checksum := map_spine_eq_runaway_iff _
  total hn := by
    obtain ⟨ps, he, hlen⟩ := ends_of_not_exceeds hn
    unfold Heap.listLength Heap.items Heap.checksum
    rw [he.spine hlen, he.spine hlen, he.spine hlen]
    exact ⟨ps, he, rfl, rfl, _, rfl⟩

theorem Pristine.reworks {F : Nat → Prop} (hi : h.Pristine) (hf : h.FreeList l)
    (hr : h.Reworks F h') (hF : ∀ i < Word.reserved, ¬ F i) : h'.Pristine := by
  intro i hlt
  have hlive : h.Live i := by
    refine ⟨Nat.lt_of_lt_of_le hlt (Nat.le_trans hf.reserved_le hf.permanent_le), ?_⟩
    obtain ht | ht := hi.type hlt <;> rw [ht] <;> decide
  rw [hr.same i hlive (hF i hlt), hi i hlt]

theorem Pairs.ends (hnil : h.isPair .nil = false) (hp : h.Pairs v l) : h.Ends v (l.map .ref) := by
  induction l generalizing v with
  | nil =>
    obtain ⟨rfl, -⟩ := hp
    exact .nil hnil
  | cons i l ih =>
    obtain ⟨rfl, hcdr, hrest⟩ := hp.cdr
    refine .cons (hp.2 i List.mem_cons_self) ?_
    rw [hcdr]
    exact ih hrest

theorem Lays.ends (hk : h.Lays items v ks h') (hnil : h'.isPair .nil = false) :
    h'.Ends v (ks.map .ref) ∧ (ks.map .ref).map h'.car = items := by
  refine ⟨hk.pairs.ends hnil, ?_⟩
  rw [← hk.values]
  exact (hk.pairs.map_car id).trans (List.map_id _)

theorem FreeList.lays_ofItems (hf : h.FreeList l) (hi : h.Pristine)
    (hroom : h.inUse + items.length ≤ h.capacity) :
    ∃ v h' ks, ofItems items h = .ok v h' ∧ h.Lays items v ks h' ∧ h'.isPair .nil = false := by
  obtain ⟨v, h', hr⟩ := hf.ofItems_isOk hroom
  obtain ⟨ks, hk⟩ := hf.lays hr
  exact ⟨v, h', ks, hr, hk, (hi.reworks hf hk.reworks fun _ _ => id).not_isPair_nil⟩

theorem FreeList.ends_ofItems (hf : h.FreeList l) (hi : h.Pristine)
    (hroom : h.inUse + items.length ≤ h.capacity) :
    ∃ v h' ps, ofItems items h = .ok v h' ∧ h'.Ends v ps ∧ ps.map h'.car = items ∧
      h'.sanity = h.sanity := by
  obtain ⟨v, h', ks, hr, hk, hnil⟩ := hf.lays_ofItems hi hroom
  obtain ⟨he, hcars⟩ := hk.ends hnil
  exact ⟨v, h', _, hr, he, hcars, hk.reworks.sanity⟩

/-- Walks along chains of pairs run away from those that are too long for the budget, and from no
others. If the budget is one unit for each cell, these are the cyclic ones. What was put into a list
is found there again. -/
theorem catches_cycles (h : Heap) :
    (∀ v, h.RunsAwayIff v (h.Exceeds v h.sanity)) ∧
    (∀ v, h.Cyclic v ↔ ∀ n, h.Exceeds v n) ∧
    (h.sanity = h.capacity → ∀ v, h.RunsAwayIff v (h.Cyclic v)) ∧
    ∀ l, h.FreeList l → h.Pristine → ∀ items : List Word, h.inUse + items.length ≤ h.capacity →
      items.length ≤ h.sanity → ∃ v h', ofItems items h = .ok v h' ∧ h'.items v = .ok items := by
  refine ⟨h.runsAwayIff_exceeds, fun _ => cyclic_iff, fun hs v => ?_,
    fun l hf hi items hroom hb => ?_⟩
  · refine (h.runsAwayIff_exceeds v).congr ⟨fun he => ?_, fun hc => hc.exceeds _⟩
    rw [hs] at he
    exact he.cyclic
  · obtain ⟨v, h', ps, hr, he, rfl, hs⟩ := hf.ends_ofItems hi hroom
    refine ⟨v, h', hr, ?_⟩
    unfold Heap.items
    rw [he.spine (by simpa [hs] using hb)]
    rfl

theorem catches_cycles_looped :
    (looped.sanity = looped.capacity ∧ looped.Cyclic (.ref 13) ∧
      looped.listLength (.ref 13) = .error (.runaway "list_len") ∧ ¬ looped.Cyclic (.ref 16) ∧
      ∃ ps, looped.Ends (.ref 16) ps ∧ looped.listLength (.ref 16) = .ok ps.length) ∧
    ∃ v h', ofItems [.fix 7] (new 14) = .ok v h' ∧ h'.items v = .ok [.fix 7] := by
  -- Every cell is a pair of a list that runs into a circle, and in a new heap there is room for one
  -- item.
  have hs : looped.sanity = looped.capacity := by decide +kernel
  have hcyclic : looped.Cyclic (.ref 13) := ⟨1, 2, by decide, by decide +kernel, by decide +kernel⟩
  have hends : looped.Ends (.ref 16) [.ref 16] :=
    .cons (by decide +kernel) (.nil (by decide +kernel))
  obtain ⟨ps, hps, hlen, -⟩ := ((catches_cycles looped).2.2.1 hs (.ref 16)).total hends.not_cyclic
  refine ⟨⟨hs, hcyclic, ((catches_cycles looped).2.2.1 hs _).listLength.2 hcyclic, hends.not_cyclic,
    ps, hps, hlen⟩, ?_⟩
  exact (catches_cycles (new 14)).2.2.2 [] (freeList_new 14 14) (fun _ =>
    literals_new 14 14) [.fix 7]
    (by decide +kernel)
    (by decide +kernel)

end ActorMachine.Heap
