import ActorMachine.Collector.Basic
import ActorMachine.Proofs.Heap

namespace ActorMachine

def Roots.words (r : Roots) : List Word := r.symbols.toList ++ r.direct

namespace Heap

def Leads (h : Heap) (w : Word) (i : Nat) : Prop :=
  (w = .ref i ∨ w = .cap i) ∧ Word.reserved ≤ i ∧ i < h.top ∧ (h.cellAt i).t ≠ .freeT

instance (h : Heap) (w : Word) (i : Nat) : Decidable (h.Leads w i) :=
  inferInstanceAs (Decidable (_ ∧ _))

theorem collectable?_eq_some_iff {h : Heap} {w : Word} {i : Nat} :
    collectable? h.cells h.top w = some i ↔ h.Leads w i := by
  cases w with
  | fixnum n => simp [collectable?, Leads]
  | ref j =>
    simp only [collectable?, Leads, cellAt]
    constructor
    · intro e
      split at e
      · next hj =>
        cases e
        exact ⟨.inl rfl, hj⟩
      · cases e
    · rintro ⟨hw | hw, hj⟩
      · cases hw
        exact if_pos hj
      · cases hw
  | cap j =>
    simp only [collectable?, Leads, cellAt]
    constructor
    · intro e
      split at e
      · next hj =>
        cases e
        exact ⟨.inr rfl, hj⟩
      · cases e
    · rintro ⟨hw | hw, hj⟩
      · cases hw
      · cases hw
        exact if_pos hj

theorem Leads.unique {h : Heap} {w : Word} {i j : Nat} (hi : h.Leads w i) (hj : h.Leads w j) :
    i = j := by
  rw [← collectable?_eq_some_iff] at hi hj
  rw [hi] at hj
  exact Option.some.inj hj

/-- A cell that the roots or the permanent cells keep alive. -/
inductive Reach (h : Heap) (roots : Roots) : Nat → Prop
  | root {w : Word} {i : Nat} : w ∈ roots.words → h.Leads w i → Reach h roots i
  | permanent {i : Nat} : Word.reserved ≤ i → i < h.permanent → (h.cellAt i).t ≠ .freeT →
      Reach h roots i
  | field {i j : Nat} {w : Word} : Reach h roots i → w ∈ (h.cellAt i).words → h.Leads w j →
      Reach h roots j

namespace Reach

variable {h h' : Heap} {roots : Roots} {i : Nat}

theorem inUse (hp : h.permanent ≤ h.top) (hr : h.Reach roots i) :
    Word.reserved ≤ i ∧ i < h.top ∧ (h.cellAt i).t ≠ .freeT := by
  cases hr with
  | root _ hl => exact hl.2
  | permanent h1 h2 h3 => exact ⟨h1, Nat.lt_of_lt_of_le h2 hp, h3⟩
  | field _ _ hl => exact hl.2

theorem minimal {P : Nat → Prop} (hroot : ∀ w ∈ roots.words, ∀ j, h.Leads w j → P j)
    (hperm : ∀ j, Word.reserved ≤ j → j < h.permanent → (h.cellAt j).t ≠ .freeT → P j)
    (hfield : ∀ j, P j → ∀ w ∈ (h.cellAt j).words, ∀ k, h.Leads w k → P k)
    (hr : h.Reach roots i) : P i := by
  induction hr with
  | root hw hl => exact hroot _ hw _ hl
  | permanent h1 h2 h3 => exact hperm _ h1 h2 h3
  | field _ hw hl ih => exact hfield _ ih _ hw _ hl

theorem congr (htop : h'.top = h.top) (hperm : h'.permanent = h.permanent)
    (hcell : ∀ j, h.Reach roots j → h'.cellAt j = h.cellAt j) :
    h.Reach roots i → h'.Reach roots i := by
  have hleads : ∀ w j, h.Reach roots j → h.Leads w j → h'.Leads w j := by
    intro w j hr hl
    refine ⟨hl.1, hl.2.1, ?_, ?_⟩
    · rw [htop]
      exact hl.2.2.1
    · rw [hcell j hr]
      exact hl.2.2.2
  intro hr
  induction hr with
  | root hw hl => exact .root hw (hleads _ _ (.root hw hl) hl)
  | permanent h1 h2 h3 =>
    refine .permanent h1 (hperm ▸ h2) ?_
    rw [hcell _ (.permanent h1 h2 h3)]
    exact h3
  | field hr hw hl ih =>
    refine .field ih ?_ (hleads _ _ (.field hr hw hl) hl)
    rw [hcell _ hr]
    exact hw

end Reach

end Heap

end ActorMachine
