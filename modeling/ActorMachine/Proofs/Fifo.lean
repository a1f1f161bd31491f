import ActorMachine.Proofs.StackRearrangement
import Mathlib.Logic.Function.Basic

namespace ActorMachine

open Heap

namespace Heap

variable {h h' : Heap} {F G : Nat → Field → Prop} {i : Nat} {f : Field} {w : Word}

theorem achieves_store (ht : h.top ≤ h.capacity) (hi : i < h.top) :
    Achieves (store (.ref i) f w) h fun _ h' => h.Sets i ((h.cellAt i).set f w) h' := by
  have hok : h.isCell (.ref i) = true := isCell_iff.2 ⟨i, rfl, hi⟩
  obtain ⟨h', hr⟩ : ∃ h', store (.ref i) f w h = .ok () h' := ⟨_, by rw [store, if_pos hok]⟩
  obtain ⟨j, hj, -, hset⟩ := store_ok ht hr
  cases hj
  exact ⟨(), h', hr, hset⟩

theorem fetch_ref (hi : i < h.top) : fetch (.ref i) f h = .ok ((h.cellAt i).get f) h := by
  unfold fetch query
  dsimp only
  rw [field_ref hi]

theorem Rewires.shade (hr : h.Rewires F h') (v : Word) : h.Rewires F (h'.shade v) := by
  obtain ⟨h1, h2, h3, h4, h5, h6, h7⟩ := hr
  exact ⟨fun j g hg => by rw [cellAt_shade, h1 j g hg], by rw [top_shade, h2],
    by rw [freeHead_shade, h3], by rw [freeCount_shade, h4], by rw [permanent_shade, h5],
    by rw [capacity_shade, h6], by rw [sanity_shade, h7]⟩

end Heap

namespace Queue

variable {q q' : Queue} {h h' : Heap} {l : List Nat} {i : Nat} {v : Word} {f : Fault}

def LinksOf (l : List Nat) (i : Nat) (f : Field) : Prop := i ∈ l ∧ f = .z

theorem Holds.eq_empty (hq : q.Holds h []) : q = .empty := by
  obtain ⟨head, tail⟩ := q
  obtain ⟨rfl, rfl⟩ := hq
  rfl

theorem Holds.head_eq_nil (hq : q.Holds h l) : q.head = .nil ↔ l = [] := by
  rw [← hq.isEmpty_iff, isEmpty, decide_eq_true_iff]

theorem Holds.links_put (hq : q.Holds h l) (hl : ∀ j ∈ l, j < h.top) (ht : h.top ≤ h.capacity)
    (hi : i < h.top) :
    Achieves (q.put (.ref i)) h fun q' h' => ∃ h₁, h.Sets i ((h.cellAt i).set .z .nil) h₁ ∧
      (l = [] ∧ q' = ⟨.ref i, .ref i⟩ ∧ h' = h₁.shade (.ref i) ∨
        ∃ k j h₂, l = k ++ [j] ∧ h₁.Sets j ((h₁.cellAt j).set .z (.ref i)) h₂ ∧
          q' = ⟨q.head, .ref i⟩ ∧
          h' = h₂.shade (.ref i)) := by
  unfold put
  refine (achieves_store ht hi).bind ?_
  intro _ h₁ hset₁
  dsimp only
  cases he : q.isEmpty with
  | true => exact ⟨_, _, rfl, h₁, hset₁, .inl ⟨hq.isEmpty_iff.1 he, rfl, rfl⟩⟩
  | false =>
    obtain ⟨k, j, rfl, htail⟩ := hq.exists_last he
    have hj : j < h₁.top := by
      rw [hset₁.top]
      exact hl j (by simp)
    rw [htail]
    refine (achieves_store (by rw [hset₁.top, hset₁.capacity]; exact ht) hj).bind ?_
    intro _ h₂ hset₂
    exact ⟨_, _, rfl, h₁, hset₁, .inr ⟨k, j, h₂, rfl, hset₂, rfl, rfl⟩⟩

theorem Holds.achieves_put (hq : q.Holds h l) (hl : ∀ j ∈ i :: l, j < h.top)
    (ht : h.top ≤ h.capacity) (hi : i ∉ l) (hr : Word.reserved ≤ i) :
    Achieves (q.put (.ref i)) h fun q' h' => q'.Holds h' (l ++ [i]) ∧
      h.Rewires (LinksOf (i :: l)) h' := by
  obtain ⟨hi', hl⟩ := List.forall_mem_cons.1 hl
  refine (hq.links_put hl ht hi').mono ?_
  rintro - - ⟨h₁, hset₁, ⟨rfl, rfl, rfl⟩ | ⟨k, j, h₂, rfl, hset₂, rfl, rfl⟩⟩
  · exact ⟨holds_first hr hset₁ _, Rewires.shade (hset₁.rewires ⟨List.mem_cons_self, rfl⟩) _⟩
  · exact ⟨hq.link hi hr hset₁ hset₂ _, Rewires.shade
      ((hset₁.rewires ⟨List.mem_cons_self, rfl⟩).trans (hset₂.rewires ⟨by simp, rfl⟩)) _⟩

theorem Holds.achieves_pop (hq : q.Holds h l) (hl : ∀ j ∈ l, j < h.top) (ht : h.top ≤ h.capacity) :
    Achieves q.pop h fun r h' => r.1 = l.head?.map .ref ∧ r.2.Holds h' l.tail ∧
      h.Rewires (LinksOf l) h' := by
  unfold pop
  cases l with
  | nil =>
    rw [if_pos (hq.isEmpty_iff.2 rfl)]
    exact ⟨_, h, rfl, rfl, hq, fun _ _ _ => rfl, rfl, rfl, rfl, rfl, rfl, rfl⟩
  | cons i l =>
    have hne : ¬ q.isEmpty = true := fun he => List.cons_ne_nil i l (hq.isEmpty_iff.1 he)
    have hi := hl i List.mem_cons_self
    rw [if_neg hne, hq.1.1, achieves_bind (fetch_ref hi)]
    refine (achieves_store ht hi).bind ?_
    rintro - h' hset
    exact ⟨_, h', rfl, rfl, hq.unlink hset, hset.rewires ⟨List.mem_cons_self, rfl⟩⟩

def Respools (h h' : Heap) : Prop := h.Rewires (fun _ f => f = .z) h'

namespace Respools

theorem trans {h'' : Heap} (h₁ : Respools h h') (h₂ : Respools h' h'') : Respools h h'' :=
  Rewires.trans h₁ h₂

theorem live {c : Nat} (hr : Respools h h') (hc : h.Live c) : h'.Live c :=
  ⟨hr.top ▸ hc.1, fun ht => hc.2 ((hr.same c .t (by decide)).symm.trans ht)⟩

theorem isCell (hr : Respools h h') (w : Word) : h'.isCell w = h.isCell w := by
  simp only [Heap.isCell, Rewires.top hr]

theorem hasType (hr : Respools h h') (t w : Word) : h'.hasType t w = h.hasType t w := by
  have ht : (h'.cellAt w.index).t = (h.cellAt w.index).t := hr.same w.index .t (by decide)
  unfold Heap.hasType
  rw [ht, hr.isCell]

end Respools

/-- A queue takes any cells, or only events that are addressed to an actor. -/
inductive Kind where
  | any | events
  deriving DecidableEq, Repr

namespace Kind

def put (q : Queue) (v : Word) : Kind → HeapM Queue
  | any => q.put v
  | events => q.putEvent v

def Admits (h : Heap) (v : Word) : Kind → Prop
  | any => h.isCell v = true
  | events => h.isEvent v = true ∧ h.isActor (h.cellAt v.index).x = true

instance decidableAdmits (k : Kind) : Decidable (k.Admits h v) := by
  cases k <;> unfold Admits <;> infer_instance

theorem Admits.respooled {k : Kind} (ha : k.Admits h v) (hr : Respools h h') : k.Admits h' v := by
  have hx : (h'.cellAt v.index).x = (h.cellAt v.index).x := hr.same v.index .x (by decide)
  cases k with
  | any => exact (hr.isCell v).trans ha
  | events =>
    unfold Admits Heap.isEvent Heap.isActor at ha ⊢
    simpa only [hx, hr.hasType] using ha

def refusal (h : Heap) (v : Word) : Kind → Fault
  | any => .invalidRef v
  | events =>
    .assertion (if h.isEvent v then "event target must be an actor"
      else "event queue accepts only events")

theorem put_refused {k : Kind} (hv : ¬ k.Admits h v) : k.put q v h = .error (k.refusal h v) h := by
  cases k with
  | any =>
    refine run_bind_error ?_
    unfold store
    rw [if_neg (show ¬ h.isCell v = true from hv)]
    rfl
  | events =>
    unfold Kind.put refusal putEvent
    dsimp only
    by_cases he : h.isEvent v = true
    · obtain ⟨i, rfl, hi, -⟩ := hasType_iff.1 he
      have hx : h.isActor (h.cellAt i).x = false := by
        rw [← Bool.not_eq_true]
        exact fun ha => hv ⟨he, ha⟩
      rw [if_pos he, run_bind (show (get : HeapM Heap) h = .ok h h from rfl), he]
      simp only [Bool.not_true, Bool.false_eq_true, if_false]
      rw [run_bind (fetch_ref hi), run_bind (show (get : HeapM Heap) h = .ok h h from rfl),
        show h.isActor ((h.cellAt i).get .x) = false from hx]
      rfl
    · rw [if_neg he, run_bind (show (get : HeapM Heap) h = .ok h h from rfl),
        Bool.eq_false_iff.2 he]
      rfl

theorem put_admitted {k : Kind} (hv : k.Admits h v) : k.put q v h = q.put v h := by
  cases k with
  | any => rfl
  | events =>
    obtain ⟨he, hx⟩ := hv
    obtain ⟨i, rfl, hi, -⟩ := hasType_iff.1 he
    unfold Kind.put putEvent
    dsimp only
    rw [run_bind (show (get : HeapM Heap) h = .ok h h from rfl), he]
    simp only [Bool.not_true, Bool.false_eq_true, if_false]
    rw [run_bind (fetch_ref hi), run_bind (show (get : HeapM Heap) h = .ok h h from rfl),
      show h.isActor ((h.cellAt i).get .x) = true from hx]
    rfl

end Kind

section Interleaved

variable {ι : Type} {kind : ι → Kind} {qs : ι → Queue} {ls : ι → List Nat}

/-- Each queue consists of the cells of its list, and no cell is in two of them. -/
structure Stands (qs : ι → Queue) (ls : ι → List Nat) (h : Heap) : Prop where
  holds : ∀ i, (qs i).Holds h (ls i)
  apart : ∀ i j, i ≠ j → ∀ c ∈ ls i, c ∉ ls j
  below : ∀ i, ∀ c ∈ ls i, c < h.top
  top_le : h.top ≤ h.capacity
  sanity : h.sanity = h.capacity

namespace Stands

theorem toList (hs : Stands qs ls h) (i : ι) : (qs i).toList h = .ok ((ls i).map .ref) := by
  -- A walk along a queue never runs away: its cells are distinct.
  rw [(hs.holds i).toList (hs.below i), if_pos]
  have hsub : ls i ⊆ List.range h.top := fun c hc => List.mem_range.2 (hs.below i c hc)
  have hlen := ((hs.holds i).1.nodup.subperm hsub).length_le
  rw [List.length_range] at hlen
  rw [hs.sanity]
  exact Nat.le_trans hlen hs.top_le

theorem refused {h' : Heap} {f : Fault} {k : Kind} (hs : Stands qs ls h) (i : ι)
    (he : k.put (qs i) v h = .error f h') :
    ¬ k.Admits h v ∧ h' = h := by
  have hv : ¬ k.Admits h v := by
    intro hv
    rw [Kind.put_admitted hv] at he
    have hcell : h.isCell v = true := by
      cases k with
      | any => exact hv
      | events => exact (Bool.and_eq_true_iff.1 hv.1).1
    obtain ⟨c, rfl, hc⟩ := isCell_iff.1 hcell
    obtain ⟨q, h'', hok, -⟩ := (hs.holds i).links_put (hs.below i) hs.top_le hc
    rw [hok] at he
    cases he
  refine ⟨hv, ?_⟩
  rw [Kind.put_refused hv] at he
  cases he
  rfl

end Stands

variable [DecidableEq ι]

namespace Stands

theorem update {q : Queue} {l k : List Nat} (hs : Stands qs ls h) (i : ι) (hq : q.Holds h' l)
    (hr : h.Rewires (LinksOf k) h') (hk : ∀ j ≠ i, ∀ c ∈ ls j, c ∉ k) (hl : ∀ c ∈ l, c < h.top)
    (hj : ∀ j ≠ i, ∀ c ∈ ls j, c ∉ l) :
    Stands (Function.update qs i q) (Function.update ls i l) h' := by
  refine ⟨fun j => ?_, fun j n hjn => ?_, fun j => ?_, ?_, ?_⟩
  · by_cases hji : j = i
    · subst hji
      rwa [Function.update_self, Function.update_self]
    · rw [Function.update_of_ne hji, Function.update_of_ne hji]
      refine (hs.holds j).congr fun c hc => hr.same c .z fun hz => ?_
      exact hk j hji c hc hz.1
  · by_cases hji : j = i
    · subst hji
      rw [Function.update_self, Function.update_of_ne hjn.symm]
      exact fun c hc hn => hj n hjn.symm c hn hc
    · rw [Function.update_of_ne hji]
      by_cases hni : n = i
      · subst hni
        rw [Function.update_self]
        exact hj j hji
      · rw [Function.update_of_ne hni]
        exact hs.apart j n hjn
  · rw [hr.top]
    by_cases hji : j = i
    · subst hji
      rwa [Function.update_self]
    · rw [Function.update_of_ne hji]
      exact hs.below j
  · rw [hr.top, hr.capacity]
    exact hs.top_le
  · rw [hr.sanity, hr.capacity]
    exact hs.sanity

theorem put {c : Nat} (hs : Stands qs ls h) (i : ι) (hr : Word.reserved ≤ c) (hc : c < h.top)
    (hn : ∀ j, c ∉ ls j) :
    Achieves ((qs i).put (.ref c)) h fun q h' =>
      Stands (Function.update qs i q) (Function.update ls i (ls i ++ [c])) h' := by
  refine ((hs.holds i).achieves_put (List.forall_mem_cons.2 ⟨hc, hs.below i⟩) hs.top_le
    (hn i) hr).mono ?_
  rintro q h' ⟨hq, hlink⟩
  have hother : ∀ j ≠ i, ∀ d ∈ ls j, d ≠ c ∧ d ∉ ls i := fun j hj d hd =>
    ⟨fun h => hn j (h ▸ hd), hs.apart j i hj d hd⟩
  refine hs.update i hq hlink (fun j hj d hd hm => ?_) (fun d hd => ?_) fun j hj d hd hm => ?_
  · exact (List.mem_cons.1 hm).elim (hother j hj d hd).1 (hother j hj d hd).2
  · obtain hd | hd := List.mem_append.1 hd
    · exact hs.below i d hd
    · rwa [List.mem_singleton.1 hd]
  · obtain hm | hm := List.mem_append.1 hm
    · exact (hother j hj d hd).2 hm
    · exact (hother j hj d hd).1 (List.mem_singleton.1 hm)

theorem pop (hs : Stands qs ls h) (i : ι) :
    Achieves (qs i).pop h fun r h' => r.1 = (ls i).head?.map .ref ∧
      Stands (Function.update qs i r.2) (Function.update ls i (ls i).tail) h' := by
  refine ((hs.holds i).achieves_pop (hs.below i) hs.top_le).mono ?_
  rintro r h' ⟨hfirst, hq, hlink⟩
  refine ⟨hfirst, hs.update i hq hlink (fun j hj => hs.apart j i hj) (fun c hc => ?_)
    fun j hj c hc hm => ?_⟩
  · exact hs.below i c (List.mem_of_mem_tail hc)
  · exact hs.apart j i hj c hc (List.mem_of_mem_tail hm)

end Stands

/-- The queues and the lists that stand for them, after any operations in any order. In between,
anything may happen to the heap as long as the links of queued cells are left alone. -/
inductive Mirrors (kind : ι → Kind) : (ι → Queue) → (ι → List Nat) → Heap → Prop
  | start {h : Heap} : h.top ≤ h.capacity → h.sanity = h.capacity →
    Mirrors kind (fun _ => .empty) (fun _ => []) h
  | put {qs : ι → Queue} {ls : ι → List Nat} {h h' : Heap} {q : Queue} (i : ι) (c : Nat) :
    Mirrors kind qs ls h →
      Word.reserved ≤ c → h.Live c → (∀ j, c ∉ ls j) → (kind i).put (qs i) (.ref c) h = .ok q h' →
      Mirrors kind (Function.update qs i q) (Function.update ls i (ls i ++ [c])) h'
  | refuse {qs : ι → Queue} {ls : ι → List Nat} {h h' : Heap} {f : Fault} (i : ι) (v : Word) :
    Mirrors kind qs ls h →
      (kind i).put (qs i) v h = .error f h' → Mirrors kind qs ls h'
  | pop {qs : ι → Queue} {ls : ι → List Nat} {h h' : Heap} {r : Option Word} {q : Queue} (i : ι) :
      Mirrors kind qs ls h → (qs i).pop h = .ok (r, q) h' →
      Mirrors kind (Function.update qs i q) (Function.update ls i (ls i).tail) h'
  | other {qs : ι → Queue} {ls : ι → List Nat} {h h' : Heap} : Mirrors kind qs ls h →
      (∀ i, ∀ c ∈ ls i, (h'.cellAt c).z = (h.cellAt c).z) → h.top ≤ h'.top → h'.top ≤ h'.capacity →
      h'.sanity = h'.capacity → Mirrors kind qs ls h'

theorem Mirrors.stands (hm : Mirrors kind qs ls h) : Stands qs ls h := by
  induction hm with
  | start ht hs => exact ⟨fun _ => ⟨rfl, rfl⟩, by simp, by simp, ht, hs⟩
  | @put qs ls h h' q i c _ hr hc hn he ih =>
    have hadmits : (kind i).Admits h (.ref c) := Classical.by_contradiction fun hv => by
      rw [Kind.put_refused hv] at he
      cases he
    rw [Kind.put_admitted hadmits] at he
    obtain ⟨q', h'', hok, hs⟩ := ih.put i hr hc.1 hn
    cases he.symm.trans hok
    exact hs
  | refuse i v _ he ih =>
    obtain ⟨-, rfl⟩ := ih.refused i he
    exact ih
  | @pop qs ls h h' r q i _ he ih =>
    obtain ⟨r', h'', hok, -, hs⟩ := ih.pop i
    cases he.symm.trans hok
    exact hs
  | other _ hz htop ht hs ih =>
    exact ⟨fun i => (ih.holds i).congr (hz i), ih.apart, fun i c hc =>
      Nat.lt_of_lt_of_le (ih.below i c hc) htop, ht, hs⟩

/-- However the operations on the queues follow each other, each of them does what its list does. -/
theorem Mirrors.refines (hm : Mirrors kind qs ls h) (i : ι) :
    (qs i).toList h = .ok ((ls i).map .ref) ∧ ((qs i).head = .nil ↔ ls i = []) ∧
    (ls i = [] → qs i = .empty) ∧
    (∃ q h', (qs i).pop h = .ok ((ls i).head?.map .ref, q) h' ∧
      q.toList h' = .ok ((ls i).tail.map .ref) ∧
      ∀ j ≠ i, (qs j).toList h' = .ok ((ls j).map .ref)) ∧
    (∀ c, Word.reserved ≤ c → h.Live c → (∀ j, c ∉ ls j) → (kind i).Admits h (.ref c) →
      ∃ q h', (kind i).put (qs i) (.ref c) h = .ok q h' ∧
        q.toList h' = .ok ((ls i ++ [c]).map .ref) ∧
        ∀ j ≠ i, (qs j).toList h' = .ok ((ls j).map .ref)) ∧
    (∀ v, ¬ (kind i).Admits h v → (kind i).put (qs i) v h = .error ((kind i).refusal h v) h) ∧
    ∀ v f h', (kind i).put (qs i) v h = .error f h' → ¬ (kind i).Admits h v ∧ h' = h := by
  have hs := hm.stands
  have hview : ∀ {q : Queue} {l : List Nat} {h' : Heap},
    Stands (Function.update qs i q) (Function.update ls i l) h' →
      q.toList h' = .ok (l.map .ref) ∧ ∀ j ≠ i, (qs j).toList h' = .ok ((ls j).map .ref) := by
    intro q l h' hs'
    refine ⟨by simpa using hs'.toList i, fun j hj => ?_⟩
    have hj' := hs'.toList j
    rwa [Function.update_of_ne hj, Function.update_of_ne hj] at hj'
  refine ⟨hs.toList i, (hs.holds i).head_eq_nil, fun he => (he ▸ hs.holds i).eq_empty, ?_,
    fun c hr hc hn hadmits => ?_, fun v => Kind.put_refused, fun v f h' => hs.refused i⟩
  · obtain ⟨⟨r, q⟩, h', hok, hfirst, hs'⟩ := hs.pop i
    cases hfirst
    exact ⟨q, h', hok, hview hs'⟩
  · obtain ⟨q, h', hok, hs'⟩ := hs.put i hr hc.1 hn
    exact ⟨q, h', (Kind.put_admitted hadmits).trans hok, hview hs'⟩

theorem Mirrors.admit (hm : Mirrors kind qs ls h) (i : ι) {c : Nat} (hr : Word.reserved ≤ c)
    (hc : h.Live c) (hn : ∀ j, c ∉ ls j) (ha : (kind i).Admits h (.ref c)) : ∃ q h',
    Mirrors kind (Function.update qs i q) (Function.update ls i (ls i ++ [c])) h' ∧
    Respools h h' := by
  have hs := hm.stands
  have hbelow : ∀ j ∈ c :: ls i, j < h.top := List.forall_mem_cons.2 ⟨hc.1, hs.below i⟩
  obtain ⟨q, h', hok, -, hlink⟩ := (hs.holds i).achieves_put hbelow hs.top_le (hn i) hr
  have hput : (kind i).put (qs i) (.ref c) h = .ok q h' := (Kind.put_admitted ha).trans hok
  exact ⟨q, h', hm.put i c hr hc hn hput,
    { hlink with same := fun j f hf => hlink.same j f fun hl => hf hl.2 }⟩

def crowd : Heap :=
  let event : Cell := ⟨.eventT, .cap 13, .fix 1, .undefined⟩
  let pair : Cell := ⟨.pairT, .fix 1, .nil, .undefined⟩
  [event, event, pair, pair, pair].zipIdx 14 |>.foldl (fun h (c, i) => h.putCell i c)
    (({ Heap.new 40 with top := 19 } : Heap).putCell 13 ⟨.actorT, .undefined, .nil, .undefined⟩)

def members (b : Bool) : List Nat := if b then [14, 15] else [16, 17, 18]

def kinds (b : Bool) : Kind := if b then .events else .any

theorem members_crowd : ∀ b, ∀ c ∈ members b,
    Word.reserved ≤ c ∧ crowd.Live c ∧ (kinds b).Admits crowd (.ref c) := by
  unfold Live
  decide +kernel

theorem Mirrors.joins {qs : Bool → Queue} {ls : Bool → List Nat} {c : Nat}
    (hm : Mirrors kinds qs ls h) (hr : Respools crowd h) (b : Bool) (hc : c ∈ members b)
    (hn : ∀ j, c ∉ ls j) : ∃ q h',
    Mirrors kinds (Function.update qs b q) (Function.update ls b (ls b ++ [c])) h' ∧
      Respools crowd h' := by
  obtain ⟨hreserved, hlive, ha⟩ := members_crowd b c hc
  obtain ⟨q, h', hm', hr'⟩ := hm.admit b hreserved (hr.live hlive) hn (ha.respooled hr)
  exact ⟨q, h', hm', hr.trans hr'⟩

theorem Mirrors.exists_lines : ∃ qs ls h, Mirrors kinds qs ls h ∧
    ls true = [14, 15] ∧ ls false = [16, 17] ∧ Respools crowd h := by
  have hm : Mirrors kinds (fun _ => .empty) (fun _ => []) crowd :=
    .start (by decide +kernel) (by decide +kernel)
  have hr : Respools crowd crowd := ⟨fun _ _ _ => rfl, rfl, rfl, rfl, rfl, rfl, rfl⟩
  obtain ⟨_, _, hm, hr⟩ := hm.joins hr true (c := 14) (by decide) (by decide)
  obtain ⟨_, _, hm, hr⟩ := hm.joins hr false (c := 16) (by decide) (by decide)
  obtain ⟨_, _, hm, hr⟩ := hm.joins hr true (c := 15) (by decide) (by decide)
  obtain ⟨_, _, hm, hr⟩ := hm.joins hr false (c := 17) (by decide) (by decide)
  exact ⟨_, _, _, hm, rfl, rfl, hr⟩

theorem Mirrors.refines_crowd : ∃ qs ls h, Mirrors kinds qs ls h ∧
    (qs true).toList h = .ok [.ref 14, .ref 15] ∧ (qs false).toList h = .ok [.ref 16, .ref 17] ∧
    (∃ q h', (qs true).pop h = .ok (some (.ref 14), q) h' ∧ q.toList h' = .ok [.ref 15] ∧
      (qs false).toList h' = .ok [.ref 16, .ref 17]) ∧
    (∃ q h', Kind.any.put (qs false) (.ref 18) h = .ok q h' ∧
      q.toList h' = .ok [.ref 16, .ref 17, .ref 18] ∧
      (qs true).toList h' = .ok [.ref 14, .ref 15]) ∧
    Kind.events.put (qs true) (.ref 18) h =
      .error (.assertion "event queue accepts only events") h := by
  obtain ⟨qs, ls, h, hm, hevents, hpairs, hr⟩ := Mirrors.exists_lines
  obtain ⟨hreserved, hlive, ha⟩ := members_crowd false 18 (by decide)
  have hnew : ∀ b, 18 ∉ ls b := by
    intro b
    cases b
    · rw [hpairs]
      decide
    · rw [hevents]
      decide
  have hpair : h.isEvent (.ref 18) = false := (hr.hasType _ _).trans (by decide +kernel)
  obtain ⟨htrue, -, -, ⟨q, h', hpop, hrest, hother⟩, -, hrefuse, -⟩ := hm.refines true
  obtain ⟨hfalse, -, -, -, hput, -⟩ := hm.refines false
  obtain ⟨q', h'', hput, hnext, hkept⟩ := hput 18 hreserved (hr.live hlive) hnew (ha.respooled hr)
  have hrefused := hrefuse (.ref 18) fun he => Bool.eq_false_iff.1 hpair he.1
  rw [hevents] at htrue hpop hrest
  rw [hpairs] at hfalse hnext
  refine ⟨qs, ls, h, hm, htrue, hfalse, ⟨q, h', hpop, hrest, ?_⟩, ⟨q', h'', hput, hnext, ?_⟩, ?_⟩
  · rw [hother false (by decide), hpairs]
    rfl
  · rw [hkept true (by decide), hevents]
    rfl
  · simpa [Kind.refusal, kinds, hpair] using hrefused

end Interleaved

end Queue

end ActorMachine
