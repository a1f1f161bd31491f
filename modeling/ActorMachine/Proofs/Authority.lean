import ActorMachine.Machine.Schedule
import ActorMachine.Proofs.Allocator
import ActorMachine.Proofs.Operation

namespace ActorMachine

open Heap

variable {σ α β : Type}
variable {a : α} {C : Nat → Prop} {vs : List Word} {k : α → EStateM Fault σ β} {i : Nat}
  {g : Heap → Except Fault α}

theorem run_bind {act : EStateM Fault σ α} {s s' : σ} (hr : act s = .ok a s') :
    (act >>= k) s = k a s' := by
  change EStateM.bind act k s = _
  unfold EStateM.bind
  rw [hr]

theorem run_bind_error {act : EStateM Fault σ α} {s s' : σ} {f : Fault}
    (hr : act s = .error f s') : (act >>= k) s = .error f s' := by
  change EStateM.bind act k s = _
  unfold EStateM.bind
  rw [hr]

/-- The invariant holds of the state that the action leaves, whatever comes of it, and what is said
of its result is true. -/
def Leaves (I : σ → Prop) (act : EStateM Fault σ α) (R : α → Prop) (s : σ) : Prop :=
  match act s with
  | .ok a s' => I s' ∧ R a
  | .error _ s' => I s'

def Upholds (I : σ → Prop) (act : EStateM Fault σ α) (R : α → Prop) : Prop :=
  ∀ s, I s → Leaves I act R s

namespace Leaves

variable {I : σ → Prop} {act : EStateM Fault σ α} {R : α → Prop} {s s' : σ}

theorem ok (h : Leaves I act R s) (hr : act s = .ok a s') : I s' ∧ R a := by
  unfold Leaves at h
  rwa [hr] at h

theorem error {f : Fault} (h : Leaves I act R s) (hr : act s = .error f s') : I s' := by
  unfold Leaves at h
  rwa [hr] at h

theorem intro (hok : ∀ a s', act s = .ok a s' → I s' ∧ R a)
    (herror : ∀ f s', act s = .error f s' → I s') :
    Leaves I act R s := by
  unfold Leaves
  cases hr : act s with
  | ok a s' => exact hok a s' hr
  | error f s' => exact herror f s' hr

theorem ensures {Q : α → σ → Prop} {E : σ → Prop} (h : Leaves I act R s) (he : Ensures act s Q E) :
    Ensures act s (fun a s' => I s' ∧ Q a s') fun s' => I s' ∧ E s' := by
  unfold Leaves Ensures at *
  cases hr : act s with
  | ok a s' =>
    rw [hr] at h he
    exact ⟨h.1, he⟩
  | error f s' =>
    rw [hr] at h he
    exact he.imp_right fun he => ⟨h, he⟩

theorem final (h : Leaves I act R s) : I (final act s) := by
  unfold ActorMachine.final
  cases hr : act s with
  | ok a s' => exact (h.ok hr).1
  | error f s' => exact h.error hr

theorem bind {Q : β → Prop} (h : Leaves I act R s)
    (hk : ∀ a s', act s = .ok a s' → I s' → R a → Leaves I (k a) Q s') :
    Leaves I (act >>= k) Q s := by
  unfold Leaves
  change match EStateM.bind act k s with
    | .ok a s' => I s' ∧ Q a
    | .error _ s' => I s'
  unfold EStateM.bind
  cases hr : act s with
  | ok a s' => exact hk a s' hr (h.ok hr).1 (h.ok hr).2
  | error f s' => exact h.error hr

theorem lift {J : Heap → Prop} {K : Machine → Prop} {act : HeapM α} {m : Machine}
    (ha : Leaves J act R m.heap)
    (hJ : ∀ h, J h → K { m with heap := h }) : Leaves K (liftM act : MachineM α) R m := by
  refine .intro (fun a m' hr => ?_) fun f m' hr => ?_
  · obtain ⟨h, hact, rfl⟩ := Machine.lift_eq_ok.1 hr
    exact ⟨hJ h (ha.ok hact).1, (ha.ok hact).2⟩
  · obtain ⟨h, hact, rfl⟩ := Machine.lift_eq_error.1 hr
    exact hJ h (ha.error hact)

end Leaves

namespace Upholds

variable {I : σ → Prop} {act other : EStateM Fault σ α} {R : α → Prop}

theorem mono {Q : α → Prop} (h : Upholds I act Q) (hq : ∀ a, Q a → R a) : Upholds I act R :=
  fun s hs =>
  .intro (fun a _ hr => ((h s hs).ok hr).imp_right (hq a)) fun _ _ hr => (h s hs).error hr

theorem ensures {s : σ} (h : Upholds I act R) (hs : I s) :
    Ensures act s (fun a s' => I s' ∧ R a) fun _ => True := by
  unfold Ensures
  cases hr : act s with
  | ok a s' => exact (h s hs).ok hr
  | error f s' => exact .inr trivial

theorem query {J : Heap → Prop} {g : Heap → Except Fault α} :
    Upholds J (Heap.query g) fun _ => True := by
  refine fun h hs => .intro (fun _ h' hr => ⟨?_, trivial⟩) fun _ h' hr => ?_
  all_goals
    unfold Heap.query at hr
    cases hg : g h <;> rw [hg] at hr <;> cases hr
    exact hs

theorem any {Q : α → Prop} (h : Upholds I act Q) : Upholds I act fun _ => True :=
  h.mono fun _ _ => trivial

theorem pure (hr : R a) : Upholds I (pure a) R := fun _ hs => ⟨hs, hr⟩

theorem throw {f : Fault} : Upholds I (throw f : EStateM Fault σ α) R := fun _ hs => hs

theorem bind {Q : β → Prop} (h : Upholds I act R)
    (hk : ∀ a, R a → Upholds I (k a) Q) : Upholds I (act >>= k) Q := fun s hs =>
  (h s hs).bind fun a s' _ hs' ha => hk a ha s' hs'

theorem throw_bind {f : Fault} {k : β → EStateM Fault σ α} :
    Upholds I (MonadExcept.throw f >>= k) R :=
  fun _ hs => hs

theorem ite {c : Prop} [Decidable c] (h₁ : c → Upholds I act R) (h₂ : ¬ c → Upholds I other R) :
    Upholds I (if c then act else other) R := by
  split
  · next h => exact h₁ h
  · next h => exact h₂ h

theorem get : Upholds I (get : EStateM Fault σ σ) I := fun _ hs => ⟨hs, hs⟩

theorem modify {f : σ → σ} (hf : ∀ s, I s → I (f s)) :
    Upholds I (modify f : EStateM Fault σ Unit) fun _ => True := fun s hs => ⟨hf s hs, trivial⟩

theorem foldrM {γ : Type} {f : γ → α → EStateM Fault σ α} {xs : List γ} (ha : R a)
    (hf : ∀ x ∈ xs, ∀ a, R a → Upholds I (f x a) R) : Upholds I (xs.foldrM f a) R := by
  induction xs with
  | nil => exact pure ha
  | cons x xs ih =>
    rw [List.foldrM_cons]
    refine (ih fun y hy => hf y (List.mem_cons_of_mem x hy)).bind fun b hb => ?_
    exact hf x List.mem_cons_self b hb

theorem forM {f : α → EStateM Fault σ PUnit} {xs : List α}
    (hf : ∀ x ∈ xs, Upholds I (f x) fun _ => True) : Upholds I (xs.forM f) fun _ => True := by
  induction xs with
  | nil => exact pure trivial
  | cons x xs ih =>
    exact (hf x List.mem_cons_self).bind fun _ _ => ih fun y hy => hf y (List.mem_cons_of_mem x hy)

theorem mapM {f : α → EStateM Fault σ β} {xs : List α}
    (hf : ∀ x ∈ xs, Upholds I (f x) fun _ => True) :
    Upholds I (xs.mapM f) fun _ => True := by
  induction xs with
  | nil => exact pure trivial
  | cons x xs ih =>
    rw [List.mapM_cons]
    refine (hf x List.mem_cons_self).bind fun _ _ => ?_
    exact (ih fun y hy => hf y (List.mem_cons_of_mem x hy)).bind fun _ _ => pure trivial

end Upholds

/-- The capabilities that cells and registers may hold, and, if types are watched, the cells that
may be actors. -/
structure Authority where
  cells : Nat → Prop
  registers : Nat → Prop
  le : ∀ i, cells i → registers i
  watched : Prop
  actors : Nat → Prop

def Word.Granted (C : Nat → Prop) : Word → Prop
  | .cap i => C i
  | .fixnum _ | .ref _ => True

def Word.Inert (t : Word) : Prop := t ≠ .actorT ∧ t ≠ .instrT

instance (t : Word) : Decidable t.Inert := inferInstanceAs (Decidable (_ ∧ _))

/-- The type of actors is not taken for code, and permanent cells include the reserved ones. -/
structure Heap.Typed (A : Nat → Prop) (h : Heap) : Prop where
  actors : ∀ i, (h.cellAt i).t = .actorT → A i
  markers : ∀ i < Word.reserved, (h.cellAt i).t ≠ .instrT
  permanent : Word.reserved ≤ h.permanent

structure Heap.Vouched (G : Authority) (h : Heap) : Prop where
  words : ∀ i, ∀ w ∈ (h.cellAt i).words, w.Granted G.cells
  spare : h.freeHead.Granted G.cells
  typed : G.watched → h.Typed G.actors

variable {G : Authority} {h h' : Heap} {c : Cell} {v w : Word} {f : Field}

@[simp] theorem Word.granted_ofBool (b : Bool) : (Word.ofBool b).Granted C := by
  cases b <;> exact trivial

theorem Word.Granted.mono {D : Nat → Prop} (hv : v.Granted C) (h : ∀ i, C i → D i) :
    v.Granted D := by
  cases v with
  | cap i => exact h i hv
  | fixnum | ref => trivial

theorem Word.granted_of_forall (hc : ∀ i, C i) : v.Granted C := by
  cases v with
  | cap i => exact hc i
  | fixnum | ref => trivial

theorem Word.granted_of_isRef (hv : v.isRef = true) : v.Granted C := by
  cases v with
  | ref i => trivial
  | fixnum | cap => cases hv

theorem Instruction.granted_operand {op : Opcode} {i : Instruction} (hi : ofOperand op v = .ok i)
    (hv : v.Granted C) : i.operand.Granted C := by
  cases op with
  | typeq | push | eq | branch | debug =>
    cases hi
    exact hv
  | depth | putc | getc =>
    cases hi
    trivial
  | _ =>
    -- The operand is a number, whichever it is.
    simp only [ofOperand, Functor.map, Except.map] at hi
    split at hi <;> cases hi
    trivial

namespace Heap.Vouched

def Admits (G : Authority) (i : Nat) (t : Word) : Prop :=
  G.watched → (t = .actorT → G.actors i) ∧ (t = .instrT → Word.reserved ≤ i)

theorem admits_of_inert {t : Word} (ht : G.watched → t.Inert) : Admits G i t := fun hg =>
  ⟨fun h => absurd h (ht hg).1, fun h => absurd h (ht hg).2⟩

theorem of_cells (hv : h.Vouched G) (hc : ∀ i, h'.cellAt i = h.cellAt i)
    (hf : h'.freeHead.Granted G.cells) (hp : h'.permanent = h.permanent) : h'.Vouched G := by
  refine ⟨fun i => ?_, hf, fun hg => ⟨fun i => ?_, fun i => ?_, ?_⟩⟩
  · rw [hc]
    exact hv.words i
  · rw [hc]
    exact (hv.typed hg).actors i
  · rw [hc]
    exact (hv.typed hg).markers i
  · rw [hp]
    exact (hv.typed hg).permanent

theorem shade (hv : h.Vouched G) (v : Word) : (h.shade v).Vouched G :=
  hv.of_cells (by simp) (by simpa using hv.spare) (by simp)

theorem get (hv : h.Vouched G) (i : Nat) (f : Field) : ((h.cellAt i).get f).Granted G.cells :=
  hv.words i _ (Cell.get_mem_words _ f)

theorem putCell (hv : h.Vouched G) (hc : ∀ w ∈ c.words, w.Granted G.cells) (ht : Admits G i c.t) :
    (h.putCell i c).Vouched G := by
  by_cases hi : i < h.capacity
  · have hcell := h.cellAt_putCell c hi
    refine ⟨fun j => ?_, hv.spare, fun hg => ⟨fun j => ?_, fun j => ?_, (hv.typed hg).permanent⟩⟩
    · rw [hcell j]
      split
      · exact hc
      · exact hv.words j
    · rw [hcell j]
      split
      · next hj => exact fun hact => hj ▸ (ht hg).1 hact
      · exact (hv.typed hg).actors j
    · rw [hcell j]
      split
      · next hj =>
        intro hlt hcode
        exact absurd ((ht hg).2 hcode) (Nat.not_le.2 (hj ▸ hlt))
      · exact (hv.typed hg).markers j
  · have hsame : h.putCell i c = h := by
      unfold Heap.putCell
      rw [Array.setIfInBounds_eq_of_size_le (Nat.not_lt.1 hi)]
    rw [hsame]
    exact hv

theorem reclaim (hv : h.Vouched G) : (h.reclaim i).Vouched G := by
  have hput : (h.putCell i ⟨.freeT, .undefined, .undefined, h.freeHead⟩).Vouched G := by
    refine hv.putCell ?_ (admits_of_inert fun _ => (by decide : Word.freeT.Inert))
    rw [Cell.forall_words]
    exact ⟨trivial, trivial, trivial, hv.spare⟩
  exact hput.of_cells (fun _ => rfl) trivial rfl

def next (h : Heap) : Nat := if h.freeHead ≠ .nil then h.freeHead.index else h.top

theorem next_reclaim (hi : Word.reserved ≤ i) : next (h.reclaim i) = i := by
  unfold next
  refine if_pos fun hn => ?_
  rw [Word.ref.inj hn] at hi
  exact absurd hi (by decide)

theorem alloc_next (hr : alloc c h = .ok v h') : v.index = next h := by
  unfold alloc at hr
  unfold next
  split at hr
  · next hn =>
    cases hr
    exact (if_pos hn).symm
  · next hn =>
    rw [if_neg hn]
    split at hr
    · cases hr
      rfl
    · cases hr

variable (hv : h.Vouched G)

include hv

theorem alloc (hc : ∀ w ∈ c.words, w.Granted G.cells) (ht : Admits G (next h) c.t) :
    Leaves (Vouched G) (alloc c) (Word.Granted G.cells) h := by
  refine .intro (fun v h' hr => ?_) fun f h' hr => ?_
  · rw [← alloc_next hr] at ht
    unfold Heap.alloc at hr
    split at hr
    · cases hr
      refine ⟨(putCell ?_ hc ht).shade _, hv.spare⟩
      exact hv.of_cells (fun _ => rfl) (hv.get _ .z) rfl
    · split at hr
      · cases hr
        refine ⟨(putCell ?_ hc ht).shade _, trivial⟩
        exact hv.of_cells (fun _ => rfl) hv.spare rfl
      · cases hr
  · obtain ⟨-, -, -, rfl⟩ := alloc_error hr
    exact hv

theorem car (v : Word) : (h.car v).Granted G.cells := by
  unfold Heap.car
  split
  · exact hv.get _ .x
  · trivial

theorem cdr (v : Word) : (h.cdr v).Granted G.cells := by
  unfold Heap.cdr
  split
  · exact hv.get _ .y
  · trivial

theorem nth (n : Int) (hw : v.Granted G.cells) : (h.nth v n).Granted G.cells := by
  unfold Heap.nth
  split
  · exact hw
  · split
    · split
      · exact hv.car _
      · exact hv.cdr _
    · trivial

theorem repeat_cdr (n : Nat) (hw : v.Granted G.cells) : (Nat.repeat h.cdr n v).Granted G.cells := by
  cases n with
  | zero => exact hw
  | succ n => exact hv.cdr _

theorem firstItems (n : Nat) (v : Word) : ∀ w ∈ h.firstItems n v, w.Granted G.cells := by
  induction n generalizing v with
  | zero => exact fun w hw => absurd hw List.not_mem_nil
  | succ n ih =>
    intro w hw
    obtain rfl | hw := List.mem_cons.1 hw
    · exact hv.car v
    · exact ih _ w hw

theorem splitItems {n : Nat} (hw : v.Granted G.cells)
    (hs : h.splitItems n v = .ok (vs, w)) : (∀ u ∈ vs, u.Granted G.cells) ∧ w.Granted G.cells := by
  induction n generalizing v vs with
  | zero =>
    cases hs
    exact ⟨fun u hu => absurd hu List.not_mem_nil, hw⟩
  | succ n ih =>
    unfold splitItems at hs
    split at hs
    · cases hr : h.splitItems n (h.cdr v) with
      | error f =>
        rw [hr] at hs
        cases hs
      | ok r =>
        rw [hr] at hs
        cases hs
        obtain ⟨hvs, hrest⟩ := ih (hv.cdr v) hr
        exact ⟨List.forall_mem_cons.2 ⟨hv.car v, hvs⟩, hrest⟩
    · cases hs

theorem items (hs : h.items v = .ok vs) : ∀ w ∈ vs, w.Granted G.cells := by
  unfold Heap.items at hs
  cases hr : h.spine (h.budget "list_to_vec") v with
  | error f =>
    rw [hr] at hs
    cases hs
  | ok ps =>
    rw [hr] at hs
    cases hs
    intro w hw
    obtain ⟨p, -, rfl⟩ := List.mem_map.1 hw
    exact hv.car p

theorem find {hash chars chain sym : Word} {b : Budget}
    (hf : SymbolTable.find? h hash chars b chain = .ok (some sym)) : sym.Granted G.cells := by
  obtain ⟨p, -, rfl⟩ := SymbolTable.find?_listed (R := fun _ => True) (fun _ => id) trivial hf
  exact hv.car p

theorem inert_of_isCode (hc : h.isCode v = true) : G.watched → v.Inert := by
  intro hg
  obtain ⟨i, rfl, -, ht⟩ := hasType_iff.1 hc
  have hm := (hv.typed hg).markers
  constructor <;> intro he <;> cases he <;> exact hm _ (by decide) ht

theorem instruction {i : Instruction} {next : Word} (hi : h.instruction v = .ok (i, next)) :
    i.operand.Granted G.cells ∧ next.Granted G.cells := by
  unfold Heap.instruction at hi
  split at hi
  · dsimp only at hi
    cases ho : Instruction.ofCell (h.cellAt v.index) with
    | error f =>
      rw [ho] at hi
      cases hi
    | ok i' =>
      rw [ho] at hi
      cases hi
      refine ⟨?_, hv.get _ .z⟩
      unfold Instruction.ofCell at ho
      split at ho
      · exact Instruction.granted_operand ho (hv.get _ .y)
      · cases ho
  · cases hi

end Heap.Vouched

theorem Heap.granted_parseFixnum {h : Heap} {b : Budget} {k : Numeral} {v w : Word}
    (hw : parseFixnum.go h b k v = .ok w) : w.Granted C := by
  fun_induction parseFixnum.go h b k v with
  | case1 => cases hw
  | case2 b k v _ b' _ k' _ ih => exact ih hw
  | case3 =>
    cases hw
    trivial
  | case4 =>
    cases hw
    trivial

abbrev Heap.Honest (G : Authority) (act : HeapM α) (R : α → Prop) : Prop :=
  Upholds (Heap.Vouched G) act R

namespace Heap

theorem honest_query {R : α → Prop} (hg : ∀ h a, h.Vouched G → g h = .ok a → R a) :
    Honest G (query g) R := by
  intro h hv
  unfold Leaves query
  cases hr : g h with
  | ok a => exact ⟨hv, hg h a hv hr⟩
  | error f => exact hv

theorem honest_fetch : Honest G (fetch v f) fun w => w.Granted G.cells ∧ v.isRef = true := by
  refine honest_query fun h w hv hr => ?_
  unfold field cell at hr
  split at hr
  · next hc =>
    cases hr
    obtain ⟨i, rfl, -⟩ := isCell_iff.1 hc
    exact ⟨hv.get _ f, rfl⟩
  · cases hr

theorem honest_storeAt (hw : w.Granted G.cells) (ht : f = .t → Vouched.Admits G v.index w) :
    Honest G (store v f w) fun _ => True := by
  intro h hv
  unfold Leaves
  by_cases hc : h.isCell v = true
  · simp only [store, hc, if_true]
    refine ⟨(hv.putCell (fun u hu => ?_) ?_).shade w, trivial⟩
    · obtain rfl | hu := Cell.mem_words_set hu
      · exact hw
      · exact hv.words _ u hu
    · cases f with
      | t => exact ht rfl
      | x | y | z =>
        intro hg
        refine ⟨(hv.typed hg).actors v.index, fun hcode => ?_⟩
        exact Nat.not_lt.1 fun hlt => (hv.typed hg).markers v.index hlt hcode
  · simp only [store, hc]
    exact hv

theorem honest_store (hw : w.Granted G.cells) (hf : f ≠ .t) :
    Honest G (store v f w) fun _ => True :=
  honest_storeAt hw fun h => absurd h hf

theorem honest_alloc (hc : ∀ w ∈ c.words, w.Granted G.cells) (ht : G.watched → c.t.Inert) :
    Honest G (alloc c) (Word.Granted G.cells) :=
  fun _ hv => hv.alloc hc (Vouched.admits_of_inert ht)

theorem honest_cons (hv : v.Granted G.cells) (hw : w.Granted G.cells) :
    Honest G (cons v w) (Word.Granted G.cells) :=
  honest_alloc (Cell.forall_words.2 ⟨trivial, hv, hw, trivial⟩) fun _ =>
  (by decide : Word.pairT.Inert)

theorem honest_prepend (hv : ∀ v ∈ vs, v.Granted G.cells) (hw : w.Granted G.cells) :
    Honest G (prepend vs w) (Word.Granted G.cells) :=
  Upholds.foldrM hw fun v hm _ ha => honest_cons (hv v hm) ha

theorem honest_ofItems (hv : ∀ v ∈ vs, v.Granted G.cells) :
    Honest G (ofItems vs) (Word.Granted G.cells) := honest_prepend hv trivial

theorem honest_free : Honest G (free v) fun _ => True := by
  intro h hv
  refine .intro (fun u h' hr => ?_) fun f h' hr => ?_
  · obtain ⟨-, -, -, rfl⟩ := free_ok hr
    exact ⟨hv.reclaim, trivial⟩
  · rw [free_error hr]
    exact hv

theorem honest_freeSpine : Honest G (freeSpine v) fun _ => True := by
  have hgo : ∀ b v, Honest G (freeSpine.go b v) fun _ => True := by
    rintro ⟨n, task⟩
    induction n with
    | zero =>
      intro v
      unfold freeSpine.go
      refine Upholds.get.bind fun h _ => ?_
      exact .ite (fun _ => .throw) fun _ => .pure trivial
    | succ n ih =>
      intro v
      unfold freeSpine.go
      refine Upholds.get.bind fun h _ => ?_
      exact .ite (fun _ => honest_free.bind fun _ _ => ih _) fun _ => .pure trivial
  exact Upholds.get.bind fun h _ => hgo _ v

theorem honest_setCdr (hw : w.Granted G.cells) : Honest G (setCdr v w) fun _ => True := by
  refine Upholds.get.bind fun h _ => ?_
  refine .ite (fun _ => ?_) fun _ => .pure trivial
  exact (honest_store hw (by simp)).bind fun _ _ => .pure trivial

theorem honest_shade : Honest G (modify fun h => h.shade v) fun _ => True :=
  .modify fun _ hv => hv.shade v

end Heap

namespace Queue

variable {q : Queue}

def Granted (C : Nat → Prop) (q : Queue) : Prop := q.head.Granted C ∧ q.tail.Granted C

theorem honest_put (hq : q.Granted G.registers) (hv : v.Granted G.cells) :
    Honest G (q.put v) (Granted G.registers) := by
  have hv' : v.Granted G.registers := hv.mono G.le
  refine (honest_store (by trivial) (by simp)).bind fun _ _ => ?_
  have hrest : Honest G (do
      modify fun h => h.shade v
      return (⟨if q.isEmpty then v else q.head, v⟩ : Queue)) (Granted G.registers) := by
    refine honest_shade.bind fun _ _ => .pure ⟨?_, hv'⟩
    dsimp only
    split
    · exact hv'
    · exact hq.1
  exact .ite (fun _ => (honest_store hv (by simp)).bind fun _ _ => hrest) fun _ => hrest

theorem honest_putEvent (hq : q.Granted G.registers) (hv : v.Granted G.cells) :
    Honest G (q.putEvent v) (Granted G.registers) := by
  refine Upholds.get.bind fun h _ => .ite (fun _ => .throw_bind) fun _ => ?_
  refine honest_fetch.bind fun target _ => ?_
  exact Upholds.get.bind fun h _ => .ite (fun _ => .throw_bind) fun _ => honest_put hq hv

theorem honest_pop (hq : q.Granted G.registers) :
    Honest G q.pop fun r => (∀ w ∈ r.1, w.isRef = true) ∧ r.2.Granted G.registers := by
  refine .ite (fun _ => .pure ⟨by simp, hq⟩) fun _ => ?_
  refine honest_fetch.bind fun head ⟨hw, href⟩ => ?_
  refine (honest_store (by trivial) (by simp)).bind fun _ _ =>
    .pure ⟨by simpa using href, hw.mono G.le, ?_⟩
  · dsimp only
    split
    · trivial
    · exact hq.2

end Queue

structure Machine.Vouched (G : Authority) (m : Machine) : Prop where
  heap : m.heap.Vouched G
  symbols : ∀ w ∈ m.symbols.buckets.toList, w.Granted G.cells
  events : m.events.Granted G.registers
  threads : m.threads.Granted G.registers
  pinned : ∀ w ∈ m.pinned, w.Granted G.registers
  clock : ∀ w ∈ m.clock.map Clock.handler, w.Granted G.registers

def Authority.plain (C : Nat → Prop) : Authority := ⟨C, C, fun _ h => h, False, fun _ => True⟩

theorem Heap.vouched_of_forall (hc : ∀ i, C i) (h : Heap) : h.Vouched (.plain C) :=
  ⟨fun _ _ _ => Word.granted_of_forall hc, Word.granted_of_forall hc, fun h => h.elim⟩

theorem Machine.vouched_of_forall (hc : ∀ i, C i) (m : Machine) : m.Vouched (.plain C) := by
  have hall : ∀ {w : Word}, w.Granted C := Word.granted_of_forall hc
  exact ⟨m.heap.vouched_of_forall hc, fun _ _ => hall, ⟨hall, hall⟩, ⟨hall, hall⟩, fun _ _ => hall,
    fun _ _ => hall⟩

abbrev Machine.Honest (G : Authority) (act : MachineM α) (R : α → Prop) : Prop :=
  Upholds (Machine.Vouched G) act R

def Instruction.isAloof : Instruction → Bool
  | convert .listToSymbol | putc | getc => false
  | _ => true

namespace Machine

variable {m : Machine} {n : Int}

theorem Vouched.withHeap (hm : m.Vouched G) (hv : h.Vouched G) :
    ({ m with heap := h } : Machine).Vouched G :=
  ⟨hv, hm.symbols, hm.events, hm.threads, hm.pinned, hm.clock⟩

theorem ask_eq_ok {m' : Machine} : ask g m = .ok a m' ↔ m' = m ∧ g m.heap = .ok a := by
  have hl : ask g m = onHeap (query g) m := rfl
  rw [hl]
  unfold onHeap query
  dsimp only
  cases hg : g m.heap with
  | ok b =>
    constructor
    · intro h
      cases h
      exact ⟨rfl, rfl⟩
    · rintro ⟨rfl, h⟩
      cases h
      rfl
  | error f => simp

theorem upholds_thread {I : Machine → Prop} : Upholds I thread fun _ => True :=
  Upholds.get.bind fun _ _ => .pure trivial

theorem upholds_checkType {I : Machine → Prop} (op : String) :
    Upholds I (checkType op v) fun _ => v ≠ .actorT :=
  .ite (fun _ => .throw_bind) fun h => .ite (fun _ => .throw) fun _ => .pure h

/-- An invariant that goes with what is vouched for. Nothing breaks it but a change of the symbols
or of the console. -/
structure Shelters (G : Authority) (I : Machine → Prop) : Prop where
  vouched : ∀ {m}, I m → m.Vouched G
  carry : ∀ {m m' : Machine}, I m → m'.Vouched G → m'.symbols = m.symbols →
  m'.console = m.console → I m'

theorem sheltered : Shelters G (Vouched G) := ⟨id, fun _ hm _ _ => hm⟩

theorem shelters_letters {I : Machine → Prop}
    (hI : ∀ {m m' : Machine}, I m → m'.symbols = m.symbols → m'.console = m.console → I m') :
    Shelters (.plain fun _ => True) I :=
  ⟨fun _ => vouched_of_forall (fun _ => trivial) _, fun hm _ => hI hm⟩

namespace Shelters

variable {I : Machine → Prop} (hI : Shelters G I)

include hI

theorem reckon (hm : I m) {m' : Machine}
    (hm' : m' = { m with log := m'.log, stats := m'.stats, trace := m'.trace }) :
    I m' := by
  rw [hm']
  have hv := hI.vouched hm
  exact hI.carry hm ⟨hv.heap, hv.symbols, hv.events, hv.threads, hv.pinned, hv.clock⟩ rfl rfl

theorem leaves_lift {act : HeapM α} {R : α → Prop} (hm : I m)
    (ha : Leaves (Heap.Vouched G) act R m.heap) :
    Leaves I (liftM act : MachineM α) R m := ha.lift fun _ hv =>
      hI.carry hm ((hI.vouched hm).withHeap hv) rfl rfl

protected theorem lift {act : HeapM α} {R : α → Prop} (ha : Heap.Honest G act R) :
    Upholds I (liftM act : MachineM α) R := fun m hm =>
      hI.leaves_lift hm (ha m.heap (hI.vouched hm).heap)

protected theorem look {g : Heap → α} {R : α → Prop} (hg : ∀ h, h.Vouched G → R (g h)) :
    Upholds I (look g) R :=
  fun m hm => ⟨hm, hg m.heap (hI.vouched hm).heap⟩

theorem see {g : Heap → α} : Upholds I (look g) fun _ => True := hI.look fun _ _ => trivial

protected theorem ask {R : α → Prop} (hg : ∀ h a, h.Vouched G → g h = .ok a → R a) :
    Upholds I (ask g) R :=
  hI.lift (Heap.honest_query hg)

protected theorem note (n : Notice) : Upholds I (note n) fun _ => True :=
  .modify fun _ hm => hI.reckon hm rfl

protected theorem noteAll (ns : List Notice) : Upholds I (noteAll ns) fun _ => True :=
  .modify fun _ hm => hI.reckon hm rfl

protected theorem noteDispatch (n : Notice) : Upholds I (noteDispatch n) fun _ => True :=
  Upholds.get.bind fun _ _ => .ite (fun _ => hI.note n) fun _ => .pure trivial

protected theorem count (f : Stats → Stats) : Upholds I (count f) fun _ => True :=
  .modify fun _ hm => hI.reckon hm rfl

protected theorem fetch : Upholds I (liftM (Heap.fetch v f) : MachineM Word) fun w =>
    w.Granted G.cells :=
  hI.lift (Heap.honest_fetch.mono fun _ hw => hw.1)

protected theorem store (hw : w.Granted G.cells) (hf : f ≠ .t) :
    Upholds I (liftM (Heap.store v f w) : MachineM Unit) fun _ => True :=
  hI.lift (Heap.honest_store hw hf)

protected theorem free : Upholds I (liftM (Heap.free v) : MachineM Unit) fun _ => True :=
  hI.lift Heap.honest_free

theorem withEvents {q : Queue} (hm : I m) (hq : q.Granted G.registers) : I { m with events := q } :=
  have hv := hI.vouched hm
  hI.carry hm ⟨hv.heap, hv.symbols, hq, hv.threads, hv.pinned, hv.clock⟩ rfl rfl

theorem withThreads {q : Queue} (hm : I m) (hq : q.Granted G.registers) :
    I { m with threads := q } :=
  have hv := hI.vouched hm
  hI.carry hm ⟨hv.heap, hv.symbols, hv.events, hq, hv.pinned, hv.clock⟩ rfl rfl

protected theorem putEvent (hv : v.Granted G.cells) : Upholds I (putEvent v) fun _ => True := by
  refine Upholds.get.bind fun m hm => ?_
  refine (hI.lift (Queue.honest_putEvent (hI.vouched hm).events hv)).bind fun q hq => ?_
  exact .modify fun m hm => hI.withEvents hm hq

protected theorem popEvent : Upholds I popEvent fun r => ∀ w ∈ r, w.isRef = true := by
  refine Upholds.get.bind fun m hm => ?_
  refine (hI.lift (Queue.honest_pop (hI.vouched hm).events)).bind fun r hr => ?_
  exact Upholds.bind (.modify fun m hm => hI.withEvents hm hr.2) fun _ _ => .pure hr.1

protected theorem putThread (hv : v.Granted G.cells) : Upholds I (putThread v) fun _ => True := by
  refine Upholds.get.bind fun m hm => ?_
  refine (hI.lift (Queue.honest_put (hI.vouched hm).threads hv)).bind fun q hq => ?_
  exact .modify fun m hm => hI.withThreads hm hq

protected theorem popThread : Upholds I popThread fun r => ∀ w ∈ r, w.isRef = true := by
  refine Upholds.get.bind fun m hm => ?_
  refine (hI.lift (Queue.honest_pop (hI.vouched hm).threads)).bind fun r hr => ?_
  exact Upholds.bind (.modify fun m hm => hI.withThreads hm hr.2) fun _ _ => .pure hr.1

protected theorem stack : Upholds I stack (Word.Granted G.cells) :=
  upholds_thread.bind fun _ _ => hI.fetch

protected theorem setStack (hv : v.Granted G.cells) : Upholds I (setStack v) fun _ => True :=
  upholds_thread.bind fun _ _ => hI.store hv (by simp)

protected theorem push (hv : v.Granted G.cells) : Upholds I (push v) fun _ => True := by
  refine hI.stack.bind fun sp hsp => ?_
  exact (hI.lift (Heap.honest_cons hv hsp)).bind fun sp' hsp' => hI.setStack hsp'

protected theorem pushAll (hv : ∀ v ∈ vs, v.Granted G.cells) :
    Upholds I (pushAll vs) fun _ => True :=
  .forM fun v hm => hI.push (hv v (List.mem_reverse.1 hm))

protected theorem pop : Upholds I pop (Word.Granted G.cells) := by
  refine hI.stack.bind fun sp hsp => ?_
  refine hI.see.bind fun b _ => .ite (fun _ => ?_) fun _ => ?_
  · refine (hI.look fun h hv => hv.car sp).bind fun item hitem => ?_
    refine (hI.look fun h hv => hv.cdr sp).bind fun rest hrest => ?_
    refine (hI.setStack hrest).bind fun _ _ => ?_
    exact hI.free.bind fun _ _ => .pure hitem
  · refine upholds_thread.bind fun t _ => hI.fetch.bind fun ip _ => ?_
    exact (hI.note _).bind fun _ _ => .pure trivial

protected theorem popN (n : Nat) : Upholds I (popN n) fun vs => ∀ v ∈ vs, v.Granted G.cells := by
  induction n with
  | zero => exact .pure fun v hv => absurd hv List.not_mem_nil
  | succ n ih =>
    refine hI.pop.bind fun v hv => ih.bind fun vs hvs => ?_
    exact .pure (List.forall_mem_cons.2 ⟨hv, hvs⟩)

protected theorem popNumber (op : String) : Upholds I (popNumber op) fun _ => True := by
  refine hI.pop.bind fun v _ => ?_
  split
  · exact .pure trivial
  · exact .throw

protected theorem depth : Upholds I depth fun _ => True :=
  hI.stack.bind fun _ _ => hI.ask fun _ _ _ _ => trivial

protected theorem stackCount (op : String) (n : Int) :
    Upholds I (stackCount op n) fun _ => True := by
  refine .ite (fun _ => .throw_bind) fun _ => hI.depth.bind fun d _ => ?_
  exact .ite (fun _ => .throw_bind) fun _ => .pure trivial

protected theorem clearStack : Upholds I clearStack fun _ => True := by
  refine hI.stack.bind fun sp _ => (hI.setStack (by trivial)).bind fun _ _ => ?_
  exact hI.lift Heap.honest_freeSpine

protected theorem setCdr (hw : w.Granted G.cells) : Upholds I (setCdr v w) fun _ => True :=
  (hI.lift (Heap.honest_setCdr hw)).bind fun _ _ => hI.noteAll _

protected theorem carve (op : String) (n : Int) :
    Upholds I (carve op n) (Word.Granted G.cells) := by
  refine .ite (fun _ => .throw_bind) fun _ => .ite (fun _ => .pure trivial) fun _ => ?_
  refine hI.depth.bind fun d _ => .ite (fun _ => .throw_bind) fun _ => ?_
  refine hI.stack.bind fun top htop => ?_
  refine (hI.look fun h hv => hv.repeat_cdr _ htop).bind fun last _ => ?_
  refine (hI.look fun h hv => hv.cdr last).bind fun rest hrest => ?_
  refine (hI.setStack hrest).bind fun _ _ => ?_
  exact (hI.setCdr (by trivial)).bind fun _ _ => .pure htop

protected theorem dropItems (n : Int) : Upholds I (dropItems n) fun _ => True := by
  refine hI.depth.bind fun d _ => (hI.popN _).bind fun _ _ => ?_
  exact .ite (fun _ => hI.pop.bind fun _ _ => .pure trivial) fun _ => .pure trivial

protected theorem pick (n : Int) : Upholds I (pick n) fun _ => True := by
  refine .ite (fun _ => ?_) fun _ => hI.push (by trivial)
  refine hI.stack.bind fun sp hsp => ?_
  exact (hI.look fun h hv => hv.nth n hsp).bind fun v hv => hI.push hv

protected theorem dup (n : Int) : Upholds I (dup n) fun _ => True := by
  refine hI.depth.bind fun d _ => .ite (fun _ => .throw_bind) fun _ => ?_
  refine hI.stack.bind fun sp _ => ?_
  exact (hI.look fun h hv => hv.firstItems _ sp).bind fun vs hvs => hI.pushAll hvs

protected theorem roll (n : Int) : Upholds I (roll n) fun _ => True := by
  refine hI.depth.bind fun d _ => .ite (fun _ => ?_) fun _ => .pure trivial
  refine .ite (fun _ => ?_) fun _ => hI.stack.bind fun sp hsp => .ite (fun _ => ?_) fun _ => ?_
  · exact .ite (fun _ => hI.push (by trivial)) fun _ => hI.pop.bind fun _ _ => .pure trivial
  · refine (hI.look fun h hv => hv.repeat_cdr _ hsp).bind fun before _ => ?_
    refine (hI.look fun h hv => hv.cdr before).bind fun moved hmoved => ?_
    refine (hI.look fun h hv => hv.cdr moved).bind fun rest hrest => ?_
    refine (hI.setCdr hrest).bind fun _ _ => (hI.setCdr hsp).bind fun _ _ => ?_
    exact hI.setStack hmoved
  · refine (hI.look fun h hv => hv.repeat_cdr _ hsp).bind fun after _ => ?_
    refine (hI.look fun h hv => hv.cdr sp).bind fun rest hrest => ?_
    refine (hI.setStack hrest).bind fun _ _ => ?_
    refine (hI.look fun h hv => hv.cdr after).bind fun last hlast => ?_
    exact (hI.setCdr hlast).bind fun _ _ => hI.setCdr hsp

protected theorem event : Upholds I event fun _ => True :=
  upholds_thread.bind fun _ _ => hI.fetch.any

protected theorem me : Upholds I me fun w => ∃ i, w = .ref i ∧ G.cells i := by
  refine hI.event.bind fun e _ => hI.fetch.bind fun target ht => ?_
  have hactor : Upholds I (look (·.isActor target)) fun b => b = true → ∃ i, target = .cap i := by
    refine hI.look fun h _ hb => ?_
    obtain ⟨i, rfl, -⟩ := isActor_iff.1 hb
    exact ⟨i, rfl⟩
  refine hactor.bind fun b hb => .ite (fun _ => .throw_bind) fun hn => .pure ?_
  obtain ⟨i, rfl⟩ := hb (by simpa using hn)
  exact ⟨i, rfl, ht⟩

protected theorem takeBecome :
    Upholds I takeBecome fun r => ∀ p ∈ r, p.1.Granted G.cells ∧ p.2.Granted G.cells := by
  refine hI.event.bind fun e _ => hI.fetch.bind fun staged _ => ?_
  refine hI.see.bind fun b _ => .ite (fun _ => ?_) fun _ => .pure (by simp)
  refine (hI.look fun h hv => hv.car staged).bind fun beh hb => ?_
  refine (hI.look fun h hv => hv.cdr staged).bind fun state hs => ?_
  refine (hI.store (by trivial) (by simp)).bind fun _ _ => hI.free.bind fun _ _ => ?_
  exact .pure (by simpa using ⟨hb, hs⟩)

protected theorem discardBecome : Upholds I discardBecome fun _ => True := by
  refine hI.takeBecome.bind fun r _ => ?_
  split
  · exact hI.lift Heap.honest_freeSpine
  · exact .pure trivial

protected theorem stageBecome (hv : v.Granted G.cells) (hw : w.Granted G.cells) :
    Upholds I (stageBecome v w) fun _ => True := by
  refine hI.discardBecome.bind fun _ _ => (hI.lift (Heap.honest_cons hv hw)).bind
    fun staged hs => ?_
  exact hI.event.bind fun _ _ => hI.store hs (by simp)

protected theorem pendingSends : Upholds I (pendingSends v) fun _ => True :=
  hI.ask fun _ _ _ _ => trivial

protected theorem deliver : Upholds I (deliver v) fun _ => True := by
  refine (hI.lift Heap.honest_fetch).bind fun target ⟨_, hv⟩ => hI.see.bind fun b _ => ?_
  refine .ite (fun _ => ?_) fun _ => ?_
  · exact (hI.putEvent (Word.granted_of_isRef hv)).bind fun _ _ => .pure trivial
  · refine (hI.note _).bind fun _ _ => hI.free.bind fun _ _ => ?_
    exact (hI.count _).bind fun _ _ => .pure trivial

protected theorem flushSends : Upholds I (flushSends v) fun _ => True := by
  refine hI.pendingSends.bind fun es _ => ?_
  exact (Upholds.mapM fun e _ => hI.deliver).bind fun _ _ => .pure trivial

protected theorem abortTransaction : Upholds I abortTransaction fun _ => True := by
  refine hI.me.bind fun a _ => hI.discardBecome.bind fun _ _ => hI.clearStack.bind fun _ _ => ?_
  refine hI.pendingSends.bind fun es _ => (Upholds.forM fun e _ => hI.free).bind fun _ _ => ?_
  exact (hI.store (by trivial) (by simp)).bind fun _ _ => hI.count _

protected theorem stopTransaction : Upholds I (stopTransaction v) fun _ => True := by
  refine hI.discardBecome.bind fun _ _ => hI.clearStack.bind fun _ _ => ?_
  exact (hI.count _).bind fun _ _ => hI.note _

protected theorem commitTransaction : Upholds I (commitTransaction v) fun _ => True := by
  refine hI.clearStack.bind fun _ _ => hI.takeBecome.bind fun r hr => ?_
  have hrest : Upholds I (do
      let sent ← flushSends v
      store v .z .undefined
      count fun s => { s with commits := s.commits + 1 }
      noteDispatch (.committed v.toCap sent)) fun _ => True := by
    refine hI.flushSends.bind fun sent _ => (hI.store (by trivial) (by simp)).bind fun _ _ => ?_
    exact (hI.count _).bind fun _ _ => hI.noteDispatch _
  cases r with
  | none => exact hrest
  | some p =>
    obtain ⟨hb, hs⟩ := hr p rfl
    refine (hI.store hb (by simp)).bind fun _ _ => ?_
    exact (hI.store hs (by simp)).bind fun _ _ => hrest

protected theorem releaseActor : Upholds I (releaseActor v) fun _ => True := by
  refine hI.discardBecome.bind fun _ _ => hI.clearStack.bind fun _ _ => ?_
  refine hI.flushSends.bind fun sent _ => (hI.store (by trivial) (by simp)).bind fun _ _ => ?_
  have hrest : Upholds I (do
      count fun s => { s with releases := s.releases + 1 }
      note (.released v.toCap sent)) fun _ => True := (hI.count _).bind fun _ _ => hI.note _
  refine hI.see.bind fun b _ => .ite (fun _ => ?_) fun _ => hI.free.bind fun _ _ => hrest
  exact (hI.note _).bind fun _ _ => (hI.store (by trivial) (by simp)).bind fun _ _ => hrest

protected theorem endTransaction (e : Ending) : Upholds I (endTransaction e) fun _ => True := by
  refine hI.me.bind fun a _ => ?_
  cases e with
  | abort =>
    refine hI.pop.bind fun reason _ => ?_
    exact (hI.note _).bind fun _ _ => hI.abortTransaction
  | stop => exact hI.stopTransaction
  | commit => exact hI.commitTransaction
  | release => exact hI.releaseActor

protected theorem typeTest : Upholds I (typeTest v) fun _ => True := by
  refine hI.pop.bind fun w _ => ?_
  refine .ite (fun _ => hI.push (by simp)) fun _ => ?_
  exact .ite (fun _ => hI.see.bind fun _ _ => hI.push (by simp)) fun _ =>
    hI.see.bind fun _ _ => hI.push (by simp)

theorem ensures_pop (hm : I m) (hg : G.watched) :
    Ensures pop m (fun v m' => v ≠ .undefined → Word.reserved ≤ Heap.Vouched.next m'.heap)
      fun _ => True := by
  refine (hI.stack.ensures hm).bind fun sp m₁ ⟨hm₁, _⟩ => ?_
  rw [ensures_look_bind]
  refine .ite (fun _ => ?_) fun _ => ?_
  · rw [ensures_look_bind, ensures_look_bind]
    refine ((hI.setStack ((hI.vouched hm₁).heap.cdr sp)).ensures hm₁).bind fun _ m₂ ⟨hm₂, _⟩ => ?_
    refine Ensures.bind (Q := fun _ m' => Word.reserved ≤ Heap.Vouched.next m'.heap) ?_
      fun _ _ h _ => h
    rw [ensures_onHeap]
    unfold Ensures
    cases hr : free sp m₂.heap with
    | ok u h =>
      obtain ⟨hp, -, -, rfl⟩ := free_ok hr
      have hle := Nat.le_trans ((hI.vouched hm₂).heap.typed hg).permanent hp
      change Word.reserved ≤ Heap.Vouched.next (m₂.heap.reclaim sp.index)
      rwa [Heap.Vouched.next_reclaim hle]
    | error f h => exact .inr trivial
  · exact Ensures.any.bind fun _ _ _ => Ensures.any.bind fun _ _ _ =>
      Ensures.any.bind fun _ _ _ h => absurd rfl h

protected theorem cellOf {x y z : Word} (hx : x.Granted G.cells) (hy : y.Granted G.cells)
    (hz : z.Granted G.cells) : Upholds I (do
      let t ← pop
      checkType "cell" t
      let cell ← alloc ⟨t, x, y, z⟩
      push cell) fun _ => True := by
  intro m hm
  refine (hI.pop m hm).bind fun t m₁ hr hm₁ ht => ?_
  unfold checkType
  by_cases hactor : t = .actorT
  · rw [if_pos hactor]
    exact hm₁
  by_cases hfree : t = .freeT
  · rw [if_neg hactor, if_pos hfree]
    exact hm₁
  rw [if_neg hactor, if_neg hfree]
  have hadmits : Heap.Vouched.Admits G (Heap.Vouched.next m₁.heap) t := fun hg =>
    ⟨fun h => absurd h hactor, fun h => (hI.ensures_pop hm hg).ok hr (by rw [h]; decide)⟩
  have halloc := (hI.vouched hm₁).heap.alloc (c := ⟨t, x, y, z⟩)
    (Cell.forall_words.2 ⟨ht, hx, hy, hz⟩) hadmits
  exact (hI.leaves_lift hm₁ halloc).bind fun w m₂ _ hm₂ hw => hI.push hw m₂ hm₂

protected theorem makeCell (n : Int) : Upholds I (makeCell n) fun _ => True := by
  refine .ite (fun _ => .throw_bind) fun _ => ?_
  have hx : ∀ y z : Word, y.Granted G.cells → z.Granted G.cells → Upholds I (do
      let x ← if 1 < n then pop else pure .undefined
      let t ← pop
      checkType "cell" t
      let cell ← alloc ⟨t, x, y, z⟩
      push cell) fun _ => True := fun y z hy hz =>
    .ite (fun _ => hI.pop.bind fun x hx => hI.cellOf hx hy hz) fun _ => hI.cellOf trivial hy hz
  have hy : ∀ z : Word, z.Granted G.cells → Upholds I (do
      let y ← if 2 < n then pop else pure .undefined
      let x ← if 1 < n then pop else pure .undefined
      let t ← pop
      checkType "cell" t
      let cell ← alloc ⟨t, x, y, z⟩
      push cell) fun _ => True := fun z hz =>
    .ite (fun _ => hI.pop.bind fun y hy => hx y z hy hz) fun _ => hx _ z trivial hz
  exact .ite (fun _ => hI.pop.bind fun z hz => hy z hz) fun _ => hy _ trivial

protected theorem getField (f : Field) : Upholds I (getField f) fun _ => True := by
  refine hI.pop.bind fun w _ => hI.see.bind fun b _ => .ite (fun _ => ?_) fun _ => ?_
  · exact hI.fetch.bind fun v hv => hI.push hv
  · exact (hI.note _).bind fun _ _ => hI.push (by trivial)

protected theorem setField (f : Field) : Upholds I (setField f) fun _ => True := by
  refine hI.pop.bind fun v hv => hI.stack.bind fun sp _ => hI.see.bind fun cell _ => ?_
  have hstore : (f = .t → v ≠ .actorT) → Upholds I (do
      if ← look fun h => !h.inHeap cell || cell.isCap || h.isFree cell then
        note (.setOnNonCell cell f)
      else store cell f v) fun _ => True := by
    intro ht
    have hin : Upholds I (look fun h => !h.inHeap cell || cell.isCap || h.isFree cell) fun b =>
        b = false → Word.reserved ≤ cell.index := by
      refine hI.look fun h _ hb => ?_
      simp only [inHeap, Bool.or_eq_false_iff, Bool.not_eq_eq_eq_not, Bool.not_false,
        Bool.and_eq_true, decide_eq_true_eq] at hb
      exact hb.1.1.1.2
    refine hin.bind fun b hb => .ite (fun _ => hI.note _) fun hn => hI.lift ?_
    refine Heap.honest_storeAt hv fun hf _ =>
      ⟨fun h => absurd h (ht hf), fun _ => hb (by simpa using hn)⟩
  refine .ite (fun hf => ?_) fun hf => hstore fun h => absurd h hf
  exact (upholds_checkType "set").bind fun _ ht => hstore fun _ => ht

protected theorem makeList (n : Int) : Upholds I (makeList n) fun _ => True := by
  refine (hI.stackCount _ _).bind fun k _ => (hI.popN k).bind fun items hi => ?_
  refine hI.pop.bind fun tail ht => ?_
  exact (hI.lift (Heap.honest_prepend hi ht)).bind fun list hl => hI.push hl

protected theorem splitList (n : Int) : Upholds I (splitList n) fun _ => True := by
  refine .ite (fun _ => .throw_bind) fun _ => hI.pop.bind fun list hl => ?_
  have hsplit : Upholds I (ask (·.splitItems n.toNat list)) fun r =>
      (∀ w ∈ r.1, w.Granted G.cells) ∧ r.2.Granted G.cells :=
    hI.ask fun h r hv hr => hv.splitItems hl hr
  refine hsplit.bind fun r hr => ?_
  exact (hI.push hr.2).bind fun _ _ => hI.pushAll hr.1

protected theorem indexList (n : Int) : Upholds I (indexList n) fun _ => True := by
  refine hI.pop.bind fun list hl => ?_
  exact (hI.look fun h hv => hv.nth n hl).bind fun v hv => hI.push hv

protected theorem arithmetic (op : Alu) : Upholds I (arithmetic op) fun _ => True := by
  refine .ite (fun _ => ?_) fun _ => (hI.popNumber _).bind fun _ _ => ?_
  · exact (hI.popNumber _).bind fun _ _ => hI.push (by trivial)
  · exact (hI.popNumber _).bind fun _ _ => hI.push (by trivial)

protected theorem compare (r : Relation) : Upholds I (compare r) fun _ => True := by
  unfold compare
  split
  · exact hI.pop.bind fun _ _ => hI.pop.bind fun _ _ => hI.push (by simp)
  · exact hI.pop.bind fun _ _ => hI.pop.bind fun _ _ => hI.push (by simp)
  · exact (hI.popNumber _).bind fun _ _ => (hI.popNumber _).bind fun _ _ => hI.push (by simp)

protected theorem message (n : Int) : Upholds I (message n) fun _ => True := by
  refine hI.event.bind fun e _ => hI.fetch.bind fun msg hm => ?_
  exact (hI.look fun h hv => hv.nth n hm).bind fun v hv => hI.push hv

protected theorem own (o : Own) : Upholds I (own o) fun _ => True := by
  refine hI.me.bind fun a ha => ?_
  cases o with
  | self =>
    obtain ⟨i, rfl, hi⟩ := ha
    exact hI.push hi
  | beh | state => exact hI.fetch.bind fun v hv => hI.push hv

protected theorem composeMessage (n : Int) :
    Upholds I (composeMessage n) fun r => r.1.Granted G.cells ∧ r.2.Granted G.cells := by
  refine hI.pop.bind fun target ht => hI.see.bind fun b _ => .ite (fun _ => .throw_bind) fun _ => ?_
  refine .ite (fun _ => hI.pop.bind fun msg hm => .pure ⟨ht, hm⟩) fun _ => ?_
  refine (hI.stackCount _ _).bind fun k _ => (hI.popN k).bind fun items hi => ?_
  exact (hI.lift (Heap.honest_ofItems hi)).bind fun msg hm => .pure ⟨ht, hm⟩

protected theorem holdBack (hv : v.Granted G.cells) (hw : w.Granted G.cells) :
    Upholds I (holdBack v w) fun _ => True := by
  refine hI.me.bind fun a _ => hI.fetch.bind fun pending hp => ?_
  have halloc : Heap.Honest G (Heap.alloc ⟨.eventT, v, w, pending⟩) (Word.Granted G.cells) :=
    Heap.honest_alloc (Cell.forall_words.2 ⟨trivial, hv, hw, hp⟩) fun _ =>
    (by decide : Word.eventT.Inert)
  exact (hI.lift halloc).bind fun e he => hI.store he (by simp)

protected theorem popBehavior (op : String) : Upholds I (popBehavior op) (Word.Granted G.cells) :=
  hI.pop.bind fun _ hb => hI.see.bind fun _ _ => .ite (fun _ => .throw_bind) fun _ => .pure hb

protected theorem become (n : Int) : Upholds I (become n) fun _ => True := by
  refine (hI.popBehavior _).bind fun beh hb => (hI.carve _ n).bind fun state hs => ?_
  exact hI.stageBecome hb hs

protected theorem createActor (hm : I m) {n : Int}
    (hn : ∀ w m', makeActor n m = .ok w m' → G.cells w.index ∧ G.actors w.index) :
    Leaves I (createActor n) (fun _ => True) m := by
  rw [createActor_eq]
  have hmake : Leaves I (makeActor n) (fun _ => True) m := by
    refine (hI.popBehavior "new" m hm).bind fun beh m₁ h₁ hm₁ hb => ?_
    refine (hI.carve "new" n m₁ hm₁).bind fun state m₂ h₂ hm₂ hs => hI.leaves_lift hm₂ ?_
    refine .intro (fun w h hr => ?_) fun f h hr => ?_
    · have hrun : makeActor n m = .ok w { m₂ with heap := h } := by
        unfold makeActor
        rw [run_bind h₁, run_bind h₂]
        change onHeap (alloc ⟨.actorT, beh, state, .undefined⟩) m₂ = _
        unfold onHeap
        dsimp only
        rw [hr]
        rfl
      have hadmits : Heap.Vouched.Admits G (Heap.Vouched.next m₂.heap) .actorT := by
        rw [← Heap.Vouched.alloc_next hr]
        exact fun _ => ⟨fun _ => (hn w _ hrun).2, fun h => absurd h (by decide)⟩
      have halloc := (hI.vouched hm₂).heap.alloc (c := ⟨.actorT, beh, state, .undefined⟩)
        (Cell.forall_words.2 ⟨trivial, hb, hs, trivial⟩) hadmits
      exact ⟨(halloc.ok hr).1, trivial⟩
    · obtain ⟨-, -, -, rfl⟩ := alloc_error hr
      exact (hI.vouched hm₂).heap
  refine hmake.bind fun w m₁ hr hm₁ _ => ?_
  have hcap : w.toCap.Granted G.cells := (hn w m₁ hr).1
  exact hI.push hcap m₁ hm₁

protected theorem showValue : Upholds I (showValue v) fun _ => True := by
  refine hI.pop.bind fun w _ => (hI.ask fun _ _ _ _ => trivial : Upholds I _ fun _ => True).bind
    fun text _ => (hI.note _).bind fun _ _ => ?_
  exact .modify fun _ hm => hI.reckon hm rfl

protected theorem parseNumber : Upholds I (convert .listToNumber) fun _ => True :=
  hI.pop.bind fun _ _ => (hI.ask fun _ _ _ hr => granted_parseFixnum hr).bind fun _ hv => hI.push hv

protected theorem perform {i : Instruction} {next : Word} (hi : i.operand.Granted G.cells)
    (hn : ∀ n, i ≠ .new n) (ha : i.isAloof = true) : Upholds I (perform i next) fun _ => True := by
  have hflow : ∀ {act : MachineM Unit}, Upholds I act (fun _ => True) →
      Upholds I (act >>= fun _ => pure (Flow.next next)) fun _ => True :=
      fun h => h.bind fun _ _ => .pure trivial
  cases i with
  | typeq t => exact hflow hI.typeTest
  | cell n => exact hflow (hI.makeCell n)
  | get f => exact hflow (hI.getField f)
  | set f => exact hflow (hI.setField f)
  | pair n => exact hflow (hI.makeList n)
  | part n => exact hflow (hI.splitList n)
  | nth n => exact hflow (hI.indexList n)
  | push v => exact hflow (hI.push hi)
  | depth => exact hI.depth.bind fun _ _ => hflow (hI.push (by trivial))
  | drop n => exact hflow (hI.dropItems n)
  | pick n => exact hflow (hI.pick n)
  | dup n => exact hflow (hI.dup n)
  | roll n => exact hflow (hI.roll n)
  | alu op => exact hflow (hI.arithmetic op)
  | eq v => exact hI.pop.bind fun _ _ => hflow (hI.push (by simp))
  | cmp r => exact hflow (hI.compare r)
  | branch target => exact hI.pop.bind fun _ _ => .pure trivial
  | msg n => exact hflow (hI.message n)
  | my o => exact hflow (hI.own o)
  | send n => exact (hI.composeMessage n).bind fun r hr => hflow (hI.holdBack hr.1 hr.2)
  | new n => exact absurd rfl (hn n)
  | beh n => exact hflow (hI.become n)
  | finish e => exact (hI.endTransaction e).bind fun _ _ => .pure trivial
  | convert c =>
    cases c with
    | listToNumber => exact hflow hI.parseNumber
    | listToSymbol => cases ha
  | putc | getc => cases ha
  | debug tag => exact hflow hI.showValue

end Shelters

theorem honest_internList (hv : v.Granted G.cells) :
    Honest G (internList v) (Word.Granted G.cells) := by
  have hI := sheltered (G := G)
  rw [internList_eq]
  refine (hI.ask fun _ _ _ _ => trivial : Honest G (ask fun h => h.checksum v) fun _ => True).bind
    fun hash _ => Upholds.get.bind fun m hm => ?_
  have hb := hm.symbols _ (m.symbols.bucket_mem hash)
  have hfind : Honest G
      (ask fun h => SymbolTable.find? h (.fix hash.toNat) v (h.budget "symbol lookup")
        (m.symbols.bucket hash)) fun r => ∀ sym ∈ r, sym.Granted G.cells := by
    refine hI.ask fun h r hh hr sym hs => ?_
    cases hs
    exact hh.find hr
  refine hfind.bind fun r hr => ?_
  cases r with
  | some sym => exact .pure (hr sym rfl)
  | none =>
    have halloc : Heap.Honest G (Heap.alloc ⟨.symbolT, .fix hash.toNat, v, .undefined⟩)
      (Word.Granted G.cells) :=
      Heap.honest_alloc (Cell.forall_words.2 ⟨trivial, trivial, hv, trivial⟩)
        fun _ => (by decide : Word.symbolT.Inert)
    refine (hI.lift halloc).bind fun sym hs =>
      (hI.lift (Heap.honest_cons hs hb)).bind fun b hb => ?_
    refine Upholds.bind (.modify fun m hm => ?_) fun _ _ => .pure hs
    refine ⟨hm.heap, fun w hw => ?_, hm.events, hm.threads, hm.pinned, hm.clock⟩
    obtain rfl | hw := SymbolTable.mem_setBucket hw
    · exact hb
    · exact hm.symbols w hw

theorem honest_perform {i : Instruction} {next : Word} (hi : i.operand.Granted G.cells)
    (hn : ∀ n, i ≠ .new n) :
    Honest G (perform i next) fun _ => True := by
  have hI := sheltered (G := G)
  have hconsole : ∀ {f : Machine → Console},
      Honest G (modify fun m => { m with console := f m } : MachineM Unit) fun _ => True :=
    .modify fun _ hm => ⟨hm.heap, hm.symbols, hm.events, hm.threads, hm.pinned, hm.clock⟩
  have hpush : ∀ n, Honest G (push (.fix n)) fun _ => True := fun n => hI.push trivial
  by_cases ha : i.isAloof = true
  · exact hI.perform hi hn ha
  cases i with
  | convert c =>
    cases c with
    | listToNumber => exact absurd rfl ha
    | listToSymbol =>
      have hconvert : Honest G (convert .listToSymbol) fun _ => True :=
        hI.pop.bind fun chars hc => (honest_internList hc).bind fun sym hs => hI.push hs
      exact hconvert.bind fun _ _ => .pure trivial
  | putc =>
    have hwrite : Honest G writeByte fun _ => True := (hI.popNumber _).bind fun _ _ => hconsole
    exact hwrite.bind fun _ _ => .pure trivial
  | getc =>
    have hread : Honest G readByte fun _ => True := by
      refine Upholds.get.bind fun m _ => hconsole.bind fun _ _ => ?_
      split
      · exact hpush _
      · exact hpush _
    exact hread.bind fun _ _ => .pure trivial
  | _ => exact absurd rfl ha

end Machine

end ActorMachine
