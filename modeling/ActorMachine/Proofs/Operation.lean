import ActorMachine.Proofs.Ending

namespace ActorMachine

open Heap

open Machine

variable {ρ ρ' : Roles} {h h' : Heap} {m m' m'' : Machine} {α β : Type}
variable {v w ip : Word} {k : α → MachineM β} {E : Machine → Prop} {i : Nat}
  {events threads : Queue}
  {M : Nat → Role → Prop}

namespace Runs

variable {t e a : Nat} {P : Roles → Machine → β → Prop}

theorem look_bind {f : Heap → α} (hk : Runs t e a ρ m (k (f m.heap)) P) :
    Runs t e a ρ m (look f >>= k) P := hk

theorem pure_bind {r : α} (hk : Runs t e a ρ m (k r) P) : Runs t e a ρ m (Pure.pure r >>= k) P := hk

theorem ask_bind {f : Heap → Except Fault α} (ho : Open t e a [] ρ m)
    (hk : ∀ r, f m.heap = .ok r → Runs t e a ρ m (k r) P) :
    Runs t e a ρ m (ask f >>= k) P := by
  refine Ensures.bind (Q := fun r m' => m = m' ∧ f m.heap = .ok r) ?_ ?_
  · rw [ensures_ask]
    cases hr : f m.heap with
    | ok r => exact ⟨rfl, rfl⟩
    | error f => exact .inr ⟨ρ, ho, .refl⟩
  · rintro r m' ⟨rfl, hr⟩
    exact hk r hr

theorem fetch_bind {f : Field} {k : Word → MachineM β}
    (hk : ∀ i, v = .ref i → i < m.heap.top → Runs t e a ρ m (k ((m.heap.cellAt i).get f)) P) :
    Runs t e a ρ m ((liftM (fetch v f) : MachineM Word) >>= k) P :=
  ensures_fetch_bind hk

theorem silent_bind {act : MachineM α} (hs : Silent act) (ho : Open t e a [] ρ m)
    (hk : ∀ r m', Quiet m m' → Open t e a [] ρ m' → Runs t e a ρ m' (k r) P) :
    Runs t e a ρ m (act >>= k) P :=
  hs.bind fun r m' hq => after hq.confined (hk r m' hq (ho.quiet hq))

theorem silent {act : MachineM β} (hs : Silent act) (ho : Open t e a [] ρ m) :
    Runs t e a ρ m act fun _ _ _ => True :=
  hs.ensures fun _ _ hq => ⟨ρ, ho.quiet hq, hq.confined, trivial⟩

end Runs

theorem Silent.console (f : Machine → Console) :
    Silent (modify fun m : Machine => { m with console := f m }) := fun _ =>
  ⟨rfl, rfl, rfl, rfl, rfl, rfl, rfl, rfl, rfl⟩

theorem Silent.trace (f : Machine → Trace) :
    Silent (modify fun m : Machine => { m with trace := f m }) := fun _ =>
  ⟨rfl, rfl, rfl, rfl, rfl, rfl, rfl, rfl, rfl⟩

theorem safe_pair {x y : Word} (hx : Safe ρ x) (hy : Safe ρ y) :
    ∀ w ∈ (⟨.pairT, x, y, .undefined⟩ : Cell).words, Safe ρ w := by
  simp only [Cell.words, List.mem_cons, List.not_mem_nil, or_false]
  rintro w (rfl | rfl | rfl | rfl)
  · exact .literal (by decide)
  · exact hx
  · exact hy
  · exact safe_undefined

theorem Orderly.ensures_allocData (ho : Orderly ρ m) {c : Cell}
    (ht : c.t ≠ .freeT ∧ c.t ≠ .actorT) (hw : ∀ w ∈ c.words, Safe ρ w) :
    Ensures (liftM (alloc c) : MachineM Word) m
      (fun w m' => ∃ i, w = .ref i ∧ (ρ i = .free ∨ ρ i = .outside) ∧ m.heap.Takes i c m'.heap ∧
        Orderly (ρ.set i .data) m' ∧
        Frame (fun _ r => r.isSpare = true) ρ m.heap (ρ.set i .data) m'.heap ∧
        Untouched m m') E := by
  refine (ho.ensures_alloc (.inr (.inl rfl)) ht.1 (fun i hi => ⟨ht.1, ht.2, fun w hm => ?_⟩)
    fun w hm =>
    ho.layout.avoids (hw w hm)).imp ?_
  · exact (hw w hm).mono (Roles.grows_set (by obtain hi | hi := hi <;> simp [hi]) (by simp))
  · rintro w m' ⟨i, hi, hr, htake, ho', hframe, hu⟩
    refine ⟨i, hi, hr, htake, ho', hframe.one ?_ (.inr ?_), hu⟩
    · obtain hr | hr := hr <;> rw [hr] <;> rfl
    · rw [Roles.set_self]
      rfl

theorem Roles.held_of_set {j : Nat} {r : Role} (hr : r ≠ .held) (hj : ρ.set i r j = .held) :
    ρ j = .held := by
  by_cases hji : j = i
  · rw [hji, Roles.set_self] at hj
    exact absurd hj hr
  · rwa [Roles.set_ne _ _ hji] at hj

namespace Open

variable {t e a : Nat}

theorem spare (ho : Open t e a [] ρ m) (ho' : Orderly ρ' m')
    (hf : Frame (fun _ r => r.isSpare = true) ρ m.heap ρ' m'.heap) (hu : Untouched m m')
    (hheld : ∀ i, ρ' i = .held → ρ i = .held) : Open t e a [] ρ' m' ∧ Within t ρ m ρ' m' := by
  refine ⟨⟨ho', hu.threads ▸ ho.head, ?_, fun i hi => ?_⟩, hf.mono fun _ _ => .spare, hu⟩
  · rw [(hf.same (i := t) (by rw [ho.role]; simp [Role.isSpare])).1, ho.role]
  · refine ho.brief i ?_
    by_cases hs : (ρ' i).isSpare = true
    · have hh : ρ' i = .held := by
        revert hs hi
        cases ρ' i <;> simp [Role.isSpare, Role.isBrief]
      rw [hheld i hh]
      rfl
    · have hnew : (ρ' i).isNew = false := by
        revert hi
        cases ρ' i <;> simp [Role.isNew, Role.isBrief]
      rwa [← (hf.same_of_after hs hnew).1]

theorem runs_alloc (ho : Open t e a [] ρ m) {c : Cell} (ht : c.t ≠ .freeT ∧ c.t ≠ .actorT)
    (hw : ∀ w ∈ c.words, Safe ρ w) :
    Runs t e a ρ m (liftM (alloc c)) fun ρ' _ w => Safe ρ' w := by
  refine (ho.orderly.ensures_allocData ht hw).imp ?_
  rintro w m' ⟨i, rfl, -, -, ho', hframe, hu⟩
  obtain ⟨hopen, hwithin⟩ := ho.spare ho' hframe hu fun j => Roles.held_of_set (by simp)
  exact ⟨_, hopen, hwithin, .inr (Roles.set_self ..)⟩

theorem runs_cons (ho : Open t e a [] ρ m) {x y : Word} (hx : Safe ρ x) (hy : Safe ρ y) :
    Runs t e a ρ m (liftM (cons x y)) fun ρ' _ w => Safe ρ' w := by
  have ht : Word.pairT ≠ .freeT ∧ Word.pairT ≠ .actorT := by decide
  exact ho.runs_alloc ht (safe_pair hx hy)

end Open

theorem Layout.data_of_isCode (hl : Layout ρ h events threads)
    (hip : Safe ρ ip) (hc : h.isCode ip = true) : ∃ i, ip = .ref i ∧ ρ i = .data := by
  obtain ⟨i, rfl, -, ht⟩ := hasType_iff.1 hc
  refine ⟨i, rfl, hip.resolve_left fun hi => ?_⟩
  rw [hl.literals i hi] at ht
  revert ht
  have : ∀ i < Word.reserved, (Cell.initial i).t ≠ .instrT := by decide
  exact this i hi

theorem Frame.isCode (hf : Frame M ρ h ρ' h')
    (hl : Layout ρ h events threads) (hd : ∀ i, ρ i = .data → ¬ M i .data) (hw : Safe ρ w)
    (hc : h.isCode w = true) : h'.isCode w = true := by
  obtain ⟨i, rfl, hi⟩ := hl.data_of_isCode hw hc
  obtain ⟨j, hj, hlt, ht⟩ := hasType_iff.1 hc
  cases hj
  refine hasType_iff.2 ⟨i, rfl, Nat.lt_of_lt_of_le hlt hf.top_le, ?_⟩
  rw [(hf.same (i := i) (by rw [hi]; exact hd i hi)).2, ht]

theorem Open.not_staging {t e a : Nat} {held : List Nat} (ho : Open t e a held ρ m)
    (hi : ρ i = .data) :
    ¬ Staging t e i .data := by
  rintro ((rfl | h | h) | rfl | h)
  · cases ho.role.symm.trans hi
  · cases h
  · cases h
  · cases ho.roles.1.symm.trans hi
  · cases h

theorem Confined.isCode {t e a : Nat} {held : List Nat} (hw : Within t ρ m ρ' m')
    (ho : Open t e a held ρ m) (hs : Safe ρ w) (hc : m.heap.isCode w = true) :
    m'.heap.isCode w = true :=
  hw.frame.isCode ho.orderly.layout (fun _ hi h => ho.not_staging hi (.inl h)) hs hc

def Machine.makeActor (n : Int) : MachineM Word := do
  let beh ← popBehavior "new"
  let state ← carve "new" n
  alloc ⟨.actorT, beh, state, .undefined⟩

theorem Machine.createActor_eq (n : Int) : createActor n = (do push (← makeActor n).toCap) := by
  unfold createActor makeActor
  simp only [bind_assoc]

theorem Machine.liftM_bind (act : HeapM α) (k : α → HeapM β) :
    (liftM (act >>= k) : MachineM β) = liftM act >>= fun r => liftM (k r) := by
  funext m
  change onHeap (EStateM.bind act k) m =
    EStateM.bind (onHeap act) (fun r => onHeap (k r)) m
  unfold onHeap EStateM.bind
  dsimp only
  cases act m.heap <;> rfl

theorem Machine.liftM_foldrM (f : α → β → HeapM β) (xs : List α) (b : β) :
    (liftM (xs.foldrM f b) : MachineM β) = xs.foldrM (fun x b => liftM (f x b)) b := by
  induction xs with
  | nil => rfl
  | cons x xs ih => rw [List.foldrM_cons, List.foldrM_cons, liftM_bind, ih]

theorem Machine.onLexicon_bind (act : LexiconM α) (k : α → LexiconM β) :
    onLexicon (act >>= k) = onLexicon act >>= fun r => onLexicon (k r) := by
  funext m
  change onLexicon (EStateM.bind act k) m =
    EStateM.bind (onLexicon act) (fun r => onLexicon (k r)) m
  unfold onLexicon EStateM.bind
  dsimp only
  cases act ⟨m.heap, m.symbols⟩ <;> rfl

theorem Machine.onLexicon_liftM (act : HeapM α) :
    onLexicon (liftM act) = liftM act := by
  funext m
  change onLexicon (Lexicon.onHeap act) m = onHeap act m
  unfold onLexicon onHeap Lexicon.onHeap
  dsimp only
  cases act m.heap <;> rfl

theorem Machine.internList_eq (chars : Word) :
    internList chars = (do
      let hash ← ask fun h => h.checksum chars
      let bucket := (← get).symbols.bucket hash
      match ← ask fun h => SymbolTable.find? h (.fix hash.toNat) chars
        (h.budget "symbol lookup") bucket with
      | some sym => return sym
      | none =>
        let sym ← alloc ⟨.symbolT, .fix hash.toNat, chars, .undefined⟩
        let bucket ← cons sym bucket
        modify fun m => { m with symbols := m.symbols.setBucket hash bucket }
        return sym) := by
  unfold internList Lexicon.intern ask
  rw [onLexicon_bind, onLexicon_liftM]
  refine bind_congr fun hash => ?_
  funext m
  change onLexicon
    (liftM (query fun h => SymbolTable.find? h (.fix hash.toNat) chars (h.budget "symbol lookup")
    (m.symbols.bucket hash)) >>= _) m = ((liftM (query _) : MachineM _) >>= _ : MachineM _) m
  rw [onLexicon_bind, onLexicon_liftM]
  refine congrFun (bind_congr fun found => ?_) m
  cases found with
  | some sym => rfl
  | none =>
    dsimp only
    rw [onLexicon_bind, onLexicon_liftM]
    refine bind_congr fun sym => ?_
    rw [onLexicon_bind, onLexicon_liftM]
    rfl

theorem Machine.intern_eq (name : String) :
    intern name = (do
      let chars ← ofText name
      let sym ← internList chars
      if (← fetch sym .y) ≠ chars then freeSpine chars
      return sym) := by
  unfold intern Lexicon.internText internList
  rw [onLexicon_bind, onLexicon_liftM]
  refine bind_congr fun chars => ?_
  rw [onLexicon_bind]
  refine bind_congr fun sym => ?_
  rw [onLexicon_bind, onLexicon_liftM]
  refine bind_congr fun y => ?_
  by_cases hy : y ≠ chars
  · rw [if_pos hy, if_pos hy, onLexicon_bind, onLexicon_liftM]
    rfl
  · rw [if_neg hy, if_neg hy]
    rfl

theorem SymbolTable.bucket_mem (table : SymbolTable) (hash : UInt32) :
    table.bucket hash ∈ table.buckets.toList := by
  simp [SymbolTable.bucket, Vector.get]

theorem SymbolTable.mem_setBucket {table : SymbolTable} {hash : UInt32}
    (hw : w ∈ (table.setBucket hash v).buckets.toList) : w = v ∨ w ∈ table.buckets.toList := by
  simp only [SymbolTable.setBucket, Vector.toList_set] at hw
  exact (List.mem_or_eq_of_mem_set hw).symm

theorem SymbolTable.mem_take_setBucket {table : SymbolTable} {hash : UInt32} {n : Nat}
    (hw : w ∈ (table.setBucket hash v).buckets.toList.take n) :
    w = v ∨ w ∈ table.buckets.toList.take n := by
  simp only [SymbolTable.setBucket, Vector.toList_set, List.take_set] at hw
  exact (List.mem_or_eq_of_mem_set hw).symm

theorem Except.exists_of_bind {x : Except Fault α} {k : α → Except Fault β} {b : β}
    (hr : x >>= k = .ok b) :
    ∃ a, x = .ok a ∧ k a = .ok b := by
  cases x with
  | ok a => exact ⟨a, rfl, hr⟩
  | error f => cases hr

theorem SymbolTable.find?_listed {R : Word → Prop} {hash chars chain sym : Word} {b : Budget}
    (hcdr : ∀ v, R v → R (h.cdr v)) (hc : R chain)
    (hf : SymbolTable.find? h hash chars b chain = .ok (some sym)) : ∃ p, R p ∧ sym = h.car p := by
  fun_induction SymbolTable.find? h hash chars b chain with
  | case1 => cases hf
  | case2 b chain hp b' hb first ih =>
    obtain ⟨c, -, hf⟩ := Except.exists_of_bind hf
    split at hf
    · obtain ⟨same, -, hf⟩ := Except.exists_of_bind hf
      split at hf
      · exact ⟨chain, hc, (Option.some.inj (Except.ok.inj hf)).symm⟩
      · exact ih (hcdr chain hc) hf
    · exact ih (hcdr chain hc) hf
  | case3 => cases hf

theorem Readable.find {R : Word → Prop} (hr : Readable ρ h R) {hash chars chain sym : Word}
    {b : Budget} (hc : R chain) (hf : SymbolTable.find? h hash chars b chain = .ok (some sym)) :
    Safe ρ sym := by
  obtain ⟨p, hp, rfl⟩ := SymbolTable.find?_listed hr.cdr hc hf
  exact hr.car p hp

theorem Orderly.ensures_internList (ho : Orderly ρ m) {chars : Word}
    (ho' : Orderly ρ' m) (hc : Safe ρ' chars) (he : E m) :
    Ensures (Machine.internList chars) m
      (fun sym m' => m' = m ∧ Safe ρ sym ∨ ∃ i j, sym = .ref i ∧ i ≠ j ∧
        (m'.heap.cellAt i).y = chars ∧ Orderly ((ρ'.set i .data).set j .data) m' ∧
        Frame (fun _ r => r.isSpare = true) ρ' m.heap ((ρ'.set i .data).set j .data) m'.heap ∧
        Untouched m m') E := by
  rw [Machine.internList_eq]
  refine Ensures.bind (Q := fun _ m' => m = m') ?_ ?_
  · rw [Machine.ensures_ask]
    cases m.heap.checksum chars with
    | ok => rfl
    | error => exact .inr he
  rintro hash m' rfl
  rw [ensures_get_bind]
  dsimp only
  have hb : ∀ {ρ : Roles}, Orderly ρ m → Safe ρ (m.symbols.bucket hash) := by
    intro ρ ho
    refine ho.kept _ ?_
    simp [Machine.kept, m.symbols.bucket_mem hash]
  refine Ensures.bind (Q := fun r m' => m = m' ∧ ∀ sym, r = some sym → Safe ρ sym) ?_ ?_
  · rw [Machine.ensures_ask]
    cases hf : SymbolTable.find? m.heap (.fix hash.toNat) chars (m.heap.budget "symbol lookup")
      (m.symbols.bucket hash) with
    | ok r =>
      refine ⟨rfl, fun sym hs => ?_⟩
      rw [hs] at hf
      exact (Readable.data ho.layout).find (hb ho) hf
    | error f => exact .inr he
  rintro r m' ⟨rfl, hsym⟩
  cases r with
  | some sym => exact .inl ⟨rfl, hsym sym rfl⟩
  | none =>
    have hts : Word.symbolT ≠ .freeT ∧ Word.symbolT ≠ .actorT := by decide
    have htp : Word.pairT ≠ .freeT ∧ Word.pairT ≠ .actorT := by decide
    have hws : ∀ w ∈ (⟨.symbolT, .fix hash.toNat, chars, .undefined⟩ : Cell).words, Safe ρ' w := by
      simp only [Cell.words, List.mem_cons, List.not_mem_nil, or_false]
      rintro w (rfl | rfl | rfl | rfl)
      · exact .literal (by decide)
      · exact safe_fix _
      · exact hc
      · exact safe_undefined
    dsimp only
    refine (ho'.ensures_allocData hts hws).bind ?_
    rintro w m₁ ⟨i, rfl, -, htake₁, ho₁, hframe₁, hu₁⟩
    have hi : Safe (ρ'.set i .data) (.ref i) := .inr (Roles.set_self ..)
    refine (ho₁.ensures_allocData htp (safe_pair hi ((hb ho').mono hframe₁.grows))).bind ?_
    rintro w m₂ ⟨j, rfl, hj, htake₂, ho₂, hframe₂, hu₂⟩
    have hij : i ≠ j := by
      rintro rfl
      simp at hj
    refine .inr ⟨i, j, rfl, hij, ?_, ⟨ho₂.layout, ?_, ho₂.shuns, ?_⟩, hframe₁.trans hframe₂, ?_⟩
    · rw [htake₂.ne hij, htake₁.self]
    · intro w hw
      simp only [Machine.kept, List.mem_append] at hw
      obtain (hw | hw) | hw := hw
      · obtain rfl | hw := SymbolTable.mem_setBucket hw
        · exact .inr (Roles.set_self ..)
        · exact ho₂.kept w (by simp [Machine.kept, hw])
      · exact ho₂.kept w (by simp only [Machine.kept, List.mem_append, hw, or_true, true_or])
      · exact ho₂.kept w (by simp only [Machine.kept, List.mem_append, hw, or_true])
    · intro w hw
      obtain rfl | hw := SymbolTable.mem_take_setBucket hw
      · exact htake₂.lit ho₁.sound hframe₂.fades
      · exact ho₂.lit w hw
    · have hu := hu₁.trans hu₂
      exact ⟨hu.1, hu.2, hu.3, hu.4, hu.5, hu.6, hu.7⟩

def Machine.ownWord (m : Machine) (a : Nat) : Own → Word
  | .self => .cap a
  | .beh => (m.heap.cellAt a).x
  | .state => (m.heap.cellAt a).y

structure Undisturbed (a : Nat) (ρ : Roles) (m : Machine) (ρ' : Roles) (m' : Machine) : Prop where
  actor : Same ρ ρ' m.heap m'.heap a
  pending : ∀ i, ρ' i = .pending a ↔ ρ i = .pending a
  same : ∀ i, ρ i = .pending a → m'.heap.cellAt i = m.heap.cellAt i

structure Appends (a : Nat) (n : Int) (ρ : Roles) (m : Machine) (ρ' : Roles) (m' : Machine) :
    Prop where
  role : ρ' a = ρ a
  same : ∀ i, ρ i = .pending a → m'.heap.cellAt i = m.heap.cellAt i
  sent : ∃ i target msg m₁, composeMessage n m = .ok (target, msg) m₁ ∧
    ρ i ≠ .pending a ∧ (∀ j, ρ' j = .pending a ↔ j = i ∨ ρ j = .pending a) ∧
    m'.heap.cellAt i = ⟨.eventT, target, msg, (m.heap.cellAt a).z⟩ ∧
    m'.heap.cellAt a = (m.heap.cellAt a).set .z (.ref i)

theorem Frame.undisturbed {a : Nat}
    (hf : Frame M ρ m.heap ρ' m'.heap) (ha : ¬ M a (ρ a))
    (hp : ∀ i, ρ i = .pending a → ¬ M i (.pending a))
    (hp' : ∀ i, ρ' i = .pending a → ¬ M i (.pending a)) : Undisturbed a ρ m ρ' m' := by
  refine ⟨hf.same ha, fun i => ⟨fun hi => ?_, fun hi => ?_⟩, fun i hi => ?_⟩
  · rw [← (hf.same_of_after (i := i) (by rw [hi]; exact hp' i hi) (by rw [hi]; rfl)).1, hi]
  · rw [(hf.same (i := i) (by rw [hi]; exact hp i hi)).1, hi]
  · exact (hf.same (i := i) (by rw [hi]; exact hp i hi)).2

namespace Open

variable {t e a : Nat}

section Open

variable (ho : Open t e a [] ρ m)

include ho

theorem runs_typeTest (v : Word) : Runs t e a ρ m (typeTest v) fun _ _ _ => True := by
  unfold typeTest
  refine ho.runs_pop.bind fun w ρ₁ m₁ ho₁ _ _ => ?_
  dsimp only
  refine .ite (fun _ => .pure_bind (ho₁.runs_push (safe_ofBool _))) fun _ => ?_
  exact .ite (fun _ => .look_bind (ho₁.runs_push (safe_ofBool _)))
    fun _ => .look_bind (ho₁.runs_push (safe_ofBool _))

theorem checkType_bind {op : String} {k : Unit → MachineM β} {P : Roles → Machine → β → Prop}
    (hk : v ≠ .freeT ∧ v ≠ .actorT → Runs t e a ρ m (k ()) P) :
    Runs t e a ρ m (checkType op v >>= k) P := by
  unfold checkType
  dsimp only
  by_cases h1 : v = .actorT
  · simp only [h1, if_true]
    exact .throw_bind ho
  · by_cases h2 : v = .freeT
    · simp only [if_neg h1, if_pos h2]
      exact .throw_bind ho
    · simp only [h1, if_false, h2]
      exact hk ⟨h2, h1⟩

theorem popIf_bind {c : Prop} [Decidable c] {k : Word → MachineM β} {P : Roles → Machine → β → Prop}
    (hk : ∀ v ρ' m', Open t e a [] ρ' m' → Within t ρ m ρ' m' → Safe ρ' v →
      Runs t e a ρ' m' (k v) P) :
    Runs t e a ρ m (if c then pop >>= k else Pure.pure .undefined >>= k) P :=
  .ite (fun _ => ho.runs_pop.bind fun v ρ' m' ho' hw hv => hk v ρ' m' ho' hw hv)
    fun _ => .pure_bind (hk _ ρ m ho .refl safe_undefined)

theorem runs_makeCell (n : Int) : Runs t e a ρ m (makeCell n) fun _ _ _ => True := by
  unfold makeCell
  dsimp only
  refine .ite (fun _ => .throw_bind ho) fun _ => ?_
  refine ho.popIf_bind fun z ρ₁ m₁ ho₁ _ hz => ?_
  refine ho₁.popIf_bind fun y ρ₂ m₂ ho₂ hw₂ hy => ?_
  refine ho₂.popIf_bind fun x ρ₃ m₃ ho₃ hw₃ hx => ?_
  refine ho₃.runs_pop.bind fun v ρ₄ m₄ ho₄ hw₄ hv => ?_
  refine ho₄.checkType_bind fun hcheck => ?_
  refine (ho₄.runs_alloc hcheck ?_).bind fun w ρ₅ m₅ ho₅ _ hw => ho₅.runs_push hw
  simp only [Cell.words, List.mem_cons, List.not_mem_nil, or_false]
  rintro w (rfl | rfl | rfl | rfl)
  · exact hv
  · exact hw₄.safe hx
  · exact hw₄.safe (hw₃.safe hy)
  · exact hw₄.safe (hw₃.safe (hw₂.safe hz))

theorem runs_getField (f : Field) : Runs t e a ρ m (getField f) fun _ _ _ => True := by
  unfold getField
  refine ho.runs_pop.bind fun v ρ₁ m₁ ho₁ _ hv => .look_bind (.ite (fun hc => ?_) fun _ => ?_)
  · refine .fetch_bind fun i hi _ => ?_
    subst hi
    exact ho₁.runs_push (ho₁.orderly.layout.safe_field hv hc f)
  · exact .silent_bind (.note _) ho₁ fun _ m₂ _ ho₂ => ho₂.runs_push safe_undefined

theorem ensures_storeData {f : Field} (hi : ρ i = .data) (hv : Safe ρ v)
    (ht : f = .t → v ≠ .freeT ∧ v ≠ .actorT) :
    Ensures (liftM (store (.ref i) f v) : MachineM Unit) m
      (fun _ m' => m.heap.Sets i ((m.heap.cellAt i).set f v) m'.heap ∧ Open t e a [] ρ m' ∧
        Confined (fun _ r => r = .data) ρ m ρ m') E := by
  have hs := (ho.orderly.layout.fits i).2
  rw [hi] at hs
  have hs' : Suits ρ ((m.heap.cellAt i).set f v) (ρ i) := by
    rw [hi]
    obtain ⟨h1, h2, h3⟩ := hs
    have hw : ∀ w ∈ ((m.heap.cellAt i).set f v).words, Safe ρ w := by
      intro w hw
      obtain rfl | hw := Cell.mem_words_set hw
      · exact hv
      · exact h3 w hw
    cases f with
    | t => exact ⟨(ht rfl).1, (ht rfl).2, hw⟩
    | x | y | z => exact ⟨h1, h2, hw⟩
  refine (ho.ensures_store (.inl hi) hs' (ho.orderly.layout.avoids hv)).imp ?_
  rintro - m' ⟨hset, ho', hc⟩
  exact ⟨hset, ho', hc.frame.one hi (.inl hi), hc.untouched⟩

theorem ensures_setWord (f : Field) : Ensures (setField f) m
      (fun _ m' => ∃ ρ', Open t e a [] ρ' m' ∧
        Confined (fun i r => Mine t i r ∨ r = .data) ρ m ρ' m' ∧
        ∀ i, ρ i = .data → m'.heap.cellAt i = m.heap.cellAt i ∨
          ∃ v, m'.heap.cellAt i = (m.heap.cellAt i).set f v ∧
          ∀ s, m.Stacks t s → s = v :: .ref i :: s.tail.tail)
      fun m' => ∃ ρ', Open t e a [] ρ' m' ∧ Within t ρ m ρ' m' := by
  unfold setField
  refine Ensures.bind ho.runs_popTop ?_
  rintro v m₁ ⟨ρ₁, ho₁, hw₁, hv, -, hstack⟩
  have hl := ho₁.orderly.layout
  have hsame : ∀ i, ρ i = .data → m₁.heap.cellAt i = m.heap.cellAt i := fun i hi =>
    (hw₁.frame.same (i := i) (by rw [hi]; exact fun h => ho.not_staging hi (.inl h))).2
  have hbelow : ∀ i s, m₁.heap.car (m₁.heap.cellAt t).x = .ref i → ρ₁ i = .data → m.Stacks t s →
      s = v :: .ref i :: s.tail.tail := by
    intro i s hi hdata hs
    obtain ⟨rfl, hs₁⟩ := hstack s hs
    rw [hl.car_lists hs₁] at hi
    cases s with
    | nil =>
      cases hi
      exact absurd (hl.bounds (i := 0) (by rw [hdata]; simp)).1 (by decide)
    | cons v s =>
      cases s with
      | nil =>
        cases hi
        exact absurd (hl.bounds (i := 0) (by rw [hdata]; simp)).1 (by decide)
      | cons w s =>
        cases hi
        rfl
  refine ho₁.stack_bind ?_
  rw [ensures_look_bind]
  have hcell : Safe ρ₁ (m₁.heap.car (m₁.heap.cellAt t).x) := by
    obtain ⟨l, hp, hm⟩ := ho₁.stacked
    exact ho₁.readable.car _ (.inr ⟨l, hp, fun i hi => (hm i).1 hi⟩)
  -- What is left to do once the type has been checked.
  have hstore : (f = .t → v ≠ .freeT ∧ v ≠ .actorT) → Ensures (do
      if ← look fun h => !h.inHeap (m₁.heap.car (m₁.heap.cellAt t).x) ||
          (m₁.heap.car (m₁.heap.cellAt t).x).isCap ||
          h.isFree (m₁.heap.car (m₁.heap.cellAt t).x) then
        note (.setOnNonCell (m₁.heap.car (m₁.heap.cellAt t).x) f)
      else liftM (store (m₁.heap.car (m₁.heap.cellAt t).x) f v)) m₁
      (fun _ m' => ∃ ρ', Open t e a [] ρ' m' ∧
        Confined (fun i r => Mine t i r ∨ r = .data) ρ m ρ' m' ∧
        ∀ i, ρ i = .data → m'.heap.cellAt i = m.heap.cellAt i ∨
        ∃ v, m'.heap.cellAt i = (m.heap.cellAt i).set f v ∧
          ∀ s, m.Stacks t s → s = v :: .ref i :: s.tail.tail)
      fun m' => ∃ ρ', Open t e a [] ρ' m' ∧ Within t ρ m ρ' m' := by
    intro ht
    generalize m₁.heap.car (m₁.heap.cellAt t).x = w at hcell hbelow ⊢
    have hw : Confined (fun i r => Mine t i r ∨ r = .data) ρ m ρ₁ m₁ := hw₁.mono fun _ _ => .inl
    rw [ensures_look_bind]
    refine .ite (fun _ => ?_) fun hc => ?_
    · refine (Silent.note _).ensures fun _ m₂ hq =>
        ⟨ρ₁, ho₁.quiet hq, hw.trans hq.confined, fun i hi => ?_⟩
      rw [hq.heap, hsame i hi]
      exact .inl rfl
    cases w with
    | fixnum | cap => simp [inHeap, Word.isFixnum, Word.isCap] at hc
    | ref i =>
      have hdata : ρ₁ i = .data := by
        refine hcell.resolve_left fun hlt => hc ?_
        simp [inHeap, Word.index, Nat.not_le.2 hlt]
      refine (ho₁.ensures_storeData hdata hv ht).imp ?_
      rintro - m₂ ⟨hset, ho₂, hc₂⟩
      refine ⟨ρ₁, ho₂, hw.trans (hc₂.mono fun _ _ => .inr), fun j hj => ?_⟩
      by_cases hij : j = i
      · subst hij
        rw [hset.self, ← hsame j hj]
        exact .inr ⟨v, rfl, fun s => hbelow j s rfl hdata⟩
      · rw [hset.ne hij, hsame j hj]
        exact .inl rfl
  dsimp only
  refine .ite (fun hf => ?_) fun hf => hstore fun h => absurd h hf
  unfold checkType
  dsimp only
  by_cases h1 : v = .actorT
  · simp only [h1, if_true]
    exact .inr ⟨ρ₁, ho₁, hw₁⟩
  · by_cases h2 : v = .freeT
    · simp only [if_neg h1, if_pos h2]
      exact .inr ⟨ρ₁, ho₁, hw₁⟩
    · simp only [h1, if_false, h2]
      exact hstore fun _ => ⟨h2, h1⟩

theorem ensures_setField (f : Field) : Ensures (setField f) m
      (fun _ m' => ∃ ρ', Open t e a [] ρ' m' ∧
        Confined (fun i r => Mine t i r ∨ r = .data) ρ m ρ' m' ∧
        ∀ i, ρ i = .data → (m'.heap.cellAt i).t = (m.heap.cellAt i).t ∨
          f = .t ∧ ∀ s, m.Stacks t s → s = (m'.heap.cellAt i).t :: .ref i :: s.tail.tail)
      fun m' => ∃ ρ', Open t e a [] ρ' m' ∧ Within t ρ m ρ' m' := by
  refine (ho.ensures_setWord f).imp ?_
  rintro - m' ⟨ρ', ho', hc, hcells⟩
  refine ⟨ρ', ho', hc, fun i hi => ?_⟩
  obtain hsame | ⟨v, hset, hstack⟩ := hcells i hi
  · exact .inl (by rw [hsame])
  · rw [hset]
    cases f with
    | t => exact .inr ⟨rfl, hstack⟩
    | x | y | z => exact .inl rfl

theorem runs_prepend {vs : List Word} {tail : Word} (hv : ∀ v ∈ vs, Safe ρ v) (ht : Safe ρ tail) :
    Runs t e a ρ m (liftM (prepend vs tail)) fun ρ' _ w => Safe ρ' w := by
  unfold prepend
  induction vs with
  | nil => exact .pure ho ht
  | cons v vs ih =>
    rw [List.foldrM_cons, liftM_bind]
    refine (ih fun w hw => hv w (List.mem_cons_of_mem v hw)).bind fun w ρ' m' ho' hw hs => ?_
    exact ho'.runs_cons (hw.safe (hv v List.mem_cons_self)) hs

theorem runs_makeList (n : Int) : Runs t e a ρ m (makeList n) fun _ _ _ => True := by
  unfold makeList
  refine (ho.runs_stackCount _ _).bind fun k ρ₁ m₁ ho₁ _ _ => ?_
  refine (ho₁.runs_popN k).bind fun vs ρ₂ m₂ ho₂ _ hvs => ?_
  refine ho₂.runs_pop.bind fun tail ρ₃ m₃ ho₃ hw hv => ?_
  refine (ho₃.runs_prepend (fun v hm => hw.safe (hvs v hm)) hv).bind fun w ρ₄ m₄ ho₄ _ hw => ?_
  exact ho₄.runs_push hw

theorem runs_splitList (n : Int) : Runs t e a ρ m (splitList n) fun _ _ _ => True := by
  unfold splitList
  dsimp only
  refine .ite (fun _ => .throw_bind ho) fun _ => ?_
  refine ho.runs_pop.bind fun v ρ₁ m₁ ho₁ _ hv => .ask_bind ho₁ ?_
  rintro ⟨items, rest⟩ hs
  obtain ⟨hi, hr⟩ := (Readable.data ho₁.orderly.layout).splitItems hv hs
  refine (ho₁.runs_push hr).bind fun _ ρ₂ m₂ ho₂ hw _ => ?_
  exact ho₂.runs_pushAll fun v hm => hw.safe (hi v hm)

theorem runs_indexList (n : Int) : Runs t e a ρ m (indexList n) fun _ _ _ => True := by
  unfold indexList
  refine ho.runs_pop.bind fun v ρ₁ m₁ ho₁ _ hv => .look_bind ?_
  exact ho₁.runs_push (Readable.nth ho₁.orderly.layout n hv)

theorem runs_arithmetic (op : Alu) : Runs t e a ρ m (arithmetic op) fun _ _ _ => True := by
  unfold arithmetic
  dsimp only
  refine .ite (fun _ => .pure_bind ?_) fun _ => ?_
  · exact (ho.runs_popNumber _).bind fun n ρ₁ m₁ ho₁ _ _ => ho₁.runs_push (safe_fix _)
  · refine (ho.runs_popNumber _).bind fun k ρ₁ m₁ ho₁ _ _ => ?_
    exact (ho₁.runs_popNumber _).bind fun n ρ₂ m₂ ho₂ _ _ => ho₂.runs_push (safe_fix _)

theorem runs_compare (r : Relation) : Runs t e a ρ m (compare r) fun _ _ _ => True := by
  have hany : ∀ b : Word → Word → Bool, Runs t e a ρ m (do
      let v ← pop
      let w ← pop
      push (.ofBool (b v w))) fun _ _ _ => True := fun b =>
    ho.runs_pop.bind fun v ρ₁ m₁ ho₁ _ _ => ho₁.runs_pop.bind fun w ρ₂ m₂ ho₂ _ _ =>
      ho₂.runs_push (safe_ofBool _)
  have hnum : ∀ b : Int → Int → Bool, Runs t e a ρ m (do
      let v ← popNumber "cmp"
      let w ← popNumber "cmp"
      push (.ofBool (b v w))) fun _ _ _ => True := fun b =>
    (ho.runs_popNumber _).bind fun v ρ₁ m₁ ho₁ _ _ =>
      (ho₁.runs_popNumber _).bind fun w ρ₂ m₂ ho₂ _ _ => ho₂.runs_push (safe_ofBool _)
  cases r with
  | eq | ne => exact hany _
  | _ => exact hnum _

theorem safe_self : Safe ρ (.cap a) := by
  show ρ a ≠ .condemned
  rw [ho.roles.2]
  simp

theorem safe_message : Safe ρ (m.heap.cellAt e).y := by
  have hs := (ho.orderly.layout.fits e).2
  rw [ho.roles.1] at hs
  exact hs.2.2

theorem safe_actor : Safe ρ (m.heap.cellAt a).x ∧ Safe ρ (m.heap.cellAt a).y := by
  have hs := (ho.orderly.layout.fits a).2
  rw [ho.roles.2] at hs
  exact hs.2

theorem runs_message (n : Int) : Runs t e a ρ m (message n) fun _ _ _ => True := by
  unfold message
  refine ho.event_bind (Runs.fetch_bind fun i hi _ => ?_)
  cases hi
  exact .look_bind (ho.runs_push (Readable.nth ho.orderly.layout n ho.safe_message))

theorem runs_own (o : Own) :
    Runs t e a ρ m (own o) fun _ m' _ => ∀ s, m.Stacks t s → m'.Stacks t (m.ownWord a o :: s) := by
  unfold own
  refine ho.me_bind ?_
  cases o with
  | self => exact ho.runs_pushTop ho.safe_self
  | beh =>
    refine Runs.fetch_bind fun i hi _ => ?_
    cases hi
    exact ho.runs_pushTop ho.safe_actor.1
  | state =>
    refine Runs.fetch_bind fun i hi _ => ?_
    cases hi
    exact ho.runs_pushTop ho.safe_actor.2

theorem runs_popBehavior (op : String) :
    Runs t e a ρ m (popBehavior op) fun ρ' m' v => Safe ρ' v ∧ m'.heap.isCode v = true ∧
      ∀ s, m.Stacks t s → s = v :: s.tail ∧ m'.Stacks t s.tail := by
  unfold popBehavior
  refine ho.runs_popTop.bind fun v ρ₁ m₁ ho₁ _ ⟨hv, _, hstack⟩ => .look_bind ?_
  dsimp only
  refine .ite (fun _ => .throw_bind ho₁) fun hcode =>
    .pure ho₁ ⟨hv, by simpa using hcode, fun s hs => ?_⟩
  obtain ⟨rfl, hs⟩ := hstack s hs
  refine ⟨?_, hs⟩
  cases s with
  | cons w s => rfl
  | nil =>
    obtain ⟨i, hi, hd⟩ := ho₁.orderly.layout.data_of_isCode hv (by simpa using hcode)
    cases hi
    exact absurd (ho₁.orderly.layout.bounds (by rw [hd]; simp)).1 (by decide)

theorem runs_makeActor (n : Int) :
    Runs t e a ρ m (makeActor n) fun ρ' m' w => ∃ i, w = .ref i ∧ ρ' i = .idle ∧
      m'.heap.isCode (m'.heap.cellAt i).x = true := by
  unfold makeActor
  refine (ho.runs_popBehavior _).bind fun beh ρ₁ m₁ ho₁ _ ⟨hb, hcode, _⟩ => ?_
  refine Ensures.bind (ho₁.ensures_carve "new" n) ?_
  rintro state m₂ ⟨ρ₂, l, ho₂, hw₂, hs, -⟩
  obtain ⟨ho₃, hw₃, hstate⟩ := ho₂.publish hs
  have hw := hw₂.trans hw₃
  have ht : Word.actorT ≠ .freeT := by decide
  refine (ho₃.ensures_alloc (r := .idle) (c := ⟨.actorT, beh, state, .undefined⟩)
    (.inr (.inr rfl)) ht (fun i hi => ?_) (Cell.forall_words.2 ?_)).imp ?_
  · have hg : Grows (ρ₂.setAll l .data) ((ρ₂.setAll l .data).set i .idle) :=
      Roles.grows_set (by obtain hi | hi := hi <;> simp [hi]) (by simp)
    exact ⟨rfl, (hw.safe hb).mono hg, hstate.mono hg, rfl⟩
  · have hl := ho₃.orderly.layout
    exact ⟨ho₃.orderly.literal (by decide), hl.avoids (hw.safe hb), hl.avoids hstate,
      ho₃.orderly.literal (by decide)⟩
  · rintro w m₄ ⟨i, rfl, -, htake, hw₄, hopen⟩
    refine ⟨_, hopen [] (by simp), hw.trans hw₄, i, rfl, Roles.set_self .., ?_⟩
    rw [htake.self]
    exact (hw.trans hw₄).isCode ho₁ hb hcode

theorem runs_createActor (n : Int) : Runs t e a ρ m (createActor n) fun _ _ _ => True := by
  rw [createActor_eq]
  refine (ho.runs_makeActor n).bind fun w ρ₁ m₁ ho₁ _ ⟨i, hw, hi, _⟩ => ?_
  subst hw
  refine ho₁.runs_push ?_
  show ρ₁ i ≠ .condemned
  rw [hi]
  simp

theorem same_event (hw : Within t ρ m ρ' m') : Same ρ ρ' m.heap m'.heap e := by
  obtain ⟨hte, -, -⟩ := ho.orderly.layout.distinct ho.role
  refine hw.frame.same ?_
  rw [ho.roles.1]
  rintro (h | h | h)
  · exact hte h.symm
  · cases h
  · cases h

theorem ensures_become (n : Int) : Ensures (become n) m
      (fun _ m' => ∃ ρ', Open t e a [] ρ' m' ∧ Stages t e ρ m ρ' m' ∧
        (∀ f, f ≠ .z → (m'.heap.cellAt e).get f = (m.heap.cellAt e).get f) ∧
        (∀ s, m.Stacks t s →
          n.toNat < s.length ∧ m'.heap.Lists (m'.heap.cellAt e).z (s.take (n.toNat + 1))) ∧
        ∀ p, (m'.heap.cellAt e).z = .ref p → m'.heap.isCode (m'.heap.cellAt p).x = true)
      fun m' => ∃ ρ', Open t e a [] ρ' m' ∧ Within t ρ m ρ' m' := by
  unfold become
  refine Ensures.bind (ho.runs_popBehavior _) ?_
  rintro beh m₁ ⟨ρ₁, ho₁, hw₁, hb, hcode, hstack⟩
  refine Ensures.bind ((ho₁.ensures_carve "beh" n).mono (fun _ _ h => h)
    fun m₂ ⟨ρ₂, ho₂, hw₂⟩ => ⟨ρ₂, ho₂, hw₁.trans hw₂⟩) ?_
  rintro state m₂ ⟨ρ₂, l, ho₂, hw₂, hs, hitems⟩
  refine (ho₂.ensures_stageBecome (hw₂.safe hb) hs).imp ?_
  rintro - m₃ ⟨ρ₃, ho₃, hs₃, hfields, hlist⟩
  refine ⟨ρ₃, ho₃, (hw₁.trans hw₂).stages.trans hs₃, fun f hf => ?_, fun s hs => ?_, fun p hp => ?_⟩
  · rw [hfields f hf, (ho.same_event (hw₁.trans hw₂)).2]
  · obtain ⟨htop, hs⟩ := hstack s hs
    obtain ⟨hlen, hitems⟩ := hitems _ hs
    rw [htop, List.take_succ_cons, ← hitems, List.length_cons]
    exact ⟨Nat.lt_succ_of_le hlen, hlist⟩
  · rw [hlist.head hp]
    have hw := hw₂.stages.trans hs₃
    exact hw.frame.isCode ho₁.orderly.layout (fun i => ho₁.not_staging) hb hcode

end Open

theorem safe_parseFixnum (h : Heap) {b : Budget} {n : Numeral}
    (hw : parseFixnum.go h b n v = .ok w) : Safe ρ w := by
  fun_induction parseFixnum.go h b n v with
  | case1 => cases hw
  | case2 b n v _ b' _ n' _ ih => exact ih hw
  | case3 | case4 =>
    cases hw
    trivial

variable (ho : Open t e a [] ρ m)

include ho

theorem runs_convert (c : Conversion) : Runs t e a ρ m (convert c) fun _ _ _ => True := by
  unfold convert
  refine ho.runs_pop.bind fun v ρ₁ m₁ ho₁ _ hv => ?_
  cases c with
  | listToNumber =>
    exact .ask_bind ho₁ fun w hw => ho₁.runs_push (safe_parseFixnum _ hw)
  | listToSymbol =>
    refine Runs.bind (P := fun ρ' _ w => Safe ρ' w) ?_ fun w ρ₂ m₂ ho₂ _ hw => ho₂.runs_push hw
    refine (ho₁.orderly.ensures_internList ho₁.orderly hv ⟨ρ₁, ho₁, .refl⟩).imp ?_
    rintro w m₂ (⟨rfl, hw⟩ | ⟨i, j, rfl, hij, -, ho₂, hframe, hu⟩)
    · exact ⟨ρ₁, ho₁, .refl, hw⟩
    · obtain ⟨hopen, hwithin⟩ := ho₁.spare ho₂ hframe hu fun k hk =>
        Roles.held_of_set (by simp) (Roles.held_of_set (by simp) hk)
      refine ⟨_, hopen, hwithin, .inr ?_⟩
      rw [Roles.set_ne _ _ hij, Roles.set_self]

theorem runs_writeByte : Runs t e a ρ m writeByte fun _ _ _ => True := by
  unfold writeByte
  exact (ho.runs_popNumber _).bind fun n ρ₁ m₁ ho₁ _ _ => .silent (.console _) ho₁

theorem runs_readByte : Runs t e a ρ m readByte fun _ _ _ => True := by
  unfold readByte Runs
  rw [ensures_get_bind]
  obtain ⟨byte, console⟩ := m.console.getc
  refine Runs.silent_bind (.console fun _ => console) ho fun _ m₁ _ ho₁ => ?_
  cases byte with
  | some b => exact ho₁.runs_push (safe_fix _)
  | none => exact ho₁.runs_push (safe_fix _)

theorem runs_showValue (tag : Word) : Runs t e a ρ m (showValue tag) fun _ _ _ => True := by
  unfold showValue
  refine ho.runs_pop.bind fun v ρ₁ m₁ ho₁ _ _ => .ask_bind ho₁ fun text _ => ?_
  exact .silent_bind (.note _) ho₁ fun _ m₂ _ ho₂ => .silent (.trace _) ho₂

theorem undisturbed (ho' : Open t e a [] ρ' m')
    (hc : Confined M ρ m ρ' m') (hM : ∀ i r, M i r → Staging t e i r ∨ r = .data) :
    Undisturbed a ρ m ρ' m' := by
  obtain ⟨hte, hta, hea⟩ := ho.orderly.layout.distinct ho.role
  have hne : ∀ {ρ : Roles} {m : Machine} {i : Nat}, Open t e a [] ρ m → ρ i = .pending a →
      ¬ M i (.pending a) := by
    intro ρ m i ho hi hm
    obtain ((rfl | h | h) | rfl | h) | h := hM i _ hm
    · simp [ho.role] at hi
    · cases h
    · cases h
    · simp [ho.roles.1] at hi
    · cases h
    · cases h
  refine hc.frame.undisturbed (fun hm => ?_) (fun i => hne ho) fun i => hne ho'
  obtain ((h | h | h) | h | h) | h := hM a _ hm
  · exact hta h.symm
  · simp [ho.roles.2, Role.isSpare] at h
  · simp [ho.roles.2] at h
  · exact hea h.symm
  · simp [ho.roles.2] at h
  · simp [ho.roles.2] at h

theorem ensures_holdBack {target msg : Word} (hcap : target.isCap = true) (ht : Safe ρ target)
    (hm : Safe ρ msg) :
    Ensures (holdBack target msg) m
      (fun _ m' => ∃ ρ' i, Open t e a [] ρ' m' ∧
        Confined (fun j r => Mine t j r ∨ j = a ∨ r = .pending a) ρ m ρ' m' ∧
        (∀ j, ρ j = .pending a → m'.heap.cellAt j = m.heap.cellAt j) ∧ ρ i ≠ .pending a ∧
        (∀ j, ρ' j = .pending a ↔ j = i ∨ ρ j = .pending a) ∧
        m'.heap.cellAt i = ⟨.eventT, target, msg, (m.heap.cellAt a).z⟩ ∧
        m'.heap.cellAt a = (m.heap.cellAt a).set .z (.ref i)) E := by
  have hl := ho.orderly.layout
  obtain ⟨l, hchain, hmem⟩ := hl.listed .sends a (by rw [ho.roles.2]; rfl)
  have hmem : ∀ i, i ∈ l ↔ ρ i = .pending a := hmem
  unfold holdBack
  refine ho.me_bind (ensures_fetch_bind fun i hi _ => ?_)
  cases hi
  have hte : Word.eventT ≠ .freeT ∧ Word.eventT ≠ .actorT := by decide
  refine (ho.ensures_alloc (c := ⟨.eventT, target, msg, (m.heap.cellAt a).z⟩) (.inl rfl) hte.1
    (fun _ _ => hte) (Cell.forall_words.2 ⟨ho.orderly.literal (by decide), hl.avoids ht,
      hl.avoids hm, ho.orderly.avoids_get (by rw [ho.roles.2]; rfl)
      (by rw [ho.roles.2]; simp) .z⟩)).bind ?_
  rintro w m₁ ⟨i, rfl, hi, htake, hw₁, hopen⟩
  have ho₁ := hopen [i] (by simp)
  have hne : ∀ j, ρ j ≠ .free → ρ j ≠ .outside → j ≠ i := by
    rintro j h1 h2 rfl
    exact hi.elim h1 h2
  have hil : ∀ j ∈ l, j ≠ i := fun j hj =>
    hne j (by rw [(hmem j).1 hj]; simp) (by rw [(hmem j).1 hj]; simp)
  have hai : a ≠ i := hne a (by rw [ho.roles.2]; simp) (by rw [ho.roles.2]; simp)
  have hla : ∀ j, ρ j = .pending a → j ≠ a := by
    rintro j hj rfl
    simp [ho.roles.2] at hj
  refine (ho₁.orderly.ensures_lead (k := .sends) (o := a) (l := i :: l) (w := .ref i)
    (by rw [ho₁.roles.2]; rfl) ?_ ?_).imp ?_
  · refine ⟨rfl, (ho₁.orderly.layout.bounds (i := i) (by rw [Roles.set_self]; simp)).1, ?_⟩
    rw [htake.self]
    exact hchain.congr fun j hj => by rw [htake.ne (hil j hj)]
  · intro j hj
    obtain rfl | hj := List.mem_cons.1 hj
    · rw [htake.self]
      exact ⟨.inl (Roles.set_self ..), rfl, hcap, hw₁.safe ht, hw₁.safe hm⟩
    · have hs := (hl.fits j).2
      rw [(hmem j).1 hj] at hs
      rw [htake.ne (hil j hj), Roles.set_ne _ _ (hil j hj)]
      exact ⟨.inr ((hmem j).1 hj), hs.mono hw₁.frame.grows⟩
  · rintro - m₂ ⟨hset, ho₂, hframe, hu⟩
    have hroles : ∀ j ∈ i :: l, (ρ.set i .held) j = .held ∨ (ρ.set i .held) j = .pending a := by
      intro j hj
      obtain rfl | hj := List.mem_cons.1 hj
      · exact .inl (Roles.set_self ..)
      · rw [Roles.set_ne _ _ (hil j hj)]
        exact .inr ((hmem j).1 hj)
    refine ⟨_, i, ho₁.bundle ho₂ hu hroles ?_,
      (hw₁.mono fun _ _ => .inl).trans ⟨hframe.mono ?_, hu⟩, ?_, ?_, ?_, ?_, ?_⟩
    · intro j hj hj'
      simp only [List.mem_cons, not_or] at hj
      rw [Roles.set_ne _ _ hj.1, List.mem_singleton] at hj'
      exact absurd (hj'.resolve_right hj.1) fun h => hj.2 ((hmem j).2 h)
    · rintro j r (hj | hj | hj)
      · exact .inr (.inl hj)
      · exact .inl (.spare (by rw [hj]; rfl))
      · exact .inr (.inr hj)
    · intro j hj
      rw [hset.ne (hla j hj), htake.ne (hil j ((hmem j).2 hj))]
    · intro hp
      exact hil i ((hmem i).2 hp) rfl
    · intro j
      rw [← hmem, ← List.mem_cons]
      exact Roles.bundle_member.symm
    · rw [hset.ne hai.symm, htake.self]
    · rw [hset.self, htake.ne hai]
      rfl

theorem runs_composeMessage (n : Int) : Runs t e a ρ m (composeMessage n) fun ρ' _ r =>
      r.1.isCap = true ∧ Safe ρ' r.1 ∧ Safe ρ' r.2 := by
  unfold composeMessage
  refine ho.runs_pop.bind fun target ρ₁ m₁ ho₁ _ htarget => .look_bind ?_
  dsimp only
  refine .ite (fun _ => .throw_bind ho₁) fun hactor => ?_
  have hcap : target.isCap = true := by
    simp only [isActor, Bool.not_eq_true', Bool.not_eq_false, Bool.and_eq_true] at hactor
    exact hactor.1
  refine .ite (fun _ => ?_) fun _ => ?_
  · exact ho₁.runs_pop.bind fun msg ρ₂ m₂ ho₂ hw₂ hm => .pure ho₂ ⟨hcap, hw₂.safe htarget, hm⟩
  · refine (ho₁.runs_stackCount _ _).bind fun k ρ₂ m₂ ho₂ hw₂ _ => ?_
    refine (ho₂.runs_popN k).bind fun vs ρ₃ m₃ ho₃ hw₃ hvs => ?_
    refine (ho₃.runs_prepend hvs safe_nil).bind fun msg ρ₄ m₄ ho₄ hw₄ hm => ?_
    exact .pure ho₄ ⟨hcap, ((hw₂.trans hw₃).trans hw₄).safe htarget, hm⟩

theorem ensures_composeMessage (n : Int) : Ensures (composeMessage n) m
      (fun r m' => ∃ ρ', Open t e a [] ρ' m' ∧ Within t ρ m ρ' m' ∧
        composeMessage n m = .ok r m' ∧ r.1.isCap = true ∧ Safe ρ' r.1 ∧ Safe ρ' r.2)
      fun m' => ∃ ρ', Open t e a [] ρ' m' ∧ Within t ρ m ρ' m' := by
  refine (Ensures.result (ho.runs_composeMessage n)).imp ?_
  rintro r m' ⟨hr, ρ', ho', hw, hp⟩
  exact ⟨ρ', ho', hw, hr, hp⟩

end Open

def Sending (a : Nat) (ρ : Roles) (m : Machine) (ρ' : Roles) (m' : Machine) : Instruction → Prop
  | .send n => Appends a n ρ m ρ' m'
  | _ => Undisturbed a ρ m ρ' m'

namespace Instruction

def reach (t e a : Nat) : Instruction → Nat → Role → Prop
  | .set _ => fun i r => Mine t i r ∨ r = .data
  | .beh _ => Staging t e
  | .send _ => fun i r => Mine t i r ∨ i = a ∨ r = .pending a
  | _ => Mine t

def Effect (t e a : Nat) (m m' : Machine) : Instruction → Prop
  | .beh n => (∀ f, f ≠ .z → (m'.heap.cellAt e).get f = (m.heap.cellAt e).get f) ∧
    (∀ s, m.Stacks t s →
      n.toNat < s.length ∧ m'.heap.Lists (m'.heap.cellAt e).z (s.take (n.toNat + 1))) ∧
    ∀ p, (m'.heap.cellAt e).z = .ref p → m'.heap.isCode (m'.heap.cellAt p).x = true
  | .my o => ∀ s, m.Stacks t s → m'.Stacks t (m.ownWord a o :: s)
  | _ => True

theorem mine_reach {t e a : Nat} {r : Role} (code : Instruction) (hm : Mine t i r) :
    code.reach t e a i r := by
  cases code <;> first | exact hm | exact .inl hm

end Instruction

structure Performs (t e a : Nat) (i : Instruction) (ρ : Roles) (m : Machine) (ρ' : Roles)
    (m' : Machine) :
    Prop where
  confined : Confined (i.reach t e a) ρ m ρ' m'
  sending : Sending a ρ m ρ' m' i
  effect : i.Effect t e a m m'
  run : ∃ next ip, perform i next m = .ok (.next ip) m'

def Flows (t e a : Nat) (ρ : Roles) (m : Machine) (i : Instruction) :
    Flow → Machine → Prop
  | .next ip, m' => ∃ ρ', Open t e a [] ρ' m' ∧ Performs t e a i ρ m ρ' m' ∧ Safe ρ' ip
  | .ended en, m' => i = .finish en ∧ ∃ ρ', Closed t e a ρ m en ρ' m'

namespace Open

variable {t e a : Nat}

theorem ensures_perform (ho : Open t e a [] ρ m) (i : Instruction) {next : Word}
    (hi : Safe ρ i.operand) (hn : Safe ρ next) :
    Ensures (perform i next) m (Flows t e a ρ m i)
      fun m' => ∃ ρ', Open t e a [] ρ' m' ∧ Within t ρ m ρ' m' := by
  refine Ensures.of_result ?_
  obtain ⟨R, hR⟩ : ∃ R : Flow → Machine → Prop,
      ∀ flow m', R flow m' ↔ perform i next m = .ok flow m' := ⟨_, fun _ _ => .rfl⟩
  simp only [← hR]
  have hdone : ∀ {ip m'}, R (.next ip) m' → ∃ next ip, perform i next m = .ok (.next ip) m' :=
    fun h => ⟨next, _, (hR _ _).1 h⟩
  clear hR
  -- Most instructions keep to what the thread has, and go on to the next one.
  have hflow : ∀ {act : MachineM Unit} {P : Roles → Machine → Unit → Prop},
      (∀ {ρ' m'}, Undisturbed a ρ m ρ' m' → P ρ' m' () → Sending a ρ m ρ' m' i ∧
        i.Effect t e a m m') →
      Runs t e a ρ m act P →
      Ensures (act >>= fun _ => pure (Flow.next next)) m
        (fun flow m' => R flow m' → Flows t e a ρ m i flow m')
        fun m' => ∃ ρ', Open t e a [] ρ' m' ∧ Within t ρ m ρ' m' := by
    intro act P hp hr
    refine Ensures.bind hr ?_
    rintro ⟨⟩ m' ⟨ρ', ho', hw, h⟩ hrun
    obtain ⟨hsending, heffect⟩ := hp (ho.undisturbed ho' hw fun _ _ => .inl ∘ .inl) h
    exact ⟨ρ', ho', ⟨hw.mono fun _ _ => i.mine_reach, hsending, heffect, hdone hrun⟩, hw.safe hn⟩
  unfold perform
  cases i with
  | typeq v => exact hflow .intro (ho.runs_typeTest v)
  | cell n => exact hflow .intro (ho.runs_makeCell n)
  | get f => exact hflow .intro (ho.runs_getField f)
  | set f =>
    refine (ho.ensures_setField f).bind ?_
    rintro - m' ⟨ρ', ho', hc, -⟩ hrun
    exact ⟨ρ', ho', ⟨hc, ho.undisturbed ho' hc fun _ _ => .imp_left .inl, trivial, hdone hrun⟩,
      hc.safe hn⟩
  | pair n => exact hflow .intro (ho.runs_makeList n)
  | part n => exact hflow .intro (ho.runs_splitList n)
  | nth n => exact hflow .intro (ho.runs_indexList n)
  | push v => exact hflow .intro (ho.runs_push hi)
  | depth =>
    dsimp only
    rw [← bind_assoc]
    exact hflow .intro
      (ho.runs_depth.bind fun _ _ _ ho' _ _ => ho'.runs_push (safe_fix _))
  | drop n => exact hflow .intro (ho.runs_dropItems n)
  | pick n => exact hflow .intro (ho.runs_pick n)
  | dup n => exact hflow .intro (ho.runs_dup n)
  | roll n => exact hflow .intro (ho.runs_roll n)
  | alu op => exact hflow .intro (ho.runs_arithmetic op)
  | eq v =>
    dsimp only
    rw [← bind_assoc]
    exact hflow .intro
      (ho.runs_pop.bind fun _ _ _ ho' _ _ => ho'.runs_push (safe_ofBool _))
  | cmp r => exact hflow .intro (ho.runs_compare r)
  | branch target =>
    refine Ensures.bind ho.runs_pop ?_
    rintro v m' ⟨ρ', ho', hw, -⟩ hrun
    refine ⟨ρ', ho', ⟨hw, ho.undisturbed ho' hw fun _ _ => .inl ∘ .inl, trivial, hdone hrun⟩, ?_⟩
    split
    · exact hw.safe hi
    · exact hw.safe hn
  | msg n => exact hflow .intro (ho.runs_message n)
  | my o => exact hflow .intro (ho.runs_own o)
  | send n =>
    refine (ho.ensures_composeMessage n).bind ?_
    rintro ⟨target, msg⟩ m₁ ⟨ρ₁, ho₁, hw₁, hr, hcap, ht, hm⟩
    refine (ho₁.ensures_holdBack hcap ht hm).bind ?_
    rintro - m' ⟨ρ', i, ho', hc, hcells, hi, hroles, hevent, hmarker⟩ hrun
    have hq := ho.undisturbed ho₁ hw₁ fun _ _ => .inl ∘ .inl
    refine ⟨ρ', ho', ⟨(hw₁.mono fun _ _ => .inl).trans hc, ⟨ho'.roles.2.trans ho.roles.2.symm,
      fun j hj => ?_, i, target, msg, m₁, hr, fun hp => hi ((hq.pending i).2 hp),
      fun j => ?_, ?_, ?_⟩, trivial, hdone hrun⟩, hc.safe (hw₁.safe hn)⟩
    · rw [hcells j ((hq.pending j).2 hj), hq.same j hj]
    · rw [hroles, hq.pending]
    · rw [hevent, hq.actor.2]
    · rw [hmarker, hq.actor.2]
  | new n => exact hflow .intro (ho.runs_createActor n)
  | beh n =>
    refine (ho.ensures_become n).bind ?_
    rintro - m' ⟨ρ', ho', hs, heffect⟩ hrun
    exact ⟨ρ', ho', ⟨hs, ho.undisturbed ho' hs fun _ _ => .inl, heffect, hdone hrun⟩, hs.safe hn⟩
  | finish en =>
    refine (ho.ensures_endTransaction en).bind ?_
    rintro - m' hc -
    exact ⟨rfl, hc⟩
  | convert c => exact hflow .intro (ho.runs_convert c)
  | putc => exact hflow .intro ho.runs_writeByte
  | getc => exact hflow .intro ho.runs_readByte
  | debug tag => exact hflow .intro (ho.runs_showValue tag)

end Open

theorem Instruction.safe_operand {op : Opcode} {i : Instruction}
    (hi : ofOperand op v = .ok i) (hv : Safe ρ v) : Safe ρ i.operand := by
  cases op with
  | typeq | push | eq | branch | debug =>
    cases hi
    exact hv
  | depth | putc | getc =>
    cases hi
    exact safe_undefined
  | _ =>
    -- The operand is a number, whichever it is.
    simp only [ofOperand, Functor.map, Except.map] at hi
    split at hi <;> cases hi
    trivial

theorem Layout.instruction (hl : Layout ρ h events threads)
    (hip : Safe ρ ip) {i : Instruction} {next : Word} (hi : h.instruction ip = .ok (i, next)) :
    Safe ρ i.operand ∧ Safe ρ next := by
  unfold Heap.instruction at hi
  split at hi
  · next hc =>
    have hcell : h.isCell ip = true := by
      simp only [isCode, hasType, Bool.and_eq_true] at hc
      exact hc.1
    dsimp only at hi
    cases ho : Instruction.ofCell (h.cellAt ip.index) with
    | error f =>
      rw [ho] at hi
      cases hi
    | ok i' =>
      rw [ho] at hi
      cases hi
      unfold Instruction.ofCell at ho
      split at ho
      · exact ⟨Instruction.safe_operand ho (hl.safe_field hip hcell .y), hl.safe_field hip hcell .z⟩
      · cases ho
  · cases hi

def GivesUp (t e a : Nat) (ip : Word) (ρ : Roles) (m : Machine) (ρ' : Roles)
    (m' : Machine) : Prop :=
  Within t ρ m ρ' m' ∨ ∃ i next, m.heap.instruction ip = .ok (i, next) ∧ Performs t e a i ρ m ρ' m'

namespace Open

variable {t e a : Nat}

theorem ensures_performAt (ho : Open t e a [] ρ m) (hip : Safe ρ ip) : Ensures (performAt ip) m
      (fun flow m' => ∃ i next, m.heap.instruction ip = .ok (i, next) ∧ Flows t e a ρ m i flow m' ∧
        ∀ ip, flow = .next ip → m'.heap.isCode ip = true)
      fun m' => ∃ ρ', Open t e a [] ρ' m' ∧ GivesUp t e a ip ρ m ρ' m' := by
  unfold performAt
  refine Ensures.bind (Q := fun r m' => m = m' ∧ m.heap.instruction ip = .ok r) ?_ ?_
  · rw [ensures_ask]
    cases m.heap.instruction ip with
    | ok r => exact ⟨rfl, rfl⟩
    | error f => exact .inr ⟨ρ, ho, .inl .refl⟩
  rintro ⟨i, next⟩ m' ⟨rfl, hi⟩
  obtain ⟨hop, hnext⟩ := ho.orderly.layout.instruction hip hi
  refine Ensures.bind ((ho.ensures_perform i hop hnext).mono (fun _ _ h => h)
    fun m' ⟨ρ', ho', hw⟩ => ⟨ρ', ho', .inl hw⟩) ?_
  rintro (ip' | en) m' hf
  · dsimp only
    rw [ensures_look_bind]
    refine .ite (fun _ => ?_) fun hc => ?_
    · obtain ⟨ρ', ho', hp, -⟩ := hf
      exact .inr ⟨ρ', ho', .inr ⟨i, next, hi, hp⟩⟩
    · refine ⟨i, next, hi, hf, fun _ h => ?_⟩
      cases h
      simpa using hc
  · exact ⟨i, next, hi, hf, by simp⟩

end Open

end ActorMachine
