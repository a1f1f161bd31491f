import ActorMachine.Proofs.Host
import ActorMachine.Proofs.FaultFreedom
import ActorMachine.Proofs.Observation

namespace ActorMachine

open Heap

open Machine

variable {α β : Type} {F : Fault → Prop} {ρ ρ' : Roles} {h h' : Heap} {m m' : Machine} {t e a : Nat}
  {v w : Word} {f : Field} {events threads events' threads' : Queue}

inductive Heap.Along (h : Heap) : Word → Nat → Prop
  | here {i : Nat} : h.isPair (.ref i) = true → h.Along (.ref i) i
  | next {v : Word} {i : Nat} : h.isPair v = true → h.Along (h.cdr v) i → h.Along v i

def Machine.Files (m : Machine) (i : Nat) : Prop := ∃ b ∈ m.symbols.buckets.toList, m.heap.Along b i

def Machine.Filed (m : Machine) : Prop := ∀ i, m.Files i → m.heap.isCell (m.heap.cellAt i).x = true

def Traces (why : Prop) (r : Except Fault α) : Prop :=
  ∀ g, r = .error g → g.isMishap = false ∨ (∃ v, g = .invalidRef v) ∧ why

namespace Traces

variable {why other : Prop} {r : Except Fault α}

theorem of_harmless (hr : Harmless r) : Traces why r := fun g hg => .inl (hr g hg)

theorem mono (hr : Traces why r) (hw : why → other) : Traces other r :=
  fun g hg => (hr g hg).imp_right
  fun h => ⟨h.1, hw h.2⟩

theorem bind {k : α → Except Fault β} (hr : Traces why r) (hk : ∀ a, Traces why (k a)) :
    Traces why (r >>= k) := by
  cases r with
  | ok a => exact hk a
  | error g =>
    rintro _ ⟨⟩
    exact hr g rfl

end Traces

theorem Heap.traces_cell : Traces (h.isCell v = false) (h.cell v) := by
  unfold cell
  split
  · exact .of_harmless .ok
  · next hv =>
    rintro _ ⟨⟩
    exact .inr ⟨⟨v, rfl⟩, by simpa using hv⟩

theorem SymbolTable.traces_find {hash chars chain : Word} {b : Budget} :
    Traces (∃ i, h.Along chain i ∧ h.isCell (h.cellAt i).x = false)
      (find? h hash chars b chain) := by
  fun_induction find? h hash chars b chain with
  | case1 b chain hp e hb =>
    rw [(Budget.exhausted hb).2]
    exact .of_harmless (.error rfl)
  | case2 b chain hp b' hb sym ih =>
    obtain ⟨i, rfl, -⟩ := isPair_iff.1 hp
    have hsym : sym = (h.cellAt i).x := car_eq hp
    have hstep : (∃ j, h.Along (h.cdr (.ref i)) j ∧ h.isCell (h.cellAt j).x = false) →
        ∃ j, h.Along (.ref i) j ∧ h.isCell (h.cellAt j).x = false := by
      rintro ⟨j, hj, hc⟩
      exact ⟨j, .next hp hj, hc⟩
    have hrest := ih.mono hstep
    refine (traces_cell.mono fun hc => ⟨i, .here hp, hsym ▸ hc⟩).bind fun c => ?_
    dsimp only
    split
    · refine (Traces.of_harmless harmless_equalAll).bind fun b => ?_
      split
      · exact .of_harmless .ok
      · exact hrest
    · exact hrest
  | case3 => exact .of_harmless .ok

theorem Layout.cellAt_safe {i : Nat} (hl : Layout ρ h events threads)
    (hl' : Layout ρ' h' events' threads')
    (hd : ∀ i, ρ i = .data → h'.cellAt i = h.cellAt i) (hw : Safe ρ (.ref i)) :
    h'.cellAt i = h.cellAt i := by
  obtain hi | hi := hw
  · rw [hl.literals i hi, hl'.literals i hi]
  · exact hd i hi

theorem Layout.lt_top_of_safe {i : Nat} (hl : Layout ρ h events threads) (hw : Safe ρ (.ref i)) :
    i < h.top := by
  obtain hi | hi := hw
  · have := hl.reserved_le_permanent
    have := hl.permanent_le
    omega
  · exact (hl.bounds (by rw [hi]; simp)).2

theorem Heap.Along.safe {i : Nat} (ha : h.Along v i) (hl : Layout ρ h events threads)
    (hv : Safe ρ v) :
    Safe ρ (.ref i) := by
  induction ha with
  | here => exact hv
  | next hp _ ih => exact ih (hl.safe_cdr hv)

theorem Heap.Along.of_same {i : Nat} (ha : h'.Along v i) (hl : Layout ρ h events threads)
    (hl' : Layout ρ' h' events' threads') (hd : ∀ i, ρ i = .data → h'.cellAt i = h.cellAt i)
    (hv : Safe ρ v) : h.Along v i := by
  have hpair : ∀ {w}, Safe ρ w → h'.isPair w = true → h.isPair w = true ∧ h'.cdr w = h.cdr w := by
    intro w hw hp
    obtain ⟨j, rfl, -, ht⟩ := isPair_iff.1 hp
    have hj := hl.cellAt_safe hl' hd hw
    rw [hj] at ht
    have hp' : h.isPair (.ref j) = true := isPair_iff.2 ⟨j, rfl, hl.lt_top_of_safe hw, ht⟩
    rw [cdr_eq hp, cdr_eq hp', hj]
    exact ⟨hp', rfl⟩
  induction ha with
  | here hp => exact .here (hpair hv hp).1
  | next hp _ ih =>
    obtain ⟨hp', hcdr⟩ := hpair hv hp
    rw [hcdr] at ih
    exact .next hp' (ih (hl.safe_cdr hv))

namespace Machine

variable {i : Nat}

theorem safe_bucket {b : Word} (ho : Orderly ρ m) (hb : b ∈ m.symbols.buckets.toList) : Safe ρ b :=
  ho.kept b (List.mem_append_left _ (List.mem_append_left _ hb))

theorem Files.safe (hf : m.Files i) (ho : Orderly ρ m) : Safe ρ (.ref i) := by
  obtain ⟨b, hb, ha⟩ := hf
  exact ha.safe ho.layout (safe_bucket ho hb)

theorem Files.of_same (hf : m'.Files i) (ho : Orderly ρ m) (ho' : Orderly ρ' m')
    (hd : ∀ i, ρ i = .data → m'.heap.cellAt i = m.heap.cellAt i) (hs : m'.symbols = m.symbols) :
    m.Files i := by
  obtain ⟨b, hb, ha⟩ := hf
  rw [hs] at hb
  exact ⟨b, hb, ha.of_same ho.layout ho'.layout hd (safe_bucket ho hb)⟩

theorem Filed.of_same (hm : m.Filed) (ho : Orderly ρ m) (ho' : Orderly ρ' m')
    (hd : ∀ i, ρ i = .data → m'.heap.cellAt i = m.heap.cellAt i) (hs : m'.symbols = m.symbols)
    (ht : m.heap.top ≤ m'.heap.top) : m'.Filed := by
  intro i hi
  have hf := hi.of_same ho ho' hd hs
  rw [ho.layout.cellAt_safe ho'.layout hd (hf.safe ho)]
  obtain ⟨j, hj, hlt⟩ := isCell_iff.1 (hm i hf)
  exact isCell_iff.2 ⟨j, hj, Nat.lt_of_lt_of_le hlt ht⟩

end Machine

namespace Machine

theorem reliable_checkType {op : String} : Reliable (Seated t) F (checkType op v) :=
  .ite (.throw_bind rfl) (.ite ⟨.throw, fun _ => .throw rfl⟩ .pure)

theorem averts_internList (hm : (∀ v, ¬ F (.invalidRef v)) ∨ m.Filed) :
    Averts F (internList v) m := by
  rw [internList_eq]
  refine (averts_ask harmless_spine.map).bind fun hash m₁ hr => ?_
  obtain ⟨rfl, -⟩ := ask_eq_ok.1 hr
  refine .step rfl (Averts.bind (averts_lift (averts_query fun g hg hmis => ?_))
    fun found m₂ _ => ?_)
  · obtain hn | ⟨⟨v, rfl⟩, i, hi, hc⟩ := SymbolTable.traces_find g hg
    · rw [hn] at hmis
      cases hmis
    · obtain hF | hfiled := hm
      · exact hF v
      · rw [hfiled i ⟨_, SymbolTable.bucket_mem _ _, hi⟩] at hc
        cases hc
  · cases found with
    | some sym => exact .pure
    | none =>
      refine (averts_lift averts_alloc).bind fun sym m₃ _ => ?_
      exact (averts_lift averts_alloc).bind fun _ _ _ => Averts.modify.bind fun _ _ _ => .pure

theorem seated_internList : Upholds (Seated t) (internList v) fun _ => True := by
  rw [internList_eq]
  have hask : ∀ {α : Type} {g : Heap → Except Fault α}, Upholds (Seated t) (ask g) fun _ => True :=
    seated_lift .query
  have halloc : ∀ {c}, Upholds (Seated t) (liftM (alloc c) : MachineM Word) fun _ => True :=
    seated_lift extant_alloc
  refine hask.bind fun hash _ => Upholds.get.bind fun m _ => hask.bind fun found _ => ?_
  cases found with
  | some sym => exact .pure trivial
  | none =>
    refine halloc.bind fun sym _ => halloc.bind fun bucket _ => ?_
    exact Upholds.bind (R := fun _ => True) (.modify fun _ hs => hs) fun _ _ => .pure trivial

theorem symbols_pop {S : SymbolTable} : Upholds (fun m => m.symbols = S) pop fun _ => True :=
  (shelters_letters fun hm hs _ => hs.trans hm).pop.any

end Machine

namespace Open

variable (ho : Open t e a [] ρ m)

include ho

theorem data_same (hw : Within t ρ m ρ' m') (i : Nat) (hi : ρ i = .data) :
    m'.heap.cellAt i = m.heap.cellAt i := by
  refine (hw.frame.same ?_).2
  rintro (rfl | hs | ho)
  · rw [ho.role] at hi
    cases hi
  · rw [hi] at hs
    cases hs
  · rw [hi] at ho
    cases ho

theorem averts_typeTest (v : Word) : Averts F (typeTest v) m := by
  refine ho.averts_pop.bind_runs ho.runs_pop fun w ρ₁ m₁ ho₁ _ => ?_
  refine Reliable.averts (I := Seated t) ?_ ho₁.seated
  refine .ite (Reliable.pure.bind fun _ => reliable_push) (.ite ?_ ?_)
  all_goals exact reliable_look.bind fun _ => reliable_push

theorem averts_popIf {c : Prop} [Decidable c] {k : Word → MachineM β}
    (hk : ∀ v ρ' m', Open t e a [] ρ' m' → Averts F (k v) m') :
    Averts F (if c then pop >>= k else Pure.pure .undefined >>= k) m :=
  .ite (fun _ => ho.averts_pop.bind_runs ho.runs_pop fun v ρ' m' ho' _ => hk v ρ' m' ho')
    fun _ => .step rfl (hk .undefined ρ m ho)

theorem averts_makeCell (n : Int) : Averts F (makeCell n) m := by
  unfold makeCell
  dsimp only
  refine .ite (fun _ => .throw_bind rfl) fun _ => ?_
  refine ho.averts_popIf fun z ρ₁ m₁ ho₁ => ho₁.averts_popIf fun y ρ₂ m₂ ho₂ => ?_
  refine ho₂.averts_popIf fun x ρ₃ m₃ ho₃ => ?_
  refine ho₃.averts_pop.bind_runs ho₃.runs_pop fun v ρ₄ m₄ ho₄ _ => ?_
  refine Reliable.averts (I := Seated t) (reliable_checkType.bind fun _ => ?_) ho₄.seated
  exact (reliable_lift reliable_alloc).bind fun _ => reliable_push

theorem averts_getField (f : Field) : Averts F (getField f) m := by
  refine ho.averts_pop.bind_runs ho.runs_pop fun v ρ₁ m₁ ho₁ _ => ?_
  refine averts_look_bind (.ite (fun hc => ?_) fun _ => ?_)
  · obtain ⟨i, rfl, hi⟩ := isCell_iff.1 hc
    exact .step (fetch_eq hi) ho₁.averts_push
  · exact averts_note_bind fun m₂ hq => (ho₁.quiet hq).averts_push

theorem averts_setField (f : Field) : Averts F (setField f) m := by
  refine ho.averts_pop.bind_runs ho.runs_pop fun v ρ₁ m₁ ho₁ _ => ?_
  refine .step ho₁.stack_eq (averts_look_bind ?_)
  generalize m₁.heap.car (m₁.heap.cellAt t).x = cell
  have hstore : ∀ m, Averts F (do
      if ← look fun h => !h.inHeap cell || cell.isCap || h.isFree cell then
        note (.setOnNonCell cell f)
      else liftM (store cell f v)) m := by
    refine fun m => averts_look_bind (.ite (fun _ => averts_note _) fun hc => ?_)
    refine averts_lift (averts_store ?_)
    cases cell with
    | fixnum | cap => simp [inHeap, Word.isFixnum, Word.isCap] at hc
    | ref i =>
      refine isCell_iff.2 ⟨i, rfl, Nat.lt_of_not_le fun hi => hc ?_⟩
      simp [inHeap, Word.index, Nat.not_lt.2 hi]
  exact .ite (fun _ => (reliable_checkType.averts ho₁.seated).bind fun _ m₂ _ => hstore m₂)
    fun _ => hstore m₁

theorem averts_makeList (n : Int) : Averts F (makeList n) m := by
  refine ((reliable_stackCount _ n).averts ho.seated).bind_runs (ho.runs_stackCount _ n)
    fun k ρ₁ m₁ ho₁ _ => ?_
  refine (ho₁.averts_popN k).bind_runs (ho₁.runs_popN k) fun items ρ₂ m₂ ho₂ _ => ?_
  refine ho₂.averts_pop.bind_runs ho₂.runs_pop fun tail ρ₃ m₃ ho₃ _ => ?_
  refine Reliable.averts (I := Seated t) ?_ ho₃.seated
  exact (reliable_lift reliable_prepend).bind fun _ => reliable_push

theorem averts_splitList (n : Int) : Averts F (splitList n) m := by
  refine .ite (fun _ => .throw_bind rfl) fun _ => ?_
  refine ho.averts_pop.bind_runs ho.runs_pop fun list ρ₁ m₁ ho₁ _ => ?_
  refine Reliable.averts (I := Seated t) ?_ ho₁.seated
  refine (reliable_ask fun _ => harmless_splitItems).bind fun r => ?_
  exact reliable_push.bind fun _ => reliable_pushAll

theorem averts_indexList (n : Int) : Averts F (indexList n) m := by
  refine ho.averts_pop.bind_runs ho.runs_pop fun list ρ₁ m₁ ho₁ _ => ?_
  exact averts_look_bind ho₁.averts_push

theorem averts_arithmetic (op : Alu) : Averts F (arithmetic op) m := by
  have hrest : ∀ k ρ₁ m₁, Open t e a [] ρ₁ m₁ → Averts F (do
      let n ← popNumber "alu"
      push (.fix (op.apply (.ofInt n) (.ofInt k)).toInt)) m₁ := fun k ρ₁ m₁ ho₁ =>
    (ho₁.averts_popNumber _).bind_runs (ho₁.runs_popNumber _) fun n ρ₂ m₂ ho₂ _ => ho₂.averts_push
  refine .ite (fun _ => .step rfl (hrest 0 ρ m ho)) fun _ => ?_
  exact (ho.averts_popNumber _).bind_runs (ho.runs_popNumber _) fun k ρ₁ m₁ ho₁ _ =>
    hrest k ρ₁ m₁ ho₁

theorem averts_compare (r : Relation) : Averts F (compare r) m := by
  have hany : ∀ g : Word → Word → Word, Averts F (do
      let k ← pop
      let n ← pop
      push (g k n)) m := fun g =>
    ho.averts_pop.bind_runs ho.runs_pop fun k ρ₁ m₁ ho₁ _ =>
      ho₁.averts_pop.bind_runs ho₁.runs_pop fun n ρ₂ m₂ ho₂ _ => ho₂.averts_push
  have hnumber : ∀ g : Int → Int → Word, Averts F (do
      let k ← popNumber "cmp"
      let n ← popNumber "cmp"
      push (g k n)) m := fun g =>
    (ho.averts_popNumber _).bind_runs (ho.runs_popNumber _) fun k ρ₁ m₁ ho₁ _ =>
      (ho₁.averts_popNumber _).bind_runs (ho₁.runs_popNumber _) fun n ρ₂ m₂ ho₂ _ => ho₂.averts_push
  cases r <;> first | exact hany _ | exact hnumber _

theorem averts_message (n : Int) : Averts F (message n) m :=
  .step ho.event_eq (.step (fetch_eq ho.event_lt) (averts_look_bind ho.averts_push))

theorem averts_own (o : Own) : Averts F (own o) m := by
  refine .step ho.me_eq ?_
  cases o with
  | self => exact ho.averts_push
  | beh | state => exact .step (fetch_eq ho.actor_lt) ho.averts_push

theorem averts_composeMessage (n : Int) : Averts F (composeMessage n) m := by
  refine ho.averts_pop.bind_runs ho.runs_pop fun target ρ₁ m₁ ho₁ _ => ?_
  refine averts_look_bind (.ite (fun _ => .throw_bind rfl) fun _ => .ite (fun _ => ?_) fun _ => ?_)
  · exact ho₁.averts_pop.bind fun _ _ _ => .pure
  · refine ((reliable_stackCount _ n).averts ho₁.seated).bind_runs (ho₁.runs_stackCount _ n)
      fun k ρ₂ m₂ ho₂ _ => ?_
    refine (ho₂.averts_popN k).bind_runs (ho₂.runs_popN k) fun items ρ₃ m₃ ho₃ _ => ?_
    exact (averts_lift averts_prepend).bind fun _ _ _ => .pure

theorem averts_holdBack : Averts F (holdBack v w) m := by
  refine .step ho.me_eq (.step (fetch_eq ho.actor_lt) ?_)
  refine (averts_lift averts_alloc).bind fun event m₁ hr => ?_
  obtain ⟨h₁, hh, rfl⟩ := lift_eq_ok.1 hr
  have ha : h₁.Extant a := ((extant_alloc _ ho.actor_lt).ok hh).1
  exact averts_lift (reliable_store.averts ha)

theorem averts_popBehavior (op : String) : Averts F (popBehavior op) m := by
  refine ho.averts_pop.bind fun beh m₁ _ => ?_
  exact averts_look_bind (.ite (fun _ => .throw_bind rfl) fun _ => .pure)

theorem averts_createActor (n : Int) : Averts F (createActor n) m := by
  refine (ho.averts_popBehavior _).bind_runs (ho.runs_popBehavior _) fun beh ρ₁ m₁ ho₁ _ => ?_
  refine Reliable.averts (I := Seated t) ((reliable_carve _ n).bind fun state => ?_) ho₁.seated
  exact (reliable_lift reliable_alloc).bind fun _ => reliable_push

theorem averts_become (n : Int) : Averts F (become n) m := by
  refine (ho.averts_popBehavior _).bind_runs (ho.runs_popBehavior _) fun beh ρ₁ m₁ ho₁ _ => ?_
  refine ((reliable_carve _ n).averts ho₁.seated).bind_ensures (ho₁.ensures_carve _ n) ?_
  rintro state m₂ ⟨ρ₂, l, ho₂, -⟩
  exact ho₂.averts_stageBecome

theorem averts_convert (c : Conversion)
    (hm : (∀ v, ¬ F (.invalidRef v)) ∨ (c = .listToSymbol → m.Filed)) : Averts F (convert c) m := by
  refine ho.averts_pop.bind fun chars m₁ hr => ?_
  obtain ⟨ρ₁, ho₁, hw, -⟩ := (ho.runs_pop).ok hr
  cases c with
  | listToNumber =>
    refine Reliable.averts (I := Seated t) ?_ ho₁.seated
    exact (reliable_ask fun _ => harmless_parseFixnum).bind fun _ => reliable_push
  | listToSymbol =>
    have hsymbols : m₁.symbols = m.symbols := ((symbols_pop m rfl).ok hr).1
    have hm₁ : (∀ v, ¬ F (.invalidRef v)) ∨ m₁.Filed := by
      refine hm.imp_right fun hm => ?_
      exact (hm rfl).of_same ho.orderly ho₁.orderly (ho.data_same hw) hsymbols hw.frame.top_le
    refine (averts_internList hm₁).bind fun sym m₂ hr => ?_
    exact reliable_push.averts ((seated_internList m₁ ho₁.seated).ok hr).1

theorem averts_writeByte : Averts F writeByte m :=
  (ho.averts_popNumber _).bind fun _ _ _ => .modify

theorem averts_readByte : Averts F readByte m := by
  refine .step rfl ?_
  obtain ⟨byte, console⟩ := m.console.getc
  refine .step rfl ?_
  have hseat : Seated t { m with console } := ho.seated
  cases byte with
  | some b => exact reliable_push.averts hseat
  | none => exact reliable_push.averts hseat

theorem averts_showValue (tag : Word) : Averts F (showValue tag) m := by
  refine ho.averts_pop.bind fun v m₁ _ => (averts_ask harmless_render).bind fun text m₂ _ => ?_
  exact (averts_note _).bind fun _ _ _ => .modify

theorem averts_perform (i : Instruction) {next : Word}
    (hm : (∀ v, ¬ F (.invalidRef v)) ∨ (i = .convert .listToSymbol → m.Filed)) :
    Averts F (perform i next) m := by
  -- Most instructions go on to the next one.
  have hflow : ∀ {act : MachineM Unit}, Averts F act m →
      Averts F (act >>= fun _ => pure (Flow.next next)) m := fun ha => ha.bind fun _ _ _ => .pure
  unfold perform
  cases i with
  | typeq v => exact hflow (ho.averts_typeTest v)
  | cell n => exact hflow (ho.averts_makeCell n)
  | get f => exact hflow (ho.averts_getField f)
  | set f => exact hflow (ho.averts_setField f)
  | pair n => exact hflow (ho.averts_makeList n)
  | part n => exact hflow (ho.averts_splitList n)
  | nth n => exact hflow (ho.averts_indexList n)
  | push v => exact hflow ho.averts_push
  | depth =>
    refine Reliable.averts (I := Seated t) ?_ ho.seated
    exact reliable_depth.bind fun _ => reliable_push.bind fun _ => .pure
  | drop n => exact hflow (ho.averts_dropItems n)
  | pick n => exact hflow ((reliable_pick n).averts ho.seated)
  | dup n => exact hflow ((reliable_dup n).averts ho.seated)
  | roll n => exact hflow (ho.averts_roll n)
  | alu op => exact hflow (ho.averts_arithmetic op)
  | eq v =>
    refine ho.averts_pop.bind_runs ho.runs_pop fun w ρ₁ m₁ ho₁ _ => ?_
    exact ho₁.averts_push.bind fun _ _ _ => .pure
  | cmp r => exact hflow (ho.averts_compare r)
  | branch target => exact ho.averts_pop.bind fun _ _ _ => .pure
  | msg n => exact hflow (ho.averts_message n)
  | my o => exact hflow (ho.averts_own o)
  | send n =>
    refine (ho.averts_composeMessage n).bind_runs (ho.runs_composeMessage n) fun r ρ₁ m₁ ho₁ _ => ?_
    exact ho₁.averts_holdBack.bind fun _ _ _ => .pure
  | new n => exact hflow (ho.averts_createActor n)
  | beh n => exact hflow (ho.averts_become n)
  | finish en => exact (ho.averts_endTransaction en).bind fun _ _ _ => .pure
  | convert c => exact hflow (ho.averts_convert c (hm.imp_right fun h hc => h (congrArg _ hc)))
  | putc => exact hflow ho.averts_writeByte
  | getc => exact hflow ho.averts_readByte
  | debug tag => exact hflow (ho.averts_showValue tag)

theorem averts_performAt {ip : Word} (hm : (∀ v, ¬ F (.invalidRef v)) ∨
      ∀ next, m.heap.instruction ip = .ok (.convert .listToSymbol, next) → m.Filed) :
    Averts F (performAt ip) m := by
  refine (averts_ask harmless_instruction).bind fun r m₁ hr => ?_
  obtain ⟨rfl, hi⟩ := ask_eq_ok.1 hr
  obtain ⟨i, next⟩ := r
  refine (ho.averts_perform i (hm.imp_right fun h hc => h next (hc ▸ hi))).bind fun flow m₂ _ => ?_
  cases flow with
  | next ip => exact averts_look_bind (.ite (fun _ => .throw_bind rfl) fun _ => .pure)
  | ended e => exact .pure

end Open

theorem Closing.averts_retire (hc : Closing t e [] ρ m) : Averts F retire m := by
  have hte : e ≠ t := by
    rintro rfl
    have he := hc.event
    rw [hc.thread] at he
    cases he
  refine (averts_popThread hc.orderly.anchored_threads).bind_ensures
    (hc.orderly.ensures_popThread hc.head hc.thread (E := fun _ => True)) ?_
  rintro r m₁ ⟨rfl, ho₁, -, hy, -⟩
  have hl := ho₁.layout
  have he : m₁.heap.Freeable e := hl.freeable (by rw [Roles.set_ne _ _ hte, hc.event]; rfl)
  have ht : m₁.heap.Freeable t := hl.freeable (by rw [Roles.set_self]; rfl)
  have hlink : (m₁.heap.cellAt t).get .y = .ref e := hy.trans hc.link
  refine .step (fetch_eq ht.top) ?_
  rw [hlink]
  refine (averts_lift (averts_free he)).bind fun _ m₂ hr => ?_
  have hi := intact_of_lift (D := (· = t)) (intact_free (v := .ref e) hl.top_le hte) hr
  exact averts_lift (averts_free (hi.freeable rfl ht))

theorem Orderly.averts_rotate (ho : Orderly ρ m) : Averts F rotate m := by
  obtain ⟨l, hq, hm⟩ := ho.layout.line
  have hbound : ∀ i ∈ l, i < m.heap.top := by
    intro i hi
    refine (ho.layout.bounds fun hout => ?_).2
    have hin := (hm i).1 hi
    rw [hout] at hin
    cases hin
  refine (averts_popThread ho.anchored_threads).bind_ensures
    (ho.ensures_takeThread hq hm (E := fun _ => True)) ?_
  rintro r m₁ (⟨-, rfl, rfl⟩ | ⟨i, l', h', q, rfl, rfl, rfl, hq', hr⟩)
  · exact .pure
  · refine averts_putThread (hq'.anchored fun j hj => ?_) (isCell_iff.2 ⟨i, rfl, ?_⟩)
    · exact hr.top ▸ hbound j (List.mem_cons_of_mem i hj)
    · exact hr.top ▸ hbound i List.mem_cons_self

theorem Machine.averts_attempt_bind {act : MachineM α} {k : Except Fault α → MachineM β}
    (hok : ∀ r m', act m = .ok r m' → Averts F (k (.ok r)) m')
    (herr : ∀ g m', act m = .error g m' → Averts F (k (.error g)) m') :
    Averts F (attempt act >>= k) m := by
  have hstep : ∀ {r m'}, attempt act m = .ok r m' → Averts F (k r) m' →
    Averts F (attempt act >>= k) m :=
    Averts.step
  unfold attempt at hstep
  cases hr : act m with
  | ok r m' =>
    rw [hr] at hstep
    exact hstep rfl (hok r m' hr)
  | error g m' =>
    rw [hr] at hstep
    exact hstep rfl (herr g m' hr)

theorem Open.averts_advance (ho : Open t e a [] ρ m) (hm : (∀ v, ¬ F (.invalidRef v)) ∨
      (m.instruction? = some (.convert .listToSymbol) → m.Filed)) :
    Averts F (advance (.ref t)) m := by
  refine Averts.bind_ensures ?_ (ho.ensures_nextAddress (E := fun _ => True)) ?_
  · refine .step (fetch_eq ho.seated.2) ?_
    exact (averts_count _).bind fun _ _ _ => .pure
  rintro ip - ⟨hip, hsafe, rfl⟩
  have ho₁ := ho.tally .performed
  have hperform : Averts F (performAt ip) (m.tally .performed) := by
    refine ho₁.averts_performAt (hm.imp_right fun h next hi => h ?_)
    rw [← ho.head] at hip
    exact instruction?_eq hip hi
  refine averts_attempt_bind (fun flow m₂ hrun => ?_) fun g m₂ hrun => ?_
  · obtain ⟨i, next', hi, hflow, hcode⟩ := (ho₁.ensures_performAt hsafe).ok hrun
    cases flow with
    | next ip' =>
      obtain ⟨ρ₂, ho₂, hperf, hnext⟩ := hflow
      obtain ⟨j, rfl, hj⟩ := ho₂.orderly.layout.data_of_isCode hnext (hcode _ rfl)
      refine (averts_lift (reliable_store.averts ho₂.seated.2)).bind_ensures
        (ho₂.ensures_goto hj (E := fun _ => True)) ?_
      rintro - m₃ ⟨ho₃, -⟩
      exact ho₃.averts_rotate.bind fun _ _ _ => .pure
    | ended en =>
      obtain ⟨rfl, ρ₂, hc⟩ := hflow
      exact hc.closing.averts_retire.bind fun _ _ _ => .pure
  · refine .ite (fun _ => ?_) fun hfatal => ?_
    · refine averts_note_bind fun m₃ _ => ?_
      rintro _ _ ⟨⟩
      exact hperform g m₂ hrun
    · obtain ⟨ρ₂, ho₂, -⟩ := (ho₁.ensures_performAt hsafe).error hrun (by simpa using hfatal)
      refine averts_note_bind fun m₃ hq => ?_
      have ho₃ := ho₂.quiet hq
      refine ho₃.averts_abortTransaction.bind_ensures
        (ho₃.ensures_abortTransaction (E := fun _ => True)) ?_
      rintro - m₄ ⟨ρ₄, hc⟩
      exact hc.closing.averts_retire.bind fun _ _ _ => .pure

def Behaves (ρ : Roles) (m : Machine) : Prop :=
  ∀ a, ρ a = .idle → m.heap.isCode (m.heap.cellAt a).x = true

theorem Posts.behaves (hp : Posts ρ m ρ' m') (hl : m.Arranged ρ)
    (hb : Behaves ρ m) : Behaves ρ' m' := by
  intro a ha
  have hold : ρ a = .idle := (hp.new a (by rw [ha]; rfl)).symm.trans ha
  have hcell : m'.heap.cellAt a = m.heap.cellAt a := by
    refine (hp.same ?_).2
    rw [hold]
    rintro (h | h) <;> cases h
  have hs := (hl.fits a).2
  rw [hold] at hs
  obtain ⟨j, hj, hjd⟩ := hl.data_of_isCode hs.2.1 (hb a hold)
  have hjcell : m'.heap.cellAt j = m.heap.cellAt j := by
    refine (hp.same ?_).2
    rw [hjd]
    rintro (h | h) <;> cases h
  obtain ⟨k, hk, hlt, ht⟩ := hasType_iff.1 (hb a hold)
  rw [hj] at hk
  cases hk
  rw [hcell, hj]
  exact hasType_iff.2 ⟨j, rfl, Nat.lt_of_lt_of_le hlt hp.keeps.frame.top_le, hjcell ▸ ht⟩

def Fault.notBehavior : Fault := .assertion "actor behavior is not code"

theorem Queue.Anchored.alloc {q : Queue} {h h' : Heap} {c : Cell} {v : Word} (hq : q.Anchored h)
    (hs : h.Sound)
    (hc : c.t ≠ .freeT) (hr : alloc c h = .ok v h') : q.Anchored h' ∧ h'.isCell v = true := by
  obtain ⟨i, rfl, htake, -⟩ := hs.alloc hr hc
  have hle := htake.top_le
  refine ⟨fun hne => ?_, isCell_iff.2 ⟨i, rfl, htake.lt_top⟩⟩
  obtain ⟨⟨p, hp, hpl⟩, ⟨q, hq, hql⟩⟩ := (hq hne).imp isCell_iff.1 isCell_iff.1
  exact ⟨isCell_iff.2 ⟨p, hp, by omega⟩, isCell_iff.2 ⟨q, hq, by omega⟩⟩

theorem Orderly.averts_spawn (ho : Orderly ρ m) (ha : ρ a = .idle)
    (hb : ¬ F .notBehavior ∨ m.heap.isCode (m.heap.cellAt a).x = true) :
    Averts F (spawn v (.ref a)) m := by
  have hlt : a < m.heap.top := (ho.layout.bounds (by rw [ha]; simp)).2
  have hsa := (ho.layout.fits a).2
  rw [ha] at hsa
  refine .step (fetch_eq hlt) (averts_look_bind (.ite (fun hcode => ?_) fun hcode => ?_))
  · obtain hb | hb := hb
    · rintro _ _ ⟨⟩ -
      exact hb
    · rw [show (m.heap.cellAt a).get .x = (m.heap.cellAt a).x from rfl, hb] at hcode
      cases hcode
  · refine .step (fetch_eq hlt) ?_
    -- The marker of the actor is set while the actor is neither idle nor busy.
    obtain ⟨ho₁, hf₁⟩ := ho.awaken ha
    have ha₁ : ρ.set a .transit a = .transit := Roles.set_self ..
    have hs₁ := (ho₁.layout.fits a).2
    rw [ha₁] at hs₁
    have hat : Word.actorT ≠ .freeT := by decide
    refine (averts_lift (reliable_store.averts hlt)).bind_ensures
      (ho₁.ensures_store (i := a) (f := .z) (w := .nil) (E := fun _ => True) (by rw [ha₁]; rfl)
        (by rw [ha₁]; simp)
        (by rw [hs₁.1]; exact hat) (by rw [ha₁]; exact hs₁)
        ((congrArg (· ≠ Word.freeT) hs₁.1).mpr hat) (ho₁.literal (by decide))) ?_
    rintro - m₂ ⟨-, ho₂, -⟩
    refine Averts.bind_ensures ?_ (ho₂.ensures_copyList (hsa.2.2.1.mono hf₁.grows)
      (E := fun _ => True)) ?_
    · refine (averts_ask harmless_items).bind fun items m₃ _ => ?_
      exact averts_lift averts_prepend
    rintro sp m₃ ⟨l, ho₃, -⟩
    refine (averts_lift averts_alloc).bind fun thread m₄ hr => ?_
    obtain ⟨h₄, hh, rfl⟩ := lift_eq_ok.1 hr
    have hcode : m.heap.isCode (m.heap.cellAt a).x = true := by simpa [Cell.get] using hcode
    obtain ⟨j, hj, hdata⟩ := ho.layout.data_of_isCode hsa.2.1 hcode
    have hjr := (ho.layout.bounds (i := j) (by rw [hdata]; simp)).1
    have hfree : (m.heap.cellAt a).x ≠ .freeT := by
      rw [hj]
      rintro ⟨⟩
      exact absurd hjr (by decide)
    obtain ⟨hanchored, hcell⟩ := ho₃.anchored_threads.alloc ho₃.layout.sound hfree hh
    refine (averts_putThread (m := { m₃ with heap := h₄ }) hanchored hcell).bind fun _ _ _ => ?_
    exact (averts_count _).bind fun _ _ _ => (averts_noteDispatch _).bind fun _ _ _ => .pure

namespace Settled

variable (hs : Settled [] ρ m)

include hs

theorem averts_dispatch (hb : ¬ F .notBehavior ∨ Behaves ρ m) : Averts F dispatch m := by
  refine (averts_popEvent hs.orderly.anchored_events).bind_ensures
    (hs.ensures_popEvent (E := fun _ => True)) ?_
  rintro r m₁ (⟨rfl, rfl, -⟩ | ⟨e, a, q, ρ₁, rfl, ht⟩)
  · exact .pure
  have hl₁ := ht.settled.orderly.layout
  have he : m₁.heap.Freeable e := hl₁.freeable (by rw [ht.held]; rfl)
  have htarget : (m₁.heap.cellAt e).get .x = .cap a := ht.target
  refine .step (fetch_eq he.top) ?_
  rw [htarget]
  refine averts_look_bind (.ite (fun _ => ?_) fun hactor => ?_)
  · refine averts_note_bind fun m₂ hq => ?_
    have he₂ : m₂.heap.Freeable e := hq.heap ▸ he
    refine (averts_lift (averts_free he₂)).bind fun _ _ _ => ?_
    exact (averts_count _).bind fun _ _ _ => .pure
  · have hactor : m₁.heap.isActor (.cap a) = true := by simpa using hactor
    have ha : a < m₁.heap.top := by
      obtain ⟨i, hi, hlt, -⟩ := isActor_iff.1 hactor
      cases hi
      exact hlt
    refine .step (fetch_eq ha) (.ite (fun _ => ?_) fun hz => ?_)
    · refine (averts_noteDispatch _).bind_ensures (Silent.noteDispatch _ m₁) fun _ m₂ hq => ?_
      refine (averts_putEvent (ht.settled.orderly.quiet hq).anchored_events).bind fun _ _ _ => ?_
      exact (averts_count _).bind fun _ _ _ => .pure
    · have hidle := ht.idle hactor (Decidable.not_not.1 hz)
      exact ht.settled.orderly.averts_spawn hidle
        (hb.imp_right fun hb => ht.posts.behaves hs.orderly.layout hb a hidle)

theorem averts_dispatchNext (hb : ¬ F .notBehavior ∨ Behaves ρ m) (b : Budget) :
    Averts F (dispatchNext b) m := by
  obtain ⟨n, task⟩ := b
  induction n generalizing ρ m with
  | zero =>
    unfold dispatchNext
    refine (hs.averts_dispatch hb).bind fun r m' _ => ?_
    cases r with
    | dropped => exact .throw rfl
    | _ => exact .pure
  | succ n ih =>
    unfold dispatchNext
    refine (hs.averts_dispatch hb).bind_ensures (hs.ensures_dispatch (E := fun _ => True)) ?_
    rintro r m' ⟨ρ', hs', hr⟩
    cases r with
    | dropped => exact ih hs' (hb.imp_right fun hb => hr.1.behaves hs.orderly.layout hb)
    | _ => exact .pure

theorem averts_interrupt : Averts F interrupt m := by
  refine .step rfl ?_
  cases m.clock with
  | none => exact .pure
  | some clock =>
    dsimp only
    obtain ⟨seconds, clock'⟩ := clock.poll
    cases seconds with
    | none => exact .pure
    | some seconds =>
      refine .step rfl (averts_look_bind (.ite (fun _ => ?_) fun _ => .pure))
      refine (averts_lift averts_alloc).bind fun event m₂ hr => ?_
      obtain ⟨h₂, hh, rfl⟩ := lift_eq_ok.1 hr
      have hevent : Word.eventT ≠ .freeT := by decide
      obtain ⟨hanchored, -⟩ := hs.orderly.anchored_events.alloc hs.orderly.layout.sound hevent hh
      refine (averts_putEvent (m := { m with clock := some clock', heap := h₂ }) hanchored).bind
        fun _ _ _ => ?_
      exact (averts_count _).bind fun _ _ _ => (averts_note _).bind fun _ _ _ => .pure

theorem averts_prepare (hb : ¬ F .notBehavior ∨ Behaves ρ m) : Averts F prepare m := by
  refine hs.averts_interrupt.bind_ensures (hs.ensures_interrupt (E := fun _ => True)) ?_
  rintro - m₁ ⟨ρ₁, -, hs₁, hp, -⟩
  exact averts_look_bind (hs₁.averts_dispatchNext (hb.imp_right fun hb =>
    hp.behaves hs.orderly.layout hb) _)

end Settled

theorem Tidy.averts_execute (ht : Tidy ρ m) (hm : (∀ v, ¬ F (.invalidRef v)) ∨
      (m.instruction? = some (.convert .listToSymbol) → m.Filed)) : Averts F execute m := by
  refine averts_thread_bind ?_
  obtain hnil | ⟨hne, t, e, a, ho⟩ := ht.settled.open
  · rw [if_pos hnil]
    exact .pure
  obtain ⟨gc, hgc⟩ := ht.collector
  rw [if_neg hne, ho.head]
  refine .step (collectorStep_eq hgc) ((ho.averts_advance hm).bind fun step m₁ _ => ?_)
  cases step with
  | retired en =>
    refine Averts.bind (fun g m₂ hr => ?_) fun _ _ _ => .pure
    rw [safepoint_eq rfl] at hr
    cases hr
  | _ => exact .pure

theorem Tidy.averts_tick (ht : Tidy ρ m) (hb : ¬ F .notBehavior ∨ Behaves ρ m)
    (hm : ∀ m₁, prepare m = .ok () m₁ → (∀ v, ¬ F (.invalidRef v)) ∨
      (m₁.instruction? = some (.convert .listToSymbol) → m₁.Filed)) : Averts F tick m := by
  refine (ht.settled.averts_prepare hb).bind_ensures
    (ht.settled.ensures_prepare (E := fun _ => True)).result ?_
  rintro ⟨⟩ m₁ ⟨hprep, ρ₁, hs₁, hd⟩
  refine ((ht.dispatches hd hs₁).averts_execute (hm m₁ hprep)).bind fun step m' _ => ?_
  cases step <;> exact .pure

end ActorMachine
