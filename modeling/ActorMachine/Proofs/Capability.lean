import ActorMachine.Proofs.Agreement
import ActorMachine.Proofs.Authority
import ActorMachine.Proofs.Host
/-! Capabilities cannot be forged. Main statement: a capability that comes into a cell by
dispatching or executing was in one before, or is the one for the actor that a `new` has made; a
cell becomes an actor by `new` only; and so, over any run, every capability was supplied by the host
or comes from a `new`. -/

namespace ActorMachine

open Heap

open Machine

variable {σ α β : Type} {G : Authority} {h : Heap} {m : Machine} {v w : Word}

namespace Heap.Vouched

theorem enableColors (hv : h.Vouched G) : h.enableColors.Vouched G :=
  hv.of_cells h.cellAt_enableColors (by unfold Heap.enableColors; split <;> exact hv.spare)
    h.permanent_enableColors

theorem markAndSweep (hv : h.Vouched G) (gc : MarkSweep) (roots : Roots) (dump : Bool) :
    (gc.markAndSweep roots dump h).2.heap.Vouched G := by
  have hclear : h.clearFreeList.Vouched G := hv.of_cells (fun _ => rfl) trivial rfl
  have hfold : ∀ dead : List Nat,
      (dead.foldr (fun i h => h.reclaim i) h.clearFreeList).Vouched G := by
    intro dead
    induction dead with
    | nil => exact hclear
    | cons i dead ih => exact ih.reclaim
  exact hfold _

theorem safepoint (hv : h.Vouched G) (gc : MarkSweep) (roots : Roots) :
    (gc.safepoint roots h).2.heap.Vouched G := by
  unfold MarkSweep.safepoint
  split
  · exact hv
  · dsimp only
    split
    · exact (hv.markAndSweep gc roots false).markAndSweep _ roots true
    · exact hv.markAndSweep gc roots false

theorem durable (G : Authority) : Incremental.Durable (Heap.Vouched G) :=
  ⟨fun _ hv => hv.of_cells (fun _ => rfl) hv.spare rfl, fun _ hv => hv.reclaim⟩

end Heap.Vouched

namespace Machine

namespace Shelters

variable {I : Machine → Prop} (hI : Shelters G I)

include hI

theorem resume {t : Turn Collector} (hm : I m) (ht : t.heap.Vouched G) : I (m.lendHeap.resume t) :=
  have hv := hI.vouched hm
  hI.carry hm ⟨ht, hv.symbols, hv.events, hv.threads, hv.pinned, hv.clock⟩ rfl rfl

protected theorem collectorStep : Upholds I collectorStep fun _ => True := by
  intro m hm
  refine ⟨hI.resume hm ?_, trivial⟩
  change (m.collector.step m.lendHeap.roots m.heap).heap.Vouched G
  unfold Collector.step
  split
  · exact (hI.vouched hm).heap
  · exact (Vouched.durable G).step _ (hI.vouched hm).heap

protected theorem safepoint : Upholds I safepoint fun _ => True := by
  intro m hm
  have ht : (m.lendHeap.collector.safepoint m.lendHeap.roots m.heap).2.heap.Vouched G := by
    unfold Collector.safepoint
    split
    · exact (hI.vouched hm).heap.safepoint _ _
    · exact (hI.vouched hm).heap
  unfold Leaves safepoint
  dsimp only
  cases hr : m.lendHeap.collector.safepoint m.lendHeap.roots m.heap with
  | mk report t =>
    rw [hr] at ht
    cases report with
    | none => exact ⟨hI.resume hm ht, trivial⟩
    | some r => exact hI.note _ _ (hI.resume hm ht)

protected theorem collect : Upholds I collect fun _ => True := by
  intro m hm
  have ht : (m.lendHeap.collector.collect m.lendHeap.roots m.heap).2.heap.Vouched G := by
    unfold Collector.collect
    split
    · exact (hI.vouched hm).heap.markAndSweep _ _ false
    · exact (Vouched.durable G).stepUntil _ _ _ (hI.vouched hm).heap.enableColors
  unfold Leaves collect
  dsimp only
  cases hr : m.lendHeap.collector.collect m.lendHeap.roots m.heap with
  | mk report t =>
    rw [hr] at ht
    cases report with
    | ok r => exact ⟨hI.resume hm ht, trivial⟩
    | error f => exact hI.resume hm ht

protected theorem copyList : Upholds I (copyList v) (Word.Granted G.cells) := by
  have hitems : Upholds I (ask (·.items v)) fun vs => ∀ w ∈ vs, w.Granted G.cells :=
    hI.ask fun h vs hv hr => hv.items hr
  exact hitems.bind fun vs hvs => hI.lift (honest_ofItems hvs)

protected theorem isCode :
    Upholds I (look (·.isCode v)) fun b => b = true → v.Granted G.cells ∧
      (G.watched → v.Inert) := by
  refine hI.look fun h hv hb => ⟨?_, hv.inert_of_isCode hb⟩
  obtain ⟨i, rfl, -⟩ := hasType_iff.1 hb
  trivial

protected theorem spawn (hv : v.isRef = true) : Upholds I (spawn v w) fun _ => True := by
  refine hI.fetch.bind fun ip _ => hI.isCode.bind fun b hb =>
    .ite (fun _ => .throw_bind) fun hn => ?_
  obtain ⟨hip, hinert⟩ := hb (by simpa using hn)
  refine hI.fetch.bind fun state _ => (hI.store (by trivial) (by simp)).bind fun _ _ => ?_
  refine hI.copyList.bind fun sp hsp => ?_
  have halloc : Heap.Honest G (Heap.alloc ⟨ip, sp, v, .nil⟩) (Word.Granted G.cells) :=
    Heap.honest_alloc (Cell.forall_words.2 ⟨hip, hsp, Word.granted_of_isRef hv, trivial⟩) hinert
  refine (hI.lift halloc).bind fun t ht => (hI.putThread ht).bind fun _ _ => ?_
  exact (hI.count _).bind fun _ _ => (hI.noteDispatch _).bind fun _ _ => .pure trivial

protected theorem dispatch : Upholds I dispatch fun _ => True := by
  refine hI.popEvent.bind fun r hr => ?_
  cases r with
  | none => exact .pure trivial
  | some e =>
    have he := hr e rfl
    refine hI.fetch.bind fun target _ => hI.see.bind fun b _ => .ite (fun _ => ?_) fun _ => ?_
    · refine (hI.note _).bind fun _ _ => hI.free.bind fun _ _ => ?_
      exact (hI.count _).bind fun _ _ => .pure trivial
    · refine hI.fetch.bind fun z _ => .ite (fun _ => ?_) fun _ => hI.spawn he
      refine (hI.noteDispatch _).bind fun _ _ => ?_
      refine (hI.putEvent (Word.granted_of_isRef he)).bind fun _ _ => ?_
      exact (hI.count _).bind fun _ _ => .pure trivial

protected theorem dispatchNext (b : Budget) : Upholds I (dispatchNext b) fun _ => True := by
  obtain ⟨n, task⟩ := b
  induction n with
  | zero =>
    unfold dispatchNext
    refine hI.dispatch.bind fun d _ => ?_
    split
    · exact .throw
    · exact .pure trivial
  | succ n ih =>
    unfold dispatchNext
    refine hI.dispatch.bind fun d _ => ?_
    split
    · exact ih
    · exact .pure trivial

protected theorem interrupt (hg : ∀ i, G.registers i → G.cells i) :
    Upholds I interrupt fun _ => True := by
  refine Upholds.get.bind fun m hm => ?_
  cases hc : m.clock with
  | none => exact .pure trivial
  | some clock =>
    dsimp only
    split
    · exact .pure trivial
    · next seconds later hp =>
      have hlater : later.handler = clock.handler := by
        unfold Clock.poll at hp
        split at hp <;> cases hp
        rfl
      have hh := (hI.vouched hm).clock clock.handler (by simp [hc])
      rw [← hlater] at hh
      refine Upholds.bind (.modify fun m hm => ?_) fun _ _ => ?_
      · have hv := hI.vouched hm
        refine hI.carry hm ⟨hv.heap, hv.symbols, hv.events, hv.threads, hv.pinned,
          fun w hw => ?_⟩ rfl rfl
        cases hw
        exact hh
      · refine hI.see.bind fun b _ => .ite (fun _ => ?_) fun _ => .pure trivial
        have halloc : Heap.Honest G (Heap.alloc ⟨.eventT, later.handler, .fix seconds.toNat, .nil⟩)
            (Word.Granted G.cells) :=
          Heap.honest_alloc (Cell.forall_words.2 ⟨trivial, hh.mono hg, trivial, trivial⟩)
            fun _ => (by decide : Word.eventT.Inert)
        refine (hI.lift halloc).bind fun e he => (hI.putEvent he).bind fun _ _ => ?_
        exact (hI.count _).bind fun _ _ => (hI.note _).bind fun _ _ => .pure trivial

protected theorem retire : Upholds I retire fun _ => True := by
  refine hI.popThread.bind fun r _ => ?_
  cases r with
  | none => exact .throw
  | some t => exact hI.fetch.bind fun e _ => hI.free.bind fun _ _ => hI.free

protected theorem rotate : Upholds I rotate fun _ => True := by
  refine hI.popThread.bind fun r hr => ?_
  cases r with
  | none => exact .pure trivial
  | some t => exact hI.putThread (Word.granted_of_isRef (hr t rfl))

protected theorem nextAddress : Upholds I (nextAddress v) fun _ => True :=
  hI.fetch.bind fun _ _ => (hI.count _).bind fun _ _ => .pure trivial

end Shelters

theorem Vouched.performAt {ip : Word} (hm : m.Vouched G)
    (hp : ∀ i next, m.heap.instruction ip = .ok (i, next) →
      Leaves (Vouched G) (perform i next) (fun _ => True) m) :
    Leaves (Vouched G) (performAt ip)
      (fun flow => ∀ ip, flow = .next ip → ip.Granted G.cells ∧ (G.watched → ip.Inert)) m := by
  have hask : Leaves (Vouched G) (ask (·.instruction ip)) (fun _ => True) m :=
    sheltered.ask (fun _ _ _ _ => trivial) m hm
  refine hask.bind fun code m₁ hr hm₁ _ => ?_
  obtain ⟨rfl, hcode⟩ := ask_eq_ok.1 hr
  refine (hp code.1 code.2 hcode).bind fun flow m₂ _ hm₂ _ => ?_
  cases flow with
  | next ip =>
    have hlook : Honest G (do
        if !(← look (·.isCode ip)) then throw (.notCode "next instruction" ip)
        return Flow.next ip) fun flow => ∀ ip, flow = .next ip → ip.Granted G.cells ∧ (G.watched →
            ip.Inert) := by
      refine sheltered.isCode.bind fun b hb => .ite (fun _ => .throw_bind) fun hn =>
        .pure fun ip' he => ?_
      cases he
      exact hb (by simpa using hn)
    exact hlook m₂ hm₂
  | ended e => exact ⟨hm₂, fun ip h => by cases h⟩

theorem Vouched.attempt {act : MachineM α} {R : α → Prop} (h : Leaves (Vouched G) act R m) :
    Leaves (Vouched G) (attempt act) (fun r => ∀ a, r = .ok a → R a) m := by
  unfold Leaves Machine.attempt
  cases hr : act m with
  | ok a m' =>
    refine ⟨(h.ok hr).1, fun b hb => ?_⟩
    cases hb
    exact (h.ok hr).2
  | error f m' => exact ⟨h.error hr, fun b hb => by cases hb⟩

theorem Vouched.advance {thread : Word} (hm : m.Vouched G)
    (hp : ∀ ip m₁ i next, nextAddress thread m = .ok ip m₁ → m₁.Vouched G →
      m₁.heap.instruction ip = .ok (i, next) →
        Leaves (Vouched G) (perform i next) (fun _ => True) m₁) :
    Leaves (Vouched G) (advance thread) (fun _ => True) m := by
  refine (sheltered.nextAddress m hm).bind fun ip m₁ hr hm₁ _ => ?_
  refine (Vouched.attempt (hm₁.performAt fun i next hi => hp ip m₁ i next hr hm₁ hi)).bind
    fun r m₂ _ hm₂ hflow => ?_
  cases r with
  | error fault =>
    have hfault : Honest G (do
        if fault.isFatal then
          note (.fatalFault fault ip)
          throw fault
        note (.instructionFailed fault ip)
        abortTransaction
        retire
        return Step.retired .abort) fun _ => True := by
      refine .ite (fun _ => (sheltered.note _).bind fun _ _ => .throw_bind) fun _ => ?_
      refine (sheltered.note _).bind fun _ _ => sheltered.abortTransaction.bind fun _ _ => ?_
      exact sheltered.retire.bind fun _ _ => .pure trivial
    exact hfault m₂ hm₂
  | ok flow =>
    cases flow with
    | next ip =>
      obtain ⟨hip, hinert⟩ := hflow _ rfl ip rfl
      have hstore : Honest G (liftM (store thread .t ip) : MachineM Unit) fun _ => True :=
        sheltered.lift (honest_storeAt hip fun _ => Heap.Vouched.admits_of_inert hinert)
      have hnext : Honest G (do
          store thread .t ip
          rotate
          return Step.continued) fun _ => True :=
        hstore.bind fun _ _ => sheltered.rotate.bind fun _ _ => .pure trivial
      exact hnext m₂ hm₂
    | ended e =>
      have hended : Honest G (do
          retire
          return Step.retired e) fun _ => True := sheltered.retire.bind fun _ _ => .pure trivial
      exact hended m₂ hm₂

def answer? : EStateM.Result Fault σ α → Option α
  | .ok a _ => some a
  | .error .. => none

def creation : MachineM (Option Nat) := do
  collectorStep
  let ip ← nextAddress (← thread)
  let (i, _) ← ask (·.instruction ip)
  match i with
  | .new n => return some (← makeActor n).index
  | _ => return none

def Makes (m : Machine) (i : Nat) : Prop := answer? (creation m) = some (some i)

instance (m : Machine) (i : Nat) : Decidable (m.Makes i) := inferInstanceAs (Decidable (_ = _))

theorem Vouched.execute (hm : m.Vouched G) (hg : ∀ i, m.Makes i → G.cells i ∧ G.actors i) :
    Leaves (Vouched G) execute (fun _ => True) m := by
  change Leaves (Vouched G) (if m.threads.head = .nil then _ else _) _ m
  by_cases hnil : m.threads.head = .nil
  · rw [if_pos hnil]
    exact ⟨hm, trivial⟩
  rw [if_neg hnil]
  refine (sheltered.collectorStep m hm).bind fun _ m₁ hc hm₁ _ => ?_
  have hthreads : m₁.threads = m.threads := by
    cases hc
    rfl
  have hadvance : Leaves (Vouched G) (Machine.advance m.threads.head) (fun _ => True) m₁ := by
    refine hm₁.advance fun ip m₂ i next hip hm₂ hi => ?_
    by_cases hnew : ∃ n, i = .new n
    · obtain ⟨n, rfl⟩ := hnew
      have hcreate : ∀ w m', makeActor n m₂ = .ok w m' → m.Makes w.index := by
        intro w m' hmake
        have hrun : creation m = .ok (some w.index) m' := by
          unfold creation
          rw [run_bind hc]
          change (nextAddress m₁.threads.head >>= _) m₁ = _
          rw [hthreads, run_bind hip, run_bind (ask_eq_ok.2 ⟨rfl, hi⟩)]
          exact run_bind hmake
        exact congrArg answer? hrun
      refine (sheltered.createActor hm₂ fun w m' hmake => hg w.index (hcreate w m' hmake)).bind ?_
      exact fun _ m₃ _ hm₃ _ => ⟨hm₃, trivial⟩
    · exact honest_perform (hm₂.heap.instruction hi).1 (fun n h => hnew ⟨n, h⟩) m₂ hm₂
  refine hadvance.bind fun step m₂ _ hm₂ _ => ?_
  cases step with
  | retired e => exact (sheltered.safepoint m₂ hm₂).bind fun _ m₃ _ hm₃ _ => ⟨hm₃, trivial⟩
  | noThreads | continued => exact ⟨hm₂, trivial⟩

end Machine

def Heap.Bears (h : Heap) (i : Nat) : Prop :=
  ∃ j < h.top, (h.cellAt j).t ≠ .freeT ∧ .cap i ∈ (h.cellAt j).words

instance (h : Heap) (i : Nat) : Decidable (h.Bears i) := inferInstanceAs (Decidable (∃ j < _, _))

/-- The reserved cells are as they were made. -/
structure Heap.Founded (h : Heap) : Prop where
  literals : ∀ i < Word.reserved, h.cellAt i = Cell.initial i
  permanent : Word.reserved ≤ h.permanent

instance (h : Heap) : Decidable h.Founded :=
  decidable_of_iff ((∀ i < Word.reserved, h.cellAt i = Cell.initial i) ∧
    Word.reserved ≤ h.permanent)
    ⟨fun h => ⟨h.1, h.2⟩, fun h => ⟨h.literals, h.permanent⟩⟩

/-- There are no capabilities where new cells come from, nor in the symbol table. -/
structure Machine.Sterile (m : Machine) : Prop where
  cells : ∀ i < m.heap.capacity, m.heap.top ≤ i ∨ (m.heap.cellAt i).t = .freeT →
    ∀ w ∈ (m.heap.cellAt i).words, w.isCap = false
  freeHead : m.heap.freeHead.isCap = false
  symbols : ∀ w ∈ m.symbols.buckets.toList, w.isCap = false

instance (m : Machine) : Decidable m.Sterile :=
  decidable_of_iff ((∀ i < m.heap.capacity, m.heap.top ≤ i ∨ (m.heap.cellAt i).t = .freeT →
      ∀ w ∈ (m.heap.cellAt i).words, w.isCap = false) ∧ m.heap.freeHead.isCap = false ∧
      ∀ w ∈ m.symbols.buckets.toList, w.isCap = false)
    ⟨fun h => ⟨h.1, h.2.1, h.2.2⟩, fun h => ⟨h.cells, h.freeHead, h.symbols⟩⟩

inductive Move
  | dispatch
  | execute

namespace Move

def run : Move → MachineM Unit
  | dispatch => do
    let _ ← Machine.dispatch
    return ()
  | execute => do
    let _ ← Machine.execute
    return ()

def Makes (m : Machine) (i : Nat) : Move → Prop
  | dispatch => False
  | execute => m.Makes i

end Move

theorem Leaves.discard {I : σ → Prop} {act : EStateM Fault σ α} {R : α → Prop} {s : σ}
    (h : Leaves I act R s) :
    Leaves I (do let _ ← act; return ()) (fun _ => True) s := h.bind fun _ _ _ hs _ => ⟨hs, trivial⟩

theorem Machine.Vouched.move (s : Move) (hm : m.Vouched G)
    (hg : ∀ i, s.Makes m i → G.cells i ∧ G.actors i) :
    (final s.run m).Vouched G := by
  cases s with
  | dispatch => exact (Machine.sheltered.dispatch m hm).discard.final
  | execute => exact (hm.execute hg).discard.final

theorem Word.granted_of_isCap {C : Nat → Prop} (hv : v.isCap = false) : v.Granted C := by
  cases v with
  | cap i => cases hv
  | fixnum | ref => trivial

theorem Heap.Founded.actorT_move (hf : m.heap.Founded) (s : Move) {i : Nat}
    (hi : ((final s.run m).heap.cellAt i).t = .actorT) :
    (m.heap.cellAt i).t = .actorT ∨ s.Makes m i := by
  -- All capabilities are as good as any, if only types matter.
  let G : Authority :=
    ⟨fun _ => True, fun _ => True, fun _ h => h, True, fun i => (m.heap.cellAt i).t = .actorT ∨
      s.Makes m i⟩
  have hall : ∀ {w : Word}, w.Granted fun _ => True := Word.granted_of_forall fun _ => trivial
  have htyped : m.heap.Typed G.actors := by
    refine ⟨fun i h => .inl h, fun i hi => ?_, hf.permanent⟩
    rw [hf.literals i hi]
    have : ∀ i < Word.reserved, (Cell.initial i).t ≠ .instrT := by decide
    exact this i hi
  have hm : m.Vouched G :=
    ⟨⟨fun _ _ _ => hall, hall, fun _ => htyped⟩, fun _ _ => hall, ⟨hall, hall⟩, ⟨hall, hall⟩,
      fun _ _ => hall, fun _ _ => hall⟩
  exact ((hm.move s fun i h => ⟨trivial, .inr h⟩).heap.typed trivial).actors i hi

theorem Machine.Sterile.bears_move (hs : m.Sterile) (s : Move) {i : Nat}
    (hi : (final s.run m).heap.Bears i) :
    m.heap.Bears i ∨ s.Makes m i := by
  let G : Authority :=
    ⟨fun i => m.heap.Bears i ∨ s.Makes m i, fun _ => True, fun _ _ => trivial, False, fun _ => True⟩
  have hall : ∀ {w : Word}, w.Granted G.registers := Word.granted_of_forall fun _ => trivial
  have hwords : ∀ j, ∀ w ∈ (m.heap.cellAt j).words, w.Granted G.cells := by
    intro j w hw
    by_cases hj : j < m.heap.capacity
    · by_cases hspare : m.heap.top ≤ j ∨ (m.heap.cellAt j).t = .freeT
      · exact Word.granted_of_isCap (hs.cells j hj hspare w hw)
      · obtain ⟨htop, hfree⟩ := not_or.1 hspare
        cases w with
        | cap i => exact .inl ⟨j, Nat.lt_of_not_le htop, hfree, hw⟩
        | fixnum | ref => trivial
    · have hblank : m.heap.cellAt j = .blank := by
        unfold cellAt
        rw [Array.getD_eq_getD_getElem?, Array.getElem?_eq_none (Nat.le_of_not_lt hj)]
        rfl
      rw [hblank] at hw
      exact Word.granted_of_isCap ((by decide : ∀ w ∈ Cell.blank.words, w.isCap = false) w hw)
  have hm : m.Vouched G :=
    ⟨⟨hwords, Word.granted_of_isCap hs.freeHead, fun h => h.elim⟩,
      fun w hw => Word.granted_of_isCap (hs.symbols w hw), ⟨hall, hall⟩, ⟨hall, hall⟩,
      fun _ _ => hall, fun _ _ => hall⟩
  obtain ⟨j, -, -, hj⟩ := hi
  exact (hm.move s fun i h => ⟨.inr h, trivial⟩).heap.words j _ hj

def Request.words : Request → List Word
  | alloc c => c.words
  | cons head tail => [head, tail]
  | store _ _ w | setCar _ w | setCdr _ w => [w]
  | list items => items
  | free _ | freeSpine _ | sealCells => []

/-- Anything that a host may do with a machine, in whatever state it is. -/
inductive Deed
  | request (r : Request)
  | construct (c : Construct)
  | command (c : Command)
  | sealImage
  | interrupt
  | move (s : Move)

namespace Deed

def run : Deed → MachineM Unit
  | request r => r.run
  | construct c => do
    let _ ← c.run
    return ()
  | command c => c.run
  | sealImage => Machine.sealImage
  | interrupt => do
    let _ ← Machine.interrupt
    return ()
  | move s => s.run

def words : Deed → List Word
  | request r => r.words
  | construct c => c.words
  | command c => c.words
  | sealImage | interrupt | move _ => []

def Makes (m : Machine) (i : Nat) : Deed → Prop
  | command .tick => ∃ m₁, prepare m = .ok () m₁ ∧ m₁.Makes i
  | move s => s.Makes m i
  | _ => False

end Deed

def Machine.outcome (m : Machine) (ds : List Deed) : Machine :=
  ds.foldl (fun m d => final d.run m) m

section Plain

variable {C D : Nat → Prop}

theorem Machine.Vouched.mono (hm : m.Vouched (.plain C)) (hcd : ∀ i, C i → D i) :
    m.Vouched (.plain D) :=
  ⟨⟨fun i w hw => (hm.heap.words i w hw).mono hcd, hm.heap.spare.mono hcd, fun h => h.elim⟩,
    fun w hw => (hm.symbols w hw).mono hcd, ⟨hm.events.1.mono hcd, hm.events.2.mono hcd⟩,
    ⟨hm.threads.1.mono hcd, hm.threads.2.mono hcd⟩, fun w hw => (hm.pinned w hw).mono hcd,
    fun w hw => (hm.clock w hw).mono hcd⟩

namespace Heap

theorem honest_sift (boundary : Nat) (b : Budget) {p kept : Word} (count : Nat) (hp : p.Granted C)
    (hk : kept.Granted C) :
    Honest (.plain C) (sift boundary b p kept count) fun r => r.1.Granted C := by
  obtain ⟨n, task⟩ := b
  induction n generalizing p kept count with
  | zero =>
    unfold sift
    exact .ite (fun _ => .pure hk) fun _ => .throw
  | succ n ih =>
    unfold sift
    refine .ite (fun _ => .pure hk) fun _ => Upholds.get.bind fun h hv =>
      .ite (fun _ => ?_) fun _ => ?_
    · refine Upholds.bind (.modify fun h' hv' => hv'.putCell (fun w hw => ?_) fun h => h.elim)
        fun _ _ => ?_
      · obtain rfl | hw := Cell.mem_words_set hw
        · exact hk
        · exact hv.words _ w hw
      · exact ih (count + 1) (hv.get _ .z) hp
    · exact ih count (hv.get _ .z) hk

theorem honest_sealCells : Honest (.plain C) sealCells fun _ => True := by
  refine Upholds.get.bind fun h hv => ?_
  have hnil : Word.nil.Granted C := trivial
  refine (honest_sift h.top _ 0 hv.spare hnil).bind fun r hr => ?_
  refine Upholds.bind (.modify fun h hv => ?_) fun _ _ => .pure trivial
  exact ⟨hv.words, hr, fun h => h.elim⟩

end Heap

theorem Request.honest (r : Request) (hw : ∀ w ∈ r.words, w.Granted C) :
    Heap.Honest (.plain C) r.run fun _ => True := by
  cases r with
  | alloc c =>
    have halloc : Heap.Honest (.plain C) (Heap.alloc c) (Word.Granted C) :=
      Heap.honest_alloc hw fun h => h.elim
    exact halloc.bind fun _ _ => .pure trivial
  | cons head tail =>
    exact (Heap.honest_cons (hw head (by simp [words])) (hw tail (by simp [words]))).bind fun _ _ =>
      .pure trivial
  | free v => exact Heap.honest_free
  | store v f w => exact Heap.honest_storeAt (hw w (by simp [words])) fun _ h => h.elim
  | setCar v x =>
    refine Upholds.bind (R := fun _ => True) ?_ fun _ _ => .pure trivial
    refine Upholds.get.bind fun h _ => .ite (fun _ => ?_) fun _ => .pure trivial
    exact (Heap.honest_store (hw x (by simp [words])) (by simp)).bind fun _ _ => .pure trivial
  | setCdr v y => exact (Heap.honest_setCdr (hw y (by simp [words]))).bind fun _ _ => .pure trivial
  | list items => exact (Heap.honest_ofItems hw).bind fun _ _ => .pure trivial
  | freeSpine v => exact Heap.honest_freeSpine
  | sealCells => exact Heap.honest_sealCells.bind fun _ _ => .pure trivial

namespace Machine

namespace Shelters

variable {I : Machine → Prop} (hI : Shelters (.plain C) I)

include hI

protected theorem newActor (hv : v.Granted C) (hw : w.Granted C) :
    Upholds I (newActor v w) fun _ => True := by
  have halloc : Heap.Honest (.plain C) (Heap.alloc ⟨.actorT, v, w, .undefined⟩) (Word.Granted C) :=
    Heap.honest_alloc (Cell.forall_words.2 ⟨trivial, hv, hw, trivial⟩) fun h => h.elim
  have hmake : Upholds I (do
      let actor ← Heap.alloc ⟨.actorT, v, w, .undefined⟩
      return actor.toCap : MachineM Word) fun _ => True :=
    (hI.lift halloc).bind fun _ _ => .pure trivial
  refine hI.see.bind fun b _ => .ite (fun _ => .throw_bind) fun _ => ?_
  exact hI.see.bind fun b _ => .ite (fun _ => .throw_bind) fun _ => hmake

protected theorem send (hv : v.Granted C) (hw : w.Granted C) :
    Upholds I (send v w) fun _ => True := by
  refine hI.see.bind fun b _ => .ite (fun _ => .throw_bind) fun _ => ?_
  have halloc : Heap.Honest (.plain C) (Heap.alloc ⟨.eventT, v, w, .nil⟩) (Word.Granted C) :=
    Heap.honest_alloc (Cell.forall_words.2 ⟨trivial, hv, hw, trivial⟩) fun h => h.elim
  exact (hI.lift halloc).bind fun e he => hI.putEvent he

protected theorem prepare : Upholds I prepare fun _ => True :=
  (hI.interrupt fun _ h => h).bind fun _ _ => hI.see.bind fun n _ => hI.dispatchNext n

end Shelters

theorem honest_chain {code : List Instruction} (hc : ∀ i ∈ code, i.operand.Granted C)
    (hw : w.Granted C) :
    Honest (.plain C) (Assembler.chain code w) fun _ => True := by
  have hfold : Honest (.plain C) (Assembler.chain code w) (Word.Granted C) := by
    refine Upholds.foldrM hw fun i hi next hn => sheltered.lift (honest_alloc ?_ fun h => h.elim)
    refine Cell.forall_words.2 ⟨trivial, trivial, hc i hi, ?_⟩
    change (if i.isTerminal then Word.undefined else next).Granted C
    split
    · trivial
    · exact hn
  exact hfold.any

theorem honest_intern (name : String) : Honest (.plain C) (intern name) fun _ => True := by
  rw [intern_eq]
  have htext : Heap.Honest (.plain C) (Heap.ofText name) (Word.Granted C) := by
    refine Heap.honest_ofItems fun w hw => ?_
    obtain ⟨c, -, rfl⟩ := List.mem_map.1 hw
    trivial
  refine (sheltered.lift htext).bind fun chars hc => (honest_internList hc).bind fun sym _ => ?_
  refine sheltered.fetch.bind fun y _ => .ite (fun _ => ?_) fun _ => .pure trivial
  exact (sheltered.lift Heap.honest_freeSpine).bind fun _ _ => .pure trivial

theorem honest_pin (hv : v.Granted C) : Honest (.plain C) (pin v) fun _ => True := by
  refine .modify fun m hm => ⟨hm.heap.shade v, hm.symbols, hm.events, hm.threads,
    fun w hw => ?_, hm.clock⟩
  obtain hw | rfl := Array.mem_push.1 hw
  · exact hm.pinned w hw
  · exact hv

theorem honest_attachClock (now : UInt64) (hv : v.Granted C) :
    Honest (.plain C) (attachClock now v) fun _ => True := by
  refine sheltered.see.bind fun b _ => .ite (fun _ => .throw_bind) fun _ =>
    (honest_pin hv).bind fun _ _ => ?_
  refine .modify fun m hm => ⟨hm.heap, hm.symbols, hm.events, hm.threads, hm.pinned, fun w hw => ?_⟩
  cases hw
  exact hv

theorem Vouched.tick (hm : m.Vouched (.plain C))
    (hg : ∀ m₁ i, prepare m = .ok () m₁ → m₁.Makes i → C i) :
    Leaves (Vouched (.plain C)) tick (fun _ => True) m := by
  refine (sheltered.prepare m hm).bind fun _ m₁ hp hm₁ _ => ?_
  refine (hm₁.execute fun i hi => ⟨hg m₁ i hp hi, trivial⟩).bind fun step m₂ _ hm₂ _ => ?_
  cases step with
  | noThreads | continued | retired => exact ⟨hm₂, trivial⟩

end Machine

theorem Construct.honest (c : Construct) (hw : ∀ w ∈ c.words, w.Granted C) :
    Honest (.plain C) c.run fun _ => True := by
  have hcode : ∀ {code : List Instruction}, (∀ w ∈ code.map Instruction.operand, w.Granted C) →
      ∀ i ∈ code, i.operand.Granted C := fun h i hi => h _ (List.mem_map_of_mem hi)
  have hlist : ∀ {items : List Word}, (∀ w ∈ items, w.Granted C) →
      Honest (.plain C) (Assembler.list items) (Word.Granted C) := fun h =>
    sheltered.lift (honest_ofItems h)
  cases c with
  | chain code next =>
    obtain ⟨hn, hc⟩ := List.forall_mem_cons.1 hw
    exact honest_chain (hcode hc) hn
  | block code =>
    change Honest _ (Assembler.block code) _
    unfold Assembler.block
    split
    · exact .ite (fun _ => honest_chain (hcode hw) trivial) fun _ => .throw
    · exact .throw
  | list items => exact (hlist hw).any
  | string text =>
    refine (hlist fun w hw => ?_).any
    obtain ⟨c, -, rfl⟩ := List.mem_map.1 hw
    trivial
  | symbol name => exact honest_intern name
  | actor beh state =>
    obtain ⟨hb, hs⟩ := List.forall_mem_cons.1 hw
    exact (hlist hs).bind fun list hl => sheltered.newActor hb hl
  | newActor beh state =>
    exact sheltered.newActor (hw beh (by simp [words])) (hw state (by simp [words]))

theorem Machine.Vouched.deed (d : Deed) (hm : m.Vouched (.plain C))
    (hw : ∀ w ∈ d.words, w.Granted C)
    (hg : ∀ i, d.Makes m i → C i) : (final d.run m).Vouched (.plain C) := by
  cases d with
  | request r => exact (sheltered.lift (r.honest hw) m hm).final
  | construct c => exact (c.honest hw m hm).discard.final
  | command c =>
    cases c with
    | newActor beh state =>
      exact (sheltered.newActor (hw beh (by simp [Deed.words, Command.words]))
        (hw state (by simp [Deed.words, Command.words])) m hm).discard.final
    | send target message =>
      exact (sheltered.send (hw target (by simp [Deed.words, Command.words]))
        (hw message (by simp [Deed.words, Command.words])) m hm).final
    | tick => exact (hm.tick fun m₁ i hp hi => hg i ⟨m₁, hp, hi⟩).discard.final
    | collect => exact (sheltered.collect m hm).discard.final
    | pin w => exact (honest_pin (hw w (by simp [Deed.words, Command.words])) m hm).final
    | attachClock now handler =>
      exact (honest_attachClock now (hw handler (by simp [Deed.words, Command.words])) m hm).final
    | setClock now =>
      refine Leaves.final (R := fun _ => True) ⟨?_, trivial⟩
      refine ⟨hm.heap, hm.symbols, hm.events, hm.threads, hm.pinned, fun w hw => hm.clock w ?_⟩
      change w ∈ (m.clock.map (·.set now)).map Clock.handler at hw
      rw [Option.map_map] at hw
      exact hw
  | sealImage =>
    exact (((sheltered.lift honest_sealCells).bind fun n _ =>
      sheltered.note n : Honest _ sealImage _) m hm).final
  | interrupt => exact (sheltered.interrupt (fun _ h => h) m hm).discard.final
  | move s => exact hm.move s fun i hi => ⟨hg i hi, trivial⟩

theorem Heap.vouched_new (capacity sanity : Nat) :
    ((Heap.new capacity).withSanity sanity).Vouched (.plain C) := by
  refine ⟨fun i w hw => ?_, trivial, fun h => h.elim⟩
  have hcell : ((Heap.new capacity).withSanity sanity).cellAt i = .blank ∨
      ((Heap.new capacity).withSanity sanity).cellAt i = Cell.initial i := by
    simp only [cellAt, withSanity, Heap.new, Array.getD_eq_getD_getElem?]
    by_cases hi : i < max capacity (Word.reserved + 1)
    · exact .inr (by simp [hi])
    · exact .inl (by simp [hi])
  have hblank : ∀ w ∈ Cell.blank.words, w.isCap = false := by decide
  have hinitial : ∀ w ∈ (Cell.initial i).words, w.isCap = false := by
    unfold Cell.initial
    split <;> decide
  obtain hc | hc := hcell
  · exact Word.granted_of_isCap (hblank w (hc ▸ hw))
  · exact Word.granted_of_isCap (hinitial w (hc ▸ hw))

theorem Machine.vouched_new {config : Config} (hm : Machine.new config = .ok m) :
    m.Vouched (.plain C) := by
  have hv := @Heap.vouched_new C config.heapCapacity config.effectiveSanity
  obtain ⟨-, rfl⟩ := Machine.new_eq_ok hm
  refine ⟨?_, fun w hw => ?_, ⟨trivial, trivial⟩, ⟨trivial, trivial⟩, fun w hw => ?_,
    fun w hw => ?_⟩
  · dsimp only
    split
    · exact hv.enableColors
    · exact hv
  · have hw : w ∈ (Vector.replicate 256 Word.nil).toList := hw
    rw [Vector.toList_replicate, List.mem_replicate] at hw
    rw [hw.2]
    trivial
  · exact absurd hw (Array.not_mem_empty w)
  · cases hw

def Deed.Supplied (ds : List Deed) (i : Nat) : Prop := ∃ d ∈ ds, .cap i ∈ d.words

instance (ds : List Deed) (i : Nat) : Decidable (Deed.Supplied ds i) :=
  inferInstanceAs (Decidable (∃ d ∈ ds, _))

def Deed.Made (m : Machine) (ds : List Deed) (i : Nat) : Prop :=
  ∃ ds₁ d ds₂, ds = ds₁ ++ d :: ds₂ ∧ d.Makes (m.outcome ds₁) i

theorem Machine.Vouched.outcome {ds : List Deed} (hm : m.Vouched (.plain C)) :
    (m.outcome ds).Vouched (.plain fun i => C i ∨ Deed.Supplied ds i ∨ Deed.Made m ds i) := by
  induction ds generalizing m C with
  | nil => exact hm.mono fun i hi => .inl hi
  | cons d ds ih =>
    let D : Nat → Prop := fun i => C i ∨ .cap i ∈ d.words ∨ d.Makes m i
    have hd : (final d.run m).Vouched (.plain D) := by
      refine (hm.mono fun i hi => .inl hi).deed d (fun w hw => ?_) fun i hi => .inr (.inr hi)
      cases w with
      | cap i => exact .inr (.inl hw)
      | fixnum | ref => trivial
    refine (ih hd).mono fun i hi => ?_
    obtain (hc | hw | hmade) | ⟨d', hd', hw⟩ | ⟨ds₁, d', ds₂, rfl, hmade⟩ := hi
    · exact .inl hc
    · exact .inr (.inl ⟨d, List.mem_cons_self, hw⟩)
    · exact .inr (.inr ⟨[], d, ds, rfl, hmade⟩)
    · exact .inr (.inl ⟨d', List.mem_cons_of_mem d hd', hw⟩)
    · exact .inr (.inr ⟨d :: ds₁, d', ds₂, rfl, hmade⟩)

end Plain

/-- A cell or a register has the word. -/
def Machine.Knows (m : Machine) (w : Word) : Prop :=
  (∃ i, w ∈ (m.heap.cellAt i).words) ∨
    w ∈ [m.heap.freeHead, m.events.head, m.events.tail, m.threads.head, m.threads.tail] ++ m.kept

theorem Machine.Vouched.knows {C : Nat → Prop} (hm : m.Vouched (.plain C)) (hw : m.Knows w) :
    w.Granted C := by
  obtain ⟨i, hw⟩ | hw := hw
  · exact hm.heap.words i w hw
  · simp only [kept, List.cons_append, List.nil_append, List.mem_cons, List.mem_append,
      Array.mem_toList_iff,
      Option.mem_toList] at hw
    obtain rfl | rfl | rfl | rfl | rfl | (hw | hw) | hw := hw
    · exact hm.heap.spare
    · exact hm.events.1
    · exact hm.events.2
    · exact hm.threads.1
    · exact hm.threads.2
    · exact hm.symbols w hw
    · exact hm.pinned w hw
    · exact hm.clock w hw

/-- Dispatching and executing give the type of an actor to no cell but the one that a `new` has made
an actor, and bring no capability into cells but the one for it; so every capability that is in a
machine was supplied by its host or is the result of a `new`. -/
theorem Machine.capability_origin :
    (∀ (m : Machine) (s : Move), m.heap.Founded →
      (∀ i, ((final s.run m).heap.cellAt i).t = .actorT → (m.heap.cellAt i).t = .actorT ∨
        s.Makes m i) ∧
      (m.Sterile → ∀ i, (final s.run m).heap.Bears i → m.heap.Bears i ∨ s.Makes m i)) ∧
    ∀ (config : Config) (m : Machine) (ds : List Deed) (i : Nat), Machine.new config = .ok m →
      (m.outcome ds).Knows (.cap i) → Deed.Supplied ds i ∨ Deed.Made m ds i := by
  refine ⟨fun m s hf => ⟨fun i => hf.actorT_move s, fun hs i => hs.bears_move s⟩,
    fun config m ds i hm hi => ?_⟩
  have hv : m.Vouched (.plain fun _ => False) := Machine.vouched_new hm
  exact (hv.outcome.knows hi).resolve_left id

theorem Machine.of_new_any (config : Config) {p : Machine → Prop} [DecidablePred p]
    (h : (Machine.new config).toOption.any (fun m => decide (p m)) = true) :
    ∃ m, Machine.new config = .ok m ∧ p m := by
  cases hm : Machine.new config with
  | error e =>
    rw [hm] at h
    cases h
  | ok m =>
    rw [hm] at h
    exact ⟨m, rfl, of_decide_eq_true h⟩

def creating : List Deed :=
  [.construct (.block [.finish .commit]),
    .construct (.block [.push (.ref 13), .new 0, .finish .commit]),
    .construct (.actor (.ref 16) []), .sealImage, .command (.send (.cap 17) .nil), .move .dispatch,
    .move .execute]

theorem Machine.capability_origin_new : ∃ m, Machine.new { heapCapacity := 80 } = .ok m ∧
    (m.outcome creating).heap.Founded ∧ (m.outcome creating).Sterile ∧
    ¬ (m.outcome creating).heap.Bears 20 ∧
    (final Move.execute.run (m.outcome creating)).heap.Bears 20 ∧
    Move.execute.Makes (m.outcome creating) 20 ∧
    (m.outcome (creating ++ [.move .execute])).Knows (.cap 20) ∧
    Deed.Made m (creating ++ [.move .execute]) 20 := by
  obtain ⟨m, hm, hf, hs, hno, hbears, hstack⟩ := Machine.of_new_any { heapCapacity := 80 }
    (p := fun m => (m.outcome creating).heap.Founded ∧ (m.outcome creating).Sterile ∧
      ¬ (m.outcome creating).heap.Bears 20 ∧
      (final Move.execute.run (m.outcome creating)).heap.Bears 20 ∧
      .cap 20 ∈ ((m.outcome (creating ++ [.move .execute])).heap.cellAt 21).words) (by
      decide +kernel)
  have hsupplied : ¬ Deed.Supplied (creating ++ [.move .execute]) 20 := by decide
  refine ⟨m, hm, hf, hs, hno, hbears, ?_, .inl ⟨21, hstack⟩, ?_⟩
  · exact ((Machine.capability_origin.1 _ .execute hf).2 hs 20 hbears).resolve_left hno
  · exact (Machine.capability_origin.2 _ m _ 20 hm (.inl ⟨21, hstack⟩)).resolve_left hsupplied

def leaving : List Deed :=
  [.construct (.block [.push (.ref 17), .get .x, .finish .commit]),
    .construct (.actor (.ref 15) []), .request (.cons .nil .nil), .request (.free (.ref 17)),
    .sealImage, .request (.store (.ref 17) .x (.cap 40)), .command (.send (.cap 16) .nil),
    .move .dispatch, .move .execute]

theorem Machine.capability_from_free : ∃ m, Machine.new { heapCapacity := 80 } = .ok m ∧
    (m.outcome leaving).heap.Founded ∧ ((m.outcome leaving).heap.cellAt 17).t = .freeT ∧
    ¬ (m.outcome leaving).heap.Bears 40 ∧ ¬ Move.execute.Makes (m.outcome leaving) 40 ∧
    (final Move.execute.run (m.outcome leaving)).heap.Bears 40 :=
  Machine.of_new_any _ (p := fun m => (m.outcome leaving).heap.Founded ∧
    ((m.outcome leaving).heap.cellAt 17).t = .freeT ∧
    ¬ (m.outcome leaving).heap.Bears 40 ∧ ¬ (m.outcome leaving).Makes 40 ∧
    (final Move.execute.run (m.outcome leaving)).heap.Bears 40) (by decide +kernel)

end ActorMachine
