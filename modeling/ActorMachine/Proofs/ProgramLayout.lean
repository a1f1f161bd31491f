import ActorMachine.Proofs.Assembly
import ActorMachine.Proofs.SingleActorRounds

namespace ActorMachine

variable {ρ : Roles} {m m' : Machine} {config : Config} {S : List (Nat × Cell)} {view : View}
  {c : Cell} {v w : Word}

def View.new (config : Config) :
    View := ⟨.empty, #[], (Collector.ofConfig config).margins, .null, none, {}, {}⟩

def Mute {α : Type} (act : MachineM α) : Prop :=
  ∀ m a m', act m = .ok a m' → ∀ console, act { m with console } = .ok a { m' with console }

namespace Mute

variable {α β : Type}

theorem pure (a : α) : Mute (pure a : MachineM α) := by
  intro m b m' hr console
  cases hr
  rfl

theorem bind {act : MachineM α} {k : α → MachineM β} (ha : Mute act) (hk : ∀ a, Mute (k a)) :
    Mute (act >>= k) := by
  intro m b m' hr console
  cases h : act m with
  | error e m₁ =>
    rw [run_bind_error h] at hr
    cases hr
  | ok a m₁ =>
    rw [run_bind h] at hr
    rw [run_bind (ha m a m₁ h console)]
    exact hk a m₁ b m' hr console

theorem throw (e : Fault) : Mute (throw e : MachineM α) := fun m a m' hr => by cases hr

theorem look (f : Heap → α) : Mute (Machine.look f) := by
  intro m b m' hr console
  cases hr
  rfl

theorem note (n : Notice) : Mute (Machine.note n) := by
  intro m b m' hr console
  cases hr
  rfl

theorem onHeap (act : HeapM α) : Mute (liftM act : MachineM α) := by
  intro m b m' hr console
  change Machine.onHeap act m = _ at hr
  change Machine.onHeap act { m with console } = _
  unfold Machine.onHeap at hr ⊢
  dsimp only at hr ⊢
  cases h : act m.heap with
  | error e h' =>
    rw [h] at hr
    cases hr
  | ok a h' =>
    rw [h] at hr
    cases hr
    rfl

theorem chain (code : List Instruction) (next : Word) : Mute (Assembler.chain code next) := by
  unfold Assembler.chain
  induction code with
  | nil => exact pure next
  | cons i code ih =>
    rw [List.foldrM_cons]
    exact ih.bind fun w => onHeap _

theorem block (code : List Instruction) : Mute (Assembler.block code) := by
  unfold Assembler.block
  split
  · split
    · exact chain _ _
    · exact throw _
  · exact throw _

theorem actor (beh : Word) (state : List Word) : Mute (Assembler.actor beh state) := by
  unfold Assembler.actor Machine.newActor
  refine (onHeap _).bind fun w => (look _).bind fun b => ?_
  split
  · exact (throw _).bind fun _ => (look _).bind fun b => by
      split
      · exact (throw _).bind fun _ => (onHeap _).bind fun _ => pure _
      · exact (onHeap _).bind fun _ => pure _
  · refine (look _).bind fun b => ?_
    split
    · exact (throw _).bind fun _ => (onHeap _).bind fun _ => pure _
    · exact (onHeap _).bind fun _ => pure _

theorem sealImage : Mute Machine.sealImage := (onHeap _).bind fun n => note n

end Mute

theorem Heap.Shows.sealed {h : Heap} (hs : h.Shows [] S) (htop : h.top = Word.reserved + S.length) :
    h.sealed.Shows S [] := by
  obtain ⟨hsound, hpristine, hlive, hres, hnodup, -, -, -, -, hcap, hsanity⟩ := hs
  refine ⟨hsound.sealed, hpristine, ?_, ?_, ?_, fun p hp => (hlive p hp).1.1, fun p hp =>
    absurd hp List.not_mem_nil, Nat.le_of_eq htop, ?_, hcap, hsanity⟩
  · rw [List.append_nil]
    exact hlive
  · rw [List.append_nil]
    exact hres
  · rw [List.append_nil]
    exact hnodup
  · have huse : h.sealed.inUse = h.top := rfl
    have hsame : h.sealed.capacity = h.capacity := rfl
    rw [huse, hsame, htop, List.append_nil]
    omega

namespace Machine

structure Spread (m : Machine) (S : List (Nat × Cell)) (view : View) : Prop where
  shows : m.Shows ⟨[], S, .empty, .empty, view⟩
  free : m.heap.FreeList []
  top : m.heap.top = Word.reserved + S.length

end Machine

namespace Assembler

def layOut (S : List (Nat × Cell)) (next : Word) : List Instruction → Word × List (Nat × Cell)
  | [] => (next, S)
  | i :: code =>
    let (w, S) := layOut S next code
    (.ref (Word.reserved + S.length), (Word.reserved + S.length,
      i.toCell (if i.isTerminal then .undefined else w)) :: S)

theorem length_layOut (S : List (Nat × Cell)) (next : Word) (code : List Instruction) :
    (layOut S next code).2.length = S.length + code.length := by
  induction code with
  | nil => rfl
  | cons i code ih => exact congrArg Nat.succ ih

end Assembler

namespace Machine

namespace Spread

variable (hl : m.Spread S view)

include hl

theorem achieves_alloc (hc : c.t ≠ .freeT) (hroom : Word.reserved + S.length < Config.minHeap) :
    Achieves (liftM (Heap.alloc c) : MachineM Word) m fun v m' =>
      v = .ref (Word.reserved + S.length) ∧
      m'.Spread ((Word.reserved + S.length, c) :: S) view := by
  refine achieves_onHeap ?_
  obtain ⟨-, h', hr, i, rfl, hs, hf, -⟩ := hl.shows.heap.achieves_alloc hc hroom
  obtain ⟨hi, htake, hfree⟩ := hl.free.alloc_nil hr hc
  obtain rfl := Word.ref.inj hi
  refine ⟨_, h', hr, by rw [hl.top], ?_, hfree, ?_⟩
  · rw [← hl.top]
    exact hl.shows.onHeap hs hf
  · change h'.top = _
    rw [htake.top, hl.top, List.length_cons]
    omega

theorem achieves_chain {code : List Instruction}
    (hroom : Word.reserved + S.length + code.length ≤ Config.minHeap) (next : Word) :
    Achieves (Assembler.chain code next) m fun v m' =>
      v = (Assembler.layOut S next code).1 ∧ m'.Spread (Assembler.layOut S next code).2 view := by
  unfold Assembler.chain
  induction code with
  | nil => exact ⟨next, m, rfl, rfl, hl⟩
  | cons i code ih =>
    rw [List.length_cons] at hroom
    rw [List.foldrM_cons]
    refine (ih (by omega)).bind ?_
    rintro - m₁ ⟨rfl, hl₁⟩
    refine hl₁.achieves_alloc nofun ?_
    rw [Assembler.length_layOut]
    omega

theorem achieves_block {code : List Instruction} {e : Ending}
    (hroom : Word.reserved + S.length + code.length ≤ Config.minHeap)
    (he : code.getLast? = some (.finish e)) :
    Achieves (Assembler.block code) m fun v m' =>
      v = (Assembler.layOut S .undefined code).1 ∧
      m'.Spread (Assembler.layOut S .undefined code).2 view := by
  rw [Assembler.block_eq he]
  exact hl.achieves_chain hroom .undefined

theorem achieves_newActor {i : Nat} {state : Word}
    (hroom : Word.reserved + S.length < Config.minHeap) (hi : (i, c) ∈ S) (hc : c.t = .instrT)
    (hstate : state = .nil ∨ ∃ j d, state = .ref j ∧ (j, d) ∈ S ∧ d.t = .pairT) :
    Achieves (newActor (.ref i) state) m fun v m' => v = .cap (Word.reserved + S.length) ∧
      m'.Spread ((Word.reserved + S.length, ⟨.actorT, .ref i, state, .undefined⟩) :: S) view := by
  have hcode : m.heap.isCode (.ref i) = true := hl.shows.heap.hasType (by simpa using hi) hc
  have hlist : ¬ (state ≠ .nil ∧ (!m.heap.isPair state) = true) := by
    rintro ⟨hne, hpair⟩
    obtain rfl | ⟨j, d, rfl, hj, hd⟩ := hstate
    · exact hne rfl
    · rw [show m.heap.isPair (.ref j) = true from hl.shows.heap.hasType
        (by simpa using hj) hd] at hpair
      cases hpair
  unfold newActor
  rw [achieves_look_bind, hcode, Bool.not_true, if_neg Bool.false_ne_true, achieves_look_bind,
    if_neg hlist]
  refine (hl.achieves_alloc (c := ⟨.actorT, .ref i, state, .undefined⟩) nofun hroom).bind ?_
  rintro - m₁ ⟨rfl, hl₁⟩
  exact ⟨_, m₁, rfl, rfl, hl₁⟩

theorem achieves_sealImage : Achieves sealImage m fun _ m' =>
    m'.Shows ⟨S, [], .empty, .empty, view⟩ := by
  have hseal : Heap.sealCells m.heap = .ok (.imageSealed m.heap.top) m.heap.sealed := by
    rw [hl.free.sealCells_eq]
    exact if_pos (Nat.zero_le _)
  unfold sealImage
  refine Achieves.bind (Q := fun _ m' => m'.Shows ⟨S, [], .empty, .empty, view⟩)
    (achieves_onHeap ⟨_, _, hseal, ?_⟩)
    fun n m' hs => ⟨_, _, rfl, hs.note n⟩
  exact ⟨hl.shows.heap.sealed hl.top, hl.shows.events, hl.shows.threads, hl.shows.view,
    Heap.lit_nil _, Heap.lit_nil _⟩

end Spread

theorem exists_new (hcap : Config.minHeap ≤ config.heapCapacity) (hstride : 1 ≤ config.stride) :
    ∃ m, Machine.new config = .ok m := by
  have hvalid : config.validate = .ok () := by
    unfold Config.validate
    rw [if_neg (by omega), if_neg (by omega)]
  unfold Machine.new
  rw [hvalid]
  exact ⟨_, rfl⟩

theorem parts_new (hm : Machine.new config = .ok m) : Config.minHeap ≤ config.heapCapacity ∧
    m.heap = { (Heap.new config.heapCapacity).withSanity config.effectiveSanity with
      colors := m.heap.colors } ∧
    m.events = .empty ∧ m.threads = .empty ∧ m.view = .new config := by
  obtain ⟨hv, rfl⟩ := Machine.new_eq_ok hm
  refine ⟨?_, ?_, rfl, rfl, rfl⟩
  · unfold Config.validate at hv
    split at hv
    · cases hv
    · omega
  · dsimp only
    split <;> rfl

theorem spread_new (hm : Machine.new config = .ok m) (hsanity : config.sanity = 0) :
    m.Spread [] (.new config) := by
  obtain ⟨hcap, hheap, hevents, hthreads, hview⟩ := parts_new hm
  have hsound := (built_new hm m.console).settled.orderly.sound
  have hfree : m.heap.FreeList [] := by
    rw [hheap]
    exact (Heap.freeList_new config.heapCapacity config.effectiveSanity).of_eq rfl rfl rfl rfl rfl
  have hpristine : m.heap.Pristine := fun i hi => by
    rw [hheap]
    exact Heap.literals_new config.heapCapacity config.effectiveSanity hi
  have htop : m.heap.top = Word.reserved := by rw [hheap]; rfl
  have hpermanent : m.heap.permanent = Word.reserved := by rw [hheap]; rfl
  have hcapacity : Config.minHeap ≤ m.heap.capacity := by
    rw [hheap]
    refine Nat.le_trans hcap ?_
    simp [Heap.capacity, Heap.withSanity, Heap.new]
  have hlimit : Config.minHeap ≤ m.heap.sanity := by
    have hs : m.heap.sanity = config.effectiveSanity := by rw [hheap]; rfl
    rw [hs, Config.effectiveSanity, if_pos hsanity]
    exact hcap
  have huse := hfree.inUse_add
  refine ⟨⟨⟨hsound, hpristine, ?_, ?_, List.nodup_nil, ?_, ?_, Nat.le_of_eq hpermanent, ?_,
    hcapacity, hlimit⟩, hevents, hthreads, hview, Heap.lit_nil _, Heap.lit_nil _⟩, hfree, htop⟩
  · exact fun p hp => absurd hp List.not_mem_nil
  · exact fun p hp => absurd hp List.not_mem_nil
  · exact fun p hp => absurd hp List.not_mem_nil
  · exact fun p hp => absurd hp List.not_mem_nil
  · omega

def Lists (S : List (Nat × Cell)) : Word → Bool
  | .fixnum _ | .cap _ => true
  | .ref i => i < Word.reserved || S.any fun p => p.1 = i && p.2.t ≠ .actorT

theorem Spread.offers (hl : m.Spread S view) (hw : Lists S w = true) :
    m.heap.Offers m.heap.top w := by
  cases w with
  | fixnum n => trivial
  | cap i => trivial
  | ref i =>
    simp only [Lists, Bool.or_eq_true, decide_eq_true_eq, List.any_eq_true, Bool.and_eq_true] at hw
    obtain h | ⟨p, hp, rfl, hne⟩ := hw
    · exact .inl h
    · obtain ⟨⟨htop, hfree⟩, hcell⟩ := hl.shows.heap.live p hp
      exact .inr ⟨htop, hfree, hcell ▸ hne⟩

/-- A program is being laid out on a new machine. -/
structure Laid (config : Config) (m : Machine) (S : List (Nat × Cell)) : Prop where
  building : Building config m
  spread : m.Spread S (.new config)

namespace Laid

variable {S' : List (Nat × Cell)}

theorem new (hm : Machine.new config = .ok m) (hsanity : config.sanity = 0) : Laid config m [] :=
  ⟨.new m.console hm, spread_new hm hsanity⟩

variable (hl : Laid config m S)

include hl

theorem construct (c : Construct) (hw : ∀ w ∈ c.words, Lists S w = true)
    (ha : Achieves c.run m fun v m' => v = w ∧ m'.Spread S' (.new config)) :
    Achieves c.run m fun v m' => v = w ∧ Laid config m' S' := by
  obtain ⟨r, m', hr, hv, hs⟩ := ha
  exact ⟨r, m', hr, hv, hl.building.construct c (fun w h => hl.spread.offers (hw w h)) hr, hs⟩

theorem achieves_chain (code : List Instruction) (next : Word)
    (hw : ∀ w ∈ next :: code.map Instruction.operand, Lists S w = true)
    (hroom : Word.reserved + S.length + code.length ≤ Config.minHeap) :
    Achieves (Assembler.chain code next) m fun v m' =>
      v = (Assembler.layOut S next code).1 ∧ Laid config m' (Assembler.layOut S next code).2 :=
  hl.construct (.chain code next) hw (hl.spread.achieves_chain hroom next)

theorem achieves_block {e : Ending} (code : List Instruction)
    (hw : ∀ w ∈ code.map Instruction.operand, Lists S w = true)
    (hroom : Word.reserved + S.length + code.length ≤ Config.minHeap)
    (he : code.getLast? = some (.finish e)) :
    Achieves (Assembler.block code) m fun v m' =>
      v = (Assembler.layOut S .undefined code).1 ∧
      Laid config m' (Assembler.layOut S .undefined code).2 :=
  hl.construct (.block code) hw (hl.spread.achieves_block hroom he)

theorem achieves_sealImage : Achieves sealImage m fun _ m' =>
    (∃ ρ, Fit ρ m') ∧ m'.collector.isSweeping = false ∧
    m'.Shows ⟨S, [], .empty, .empty, .new config⟩ := by
  obtain ⟨⟨⟩, m', hr, hs⟩ := hl.spread.achieves_sealImage
  obtain ⟨ρ, hf, -⟩ := hl.building.able (S := fun _ => True) hr
  obtain ⟨m₀, ρ₀, hm₀, hbuilt, hsteady, -⟩ := hl.building.built
  have hq := (ensures_sealImage (E := fun _ => True) hbuilt.settled.orderly.sound).ok hr
  have hcollector : m'.collector = .ofConfig config :=
    hq.collector.trans (hsteady.collector.trans (new_eq hm₀).1)
  refine ⟨(), m', hr, ⟨ρ, hf⟩, ?_, hs⟩
  rw [hcollector]
  unfold Collector.ofConfig
  cases config.strategy <;> rfl

end Laid

end Machine

namespace Fit

theorem quiet (hf : Fit ρ m) (hq : Quiet m m') : Fit ρ m' :=
  hf.proceeds (hf.settled.quiet hq) hq.proceeds

theorem sent (hf : Fit ρ m) (hsweep : m.collector.isSweeping = false)
    (hv : m.heap.Offers m.heap.permanent v)
    (hw : m.heap.Offers m.heap.permanent w) (hr : Machine.send v w m = .ok () m') :
    ∃ ρ', Fit ρ' m' := by
  have hlit : ∀ w, m.collector.isSweeping = true → m.heap.Lit w := fun w h => by
    rw [hsweep] at h
    cases h
  obtain ⟨ρ', hs', hp, -⟩ :=
    (hf.settled.ensures_send (hf.safe (hlit v) hv) (hf.safe (hlit w) hw)).ok hr
  exact ⟨ρ', hf.proceeds hs' hp.proceeds⟩

end Fit

theorem Machine.Awaits.withConsole {P : Solo} {msgs : List Word} {k : Solo.Memory}
    (ha : m.Awaits P msgs k view)
    (console : Console) : ({ m with console } : Machine).Awaits P msgs k { view with console } := by
  obtain ⟨sent, hsent, hheap, hevents, hthreads, hview, he, ht⟩ := ha
  cases hview
  exact ⟨sent, hsent, hheap, hevents, hthreads, rfl, he, ht⟩

theorem Machine.Awaits.achieves_send {P : Solo} {k : Solo.Memory} (ha : m.Awaits P [] k view)
    (hroom : P.Roomy (k.state.length + k.loose.length)) (v : Word) :
    Achieves (send (.cap P.actor) v) m fun _ m' => m'.Awaits P [v] k view := by
  obtain ⟨sent, hsent, hs⟩ := ha
  obtain rfl := List.map_eq_nil_iff.1 hsent
  have hactor : m.heap.isActor (.cap P.actor) = true :=
    hs.heap.isActor (c := ⟨.actorT, .ref P.entry, Solo.front k.state, .undefined⟩)
    List.mem_cons_self rfl
  unfold send
  rw [achieves_look_bind, hactor, Bool.not_true, if_neg Bool.false_ne_true]
  refine (hs.achieves_alloc (c := ⟨.eventT, .cap P.actor, v, .nil⟩) nofun ?_).bind ?_
  · unfold Solo.Roomy at hroom
    simp [Solo.image, Solo.mail, Solo.linked]
    omega
  rintro - m₁ ⟨e, rfl, hs₁⟩
  exact (hs₁.achieves_putEvent List.mem_cons_self rfl).mono fun _ m₂ hs₂ => ⟨[(e, v)], rfl, hs₂⟩

end ActorMachine
