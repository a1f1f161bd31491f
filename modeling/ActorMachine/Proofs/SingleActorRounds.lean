import ActorMachine.Proofs.SingleActor

namespace ActorMachine

variable {S : List (Nat × Cell)} {events threads : Queue} {c c' : Clock} {sent : List (Nat × Word)}

def Stats.spawned (s : Stats) : Stats := { s with dispatched := s.dispatched + 1 }

def Stats.signalled (s : Stats) : Stats := { s with clockEvents := s.clockEvents + 1 }

def View.signalled (view : View) (c : Clock) :
    View := { view with clock := some c }.tally .signalled

namespace Solo

def State.fresh (k : Memory) (v : Word) (view : View) : State :=
  ⟨k.words, [], [], v, k, view.tally .spawned⟩

def State.counted (x : State) : State := { x with view := x.view.tally .performed }

def Known (L : List Nat) : Word → Prop
  | .fixnum _ => True
  | .ref i | .cap i => Word.reserved ≤ i → i ∈ L

instance (L : List Nat) (w : Word) : Decidable (Known L w) :=
  match w with
  | .fixnum _ => isTrue trivial
  | .ref _ | .cap _ => inferInstanceAs (Decidable (_ → _))

def addresses (P : Solo) : List Nat := P.actor :: P.code.map Prod.fst

/-- Nothing but the program and these words is known to the machine. -/
structure Closed (P : Solo) (words : List Word) (view : View) : Prop where
  code : ∀ p ∈ P.code, ∀ w ∈ p.2.words, Known P.addresses w
  words : ∀ w ∈ words, Known P.addresses w
  pinned : ∀ w ∈ view.pinned.toList, Known P.addresses w
  symbols : ∀ w ∈ view.symbols.buckets.toList, Known P.addresses w

namespace Known

variable {L L' : List Nat} {i : Nat} {w : Word}

theorem mono (hw : Known L w) (hL : ∀ i ∈ L, i ∈ L') : Known L' w := by
  cases w with
  | fixnum n => trivial
  | ref i | cap i => exact fun hi => hL i (hw hi)

theorem leads {h : Heap} (hw : Known L w) (hl : h.Leads w i) : i ∈ L := by
  obtain ⟨rfl | rfl, hi, -⟩ := hl
  · exact hw hi
  · exact hw hi

theorem of_reserved (hi : i < Word.reserved) : Known L (.ref i) :=
  fun h => absurd hi (Nat.not_lt.2 h)

variable {f : Word → Word → Cell} {l : List (Nat × Word)}

theorem front (hl : ∀ p ∈ linked f l, p.1 ∈ L) : Known L (front l) := by
  cases l with
  | nil => exact of_reserved (by decide)
  | cons p l => exact fun _ => hl _ List.mem_cons_self

theorem linked (hf : ∀ v w, Known L v → Known L w → ∀ u ∈ (f v w).words, Known L u)
    (hv : ∀ v ∈ l.map Prod.snd, Known L v) (hl : ∀ p ∈ linked f l, p.1 ∈ L) :
    ∀ p ∈ linked f l, ∀ w ∈ p.2.words, Known L w := by
  induction l with
  | nil => exact fun p hp => absurd hp List.not_mem_nil
  | cons q l ih =>
    obtain ⟨hq, hv⟩ := List.forall_mem_cons.1 hv
    obtain ⟨-, hl⟩ := List.forall_mem_cons.1 hl
    exact List.forall_mem_cons.2 ⟨hf _ _ hq (front hl), ih hv hl⟩

end Known

end Solo

def View.Ample (view : View) : Prop :=
  ∃ a b, view.margins = some (a, b) ∧ Config.minHeap ≤ Word.reserved + a ∧
  Config.minHeap ≤ Word.reserved + b

namespace Machine

variable {P : Solo} {ρ : Roles} {m m' : Machine} {t i j n : Nat} {ip v next : Word}
  {msgs : List Word} {k : Solo.Memory}
  {view : View} {x y : Solo.State}

namespace Shows

variable {s : Scene}

theorem interrupt_eq (hs : m.Shows s) (hq : s.view.Quiet) : interrupt m = .ok false m := by
  have hclock : m.clock = s.view.clock := congrArg View.clock hs.view
  unfold interrupt
  rw [run_bind (show (get : MachineM Machine) m = .ok m m from rfl), hclock]
  cases hc : s.view.clock with
  | none => rfl
  | some c =>
    have hpoll : c.poll = (none, c) := if_pos (hq c hc)
    dsimp only
    rw [hpoll]
    rfl

theorem prepare_eq (hs : m.Shows s) (hq : s.view.Quiet) (hevents : s.events = .empty) :
    prepare m = .ok () m := by
  have hm : ({ m with events := .empty } : Machine) = m := by rw [← hevents, ← hs.events]
  have hpop : popEvent m = .ok none m := by
    unfold popEvent
    rw [run_bind (show (get : MachineM Machine) m = .ok m m from rfl), hs.events, hevents]
    exact congrArg (EStateM.Result.ok none) hm
  have hidle : dispatch m = .ok .idle m := by
    unfold dispatch
    rw [run_bind hpop]
    rfl
  have hnext : ∀ b, dispatchNext b m = .ok () m := fun b => by
    unfold dispatchNext
    rw [run_bind hidle]
    rfl
  unfold prepare
  rw [run_bind (hs.interrupt_eq hq)]
  exact hnext _

theorem withClock {I : List (Nat × Cell)} (hs : m.Shows ⟨I, S, events, threads, view⟩)
    (c : Clock) :
    ({ m with clock := some c } : Machine).Shows ⟨I, S, events, threads,
      { view with clock := some c }⟩ := by
  obtain ⟨hheap, hevents, hthreads, hview, he, ht⟩ := hs
  cases hview
  exact ⟨hheap, hevents, hthreads, rfl, he, ht⟩

theorem achieves_spawn {e : Nat}
    (hs : m.Shows ⟨P.image k .undefined, P.mail [(e, v)] ++ k.loose, .empty, .empty, view⟩)
    (hq : view.Quiet)
    (hk : P.Keeps k) (hentry : P.Enters) (hroom : P.Roomy (k.state.length + k.loose.length)) :
    Achieves (spawn (.ref e) (.ref P.actor)) m fun r m' =>
      ∃ t, r = .spawned (.ref t) ∧ m'.Engaged P t (.ref P.entry) (.fresh k v view) := by
  obtain ⟨c, hc, ht⟩ := hentry
  have hactor : (P.actor, (⟨.actorT, .ref P.entry, Solo.front k.state, .undefined⟩ : Cell)) ∈
      P.image k .undefined ++ (P.mail [(e, v)] ++ k.loose) := List.mem_cons_self
  have hcell : (P.entry, c) ∈ P.image k .undefined ++ (P.mail [(e, v)] ++ k.loose) :=
    List.mem_append_left _ (List.mem_cons_of_mem _ hc)
  have hcode : m.heap.isCode (.ref P.entry) = true := hs.heap.hasType hcell ht
  have hne : Word.ref P.entry ≠ .freeT := fun h => by
    have hres : Word.reserved ≤ P.entry := hs.heap.reserved_le _ hcell
    rw [Word.ref.inj h] at hres
    exact absurd hres (by decide)
  have hlist : ∀ p ∈ Solo.pile k.state, p ∈ P.image k .nil ++ (P.mail [(e, v)] ++ k.loose) :=
      fun p hp => by
    have := hk.listed p hp
    simp only [Solo.image, List.mem_append, List.mem_cons] at this ⊢
    obtain h | h := this
    · exact .inl (.inr h)
    · exact .inr (.inr h)
  unfold Solo.Roomy at hroom
  unfold spawn
  rw [achieves_bind (hs.fetch_eq hactor .x), achieves_look_bind]
  change Achieves (if (!m.heap.isCode (.ref P.entry)) = true then _ else _) m _
  rw [hcode, Bool.not_true, if_neg Bool.false_ne_true, achieves_bind (hs.fetch_eq hactor .y)]
  refine (hs.achieves_storeFirst (f := .z) (by simp)).bind fun _ m₁ hs₁ => ?_
  have hcopy : Achieves (copyList (Solo.front k.state)) m₁ fun r m' => ∃ l,
    l.map Prod.snd = k.words ∧
      r = Solo.front l ∧ m'.Shows ⟨P.image k .nil, Solo.pile l ++ (P.mail [(e, v)] ++ k.loose),
        .empty, .empty, view⟩ := by
    unfold copyList
    rw [achieves_bind (ask_eq_ok.2 ⟨rfl, hs₁.heap.items_pile hlist (by omega)⟩)]
    refine Shows.achieves_ofItems hs₁ _ ?_
    simp only [List.length_append, List.length_cons, List.length_map, Solo.length_mail,
      List.length_nil]
    omega
  refine hcopy.bind ?_
  rintro - m₂ ⟨l, hl, rfl, hs₂⟩
  have hlen : l.length = k.state.length := by
    have := congrArg List.length hl
    rwa [List.length_map, Solo.Memory.words, List.length_map] at this
  refine (hs₂.achieves_alloc (c := ⟨.ref P.entry, Solo.front l, .ref e, .nil⟩) hne ?_).bind ?_
  · simp only [Solo.image, List.length_append, List.length_cons, Solo.length_mail, Solo.length_pile,
      List.length_nil]
    omega
  rintro - m₃ ⟨t, rfl, hs₃⟩
  refine hs₃.achieves_putThread.bind fun _ m₄ hs₄ => ?_
  refine ((hs₄.tally Stats.spawned).achieves_noteDispatch _).bind fun _ m₅ hs₅ => ?_
  exact ⟨_, m₅, rfl, t, rfl, hq, e, l, [], [], hl, rfl, rfl, hs₅⟩

end Shows

namespace Awaits

theorem achieves_dispatchNext (ha : m.Awaits P [v] k view) (hq : view.Quiet) (hk : P.Keeps k)
    (hentry : P.Enters) (hroom : P.Roomy (k.state.length + k.loose.length)) (b : Budget) :
    Achieves (dispatchNext b) m fun _ m' =>
      ∃ t, m'.Engaged P t (.ref P.entry) (.fresh k v view) := by
  obtain ⟨sent, hsent, hs⟩ := ha
  obtain ⟨⟨e, v⟩, sent, rfl, rfl, hnil⟩ := List.map_eq_cons_iff.1 hsent
  obtain rfl := List.map_eq_nil_iff.1 hnil
  have hdispatch : Achieves dispatch m fun r m' =>
      ∃ t, r = .spawned (.ref t) ∧ m'.Engaged P t (.ref P.entry) (.fresh k v view) := by
    unfold dispatch
    refine (hs.achieves_popEvent rfl).bind ?_
    rintro - m₁ ⟨rfl, hs₁⟩
    dsimp only
    have hactor : (P.actor, (⟨.actorT, .ref P.entry, Solo.front k.state, .undefined⟩ : Cell)) ∈
        P.image k .undefined ++ (P.mail [(e, v)] ++ k.loose) := List.mem_cons_self
    rw [achieves_bind (hs₁.fetch_eq (c := ⟨.eventT, .cap P.actor, v, .nil⟩)
      (by simp [Cell.set]) .x), achieves_look_bind]
    change Achieves (if (!m₁.heap.isActor (.cap P.actor)) = true then _ else _) m₁ _
    rw [hs₁.heap.isActor hactor rfl, Bool.not_true, if_neg Bool.false_ne_true]
    change Achieves ((liftM (Heap.fetch (.ref P.actor) .z) : MachineM Word) >>= _) m₁ _
    rw [achieves_bind (hs₁.fetch_eq hactor .z), if_neg (by simp [Cell.get])]
    exact Shows.achieves_spawn hs₁ hq hk hentry hroom
  unfold dispatchNext
  refine hdispatch.bind ?_
  rintro - m' ⟨t, rfl, he⟩
  exact ⟨(), m', rfl, t, he⟩

theorem achieves_prepare (ha : m.Awaits P [v] k view) (hq : view.Quiet) (hk : P.Keeps k)
    (hentry : P.Enters) (hroom : P.Roomy (k.state.length + k.loose.length)) :
    Achieves prepare m fun _ m' => ∃ t, m'.Engaged P t (.ref P.entry) (.fresh k v view) := by
  obtain ⟨sent, -, hs⟩ := id ha
  unfold prepare
  rw [achieves_bind (hs.interrupt_eq hq), achieves_look_bind]
  exact ha.achieves_dispatchNext hq hk hentry hroom _

theorem achieves_interrupt {s : UInt64} (ha : m.Awaits P [] k view) (hc : view.clock = some c)
    (hhandler : c'.handler = .cap P.actor) (hpoll : c.poll = (some s, c'))
    (hroom : P.Roomy (k.state.length + k.loose.length)) :
    Achieves interrupt m fun _ m' => m'.Awaits P [.fix s.toNat] k (view.signalled c') := by
  obtain ⟨sent, hsent, hs⟩ := ha
  obtain rfl := List.map_eq_nil_iff.1 hsent
  have hclock : m.clock = some c := (congrArg View.clock hs.view).trans hc
  have hs₁ := hs.withClock c'
  have hactor :=
    hs₁.heap.isActor (i := P.actor) (c := ⟨.actorT, .ref P.entry, Solo.front k.state, .undefined⟩)
    List.mem_cons_self rfl
  have hset : (modify fun m => { m with clock := some c' } : MachineM Unit) m =
    .ok () { m with clock := some c' } := rfl
  unfold interrupt
  rw [achieves_get_bind, hclock]
  dsimp only
  rw [hpoll]
  dsimp only
  rw [achieves_bind hset, achieves_look_bind, hhandler, if_pos hactor]
  refine (hs₁.achieves_alloc (c := ⟨.eventT, .cap P.actor, .fix s.toNat, .nil⟩) nofun ?_).bind ?_
  · unfold Solo.Roomy at hroom
    simp [Solo.image, Solo.mail, Solo.linked]
    omega
  rintro - m₁ ⟨e, rfl, hs₂⟩
  refine (hs₂.achieves_putEvent List.mem_cons_self rfl).bind fun _ m₂ hs₃ => ?_
  exact ⟨_, _, rfl, [(e, _)], rfl, (hs₃.tally .signalled).note _⟩

theorem achieves_prepare_due {s : UInt64} (ha : m.Awaits P [] k view) (hc : view.clock = some c)
    (hhandler : c'.handler = .cap P.actor) (hpoll : c.poll = (some s, c'))
    (hlt : c'.now < c'.deadline)
    (hk : P.Keeps k) (hentry : P.Enters) (hroom : P.Roomy (k.state.length + k.loose.length)) :
    Achieves prepare m fun _ m' => ∃ t, m'.Engaged P t (.ref P.entry)
      (.fresh k (.fix s.toNat) (view.signalled c')) := by
  unfold prepare
  refine (ha.achieves_interrupt hc hhandler hpoll hroom).bind fun _ m₁ ha₁ => ?_
  rw [achieves_look_bind]
  refine ha₁.achieves_dispatchNext (fun d hd => ?_) hk hentry hroom _
  cases hd
  exact hlt

end Awaits

namespace Shows

theorem reach_linked {s : Scene} {f : Word → Word → Cell} {l : List (Nat × Word)} {c : Cell}
    (hs : m.Shows s) (hf : ∀ v w, w ∈ (f v w).words)
    (hsub : ∀ p ∈ Solo.linked f l, p ∈ s.image ++ s.cells)
    (hi : (i, c) ∈ s.image ++ s.cells) (hr : m.heap.Reach m.roots i) (hw : Solo.front l ∈ c.words) :
    ∀ p ∈ Solo.linked f l, m.heap.Reach m.roots p.1 := by
  induction l generalizing i c with
  | nil => simp [Solo.linked]
  | cons q l ih =>
    have hmem := hsub _ List.mem_cons_self
    have hq := hs.reach_field hi hmem hr hw
    intro p hp
    obtain rfl | hp := List.mem_cons.1 hp
    · exact hq
    · exact ih (fun p hp => hsub p (List.mem_cons_of_mem _ hp)) hmem hq (hf _ _) p hp

theorem reach_image_linked {marker : Word} {f : Word → Word → Cell}
    {l : List (Nat × Word)} (hs : m.Shows ⟨P.image k marker, S, events, threads, view⟩)
    (hf : ∀ v w, w ∈ (f v w).words) (hl : Solo.front l = Solo.front k.state ∨ Solo.front l = marker)
    (hsub : ∀ p ∈ Solo.linked f l, p ∈ P.image k marker ++ S) :
    ∀ p ∈ Solo.linked f l, m.heap.Reach m.roots p.1 := by
  refine hs.reach_linked hf hsub (List.mem_append_left _ List.mem_cons_self)
    (hs.reach_image List.mem_cons_self) ?_
  obtain h | h := hl <;> simp [h, Cell.words]

theorem reach_loose {marker : Word}
    (hs : m.Shows ⟨P.image k marker, S, events, threads, view⟩) (hk : P.Keeps k)
    (hsub : ∀ p ∈ k.loose, p ∈ S) :
    ∀ p ∈ k.loose, m.heap.Reach m.roots p.1 := fun p hp => by
  refine hs.reach_image_linked (l := k.state) (fun v w => by simp [Cell.words]) (.inl rfl)
    (fun q hq => ?_) p
    (hk.loose p hp)
  obtain h | h := List.mem_append.1 (hk.listed q hq)
  · exact List.mem_append_left _ (List.mem_cons_of_mem _ h)
  · exact List.mem_append_right _ (hsub q h)

theorem reach_busy {e : Nat} {msg : Word} {stack staged : List (Nat × Word)}
    (hs : m.Shows (P.busy t e ip msg stack sent staged k view)) (hk : P.Keeps k) :
    ∀ p ∈ (P.busy t e ip msg stack sent staged k view).cells, m.heap.Reach m.roots p.1 := by
  have ht : (t, (⟨ip, Solo.front stack, .ref e, .nil⟩ : Cell)) ∈
      (P.busy t e ip msg stack sent staged k view).image ++
      (P.busy t e ip msg stack sent staged k view).cells := by
    simp [Solo.busy]
  have he : (e, (⟨.eventT, .cap P.actor, msg, Solo.front staged⟩ : Cell)) ∈
      (P.busy t e ip msg stack sent staged k view).image ++
      (P.busy t e ip msg stack sent staged k view).cells := by
    simp [Solo.busy]
  have hrt := hs.reach_root ht (.inr rfl)
  have hre := hs.reach_field ht he hrt (by simp [Cell.words])
  intro p hp
  obtain rfl | hp := List.mem_cons.1 hp
  · exact hrt
  obtain hp | hp := List.mem_append.1 hp
  · exact hs.reach_linked (fun v w => by simp [Cell.words])
      (fun q hq => by simp [Solo.busy, Solo.pile, hq]) ht hrt
      (by simp [Cell.words]) p hp
  obtain rfl | hp := List.mem_cons.1 hp
  · exact hre
  obtain hp | hp := List.mem_append.1 hp
  · exact hs.reach_image_linked (fun v w => by simp [Cell.words]) (.inr rfl)
      (fun q hq => by simp [Solo.mail, hq]) p hp
  obtain hp | hp := List.mem_append.1 hp
  · exact hs.reach_linked (fun v w => by simp [Cell.words])
      (fun q hq => by simp [Solo.busy, Solo.pile, hq]) he hre
      (by simp [Cell.words]) p hp
  · exact hs.reach_loose hk (fun q hq => by simp [hq]) p hp

theorem reach_mail {I : List (Nat × Cell)}
    (hs : m.Shows ⟨I, S, events, threads, view⟩) (hevents : events.head = Solo.front sent)
    (hsent : sent.length ≤ 1)
    (hsub : ∀ p ∈ P.mail sent, p ∈ S) : ∀ p ∈ P.mail sent, m.heap.Reach m.roots p.1 := by
  obtain _ | ⟨⟨e, v⟩, _ | ⟨q, sent⟩⟩ := sent
  · exact fun p hp => absurd hp List.not_mem_nil
  · intro p hp
    have hmem := hsub p hp
    obtain rfl := List.mem_singleton.1 hp
    exact hs.reach_root (List.mem_append_right _ hmem) (.inl hevents)
  · simp at hsent

theorem mem_of_reach_idle {new : List (Nat × Word)} {old : List (Nat × Cell)}
    (hs : m.Shows (P.idle sent ⟨new, Solo.pile new ++ old⟩ view)) (hentry : P.Enters)
    (hclosed : P.Closed (sent.map Prod.snd ++ new.map Prod.snd) view) (hr : m.heap.Reach m.roots i)
    (hi : m.heap.permanent ≤ i) : i ∈ (P.mail sent ++ Solo.pile new).map Prod.fst := by
  let L :=
    (P.image ⟨new, Solo.pile new ++ old⟩ .undefined ++ (P.mail sent ++ Solo.pile new)).map Prod.fst
  have hsub : ∀ p ∈ P.mail sent ++ Solo.pile new,
    p ∈ (P.idle sent ⟨new, Solo.pile new ++ old⟩ view).cells :=
    fun p hp => by
      simp only [Solo.idle, List.mem_append] at hp ⊢
      exact hp.imp_right .inl
  have haddr : ∀ i ∈ P.addresses, i ∈ L := fun i hi => by
    simp only [L, Solo.image, List.map_append, List.map_cons]
    exact List.mem_append_left _ hi
  have hown : ∀ p ∈ P.mail sent ++ Solo.pile new, p.1 ∈ L := fun p hp =>
    List.mem_map_of_mem (List.mem_append_right _ hp)
  have hmail : ∀ p ∈ P.mail sent, p.1 ∈ L := fun p hp => hown p (List.mem_append_left _ hp)
  have hpile : ∀ p ∈ Solo.pile new, p.1 ∈ L := fun p hp => hown p (List.mem_append_right _ hp)
  have hwords : ∀ w ∈ sent.map Prod.snd ++ new.map Prod.snd, Solo.Known L w := fun w hw =>
    (hclosed.words w hw).mono haddr
  have hlow : ∀ j, j < Word.reserved → Solo.Known L (.ref j) := fun j hj => .of_reserved hj
  have hactor : P.actor ∈ L := haddr _ List.mem_cons_self
  refine hs.mem_of_reach hsub (fun w hw i => Solo.Known.leads ?_) (fun p hp w hw i =>
    Solo.Known.leads ?_) hr hi
  · have hsymbols : m.symbols = view.symbols := congrArg View.symbols hs.view
    have hpinned : m.pinned = view.pinned := congrArg View.pinned hs.view
    have hevents : m.events.head = Solo.front sent := congrArg Queue.head hs.events
    have hthreads : m.threads.head = .nil := congrArg Queue.head hs.threads
    rw [mem_roots, hsymbols, hpinned, hevents, hthreads] at hw
    obtain hw | rfl | rfl | hw := hw
    · exact (hclosed.symbols w hw).mono haddr
    · exact .front hmail
    · exact hlow _ (by decide)
    · exact (hclosed.pinned w hw).mono haddr
  · obtain hp | hp := List.mem_append.1 hp
    · obtain rfl | hp := List.mem_cons.1 hp
      · obtain ⟨c, hc, -⟩ := hentry
        have hmem : P.entry ∈ L := haddr _ (List.mem_cons_of_mem _ (List.mem_map_of_mem hc))
        simp only [Cell.words, List.mem_cons, List.not_mem_nil, or_false] at hw
        obtain rfl | rfl | rfl | rfl := hw
        · exact hlow _ (by decide)
        · exact fun _ => hmem
        · exact .front hpile
        · exact hlow _ (by decide)
      · exact (hclosed.code p hp w hw).mono haddr
    · obtain hp | hp := List.mem_append.1 hp
      · refine Solo.Known.linked (fun v w hv hw u hu => ?_) (fun v hv =>
          hwords v (List.mem_append_left _ hv)) hmail
          p hp w hw
        simp only [Cell.words, List.mem_cons, List.not_mem_nil, or_false] at hu
        obtain rfl | rfl | rfl | rfl := hu
        · exact hlow _ (by decide)
        · exact fun _ => hactor
        · exact hv
        · exact hw
      · refine Solo.Known.linked (fun v w hv hw u hu => ?_) (fun v hv =>
          hwords v (List.mem_append_right _ hv)) hpile
          p hp w hw
        simp only [Cell.words, List.mem_cons, List.not_mem_nil, or_false] at hu
        obtain rfl | rfl | rfl | rfl := hu
        · exact hlow _ (by decide)
        · exact hv
        · exact hw
        · exact hlow _ (by decide)

end Shows

theorem Engaged.achieves_collectorStep (he : m.Engaged P t ip x) (hf : Fit ρ m)
    (hk : P.Keeps x.memory) :
    Achieves collectorStep m fun _ m' => (∃ ρ', Fit ρ' m') ∧ m'.Engaged P t ip x := by
  obtain ⟨hq, e, stack, sent, staged, hstack, hsent, hstaged, hs⟩ := he
  refine (hf.achieves_collectorStep hs.seen).mono ?_
  rintro - m' ⟨⟨ρ', hf'⟩, hc⟩
  exact ⟨⟨ρ', hf'⟩, hq, e, stack, sent, staged, hstack, hsent, hstaged,
    hs.kept hc hf' (hs.reach_busy hk)⟩

theorem Awaits.achieves_safepoint (ha : m.Awaits P msgs k view) (hf : Fit ρ m) (hk : P.Keeps k)
    (hmsgs : msgs.length ≤ 1) :
    Achieves safepoint m fun _ m' => (∃ ρ', Fit ρ' m') ∧ m'.Awaits P msgs k view := by
  obtain ⟨sent, rfl, hs⟩ := ha
  rw [List.length_map] at hmsgs
  refine (hf.achieves_safepoint hs.seen).mono ?_
  rintro - m' ⟨⟨ρ', hf'⟩, hc⟩
  refine ⟨⟨ρ', hf'⟩, sent, rfl, hs.kept hc hf' fun p hp => ?_⟩
  obtain hp | hp := List.mem_append.1 hp
  · exact hs.reach_mail rfl hmsgs (fun q hq => List.mem_append_left _ hq) p hp
  · exact hs.reach_loose hk (fun q hq => List.mem_append_right _ hq) p hp

theorem Awaits.achieves_safepoint_anew {new : List (Nat × Word)} {old : List (Nat × Cell)}
    (ha : m.Awaits P msgs ⟨new, Solo.pile new ++ old⟩ view) (hf : Fit ρ m) (hentry : P.Enters)
    (hclosed : P.Closed (msgs ++ new.map Prod.snd) view) (hample : view.Ample)
    (hmsgs : msgs.length ≤ 1) :
    Achieves safepoint m fun _ m' => (∃ ρ', Fit ρ' m') ∧
      m'.Awaits P msgs ⟨new, Solo.pile new⟩ view := by
  -- The state that the actor has given up is forgotten: either it is gone, or there is room enough
  -- anyway.
  obtain ⟨sent, rfl, hs⟩ := ha
  obtain ⟨a, b, hmargins, ha, hb⟩ := hample
  rw [List.length_map] at hmsgs
  have hs₁ : m.Shows ⟨P.image ⟨new, Solo.pile new⟩ .undefined,
    old ++ (P.mail sent ++ Solo.pile new),
      ⟨Solo.front sent, Solo.front sent⟩, .empty, view⟩ := by
    refine hs.perm ?_
    rw [List.perm_iff_count]
    intro a
    simp only [List.count_append]
    omega
  obtain ⟨⟨⟩, m', hr, ⟨ρ', hf'⟩, hc⟩ := hf.achieves_safepoint hs.seen
  refine ⟨(), m', hr, ⟨ρ', hf'⟩, sent, rfl, hs₁.cleans hc hf' (fun p hp => ?_) ?_⟩
  · obtain hp | hp := List.mem_append.1 hp
    · exact hs.reach_mail rfl hmsgs (fun q hq => List.mem_append_left _ hq) p hp
    · exact hs₁.reach_image_linked (l := new) (fun v w => by simp [Cell.words]) (.inl rfl)
        (fun q hq => by simp [Solo.pile, hq]) p hp
  · have hm : m.collector.margins = some (a, b) := (congrArg View.margins hs.view).trans hmargins
    have hroom := hf.room_of_safepoint hr hm fun i hi hle =>
      hs.mem_of_reach_idle hentry hclosed hi hle
    have hcap : Config.minHeap ≤ m'.heap.capacity := hc.eases.capacity ▸ hs.heap.capacity
    have hwhole : m.heap.permanent ≤ Word.reserved +
      (P.image ⟨new, Solo.pile new⟩ .undefined).length := hs₁.heap.whole
    have hsound := hf'.settled.orderly.sound
    have htop := hsound.top_le
    obtain ⟨l, hl⟩ := hsound.allocator
    have hadd := hl.inUse_add
    unfold Heap.unallocated at hroom
    rw [List.length_map] at hroom
    rw [List.length_append]
    omega

def Arrives (m : Machine) (n : Nat) (Q : Machine → Prop) : Prop :=
  ∃ m', (∀ k, runFor (k + n) m = runFor k m') ∧ Q m'

namespace Arrives

variable {k : Nat} {Q R : Machine → Prop}

theorem done (hq : Q m) : m.Arrives 0 Q := ⟨m, fun _ => rfl, hq⟩

theorem trans (ha : m.Arrives n Q) (hr : ∀ m', Q m' → m'.Arrives k R) : m.Arrives (n + k) R := by
  obtain ⟨m₁, h₁, hq⟩ := ha
  obtain ⟨m₂, h₂, hr⟩ := hr m₁ hq
  refine ⟨m₂, fun l => ?_, hr⟩
  rw [Nat.add_comm n k, ← Nat.add_assoc, h₁, h₂]

theorem mono (ha : m.Arrives n Q) (hr : ∀ m', Q m' → R m') : m.Arrives n R := by
  obtain ⟨m', hrun, hq⟩ := ha
  exact ⟨m', hrun, hr m' hq⟩

theorem tick (ha : Achieves Machine.tick m fun b m' => b = true ∧ Q m') : m.Arrives 1 Q := by
  obtain ⟨b, m', hr, rfl, hq⟩ := ha
  refine ⟨m', fun k => ?_, hq⟩
  rw [runFor, run_bind hr]
  rfl

theorem of_prepare (hr : prepare m = .ok () m') (hr' : prepare m' = .ok () m')
    (ha : m'.Arrives (n + 1) Q) :
    m.Arrives (n + 1) Q := by
  have htick : Machine.tick m = Machine.tick m' := by
    unfold Machine.tick
    rw [run_bind hr, run_bind hr']
  obtain ⟨m₁, hrun, hq⟩ := ha
  refine ⟨m₁, fun k => ?_, hq⟩
  rw [← hrun k]
  change EStateM.bind Machine.tick _ m = EStateM.bind Machine.tick _ m'
  unfold EStateM.bind
  rw [htick]

end Arrives

end Machine

theorem Solo.mem_code {P : Solo} {i : Nat} {c : Cell} (hi : P.code.lookup i = some c) :
    (i, c) ∈ P.code := by
  obtain ⟨l₁, l₂, heq, -⟩ := List.lookup_eq_some_iff.1 hi
  rw [heq]
  simp

def Solo.Steps (P : Solo) (i : Nat) (x : State) (j : Nat) (y : State) : Prop :=
  ∃ ins next c, P.code.lookup i = some (Instruction.toCell ins next) ∧
  Instruction.ofCell (ins.toCell next) = .ok ins ∧
    P.code.lookup j = some c ∧ c.t = .instrT ∧
    (∀ m t, Machine.Engaged m P t (.ref i) x → Achieves (Machine.perform ins next) m fun r m' =>
      r = .next (.ref j) ∧ m'.Engaged P t (.ref i) y) ∧ y.memory = x.memory

/-- So many instructions lead from `i` to `j`. -/
inductive Solo.Path (P : Solo) : Nat → Nat → State → Nat → State → Prop
  | refl (i : Nat) (x : State) : Path P 0 i x i x
  | step {n i j k : Nat} {x y z : State} : P.Steps i x.counted j y → Path P n j y k z →
    Path P (n + 1) i x k z

structure Solo.Concludes (P : Solo) (i : Nat) (x : State) : Prop where
  code : ∃ next, P.code.lookup i = some ((Instruction.finish .commit).toCell next)
  stack : x.stack = []
  sent : x.sent.length ≤ 1

namespace Machine

variable {P : Solo} {ρ : Roles} {m m' : Machine} {t i j n : Nat} {v : Word} {msgs : List Word}
  {k : Solo.Memory}
  {view : View} {x y : Solo.State}

namespace Engaged

variable (he : m.Engaged P t (.ref i) x)

include he

theorem head : m.threads.head = .ref t ∧ m.threads.head ≠ .nil ∧ prepare m = .ok () m := by
  obtain ⟨hq, e, stack, sent, staged, -, -, -, hs⟩ := he
  have hres : Word.reserved ≤ t :=
    hs.heap.reserved_le (t, _) (List.mem_append_right _ List.mem_cons_self)
  have hhead : m.threads.head = .ref t := congrArg Queue.head hs.threads
  refine ⟨hhead, fun h => ?_, hs.prepare_eq hq rfl⟩
  rw [Word.ref.inj (hhead.symm.trans h)] at hres
  exact absurd hres (by decide)

theorem achieves_tick {Q : Step → Machine → Prop} {R : Machine → Prop} (hf : Fit ρ m)
    (hk : P.Keeps x.memory) (hadv : ∀ m₁, m₁.Engaged P t (.ref i) x →
      Achieves (advance (.ref t)) m₁ Q)
    (hnext : ∀ m₂ ρ₂, Fit ρ₂ m₂ → Q .continued m₂ → R m₂)
    (hend : ∀ en m₂ ρ₂, Fit ρ₂ m₂ → Q (.retired en) m₂ → Achieves safepoint m₂ fun _ m' => R m')
    (hnone : ∀ m₂, ¬ Q .noThreads m₂) : Achieves Machine.tick m fun b m' => b = true ∧ R m' := by
  obtain ⟨hhead, hne, hprep⟩ := he.head
  have hexec : Achieves execute m fun r m' => r ≠ .noThreads ∧ R m' := by
    unfold execute
    rw [achieves_bind (show thread m = .ok m.threads.head m from rfl), if_neg hne]
    refine (he.achieves_collectorStep hf hk).bind ?_
    rintro - m₁ ⟨⟨ρ₁, hf₁⟩, he₁⟩
    obtain ⟨hhead₁, hne₁, -⟩ := he₁.head
    obtain ⟨step, m₂, hrun, hq⟩ := hadv m₁ he₁
    rw [← hhead₁] at hrun
    obtain ⟨ρ₂, hf₂⟩ := hf₁.advanced hne₁ hrun
    rw [hhead, ← hhead₁, achieves_bind hrun]
    cases step with
    | noThreads => exact absurd hq (hnone m₂)
    | continued => exact ⟨_, m₂, rfl, nofun, hnext m₂ ρ₂ hf₂ hq⟩
    | retired en => exact (hend en m₂ ρ₂ hf₂ hq).bind fun _ m' hr => ⟨_, m', rfl, nofun, hr⟩
  unfold Machine.tick
  rw [achieves_bind hprep]
  refine hexec.bind fun r m' ⟨hr, h⟩ => ?_
  cases r with
  | noThreads => exact absurd rfl hr
  | continued | retired => exact ⟨_, m', rfl, rfl, h⟩

theorem arrives_step (hf : Fit ρ m) (hk : P.Keeps x.memory) (hs : P.Steps i x.counted j y) :
    m.Arrives 1 fun m' => (∃ ρ', Fit ρ' m') ∧ m'.Engaged P t (.ref j) y ∧ y.memory = x.memory := by
  obtain ⟨ins, next, c, hi, hins, hj, hc, hrun, hmem⟩ := hs
  exact .tick (he.achieves_tick hf hk
    (fun m₁ he₁ => he₁.achieves_next (Solo.mem_code hi) hins (Solo.mem_code hj) hc fun m₂ he₂ =>
      hrun m₂ t he₂)
    (fun m₂ ρ₂ hf₂ h => ⟨⟨ρ₂, hf₂⟩, h.2, hmem⟩) (fun en m₂ ρ₂ _ h => nomatch h.1) fun m₂ h =>
    nomatch h.1)

theorem arrives (hf : Fit ρ m) (hk : P.Keeps x.memory) (hp : P.Path n i x j y) :
    m.Arrives n fun m' => (∃ ρ', Fit ρ' m') ∧ m'.Engaged P t (.ref j) y ∧ y.memory = x.memory := by
  induction hp generalizing m ρ with
  | refl => exact .done ⟨⟨ρ, hf⟩, he, rfl⟩
  | @step n i j k x y z hs _ ih =>
    rw [Nat.add_comm]
    refine (he.arrives_step hf hk hs).trans fun m₁ ⟨⟨ρ₁, hf₁⟩, he₁, hmem⟩ => ?_
    rw [← hmem]
    exact ih he₁ hf₁ (hmem ▸ hk)

theorem arrives_finish (hf : Fit ρ m) (hk : P.Keeps x.memory) (hc : P.Concludes i x)
    (hstaged : x.staged = []) : m.Arrives 1 fun m' =>
      (∃ ρ', Fit ρ' m') ∧ m'.Awaits P x.sent x.memory (x.counted.view.tally .committed) := by
  obtain ⟨⟨next, hi⟩, hstack, hsent⟩ := hc
  refine .tick (he.achieves_tick hf hk (fun m₁ he₁ =>
    he₁.achieves_finish (Solo.mem_code hi) hstack hsent (.inl hstaged))
    (fun m₂ ρ₂ _ h => nomatch h.1) (fun en m₂ ρ₂ hf₂ h => ?_) fun m₂ h => nomatch h.1)
  obtain ⟨-, k, ⟨-, rfl⟩ | ⟨new, hnew, -⟩, ha⟩ := h
  · exact ha.achieves_safepoint hf₂ hk hsent
  · rw [hstaged] at hnew
    cases hnew

theorem arrives_finish_anew {ws : List Word} (hf : Fit ρ m) (hk : P.Keeps x.memory)
    (hc : P.Concludes i x) (hentry : P.Enters) (hstaged : x.staged = .ref P.entry :: ws)
    (hclosed : P.Closed (x.sent ++ ws) x.view) (hample : x.view.Ample) : m.Arrives 1 fun m' =>
      (∃ ρ', Fit ρ' m') ∧ ∃ k, P.Keeps k ∧ k.words = ws ∧
      m'.Awaits P x.sent k (x.counted.view.tally .committed) := by
  obtain ⟨⟨next, hi⟩, hstack, hsent⟩ := hc
  refine .tick (he.achieves_tick hf hk
    (fun m₁ he₁ => he₁.achieves_finish (Solo.mem_code hi) hstack hsent
      (.inr (by rw [hstaged]; rfl)))
    (fun m₂ ρ₂ _ h => nomatch h.1) (fun en m₂ ρ₂ hf₂ h => ?_) fun m₂ h => nomatch h.1)
  obtain ⟨-, k, ⟨hnil, -⟩ | ⟨new, hnew, rfl⟩, ha⟩ := h
  · rw [hstaged] at hnil
    cases hnil
  · obtain ⟨-, rfl⟩ := List.cons.inj (hstaged.symm.trans hnew)
    have hclosed' : P.Closed (x.sent ++ new.map Prod.snd) (x.counted.view.tally .committed) :=
      ⟨hclosed.code, hclosed.words, hclosed.pinned, hclosed.symbols⟩
    refine (ha.achieves_safepoint_anew hf₂ hentry hclosed' hample hsent).mono ?_
    rintro - m' ⟨hf', ha'⟩
    exact ⟨hf', ⟨new, Solo.pile new⟩, ⟨fun p hp => List.mem_append_right _ hp, fun p hp => hp,
      by simp⟩, rfl, ha'⟩

end Engaged

namespace Awaits

theorem transacts (ha : m.Awaits P [v] k view) (hf : Fit ρ m) (hq : view.Quiet) (hk : P.Keeps k)
    (hentry : P.Enters)
    (hroom : P.Roomy (k.state.length + k.loose.length))
    (hp : P.Path n P.entry (.fresh k v view) i y)
    (hc : P.Concludes i y) (hstaged : y.staged = []) : m.Arrives (n + 1) fun m' =>
      (∃ ρ', Fit ρ' m') ∧ m'.Awaits P y.sent k (y.counted.view.tally .committed) := by
  obtain ⟨⟨⟩, m₁, hr, t, he⟩ := ha.achieves_prepare hq hk hentry hroom
  obtain ⟨ρ₁, hf₁⟩ := hf.prepared hr
  refine .of_prepare hr he.head.2.2 ((he.arrives hf₁ hk hp).trans
    fun m₂ ⟨⟨ρ₂, hf₂⟩, he₂, hmem⟩ => ?_)
  have hy : y.memory = k := hmem
  have hfinish := he₂.arrives_finish hf₂ (hy ▸ hk) hc hstaged
  rwa [hy] at hfinish

theorem transacts_due {s : UInt64} {ws : List Word} (ha : m.Awaits P [] k view) (hf : Fit ρ m)
    (hclock : view.clock = some c) (hhandler : c'.handler = .cap P.actor)
    (hpoll : c.poll = (some s, c'))
    (hlt : c'.now < c'.deadline) (hk : P.Keeps k) (hentry : P.Enters)
    (hroom : P.Roomy (k.state.length + k.loose.length))
    (hp : P.Path n P.entry (.fresh k (.fix s.toNat) (view.signalled c')) i y) (hc : P.Concludes i y)
    (hstaged : y.staged = .ref P.entry :: ws) (hclosed : P.Closed (y.sent ++ ws) y.view)
    (hample : y.view.Ample) :
    m.Arrives (n + 1) fun m' => (∃ ρ', Fit ρ' m') ∧
      ∃ k, P.Keeps k ∧ k.words = ws ∧ m'.Awaits P y.sent k (y.counted.view.tally .committed) := by
  obtain ⟨⟨⟩, m₁, hr, t, he⟩ := ha.achieves_prepare_due hclock hhandler hpoll hlt hk hentry hroom
  obtain ⟨ρ₁, hf₁⟩ := hf.prepared hr
  refine .of_prepare hr he.head.2.2 ((he.arrives hf₁ hk hp).trans
    fun m₂ ⟨⟨ρ₂, hf₂⟩, he₂, hmem⟩ => ?_)
  have hy : y.memory = k := hmem
  exact he₂.arrives_finish_anew hf₂ (hy ▸ hk) hc hentry hstaged hclosed hample

theorem rests (ha : m.Awaits P [] k view) (hq : view.Quiet) (n : Nat) :
    runFor (n + 1) m = .ok true m := by
  obtain ⟨sent, hsent, hs⟩ := ha
  obtain rfl := List.map_eq_nil_iff.1 hsent
  have hnil : m.threads.head = .nil := congrArg Queue.head hs.threads
  have hexec : execute m = .ok .noThreads m := by
    unfold execute
    rw [run_bind (show thread m = .ok m.threads.head m from rfl), hnil, if_pos rfl]
    rfl
  have htick : Machine.tick m = .ok false m := by
    unfold Machine.tick
    rw [run_bind (hs.prepare_eq hq rfl), run_bind hexec]
    rfl
  rw [runFor, run_bind htick]
  rfl

end Awaits

end Machine

end ActorMachine
