import ActorMachine.Proofs.Arithmetic
import ActorMachine.Proofs.ListingCollection

namespace ActorMachine

open Heap

structure Solo where
  actor : Nat
  entry : Nat
  code : List (Nat × Cell)

def Stats.committed (s : Stats) : Stats := { s with commits := s.commits + 1 }

def View.Quiet (view : View) : Prop := ∀ c ∈ view.clock, c.now < c.deadline

namespace Solo

variable {P : Solo}

def front : List (Nat × Word) → Word
  | [] => .nil
  | (i, _) :: _ => .ref i

def linked (f : Word → Word → Cell) : List (Nat × Word) → List (Nat × Cell)
  | [] => []
  | (i, v) :: l => (i, f v (front l)) :: linked f l

def pile (l : List (Nat × Word)) : List (Nat × Cell) :=
  linked (fun v w => ⟨.pairT, v, w, .undefined⟩) l

def mail (P : Solo) (l : List (Nat × Word)) : List (Nat × Cell) :=
  linked (fun v w => ⟨.eventT, .cap P.actor, v, w⟩) l

/-- What the actor keeps between messages: the pairs of its state, and those cells of them that are
not permanent. -/
structure Memory where
  state : List (Nat × Word)
  loose : List (Nat × Cell)

def Memory.words (k : Memory) : List Word := k.state.map Prod.snd

structure Keeps (P : Solo) (k : Memory) : Prop where
  listed : ∀ p ∈ pile k.state, p ∈ P.code ++ k.loose
  loose : ∀ p ∈ k.loose, p ∈ pile k.state
  length_le : k.loose.length ≤ k.state.length

def image (P : Solo) (k : Memory) (marker : Word) : List (Nat × Cell) :=
  (P.actor, ⟨.actorT, .ref P.entry, front k.state, marker⟩) :: P.code

def idle (P : Solo) (sent : List (Nat × Word)) (k : Memory) (view : View) : Scene :=
  ⟨P.image k .undefined, P.mail sent ++ k.loose, ⟨front sent, front sent⟩, .empty, view⟩

def busy (P : Solo) (t e : Nat) (ip msg : Word) (stack sent staged : List (Nat × Word)) (k : Memory)
    (view : View) :
    Scene :=
  ⟨P.image k (front sent), (t, ⟨ip, front stack, .ref e, .nil⟩) :: (pile stack ++
    (e, ⟨.eventT, .cap P.actor, msg, front staged⟩) :: (P.mail sent ++ (pile staged ++ k.loose))),
    .empty, ⟨.ref t, .ref t⟩, view⟩

def leaving (P : Solo) (t e : Nat) (ip msg : Word) (sent : List (Nat × Word)) (k : Memory)
    (view : View) : Scene :=
  ⟨P.image k .undefined, (t, ⟨ip, .nil, .ref e, .nil⟩) :: (e, ⟨.eventT, .cap P.actor, msg, .nil⟩) ::
    (P.mail sent ++ k.loose), ⟨front sent, front sent⟩, ⟨.ref t, .ref t⟩, view⟩

structure State where
  stack : List Word
  sent : List Word
  /-- The behaviour to go on with and its state, if there are any. -/
  staged : List Word
  message : Word
  memory : Memory
  view : View

def State.size (x : State) :
    Nat := x.stack.length + x.sent.length + x.staged.length + x.memory.loose.length

/-- What the actor keeps once its transaction has committed. The pairs of a state that it gives up
are left over. -/
def State.Leaves (P : Solo) (x : State) (k : Memory) : Prop :=
  x.staged = [] ∧ k = x.memory ∨
    ∃ new, x.staged = .ref P.entry :: new.map Prod.snd ∧ k = ⟨new, pile new ++ x.memory.loose⟩

def Enters (P : Solo) : Prop := ∃ c, (P.entry, c) ∈ P.code ∧ c.t = .instrT

def Roomy (P : Solo) (n : Nat) : Prop := Word.reserved + P.code.length + n + 3 < Config.minHeap

instance (P : Solo) (n : Nat) : Decidable (P.Roomy n) := inferInstanceAs (Decidable (_ < _))

theorem Roomy.mono {n k : Nat} (hr : P.Roomy n) (hk : k ≤ n) : P.Roomy k := by
  unfold Roomy at hr ⊢
  omega

theorem length_linked (f : Word → Word → Cell) (l : List (Nat × Word)) :
    (linked f l).length = l.length := by
  induction l with
  | nil => rfl
  | cons p l ih => exact congrArg Nat.succ ih

@[simp] theorem length_pile (l : List (Nat × Word)) : (pile l).length = l.length :=
  length_linked _ l

@[simp] theorem length_mail (l : List (Nat × Word)) : (P.mail l).length = l.length :=
  length_linked _ l

end Solo

theorem Alu.fix_add (a b : Int) :
    Word.fix (Alu.add.apply (.ofInt (BitVec.ofInt 63 a).toInt)
      (.ofInt (BitVec.ofInt 63 b).toInt)).toInt =
      .fix (a + b) := by
  rw [Alu.fix_apply, Alu.result, ← BitVec.ofInt_add]
  rfl

namespace Heap.Shows

variable {P : Solo} {h : Heap} {I S : List (Nat × Cell)} {l : List (Nat × Word)}

theorem pairs_pile (hs : h.Shows I S) (hsub : ∀ p ∈ Solo.pile l, p ∈ I ++ S) :
    h.Pairs (Solo.front l) (l.map Prod.fst) ∧
    (l.map Prod.fst).map (fun i => (h.cellAt i).x) = l.map Prod.snd := by
  induction l with
  | nil => exact ⟨⟨rfl, by simp⟩, rfl⟩
  | cons p l ih =>
    obtain ⟨⟨hchain, hpairs⟩, hx⟩ := ih fun q hq => hsub q (List.mem_cons_of_mem _ hq)
    have hmem := hsub _ List.mem_cons_self
    have hcell := hs.cellAt hmem
    refine ⟨⟨⟨rfl, hs.reserved_le _ hmem, ?_⟩, ?_⟩, ?_⟩
    · rw [hcell]
      exact hchain
    · rw [List.map_cons, List.forall_mem_cons]
      exact ⟨hs.hasType hmem rfl, hpairs⟩
    · rw [List.map_cons, List.map_cons, List.map_cons, hcell, hx]

theorem items_pile (hs : h.Shows I S) (hsub : ∀ p ∈ Solo.pile l, p ∈ I ++ S)
    (hlen : l.length ≤ Config.minHeap) :
    h.items (Solo.front l) = .ok (l.map Prod.snd) := by
  obtain ⟨hp, hx⟩ := hs.pairs_pile hsub
  have hlen' : (l.map Prod.fst).length ≤ h.sanity := by
    have := hs.sanity
    rw [List.length_map]
    omega
  unfold items
  rw [hp.spine_ok hs.pristine.not_isPair_nil hlen', ← hx]
  simp only [Functor.map, Except.map]
  refine congrArg Except.ok ?_
  have := hp.map_car id
  simpa using this

theorem eventChain_mail {b : Budget} (hs : h.Shows I S) (hsub : ∀ p ∈ P.mail l, p ∈ I ++ S)
    (hn : l.length ≤ b.left) : h.eventChain b (Solo.front l) = .ok (l.map fun p => .ref p.1) := by
  induction l generalizing b with
  | nil =>
    unfold eventChain Solo.front
    rw [hs.pristine.not_isEvent_nil]
    rfl
  | cons p l ih =>
    have hmem := hsub _ List.mem_cons_self
    have hevent : h.isEvent (.ref p.1) = true := hs.hasType hmem rfl
    obtain ⟨_ | n, task⟩ := b
    · exact absurd hn (Nat.not_succ_le_zero _)
    · have ih : h.eventChain ⟨n, task⟩ _ = _ :=
        ih (fun q hq => hsub q (List.mem_cons_of_mem _ hq)) (Nat.le_of_succ_le_succ hn)
      unfold eventChain Solo.front
      dsimp only
      rw [hevent, if_pos rfl]
      change (h.field (.ref p.1) .z >>= fun w => (.ref p.1 :: ·) <$> h.eventChain ⟨n, task⟩ w) = _
      rw [field_ref (hs.live _ hmem).1.1, hs.cellAt hmem]
      change (.ref p.1 :: ·) <$> h.eventChain ⟨n, task⟩ (Solo.front l) = _
      rw [ih]
      rfl

theorem render_fix (hs : h.Shows I S) (n : Int) : h.render (.fix n) = .ok (Word.fix n).text := by
  obtain ⟨k, hk⟩ := Nat.exists_eq_add_one_of_ne_zero (show h.sanity ≠ 0 by
    have := hs.sanity
    have : 0 < Config.minHeap := by decide
    omega)
  have hlist : h.printsAsList (.fix n) = false := rfl
  unfold render renderAll Heap.budget
  rw [hk]
  change (if h.printsAsList (.fix n) = true then _ else _ : Except Fault String) = _
  rw [if_neg (by rw [hlist]; exact Bool.false_ne_true)]
  change h.renderAll ⟨k, "render"⟩ ("" ++ (Word.fix n).text) [] = _
  unfold renderAll
  rw [String.empty_append]

end Heap.Shows

theorem Machine.achieves_attempt {α : Type} {act : MachineM α} {m : Machine}
    {Q : α → Machine → Prop}
    (ha : Achieves act m Q) : Achieves (attempt act) m fun r m' => ∃ a, r = .ok a ∧ Q a m' := by
  obtain ⟨a, m', hr, hq⟩ := ha
  exact ⟨.ok a, m', by rw [attempt, hr], a, rfl, hq⟩

namespace Machine

variable {P : Solo} {m m' : Machine} {t : Nat} {ip v w next : Word} {vs ws : List Word}
  {x : Solo.State}

theorem Shows.achieves_ofItems {I S : List (Nat × Cell)} {events threads : Queue} {view : View}
    (hs : m.Shows ⟨I, S, events, threads, view⟩) (vs : List Word)
    (hroom : Word.reserved + (I ++ S).length + vs.length ≤ Config.minHeap) :
    Achieves (liftM (ofItems vs) : MachineM Word) m fun r m' => ∃ l, l.map Prod.snd = vs ∧
      r = Solo.front l ∧
      m'.Shows ⟨I, Solo.pile l ++ S, events, threads, view⟩ := by
  refine achieves_onHeap ?_
  unfold ofItems prepend
  induction vs with
  | nil => exact ⟨.nil, m.heap, rfl, [], rfl, rfl, hs⟩
  | cons v vs ih =>
    rw [List.length_cons] at hroom
    rw [List.foldrM_cons]
    refine (ih (by omega)).bind ?_
    rintro - h ⟨l, rfl, rfl, hs₁⟩
    refine ((hs₁.heap.achieves_alloc (c := ⟨.pairT, v, Solo.front l, .undefined⟩) nofun ?_).mono ?_)
    · simp only [List.length_append, Solo.length_pile, List.length_map] at hroom ⊢
      omega
    · rintro - h' ⟨i, rfl, hh, hf, -⟩
      exact ⟨(i, v) :: l, rfl, rfl, hs₁.onHeap hh hf⟩

def Awaits (m : Machine) (P : Solo) (msgs : List Word) (k : Solo.Memory) (view : View) : Prop :=
  ∃ sent, sent.map Prod.snd = msgs ∧ m.Shows (P.idle sent k view)

def Engaged (m : Machine) (P : Solo) (t : Nat) (ip : Word) (x : Solo.State) : Prop :=
  x.view.Quiet ∧ ∃ e stack sent staged, stack.map Prod.snd = x.stack ∧ sent.map Prod.snd = x.sent ∧
    staged.map Prod.snd = x.staged ∧
    m.Shows (P.busy t e ip x.message stack sent staged x.memory x.view)

namespace Engaged

section Engaged

variable (he : m.Engaged P t ip x)

include he

theorem achieves_push (hroom : P.Roomy x.size) (v : Word) :
    Achieves (push v) m fun _ m' => m'.Engaged P t ip { x with stack := v :: x.stack } := by
  obtain ⟨hq, e, stack, sent, staged, hstack, hsent, hstaged, hs⟩ := he
  refine (hs.achieves_push v ?_).mono ?_
  · unfold Solo.Roomy Solo.State.size at hroom
    rw [← hstack, ← hsent, ← hstaged] at hroom
    simp [Solo.image] at hroom ⊢
    omega
  · rintro - m' ⟨p, hs'⟩
    exact ⟨hq, e, (p, v) :: stack, sent, staged, congrArg (v :: ·) hstack, hsent, hstaged, hs'⟩

theorem achieves_pop (hx : x.stack = v :: vs) :
    Achieves pop m fun r m' => r = v ∧ m'.Engaged P t ip { x with stack := vs } := by
  obtain ⟨hq, e, stack, sent, staged, hstack, hsent, hstaged, hs⟩ := he
  obtain ⟨⟨p, v⟩, stack, rfl, rfl, hvs⟩ := List.map_eq_cons_iff.1 (hstack.trans hx)
  exact hs.achieves_pop.mono fun r m' h => ⟨h.1, hq, e, stack, sent, staged, hvs, hsent,
    hstaged, h.2⟩

theorem pairs : ∃ sp l, stack m = .ok sp m ∧ m.heap.Pairs sp l ∧
    l.map (fun i => (m.heap.cellAt i).x) = x.stack := by
  obtain ⟨-, e, stack, sent, staged, hstack, -, -, hs⟩ := he
  rw [← hstack]
  exact ⟨_, _, hs.stack_eq, hs.heap.pairs_pile fun p hp => by simp [Solo.busy, hp]⟩

theorem sanity : Config.minHeap ≤ m.heap.sanity := by
  obtain ⟨-, e, stack, sent, staged, -, -, -, hs⟩ := he
  exact hs.heap.sanity

theorem pristine : m.heap.Pristine := by
  obtain ⟨-, e, stack, sent, staged, -, -, -, hs⟩ := he
  exact hs.heap.pristine

theorem depth_eq (hroom : P.Roomy x.size) : depth m = .ok x.stack.length m := by
  obtain ⟨sp, l, hsp, hl, hx⟩ := he.pairs
  have hlen : l.length = x.stack.length := by rw [← hx, List.length_map]
  have hle : l.length ≤ m.heap.sanity := by
    have := he.sanity
    unfold Solo.Roomy Solo.State.size at hroom
    omega
  unfold depth
  rw [run_bind hsp]
  refine ask_eq_ok.2 ⟨rfl, ?_⟩
  unfold listLength
  rw [hl.spine_ok he.pristine.not_isPair_nil hle, ← hlen]
  simp [Functor.map, Except.map]

theorem achieves_pushAll (ws : List Word) (hroom : P.Roomy (ws.length + x.size)) :
    Achieves (pushAll ws) m fun _ m' => m'.Engaged P t ip { x with stack := ws ++ x.stack } := by
  unfold pushAll
  induction ws using List.reverseRecOn generalizing m x with
  | nil => exact ⟨(), m, rfl, he⟩
  | append_singleton ws w ih =>
    rw [List.reverse_append, List.reverse_singleton, List.singleton_append]
    change Achieves (push w >>= fun _ => ws.reverse.forM push) m _
    rw [List.length_append, List.length_singleton] at hroom
    refine (he.achieves_push (hroom.mono (by omega)) w).bind fun _ m' he' => ?_
    rw [List.append_assoc]
    refine ih he' (hroom.mono ?_)
    simp only [Solo.State.size, List.length_cons]
    omega

theorem achieves_popN (hx : x.stack = ws ++ vs) :
    Achieves (popN ws.length) m fun r m' => r = ws ∧ m'.Engaged P t ip { x with stack := vs } := by
  induction ws generalizing m x with
  | nil =>
    refine ⟨[], m, rfl, rfl, ?_⟩
    rw [← show x.stack = vs from hx]
    exact he
  | cons w ws ih =>
    refine (he.achieves_pop hx).bind ?_
    rintro v m₁ ⟨rfl, he₁⟩
    refine (ih he₁ rfl).bind ?_
    rintro r m₂ ⟨hr, he₂⟩
    exact ⟨_, m₂, rfl, congrArg (v :: ·) hr, he₂⟩

theorem achieves_popNumber {n : Int} (hx : x.stack = .fix n :: vs) (op : String) :
    Achieves (popNumber op) m fun r m' => r = (BitVec.ofInt 63 n).toInt ∧
      m'.Engaged P t ip { x with stack := vs } := by
  unfold popNumber
  refine (he.achieves_pop hx).bind ?_
  rintro - m₁ ⟨rfl, he₁⟩
  exact ⟨_, m₁, rfl, rfl, he₁⟩

end Engaged

theorem perform_of {ins : Instruction} {act : MachineM Unit} {Q : Machine → Prop}
    (ha : Achieves act m fun _ => Q) (hi : perform ins next = act >>= fun _ => pure (.next next)) :
    Achieves (perform ins next) m fun r m' => r = .next next ∧ Q m' := by
  rw [hi]
  exact ha.bind fun _ m' hq => ⟨_, m', rfl, rfl, hq⟩

section Engaged

variable (he : m.Engaged P t ip x)

include he

theorem perform_push (hroom : P.Roomy x.size) (v next : Word) :
    Achieves (perform (.push v) next) m fun r m' =>
      r = .next next ∧ m'.Engaged P t ip { x with stack := v :: x.stack } :=
  perform_of (he.achieves_push hroom v) rfl

theorem perform_dup (hx : x.stack = ws ++ vs) (hroom : P.Roomy (ws.length + x.size)) (next : Word) :
    Achieves (perform (.dup ws.length) next) m fun r m' =>
      r = .next next ∧ m'.Engaged P t ip { x with stack := ws ++ x.stack } := by
  obtain ⟨sp, l, hsp, hl, hvs⟩ := he.pairs
  have hlen : l.length = x.stack.length := by rw [← hvs, List.length_map]
  have hle : ws.length ≤ x.stack.length := by
    rw [hx, List.length_append]
    omega
  have hitems : m.heap.firstItems ws.length sp = ws := by
    rw [hl.firstItems (hlen ▸ hle), hvs, hx, List.take_left]
  refine perform_of ?_ rfl
  unfold dup
  rw [achieves_bind (he.depth_eq (hroom.mono (by omega))),
    if_neg (by rw [Int.toNat_natCast]; omega)]
  change Achieves (stack >>= _) m _
  rw [achieves_bind hsp, achieves_look_bind, Int.toNat_natCast, hitems]
  exact he.achieves_pushAll ws hroom

theorem perform_drop (hx : x.stack = ws ++ vs) (hroom : P.Roomy x.size) (next : Word) :
    Achieves (perform (.drop ws.length) next) m fun r m' =>
      r = .next next ∧ m'.Engaged P t ip { x with stack := vs } := by
  have hle : ws.length ≤ x.stack.length := by
    rw [hx, List.length_append]
    omega
  refine perform_of ?_ rfl
  unfold dropItems
  rw [achieves_bind (he.depth_eq hroom), Int.toNat_natCast, Nat.min_eq_left hle]
  refine (he.achieves_popN hx).bind ?_
  rintro - m₁ ⟨-, he₁⟩
  rw [if_neg (Nat.not_lt.2 hle)]
  exact ⟨(), m₁, rfl, he₁⟩

theorem perform_eq (hx : x.stack = v :: vs) (hroom : P.Roomy x.size) (w next : Word) :
    Achieves (perform (.eq w) next) m fun r m' =>
      r = .next next ∧ m'.Engaged P t ip { x with stack := .ofBool (v == w) :: vs } := by
  have hroom' : P.Roomy { x with stack := vs }.size := hroom.mono (by
    simp only [Solo.State.size, hx, List.length_cons]
    omega)
  refine (he.achieves_pop hx).bind ?_
  rintro - m₁ ⟨rfl, he₁⟩
  exact (he₁.achieves_push hroom' _).bind fun _ m' he' => ⟨_, m', rfl, rfl, he'⟩

theorem perform_branch (hx : x.stack = v :: vs) (hv : v.truthy = true) (target next : Word) :
    Achieves (perform (.branch target) next) m fun r m' =>
      r = .next target ∧ m'.Engaged P t ip { x with stack := vs } := by
  refine (he.achieves_pop hx).bind ?_
  rintro r m₁ ⟨hr, he₁⟩
  exact ⟨_, m₁, rfl, by rw [hr, hv]; rfl, he₁⟩

theorem perform_pass (hx : x.stack = v :: vs) (hv : v.truthy = false) (target next : Word) :
    Achieves (perform (.branch target) next) m fun r m' =>
      r = .next next ∧ m'.Engaged P t ip { x with stack := vs } := by
  refine (he.achieves_pop hx).bind ?_
  rintro r m₁ ⟨hr, he₁⟩
  exact ⟨_, m₁, rfl, by rw [hr, hv]; rfl, he₁⟩

theorem perform_add {a b : Int} (hx : x.stack = .fix b :: .fix a :: vs) (hroom : P.Roomy x.size)
    (next : Word) :
    Achieves (perform (.alu .add) next) m fun r m' =>
      r = .next next ∧ m'.Engaged P t ip { x with stack := .fix (a + b) :: vs } := by
  have hroom' : P.Roomy { x with stack := vs }.size := hroom.mono (by
    simp only [Solo.State.size, hx, List.length_cons]
    omega)
  refine perform_of ?_ rfl
  unfold arithmetic
  rw [if_neg (by decide)]
  refine (he.achieves_popNumber hx _).bind ?_
  rintro - m₁ ⟨rfl, he₁⟩
  refine (he₁.achieves_popNumber rfl _).bind ?_
  rintro - m₂ ⟨rfl, he₂⟩
  rw [Alu.fix_add]
  exact he₂.achieves_push hroom' _

theorem withView {view : View} (hv : m'.view = view) (hh : m'.heap = m.heap)
    (hevents : m'.events = m.events) (hthreads : m'.threads = m.threads)
    (hc : view.clock = x.view.clock) :
    m'.Engaged P t ip { x with view } := by
  obtain ⟨hq, e, stack, sent, staged, hstack, hsent, hstaged, hs⟩ := he
  refine ⟨fun c hmem => hq c (hc ▸ hmem), e, stack, sent, staged, hstack, hsent, hstaged, ?_⟩
  obtain ⟨h1, h2, h3, h4, h5, h6⟩ := hs
  exact ⟨hh ▸ h1, hevents.trans h2, hthreads.trans h3, hv, hh ▸ h5, hh ▸ h6⟩

theorem view_eq : m.view = x.view := by
  obtain ⟨-, e, stack, sent, staged, -, -, -, hs⟩ := he
  exact hs.view

theorem tally (g : Stats → Stats) : (m.tally g).Engaged P t ip { x with view := x.view.tally g } :=
  he.withView (congrArg (View.tally · g) he.view_eq) rfl rfl rfl rfl

theorem withConsole (console : Console) :
    ({ m with console } : Machine).Engaged P t ip { x with view := { x.view with console } } :=
  he.withView (congrArg (fun view : View => { view with console }) he.view_eq) rfl rfl rfl rfl

theorem perform_getc (hroom : P.Roomy x.size) (next : Word) :
    Achieves (perform .getc next) m fun r m' => r = .next next ∧
      m'.Engaged P t ip { x with
        stack := .fix (x.view.console.getc.1.elim (-1) fun b => b.toNat) :: x.stack
        view := { x.view with console := x.view.console.getc.2 } } := by
  have hconsole : m.console = x.view.console := congrArg View.console he.view_eq
  refine perform_of ?_ rfl
  unfold readByte
  rw [achieves_get_bind, hconsole]
  obtain ⟨byte, console⟩ := x.view.console.getc
  cases byte <;> exact (he.withConsole console).achieves_push hroom _

theorem perform_putc {n : Int} (hx : x.stack = .fix n :: vs) (next : Word) :
    Achieves (perform .putc next) m fun r m' => r = .next next ∧
      m'.Engaged P t ip { x with
        stack := vs
        view := { x.view with
          console := x.view.console.putc (.ofNat ((BitVec.ofInt 63 n).toInt % 256).toNat) } } := by
  refine perform_of ?_ rfl
  unfold writeByte
  refine (he.achieves_popNumber hx _).bind ?_
  rintro - m₁ ⟨rfl, he₁⟩
  have hconsole : m₁.console = x.view.console := congrArg View.console he₁.view_eq
  rw [← hconsole]
  exact ⟨_, _, rfl, he₁.withConsole _⟩

theorem perform_debug {n : Int} (hx : x.stack = .fix n :: vs) (tag next : Word) :
    Achieves (perform (.debug tag) next) m fun r m' => r = .next next ∧
      m'.Engaged P t ip { x with
        stack := vs
        view := { x.view with trace := x.view.trace.record tag (Word.fix n).text } } := by
  refine perform_of ?_ rfl
  unfold showValue
  refine (he.achieves_pop hx).bind ?_
  rintro - m₁ ⟨rfl, he₁⟩
  have hrender : m₁.heap.render (.fix n) = .ok (Word.fix n).text := by
    obtain ⟨-, e, stack, sent, staged, -, -, -, hs⟩ := he₁
    exact hs.heap.render_fix n
  rw [achieves_bind (ask_eq_ok.2 ⟨rfl, hrender⟩)]
  exact ⟨(), _, rfl, he₁.withView
    (congrArg (fun view : View => { view with trace := view.trace.record tag (Word.fix n).text })
      he₁.view_eq)
    rfl rfl rfl rfl⟩

end Engaged

section Busy

variable {e : Nat} {msg : Word} {stack sent staged : List (Nat × Word)} {k : Solo.Memory}
  {view : View}

variable (hs : m.Shows (P.busy t e ip msg stack sent staged k view))

include hs

theorem event_eq : event m = .ok (.ref e) m := by
  have ht : thread m = .ok (.ref t) m := by
    change EStateM.Result.ok m.threads.head m = _
    rw [hs.threads]
    rfl
  unfold event
  rw [run_bind ht]
  exact hs.fetch_eq (c := ⟨ip, Solo.front stack, .ref e, .nil⟩) (by simp [Solo.busy]) .y

theorem isActor : m.heap.isActor (.cap P.actor) = true :=
  hs.heap.isActor (c := ⟨.actorT, .ref P.entry, Solo.front k.state, Solo.front sent⟩)
    (by simp [Solo.busy, Solo.image]) rfl

theorem me_eq : me m = .ok (.ref P.actor) m := by
  unfold me
  rw [run_bind (event_eq hs),
    run_bind (hs.fetch_eq (c := ⟨.eventT, .cap P.actor, msg, Solo.front staged⟩)
    (by simp [Solo.busy]) .x)]
  change (if (!m.heap.isActor (.cap P.actor)) = true then _ else _ : MachineM Word) m = _
  rw [isActor hs]
  rfl

theorem fetch_me (f : Field) : (liftM (fetch (.ref P.actor) f) : MachineM Word) m =
      .ok ((⟨.actorT, .ref P.entry, Solo.front k.state, Solo.front sent⟩ : Cell).get f) m :=
  hs.fetch_eq (by simp [Solo.busy, Solo.image]) f

end Busy

section Engaged

variable (he : m.Engaged P t ip x)

include he

theorem perform_self (hroom : P.Roomy x.size) (next : Word) :
    Achieves (perform (.my .self) next) m fun r m' =>
      r = .next next ∧ m'.Engaged P t ip { x with stack := .cap P.actor :: x.stack } := by
  have hme : me m = .ok (.ref P.actor) m := by
    obtain ⟨-, e, stack, sent, staged, -, -, -, hs⟩ := he
    exact me_eq hs
  refine perform_of ?_ rfl
  unfold own
  rw [achieves_bind hme]
  exact he.achieves_push hroom _

theorem perform_behavior (hroom : P.Roomy x.size) (next : Word) :
    Achieves (perform (.my .beh) next) m fun r m' =>
      r = .next next ∧ m'.Engaged P t ip { x with stack := .ref P.entry :: x.stack } := by
  have hme : me m = .ok (.ref P.actor) m ∧
      (liftM (fetch (.ref P.actor) .x) : MachineM Word) m = .ok (.ref P.entry) m := by
    obtain ⟨-, e, stack, sent, staged, -, -, -, hs⟩ := he
    exact ⟨me_eq hs, fetch_me hs .x⟩
  refine perform_of ?_ rfl
  unfold own
  rw [achieves_bind hme.1]
  dsimp only
  rw [achieves_bind hme.2]
  exact he.achieves_push hroom _

theorem perform_msg (hroom : P.Roomy x.size) (next : Word) :
    Achieves (perform (.msg 0) next) m fun r m' =>
      r = .next next ∧ m'.Engaged P t ip { x with stack := x.message :: x.stack } := by
  have hmsg : ∃ e, event m = .ok (.ref e) m ∧
      (liftM (fetch (.ref e) .y) : MachineM Word) m = .ok x.message m := by
    obtain ⟨-, e, stack, sent, staged, -, -, -, hs⟩ := he
    exact ⟨e, event_eq hs, hs.fetch_eq (c := ⟨.eventT, .cap P.actor, x.message, Solo.front staged⟩)
      (by simp [Solo.busy]) .y⟩
  obtain ⟨e, hevent, hfetch⟩ := hmsg
  refine perform_of ?_ rfl
  unfold message
  rw [achieves_bind hevent, achieves_bind hfetch, achieves_look_bind]
  exact he.achieves_push hroom _

theorem achieves_holdBack (hroom : P.Roomy x.size) (v : Word) :
    Achieves (holdBack (.cap P.actor) v) m fun _ m' =>
      m'.Engaged P t ip { x with sent := v :: x.sent } := by
  obtain ⟨hq, e, stack, sent, staged, hstack, hsent, hstaged, hs⟩ := he
  unfold holdBack
  rw [achieves_bind (me_eq hs), achieves_bind (fetch_me hs .z)]
  refine (hs.achieves_alloc (c := ⟨.eventT, .cap P.actor, v, Solo.front sent⟩) nofun ?_).bind ?_
  · unfold Solo.Roomy Solo.State.size at hroom
    rw [← hstack, ← hsent, ← hstaged] at hroom
    simp [Solo.image] at hroom ⊢
    omega
  · rintro - m₁ ⟨p, rfl, hs₁⟩
    refine (hs₁.achieves_storeFirst (f := .z) nofun).mono fun _ m₂ hs₂ => ?_
    -- The new event goes behind the stack and the event that is handled.
    have hperm : ∀ {q : Nat × Cell} {a b : List (Nat × Cell)} {c : Nat × Cell},
        (q :: (a ++ c :: b)).Perm (a ++ c :: q :: b) :=
        List.perm_middle.symm.trans (.append_left _ (.swap _ _ _))
    exact ⟨hq, e, stack, (p, v) :: sent, staged, hstack, congrArg (v :: ·) hsent, hstaged,
      hs₂.perm ((List.Perm.swap _ _ _).trans (hperm.cons _))⟩

theorem perform_send (hx : x.stack = .cap P.actor :: v :: vs) (hroom : P.Roomy x.size)
    (next : Word) :
    Achieves (perform (.send 0) next) m fun r m' =>
      r = .next next ∧ m'.Engaged P t ip { x with stack := vs, sent := v :: x.sent } := by
  have hroom' : P.Roomy { x with stack := vs }.size := hroom.mono (by
    simp only [Solo.State.size, hx, List.length_cons]
    omega)
  have hcompose : Achieves (composeMessage 0) m fun r m' =>
      r = (.cap P.actor, v) ∧ m'.Engaged P t ip { x with stack := vs } := by
    unfold composeMessage
    refine (he.achieves_pop hx).bind ?_
    rintro - m₁ ⟨rfl, he₁⟩
    have hactor : m₁.heap.isActor (.cap P.actor) = true := by
      obtain ⟨-, e, stack, sent, staged, -, -, -, hs⟩ := he₁
      exact isActor hs
    rw [achieves_look_bind, hactor, Bool.not_true, if_neg Bool.false_ne_true]
    refine (he₁.achieves_pop rfl).bind ?_
    rintro r m₂ ⟨hr, he₂⟩
    exact ⟨_, m₂, rfl, by rw [hr], he₂⟩
  refine hcompose.bind ?_
  rintro - m₁ ⟨rfl, he₁⟩
  exact (he₁.achieves_holdBack hroom' v).bind fun _ m' he' => ⟨_, m', rfl, rfl, he'⟩

end Engaged

section Busy

variable {e : Nat} {msg : Word} {stack sent staged : List (Nat × Word)} {k : Solo.Memory}
  {view : View}

theorem takeBecome_none (hs : m.Shows (P.busy t e ip msg stack sent [] k view)) :
    takeBecome m = .ok none m := by
  unfold takeBecome
  rw [run_bind (event_eq hs), run_bind (hs.fetch_eq (c := ⟨.eventT, .cap P.actor, msg, .nil⟩)
    (by simp [Solo.busy, Solo.front]) .z)]
  change (if m.heap.isPair .nil = true then _ else _ : MachineM _) m = _
  rw [hs.heap.pristine.not_isPair_nil]
  rfl

theorem achieves_setCdr {I S : List (Nat × Cell)} {events threads : Queue} {p : Nat} {y z : Word}
    (hs : m.Shows ⟨I, (p, ⟨.pairT, v, y, z⟩) :: S, events, threads, view⟩) (w : Word) :
    Achieves (setCdr (.ref p) w) m fun _ m' =>
      m'.Shows ⟨I, (p, ⟨.pairT, v, w, z⟩) :: S, events, threads, view⟩ := by
  have hpair : m.heap.isPair (.ref p) = true :=
    hs.heap.hasType (c := ⟨.pairT, v, y, z⟩) (by simp) rfl
  unfold setCdr Heap.setCdr
  refine Achieves.bind (Q := fun n m' => n = none ∧
    m'.Shows ⟨I, (p, ⟨.pairT, v, w, z⟩) :: S, events, threads, view⟩) (achieves_onHeap ?_) ?_
  · rw [achieves_get_bind, hpair, if_pos rfl]
    refine (hs.heap.achieves_store (f := .y) nofun).bind ?_
    rintro - h ⟨hh, hf⟩
    exact ⟨none, h, rfl, rfl, hs.onHeap hh hf⟩
  · rintro n m' ⟨rfl, hs'⟩
    exact ⟨(), m', by simp [noteAll]; rfl, hs'⟩

theorem achieves_carve {p : Nat}
    (hs : m.Shows (P.busy t e ip msg ((p, v) :: stack) sent staged k view))
    (hd : depth m = .ok (stack.length + 1) m) (op : String) :
    Achieves (carve op 1) m fun r m' => r = .ref p ∧ m'.Shows (P.busy t e ip msg stack sent staged
      { k with loose := (p, ⟨.pairT, v, .nil, .undefined⟩) :: k.loose } view) := by
  have hmem : (p, (⟨.pairT, v, Solo.front stack, .undefined⟩ : Cell)) ∈
      (P.busy t e ip msg ((p, v) :: stack) sent staged k view).image ++
        (P.busy t e ip msg ((p, v) :: stack) sent staged k view).cells := by simp [Solo.busy,
          Solo.pile, Solo.linked]
  have hcdr : m.heap.cdr (.ref p) = Solo.front stack := by
    rw [cdr_eq (hs.heap.hasType hmem rfl), hs.heap.cellAt hmem]
  unfold carve
  rw [if_neg (by decide), if_neg (by decide), achieves_bind hd, if_neg (by simp),
    achieves_bind hs.stack_eq, achieves_look_bind]
  change Achieves (look (fun h => h.cdr (.ref p)) >>= _) m _
  rw [achieves_look_bind, hcdr]
  refine (hs.achieves_setStack (Solo.front stack)).bind fun _ m₁ hs₁ => ?_
  have hs₂ : m₁.Shows ⟨P.image k (Solo.front sent),
    (p, ⟨.pairT, v, Solo.front stack, .undefined⟩) ::
      (t, ⟨ip, Solo.front stack, .ref e, .nil⟩) :: (Solo.pile stack ++
        (e, ⟨.eventT, .cap P.actor, msg, Solo.front staged⟩) ::
        (P.mail sent ++ (Solo.pile staged ++ k.loose))), .empty,
      ⟨.ref t, .ref t⟩, view⟩ := hs₁.perm (.swap _ _ _)
  refine (achieves_setCdr hs₂ .nil).bind fun _ m₂ hs₃ => ⟨_, m₂, rfl, rfl, hs₃.perm ?_⟩
  rw [List.perm_iff_count]
  intro a
  simp only [List.count_cons, List.count_append]
  omega

theorem achieves_stageBecome {p : Nat} (hs : m.Shows (P.busy t e ip msg stack sent []
      { k with loose := (p, ⟨.pairT, v, .nil, .undefined⟩) :: k.loose } view))
    (hroom : P.Roomy (stack.length + sent.length + k.loose.length + 1)) (beh : Word) :
    Achieves (stageBecome beh (.ref p)) m fun _ m' => ∃ q, m'.Shows
      (P.busy t e ip msg stack sent [(q, beh), (p, v)] k view) := by
  have hdiscard : discardBecome m = .ok () m := by
    unfold discardBecome
    rw [run_bind (takeBecome_none hs)]
    rfl
  unfold stageBecome cons
  rw [achieves_bind hdiscard]
  refine (hs.achieves_alloc (c := ⟨.pairT, beh, .ref p, .undefined⟩) nofun ?_).bind ?_
  · unfold Solo.Roomy at hroom
    simp [Solo.image] at hroom ⊢
    omega
  rintro - m₁ ⟨q, rfl, hs₁⟩
  -- The new pair may stand behind the others.
  have hs₂ : m₁.Shows (P.busy t e ip msg stack sent [] { k with loose :=
      (q, ⟨.pairT, beh, .ref p, .undefined⟩) :: (p, ⟨.pairT, v, .nil, .undefined⟩) ::
        k.loose } view) := by
    refine hs₁.perm ?_
    rw [List.perm_iff_count]
    intro a
    simp only [List.count_cons, List.count_append]
    omega
  rw [achieves_bind (event_eq hs₂)]
  have hs₃ : m₁.Shows ⟨P.image k (Solo.front sent), (e, ⟨.eventT, .cap P.actor, msg, .nil⟩) ::
      ((t, ⟨ip, Solo.front stack, .ref e, .nil⟩) :: (Solo.pile stack ++ (P.mail sent ++
        (q, ⟨.pairT, beh, .ref p, .undefined⟩) :: (p, ⟨.pairT, v, .nil, .undefined⟩) :: k.loose))),
        .empty,
      ⟨.ref t, .ref t⟩, view⟩ := by
    refine hs₂.perm ?_
    rw [List.perm_iff_count]
    intro a
    simp only [Solo.pile, Solo.linked, Solo.front, List.count_cons, List.count_append,
      List.count_nil]
    omega
  refine (hs₃.achieves_store (f := .z) nofun).mono fun _ m₂ hs₄ => ⟨q, hs₄.perm ?_⟩
  rw [List.perm_iff_count]
  intro a
  simp only [Cell.set, Solo.pile, Solo.linked, Solo.front, List.count_cons, List.count_append,
    List.count_nil]
  omega

end Busy

theorem perform_become (he : m.Engaged P t ip x) (hentry : P.Enters)
    (hx : x.stack = .ref P.entry :: v :: vs)
    (hstaged : x.staged = []) (hroom : P.Roomy x.size) (next : Word) :
    Achieves (perform (.beh 1) next) m fun r m' =>
      r = .next next ∧ m'.Engaged P t ip { x with stack := vs, staged := [.ref P.entry, v] } := by
  have hbeh : Achieves (popBehavior "beh") m fun r m' =>
      r = .ref P.entry ∧ m'.Engaged P t ip { x with stack := v :: vs } := by
    unfold popBehavior
    refine (he.achieves_pop hx).bind ?_
    rintro - m₁ ⟨rfl, he₁⟩
    have hcode : m₁.heap.isCode (.ref P.entry) = true := by
      obtain ⟨c, hc, ht⟩ := hentry
      obtain ⟨-, e, stack, sent, staged, -, -, -, hs⟩ := he₁
      exact hs.heap.hasType (c := c) (by simp [Solo.busy, Solo.image, hc]) ht
    rw [achieves_look_bind, hcode, Bool.not_true, if_neg Bool.false_ne_true]
    exact ⟨_, m₁, rfl, rfl, he₁⟩
  have hroom' : P.Roomy { x with stack := v :: vs }.size := hroom.mono (by
    simp only [Solo.State.size, hx, List.length_cons]
    omega)
  refine perform_of ?_ rfl
  unfold become
  refine hbeh.bind ?_
  rintro - m₁ ⟨rfl, he₁⟩
  have hd := he₁.depth_eq hroom'
  obtain ⟨hq, e, stack, sent, staged, hstack, hsent, hnone, hs⟩ := he₁
  obtain ⟨⟨p, v⟩, stack, rfl, rfl, hvs⟩ := List.map_eq_cons_iff.1 hstack
  obtain rfl := List.map_eq_nil_iff.1 (hnone.trans hstaged)
  have hlen : vs.length = stack.length := by rw [← hvs, List.length_map]
  rw [List.length_cons, hlen] at hd
  refine (achieves_carve hs hd _).bind ?_
  rintro - m₂ ⟨rfl, hs₂⟩
  refine (achieves_stageBecome hs₂ (hroom.mono ?_) _).mono ?_
  · have hlen' : x.sent.length = sent.length := by
      rw [← show sent.map Prod.snd = x.sent from hsent, List.length_map]
    simp only [Solo.State.size, hx, hstaged, hlen, hlen', List.length_cons, List.length_nil]
    omega
  · rintro - m₃ ⟨q, hs₃⟩
    exact ⟨hq, e, stack, sent, [(q, _), (p, v)], hvs, hsent, rfl, hs₃⟩

section Busy

variable {e : Nat} {msg : Word} {sent : List (Nat × Word)} {k : Solo.Memory} {view : View}

theorem achieves_clearStack {staged : List (Nat × Word)}
    (hs : m.Shows (P.busy t e ip msg [] sent staged k view)) :
    Achieves clearStack m fun _ m' => m'.Shows (P.busy t e ip msg [] sent staged k view) := by
  unfold clearStack
  rw [achieves_bind hs.stack_eq]
  refine (hs.achieves_setStack .nil).bind fun _ m₁ hs₁ => ?_
  have hfree : freeSpine .nil m₁.heap = .ok () m₁.heap := by
    unfold freeSpine freeSpine.go
    change (if (m₁.heap.isPair .nil && decide (m₁.heap.permanent ≤ Word.nil.index)) = true
      then _ else _ : HeapM Unit) m₁.heap = _
    rw [hs₁.heap.pristine.not_isPair_nil]
    rfl
  exact achieves_onHeap ⟨(), _, hfree, hs₁⟩

theorem achieves_takeBecome {q : Nat} {beh : Word} {new : List (Nat × Word)}
    (hs : m.Shows (P.busy t e ip msg [] sent ((q, beh) :: new) k view)) :
    Achieves takeBecome m fun r m' => r = some (beh, Solo.front new) ∧
      m'.Shows (P.busy t e ip msg [] sent []
        { k with loose := Solo.pile new ++ k.loose } view) := by
  have hmem : (q, (⟨.pairT, beh, Solo.front new, .undefined⟩ : Cell)) ∈
      (P.busy t e ip msg [] sent ((q, beh) :: new) k view).image ++
        (P.busy t e ip msg [] sent ((q, beh) :: new) k view).cells := by simp [Solo.busy, Solo.pile,
          Solo.linked]
  have hpair : m.heap.isPair (.ref q) = true := hs.heap.hasType hmem rfl
  have hcar : m.heap.car (.ref q) = beh := by rw [car_eq hpair, hs.heap.cellAt hmem]
  have hcdr : m.heap.cdr (.ref q) = Solo.front new := by rw [cdr_eq hpair, hs.heap.cellAt hmem]
  unfold takeBecome
  rw [achieves_bind (event_eq hs),
    achieves_bind (hs.fetch_eq (c := ⟨.eventT, .cap P.actor, msg, .ref q⟩)
    (by simp [Solo.busy, Solo.front]) .z), achieves_look_bind]
  change Achieves (if m.heap.isPair (.ref q) = true then _ else _) m _
  rw [if_pos hpair]
  change Achieves (look (·.car (.ref q)) >>= _) m _
  rw [achieves_look_bind, achieves_look_bind, hcar]
  change Achieves ((liftM (store (.ref e) .z .nil) : MachineM Unit) >>= _) m _
  have hs₁ : m.Shows ⟨P.image k (Solo.front sent), (e, ⟨.eventT, .cap P.actor, msg, .ref q⟩) ::
      (q, ⟨.pairT, beh, Solo.front new, .undefined⟩) :: ((t, ⟨ip, .nil, .ref e, .nil⟩) ::
        (P.mail sent ++ (Solo.pile new ++ k.loose))), .empty, ⟨.ref t, .ref t⟩, view⟩ := by
    refine hs.perm ?_
    rw [List.perm_iff_count]
    intro a
    simp only [Solo.pile, Solo.linked, Solo.front, List.count_cons, List.count_append,
      List.count_nil]
    omega
  refine (hs₁.achieves_store (f := .z) nofun).bind fun _ m₁ hs₂ => ?_
  refine (hs₂.perm (.swap _ _ _)).achieves_free.bind fun _ m₂ hs₃ => ?_
  refine ⟨_, m₂, rfl, congrArg (fun w => some (beh, w)) hcdr, hs₃.perm ?_⟩
  rw [List.perm_iff_count]
  intro a
  simp only [Cell.set, Solo.pile, Solo.linked, Solo.front, List.count_cons, List.count_append,
    List.count_nil]
  omega

theorem pendingSends_eq {staged : List (Nat × Word)}
    (hs : m.Shows (P.busy t e ip msg [] sent staged k view))
    (hlen : sent.length ≤ 1) :
    pendingSends (.ref P.actor) m = .ok (sent.map fun p => .ref p.1).reverse m := by
  have hfield : m.heap.field (.ref P.actor) .z = .ok (Solo.front sent) := by
    have hmem : (P.actor, (⟨.actorT, .ref P.entry, Solo.front k.state, Solo.front sent⟩ : Cell)) ∈
        (P.busy t e ip msg [] sent staged k view).image ++
        (P.busy t e ip msg [] sent staged k view).cells := by
      simp [Solo.busy, Solo.image]
    rw [field_ref (hs.heap.live _ hmem).1.1, hs.heap.cellAt hmem]
    rfl
  have hroom : sent.length ≤ m.heap.sanity := by
    have := hs.heap.sanity
    have : 1 ≤ Config.minHeap := by decide
    omega
  have hchain : m.heap.eventChain (m.heap.budget "pending events") (Solo.front sent) =
      .ok (sent.map fun p => .ref p.1) :=
    hs.heap.eventChain_mail (P := P) (fun p hp => by simp [Solo.busy, hp]) hroom
  refine ask_eq_ok.2 ⟨rfl, ?_⟩
  rw [hfield]
  change (m.heap.eventChain (m.heap.budget "pending events") (Solo.front sent) >>= _) = _
  rw [hchain]
  rfl

theorem achieves_flushSends (hs : m.Shows (P.busy t e ip msg [] sent [] k view))
    (hsent : sent.length ≤ 1) :
    Achieves (flushSends (.ref P.actor)) m fun _ m' => m'.Shows
      { P.busy t e ip msg [] sent [] k view with
        events := ⟨Solo.front sent, Solo.front sent⟩ } := by
  unfold flushSends
  rw [achieves_bind (pendingSends_eq hs hsent)]
  obtain _ | ⟨⟨s, v⟩, _ | ⟨p, sent⟩⟩ := sent
  · exact ⟨_, m, rfl, hs⟩
  · have hs₁ : m.Shows ⟨P.image k (.ref s), (s, ⟨.eventT, .cap P.actor, v, .nil⟩) ::
        (t, ⟨ip, .nil, .ref e, .nil⟩) :: (e, ⟨.eventT, .cap P.actor, msg, .nil⟩) :: k.loose,
        .empty, ⟨.ref t, .ref t⟩, view⟩ := by
      refine hs.perm ?_
      rw [List.perm_iff_count]
      intro a
      simp only [Solo.pile, Solo.mail, Solo.linked, Solo.front, List.count_cons, List.count_append,
        List.count_nil]
      omega
    have hdeliver : Achieves (deliver (.ref s)) m fun _ m' => m'.Shows
        { P.busy t e ip msg [] [(s, v)] [] k view with events := ⟨.ref s, .ref s⟩ } := by
      unfold deliver
      rw [achieves_bind (hs₁.fetch_eq (c := ⟨.eventT, .cap P.actor, v, .nil⟩) (by simp) .x),
        achieves_look_bind]
      change Achieves (if m.heap.isActor (.cap P.actor) = true then _ else _) m _
      rw [if_pos (isActor hs)]
      refine (hs₁.achieves_putEvent List.mem_cons_self rfl).bind fun _ m₂ hs₂ =>
        ⟨_, m₂, rfl, hs₂.perm ?_⟩
      rw [List.perm_iff_count]
      intro a
      simp only [Solo.busy, Solo.pile, Solo.mail, Solo.linked, Solo.front, List.count_cons,
        List.count_append, List.count_nil]
      omega
    rw [List.map_singleton, List.reverse_singleton, List.mapM_cons, List.mapM_nil, bind_assoc]
    exact hdeliver.bind fun _ m' hs' => ⟨_, m', rfl, hs'⟩
  · simp at hsent

theorem achieves_close (hs : m.Shows (P.busy t e ip msg [] sent [] k view))
    (hsent : sent.length ≤ 1) :
    Achieves (do
      let sent ← flushSends (.ref P.actor)
      store (.ref P.actor) .z .undefined
      count Stats.committed
      noteDispatch (.committed (.cap P.actor) sent)) m
      fun _ m' => m'.Shows (P.leaving t e ip msg sent k (view.tally .committed)) := by
  refine (achieves_flushSends hs hsent).bind fun _ m₁ hs₁ => ?_
  refine (hs₁.achieves_storeFirst (f := .z) nofun).bind fun _ m₂ hs₂ => ?_
  exact (hs₂.tally Stats.committed).achieves_noteDispatch _

theorem achieves_commit {staged : List (Nat × Word)}
    (hs : m.Shows (P.busy t e ip msg [] sent staged k view))
    (hsent : sent.length ≤ 1) (hstaged : staged = [] ∨ ∃ q new, staged = (q, .ref P.entry) :: new) :
    Achieves (endTransaction .commit) m fun _ m' => ∃ k', (staged = [] ∧ k' = k ∨
        ∃ q new, staged = (q, .ref P.entry) :: new ∧ k' = ⟨new, Solo.pile new ++ k.loose⟩) ∧
      m'.Shows (P.leaving t e ip msg sent k' (view.tally .committed)) := by
  unfold endTransaction commitTransaction
  rw [achieves_bind (me_eq hs)]
  refine (achieves_clearStack hs).bind fun _ m₁ hs₁ => ?_
  obtain rfl | ⟨q, new, rfl⟩ := hstaged
  · rw [achieves_bind (takeBecome_none hs₁)]
    exact (achieves_close hs₁ hsent).mono fun _ m₂ hs₂ => ⟨k, .inl ⟨rfl, rfl⟩, hs₂⟩
  · refine (achieves_takeBecome hs₁).bind ?_
    rintro - m₂ ⟨rfl, hs₂⟩
    refine (hs₂.achieves_storeFirst (f := .x) nofun).bind fun _ m₃ hs₃ => ?_
    refine (hs₃.achieves_storeFirst (f := .y) nofun).bind fun _ m₄ hs₄ => ?_
    exact (achieves_close (k := ⟨new, Solo.pile new ++ k.loose⟩) hs₄ hsent).mono fun _ m₅ hs₅ =>
      ⟨_, .inr ⟨q, new, rfl, rfl⟩, hs₅⟩

theorem achieves_retire (hs : m.Shows (P.leaving t e ip msg sent k view)) :
    Achieves retire m fun _ m' => m'.Shows (P.idle sent k view) := by
  unfold retire
  refine (hs.achieves_popThread rfl).bind ?_
  rintro - m₁ ⟨rfl, hs₁⟩
  dsimp only
  rw [achieves_bind (hs₁.fetch_eq (c := ⟨ip, .nil, .ref e, .nil⟩) (by simp [Cell.set]) .y)]
  exact ((hs₁.perm (.swap _ _ _)).achieves_free).bind fun _ m₂ hs₂ => hs₂.achieves_free

end Busy

theorem nextAddress_eq (he : m.Engaged P t ip x) :
    nextAddress (.ref t) m = .ok ip (m.tally .performed) := by
  obtain ⟨-, e, stack, sent, staged, -, -, -, hs⟩ := he
  unfold nextAddress
  exact run_bind (hs.fetch_eq (c := ⟨ip, Solo.front stack, .ref e, .nil⟩) (by simp [Solo.busy]) .t)

section Code

variable {i : Nat} {c : Cell} {ins : Instruction}

theorem code_eq (he : m.Engaged P t ip x) (hi : (i, c) ∈ P.code) :
    Word.reserved ≤ i ∧ i < m.heap.top ∧ m.heap.cellAt i = c := by
  obtain ⟨-, e, stack, sent, staged, -, -, -, hs⟩ := he
  have hmem : (i, c) ∈ (P.busy t e ip x.message stack sent staged x.memory x.view).image ++
      (P.busy t e ip x.message stack sent staged x.memory x.view).cells := by simp [Solo.busy,
        Solo.image, hi]
  exact ⟨hs.heap.reserved_le _ hmem, (hs.heap.live _ hmem).1.1, hs.heap.cellAt hmem⟩

theorem isCode (he : m.Engaged P t ip x) (hi : (i, c) ∈ P.code) (hc : c.t = .instrT) :
    m.heap.isCode (.ref i) = true := by
  obtain ⟨-, htop, hcell⟩ := he.code_eq hi
  exact hasType_iff.2 ⟨i, rfl, htop, by rw [hcell, hc]⟩

theorem instruction_eq (he : m.Engaged P t ip x) (hi : (i, ins.toCell next) ∈ P.code)
    (hins : Instruction.ofCell (ins.toCell next) = .ok ins) :
    m.heap.instruction (.ref i) = .ok (ins, next) := by
  unfold instruction
  rw [if_pos (he.isCode hi rfl)]
  change (·, (m.heap.cellAt i).z) <$> Instruction.ofCell (m.heap.cellAt i) = _
  rw [(he.code_eq hi).2.2, hins]
  rfl

theorem achieves_next {y : Solo.State} {j : Nat} (he : m.Engaged P t (.ref i) x)
    (hi : (i, ins.toCell next) ∈ P.code)
    (hins : Instruction.ofCell (ins.toCell next) = .ok ins) (hj : (j, c) ∈ P.code)
    (hc : c.t = .instrT)
    (hrun : ∀ m₁, m₁.Engaged P t (.ref i) { x with view := x.view.tally .performed } →
      Achieves (perform ins next) m₁ fun r m' => r = .next (.ref j) ∧ m'.Engaged P t (.ref i) y) :
    Achieves (advance (.ref t)) m fun r m' => r = .continued ∧ m'.Engaged P t (.ref j) y := by
  have he₁ := he.tally .performed
  have hperf : Achieves (performAt (.ref i)) (m.tally .performed) fun r m' =>
      r = .next (.ref j) ∧ m'.Engaged P t (.ref i) y := by
    unfold performAt
    rw [achieves_bind (ask_eq_ok.2 ⟨rfl, he₁.instruction_eq hi hins⟩)]
    refine (hrun _ he₁).bind ?_
    rintro - m₂ ⟨rfl, he₂⟩
    dsimp only
    rw [achieves_look_bind, he₂.isCode hj hc]
    exact ⟨_, m₂, rfl, rfl, he₂⟩
  unfold advance
  rw [achieves_bind he.nextAddress_eq]
  refine (achieves_attempt hperf).bind ?_
  rintro - m₂ ⟨-, rfl, rfl, hq, e, stack, sent, staged, hstack, hsent, hstaged, hs₂⟩
  dsimp only
  have hne : Word.ref j ≠ .freeT := fun h => by
    cases h
    exact absurd (he.code_eq hj).1 (by decide)
  refine (hs₂.achieves_store (f := .t) fun _ => hne).bind fun _ m₃ hs₃ => ?_
  refine Achieves.bind ?_ fun _ m₄ he₄ => ⟨_, m₄, rfl, rfl, he₄⟩
  unfold rotate
  refine (hs₃.achieves_popThread rfl).bind ?_
  rintro - m₄ ⟨rfl, hs₄⟩
  exact hs₄.achieves_putThread.mono fun _ m₅ hs₅ =>
    ⟨hq, e, stack, sent, staged, hstack, hsent, hstaged, hs₅⟩

theorem achieves_finish (he : m.Engaged P t (.ref i) x)
    (hi : (i, (Instruction.finish .commit).toCell next) ∈ P.code)
    (hstack : x.stack = []) (hmsgs : x.sent.length ≤ 1)
    (hstaged : x.staged = [] ∨ x.staged.head? = some (.ref P.entry)) :
    Achieves (advance (.ref t)) m fun r m' => r = .retired .commit ∧ ∃ k, x.Leaves P k ∧
      m'.Awaits P x.sent k ((x.view.tally .performed).tally .committed) := by
  have he₁ := he.tally .performed
  obtain ⟨-, e, stack, sent, staged, hx, hsent, hst, hs⟩ := id he₁
  obtain rfl := List.map_eq_nil_iff.1 (hx.trans hstack)
  have hlen : sent.length ≤ 1 := by
    have := congrArg List.length hsent
    rw [List.length_map] at this
    exact this ▸ hmsgs
  have hcases : staged = [] ∨ ∃ q new, staged = (q, Word.ref P.entry) :: new := by
    obtain _ | ⟨⟨q, beh⟩, new⟩ := staged
    · exact .inl rfl
    · have hbeh : beh = .ref P.entry := by
        rw [← show ((q, beh) :: new).map Prod.snd = x.staged from hst] at hstaged
        simpa using hstaged
      exact .inr ⟨q, new, by rw [hbeh]⟩
  have hperf : Achieves (performAt (.ref i)) (m.tally .performed) fun r m' => r = .ended .commit ∧
      ∃ k, x.Leaves P k ∧ m'.Shows (P.leaving t e (.ref i) x.message sent k
        ((x.view.tally .performed).tally .committed)) := by
    unfold performAt
    rw [achieves_bind (ask_eq_ok.2 ⟨rfl, he₁.instruction_eq hi rfl⟩)]
    refine Achieves.bind (Q := fun r m' => r = .ended .commit ∧ ∃ k, x.Leaves P k ∧
      m'.Shows
      (P.leaving t e (.ref i) x.message sent k ((x.view.tally .performed).tally .committed))) ?_ ?_
    · refine (achieves_commit hs hlen hcases).bind ?_
      rintro - m' ⟨k, hk, hs'⟩
      refine ⟨_, m', rfl, rfl, k, ?_, hs'⟩
      obtain ⟨rfl, rfl⟩ | ⟨q, new, rfl, rfl⟩ := hk
      · exact .inl ⟨hst.symm, rfl⟩
      · exact .inr ⟨new, hst.symm, rfl⟩
    · rintro - m' ⟨rfl, h⟩
      exact ⟨_, m', rfl, rfl, h⟩
  unfold advance
  rw [achieves_bind he.nextAddress_eq]
  refine (achieves_attempt hperf).bind ?_
  rintro - m₂ ⟨-, rfl, rfl, k, hk, hs₂⟩
  dsimp only
  exact (achieves_retire hs₂).bind fun _ m₃ hs₃ => ⟨_, m₃, rfl, rfl, k, hk, sent, hsent, hs₃⟩

end Code

end Engaged

end Machine

end ActorMachine
