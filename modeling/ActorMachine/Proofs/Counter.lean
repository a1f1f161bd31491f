import ActorMachine.Program.Counter
import ActorMachine.Proofs.Deadline
import ActorMachine.Proofs.ProgramLayout

namespace ActorMachine

variable {ρ : Roles} {m m' : Machine} {config : Config} {view : View} {k : Solo.Memory}

def Solo.counter : Solo where
  actor := 23
  entry := 21
  code := [
    (22, ⟨.pairT, .fix 0, .nil, .undefined⟩),
    (21, (Instruction.msg 0).toCell (.ref 20)),
    (20, (Instruction.debug Program.timeTag).toCell (.ref 19)),
    (19, (Instruction.push (.fix 1)).toCell (.ref 18)),
    (18, (Instruction.alu .add).toCell (.ref 17)),
    (17, (Instruction.dup 1).toCell (.ref 16)),
    (16, (Instruction.debug Program.countTag).toCell (.ref 15)),
    (15, (Instruction.my .beh).toCell (.ref 14)),
    (14, (Instruction.beh 1).toCell (.ref 13)),
    (13, (Instruction.finish .commit).toCell .undefined)]

namespace Solo

theorem enters_counter : counter.Enters := ⟨_, .tail _ (.head _), rfl⟩

def zero : Memory := ⟨[(22, .fix 0)], []⟩

theorem keeps_zero : counter.Keeps zero :=
  ⟨fun _ hp => List.mem_append_left _ (List.mem_singleton.1 hp ▸ List.mem_cons_self),
    fun _ h => absurd h List.not_mem_nil, Nat.zero_le _⟩

end Solo

namespace Machine

theorem Laid.achieves_counter (hl : Laid config m []) :
    Achieves Program.counter m fun v m' => v = .cap 23 ∧
    (∃ ρ, Fit ρ m') ∧ m'.collector.isSweeping = false ∧
    m'.Awaits .counter [] Solo.zero (.new config) := by
  unfold Program.counter
  refine (hl.achieves_block [.msg 0, .debug Program.timeTag, .push (.fix 1), .alu .add, .dup 1,
    .debug Program.countTag, .my .beh, .beh 1, .finish .commit] (by decide) (by decide) rfl).bind ?_
  rintro - m₁ ⟨rfl, hl₁⟩
  have hactor : Achieves (Assembler.actor (.ref 21) [.fix 0]) m₁ fun v m' => v = .cap 23 ∧
      m'.Spread (Solo.counter.image Solo.zero .undefined) (.new config) := by
    have hlist : Heap.ofItems [.fix 0] = Heap.alloc ⟨.pairT, .fix 0, .nil, .undefined⟩ := by
      unfold Heap.ofItems Heap.prepend
      rw [List.foldrM_cons, List.foldrM_nil, pure_bind]
      rfl
    unfold Assembler.actor Assembler.list
    rw [hlist]
    refine (hl₁.spread.achieves_alloc (c := ⟨.pairT, .fix 0, .nil, .undefined⟩) nofun
      (by decide)).bind ?_
    rintro - m₂ ⟨rfl, hs₂⟩
    exact hs₂.achieves_newActor (by decide) (.tail _ (.head _)) rfl
      (.inr ⟨22, _, rfl, .head _, rfl⟩)
  refine (hl₁.construct (.actor (.ref 21) [.fix 0]) (by decide) hactor).bind ?_
  rintro - m₂ ⟨rfl, hl₂⟩
  refine hl₂.achieves_sealImage.bind ?_
  rintro - m₃ ⟨hf, hsweep, hs⟩
  exact ⟨_, m₃, rfl, rfl, hf, hsweep, [], rfl, hs⟩

end Machine

namespace Solo

def counting (view : View) (k : Memory) (v : Word) (n : Nat) (stack staged : List Word)
    (trace : Trace) : State :=
  ⟨stack, [], staged, v, k,
    { view with trace, stats :=
      { view.stats.spawned with instructions := view.stats.instructions + n } }⟩

theorem path_signal {c : Int} (hk : k.words = [.fix c]) (hlen : k.loose.length ≤ 1) (view : View)
    (s : Int) :
    counter.Path 8 21 (.fresh k (.fix s) view) 13
      (counting view k (.fix s) 8 [] [.ref 21, .fix (c + 1)]
        ((view.trace.record Program.timeTag (Word.fix s).text).record Program.countTag
        (Word.fix (c + 1)).text)) := by
  have hroom : ∀ n stack trace, stack.length ≤ 2 →
      counter.Roomy (1 + (counting view k (.fix s) n stack [] trace).counted.size) := by
    intro n stack trace hstack
    refine Roomy.mono (show counter.Roomy 8 by decide) ?_
    change 1 + (stack.length + 0 + 0 + k.loose.length) ≤ 8
    omega
  have hsize : ∀ n stack trace, stack.length ≤ 2 →
      counter.Roomy (counting view k (.fix s) n stack [] trace).counted.size :=
    fun n stack trace hstack => (hroom n stack trace hstack).mono (Nat.le_add_left _ 1)
  have hfresh : State.fresh k (.fix s) view = counting view k (.fix s) 0 [.fix c]
      [] view.trace := by
    rw [← hk]
    rfl
  rw [hfresh]
  refine .step (y := counting view k (.fix s) 1 [.fix s, .fix c] [] view.trace) ⟨.msg 0, .ref 20, _,
    rfl, rfl, rfl, rfl, fun m t he => he.perform_msg (hsize 0 _ _ (by simp)) _, rfl⟩ ?_
  let told := view.trace.record Program.timeTag (Word.fix s).text
  refine .step (y := counting view k (.fix s) 2 [.fix c] [] told)
    ⟨.debug Program.timeTag, .ref 19, _, rfl, rfl, rfl, rfl, fun m t he =>
      he.perform_debug rfl _ _, rfl⟩ ?_
  refine .step (y := counting view k (.fix s) 3 [.fix 1, .fix c] [] told)
    ⟨.push (.fix 1), .ref 18, _, rfl, rfl, rfl, rfl, fun m t he =>
      he.perform_push (hsize 2 _ _ (by simp)) _ _, rfl⟩ ?_
  refine .step (y := counting view k (.fix s) 4 [.fix (c + 1)] [] told) ⟨.alu .add, .ref 17, _, rfl,
    rfl, rfl, rfl, fun m t he => he.perform_add rfl (hsize 3 _ _ (by simp)) _, rfl⟩ ?_
  refine .step (y := counting view k (.fix s) 5 [.fix (c + 1), .fix (c + 1)] [] told)
    ⟨.dup 1, .ref 16, _, rfl, rfl, rfl, rfl, fun m t he =>
      he.perform_dup (show _ = [_] ++ [] from rfl)
      (hroom 4 _ _ (by simp)) _, rfl⟩ ?_
  let shown := told.record Program.countTag (Word.fix (c + 1)).text
  refine .step (y := counting view k (.fix s) 6 [.fix (c + 1)] [] shown)
    ⟨.debug Program.countTag, .ref 15, _, rfl, rfl, rfl, rfl, fun m t he =>
      he.perform_debug rfl _ _, rfl⟩ ?_
  refine .step (y := counting view k (.fix s) 7 [.ref 21, .fix (c + 1)] [] shown)
    ⟨.my .beh, .ref 14, _, rfl, rfl, rfl, rfl, fun m t he =>
      he.perform_behavior (hsize 6 _ _ (by simp)) _, rfl⟩ ?_
  exact .step ⟨.beh 1, .ref 13, _, rfl, rfl, rfl, rfl, fun m t he =>
    he.perform_become enters_counter rfl rfl
    (hsize 7 _ _ (by simp)) _, rfl⟩ (.refl _ _)

end Solo

namespace Clock

def window (t₀ t : UInt64) : Nat := (t.toNat - t₀.toNat) / 1000

/-- The readings that are the first ones in their windows, apart from windows that have been seen
before. -/
def firsts (t₀ : UInt64) : List Nat → List UInt64 → List UInt64
  | _, [] => []
  | seen, t :: ts =>
    if window t₀ t ∈ seen then firsts t₀ seen ts else t :: firsts t₀ (window t₀ t :: seen) ts

/-- Signals have been given for some windows before the deadline, the last of them included, and it
is now that late. -/
structure Follows (t₀ deadline now : UInt64) (seen : List Nat) (n windows : Nat) : Prop where
  deadline : deadline.toNat = t₀.toNat + 1000 * windows
  seen_lt : ∀ w ∈ seen, w < windows
  last : windows ≠ 0 → windows - 1 ∈ seen ∧ t₀.toNat + 1000 * (windows - 1) ≤ now.toNat
  length_le : n ≤ windows

namespace Follows

variable {t₀ deadline deadline' now t : UInt64} {seen : List Nat} {n windows : Nat}

variable (hw : Follows t₀ deadline now seen n windows)

include hw

theorem lt_iff (hnow : now ≤ t) (ht : t₀ ≤ t) : t < deadline ↔ window t₀ t ∈ seen := by
  have hnow : now.toNat ≤ t.toNat := UInt64.le_iff_toNat_le.1 hnow
  have ht : t₀.toNat ≤ t.toNat := UInt64.le_iff_toNat_le.1 ht
  rw [UInt64.lt_iff_toNat_lt, hw.deadline]
  unfold window
  constructor
  · intro hlt
    obtain ⟨hmem, hle⟩ := hw.last (by omega)
    have heq : (t.toNat - t₀.toNat) / 1000 = windows - 1 := by omega
    rw [heq]
    exact hmem
  · intro hmem
    have := hw.seen_lt _ hmem
    omega

theorem early (hnow : now ≤ t) : Follows t₀ deadline t seen n windows :=
  ⟨hw.deadline, hw.seen_lt, fun h =>
    ⟨(hw.last h).1, Nat.le_trans (hw.last h).2 (UInt64.le_iff_toNat_le.1 hnow)⟩,
    hw.length_le⟩

theorem due (hle : deadline ≤ t)
    (hnext : deadline'.toNat = deadline.toNat + ((t.toNat - deadline.toNat) / 1000 + 1) * 1000) :
    Follows t₀ deadline' t (window t₀ t :: seen) (n + 1) (window t₀ t + 1) := by
  have hle : deadline.toNat ≤ t.toNat := UInt64.le_iff_toNat_le.1 hle
  have hdeadline := hw.deadline
  have hlength := hw.length_le
  have hwindow : window t₀ t = windows + (t.toNat - deadline.toNat) / 1000 := by
    unfold window
    omega
  refine ⟨?_, ?_, fun _ => ⟨List.mem_cons_self, ?_⟩, ?_⟩
  · rw [hwindow]
    omega
  · rw [List.forall_mem_cons]
    refine ⟨by omega, fun w h => ?_⟩
    have := hw.seen_lt w h
    omega
  · rw [hwindow]
    omega
  · omega

end Follows

end Clock

namespace Trace

variable (t : Trace) (value : String) {tag other : Word}

theorem valuesFor_record_self :
    (t.record tag value).valuesFor tag = t.valuesFor tag ++ [value] := by
  simp [valuesFor, record]

theorem valuesFor_record_ne (h : other ≠ tag) :
    (t.record other value).valuesFor tag = t.valuesFor tag := by
  simp [valuesFor, record, h]

end Trace

structure Solo.Tells (k : Memory) (view : View) (shown : List UInt64) : Prop where
  keeps : counter.Keeps k
  words : k.words = [.fix shown.length]
  pinned : view.pinned = #[.cap 23]
  symbols : view.symbols = .empty
  ample : view.Ample
  times : view.trace.valuesFor Program.timeTag = shown.map fun t => (Word.fix (t / 1000).toNat).text
  counts : view.trace.valuesFor Program.countTag = (List.range shown.length).map fun (n : Nat) =>
  (Word.fix (n + 1)).text
  clockEvents : view.stats.clockEvents = shown.length
  commits : view.stats.commits = shown.length

namespace Solo.Tells

variable {shown : List UInt64}

theorem withClock (ht : Tells k view shown) (c : Clock) :
    Tells k { view with clock := some c } shown :=
  ⟨ht.keeps, ht.words, ht.pinned, ht.symbols, ht.ample, ht.times, ht.counts, ht.clockEvents,
    ht.commits⟩

theorem closed {view' : View} (ht : Tells k view shown) (hpinned : view'.pinned = view.pinned)
    (hsymbols : view'.symbols = view.symbols) (c : Int) : counter.Closed [.fix c] view' := by
  refine ⟨by decide, ?_, ?_, ?_⟩
  · exact fun w hw => List.mem_singleton.1 hw ▸ trivial
  · rw [hpinned, ht.pinned]
    decide
  · rw [hsymbols, ht.symbols]
    intro w hw
    have hnil : w = .nil := (List.mem_replicate.1 (Vector.toList_replicate ▸ hw)).2
    rw [hnil]
    exact .of_reserved (by decide)

end Solo.Tells

namespace Machine

variable {deadline t : UInt64} {shown : List UInt64} {fuel : Nat}

def Told (m : Machine) (deadline : UInt64) (shown : List UInt64) : Prop :=
  (∃ ρ, Fit ρ m) ∧ ∃ k view now, m.Awaits .counter [] k view ∧
  view.clock = some ⟨now, .cap 23, deadline⟩ ∧
    Solo.Tells k view shown

namespace Told

theorem set (ht : m.Told deadline shown) (t : UInt64) :
    ∃ ρ m₁ k view, onClock (·.set t) m = .ok () m₁ ∧ Fit ρ m₁ ∧
    m₁.Awaits .counter [] k view ∧ view.clock = some ⟨t, .cap 23, deadline⟩ ∧
    Solo.Tells k view shown := by
  obtain ⟨⟨ρ, hf⟩, k, view, now, ⟨sent, hsent, hs⟩, hclock, htells⟩ := ht
  have hm : m.clock = some ⟨now, .cap 23, deadline⟩ := (congrArg View.clock hs.view).trans hclock
  have hset : onClock (·.set t) m = .ok () { m with clock := some ⟨t, .cap 23, deadline⟩ } := by
    change EStateM.Result.ok () { m with clock := m.clock.map (Clock.set · t) } = _
    rw [hm]
    rfl
  refine ⟨ρ, _, k, _, hset, hf.withClock ?_, ⟨sent, hsent, hs.withClock _⟩, rfl, htells.withClock _⟩
  have hpinned := hf.clock
  rw [hm] at hpinned
  exact hpinned

theorem achieves_early (ht : m.Told deadline shown) (hlt : t < deadline) (hfuel : 10 ≤ fuel) :
    Achieves (do onClock (·.set t); runFor fuel) m fun r m' => r = true ∧
      m'.Told deadline shown := by
  obtain ⟨ρ, m₁, k, view, hset, hf, ha, hclock, htells⟩ := ht.set t
  have hquiet : view.Quiet := fun c hc => by
    rw [hclock] at hc
    cases hc
    exact hlt
  obtain ⟨n, rfl⟩ := Nat.exists_eq_add_of_le' hfuel
  rw [achieves_bind hset]
  exact ⟨true, m₁, ha.rests hquiet _, rfl, ⟨ρ, hf⟩, k, view, t, ha, hclock, htells⟩

theorem achieves_due (ht : m.Told deadline shown) (hle : deadline ≤ t)
    (hmax : t.toNat + 1000 < 2 ^ 64) (hfuel : 10 ≤ fuel) :
    Achieves (do onClock (·.set t); runFor fuel) m fun r m' => r = true ∧
      ∃ deadline', deadline'.toNat =
      deadline.toNat + ((t.toNat - deadline.toNat) / 1000 + 1) * 1000 ∧
      m'.Told deadline' (shown ++ [t]) := by
  obtain ⟨ρ, m₁, k, view, hset, hf, ha, hclock, htells⟩ := ht.set t
  obtain ⟨next, hpoll, hlt, hnext⟩ := Clock.poll_due (c := ⟨t, .cap 23, deadline⟩) hle hmax
  have hlen : k.state.length = 1 := by
    have := congrArg List.length htells.words
    rwa [Solo.Memory.words, List.length_map] at this
  have hloose := htells.keeps.length_le
  have hroom : Solo.counter.Roomy (k.state.length + k.loose.length) :=
    Solo.Roomy.mono (show Solo.counter.Roomy 8 by decide) (by omega)
  have hrun := ha.transacts_due hf hclock rfl hpoll hlt htells.keeps Solo.enters_counter hroom
    (Solo.path_signal htells.words (by omega) _ _) ⟨⟨_, rfl⟩, rfl, Nat.zero_le _⟩ rfl
    (htells.closed (by rfl) (by rfl) _)
    htells.ample
  obtain ⟨m', hrounds, hf', k', hk', hwords, ha'⟩ := hrun
  have hrest : runFor fuel m₁ = .ok true m' := by
    obtain ⟨n, rfl⟩ := Nat.exists_eq_add_of_le' hfuel
    rw [← ha'.rests (fun c hc => by cases hc; exact hlt) n, ← hrounds]
  rw [achieves_bind hset]
  refine ⟨true, m', hrest, rfl, next, hnext, hf', k', _, t, ha', rfl, ?_⟩
  have hlength : (shown ++ [t]).length = shown.length + 1 := List.length_append
  refine ⟨hk', ?_, htells.pinned, htells.symbols, htells.ample, ?_, ?_, ?_, ?_⟩
  · rw [hwords, hlength]
    rfl
  · have htags : Program.countTag ≠ Program.timeTag := by decide
    refine (Trace.valuesFor_record_ne _ _ htags).trans ((Trace.valuesFor_record_self _ _).trans ?_)
    rw [List.map_append, ← htells.times]
    rfl
  · have htags : Program.timeTag ≠ Program.countTag := by decide
    refine (Trace.valuesFor_record_self _ _).trans ?_
    rw [Trace.valuesFor_record_ne _ _ htags, hlength, List.range_succ, List.map_append,
      ← htells.counts]
    rfl
  · rw [hlength, ← htells.clockEvents]
    rfl
  · rw [hlength, ← htells.commits]
    rfl

end Told

theorem Told.achieves_readings {t₀ now : UInt64} {seen : List Nat} {windows : Nat}
    {ts : List UInt64}
    (ht : m.Told deadline shown) (hw : Clock.Follows t₀ deadline now seen shown.length windows)
    (hsorted : (now :: ts).Pairwise (· ≤ ·)) (hstart : t₀ ≤ now)
    (hmax : ∀ t ∈ ts, t.toNat + 1000 < 2 ^ 64) (hfuel : 10 ≤ fuel) :
    Achieves (ts.mapM fun t => do onClock (·.set t); runFor fuel) m fun r m' =>
      r = ts.map (fun _ => true) ∧
      ∃ deadline' windows, m'.Told deadline' (shown ++ Clock.firsts t₀ seen ts) ∧
        deadline'.toNat = t₀.toNat + 1000 * windows ∧
        (shown ++ Clock.firsts t₀ seen ts).length ≤ windows := by
  induction ts generalizing m deadline shown now seen windows with
  | nil =>
    refine ⟨[], m, rfl, rfl, deadline, windows, ?_, hw.deadline, ?_⟩
    · rw [Clock.firsts, List.append_nil]
      exact ht
    · rw [Clock.firsts, List.append_nil]
      exact hw.length_le
  | cons t ts ih =>
    obtain ⟨hnow, hsorted⟩ := List.pairwise_cons.1 hsorted
    obtain ⟨ht₀, hmax⟩ := List.forall_mem_cons.1 hmax
    have hle : now ≤ t := hnow t List.mem_cons_self
    have hiff := hw.lt_iff hle (UInt64.le_trans hstart hle)
    rw [List.mapM_cons]
    unfold Clock.firsts
    by_cases hlt : t < deadline
    · rw [if_pos (hiff.1 hlt)]
      refine (ht.achieves_early hlt hfuel).bind ?_
      rintro - m₁ ⟨rfl, ht₁⟩
      refine (ih ht₁ (hw.early hle) hsorted (UInt64.le_trans hstart hle) hmax).bind ?_
      rintro - m₂ ⟨rfl, h⟩
      exact ⟨_, m₂, rfl, rfl, h⟩
    · rw [if_neg (hlt ∘ hiff.2)]
      refine (ht.achieves_due (UInt64.not_lt.1 hlt) ht₀ hfuel).bind ?_
      rintro - m₁ ⟨rfl, next, hnext, ht₁⟩
      have hw₁ := hw.due (UInt64.not_lt.1 hlt) hnext
      rw [← List.length_singleton (a := t), ← List.length_append] at hw₁
      refine (ih ht₁ hw₁ hsorted (UInt64.le_trans hstart hle) hmax).bind ?_
      rintro - m₂ ⟨rfl, h⟩
      rw [List.append_assoc] at h
      exact ⟨_, m₂, rfl, rfl, h⟩

theorem Awaits.achieves_attachClock (ha : m.Awaits .counter [] Solo.zero (.new config))
    (hf : Fit ρ m)
    (hsweep : m.collector.isSweeping = false) (hample : (View.new config).Ample) (t₀ : UInt64) :
    Achieves (attachClock t₀ (.cap 23)) m fun _ m' => m'.Told t₀ [] := by
  obtain ⟨sent, hsent, hs⟩ := ha
  obtain rfl := List.map_eq_nil_iff.1 hsent
  have hactor : m.heap.isActor (.cap 23) = true :=
    hs.heap.isActor (c := ⟨.actorT, .ref 21, .ref 22, .undefined⟩) List.mem_cons_self rfl
  have hsafe : Safe ρ (.cap 23) := hf.safe (fun h => by rw [hsweep] at h; cases h) trivial
  obtain ⟨hheap, hevents, hthreads, hview, -, -⟩ := hs
  let clock := Clock.start t₀ (.cap 23)
  have hview' :
    ({ m with heap := m.heap.shade (.cap 23), pinned := m.pinned.push (.cap 23), clock } :
      Machine).view =
      { View.new config with pinned := #[.cap 23], clock } := by
    change ({ m.view with pinned := m.view.pinned.push (.cap 23), clock } : View) = _
    rw [hview]
    rfl
  unfold attachClock
  rw [achieves_look_bind, hactor, Bool.not_true, if_neg Bool.false_ne_true]
  refine ⟨(), _, rfl, ⟨ρ, (hf.pin hsafe).withClock (by simp [Clock.start])⟩, Solo.zero,
    { View.new config with pinned := #[.cap 23], clock }, t₀,
    ⟨[], rfl, hheap.shade _, hevents, hthreads, hview', Heap.lit_nil _, Heap.lit_nil _⟩, rfl, ?_⟩
  exact ⟨Solo.keeps_zero, rfl, rfl, rfl, hample, rfl, rfl, rfl, rfl⟩

end Machine

theorem Word.text_fix {n : Nat} (hn : n < 2 ^ 62) : (Word.fix n).text = "+" ++ toString n := by
  change signed (BitVec.ofInt 63 n).toInt = _
  rw [BitVec.toInt_ofInt_eq_self (by decide) (by omega) (by omega)]
  unfold signed
  rw [if_neg (by omega), Int.natAbs_natCast]

/-- The counter is told the time once in every window in which it is run, and keeps count, whatever
the number of windows is. -/
theorem Program.counter_counts (config : Config) (hcap : Config.minHeap ≤ config.heapCapacity)
    (hstride : 1 ≤ config.stride) (hstrategy : config.strategy = .markSweep)
    (htop : 64 ≤ config.topMargin)
    (hlow : 64 ≤ config.lowWater) (hsanity : config.sanity = 0) (t₀ : UInt64) (ts : List UInt64)
    (hsorted : (t₀ :: ts).Pairwise (· ≤ ·)) (hmax : ∀ t ∈ ts, t.toNat ≤ UInt64.size - 1 - 1000)
    (fuel : Nat) (hfuel : 10 ≤ fuel) :
    ∃ m m' n, Machine.new config = .ok m ∧
      (do
        let counter ← Program.counter
        Machine.attachClock t₀ counter
        ts.mapM fun t => do
          Machine.onClock (·.set t)
          Machine.runFor fuel : MachineM (List Bool)) m = .ok (ts.map fun _ => true) m' ∧
      n = (Clock.firsts t₀ [] ts).length ∧ n < 2 ^ 62 ∧
      m'.trace.valuesFor timeTag = (Clock.firsts t₀ [] ts).map
        (fun t => "+" ++ toString (t.toNat / 1000)) ∧
      m'.trace.valuesFor countTag = (List.range n).map (fun i => "+" ++ toString (i + 1)) ∧
      m'.stats.clockEvents = n ∧ m'.stats.commits = n := by
  obtain ⟨m, hm⟩ := Machine.exists_new hcap hstride
  obtain ⟨-, m₁, hbuild, rfl, ⟨ρ₁, hf₁⟩, hsweep, ha₁⟩ :=
    (Machine.Laid.new hm hsanity).achieves_counter
  have hample : (View.new config).Ample := by
    have hmin : Config.minHeap = Word.reserved + 64 := rfl
    refine ⟨config.topMargin, config.lowWater, ?_, by omega, by omega⟩
    unfold View.new Collector.ofConfig
    rw [hstrategy]
    rfl
  obtain ⟨⟨⟩, m₂, hattach, ht₂⟩ := ha₁.achieves_attachClock hf₁ hsweep hample t₀
  have hfollows : Clock.Follows t₀ t₀ t₀ [] 0 0 :=
    ⟨rfl, fun _ h => absurd h List.not_mem_nil, fun h => absurd rfl h, Nat.le_refl _⟩
  have hsize : UInt64.size = 2 ^ 64 := rfl
  obtain ⟨-, m', hrun, rfl, deadline, windows, ⟨-, k, view, now, ⟨sent, -, hs⟩, -, htells⟩,
    hdeadline, hlength⟩ :=
    ht₂.achieves_readings hfollows hsorted (UInt64.le_refl _)
    (fun t h => by have := hmax t h; omega) hfuel
  rw [List.nil_append] at hlength htells
  have hsmall : (Clock.firsts t₀ [] ts).length < 2 ^ 62 := by
    have := deadline.toNat_lt
    omega
  have htrace : m'.trace = view.trace := congrArg View.trace hs.view
  have hstats : m'.stats = view.stats := congrArg View.stats hs.view
  refine ⟨m, m', _, hm, ?_, rfl, hsmall, ?_, ?_, ?_, ?_⟩
  · rw [run_bind hbuild, run_bind hattach, hrun]
  · rw [htrace, htells.times]
    refine List.map_congr_left fun t _ => ?_
    have hsecs : (t / 1000).toNat = t.toNat / 1000 := UInt64.toNat_div t 1000
    rw [hsecs]
    exact Word.text_fix (by have := t.toNat_lt; omega)
  · rw [htrace, htells.counts]
    refine List.map_congr_left fun i hi => ?_
    exact Word.text_fix (n := i + 1) (by have := List.mem_range.1 hi; omega)
  · rw [hstats, htells.clockEvents]
  · rw [hstats, htells.commits]

theorem Program.counter_counts_smallest :
    ∃ m m', Machine.new { heapCapacity := Config.minHeap } = .ok m ∧
    (do
      let counter ← Program.counter
      Machine.attachClock 5000 counter
      [5000, 6100, 6999, 9500].mapM fun t => do
        Machine.onClock (·.set t)
        Machine.runFor 10 : MachineM (List Bool)) m = .ok [true, true, true, true] m' ∧
    m'.trace.valuesFor timeTag = ["+5", "+6", "+9"] ∧
    m'.trace.valuesFor countTag = ["+1", "+2", "+3"] ∧
    m'.stats.clockEvents = 3 ∧ m'.stats.commits = 3 := by
  -- A second passes, then less than one, then several: the third reading is in a window that has
  -- been seen.
  have hmax : ∀ t ∈ ([5000, 6100, 6999, 9500] : List UInt64), t.toNat ≤ UInt64.size - 1 - 1000 := by
    intro t ht
    simp only [List.mem_cons, List.not_mem_nil, or_false] at ht
    obtain rfl | rfl | rfl | rfl := ht <;> decide
  obtain ⟨m, m', n, hm, hrun, rfl, -, htimes, hcounts, hevents, hcommits⟩ := Program.counter_counts
    { heapCapacity := Config.minHeap } (by decide) (by decide) rfl (by decide) (by decide) rfl 5000
    [5000, 6100, 6999, 9500] (by decide) hmax 10 (by decide)
  exact ⟨m, m', hm, hrun, htimes.trans (by decide +kernel), hcounts.trans (by decide +kernel),
    hevents, hcommits⟩

end ActorMachine
