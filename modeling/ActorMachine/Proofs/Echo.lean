import ActorMachine.Program.Echo
import ActorMachine.Proofs.ProgramLayout

namespace ActorMachine

variable {ρ : Roles} {m : Machine} {config : Config} {view : View} {input : List UInt8}
  {output : Array UInt8}

def Solo.echo : Solo where
  actor := 24
  entry := 23
  code := [
    (23, Instruction.getc.toCell (.ref 22)),
    (22, (Instruction.dup 1).toCell (.ref 21)),
    (21, (Instruction.eq (.fix (-1))).toCell (.ref 20)),
    (20, (Instruction.branch (.ref 14)).toCell (.ref 19)),
    (19, Instruction.putc.toCell (.ref 18)),
    (18, (Instruction.push .unit).toCell (.ref 17)),
    (17, (Instruction.my .self).toCell (.ref 16)),
    (16, (Instruction.send 0).toCell (.ref 15)),
    (15, (Instruction.finish .commit).toCell .undefined),
    (14, (Instruction.drop 1).toCell (.ref 13)),
    (13, (Instruction.finish .commit).toCell .undefined)]

namespace Solo

def blank : Memory := ⟨[], []⟩

theorem keeps_blank (P : Solo) : P.Keeps blank :=
  ⟨fun _ h => absurd h List.not_mem_nil, fun _ h => absurd h List.not_mem_nil, Nat.le_refl _⟩

theorem enters_echo : echo.Enters := ⟨Instruction.getc.toCell (.ref 22), List.mem_cons_self, rfl⟩

end Solo

namespace Machine

theorem Laid.achieves_echo (hl : Laid config m []) :
    Achieves (Program.echo false) m fun v m' => v = .cap 24 ∧
    (∃ ρ, Fit ρ m') ∧ m'.collector.isSweeping = false ∧
    m'.Awaits .echo [] Solo.blank (.new config) := by
  unfold Program.echo
  refine (hl.achieves_block [.drop 1, .finish .commit] (by decide) (by decide) rfl).bind ?_
  rintro - m₁ ⟨rfl, hl₁⟩
  refine (hl₁.achieves_block [.push .unit, .my .self, .send 0, .finish .commit] (by decide)
    (by decide) rfl).bind ?_
  rintro - m₂ ⟨rfl, hl₂⟩
  refine (hl₂.achieves_chain [.putc] (.ref 18) (by decide) (by decide)).bind ?_
  rintro - m₃ ⟨rfl, hl₃⟩
  rw [if_neg Bool.false_ne_true]
  refine (hl₃.achieves_chain [.getc, .dup 1, .eq (.fix (-1)), .branch (.ref 14)] (.ref 19)
    (by decide) (by decide)).bind ?_
  rintro - m₄ ⟨rfl, hl₄⟩
  have hactor : Achieves (Assembler.actor (.ref 23) []) m₄ fun v m' => v = .cap 24 ∧
      m'.Spread (Solo.echo.image Solo.blank .undefined) (.new config) :=
    hl₄.spread.achieves_newActor (by decide) List.mem_cons_self rfl (.inl rfl)
  refine (hl₄.construct (.actor (.ref 23) []) (by decide) hactor).bind ?_
  rintro - m₅ ⟨rfl, hl₅⟩
  refine hl₅.achieves_sealImage.bind ?_
  rintro - m₆ ⟨hf, hsweep, hs⟩
  exact ⟨_, m₆, rfl, rfl, hf, hsweep, [], rfl, hs⟩

end Machine

theorem Mute.echo : Mute (Program.echo false) :=
  (Mute.block _).bind fun _ => (Mute.block _).bind fun _ => (Mute.chain _ _).bind fun _ =>
  (Mute.chain _ _).bind fun _ =>
    (Mute.actor _ _).bind fun _ => Mute.sealImage.bind fun _ => .pure _

theorem Word.fix_byte_ne (b : UInt8) : Word.fix b.toNat ≠ .fix (-1) := by
  have hb := b.toNat_lt
  intro h
  have hint := congrArg BitVec.toInt (Word.fixnum.inj h)
  rw [BitVec.toInt_ofInt_eq_self (by decide) (by omega) (by omega)] at hint
  revert hint
  have hneg : (BitVec.ofInt 63 (-1)).toInt = -1 := by decide
  rw [hneg]
  omega

theorem UInt8.ofNat_fix (b : UInt8) :
    UInt8.ofNat ((BitVec.ofInt 63 (b.toNat : Int)).toInt % 256).toNat = b := by
  have hb := b.toNat_lt
  rw [BitVec.toInt_ofInt_eq_self (by decide) (by omega) (by omega)]
  have hmod : ((b.toNat : Int) % 256).toNat = b.toNat := by omega
  rw [hmod, UInt8.ofNat_toNat]

namespace Machine.Engaged

variable {P : Solo} {t : Nat} {ip : Word} {vs : List Word} {x : Solo.State} {b : UInt8}

theorem perform_read (he : m.Engaged P t ip x) (hc : x.view.console = .scripted (b :: input) output)
    (hroom : P.Roomy x.size) (next : Word) :
    Achieves (perform .getc next) m fun r m' => r = .next next ∧ m'.Engaged P t ip { x with
      stack := .fix b.toNat :: x.stack
      view := { x.view with console := .scripted input output } } := by
  have hread := he.perform_getc hroom next
  rw [hc] at hread
  exact hread

theorem perform_dry (he : m.Engaged P t ip x) (hc : x.view.console = .scripted [] output)
    (hroom : P.Roomy x.size) (next : Word) :
    Achieves (perform .getc next) m fun r m' => r = .next next ∧ m'.Engaged P t ip { x with
      stack := .fix (-1) :: x.stack
      view := { x.view with console := .scripted [] output } } := by
  have hread := he.perform_getc hroom next
  rw [hc] at hread
  exact hread

theorem perform_write (he : m.Engaged P t ip x) (hx : x.stack = .fix b.toNat :: vs)
    (hc : x.view.console = .scripted input output) (next : Word) :
    Achieves (perform .putc next) m fun r m' => r = .next next ∧ m'.Engaged P t ip { x with
      stack := vs
      view := { x.view with console := .scripted input (output.push b) } } := by
  have hwrite := he.perform_putc hx next
  rw [hc, UInt8.ofNat_fix] at hwrite
  exact hwrite

end Machine.Engaged

namespace Solo

def echoing (view : View) (n : Nat) (stack sent : List Word) (console : Console) : State :=
  ⟨stack, sent, [], .unit, blank,
    { view with console, stats :=
      { view.stats.spawned with instructions := view.stats.instructions + n } }⟩

theorem path_byte (view : View) (b : UInt8) (input : List UInt8) (output : Array UInt8) :
    echo.Path 8 23 (echoing view 0 [] [] (.scripted (b :: input) output)) 15
      (echoing view 8 [] [.unit] (.scripted input (output.push b))) := by
  have hpass : (Word.ofBool (Word.fix b.toNat == .fix (-1))).truthy = false := by
    rw [beq_false_of_ne (Word.fix_byte_ne b)]
    rfl
  refine .step (y := echoing view 1 [.fix b.toNat] [] (.scripted input output)) ⟨.getc, .ref 22, _,
    rfl, rfl, rfl, rfl, fun m t he => he.perform_read rfl (show echo.Roomy 0 by decide) _, rfl⟩ ?_
  refine .step (y := echoing view 2 [.fix b.toNat, .fix b.toNat] [] (.scripted input output))
    ⟨.dup 1, .ref 21, _, rfl, rfl, rfl, rfl,
      fun m t he => he.perform_dup (show _ = [_] ++ [] from rfl) (show echo.Roomy 2 by decide) _,
      rfl⟩ ?_
  refine .step (y := echoing view 3 [.ofBool (Word.fix b.toNat == .fix (-1)), .fix b.toNat] []
    (.scripted input output))
    ⟨.eq (.fix (-1)), .ref 20, _, rfl, rfl, rfl, rfl,
      fun m t he => he.perform_eq rfl (show echo.Roomy 2 by decide) _ _, rfl⟩ ?_
  refine .step (y := echoing view 4 [.fix b.toNat] [] (.scripted input output))
    ⟨.branch (.ref 14), .ref 19, _, rfl, rfl, rfl, rfl, fun m t he =>
      he.perform_pass rfl hpass _ _, rfl⟩ ?_
  refine .step (y := echoing view 5 [] [] (.scripted input (output.push b)))
    ⟨.putc, .ref 18, _, rfl, rfl, rfl, rfl, fun m t he => he.perform_write rfl rfl _, rfl⟩ ?_
  refine .step (y := echoing view 6 [.unit] [] (.scripted input (output.push b)))
    ⟨.push .unit, .ref 17, _, rfl, rfl, rfl, rfl,
      fun m t he => he.perform_push (show echo.Roomy 0 by decide) _ _, rfl⟩ ?_
  refine .step (y := echoing view 7 [.cap 24, .unit] [] (.scripted input (output.push b)))
    ⟨.my .self, .ref 16, _, rfl, rfl, rfl, rfl,
      fun m t he => he.perform_self (show echo.Roomy 1 by decide) _, rfl⟩ ?_
  exact .step ⟨.send 0, .ref 15, _, rfl, rfl, rfl, rfl,
    fun m t he => he.perform_send rfl (show echo.Roomy 2 by decide) _, rfl⟩ (.refl _ _)

theorem path_end (view : View) (output : Array UInt8) :
    echo.Path 5 23 (echoing view 0 [] [] (.scripted [] output)) 13
      (echoing view 5 [] [] (.scripted [] output)) := by
  refine .step (y := echoing view 1 [.fix (-1)] [] (.scripted [] output)) ⟨.getc, .ref 22, _, rfl,
    rfl, rfl, rfl, fun m t he => he.perform_dry rfl (show echo.Roomy 0 by decide) _, rfl⟩ ?_
  refine .step (y := echoing view 2 [.fix (-1), .fix (-1)] [] (.scripted [] output))
    ⟨.dup 1, .ref 21, _, rfl, rfl, rfl, rfl,
      fun m t he => he.perform_dup (show _ = [_] ++ [] from rfl) (show echo.Roomy 2 by decide) _,
      rfl⟩ ?_
  refine .step (y := echoing view 3 [.ofBool (Word.fix (-1) == .fix (-1)), .fix (-1)] []
    (.scripted [] output))
    ⟨.eq (.fix (-1)), .ref 20, _, rfl, rfl, rfl, rfl,
      fun m t he => he.perform_eq rfl (show echo.Roomy 2 by decide) _ _, rfl⟩ ?_
  refine .step (y := echoing view 4 [.fix (-1)] [] (.scripted [] output))
    ⟨.branch (.ref 14), .ref 19, _, rfl, rfl, rfl, rfl, fun m t he =>
      he.perform_branch rfl (by decide) _ _, rfl⟩ ?_
  exact .step ⟨.drop 1, .ref 13, _, rfl, rfl, rfl, rfl,
    fun m t he => he.perform_drop (show _ = [_] ++ [] from rfl) (show echo.Roomy 1 by decide) _,
    rfl⟩ (.refl _ _)

end Solo

structure View.Copied (view view' : View) (n : Nat) : Prop where
  clock : view'.clock = view.clock
  dispatched : view'.stats.dispatched = view.stats.dispatched + n
  commits : view'.stats.commits = view.stats.commits + n
  aborts : view'.stats.aborts = view.stats.aborts
  dropped : view'.stats.dropped = view.stats.dropped

namespace Machine

theorem Awaits.arrives_echo (ha : m.Awaits .echo [.unit] Solo.blank view) (hf : Fit ρ m)
    (hq : view.Quiet)
    (hc : view.console = .scripted input output) : m.Arrives (9 * input.length + 6) fun m' =>
      ∃ view', m'.Awaits .echo [] Solo.blank view' ∧ view'.console.output = output.toList ++ input ∧
        view.Copied view' (input.length + 1) := by
  have hroom : Solo.echo.Roomy 0 := by decide
  have hfresh : Solo.State.fresh Solo.blank .unit view = Solo.echoing view 0 [] []
      (.scripted input output) := by
    rw [← hc]
    rfl
  induction input generalizing m ρ view output with
  | nil =>
    have hpath := Solo.path_end view output
    rw [← hfresh] at hpath
    refine (ha.transacts hf hq (Solo.keeps_blank _) Solo.enters_echo hroom hpath
      ⟨⟨_, rfl⟩, rfl, Nat.zero_le _⟩ rfl).mono ?_
    rintro m₁ ⟨-, ha₁⟩
    exact ⟨_, ha₁, (List.append_nil _).symm, rfl, rfl, rfl, rfl, rfl⟩
  | cons b input ih =>
    have hpath := Solo.path_byte view b input output
    rw [← hfresh] at hpath
    have hlen : 9 * (b :: input).length + 6 = 8 + 1 + (9 * input.length + 6) := by
      rw [List.length_cons]
      omega
    rw [hlen]
    refine (ha.transacts hf hq (Solo.keeps_blank _) Solo.enters_echo hroom hpath
      ⟨⟨_, rfl⟩, rfl, Nat.le_refl _⟩ rfl).trans ?_
    rintro m₁ ⟨⟨ρ₁, hf₁⟩, ha₁⟩
    refine (ih ha₁ hf₁ hq rfl rfl).mono ?_
    rintro m₂ ⟨view', ha₂, hout, hcopied⟩
    refine ⟨view', ha₂, ?_, ?_⟩
    · rw [hout, Array.toList_push, List.append_assoc]
      rfl
    · obtain ⟨hclock, hdispatched, hcommits, haborts, hdropped⟩ := hcopied
      refine ⟨hclock, hdispatched.trans ?_, hcommits.trans ?_, haborts, hdropped⟩
      · change view.stats.dispatched + 1 + (input.length + 1) = _
        rw [List.length_cons]
        omega
      · change view.stats.commits + 1 + (input.length + 1) = _
        rw [List.length_cons]
        omega

end Machine

/-- The echo program copies its input, whatever it is, and comes to rest without a fault. -/
theorem Program.echo_copies (config : Config) (hcap : Config.minHeap ≤ config.heapCapacity)
    (hstride : 1 ≤ config.stride)
    (hsanity : config.sanity = 0) (input : List UInt8) (fuel : Nat)
    (hfuel : 9 * input.length + 7 ≤ fuel) :
    ∃ m m', Machine.new config = .ok m ∧
      (do
        Machine.setConsole (.ofInput input)
        let echo ← Program.echo false
        Machine.send echo .unit
        Machine.runFor fuel : MachineM Bool) m = .ok true m' ∧
      m'.console.output = input ∧ m'.stats.dispatched = input.length + 1 ∧
      m'.stats.commits = input.length + 1 ∧
      m'.stats.aborts = 0 ∧ m'.stats.dropped = 0 ∧ m'.events = .empty ∧ m'.threads = .empty := by
  obtain ⟨m, hm⟩ := Machine.exists_new hcap hstride
  obtain ⟨-, m₁, hbuild, rfl, ⟨ρ₁, hf₁⟩, hsweep, ha₁⟩ := (Machine.Laid.new hm hsanity).achieves_echo
  -- The console is not looked at before the program runs.
  have hbuild' := Mute.echo m _ m₁ hbuild (.ofInput input)
  have hf₂ : Fit ρ₁ { m₁ with console := .ofInput input } :=
    hf₁.quiet ⟨rfl, rfl, rfl, rfl, rfl, rfl, rfl, rfl, rfl⟩
  obtain ⟨⟨⟩, m₂, hsend, ha₂⟩ := (ha₁.withConsole (.ofInput input)).achieves_send (by decide) .unit
  obtain ⟨ρ₂, hf₃⟩ := hf₂.sent (v := .cap 24) (w := .unit) hsweep trivial (Or.inl (by decide)) hsend
  obtain ⟨m', hrun, view, ha', hout, hclock, hdispatched, hcommits, haborts, hdropped⟩ :=
    ha₂.arrives_echo hf₃ nofun rfl
  have hquiet : view.Quiet := by
    intro c hc
    rw [hclock] at hc
    cases hc
  have hrest : Machine.runFor fuel m₂ = .ok true m' := by
    obtain ⟨n, rfl⟩ := Nat.exists_eq_add_of_le' hfuel
    have hsplit : n + (9 * input.length + 7) = n + 1 + (9 * input.length + 6) := by omega
    rw [hsplit, hrun, ha'.rests hquiet n]
  obtain ⟨sent, hnone, hs⟩ := ha'
  obtain rfl := List.map_eq_nil_iff.1 hnone
  refine ⟨m, m', hm, ?_, ?_⟩
  · rw [run_bind (show Machine.setConsole (.ofInput input) m =
      .ok () { m with console := .ofInput input } from rfl), run_bind hbuild']
    exact (run_bind hsend).trans hrest
  · have hconsole : m'.console = view.console := congrArg View.console hs.view
    have hstats : m'.stats = view.stats := congrArg View.stats hs.view
    rw [hconsole, hstats]
    refine ⟨hout, hdispatched.trans ?_, hcommits.trans ?_, haborts, hdropped, hs.events, hs.threads⟩
    · exact Nat.zero_add _
    · exact Nat.zero_add _

theorem Program.echo_copies_smallest : ∃ m m',
    Machine.new { heapCapacity := Config.minHeap, strategy := .incremental, stride := 1 } = .ok m ∧
      (do
        Machine.setConsole (.ofInput [0, 255])
        let echo ← Program.echo false
        Machine.send echo .unit
        Machine.runFor 25 : MachineM Bool) m = .ok true m' ∧
      m'.console.output = [0, 255] ∧ m'.stats.commits = 3 := by
  obtain ⟨m, m', hm, hrun, hout, -, hcommits, -⟩ := Program.echo_copies
    { heapCapacity := Config.minHeap, strategy := .incremental, stride := 1 } (by decide)
    (by decide) rfl [0, 255] 25
    (by decide)
  exact ⟨m, m', hm, hrun, hout, hcommits⟩

end ActorMachine
