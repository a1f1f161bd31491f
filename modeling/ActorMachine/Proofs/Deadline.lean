import ActorMachine.Clock
import Mathlib.Data.List.Induction
import Mathlib.Data.Nat.Find
import Mathlib.Data.Nat.ModEq
import Mathlib.Order.Bounds.Defs
/-! When the clock is due. Main statement: however the readings go, the deadline is the first whole
number of periods after the start that no reading has come to, so that a signal is given once for
each period that is read. -/

namespace ActorMachine.Clock

variable {s t d : UInt64} {ts : List UInt64} {k : Nat}

theorem poll_due {c : Clock} (hdue : c.deadline ≤ c.now) (hmax : c.now.toNat + 1000 < UInt64.size) :
    ∃ deadline, c.poll = (some (c.now / 1000), { c with deadline }) ∧ c.now < deadline ∧
      deadline.toNat = c.deadline.toNat + ((c.now.toNat - c.deadline.toNat) / 1000 + 1) * 1000 := by
  have hsize : UInt64.size = 18446744073709551616 := rfl
  have hle : c.deadline.toNat ≤ c.now.toNat := UInt64.le_iff_toNat_le.1 hdue
  have hmissed : ((c.now - c.deadline) / period).toNat =
      (c.now.toNat - c.deadline.toNat) / 1000 := by
    rw [UInt64.toNat_div, UInt64.toNat_sub_of_le _ _ hdue]
    rfl
  have hnext : (c.deadline + ((c.now - c.deadline) / period + 1) * period).toNat =
      c.deadline.toNat + ((c.now.toNat - c.deadline.toNat) / 1000 + 1) * 1000 := by
    rw [UInt64.toNat_add, UInt64.toNat_mul, UInt64.toNat_add, hmissed]
    change (c.deadline.toNat + ((c.now.toNat - c.deadline.toNat) / 1000 + 1) % 2 ^ 64 *
      1000 % 2 ^ 64) % 2 ^ 64 = _
    omega
  refine ⟨_, if_neg (UInt64.not_lt.2 hdue), ?_, hnext⟩
  rw [UInt64.lt_iff_toNat_lt, hnext]
  omega

theorem isSome_poll {c : Clock} : c.poll.1.isSome ↔ c.deadline ≤ c.now := by
  unfold poll
  split <;> simp_all [UInt64.not_le]

theorem poll_early {c : Clock} (h : c.now < c.deadline) : c.poll = (none, c) := if_pos h

/-- The clock that was started at `s`, after polls at these readings. -/
def polled (s : UInt64) (handler : Word) (ts : List UInt64) : Clock :=
  ts.foldl (fun c t => (c.set t).poll.2) (start s handler)

def ahead (s : UInt64) (ts : List UInt64) : Set Nat :=
  { x | s.toNat ≤ x ∧ x ≡ s.toNat [MOD 1000] ∧ ∀ t ∈ ts, t.toNat < x }

theorem isLeast_next (hd : d.toNat ≡ s.toNat [MOD 1000]) (hle : d.toNat ≤ t.toNat) :
    IsLeast { x | t.toNat < x ∧ x ≡ s.toNat [MOD 1000] }
      (d.toNat + ((t.toNat - d.toNat) / 1000 + 1) * 1000) := by
  unfold Nat.ModEq at *
  refine ⟨⟨by omega, by omega⟩, ?_⟩
  rintro x ⟨hlt, hx⟩
  omega

theorem isLeast_poll {c : Clock} (hc : IsLeast (ahead s ts) c.deadline.toNat)
    (ht : t.toNat + 1000 < UInt64.size) :
    IsLeast (ahead s (ts ++ [t])) (c.set t).poll.2.deadline.toNat := by
  obtain ⟨⟨hs, hmod, hbefore⟩, hleast⟩ := hc
  unfold ahead
  simp only [List.forall_mem_append, List.forall_mem_singleton]
  by_cases hlt : t < c.deadline
  · rw [poll_early (c := c.set t) hlt]
    refine ⟨⟨hs, hmod, hbefore, UInt64.lt_iff_toNat_lt.1 hlt⟩, ?_⟩
    rintro x ⟨hx, hxmod, hxs, -⟩
    exact hleast ⟨hx, hxmod, hxs⟩
  · have hle : c.deadline.toNat ≤ t.toNat := UInt64.le_iff_toNat_le.1 (UInt64.not_lt.1 hlt)
    obtain ⟨deadline, hpoll, -, hnext⟩ := poll_due (c := c.set t) (UInt64.not_lt.1 hlt) ht
    obtain ⟨⟨hpast, hmod'⟩, hleast'⟩ := isLeast_next hmod hle
    rw [hpoll]
    change IsLeast _ deadline.toNat
    rw [hnext]
    refine ⟨⟨Nat.le_trans hs (Nat.le_add_right ..), hmod', fun u hu => ?_, hpast⟩, ?_⟩
    · exact Nat.lt_trans (Nat.lt_of_lt_of_le (hbefore u hu) hle) hpast
    · rintro x ⟨-, hx, -, hxt⟩
      exact hleast' ⟨hxt, hx⟩

theorem isLeast_polled (w : Word) (hts : ∀ t ∈ ts, t.toNat + 1000 < UInt64.size) :
    IsLeast (ahead s ts) (polled s w ts).deadline.toNat := by
  induction ts using List.reverseRecOn with
  | nil => exact ⟨⟨Nat.le_refl _, rfl, by simp⟩, fun _ hx => hx.1⟩
  | append_singleton ts t ih =>
    rw [List.forall_mem_append, List.forall_mem_singleton] at hts
    rw [polled, List.foldl_append]
    exact isLeast_poll (ih hts.1) hts.2

def Window (s : UInt64) (k : Nat) (t : UInt64) :
    Prop := s.toNat + 1000 * k ≤ t.toNat ∧ t.toNat < s.toNat + 1000 * (k + 1)

theorem le_iff_enters (hd : IsLeast (ahead s ts) d.toNat) (ht : Window s k t) :
    d ≤ t ↔ ∀ u ∈ ts, u.toNat < s.toNat + 1000 * k := by
  obtain ⟨⟨hs, hmod, hbefore⟩, hleast⟩ := hd
  obtain ⟨hlo, hhi⟩ := ht
  rw [UInt64.le_iff_toNat_le]
  constructor
  · intro hle u hu
    have := hbefore u hu
    unfold Nat.ModEq at hmod
    omega
  · intro hlt
    refine Nat.le_trans (hleast ⟨Nat.le_add_right .., ?_, hlt⟩) hlo
    unfold Nat.ModEq
    omega

/-- A poll gives the time in seconds just if it comes at the deadline or later, and then the next
deadline is the first of the times that is still to come, computed without a number being too large.
Before the deadline it does nothing. -/
structure Answers (s : UInt64) (c : Clock) : Prop where
  signal_iff : c.poll.1 = some (c.now / 1000) ↔ c.deadline ≤ c.now
  due : c.deadline ≤ c.now → ∃ deadline, c.poll.2 = { c with deadline } ∧
    IsLeast { x | c.now.toNat < x ∧ x ≡ s.toNat [MOD 1000] } deadline.toNat ∧
    deadline.toNat = c.deadline.toNat + ((c.now.toNat - c.deadline.toNat) / 1000 + 1) * 1000
  early : c.now < c.deadline → c.poll = (none, c)

theorem answers {c : Clock} (hmod : c.deadline.toNat ≡ s.toNat [MOD 1000])
    (hmax : c.now.toNat + 1000 < UInt64.size) :
    c.Answers s := by
  refine ⟨⟨fun hsome => ?_, fun hle => ?_⟩, fun hle => ?_, poll_early⟩
  · exact isSome_poll.1 (by rw [hsome]; rfl)
  · obtain ⟨deadline, hpoll, -⟩ := poll_due hle hmax
    rw [hpoll]
  · obtain ⟨deadline, hpoll, -, hnext⟩ := poll_due hle hmax
    refine ⟨deadline, by rw [hpoll], ?_, hnext⟩
    rw [hnext]
    exact isLeast_next hmod (UInt64.le_iff_toNat_le.1 hle)

theorem signals_once (w : Word) (hts : ∀ t ∈ ts, t.toNat + 1000 < UInt64.size)
    (hsorted : ts.Pairwise (· ≤ ·))
    (k : Nat) (hk : ∃ t ∈ ts, Window s k t) : ∃! i, ∃ t, ts[i]? = some t ∧ Window s k t ∧
      ((polled s w (ts.take i)).set t).poll.1.isSome := by
  -- The first reading in a window is the one that gives the signal.
  classical
  have hdue (i : Nat) {t : UInt64} (ht : Window s k t) :
      ((polled s w (ts.take i)).set t).poll.1.isSome ↔ ∀ u ∈ ts.take i,
      u.toNat < s.toNat + 1000 * k := by
    rw [isSome_poll]
    exact le_iff_enters (isLeast_polled w fun u hu => hts u (List.mem_of_mem_take hu)) ht
  obtain ⟨t, ht, hlo, hhi⟩ := hk
  obtain ⟨j, hj⟩ := List.mem_iff_getElem?.1 ht
  -- The first reading in the window or behind it lies in it, since one in the window follows.
  have hfirst : ∃ i, ∃ t : UInt64, ts[i]? = some t ∧ s.toNat + 1000 * k ≤ t.toNat := ⟨j, t, hj, hlo⟩
  obtain ⟨u, hu, hlow⟩ := Nat.find_spec hfirst
  have hle : u ≤ t := by
    obtain heq | hlt := Nat.eq_or_lt_of_le (Nat.find_min' hfirst ⟨t, hj, hlo⟩)
    · rw [heq, hj] at hu
      cases hu
      exact UInt64.le_refl _
    · obtain ⟨h₁, rfl⟩ := List.getElem?_eq_some_iff.1 hu
      obtain ⟨h₂, rfl⟩ := List.getElem?_eq_some_iff.1 hj
      exact List.pairwise_iff_getElem.1 hsorted _ _ h₁ h₂ hlt
  have hwin : Window s k u := ⟨hlow, Nat.lt_of_le_of_lt (UInt64.le_iff_toNat_le.1 hle) hhi⟩
  refine ⟨Nat.find hfirst, ⟨u, hu, hwin, (hdue _ hwin).2 fun v hv => ?_⟩, ?_⟩
  · obtain ⟨n, hn⟩ := List.mem_iff_getElem?.1 hv
    rw [List.getElem?_take, Option.ite_none_right_eq_some] at hn
    exact Nat.lt_of_not_le fun h => Nat.find_min hfirst hn.1 ⟨v, hn.2, h⟩
  · rintro i ⟨v, hv, hwin', hsome⟩
    refine Nat.le_antisymm (Nat.le_of_not_lt fun hlt => ?_) (Nat.find_min' hfirst ⟨v, hv, hwin'.1⟩)
    have hmem : u ∈ ts.take i := List.mem_of_getElem? (by rw [List.getElem?_take_of_lt hlt, hu])
    exact absurd ((hdue i hwin').1 hsome u hmem) (Nat.not_lt.2 hlow)

/-- Whatever the readings, the deadline stays a whole number of periods from the start, and polls
are answered accordingly. Readings that do not go back give one signal in each window they enter. -/
theorem catches_up (s : UInt64) (w : Word) (ts : List UInt64)
    (hts : ∀ t ∈ ts, t.toNat + 1000 < UInt64.size) :
    (polled s w ts).deadline.toNat ≡ s.toNat [MOD 1000] ∧
    (∀ t : UInt64, t.toNat + 1000 < UInt64.size → ((polled s w ts).set t).Answers s) ∧
    (ts.Pairwise (· ≤ ·) → ∀ k, (∃ t ∈ ts, Window s k t) →
      ∃! i, ∃ t, ts[i]? = some t ∧ Window s k t ∧
        ((polled s w (ts.take i)).set t).poll.1.isSome) :=
  have hmod := (isLeast_polled w hts).1.2.1
  ⟨hmod, fun _ ht => answers hmod ht, signals_once w hts⟩

theorem catches_up_latest : let c := (polled 5300 .unit [4000, 7100, 7200]).set 18446744073709550615
    c.deadline = 7300 ∧
    c.poll = (some 18446744073709550, { c with deadline := 18446744073709551300 }) ∧
    ∃! i, ∃ t : UInt64, [4000, 7100, 7200][i]? = some t ∧ Window 5300 1 t ∧
      ((polled 5300 .unit ([4000, 7100, 7200].take i)).set t).poll.1.isSome := by
  -- A clock that is read late, twice in one window, and then at the last moment that it can take.
  obtain ⟨-, hpoll, honce⟩ := catches_up 5300 .unit [4000, 7100, 7200] (by simp [UInt64.size])
  obtain ⟨hsome, hnext, -⟩ := hpoll 18446744073709550615 (by decide)
  obtain ⟨deadline, hset, -, hval⟩ := hnext (by decide)
  have hdeadline : deadline = 18446744073709551300 := UInt64.toNat.inj (hval.trans (by decide))
  rw [hdeadline] at hset
  refine ⟨by decide, Prod.ext (hsome.2 (by decide)) hset, honce (by decide) 1 ⟨7100, by decide, ?_⟩⟩
  unfold Window
  decide

end ActorMachine.Clock
