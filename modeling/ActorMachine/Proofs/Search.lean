import ActorMachine.Collector.Incremental

namespace ActorMachine

namespace ColorMap

variable {m : ColorMap} {c : Color} {lo hi cursor i : Nat}

def clamp (lo hi cursor : Nat) : Nat := min (max cursor lo) (hi - 1)

/-- The cells of `lo ≤ i < hi`, from the one behind the cursor to the last one, and then from the
first one to the cursor. -/
def circuit (lo hi cursor : Nat) : List Nat :=
  if lo < hi then
    List.range' (clamp lo hi cursor + 1) (hi - (clamp lo hi cursor + 1)) ++
    List.range' lo (clamp lo hi cursor + 1 - lo)
  else []

theorem clamp_bounds (hlt : lo < hi) (cursor : Nat) :
    lo ≤ clamp lo hi cursor ∧ clamp lo hi cursor < hi := by
  unfold clamp
  omega

theorem circuit_perm (lo hi cursor : Nat) :
    (circuit lo hi cursor).Perm (List.range' lo (hi - lo)) := by
  unfold circuit
  split
  · next hlt =>
    have hclamp := clamp_bounds hlt cursor
    refine List.perm_append_comm.trans (.of_eq ?_)
    rw [show clamp lo hi cursor + 1 = lo + (clamp lo hi cursor + 1 - lo) by omega,
      Nat.add_sub_cancel_left, List.range'_append_1]
    congr 1
    omega
  · next hge => rw [Nat.sub_eq_zero_of_le (Nat.le_of_not_lt hge), List.range'_zero]

theorem mem_circuit : i ∈ circuit lo hi cursor ↔ lo ≤ i ∧ i < hi := by
  rw [(circuit_perm lo hi cursor).mem_iff, List.mem_range'_1]
  omega

theorem findFrom_eq (span steps offset : Nat) : m.findFrom c lo span steps offset =
    ((List.range' offset steps).map (lo + · % span)).find? fun i => m.color i = c := by
  induction steps generalizing offset with
  | zero => rfl
  | succ n ih =>
    rw [findFrom, List.range'_succ, List.map_cons, List.find?_cons, ih]
    split <;> simp_all

theorem map_range'_eq {span a : Nat} (ha : a ≤ span) : (List.range' a span).map (lo + · % span) =
    List.range' (lo + a) (span - a) ++ List.range' lo a := by
  refine List.ext_getElem (by simp; omega) fun j hj _ => ?_
  rw [List.length_map, List.length_range'] at hj
  rw [List.getElem_map, List.getElem_range', List.getElem_append]
  split
  · next hlt =>
    rw [List.length_range'] at hlt
    rw [List.getElem_range', Nat.mod_eq_of_lt (by omega)]
    omega
  · next hge =>
    rw [List.length_range'] at hge
    rw [List.getElem_range', Nat.mod_eq_sub_mod (by omega), Nat.mod_eq_of_lt (by omega),
      List.length_range']
    omega

theorem find_eq : m.find c lo hi cursor = (circuit lo hi cursor).find? fun i => m.color i = c := by
  unfold find circuit
  split
  · next hlt =>
    have hclamp := clamp_bounds hlt cursor
    change m.findFrom c lo (hi - lo) (hi - lo) (clamp lo hi cursor - lo + 1) = _
    rw [findFrom_eq, map_range'_eq (by omega)]
    congr 3 <;> omega
  · rfl

theorem find_eq_none_iff : m.find c lo hi cursor = none ↔ ∀ i, lo ≤ i → i < hi → m.color i ≠ c := by
  rw [find_eq, List.find?_eq_none]
  simp only [mem_circuit, decide_eq_true_eq, and_imp]

theorem find_eq_some_iff : m.find c lo hi cursor = some i ↔ m.color i = c ∧
    ∃ before after, circuit lo hi cursor = before ++ i :: after ∧ ∀ j ∈ before, m.color j ≠ c := by
  simp [find_eq, List.find?_eq_some_iff_append]

theorem find_eq_some (hf : m.find c lo hi cursor = some i) : lo ≤ i ∧ i < hi ∧ m.color i = c := by
  rw [find_eq] at hf
  exact and_assoc.1 ⟨mem_circuit.1 (List.mem_of_find?_eq_some hf),
    by simpa using List.find?_some hf⟩

theorem find_eq_none (hf : m.find c lo hi cursor = none) (hlo : lo ≤ i) (hhi : i < hi) :
    m.color i ≠ c :=
  find_eq_none_iff.1 hf i hlo hhi

end ColorMap

namespace Incremental

open ColorMap

variable {n : Nat} {t : Turn Incremental}

theorem scan_ends (hp : t.collector.phase = .scan) (he : (scan n t).collector.phase ≠ .scan) :
    ∃ m, (scan n t).heap.colors = some m ∧
      ∀ i, Word.reserved ≤ i → i < (scan n t).heap.top → m.color i ≠ .scan := by
  induction n generalizing t with
  | zero => exact absurd hp he
  | succ n ih =>
    unfold scan at he ⊢
    cases hm : t.heap.colors with
    | none =>
      simp only [hm] at he
      exact absurd hp he
    | some m =>
      simp only [hm] at he ⊢
      cases hf : m.find .scan Word.reserved t.heap.top t.collector.cursor with
      | none => exact ⟨m, by simpa [hf] using hm, by simpa [hf] using find_eq_none_iff.1 hf⟩
      | some i =>
        simp only [hf] at he ⊢
        exact ih hp he

theorem sweep_ends (hp : t.collector.phase = .sweep) (he : (sweep n t).collector.phase ≠ .sweep) :
    ∀ m, (sweep n t).heap.colors = some m →
      ∀ i, (sweep n t).heap.permanent ≤ i → i < (sweep n t).heap.top → m.color i ≠ m.prev := by
  induction n generalizing t with
  | zero => exact absurd hp he
  | succ n ih =>
    unfold sweep at he ⊢
    cases hf : t.heap.colors.bind fun m =>
      m.find m.prev t.heap.permanent t.heap.top t.collector.cursor with
    | none =>
      intro m hm
      change t.heap.colors = some m at hm
      rw [hm] at hf
      exact find_eq_none_iff.1 hf
    | some i =>
      simp only [hf] at he ⊢
      exact ih hp he

/-- A search finds nothing just if there is nothing to be found, and otherwise the first cell of the
round from behind the cursor, which is where the next one goes on. So the collector scans until
nothing is left to be scanned, and sweeps until nothing is left of the previous generation. -/
theorem searches_round :
    (∀ (m : ColorMap) (c : Color) (lo hi cursor : Nat),
      (circuit lo hi cursor).Perm (List.range' lo (hi - lo)) ∧
      (m.find c lo hi cursor = none ↔ ∀ i, lo ≤ i → i < hi → m.color i ≠ c) ∧
      ∀ i, m.find c lo hi cursor = some i ↔ m.color i = c ∧
        ∃ before after, circuit lo hi cursor = before ++ i :: after ∧ ∀ j ∈ before, m.color j ≠ c) ∧
    (∀ (t : Turn Incremental) (m : ColorMap), t.heap.colors = some m →
      (scan 1 t).collector.cursor =
        (m.find .scan Word.reserved t.heap.top t.collector.cursor).getD t.heap.permanent ∧
      (sweep 1 t).collector.cursor =
        (m.find m.prev t.heap.permanent t.heap.top t.collector.cursor).getD t.collector.cursor) ∧
    ∀ (roots : Roots) (t : Turn Incremental),
      (t.collector.phase = .scan → (step roots t).collector.phase ≠ .scan →
        ∃ m, (step roots t).heap.colors = some m ∧
        ∀ i, Word.reserved ≤ i → i < (step roots t).heap.top → m.color i ≠ .scan) ∧
      (t.collector.phase = .sweep → (step roots t).collector.phase ≠ .sweep →
        ∀ m, (step roots t).heap.colors = some m →
        ∀ i, (step roots t).heap.permanent ≤ i → i < (step roots t).heap.top →
          m.color i ≠ m.prev) := by
  refine ⟨fun m c lo hi cursor => ⟨circuit_perm .., find_eq_none_iff, fun i => find_eq_some_iff⟩,
    ?_, ?_⟩
  · intro t m hm
    constructor
    · cases hf : m.find .scan Word.reserved t.heap.top t.collector.cursor <;> simp [scan, hm, hf]
    · cases hf : m.find m.prev t.heap.permanent t.heap.top t.collector.cursor <;>
        simp [sweep, hm, hf, Turn.note]
  · intro roots t
    constructor <;> intro hp <;> unfold step <;> rw [hp]
    · exact scan_ends hp
    · exact sweep_ends hp

def chained : Heap :=
  let pair (rest : Word) : Cell := ⟨.pairT, .fix 1, rest, .undefined⟩
  let h := ({ Heap.new 20 with top := 16 } : Heap).putCell 13 (pair .nil)
  ((h.putCell 14 (pair (.ref 13))).putCell 15 (pair (.ref 14))).enableColors

def stage : Nat → Turn Incremental
  | 0 => { collector := ⟨.flip, 0, Word.reserved, 2, 0, 0⟩, heap := chained }
  | n + 1 => step { pinned := #[.ref 14] } (stage n)

theorem searches_round_chained :
    ((stage 2).collector.phase = .scan ∧ (stage 3).collector.phase = .sweep ∧
      ∃ m, (stage 3).heap.colors = some m ∧
        ∀ i, Word.reserved ≤ i → i < (stage 3).heap.top → m.color i ≠ .scan) ∧
    (stage 3).collector.phase = .sweep ∧ (stage 4).collector.phase = .flip ∧
      (stage 4).heap.isFree (.ref 15) = true ∧ ∃ m, (stage 4).heap.colors = some m ∧
        ∀ i, (stage 4).heap.permanent ≤ i → i < (stage 4).heap.top → m.color i ≠ m.prev := by
  -- The first pair is marked for scanning and scanned, and the last one, which nothing reaches, is
  -- reclaimed.
  have hscan : (stage 2).collector.phase = .scan := by decide +kernel
  have hsweep : (stage 3).collector.phase = .sweep := by decide +kernel
  have hflip : (stage 4).collector.phase = .flip := by decide +kernel
  have hne : (stage 3).collector.phase ≠ .scan := by
    rw [hsweep]
    decide
  have hne' : (stage 4).collector.phase ≠ .sweep := by
    rw [hflip]
    decide
  refine ⟨⟨hscan, hsweep, (searches_round.2.2 _ (stage 2)).1 hscan hne⟩, hsweep, hflip,
    by decide +kernel, ?_⟩
  have hcolors : (stage 4).heap.colors.isSome = true := by decide +kernel
  obtain ⟨m, hm⟩ := Option.isSome_iff_exists.1 hcolors
  exact ⟨m, hm, (searches_round.2.2 _ (stage 3)).2 hsweep hne' m hm⟩

end Incremental

end ActorMachine
