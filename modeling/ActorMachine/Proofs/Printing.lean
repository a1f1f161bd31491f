import ActorMachine.Proofs.Traversal
/-! The written form of data. A value that unfolds to a finite tree is written as a list of lists,
and the writer spends one unit for each pair and another one for each value that it writes. Main
statement: the text comes out if the budget covers that, and otherwise the writer runs away,
although there is no circle; that happens to a list of numbers that takes up more than half of the
cells. -/

namespace ActorMachine

/-- Data by itself, without the cells that hold it. -/
inductive Datum where
  | nil
  | atom (text : String)
  | pair (head tail : Datum)

namespace Datum

mutual

/-- Written form: items apart by one space, and a dot before a tail that is no list. -/
def text : Datum → String
  | nil => "()"
  | atom s => s
  | pair a d => "(" ++ a.text ++ d.rest ++ ")"

def rest : Datum → String
  | nil => ""
  | atom s => " . " ++ s
  | pair a d => " " ++ a.text ++ d.rest

end

def pairs : Datum → Nat
  | nil | atom _ => 0
  | pair a d => a.pairs + d.pairs + 1

mutual

def dots : Datum → Nat
  | nil | atom _ => 0
  | pair a d => a.dots + d.tailDots

def tailDots : Datum → Nat
  | nil => 0
  | atom _ => 1
  | pair a d => a.dots + d.tailDots

end

/-- What it costs to write a value: the pairs, and every value in them but the tails that are
lists. -/
def cost (d : Datum) : Nat := 2 * d.pairs + d.dots + 1

def list (texts : List String) : Datum := texts.foldr (fun s => pair (atom s)) nil

theorem cost_list (texts : List String) : (list texts).cost = 2 * texts.length + 1 := by
  have hsize : (list texts).pairs = texts.length ∧ (list texts).dots = 0 ∧
      (list texts).tailDots = 0 := by
    induction texts with
    | nil => exact ⟨rfl, rfl, rfl⟩
    | cons s texts ih =>
      obtain ⟨hp, -, ht⟩ := ih
      simp only [list, List.foldr_cons] at hp ht ⊢
      simp [pairs, dots, tailDots, hp, ht]
  simp [cost, hsize]

end Datum

namespace Heap

/-- A word holds this datum: a number, a literal, a capability or a symbol, or a pair of such. -/
inductive Denotes (h : Heap) : Word → Datum → Prop
  | nil : h.isPair .nil = false → Denotes h .nil .nil
  | number (n : BitVec 63) : Denotes h (.fixnum n) (.atom (Word.signed n.toInt))
  | literal {i : Nat} {name : String} : i ≠ Word.nil.index → Word.reservedNames[i]? = some name →
      h.isPair (.ref i) = false → Denotes h (.ref i) (.atom name)
  | actor {i : Nat} : h.isActor (.cap i) = true →
    Denotes h (.cap i) (.atom ("#actor@" ++ toString i))
  | capability {i : Nat} : h.isActor (.cap i) = false →
    Denotes h (.cap i) (.atom ("#cap@" ++ toString i))
  | symbol {i : Nat} {ps : List Word} : Word.reserved ≤ i → h.isSymbol (.ref i) = true →
      h.Ends (h.cellAt i).y ps →
      Denotes h (.ref i) (.atom (String.ofList (ps.map fun p => (h.car p).toChar)))
  | pair {i : Nat} {a d : Datum} : Word.reserved ≤ i → h.isPair (.ref i) = true →
    Denotes h (h.car (.ref i)) a →
      Denotes h (h.cdr (.ref i)) d → Denotes h (.ref i) (.pair a d)

variable {h : Heap} {v : Word} {i : Nat} {s : String} {a d : Datum}

def charge (b : Budget) (cost : Nat) (k : Budget → Except Fault String) : Except Fault String :=
  if cost ≤ b.left then k ⟨b.left - cost, b.task⟩ else .error (.runaway b.task)

theorem charge_succ (n : Nat) (task : String) (k : Budget → Except Fault String) :
    charge ⟨n + 1, task⟩ 1 k = k ⟨n, task⟩ :=
  if_pos (Nat.le_add_left 1 n)

theorem charge_add (b : Budget) (c d : Nat) (k : Budget → Except Fault String) :
    charge b (c + d) k = charge b c fun b => charge b d k := by
  unfold charge
  dsimp only
  by_cases hc : c ≤ b.left
  · rw [if_pos hc, Nat.sub_sub, if_congr (by omega : c + d ≤ b.left ↔ d ≤ b.left - c) rfl rfl]
  · rw [if_neg hc, if_neg (by omega)]

section Steps

variable (b : Budget) (out : String) (work : List Pending)

theorem renderAll_atom (hv : h.isPair v = false) (ht : h.atomText v = .ok s) :
    h.renderAll b out (.value v :: work) = charge b 1 fun b => h.renderAll b (out ++ s) work := by
  rw [renderAll]
  obtain ⟨_ | n, task⟩ := b
  · rfl
  · rw [charge_succ, printsAsList, hv, Bool.and_false, ht]
    rfl

theorem renderAll_list (hi : Word.reserved ≤ i) (hp : h.isPair (.ref i) = true) :
    h.renderAll b out (.value (.ref i) :: work) =
      charge b 1 fun b => h.renderAll b (out ++ "(") (.pairs (.ref i) :: work) := by
  have hname : (Word.ref i).reservedName? = none := List.getElem?_eq_none hi
  rw [renderAll]
  obtain ⟨_ | n, task⟩ := b
  · rfl
  · rw [charge_succ, printsAsList, hname, hp]
    rfl

theorem renderAll_pairs : h.renderAll b out (.pairs v :: work) =
    charge b 1 fun b => h.renderAll b out (.value (h.car v) :: .after (h.cdr v) :: work) := by
  rw [renderAll]
  obtain ⟨_ | n, task⟩ := b
  · rfl
  · rw [charge_succ]
    rfl

end Steps

namespace Denotes

theorem atomText (hs : h.capacity ≤ h.sanity) (hd : h.Denotes v (.atom s)) :
    h.isPair v = false ∧ v ≠ .nil ∧ h.atomText v = .ok s := by
  -- The name of a symbol comes to an end, so one unit for each cell is enough for it.
  cases hd with
  | number n => exact ⟨rfl, by simp [Word.nil], rfl⟩
  | @literal i _ hi hname hp =>
    refine ⟨hp, fun h => hi (by cases h; rfl), ?_⟩
    have htext : (Word.ref i).text = s := by simp [Word.text, hname]
    simp [Heap.atomText, Word.reservedName?, hname, htext]
  | actor ha => exact ⟨rfl, by simp [Word.nil], by simp [Heap.atomText, ha]⟩
  | capability ha => exact ⟨rfl, by simp [Word.nil], by simp [Heap.atomText, ha]⟩
  | @symbol i ps hi hsym he =>
    obtain ⟨_, ⟨⟩, hlt, ht⟩ := hasType_iff.1 hsym
    have hname : (Word.ref i).reservedName? = none := List.getElem?_eq_none hi
    have hcell : h.isCell (.ref i) = true := isCell_iff.2 ⟨i, rfl, hlt⟩
    have htext :
        h.symbolName (.ref i) = .ok (String.ofList (ps.map fun p => (h.car p).toChar)) := by
      unfold symbolName toText
      rw [field_ref hlt]
      change _ <$> h.spine _ (h.cellAt i).y = _
      rw [he.spine (Nat.le_trans he.length_le hs)]
      rfl
    refine ⟨?_, ?_, ?_⟩
    · by_contra hp
      obtain ⟨_, ⟨⟩, -, hpair⟩ := hasType_iff.1 (Bool.not_eq_false _ ▸ hp)
      rw [ht] at hpair
      cases hpair
    · rintro ⟨⟩
      exact absurd hi (by decide)
    · simp [Heap.atomText, hname, hcell, hsym, htext]

variable (hs : h.capacity ≤ h.sanity)
include hs

theorem renderAll (hd : h.Denotes v d) (b : Budget) (out : String) (work : List Pending) :
    h.renderAll b out (.value v :: work) = charge b d.cost (fun b =>
      h.renderAll b (out ++ d.text) work) ∧
    h.renderAll b out (.after v :: work) =
      charge b (2 * d.pairs + d.tailDots) fun b => h.renderAll b (out ++ d.rest ++ ")") work := by
  -- What is written costs one unit for each pair and for each value, and comes after the text so
  -- far.
  induction d generalizing v b out work with
  | nil =>
    cases hd with
    | nil hnil =>
      refine ⟨renderAll_atom b out work hnil rfl, ?_⟩
      rw [Heap.renderAll, hnil, if_neg Bool.false_ne_true, if_pos rfl, Heap.renderAll]
      simp [charge, Datum.pairs, Datum.tailDots, Datum.rest]
  | atom s =>
    obtain ⟨hp, hne, ht⟩ := hd.atomText hs
    refine ⟨renderAll_atom b out work hp ht, ?_⟩
    rw [Heap.renderAll, hp, if_neg Bool.false_ne_true, if_neg hne, renderAll_atom _ _ _ hp ht]
    have hclose : ∀ b out, h.renderAll b out (.close :: work) = h.renderAll b (out ++ ")") work :=
      fun b out => by rw [Heap.renderAll]
    simp [hclose, Datum.pairs, Datum.tailDots, Datum.rest, String.append_assoc]
  | pair a d iha ihd =>
    cases hd with
    | @pair i _ _ hi hp ha hd =>
      have hpairs : ∀ b out, h.renderAll b out (.pairs (.ref i) :: work) =
          charge b (1 + (a.cost + (2 * d.pairs + d.tailDots)))
            fun b => h.renderAll b (out ++ a.text ++ d.rest ++ ")") work := by
        intro b out
        rw [renderAll_pairs, charge_add]
        congr 1
        funext b
        rw [(iha ha b out _).1, charge_add]
        congr 1
        funext b
        exact (ihd hd b _ work).2
      constructor
      · rw [renderAll_list b out work hi hp]
        have hcost : (Datum.pair a d).cost = 1 + (1 + (a.cost + (2 * d.pairs + d.tailDots))) := by
          simp only [Datum.cost, Datum.pairs, Datum.dots]
          omega
        rw [hcost, charge_add]
        congr 1
        funext b
        rw [hpairs]
        simp [Datum.text, String.append_assoc]
      · rw [Heap.renderAll, if_pos hp, hpairs]
        have hcost : 2 * (Datum.pair a d).pairs + (Datum.pair a d).tailDots =
            1 + (a.cost + (2 * d.pairs + d.tailDots)) := by
          simp only [Datum.cost, Datum.pairs, Datum.tailDots]
          omega
        rw [hcost]
        simp [Datum.rest, String.append_assoc]

theorem render (hd : h.Denotes v d) :
    h.render v = charge (h.budget "render") d.cost fun _ => .ok d.text := by
  unfold Heap.render
  rw [(hd.renderAll hs _ "" []).1]
  simp [Heap.renderAll]

end Denotes

end Heap

namespace Machine

variable {m m' : Machine} {v tag next : Word}

theorem perform_debug_ok {text : String} (hp : pop m = .ok v m')
    (hr : m'.heap.render v = .ok text) :
    perform (.debug tag) next m = .ok (.next next)
      { m' with log := m'.log.push (.trace tag text), trace := m'.trace.record tag text } := by
  have hshow : showValue tag m = .ok ()
      { m' with log := m'.log.push (.trace tag text), trace := m'.trace.record tag text } := by
    unfold showValue
    rw [run_bind hp, run_bind (ask_eq_ok.2 ⟨rfl, hr⟩)]
    rfl
  exact run_bind hshow

theorem perform_debug_error {f : Fault} (hp : pop m = .ok v m') (hr : m'.heap.render v = .error f) :
    perform (.debug tag) next m = .error f m' := by
  have hshow : showValue tag m = .error f m' := by
    unfold showValue
    rw [run_bind hp]
    exact run_bind_error (ask_error hr)
  exact run_bind_error hshow

end Machine

namespace Heap

/-- A finite value is written if the budget covers its pairs and the values in them, and otherwise
it is taken for a circle. An instruction that shows it records the text, or else fails for good. -/
theorem writes_within_budget {h : Heap} {v : Word} {d : Datum} (hs : h.capacity ≤ h.sanity)
    (hd : h.Denotes v d) :
    (d.cost ≤ h.sanity → h.render v = .ok d.text) ∧
    (h.sanity < d.cost → h.render v = .error (.runaway "render")) ∧
    ∀ (m m' : Machine) (tag next : Word), Machine.pop m = .ok v m' → m'.heap = h →
      (d.cost ≤ h.sanity → Machine.perform (.debug tag) next m = .ok (.next next)
        { m' with log := m'.log.push (.trace tag d.text), trace := m'.trace.record tag d.text }) ∧
      (h.sanity < d.cost →
        Machine.perform (.debug tag) next m = .error (.runaway "render") m') := by
  have hok : d.cost ≤ h.sanity → h.render v = .ok d.text := fun hc =>
    (hd.render hs).trans (if_pos hc)
  have herr : h.sanity < d.cost → h.render v = .error (.runaway "render") := fun hc =>
    (hd.render hs).trans (if_neg (Nat.not_le.2 hc))
  refine ⟨hok, herr, ?_⟩
  rintro m m' tag next hpop rfl
  exact ⟨fun hc => Machine.perform_debug_ok hpop (hok hc), fun hc =>
    Machine.perform_debug_error hpop (herr hc)⟩

def stacked : Heap :=
  ({ new 19 with top := 19 } : Heap)
    |>.putCell 13 ⟨.pairT, .fix 1, .ref 14, .undefined⟩
    |>.putCell 14 ⟨.pairT, .ref 15, .truth, .undefined⟩
    |>.putCell 15 ⟨.symbolT, .undefined, .ref 16, .undefined⟩
    |>.putCell 16 ⟨.pairT, .fix 97, .nil, .undefined⟩
    |>.putCell 17 ⟨.undefined, .ref 18, .nil, .nil⟩
    |>.putCell 18 ⟨.pairT, .ref 13, .nil, .undefined⟩

theorem writes_within_budget_stacked : ∃ m m' : Machine, Machine.pop m = .ok (.ref 13) m' ∧
    m'.heap.capacity ≤ m'.heap.sanity ∧
    m'.heap.Denotes (.ref 13) (.pair (.atom "+1") (.pair (.atom "a") (.atom "#t"))) ∧
    m'.heap.render (.ref 13) = .ok "(+1 a . #t)" ∧
    Machine.perform (.debug .unit) .nil m = .ok (.next .nil)
      { m' with
        log := m'.log.push (.trace .unit "(+1 a . #t)")
        trace := m'.trace.record .unit "(+1 a . #t)" } := by
  obtain ⟨m, -⟩ : ∃ m, Machine.new { heapCapacity := 80 } = .ok m := ⟨_, rfl⟩
  let after : Heap := (stacked.putCell 17 ⟨.undefined, .nil, .nil, .nil⟩).reclaim 18
  have hpop : Machine.pop { m with heap := stacked, threads := ⟨.ref 17, .ref 17⟩ } =
      .ok (.ref 13) { m with heap := after, threads := ⟨.ref 17, .ref 17⟩ } := by
    with_unfolding_all rfl
  have hs : after.capacity ≤ after.sanity := by decide +kernel
  have hname : after.Ends (after.cellAt 15).y [.ref 16] := by
    rw [show (after.cellAt 15).y = .ref 16 by decide +kernel]
    exact .cons (by decide +kernel) (.nil (by decide +kernel))
  have hsymbol : after.Denotes (after.car (.ref 14)) (.atom "a") := by
    have hspelled : String.ofList ([Word.ref 16].map fun p => (after.car p).toChar) = "a" := by
      decide +kernel
    rw [show after.car (.ref 14) = .ref 15 by decide +kernel, ← hspelled]
    exact .symbol (by decide) (by decide +kernel) hname
  have hliteral : after.Denotes (after.cdr (.ref 14)) (.atom "#t") := by
    rw [show after.cdr (.ref 14) = .truth by decide +kernel]
    exact .literal (by decide) rfl (by decide +kernel)
  have hnumber : after.Denotes (after.car (.ref 13)) (.atom "+1") := by
    rw [show after.car (.ref 13) = .fix 1 by decide +kernel]
    exact .number 1
  have htail : after.Denotes (after.cdr (.ref 13)) (.pair (.atom "a") (.atom "#t")) := by
    rw [show after.cdr (.ref 13) = .ref 14 by decide +kernel]
    exact .pair (by decide) (by decide +kernel) hsymbol hliteral
  have hd : after.Denotes (.ref 13) (.pair (.atom "+1") (.pair (.atom "a") (.atom "#t"))) :=
    .pair (by decide) (by decide +kernel) hnumber htail
  obtain ⟨hrender, -, hshow⟩ := writes_within_budget hs hd
  exact ⟨_, _, hpop, hs, hd, hrender (by decide +kernel),
    (hshow _ _ .unit .nil hpop rfl).1 (by decide +kernel)⟩

variable {h : Heap} {v : Word} {l ks : List Nat} {ns : List (BitVec 63)}

theorem Pairs.denotes (hp : h.Pairs v ks) (hnil : h.isPair .nil = false)
    (hi : ∀ i ∈ ks, Word.reserved ≤ i) (hx : ks.map (fun i => (h.cellAt i).x) = ns.map .fixnum) :
    h.Denotes v (.list (ns.map fun n => Word.signed n.toInt)) := by
  induction ks generalizing v ns with
  | nil =>
    obtain ⟨rfl, -⟩ := hp
    obtain rfl := List.map_eq_nil_iff.1 hx.symm
    exact .nil hnil
  | cons i ks ih =>
    obtain ⟨rfl, hcdr, hrest⟩ := hp.cdr
    obtain ⟨n, ns, rfl, hn, hns⟩ := List.map_eq_cons_iff.1 hx.symm
    have hpair := hp.2 i List.mem_cons_self
    refine .pair (hi i List.mem_cons_self) hpair ?_ ?_
    · rw [car_eq hpair, show (h.cellAt i).x = .fixnum n from hn.symm]
      exact .number n
    · rw [hcdr]
      exact ih hrest (fun j hj => hi j (List.mem_cons_of_mem i hj)) hns.symm

theorem FreeList.render_ofItems (hf : h.FreeList l) (hi : h.Pristine) (hs : h.sanity = h.capacity)
    (hroom : h.inUse + ns.length ≤ h.capacity) (hhalf : h.capacity ≤ 2 * ns.length) :
    ∃ v h' ps d, ofItems (ns.map .fixnum) h = .ok v h' ∧ h'.sanity = h'.capacity ∧ h'.Ends v ps ∧
      ps.Nodup ∧
      h'.Denotes v d ∧ h'.render v = .error (.runaway "render") := by
  rw [← List.length_map Word.fixnum] at hroom
  obtain ⟨v, h', ks, hr, hk, hnil⟩ := hf.lays_ofItems hi hroom
  have he := (hk.ends hnil).1
  have hd :=
    hk.pairs.denotes hnil (fun i hmem => Nat.le_trans hf.reserved_le (hk.fresh i hmem).2) hk.values
  have hs' : h'.sanity = h'.capacity := by rw [hk.reworks.sanity, hk.reworks.capacity, hs]
  refine ⟨v, h', _, _, hr, hs', he, he.nodup, hd,
    (hd.render hs'.ge).trans (if_neg (Nat.not_le.2 ?_))⟩
  change h'.sanity < _
  rw [Datum.cost_list, List.length_map, hs', hk.reworks.capacity]
  exact Nat.lt_succ_of_le hhalf

theorem writes_half :
    ∃ v h' ps d, ofItems (((List.range' 1 13).map (BitVec.ofNat 63)).map .fixnum) (new 26) =
      .ok v h' ∧
      h'.sanity = h'.capacity ∧ h'.Ends v ps ∧ ps.Nodup ∧ h'.Denotes v d ∧
      h'.render v = .error (.runaway "render") :=
  (freeList_new 26 26).render_ofItems (fun _ => literals_new 26 26) (by decide +kernel)
  (by decide +kernel)
    (by decide +kernel)

end Heap

end ActorMachine
