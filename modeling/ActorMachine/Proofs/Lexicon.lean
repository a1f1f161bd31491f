import ActorMachine.Proofs.DataEquality
/-! The order of a symbol table. In each bucket are the symbols whose checksum belongs there, no two
of them with the same spelling. Some cells may have been spoiled: what hangs behind them is not
looked at. Main statements: this order depends only on the cells that the table uses, and interning
keeps it. -/

namespace ActorMachine

open Heap

variable {S S' : Nat → Prop} {h h' h₁ : Heap} {l l' : Lexicon} {k k' : Fin 256}
  {b v w chars hash : Word}
  {i j p q s t n : Nat} {crc : UInt32}
variable {α : Type} {e : Fault}

/-- The cells that are come upon along a chain, up to the first spoiled one. -/
inductive Heap.Walks (S : Nat → Prop) (h : Heap) : Word → Nat → Prop
  | here {i : Nat} : Walks S h (.ref i) i
  | next {i j : Nat} : h.isPair (.ref i) = true → ¬ S i → Walks S h (h.cdr (.ref i)) j →
    Walks S h (.ref i) j

def Heap.SameAt (h h' : Heap) (i : Nat) :
    Prop := h'.cellAt i = h.cellAt i ∧ (i < h'.top ↔ i < h.top)

namespace Heap

theorem SameAt.isPair (hs : h.SameAt h' i) : h'.isPair (.ref i) = h.isPair (.ref i) := by
  rw [Bool.eq_iff_iff, isPair_iff, isPair_iff]
  simp only [Word.ref.injEq, exists_eq_left', hs.1, hs.2]

theorem SameAt.isSymbol (hs : h.SameAt h' i) : h'.isSymbol (.ref i) = h.isSymbol (.ref i) := by
  unfold Heap.isSymbol hasType isCell
  simp only [Word.index, hs.1, hs.2]
  rfl

theorem SameAt.symm (hs : h.SameAt h' i) : h'.SameAt h i := ⟨hs.1.symm, hs.2.symm⟩

theorem Live.sameAt (hi : h.Live i) (hr : h.Reworks (fun _ => False) h') : h.SameAt h' i :=
  ⟨hr.same i hi id, iff_of_true (hr.live hi id).1 hi.1⟩

theorem Walks.of_same (hsame : ∀ j, h.Walks S b j → ¬ S' j → h.SameAt h' j) (hS : ∀ j, S j → S' j)
    (hw : h'.Walks S' b i) : h.Walks S b i := by
  induction hw with
  | here => exact .here
  | @next i j hp hi _ ih =>
    have hi' := hsame i .here hi
    have hp' : h.isPair (.ref i) = true := hi'.isPair ▸ hp
    have hcdr : h'.cdr (.ref i) = h.cdr (.ref i) := by rw [cdr_eq hp, cdr_eq hp', hi'.1]
    rw [hcdr] at ih
    exact .next hp' (fun hs => hi (hS i hs)) (ih fun j hj =>
      hsame j (.next hp' (fun hs => hi (hS i hs)) hj))

theorem reads_of_unspoiled (hsame : ∀ j, h.Touches v j → ¬ S' j → h.SameAt h' j)
    (hv : ∀ j, h'.Touches v j → ¬ S' j) : h.Reads h' v := by
  have hback : ∀ j, h.Touches v j → h'.Touches v j := by
    intro j hj
    induction hj with
    | here => exact .here
    | @car v j hp _ ih =>
      obtain ⟨i, rfl, -⟩ := isPair_iff.1 hp
      have hi := hsame i .here (hv i .here)
      have hp' : h'.isPair (.ref i) = true := hi.isPair.trans hp
      have hcar : h'.car (.ref i) = h.car (.ref i) := by rw [car_eq hp, car_eq hp', hi.1]
      refine .car hp' ?_
      rw [hcar]
      exact ih (fun j hj => hsame j (.car hp hj)) fun j hj => hv j (.car hp' (hcar ▸ hj))
    | @cdr v j hp _ ih =>
      obtain ⟨i, rfl, -⟩ := isPair_iff.1 hp
      have hi := hsame i .here (hv i .here)
      have hp' : h'.isPair (.ref i) = true := hi.isPair.trans hp
      have hcdr : h'.cdr (.ref i) = h.cdr (.ref i) := by rw [cdr_eq hp, cdr_eq hp', hi.1]
      refine .cdr hp' ?_
      rw [hcdr]
      exact ih (fun j hj => hsame j (.cdr hp hj)) fun j hj => hv j (.cdr hp' (hcdr ▸ hj))
  exact fun j hj => hsame j hj (hv j (hback j hj))

theorem cell_ref (hi : i < h.top) : h.cell (.ref i) = .ok (h.cellAt i) := by
  unfold cell isCell
  rw [if_pos (decide_eq_true hi)]
  rfl

end Heap

namespace SymbolTable

theorem get_setBucket (table : SymbolTable) (crc : UInt32) (v : Word) (k : Fin 256) :
    (table.setBucket crc v).buckets.get k = if k = slot crc then v else table.buckets.get k := by
  change (table.buckets.set (slot crc) v (slot crc).isLt)[(k : Nat)] = if k = slot crc then v else
    table.buckets[(k : Nat)]
  rw [Vector.getElem_set]
  simp only [Fin.ext_iff, eq_comm]

theorem find?_some {sym : Word} {left : Budget} (hf : find? h hash chars left b = .ok (some sym)) :
    ∃ p c, h.Walks (fun _ => False) b p ∧ h.isPair (.ref p) = true ∧ (h.cellAt p).x = sym ∧
      h.cell sym = .ok c ∧
      c.x = hash ∧ ¬ h.Differs chars c.y := by
  fun_induction find? h hash chars left b with
  | case1 => cases hf
  | case3 => cases hf
  | case2 left b hp left' _ first ih =>
    obtain ⟨i, rfl, -⟩ := isPair_iff.1 hp
    have hfirst : first = (h.cellAt i).x := car_eq hp
    have hrest : find? h hash chars left' (h.cdr (.ref i)) = .ok (some sym) → ∃ p c,
        h.Walks (fun _ => False) (.ref i) p ∧ h.isPair (.ref p) = true ∧ (h.cellAt p).x = sym ∧
          h.cell sym = .ok c ∧ c.x = hash ∧ ¬ h.Differs chars c.y := fun hr => by
      obtain ⟨p, c, hw, hp'⟩ := ih hr
      exact ⟨p, c, .next hp id hw, hp'⟩
    cases hc : h.cell first with
    | error f =>
      rw [hc] at hf
      cases hf
    | ok c =>
      rw [hc] at hf
      simp only [bind, Except.bind] at hf
      split at hf
      · next hx =>
        cases he : h.equal chars c.y with
        | error f =>
          rw [he] at hf
          cases hf
        | ok r =>
          rw [he] at hf
          cases r with
          | false => exact hrest hf
          | true =>
            obtain rfl : first = sym := Option.some.inj (Except.ok.inj hf)
            exact ⟨i, c, .here, hp, hfirst.symm, hc, hx, (equal_ok he).1 rfl⟩
      · exact hrest hf

theorem find?_none {left : Budget} (hf : find? h hash chars left b = .ok none) (hw : h.Walks S b p)
    (hp : h.isPair (.ref p) = true) :
    ∃ c, h.cell (h.cellAt p).x = .ok c ∧ (c.x = hash → h.Differs chars c.y) := by
  fun_induction find? h hash chars left b with
  | case1 => cases hf
  | case3 n b hb =>
    cases hw with
    | here => exact absurd hp hb
    | next hb' => exact absurd hb' hb
  | case2 left b hb left' _ sym ih =>
    obtain ⟨i, rfl, -⟩ := isPair_iff.1 hb
    have hsym : sym = (h.cellAt i).x := car_eq hb
    cases hc : h.cell sym with
    | error f =>
      rw [hc] at hf
      cases hf
    | ok c =>
      rw [hc] at hf
      simp only [bind, Except.bind] at hf
      -- the pair at hand does not match, and the search went on
      have hstep : (c.x = hash → h.Differs chars c.y) ∧
          find? h hash chars left' (h.cdr (.ref i)) = .ok none := by
        split at hf
        · next hx =>
          cases he : h.equal chars c.y with
          | error f =>
            rw [he] at hf
            cases hf
          | ok r =>
            rw [he] at hf
            cases r with
            | true => cases hf
            | false =>
              exact ⟨fun _ => not_not.1 fun hd => Bool.noConfusion ((equal_ok he).2 hd), hf⟩
        · next hx => exact ⟨fun hx' => absurd hx' hx, hf⟩
      cases hw with
      | here => exact ⟨c, hsym ▸ hc, hstep.1⟩
      | next _ _ hw => exact ih hstep.2 hw

end SymbolTable

namespace Lexicon

structure Entry (S : Nat → Prop) (l : Lexicon) (k : Fin 256) (p s : Nat) : Prop where
  walks : l.heap.Walks S (l.table.buckets.get k) p
  isPair : l.heap.isPair (.ref p) = true
  unspoiled : ¬ S p
  symbol : (l.heap.cellAt p).x = .ref s

def Intact (S : Nat → Prop) (l : Lexicon) (s : Nat) : Prop :=
  ¬ S s ∧ ∀ i, l.heap.Touches (l.heap.cellAt s).y i → ¬ S i

/-- The cells that a table is made of: its chains, its symbols, and their spellings. -/
inductive Uses (S : Nat → Prop) (l : Lexicon) : Nat → Prop
  | chain {k : Fin 256} {i : Nat} : l.heap.Walks S (l.table.buckets.get k) i → Uses S l i
  | symbol {k : Fin 256} {p s : Nat} : l.Entry S k p s → Uses S l s
  | spelling {k : Fin 256} {p s i : Nat} : l.Entry S k p s → ¬ S s →
    l.heap.Touches (l.heap.cellAt s).y i →
      Uses S l i

/-- A table in order, as far as it was not spoiled. -/
structure Collates (S : Nat → Prop) (l : Lexicon) : Prop where
  lists : ∀ k p, l.heap.Walks S (l.table.buckets.get k) p → l.heap.isPair (.ref p) = true → ¬ S p →
    ∃ s, (l.heap.cellAt p).x = .ref s
  spelled : ∀ k p s, l.Entry S k p s → l.Intact S s → l.heap.isSymbol (.ref s) = true ∧
    ∃ crc, l.heap.checksum (l.heap.cellAt s).y = .ok crc ∧ (l.heap.cellAt s).x = .fix crc.toNat ∧
      SymbolTable.slot crc = k
  unique : ∀ k p s k' q t, l.Entry S k p s → l.Entry S k' q t → l.Intact S s → l.Intact S t →
    ¬ l.heap.Differs (l.heap.cellAt s).y (l.heap.cellAt t).y → p = q

theorem collates_empty (hnil : h.isPair .nil = false) : Collates S ⟨h, .empty⟩ := by
  have hb : ∀ k : Fin 256, SymbolTable.empty.buckets.get k = .nil := fun k => by
    simp [SymbolTable.empty, Vector.get]
  have hwalk : ∀ k p, h.Walks S (SymbolTable.empty.buckets.get k) p → h.isPair (.ref p) = true →
      False := by
    intro k p hw hp
    rw [hb k] at hw
    cases hw with
    | here => exact absurd hp (Bool.eq_false_iff.1 hnil)
    | next hp' => exact absurd hp' (Bool.eq_false_iff.1 hnil)
  exact ⟨fun k p hw hp => (hwalk k p hw hp).elim, fun k p s he =>
    (hwalk k p he.walks he.isPair).elim, fun k p s _ _ _ he => (hwalk k p he.walks he.isPair).elim⟩

section Frame

variable (hS : ∀ i, S i → S' i) (hsame : ∀ i, l.Uses S i → ¬ S' i → l.heap.SameAt h' i)

include hS hsame

theorem Entry.of_same (he : Entry S' ⟨h', l.table⟩ k p s) : l.Entry S k p s := by
  have hw : l.heap.Walks S (l.table.buckets.get k) p :=
    he.walks.of_same (fun j hj => hsame j (.chain hj)) hS
  have hp := hsame p (.chain hw) he.unspoiled
  exact ⟨hw, hp.isPair ▸ he.isPair, fun hs => he.unspoiled (hS p hs), hp.1 ▸ he.symbol⟩

theorem Intact.of_same (he : l.Entry S k p s) (hi : Intact S' ⟨h', l.table⟩ s) :
    l.heap.SameAt h' s ∧ l.heap.Reads h' (l.heap.cellAt s).y ∧ l.Intact S s := by
  have hs := hsame s (.symbol he) hi.1
  have hs' : ¬ S s := fun h => hi.1 (hS s h)
  have hi' := hi.2
  rw [hs.1] at hi'
  have hr : l.heap.Reads h' (l.heap.cellAt s).y :=
    reads_of_unspoiled (fun j hj => hsame j (.spelling he hs' hj)) hi'
  exact ⟨hs, hr, hs', fun i ht hSi => hi' i (hr.symm.touches ht) (hS i hSi)⟩

theorem Collates.of_same (hc : l.Collates S) (hsanity : h'.sanity = l.heap.sanity) :
    Collates S' ⟨h', l.table⟩ where
  lists k p hw hp hSp := by
    -- The order of a table depends only on its cells, and less is said of it when more is spoiled.
    have hw' : l.heap.Walks S (l.table.buckets.get k) p :=
      hw.of_same (fun j hj => hsame j (.chain hj)) hS
    have hp' := hsame p (.chain hw') hSp
    obtain ⟨s, hs⟩ := hc.lists k p hw' (hp'.isPair ▸ hp) fun h => hSp (hS p h)
    exact ⟨s, hp'.1 ▸ hs⟩
  spelled k p s he hi := by
    have he' := he.of_same hS hsame
    obtain ⟨hs, hr, hi'⟩ := hi.of_same hS hsame he'
    obtain ⟨hsym, crc, hcrc, hx, hk⟩ := hc.spelled k p s he' hi'
    exact ⟨hs.isSymbol.trans hsym, crc, by rw [hs.1, hr.checksum hsanity, hcrc], hs.1 ▸ hx, hk⟩
  unique k p s k' q t he he₂ hi hi₂ hd := by
    obtain ⟨hs, hr, hi'⟩ := hi.of_same hS hsame (he.of_same hS hsame)
    obtain ⟨ht, hr₂, hi₂'⟩ := hi₂.of_same hS hsame (he₂.of_same hS hsame)
    rw [hs.1, ht.1, hr.differs hr₂] at hd
    exact hc.unique k p s k' q t (he.of_same hS hsame) (he₂.of_same hS hsame) hi' hi₂' hd

end Frame

theorem Entry.reads (hsame : ∀ i, l.Uses S i → l.heap.SameAt h' i) (he : l.Entry S k p s)
    (hs : ¬ S s) :
    l.heap.Reads h' (l.heap.cellAt s).y := fun j hj => hsame j (.spelling he hs hj)

theorem Uses.of_same (hsame : ∀ i, l.Uses S i → l.heap.SameAt h' i) (hu : Uses S ⟨h', l.table⟩ i) :
    l.Uses S i := by
  cases hu with
  | chain hw => exact .chain (hw.of_same (fun j hj _ => hsame j (.chain hj)) fun _ => id)
  | symbol he => exact .symbol (he.of_same (fun _ => id) fun j hj _ => hsame j hj)
  | spelling he hs ht =>
    have he' := he.of_same (fun _ => id) fun j hj _ => hsame j hj
    dsimp only at ht
    rw [(hsame _ (.symbol he')).1] at ht
    exact .spelling he' hs ((he'.reads hsame hs).touches ht)

structure Files (l : Lexicon) (crc : UInt32) (chars : Word) (p s : Nat) : Prop where
  pair : l.heap.cellAt p = ⟨.pairT, .ref s, l.table.bucket crc, .undefined⟩
  isPair : l.heap.isPair (.ref p) = true
  cell : l.heap.cellAt s = ⟨.symbolT, .fix crc.toNat, chars, .undefined⟩
  isSymbol : l.heap.isSymbol (.ref s) = true
  checksum : l.heap.checksum chars = .ok crc

namespace Files

variable (hn : l.Files crc chars p s)

include hn

theorem walks (hw : l.heap.Walks S ((l.table.setBucket crc (.ref p)).buckets.get k) q) :
    k = SymbolTable.slot crc ∧ q = p ∨ l.heap.Walks S (l.table.buckets.get k) q := by
  rw [SymbolTable.get_setBucket] at hw
  split at hw
  · next hk =>
    subst hk
    cases hw with
    | here => exact .inl ⟨rfl, rfl⟩
    | next _ _ hw =>
      rw [cdr_eq hn.isPair, hn.pair] at hw
      exact .inr hw
  · exact .inr hw

theorem entry {l' : Lexicon} (hl : l' = { l with table := l.table.setBucket crc (.ref p) })
    (he : l'.Entry S k q t) : k = SymbolTable.slot crc ∧ q = p ∧ t = s ∨ l.Entry S k q t := by
  subst hl
  obtain ⟨hw, hp, hS, hx⟩ := he
  obtain ⟨rfl, rfl⟩ | hw := hn.walks hw
  · refine .inl ⟨rfl, rfl, ?_⟩
    dsimp only at hx
    rw [hn.pair] at hx
    exact (Word.ref.inj hx).symm
  · exact .inr ⟨hw, hp, hS, hx⟩

theorem collates (hc : l.Collates S)
    (hnew : ∀ q t, l.Entry S (SymbolTable.slot crc) q t → l.Intact S t →
      l.heap.Differs chars (l.heap.cellAt t).y) :
    Collates S { l with table := l.table.setBucket crc (.ref p) } := by
  have hy : (l.heap.cellAt s).y = chars := by rw [hn.cell]
  -- a symbol that is spelled the same would be in the same bucket, and was looked for there
  have hother : ∀ k q t, l.Entry S k q t → l.Intact S t →
      l.heap.Differs chars (l.heap.cellAt t).y := by
    intro k q t he hi
    by_contra hd
    obtain ⟨-, crc', hcrc, -, hk⟩ := hc.spelled k q t he hi
    have hsum := checksum_of_alike hd
    rw [hn.checksum, hcrc] at hsum
    cases hsum
    exact hd (hnew q t (hk ▸ he) hi)
  refine ⟨fun k q hw hq hSq => ?_, fun k q t he hi => ?_, fun k q t k' q' t' he he' hi hi' hd => ?_⟩
  · obtain ⟨-, rfl⟩ | hw := hn.walks hw
    · exact ⟨s, by dsimp only; rw [hn.pair]⟩
    · exact hc.lists k q hw hq hSq
  · obtain ⟨rfl, rfl, rfl⟩ | he := hn.entry rfl he
    · exact ⟨hn.isSymbol, crc, by dsimp only; rw [hy, hn.checksum],
        by dsimp only; rw [hn.cell], rfl⟩
    · exact hc.spelled k q t he hi
  · obtain ⟨-, rfl, rfl⟩ | hold := hn.entry rfl he <;> obtain ⟨-, rfl, rfl⟩ | hold' :=
      hn.entry rfl he'
    · rfl
    · dsimp only at hd
      rw [hy] at hd
      exact absurd (hother _ _ _ hold' hi') hd
    · dsimp only at hd
      rw [hy] at hd
      exact absurd (hother _ _ _ hold hi).symm hd
    · exact hc.unique _ _ _ _ _ _ hold hold' hi hi' hd

theorem entry_of_entry (he : l.Entry S k q t) (hp : ¬ S p) :
    Entry S { l with table := l.table.setBucket crc (.ref p) } k q t := by
  refine ⟨?_, he.isPair, he.unspoiled, he.symbol⟩
  dsimp only
  rw [SymbolTable.get_setBucket]
  split
  · next hk =>
    subst hk
    refine .next hn.isPair hp ?_
    rw [cdr_eq hn.isPair, hn.pair]
    exact he.walks
  · exact he.walks

theorem uses (hu : Uses S { l with table := l.table.setBucket crc (.ref p) } i) :
    i = p ∨ i = s ∨ l.heap.Touches chars i ∨ l.Uses S i := by
  cases hu with
  | chain hw =>
    obtain ⟨-, rfl⟩ | hw := hn.walks hw
    · exact .inl rfl
    · exact .inr (.inr (.inr (.chain hw)))
  | symbol he =>
    obtain ⟨-, -, rfl⟩ | he := hn.entry rfl he
    · exact .inr (.inl rfl)
    · exact .inr (.inr (.inr (.symbol he)))
  | spelling he hs ht =>
    obtain ⟨-, -, rfl⟩ | he := hn.entry rfl he
    · dsimp only at ht
      rw [hn.cell] at ht
      exact .inr (.inr (.inl ht))
    · exact .inr (.inr (.inr (.spelling he hs ht)))

end Files

/-- A list of characters was interned: its symbol was there, or a new one was made. -/
inductive Interns (l : Lexicon) (chars : Word) : Word → Lexicon → Prop
  | found {crc : UInt32} {sym : Word} : l.heap.checksum chars = .ok crc →
      SymbolTable.find? l.heap (.fix crc.toNat) chars (l.heap.budget "symbol lookup")
      (l.table.bucket crc) = .ok (some sym) →
      Interns l chars sym l
  | made {crc : UInt32} {p s : Nat} {h₁ h₂ : Heap} : l.heap.checksum chars = .ok crc →
      SymbolTable.find? l.heap (.fix crc.toNat) chars (l.heap.budget "symbol lookup")
      (l.table.bucket crc) = .ok none →
      l.heap.Takes s ⟨.symbolT, .fix crc.toNat, chars, .undefined⟩ h₁ →
      h₁.Takes p ⟨.pairT, .ref s, l.table.bucket crc, .undefined⟩ h₂ →
      l.heap.Reworks (fun _ => False) h₂ → h₂.inUse = l.heap.inUse + 2 →
      Interns l chars (.ref s) ⟨h₂, l.table.setBucket crc (.ref p)⟩

theorem onHeap_bind_ok {β : Type} {act : HeapM α} {k : α → LexiconM β} {a : α}
    (ha : act l.heap = .ok a h') :
    (onHeap act >>= k) l = k a ⟨h', l.table⟩ := by
  change EStateM.bind (onHeap act) k l = _
  unfold EStateM.bind onHeap
  dsimp only
  rw [ha]

theorem onHeap_bind_error {β : Type} {act : HeapM α} {k : α → LexiconM β}
    (ha : act l.heap = .error e h') : (onHeap act >>= k) l = .error e ⟨h', l.table⟩ := by
  change EStateM.bind (onHeap act) k l = _
  unfold EStateM.bind onHeap
  dsimp only
  rw [ha]

def lookUp (l : Lexicon) (chars : Word) : Except Fault (UInt32 × Option Word) := do
  let crc ← l.heap.checksum chars
  let sym ← SymbolTable.find? l.heap (.fix crc.toNat) chars (l.heap.budget "symbol lookup")
    (l.table.bucket crc)
  return (crc, sym)

theorem lookUp_ok {r : Option Word} (he : l.lookUp chars = .ok (crc, r)) :
    l.heap.checksum chars = .ok crc ∧
    SymbolTable.find? l.heap (.fix crc.toNat) chars (l.heap.budget "symbol lookup")
      (l.table.bucket crc) = .ok r := by
  unfold lookUp at he
  cases hc : l.heap.checksum chars with
  | error e =>
    rw [hc] at he
    cases he
  | ok crc' =>
    rw [hc] at he
    simp only [bind, Except.bind] at he
    split at he
    · cases he
    · next hfind =>
      cases he
      exact ⟨rfl, hfind⟩

theorem lookUp_eq {r : Option Word} (hc : l.heap.checksum chars = .ok crc)
    (hf : SymbolTable.find? l.heap (.fix crc.toNat) chars (l.heap.budget "symbol lookup")
      (l.table.bucket crc) = .ok r) :
    l.lookUp chars = .ok (crc, r) := by
  unfold lookUp
  rw [hc]
  change (SymbolTable.find? l.heap (.fix crc.toNat) chars (l.heap.budget "symbol lookup")
    (l.table.bucket crc) >>=
    fun sym => Except.ok (crc, sym)) = _
  rw [hf]
  rfl

theorem intern_error_of_lookUp (he : l.lookUp chars = .error e) : intern chars l = .error e l := by
  -- Interning looks the spelling up before anything is changed.
  unfold lookUp at he
  cases hc : l.heap.checksum chars with
  | error e' =>
    rw [hc] at he
    cases he
    exact onHeap_bind_error (query_error hc)
  | ok crc =>
    refine (onHeap_bind_ok (query_ok hc)).trans ?_
    rw [hc] at he
    simp only [bind, Except.bind] at he
    split at he
    · next hfind =>
      cases he
      exact onHeap_bind_error (query_error hfind)
    · cases he

theorem intern_of_some {sym : Word} (he : l.lookUp chars = .ok (crc, some sym)) :
    intern chars l = .ok sym l := by
  obtain ⟨hc, hfind⟩ := lookUp_ok he
  refine (onHeap_bind_ok (query_ok hc)).trans ?_
  exact onHeap_bind_ok
    (query_ok (f := fun h => SymbolTable.find? h _ chars (h.budget "symbol lookup") _) hfind)

theorem intern_of_none (he : l.lookUp chars = .ok (crc, none)) : intern chars l =
    (do
      let sym ← onHeap (alloc ⟨.symbolT, .fix crc.toNat, chars, .undefined⟩)
      let bucket ← onHeap (cons sym (l.table.bucket crc))
      modify fun l => { l with table := l.table.setBucket crc bucket }
      return sym : LexiconM Word) l := by
  obtain ⟨hc, hfind⟩ := lookUp_ok he
  refine (onHeap_bind_ok (query_ok hc)).trans ?_
  exact onHeap_bind_ok
    (query_ok (f := fun h => SymbolTable.find? h _ chars (h.budget "symbol lookup") _) hfind)

theorem intern_cases {free : List Nat} (hf : l.heap.FreeList free) (chars : Word) :
    (∃ v l', intern chars l = .ok v l' ∧ l.Interns chars v l') ∨
      ∃ e h', intern chars l = .error e ⟨h', l.table⟩ ∧ l.heap.Reworks (fun _ => False) h' ∧
        (l.heap.inUse + 2 ≤ l.heap.capacity → l.lookUp chars = .error e) := by
  cases hlook : l.lookUp chars with
  | error e => exact .inr ⟨e, l.heap, intern_error_of_lookUp hlook, .refl hf, fun _ => rfl⟩
  | ok r =>
    obtain ⟨crc, r⟩ := r
    obtain ⟨hc, hfind⟩ := lookUp_ok hlook
    cases r with
    | some sym => exact .inl ⟨sym, l, intern_of_some hlook, .found hc hfind⟩
    | none =>
      rw [intern_of_none hlook]
      cases ha : alloc ⟨.symbolT, .fix crc.toNat, chars, .undefined⟩ l.heap with
      | error e h₁ =>
        obtain ⟨hroom, -, rfl⟩ := hf.alloc_error_iff.1 ha
        exact .inr ⟨e, l.heap, onHeap_bind_error ha, .refl hf, fun _ => by omega⟩
      | ok v h₁ =>
        obtain ⟨s, rfl, hs, hre, huse⟩ := hf.taken (F := fun _ => False)
          (show Word.symbolT ≠ .freeT by decide) ha
        obtain ⟨free₁, hf₁⟩ := hre.allocator
        rw [onHeap_bind_ok ha]
        cases hb : cons (.ref s) (l.table.bucket crc) h₁ with
        | error e h₂ =>
          obtain ⟨hroom, -, rfl⟩ := hf₁.alloc_error_iff.1 hb
          have hcap := hre.capacity
          exact .inr ⟨e, h₂, onHeap_bind_error (l := ⟨h₂, l.table⟩) hb, hre, fun _ => by omega⟩
        | ok w h₂ =>
          obtain ⟨p, rfl, hp, hre₂, huse₂⟩ := hf₁.consed (F := fun _ => False) hb
          refine .inl ⟨.ref s, ⟨h₂, l.table.setBucket crc (.ref p)⟩, ?_, ?_⟩
          · exact onHeap_bind_ok (l := ⟨h₁, l.table⟩) hb
          · exact .made hc hfind hs hp (hre.trans hre₂ fun _ _ => id) (by omega)

theorem files_of_takes {h₂ : Heap}
    (hs : l.heap.Takes s ⟨.symbolT, .fix crc.toNat, chars, .undefined⟩ h₁)
    (hp : h₁.Takes p ⟨.pairT, .ref s, l.table.bucket crc, .undefined⟩ h₂)
    (hsum : h₂.checksum chars = .ok crc) :
    Files ⟨h₂, l.table⟩ crc chars p s := by
  have hlive : h₁.Live s := ⟨hs.lt_top, by rw [hs.self]; exact show Word.symbolT ≠ .freeT by decide⟩
  have hne : s ≠ p := fun e => hp.not_live (e ▸ hlive)
  have hcell : h₂.cellAt s = ⟨.symbolT, .fix crc.toNat, chars, .undefined⟩ := by
    rw [hp.ne hne, hs.self]
  have htop : s < h₂.top := Nat.lt_of_lt_of_le hs.lt_top hp.top_le
  exact ⟨hp.self, hp.isPair, hcell, hasType_iff.2 ⟨s, rfl, htop, by rw [hcell]⟩, hsum⟩

theorem Collates.interns (hc : l.Collates S) (hlive : ∀ i, l.Uses S i → ¬ S i → l.heap.Live i)
    (hchars : ∀ i, l.heap.Touches chars i → l.heap.Live i) (hi : l.Interns chars v l') :
    l'.Collates S := by
  cases hi with
  | found => exact hc
  | @made crc p s h₁ h₂ hsum hfind hs hp hre =>
    have hsame : ∀ i, l.Uses S i → ¬ S i → l.heap.SameAt h₂ i :=
      fun i hu hS => (hlive i hu hS).sameAt hre
    have hread : l.heap.Reads h₂ chars := fun i ht => (hchars i ht).sameAt hre
    have hfiles := files_of_takes hs hp ((hread.checksum hre.sanity).trans hsum)
    refine hfiles.collates (hc.of_same (fun _ => id) hsame hre.sanity) fun q t he hi => ?_
    have he' := he.of_same (fun _ => id) hsame
    obtain ⟨ht, hr, hi'⟩ := hi.of_same (fun _ => id) hsame he'
    obtain ⟨hsym, crc', hcrc, hx, -⟩ := hc.spelled _ q t he' hi'
    obtain ⟨c, hc', hd⟩ := SymbolTable.find?_none hfind he'.walks he'.isPair
    obtain ⟨_, ⟨⟩, htop', -⟩ := hasType_iff.1 hsym
    rw [he'.symbol, cell_ref htop'] at hc'
    cases hc'
    dsimp only
    rw [ht.1, hread.differs hr]
    by_contra hd'
    have hsum' := checksum_of_alike hd'
    rw [hsum, hcrc] at hsum'
    cases hsum'
    exact hd' (hd hx)

theorem Collates.intern {free : List Nat} (hc : l.Collates S) (hf : l.heap.FreeList free)
    (hlive : ∀ i, l.Uses S i → ¬ S i → l.heap.Live i)
    (hchars : ∀ i, l.heap.Touches chars i → l.heap.Live i) :
    (final (intern chars) l).Collates S := by
  unfold final
  obtain ⟨v, l', he, hi⟩ | ⟨e, h', he, hre, -⟩ := intern_cases hf chars
  · rw [he]
    exact hc.interns hlive hchars hi
  · rw [he]
    exact hc.of_same (fun _ => id) (fun i hu hS => (hlive i hu hS).sameAt hre) hre.sanity

end Lexicon

end ActorMachine
