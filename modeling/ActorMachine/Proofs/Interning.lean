import ActorMachine.Proofs.MarkSweep
import ActorMachine.Proofs.Spelling

namespace ActorMachine

open Heap

variable {h h' : Heap} {l l' : Lexicon} {b v w chars : Word} {k : Fin 256} {i p s : Nat}
  {ks ps : List Nat}

namespace Heap

theorem Changes.top_le (hc : h.Changes h') {free : List Nat} (hf : h.FreeList free) :
    h.top ≤ h'.top := by
  cases hc with
  | take ht he =>
    obtain ⟨i, -, htake, -⟩ := hf.alloc he ht
    exact htake.top_le
  | give he =>
    obtain ⟨-, -, -, rfl⟩ := free_ok he
    exact Nat.le_refl _
  | write _ _ he =>
    obtain ⟨i, -, -, hset⟩ := store_ok hf.top_le he
    exact Nat.le_of_eq hset.top.symm
  | sealCells he =>
    rw [sealCells_ok hf he]
    exact Nat.le_refl _

theorem Evolves.top_le (he : h.Evolves h') {free : List Nat} (hf : h.FreeList free) :
    h.top ≤ h'.top := by
  induction he with
  | refl => exact Nat.le_refl _
  | tail he hc ih =>
    obtain ⟨⟨free', hf'⟩, -⟩ := Evolves.endures he hf
    exact Nat.le_trans ih (hc.top_le hf')

theorem Reads.spells {name : String} (hr : h.Reads h' w) (hs : h.Spells w name) :
    h'.Spells w name := by
  obtain ⟨ks, hp, hv⟩ := hs
  have hsame : ∀ i ∈ ks, h.SameAt h' i := fun i hi => hr i (hp.touches_mem hi)
  refine ⟨ks, ⟨hp.1.congr fun i hi => by rw [(hsame i hi).1], fun i hi =>
    (hsame i hi).isPair.trans (hp.2 i hi)⟩, ?_⟩
  rw [← hv]
  exact List.map_congr_left fun i hi => by rw [(hsame i hi).1]

end Heap

namespace Lexicon

abbrev nowhere : Nat → Prop := fun _ => False

def Names (l : Lexicon) (name : String) (v : Word) : Prop :=
  ∃ k p s, v = .ref s ∧ l.Entry nowhere k p s ∧ l.heap.Spells (l.heap.cellAt s).y name

/-- A table of texts in order, with what was interned in it. -/
structure Orders (calls : List (String × Word)) (l : Lexicon) : Prop where
  allocator : ∃ free, l.heap.FreeList free
  budget : l.heap.capacity ≤ l.heap.sanity
  nil : l.heap.isPair .nil = false
  collates : l.Collates nowhere
  live : ∀ i, l.Uses nowhere i → l.heap.Live i
  chained : ∀ k, ∃ ps, l.heap.Pairs (l.table.buckets.get k) ps
  texts : ∀ k p s, l.Entry nowhere k p s → Word.reserved ≤ s ∧
  ∃ name, l.heap.Spells (l.heap.cellAt s).y name
  names : ∀ name v, (name, v) ∈ calls → l.Names name v

variable {calls : List (String × Word)} {name : String}

section Frame

variable (hsame : ∀ i, l.Uses nowhere i → l.heap.SameAt h' i)

include hsame

theorem Entry.to_same (he : l.Entry nowhere k p s) : Entry nowhere ⟨h', l.table⟩ k p s :=
  Entry.of_same (l := ⟨h', l.table⟩) (fun _ => id) (fun j hj _ =>
    (hsame j (Uses.of_same hsame hj)).symm) he

theorem Names.of_same (hn : l.Names name v) : Names ⟨h', l.table⟩ name v := by
  obtain ⟨k, p, s, rfl, he, hs⟩ := hn
  refine ⟨k, p, s, rfl, he.to_same hsame, ?_⟩
  dsimp only
  rw [(hsame s (.symbol he)).1]
  exact (he.reads hsame id).spells hs

theorem Orders.of_same (ho : l.Orders calls) (hfree : ∃ free, h'.FreeList free)
    (hcap : h'.capacity = l.heap.capacity) (hsanity : h'.sanity = l.heap.sanity) :
    Orders calls ⟨h', l.table⟩ where
  allocator := hfree
  budget := by
    dsimp only
    rw [hcap, hsanity]
    exact ho.budget
  nil := by
    obtain ⟨ps, hps⟩ := ho.chained 0
    exact (hsame 1 (.chain hps.walks_nil)).isPair.trans ho.nil
  collates := ho.collates.of_same (fun _ => id) (fun i hi _ => hsame i hi) hsanity
  live i hi := by
    have hi' := Uses.of_same hsame hi
    obtain ⟨hcell, htop⟩ := hsame i hi'
    have hlive := ho.live i hi'
    exact ⟨htop.2 hlive.1, by dsimp only; rw [hcell]; exact hlive.2⟩
  chained k := by
    obtain ⟨ps, hps⟩ := ho.chained k
    have hs : ∀ i ∈ ps, l.heap.SameAt h' i := fun i hi => hsame i (.chain (hps.walks_mem hi))
    exact ⟨ps, hps.1.congr fun i hi => by rw [(hs i hi).1], fun i hi =>
      (hs i hi).isPair.trans (hps.2 i hi)⟩
  texts k p s he := by
    have he' := he.of_same (fun _ => id) fun j hj _ => hsame j hj
    obtain ⟨hs, name, hn⟩ := ho.texts k p s he'
    refine ⟨hs, name, ?_⟩
    dsimp only
    rw [(hsame s (.symbol he')).1]
    exact (he'.reads hsame id).spells hn
  names name v hv := (ho.names name v hv).of_same hsame

end Frame

namespace Orders

theorem of_reworks (ho : l.Orders calls) (hr : l.heap.Reworks (fun _ => False) h') :
    Orders calls ⟨h', l.table⟩ :=
  ho.of_same (fun i hi => (ho.live i hi).sameAt hr) hr.allocator hr.capacity hr.sanity

theorem new (capacity : Nat) : Orders [] ⟨Heap.new capacity, .empty⟩ := by
  have hb : ∀ k : Fin 256, SymbolTable.empty.buckets.get k = .nil := fun k => by
    simp [SymbolTable.empty, Vector.get]
  have hcell : (Heap.new capacity).cellAt 1 = .blank := by
    have hlt : 1 < max capacity (Word.reserved + 1) :=
      Nat.lt_of_lt_of_le (by decide) (Nat.le_max_right ..)
    simp [cellAt, Heap.new, Array.getD_eq_getD_getElem?, hlt, Cell.initial, Word.index]
  have hnil : (Heap.new capacity).isPair .nil = false := by
    refine Bool.eq_false_iff.2 fun hp => ?_
    obtain ⟨i, hi, -, ht⟩ := isPair_iff.1 hp
    cases hi
    rw [hcell] at ht
    cases ht
  have hwalk : ∀ k i, (Heap.new capacity).Walks nowhere (SymbolTable.empty.buckets.get k) i →
      i = 1 := by
    intro k i hw
    rw [hb k] at hw
    cases hw with
    | here => rfl
    | next hp => exact absurd hp (Bool.eq_false_iff.1 hnil)
  have hentry : ∀ k p s, ¬ Entry nowhere ⟨Heap.new capacity, .empty⟩ k p s := by
    intro k p s he
    obtain rfl := hwalk k p he.walks
    exact absurd he.isPair (Bool.eq_false_iff.1 hnil)
  refine ⟨⟨[], freeList_new capacity (Heap.new capacity).sanity⟩, ?_, hnil, collates_empty hnil,
    fun i hi => ?_, fun k => ⟨[], hb k, by simp⟩, fun k p s he => (hentry k p s he).elim, by simp⟩
  · simp [Heap.capacity, Heap.new]
  · cases hi with
    | chain hw =>
      obtain rfl := hwalk _ i hw
      refine ⟨show 1 < Word.reserved by decide, ?_⟩
      dsimp only
      rw [hcell]
      decide
    | symbol he => exact (hentry _ _ _ he).elim
    | spelling he => exact (hentry _ _ _ he).elim

theorem top_le_sanity (ho : l.Orders calls) : l.heap.top ≤ l.heap.sanity := by
  obtain ⟨free, hf⟩ := ho.allocator
  exact Nat.le_trans hf.top_le ho.budget

theorem names_inj (ho : l.Orders calls) (hv : l.Names name v) (hw : l.Names name w) : v = w := by
  obtain ⟨k, p, s, rfl, he, hs⟩ := hv
  obtain ⟨k', q, t, rfl, he', ht⟩ := hw
  have hd := (hs.differs_iff ho.nil ht).not.2 (not_not.2 rfl)
  obtain rfl := ho.collates.unique k p s k' q t he he' ⟨id, fun _ _ => id⟩ ⟨id, fun _ _ => id⟩ hd
  exact he.symbol.symm.trans he'.symbol

theorem names_unique {other : String} (hv : l.Names name v) (hw : l.Names other v) :
    name = other := by
  obtain ⟨k, p, s, rfl, he, hs⟩ := hv
  obtain ⟨k', q, t, ⟨⟩, he', ht⟩ := hw
  exact Text.codes_injective (Lists.unique hs ht)

section Orders

variable (ho : l.Orders calls)

include ho

theorem live_of_touches (hs : l.heap.Spells chars name) (ht : l.heap.Touches chars i) :
    l.heap.Live i := by
  obtain ⟨hp, -⟩ | hi := hs.touches ho.nil ht
  · exact live_of_isPair hp
  · cases hi
    obtain ⟨ps, hps⟩ := ho.chained 0
    exact ho.live 1 (.chain hps.walks_nil)

theorem lookUp (hs : l.heap.Spells chars name) :
    ∃ r, l.lookUp chars = .ok (Text.checksum name, r) ∧ (∀ sym, r = some sym → l.Names name sym) ∧
      (r = none → ∀ v, ¬ l.Names name v) := by
  have hcrc := hs.checksum ho.nil ho.top_le_sanity
  -- every symbol of the bucket has a spelling that can be compared
  have hsym : ∀ p, l.heap.Walks nowhere (l.table.bucket (Text.checksum name)) p →
    l.heap.isPair (.ref p) = true →
      ∃ s other, l.Entry nowhere (SymbolTable.slot (Text.checksum name)) p s ∧ s < l.heap.top ∧
        l.heap.Spells (l.heap.cellAt s).y other := by
    intro p hw hp
    obtain ⟨s, hx⟩ := ho.collates.lists _ p hw hp id
    have he : l.Entry nowhere _ p s := ⟨hw, hp, id, hx⟩
    obtain ⟨-, other, hother⟩ := ho.texts _ p s he
    exact ⟨s, other, he, (ho.live s (.symbol he)).1, hother⟩
  obtain ⟨ps, hps⟩ := ho.chained (SymbolTable.slot (Text.checksum name))
  obtain ⟨r, hr⟩ : ∃ r, SymbolTable.find? l.heap (.fix (Text.checksum name).toNat) chars
    (l.heap.budget "symbol lookup")
      (l.table.buckets.get (SymbolTable.slot (Text.checksum name))) = .ok r :=
    SymbolTable.find?_isOk ho.nil hps (Nat.le_trans hps.length_le ho.top_le_sanity) fun p hp => by
      obtain ⟨s, other, he, hlt, hother⟩ := hsym p (hps.walks_mem hp) (hps.2 p hp)
      exact ⟨s, he.symbol, hlt, hs.equal_isOk ho.nil ho.top_le_sanity hother⟩
  refine ⟨r, ?_, fun sym he => ?_, fun he v hv => ?_⟩
  · exact lookUp_eq hcrc hr
  · subst he
    obtain ⟨p, c, hw, hp, hx, hc, -, hd⟩ := SymbolTable.find?_some hr
    obtain ⟨s, other, he, hlt, hother⟩ := hsym p hw hp
    rw [he.symbol] at hx
    subst hx
    rw [cell_ref hlt] at hc
    cases hc
    rw [hs.differs_iff ho.nil hother, not_not] at hd
    subst hd
    exact ⟨_, p, s, rfl, he, hother⟩
  · subst he
    obtain ⟨k, p, s, rfl, he, hn⟩ := hv
    obtain ⟨-, crc, hcrc', hx, rfl⟩ := ho.collates.spelled k p s he ⟨id, fun _ _ => id⟩
    rw [hn.checksum ho.nil ho.top_le_sanity] at hcrc'
    cases hcrc'
    obtain ⟨c, hc, hd⟩ := SymbolTable.find?_none hr he.walks he.isPair
    rw [he.symbol, cell_ref (ho.live s (.symbol he)).1] at hc
    cases hc
    exact (hs.differs_iff ho.nil hn).1 (hd hx) rfl

theorem file {crc : UInt32} (hn : l.Files crc chars p s) (hs : l.heap.Spells chars name)
    (hc : Collates nowhere { l with table := l.table.setBucket crc (.ref p) })
    (hp : Word.reserved ≤ p)
    (hres : Word.reserved ≤ s) :
    Orders ((name, .ref s) :: calls) { l with table := l.table.setBucket crc (.ref p) } where
  allocator := ho.allocator
  budget := ho.budget
  nil := ho.nil
  collates := hc
  live i hi := by
    obtain rfl | rfl | ht | hu := hn.uses hi
    · exact live_of_isPair hn.isPair
    · obtain ⟨_, ⟨⟩, hlt, ht⟩ := hasType_iff.1 hn.isSymbol
      exact ⟨hlt, by dsimp only; rw [ht]; decide⟩
    · exact ho.live_of_touches hs ht
    · exact ho.live i hu
  chained k := by
    obtain ⟨ps, hps⟩ := ho.chained k
    dsimp only
    rw [SymbolTable.get_setBucket]
    split
    · next hk =>
      subst hk
      refine ⟨p :: ps, ⟨rfl, hp, ?_⟩, List.forall_mem_cons.2 ⟨hn.isPair, hps.2⟩⟩
      rw [hn.pair]
      exact hps.1
    · exact ⟨ps, hps⟩
  texts k q t he := by
    obtain ⟨-, -, rfl⟩ | he := hn.entry rfl he
    · exact ⟨hres, name, by dsimp only; rw [hn.cell]; exact hs⟩
    · exact ho.texts k q t he
  names other v hv := by
    obtain hv | hv := List.mem_cons.1 hv
    · cases hv
      refine ⟨SymbolTable.slot crc, p, s, rfl, ⟨?_, hn.isPair, id, by dsimp only; rw [hn.pair]⟩, ?_⟩
      · dsimp only
        rw [SymbolTable.get_setBucket, if_pos rfl]
        exact .here
      · dsimp only
        rw [hn.cell]
        exact hs
    · obtain ⟨k, q, t, rfl, he, ht⟩ := ho.names other v hv
      exact ⟨k, q, t, rfl, hn.entry_of_entry he id, ht⟩

theorem names_of_reworks (hr : l.heap.Reworks (fun _ => False) h') :
    Names ⟨h', l.table⟩ name v ↔ l.Names name v := by
  have hsame : ∀ i, l.Uses nowhere i → l.heap.SameAt h' i := fun i hi => (ho.live i hi).sameAt hr
  exact ⟨fun hn => Names.of_same (l := ⟨h', l.table⟩) (fun i hi =>
    (hsame i (Uses.of_same hsame hi)).symm) hn, fun hn => hn.of_same hsame⟩

theorem release (hlays : l.heap.Lays (Text.codes name) chars ks h')
    (hv : l.Names name v) : ∃ h'', (onHeap (fetch v .y) >>= fun y => do
      if y ≠ chars then onHeap (freeSpine chars)
      return v : LexiconM Word) ⟨h', l.table⟩ = .ok v ⟨h'', l.table⟩ ∧
        l.heap.Reworks (fun _ => False) h'' ∧ h''.inUse = l.heap.inUse := by
  have ho' := ho.of_reworks hlays.reworks
  obtain ⟨free, hf⟩ := ho'.allocator
  obtain ⟨k, p, s, rfl, he, ts, hts, hcodes⟩ := hv
  have hs := hlays.reworks.same s (ho.live s (.symbol he)) id
  have hlt := (hlays.reworks.live (ho.live s (.symbol he)) id).1
  have hfetch : fetch (.ref s) .y h' = .ok (l.heap.cellAt s).y h' := by
    refine query_ok ((field_ref hlt .y).trans ?_)
    rw [hs]
    rfl
  rw [onHeap_bind_ok (l := ⟨h', l.table⟩) hfetch]
  have hlen : ks.length = (Text.codes name).length := by rw [← hlays.values, List.length_map]
  have huse := hlays.inUse
  split
  · obtain ⟨h'', hfree, hre, huse'⟩ := hlays.pairs.freeSpine hf ho'.nil
      (fun k hk => by rw [hlays.reworks.permanent]; exact (hlays.fresh k hk).2)
      (Nat.le_trans hlays.pairs.length_le ho'.top_le_sanity)
    refine ⟨h'', onHeap_bind_ok (l := ⟨h', l.table⟩) hfree, ?_, by omega⟩
    exact hlays.reworks.trans hre fun i hi hk => (hlays.fresh i hk).1 hi
  · next hy =>
    -- only the empty text is the same list every time
    have hks : ks = [] := by
      refine List.eq_nil_iff_forall_not_mem.2 fun i hi => (hlays.fresh i hi).1 ?_
      have hpairs := hlays.reworks.pairs hts fun _ _ => id
      rw [not_not.1 hy] at hpairs
      rw [hlays.pairs.1.unique hpairs.1] at hi
      exact live_of_isPair (hts.2 i hi)
    rw [hks, List.length_nil] at hlen
    exact ⟨h', rfl, hlays.reworks, by omega⟩

theorem interns {crc : UInt32} (hs : l.heap.Spells chars name)
    (hlook : l.lookUp chars = .ok (crc, none)) (hi : l.Interns chars v l') :
    l'.Orders ((name, v) :: calls) ∧ fetch v .y l'.heap = .ok chars l'.heap := by
  have hc := ho.collates.interns (fun i hu _ => ho.live i hu) (fun i ht =>
    ho.live_of_touches hs ht) hi
  cases hi with
  | found hcrc hfind => cases hlook.symm.trans (lookUp_eq hcrc hfind)
  | @made crc p s h₁ h₂ hcrc _ htake hpair hre =>
    have hread : l.heap.Reads h₂ chars := fun i ht => (ho.live_of_touches hs ht).sameAt hre
    have hfiles := files_of_takes htake hpair ((hread.checksum hre.sanity).trans hcrc)
    obtain ⟨free, hf⟩ := ho.allocator
    have hres : Word.reserved ≤ s := Nat.le_trans hf.reserved_le htake.permanent_le
    have hperm := Nat.le_trans hf.reserved_le (htake.permanent ▸ hpair.permanent_le)
    refine ⟨(ho.of_reworks hre).file hfiles (hread.spells hs) hc hperm hres, ?_⟩
    obtain ⟨_, ⟨⟩, hlt, -⟩ := hasType_iff.1 hfiles.isSymbol
    refine query_ok ((field_ref hlt .y).trans ?_)
    rw [hfiles.cell]
    rfl

theorem internText_cases (name : String) :
    (∃ v h', internText name l = .ok v ⟨h', l.table⟩ ∧ l.Names name v ∧
      l.heap.Reworks (fun _ => False) h' ∧
      h'.inUse = l.heap.inUse) ∨
    (∃ v l', internText name l = .ok v l' ∧ (∀ w, ¬ l.Names name w) ∧
      l'.Orders ((name, v) :: calls)) ∨
    ∃ e h', internText name l = .error e ⟨h', l.table⟩ ∧ l.heap.Reworks (fun _ => False) h' ∧
      l.heap.capacity < l.heap.inUse + name.length + 2 ∧
      ∀ w, l.Names name w → l.heap.capacity < l.heap.inUse + name.length := by
  obtain ⟨free, hf⟩ := ho.allocator
  change (∃ v h', (onHeap (ofText name) >>= _) l = _ ∧ _) ∨
    (∃ v l', (onHeap (ofText name) >>= _) l = _ ∧ _) ∨
    ∃ e h', (onHeap (ofText name) >>= _) l = _ ∧ _
  cases hmake : ofText name l.heap with
  | error e h' =>
    have hre := hf.reworks_ofItems (F := fun _ => False) (Text.codes name)
    unfold final at hre
    rw [show ofItems (Text.codes name) l.heap = _ from hmake] at hre
    have hroom : l.heap.capacity < l.heap.inUse + name.length := by
      by_contra hroom
      obtain ⟨v, h'', hok⟩ : ∃ v h'', ofItems (Text.codes name) l.heap = .ok v h'' :=
        hf.ofItems_isOk (by rw [Text.length_codes]; omega)
      cases (show ofItems (Text.codes name) l.heap = _ from hmake).symm.trans hok
    exact .inr (.inr ⟨e, h', onHeap_bind_error hmake, hre, by omega, fun _ _ => hroom⟩)
  | ok chars h₁ =>
    obtain ⟨ks, hlays⟩ := hf.lays (show ofItems (Text.codes name) l.heap = _ from hmake)
    rw [onHeap_bind_ok hmake]
    have ho₁ := ho.of_reworks hlays.reworks
    obtain ⟨free₁, hf₁⟩ := ho₁.allocator
    have hs : h₁.Spells chars name := ⟨ks, hlays.pairs, hlays.values⟩
    have huse := hlays.inUse
    rw [Text.length_codes] at huse
    obtain ⟨r, hlook, hsome, hnone⟩ := ho₁.lookUp hs
    cases r with
    | some sym =>
      have hv := (ho.names_of_reworks hlays.reworks).1 (hsome sym rfl)
      obtain ⟨h', hrun, hre, huse'⟩ := ho.release hlays hv
      refine .inl ⟨sym, h', ?_, hv, hre, huse'⟩
      change EStateM.bind (intern chars) _ _ = _
      unfold EStateM.bind
      rw [intern_of_some hlook]
      exact hrun
    | none =>
      have hnew : ∀ w, ¬ l.Names name w := fun w hw =>
        hnone rfl w ((ho.names_of_reworks hlays.reworks).2 hw)
      obtain ⟨v, l', hok, hint⟩ | ⟨e, h', herr, hre, hroom⟩ := intern_cases hf₁ chars
      · obtain ⟨ho', hfetch⟩ := ho₁.interns hs hlook hint
        refine .inr (.inl ⟨v, l', ?_, hnew, ho'⟩)
        change EStateM.bind (intern chars) _ _ = _
        unfold EStateM.bind
        rw [hok]
        refine (onHeap_bind_ok hfetch).trans ?_
        rw [if_neg (not_not.2 rfl)]
        rfl
      · refine .inr (.inr ⟨e, h', ?_, hlays.reworks.trans hre fun _ _ => id, ?_, fun w hw =>
          absurd hw (hnew w)⟩)
        · change EStateM.bind (intern chars) _ _ = _
          unfold EStateM.bind
          rw [herr]
        · have hcap := hlays.reworks.capacity
          have : ¬ h₁.inUse + 2 ≤ h₁.capacity := fun hr => by
            cases hlook.symm.trans (hroom hr)
          omega

end Orders

section Reach

variable {roots : Roots} (hroots : roots.symbols = l.table.buckets.toArray)

include hroots

theorem reach_pair (ho : l.Orders calls) (hw : l.heap.Walks nowhere (l.table.buckets.get k) p)
    (hp : l.heap.isPair (.ref p) = true) : l.heap.Reach roots p := by
  obtain ⟨ps, hps⟩ := ho.chained k
  have hroot : l.table.buckets.get k ∈ roots.words := by
    unfold Roots.words
    rw [hroots]
    exact List.mem_append_left _ (by simp [Vector.get])
  obtain hmem | hnil := hps.walks ho.nil hw
  · exact hps.reach (fun i hl => .root hroot hl) p hmem
  · rw [hnil, ho.nil] at hp
    cases hp

theorem reach_symbol (ho : l.Orders calls) (he : l.Entry nowhere k p s) : l.heap.Reach roots s := by
  refine .field (ho.reach_pair hroots he.walks he.isPair) (w := .ref s) ?_
    ⟨.inl rfl, (ho.texts k p s he).1, ho.live s (.symbol he)⟩
  rw [← he.symbol]
  simp [Cell.words]

theorem reach (ho : l.Orders calls) (hu : l.Uses nowhere i) :
    i < l.heap.permanent ∨ l.heap.Reach roots i := by
  obtain ⟨free, hf⟩ := ho.allocator
  have hnil : Word.ref i = Word.nil → i < l.heap.permanent := fun hi => by
    cases hi
    exact Nat.lt_of_lt_of_le (by decide) hf.reserved_le
  cases hu with
  | @chain k _ hw =>
    obtain ⟨ps, hps⟩ := ho.chained k
    obtain hmem | hi := hps.walks ho.nil hw
    · exact .inr (ho.reach_pair hroots hw (hps.2 i hmem))
    · exact .inl (hnil hi)
  | symbol he => exact .inr (ho.reach_symbol hroots he)
  | @spelling k p s _ he _ ht =>
    obtain ⟨-, name, ks, hks, hcodes⟩ := ho.texts k p s he
    have hflat : ∀ j ∈ ks, (l.heap.cellAt j).x.isFixnum = true := fun j hj =>
      Text.isFixnum_codes name _ (hcodes ▸ List.mem_map.2 ⟨j, hj, rfl⟩)
    obtain hmem | hi := hks.touches ho.nil hflat ht
    · have hs := ho.reach_symbol hroots he
      exact .inr (hks.reach (fun i hl => .field hs (by simp [Cell.words]) hl) i hmem)
    · exact .inl (hnil hi)

end Reach

theorem collect (ho : l.Orders calls) (gc : MarkSweep) (dump : Bool) {roots : Roots}
    (hroots : roots.symbols = l.table.buckets.toArray) :
    Orders calls ⟨(gc.markAndSweep roots dump l.heap).2.heap, l.table⟩ := by
  obtain ⟨free, hf⟩ := ho.allocator
  have hswept := MarkSweep.swept_markAndSweep gc roots dump hf
  refine ho.of_same (fun i hi => ⟨?_, ?_⟩) ⟨_,
    MarkSweep.freeList_markAndSweep gc roots dump hf⟩ hswept.capacity
    (MarkSweep.sanity_markAndSweep gc roots dump)
  · exact MarkSweep.kept_markAndSweep gc roots dump hf ((ho.reach hroots hi).imp_right .inr)
  · rw [hswept.top]
    rfl

theorem request (ho : l.Orders calls) (r : Request) (hr : r.Lawful l.heap)
    (hsame : ∀ i, l.Uses nowhere i → (final r.run l.heap).cellAt i = l.heap.cellAt i) :
    Orders calls ⟨final r.run l.heap, l.table⟩ := by
  obtain ⟨free, hf⟩ := ho.allocator
  have hev := r.evolves hr hf
  obtain ⟨hfree, hend⟩ := hev.endures hf
  refine ho.of_same (fun i hi => ⟨hsame i hi, ?_⟩) hfree hend.capacity hend.sanity
  have hlt := (ho.live i hi).1
  exact iff_of_true (Nat.lt_of_lt_of_le hlt (hev.top_le hf)) hlt

end Orders

/-- Texts were interned in a new table. In between, cells were taken, what does not belong to the
table was changed, and garbage was collected. -/
inductive Named (capacity : Nat) : List (String × Word) → Lexicon → Prop
  | new : Named capacity [] ⟨Heap.new capacity, .empty⟩
  | intern {calls : List (String × Word)} {l l' : Lexicon} {name : String} {v : Word} :
    Named capacity calls l →
      internText name l = .ok v l' → Named capacity ((name, v) :: calls) l'
  | failed {calls : List (String × Word)} {l l' : Lexicon} {name : String} {e : Fault} :
    Named capacity calls l →
      internText name l = .error e l' → Named capacity calls l'
  | alloc {calls : List (String × Word)} {l : Lexicon} (c : Cell) : Named capacity calls l →
    c.t ≠ .freeT →
      Named capacity calls ⟨final (alloc c) l.heap, l.table⟩
  | request {calls : List (String × Word)} {l : Lexicon} (r : Request) : Named capacity calls l →
    r.Lawful l.heap →
      (∀ i, l.Uses nowhere i → (final r.run l.heap).cellAt i = l.heap.cellAt i) →
      Named capacity calls ⟨final r.run l.heap, l.table⟩
  | collect {calls : List (String × Word)} {l : Lexicon} (gc : MarkSweep) (roots : Roots)
    (dump : Bool) :
      Named capacity calls l → roots.symbols = l.table.buckets.toArray →
      Named capacity calls ⟨(gc.markAndSweep roots dump l.heap).2.heap, l.table⟩

theorem Named.orders {capacity : Nat} (hl : Named capacity calls l) : l.Orders calls := by
  induction hl with
  | new => exact .new capacity
  | @intern calls l l' name v _ he ih =>
    obtain ⟨w, h', hok, hn, hre, -⟩ | ⟨w, l₁, hok, -, ho⟩ | ⟨e, h', herr, -⟩ :=
      ih.internText_cases name
    · cases he.symm.trans hok
      have ho := ih.of_reworks hre
      refine { ho with names := fun other u hu => ?_ }
      obtain hu | hu := List.mem_cons.1 hu
      · cases hu
        exact (ih.names_of_reworks hre).2 hn
      · exact ho.names other u hu
    · cases he.symm.trans hok
      exact ho
    · cases he.symm.trans herr
  | @failed calls l l' name e _ he ih =>
    obtain ⟨w, h', hok, -⟩ | ⟨w, l₁, hok, -⟩ | ⟨e, h', herr, hre, -⟩ := ih.internText_cases name
    · cases he.symm.trans hok
    · cases he.symm.trans hok
    · cases he.symm.trans herr
      exact ih.of_reworks hre
  | @alloc calls l c _ hc ih =>
    obtain ⟨free, hf⟩ := ih.allocator
    refine ih.of_reworks ?_
    unfold final
    cases he : Heap.alloc c l.heap with
    | ok v h' => exact (hf.taken hc he).choose_spec.2.2.1
    | error e h' =>
      rw [(alloc_error he).2.2.2]
      exact .refl hf
  | request r _ hr hsame ih => exact ih.request r hr hsame
  | collect gc roots dump _ hroots ih => exact ih.collect gc dump hroots

namespace Orders

theorem items (ho : l.Orders calls) (hp : l.heap.Pairs b ps) :
    l.heap.items b = .ok (ps.map fun p => (l.heap.cellAt p).x) := by
  unfold Heap.items
  rw [hp.spine_ok ho.nil (Nat.le_trans hp.length_le ho.top_le_sanity)]
  change Except.ok ((ps.map Word.ref).map l.heap.car) = _
  rw [List.map_map]
  exact congrArg Except.ok (List.map_congr_left fun p hmem => car_eq (hp.2 p hmem))

theorem count (ho : l.Orders calls) (hv : l.Names name v)
    (hp : l.heap.Pairs (l.table.buckets.get k) ps) :
    (ps.map fun p => (l.heap.cellAt p).x).count v =
      if k = SymbolTable.slot (Text.checksum name) then 1 else 0 := by
  obtain ⟨k', p, s, rfl, he, hs⟩ := hv
  have hwhole : l.Intact nowhere s := ⟨id, fun _ _ => id⟩
  have hslot : ∀ k q, l.Entry nowhere k q s → SymbolTable.slot (Text.checksum name) = k ∧
      q = p := by
    intro k q he'
    obtain ⟨-, crc, hcrc, -, hk⟩ := ho.collates.spelled k q s he' hwhole
    rw [hs.checksum ho.nil ho.top_le_sanity] at hcrc
    cases hcrc
    exact ⟨hk, ho.collates.unique k q s k' p s he' he hwhole hwhole (not_differs_self _)⟩
  have hentry : ∀ q ∈ ps, (l.heap.cellAt q).x = .ref s → l.Entry nowhere k q s := fun q hq hx =>
    ⟨hp.walks_mem hq, hp.2 q hq, id, hx⟩
  split
  · next hk =>
    obtain ⟨rfl, -⟩ := hslot k' p he
    subst hk
    have hmem : p ∈ ps := (hp.walks ho.nil he.walks).resolve_right fun e => by
      have := he.isPair
      rw [e, ho.nil] at this
      cases this
    rw [List.count, List.countP_map, ← List.count_eq_one_of_mem hp.1.nodup hmem, List.count]
    refine List.countP_congr fun q hq => ?_
    simp only [Function.comp_apply, beq_iff_eq]
    exact ⟨fun hx => (hslot _ q (hentry q hq hx)).2, fun e => e ▸ he.symbol⟩
  · next hk =>
    refine List.count_eq_zero.2 fun hmem => ?_
    obtain ⟨q, hq, hx⟩ := List.mem_map.1 hmem
    exact hk (hslot k q (hentry q hq hx)).1.symm

theorem symbolName (ho : l.Orders calls) (hv : l.Names name v) : l.heap.isSymbol v = true ∧
    l.heap.field v .x = .ok (.fix (Text.checksum name).toNat) ∧ l.heap.symbolName v = .ok name := by
  obtain ⟨k, p, s, rfl, he, hs⟩ := hv
  obtain ⟨hsym, crc, hcrc, hx, -⟩ := ho.collates.spelled k p s he ⟨id, fun _ _ => id⟩
  rw [hs.checksum ho.nil ho.top_le_sanity] at hcrc
  cases hcrc
  have hlt := (ho.live s (.symbol he)).1
  refine ⟨hsym, (field_ref hlt .x).trans (congrArg _ hx), ?_⟩
  unfold symbolName
  rw [field_ref hlt]
  exact hs.toText ho.nil ho.top_le_sanity

end Orders

/-- Spellings and symbols are in bijection: texts that were interned at any time have the same
symbol if they are the same. The symbol holds the checksum of its text, it is listed once, in the
bucket of this checksum, and it is read as this text. To intern the text once more gives the same
symbol and changes nothing. It succeeds if there is room for the text, and any other text is
interned if there is room for a symbol, too. -/
theorem Named.bijective {capacity : Nat} (hl : Named capacity calls l) :
    (∀ name v other w, (name, v) ∈ calls → (other, w) ∈ calls → (v = w ↔ name = other)) ∧
    (∀ name v, (name, v) ∈ calls →
      l.heap.isSymbol v = true ∧ l.heap.field v .x = .ok (.fix (Text.checksum name).toNat) ∧
      l.heap.symbolName v = .ok name ∧
      (∀ k, ∃ syms, l.heap.items (l.table.buckets.get k) = .ok syms ∧
        syms.count v = if k = SymbolTable.slot (Text.checksum name) then 1 else 0) ∧
      (∀ w l', internText name l = .ok w l' → w = v ∧ l'.table = l.table ∧
        l'.heap.inUse = l.heap.inUse ∧
        ∀ i, l.heap.Live i → l'.heap.cellAt i = l.heap.cellAt i) ∧
      (l.heap.inUse + name.length ≤ l.heap.capacity → ∃ l', internText name l = .ok v l')) ∧
    ∀ name, l.heap.inUse + name.length + 2 ≤ l.heap.capacity →
      ∃ v l', internText name l = .ok v l' := by
  have ho := hl.orders
  have hagain : ∀ name v, (name, v) ∈ calls → ∀ w l', internText name l = .ok w l' → w = v ∧
    l'.table = l.table ∧
      l'.heap.inUse = l.heap.inUse ∧ ∀ i, l.heap.Live i → l'.heap.cellAt i = l.heap.cellAt i := by
    intro name v hv w l' he
    obtain ⟨u, h', hok, hn, hre, huse⟩ | ⟨u, l₁, -, hnew, -⟩ | ⟨e, h', herr, -⟩ :=
      ho.internText_cases name
    · cases he.symm.trans hok
      exact ⟨ho.names_inj hn (ho.names name v hv), rfl, huse, fun i hi => hre.same i hi id⟩
    · exact absurd (ho.names name v hv) (hnew v)
    · cases he.symm.trans herr
  refine ⟨fun name v other w hv hw => ⟨?_, ?_⟩, fun name v hv => ?_, fun name hroom => ?_⟩
  · rintro rfl
    exact Orders.names_unique (ho.names name v hv) (ho.names other v hw)
  · rintro rfl
    exact ho.names_inj (ho.names name v hv) (ho.names name w hw)
  · obtain ⟨hsym, hx, hname⟩ := ho.symbolName (ho.names name v hv)
    refine ⟨hsym, hx, hname, fun k => ?_, hagain name v hv, fun hroom => ?_⟩
    · obtain ⟨ps, hps⟩ := ho.chained k
      exact ⟨_, ho.items hps, ho.count (ho.names name v hv) hps⟩
    · obtain ⟨u, h', hok, -⟩ | ⟨u, l₁, -, hnew, -⟩ | ⟨e, h', -, -, -, hfull⟩ :=
        ho.internText_cases name
      · obtain ⟨rfl, -⟩ := hagain name v hv u _ hok
        exact ⟨_, hok⟩
      · exact absurd (ho.names name v hv) (hnew v)
      · have := hfull v (ho.names name v hv)
        omega
  · obtain ⟨u, h', hok, -⟩ | ⟨u, l₁, hok, -⟩ | ⟨e, h', -, -, hfull, -⟩ := ho.internText_cases name
    · exact ⟨u, _, hok⟩
    · exact ⟨u, l₁, hok⟩
    · omega

end Lexicon

def value? {σ α : Type} (act : EStateM Fault σ α) (s : σ) : Option α :=
  match act s with
  | .ok a _ => some a
  | .error _ _ => none

theorem eq_ok_of_value {σ α : Type} {act : EStateM Fault σ α} {s : σ} {a : α}
    (hv : value? act s = some a) :
    act s = .ok a (final act s) := by
  unfold value? at hv
  unfold final
  cases he : act s with
  | ok b s' =>
    rw [he] at hv
    cases hv
    rfl
  | error e s' =>
    rw [he] at hv
    cases hv

theorem Lexicon.Named.bijective_collision : ∃ (l : Lexicon) (v w : Word),
    Text.checksum "a" = Text.checksum "\u0161" ∧ Named 24 [("\u0161", w), ("a", v)] l ∧ v ≠ w ∧
    l.heap.symbolName v = .ok "a" ∧ l.heap.symbolName w = .ok "\u0161" := by
  -- A text is interned, and a pair is taken and collected. Another text, with the same checksum,
  -- then gets a symbol of its own.
  obtain ⟨l, hl, hsize⟩ : ∃ l : Lexicon, Named 24 [("a", .ref 14)] l ∧
    (l.heap.top, l.heap.capacity) = (17, 24) :=
    ⟨_, .alloc ⟨.pairT, .nil, .nil, .undefined⟩ (.intern .new (eq_ok_of_value (by decide +kernel)))
      (by decide), by decide +kernel⟩
  obtain ⟨htop, hcap⟩ := Prod.mk.inj hsize
  obtain ⟨free, hf⟩ := hl.orders.allocator
  have hs := MarkSweep.swept_markAndSweep (.ofConfig {} true)
    { symbols := l.table.buckets.toArray } false hf
  have hl' := hl.collect (.ofConfig {} true) { symbols := l.table.buckets.toArray } false rfl
  have hroom : 17 + "\u0161".length + 2 ≤ 24 := by decide
  obtain ⟨w, l', hok⟩ := hl'.bijective.2.2 "\u0161" (by
    have htop' := hs.top.trans htop
    have hcap' := hs.capacity.trans hcap
    dsimp only [Heap.inUse]
    omega)
  obtain ⟨hiff, hsym, -⟩ := (hl'.intern hok).bijective
  have hne : (.ref 14 : Word) ≠ w := (hiff "a" _ "\u0161" _ (by simp) (by simp)).not.2 (by decide)
  exact ⟨l', .ref 14, w, congrArg Checksum.checksum (by decide), hl'.intern hok, hne,
    (hsym "a" _ (by simp)).2.2.1, (hsym "\u0161" _ (by simp)).2.2.1⟩

end ActorMachine
