import ActorMachine.Proofs.Lexicon
import ActorMachine.Proofs.Reach

namespace ActorMachine

variable {h h' : Heap} {b v w chars : Word} {i n : Nat} {ks : List Nat}

def Text.codes (name : String) : List Word := name.toList.map fun c => .fix c.toNat

def Text.checksum (name : String) : UInt32 :=
  Checksum.checksum (name.toList.map fun c => UInt8.ofNat c.toNat)

theorem toNat_lt_fix (c : Char) : c.toNat < 2 ^ 62 := by
  have hc := c.valid
  have hn := c.toNat_val
  unfold UInt32.isValidChar Nat.isValidChar at hc
  omega

namespace Word

theorem toChar_fix (c : Char) : (Word.fix c.toNat).toChar = c := by
  have hi : (BitVec.ofInt 63 c.toNat).toInt = c.toNat := by
    have := toNat_lt_fix c
    rw [BitVec.toInt_ofInt]
    exact Int.bmod_eq_of_le (by omega) (by omega)
  unfold Word.fix Word.toChar
  dsimp only
  rw [hi, if_pos ⟨by omega, by simpa using (show c.toNat.isValidChar from c.valid)⟩,
    Int.toNat_natCast, Char.ofNat_toNat]

theorem lowByte_fix (c : Char) : (Word.fix c.toNat).lowByte = UInt8.ofNat c.toNat := by
  have hn : (BitVec.ofInt 63 c.toNat).toNat = c.toNat := by
    have := toNat_lt_fix c
    rw [BitVec.toNat_ofInt]
    omega
  unfold Word.fix Word.lowByte
  dsimp only
  rw [hn]

end Word

namespace Text

theorem map_toChar_codes (name : String) : String.ofList ((codes name).map Word.toChar) = name := by
  unfold codes
  rw [List.map_map, show Word.toChar ∘ (fun c : Char => Word.fix c.toNat) = id
    from funext Word.toChar_fix, List.map_id, String.ofList_toList]

theorem checksum_eq (name : String) :
    checksum name = Checksum.checksum ((codes name).map Word.lowByte) := by
  unfold codes checksum
  rw [List.map_map, show Word.lowByte ∘ (fun c : Char => Word.fix c.toNat) = _
    from funext Word.lowByte_fix]

theorem codes_injective : Function.Injective codes := fun s t e => by
  rw [← map_toChar_codes s, e, map_toChar_codes]

theorem isFixnum_codes (name : String) : ∀ v ∈ codes name, v.isFixnum = true := by
  intro v hv
  obtain ⟨c, -, rfl⟩ := List.mem_map.1 hv
  rfl

@[simp] theorem length_codes (name : String) : (codes name).length = name.length := by
  rw [codes, List.length_map, String.length_toList]

end Text

namespace Heap

theorem Pairs.map_car {α : Type} (hp : h.Pairs w ks) (f : Word → α) :
    (ks.map Word.ref).map (fun p => f (h.car p)) = (ks.map fun i => (h.cellAt i).x).map f := by
  rw [List.map_map, List.map_map]
  refine List.map_congr_left fun i hi => ?_
  exact congrArg f (car_eq (hp.2 i hi))

theorem Pairs.length_le (hp : h.Pairs w ks) : ks.length ≤ h.top := by
  have hsub : ks ⊆ List.range h.top := fun i hi => List.mem_range.2 (live_of_isPair (hp.2 i hi)).1
  simpa using (List.subperm_of_subset hp.1.nodup hsub).length_le

theorem Pairs.walks (hp : h.Pairs b ks) {S : Nat → Prop} (hnil : h.isPair .nil = false)
    (hw : h.Walks S b i) :
    i ∈ ks ∨ .ref i = Word.nil := by
  induction hw generalizing ks with
  | here =>
    cases ks with
    | nil => exact .inr hp.1
    | cons j ks =>
      obtain ⟨hj, -⟩ := hp.cdr
      cases hj
      exact .inl List.mem_cons_self
  | @next i j hpair _ _ ih =>
    cases ks with
    | nil =>
      obtain ⟨hi, -⟩ := hp
      rw [hi, hnil] at hpair
      cases hpair
    | cons j ks =>
      obtain ⟨hj, hcdr, hrest⟩ := hp.cdr
      rw [hcdr] at ih
      exact (ih hrest).imp_left (List.mem_cons_of_mem _)

theorem Pairs.walks_mem (hp : h.Pairs b ks) (hi : i ∈ ks) : h.Walks (fun _ => False) b i := by
  induction ks generalizing b with
  | nil => cases hi
  | cons j ks ih =>
    obtain ⟨rfl, hcdr, hrest⟩ := hp.cdr
    obtain rfl | hi := List.mem_cons.1 hi
    · exact .here
    · exact .next (hp.2 j List.mem_cons_self) id (by rw [hcdr]; exact ih hrest hi)

theorem Pairs.walks_nil (hp : h.Pairs b ks) : h.Walks (fun _ => False) b 1 := by
  induction ks generalizing b with
  | nil =>
    obtain ⟨rfl, -⟩ := hp
    exact .here
  | cons j ks ih =>
    obtain ⟨rfl, hcdr, hrest⟩ := hp.cdr
    exact .next (hp.2 j List.mem_cons_self) id (by rw [hcdr]; exact ih hrest)

theorem Pairs.touches (hp : h.Pairs w ks) (hnil : h.isPair .nil = false)
    (hflat : ∀ j ∈ ks, (h.cellAt j).x.isFixnum = true) (ht : h.Touches w i) :
    i ∈ ks ∨ .ref i = Word.nil := by
  induction ht generalizing ks with
  | here => exact hp.walks (S := fun _ => False) hnil .here
  | @car v i hpair ht _ =>
    cases ks with
    | nil =>
      obtain ⟨rfl, -⟩ := hp
      rw [hnil] at hpair
      cases hpair
    | cons j ks =>
      obtain ⟨rfl, -⟩ := hp.cdr
      have hx := hflat j List.mem_cons_self
      rw [car_eq hpair] at ht
      cases hx' : (h.cellAt j).x with
      | fixnum =>
        rw [hx'] at ht
        cases ht with
        | car hp' | cdr hp' => cases hp'
      | ref | cap =>
        rw [hx'] at hx
        cases hx
  | @cdr v i hpair _ ih =>
    cases ks with
    | nil =>
      obtain ⟨rfl, -⟩ := hp
      rw [hnil] at hpair
      cases hpair
    | cons j ks =>
      obtain ⟨rfl, hcdr, hrest⟩ := hp.cdr
      rw [hcdr] at ih
      exact (ih hrest fun j hj => hflat j (List.mem_cons_of_mem _ hj)).imp_left
        (List.mem_cons_of_mem _)

theorem Pairs.touches_mem (hp : h.Pairs w ks) (hi : i ∈ ks) : h.Touches w i := by
  induction ks generalizing w with
  | nil => cases hi
  | cons j ks ih =>
    obtain ⟨rfl, hcdr, hrest⟩ := hp.cdr
    obtain rfl | hi := List.mem_cons.1 hi
    · exact .here
    · exact .cdr (hp.2 j List.mem_cons_self) (by rw [hcdr]; exact ih hrest hi)

theorem Pairs.reach {roots : Roots} (hp : h.Pairs w ks) (hw : ∀ i, h.Leads w i → h.Reach roots i) :
    ∀ i ∈ ks, h.Reach roots i := by
  intro i hi
  induction ks generalizing w with
  | nil => cases hi
  | cons j ks ih =>
    obtain ⟨rfl, -, hrest⟩ := hp.cdr
    have hj := hw j ⟨.inl rfl, hp.1.2.1, live_of_isPair (hp.2 j List.mem_cons_self)⟩
    obtain rfl | hi := List.mem_cons.1 hi
    · exact hj
    · exact ih hrest (fun i hl => .field hj (by simp [Cell.words]) hl) hi

def Spells (h : Heap) (w : Word) (name : String) : Prop := h.Lists w (Text.codes name)

namespace Spells

variable {name other : String}

theorem differs_iff (hnil : h.isPair .nil = false) (hv : h.Spells v name) (hw : h.Spells w other) :
    h.Differs v w ↔ name ≠ other := by
  rw [Lists.differs_iff hnil hv hw (Text.isFixnum_codes name), ne_eq, Text.codes_injective.eq_iff]

theorem touches (hnil : h.isPair .nil = false) (hw : h.Spells w name) (ht : h.Touches w i) :
    (h.isPair (.ref i) = true ∧ Word.reserved ≤ i) ∨ .ref i = Word.nil := by
  obtain ⟨ks, hp, hs⟩ := hw
  have hflat : ∀ j ∈ ks, (h.cellAt j).x.isFixnum = true := fun j hj =>
    Text.isFixnum_codes name _ (hs ▸ List.mem_map.2 ⟨j, hj, rfl⟩)
  exact (hp.touches hnil hflat ht).imp_left fun hi => ⟨hp.2 i hi, hp.1.reserved_le i hi⟩

variable (hnil : h.isPair .nil = false) (hbudget : h.top ≤ h.sanity)

include hnil hbudget

theorem checksum (hw : h.Spells w name) : h.checksum w = .ok (Text.checksum name) := by
  obtain ⟨ks, hp, hs⟩ := hw
  unfold Heap.checksum
  rw [hp.spine_ok hnil (Nat.le_trans hp.length_le hbudget), Text.checksum_eq, ← hs, ← hp.map_car]
  rfl

theorem toText (hw : h.Spells w name) : h.toText w = .ok name := by
  obtain ⟨ks, hp, hs⟩ := hw
  unfold Heap.toText
  rw [hp.spine_ok hnil (Nat.le_trans hp.length_le hbudget)]
  change Except.ok (String.ofList ((ks.map Word.ref).map fun p => (h.car p).toChar)) = _
  rw [hp.map_car, hs, Text.map_toChar_codes]

theorem equal_isOk (hv : h.Spells v name) (hw : h.Spells w other) : ∃ r, h.equal v w = .ok r := by
  refine Lists.equal_isOk hnil hv hw (Text.isFixnum_codes name) ?_
  obtain ⟨ks, hp, hs⟩ := hv
  have := hp.length_le
  rw [← hs, List.length_map]
  omega

end Spells

end Heap

theorem SymbolTable.find?_isOk {hash : Word} (hnil : h.isPair .nil = false) (hp : h.Pairs b ks)
    (hn : ks.length ≤ n) {task : String}
    (hks : ∀ p ∈ ks, ∃ s, (h.cellAt p).x = .ref s ∧ s < h.top ∧
      ∃ r, h.equal chars (h.cellAt s).y = .ok r) :
    ∃ r, find? h hash chars ⟨n, task⟩ b = .ok r := by
  induction ks generalizing b n with
  | nil =>
    obtain ⟨rfl, -⟩ := hp
    unfold find?
    rw [hnil]
    exact ⟨none, rfl⟩
  | cons i ks ih =>
    obtain ⟨rfl, hcdr, hrest⟩ := hp.cdr
    have hpair := hp.2 i List.mem_cons_self
    cases n with
    | zero => simp at hn
    | succ n =>
      obtain ⟨r, hr⟩ := ih hrest (Nat.le_of_succ_le_succ hn) fun p hp =>
        hks p (List.mem_cons_of_mem _ hp)
      obtain ⟨s, hs, hlt, eq, heq⟩ := hks i List.mem_cons_self
      unfold find?
      rw [if_pos hpair, Heap.car_eq hpair, hs, hcdr]
      change ∃ r, (h.cell (.ref s) >>= _) = .ok r
      rw [Heap.cell_ref hlt]
      simp only [bind, Except.bind]
      split
      · rw [heq]
        cases eq with
        | true => exact ⟨some (.ref s), rfl⟩
        | false => exact ⟨r, hr⟩
      · exact ⟨r, hr⟩

end ActorMachine
