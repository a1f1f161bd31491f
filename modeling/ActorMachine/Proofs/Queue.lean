import ActorMachine.Proofs.Ensures

namespace ActorMachine

open Heap

def Queue.Holds (q : Queue) (h : Heap) (l : List Nat) : Prop :=
  h.Chain .z q.head l ∧ q.tail = (l.getLast?.map Word.ref).getD .nil

theorem Queue.Holds.toList {h : Heap} {q : Queue} {l : List Nat} (hq : q.Holds h l)
    (hl : ∀ i ∈ l, i < h.top) :
    q.toList h = if l.length ≤ h.sanity then .ok (l.map .ref)
      else .error (.runaway "queue walk") := by
  obtain ⟨hc, -⟩ := hq
  unfold Queue.toList Heap.budget
  generalize h.sanity = n, q.head = w at hc ⊢
  induction l generalizing n w with
  | nil =>
    unfold Queue.toList.go
    rw [if_pos (show w = .nil from hc)]
    simp
  | cons i l ih =>
    have hne := hc.ne_nil
    obtain ⟨rfl, -, hc⟩ := hc
    unfold Queue.toList.go
    rw [if_neg hne]
    cases n with
    | zero => rfl
    | succ n =>
      change Except.bind (h.field (.ref i) .z) _ = _
      rw [field_ref (hl i List.mem_cons_self)]
      change Except.bind (Queue.toList.go h ⟨n, "queue walk"⟩ ((h.cellAt i).get .z)) _ = _
      rw [ih (fun j hj => hl j (List.mem_cons_of_mem i hj)) n _ hc]
      by_cases hle : l.length ≤ n
      · rw [if_pos hle, if_pos (by simpa using hle)]
        rfl
      · rw [if_neg hle, if_neg (by simpa using hle)]
        rfl

structure Heap.Relinks (h : Heap) (l : List Nat) (h' : Heap) : Prop where
  sound : h'.Sound
  fades : h.Fades h'
  respects : h.Respects (l.map Word.ref) h'
  same : ∀ j, j ∉ l → h'.cellAt j = h.cellAt j
  t : ∀ j, (h'.cellAt j).t = (h.cellAt j).t
  x : ∀ j, (h'.cellAt j).x = (h.cellAt j).x
  y : ∀ j, (h'.cellAt j).y = (h.cellAt j).y
  top : h'.top = h.top
  permanent : h'.permanent = h.permanent
  sanity : h'.sanity = h.sanity

theorem Heap.Relinks.of_sets {h h' : Heap} {i : Nat} {w : Word} {l : List Nat}
    (hs : h.Sets i ((h.cellAt i).set .z w) h') (hfade : h.Fades h')
    (hsound : h'.Sound ∧ h.Respects [w] h')
    (hi : i ∈ l) (hw : w = .nil ∨ ∃ j ∈ l, w = .ref j) : h.Relinks l h' := by
  have hfield : ∀ f j, f ≠ Field.z → (h'.cellAt j).get f = (h.cellAt j).get f := by
    intro f j hf
    by_cases hj : j = i
    · rw [hj, hs.self, Cell.get_set_ne _ _ hf]
    · rw [hs.ne hj]
  refine ⟨hsound.1, hfade, fun C hh hl => hsound.2 C hh fun v hv => ?_,
    fun j hj => hs.ne (by rintro rfl; exact hj hi), fun j => hfield .t j (by decide),
    fun j => hfield .x j (by decide), fun j => hfield .y j (by decide), hs.top, hs.permanent,
    hs.sanity⟩
  rw [List.mem_singleton.1 hv]
  obtain rfl | ⟨j, hj, rfl⟩ := hw
  · exact hh.literal (by decide)
  · exact hl _ (List.mem_map_of_mem hj)

theorem Heap.Relinks.trans {h h' h'' : Heap} {l k n : List Nat} (h₁ : h.Relinks l h')
    (h₂ : h'.Relinks k h'') (hl : ∀ j ∈ l, j ∈ n) (hk : ∀ j ∈ k, j ∈ n) : h.Relinks n h'' :=
  ⟨h₂.sound, h₁.fades.trans h₂.fades,
    h₁.respects.trans h₂.respects (fun _ hw => List.map_subset _ hl hw) (fun _ hw =>
      List.map_subset _ hk hw),
    fun j hj => (h₂.same j fun hn => hj (hk j hn)).trans (h₁.same j fun hn => hj (hl j hn)),
    fun j => (h₂.t j).trans (h₁.t j), fun j => (h₂.x j).trans (h₁.x j),
    fun j => (h₂.y j).trans (h₁.y j), h₂.top.trans h₁.top, h₂.permanent.trans h₁.permanent,
    h₂.sanity.trans h₁.sanity⟩

theorem Heap.Relinks.shade {h h' : Heap} {l : List Nat} (hr : h.Relinks l h') {i : Nat}
    (hi : i ∈ l) :
    h.Relinks l (h'.shade (.ref i)) := by
  obtain ⟨hs, hf⟩ := hr.sound.shade (.ref i)
  have hc := cellAt_shade h' (.ref i)
  exact ⟨hs, hr.fades.trans hf,
    hr.respects.trans (hr.sound.respects_shade _) (fun _ hw => hw) (by simpa using hi),
    fun j hj => (hc j).trans (hr.same j hj),
    fun j => (congrArg Cell.t (hc j)).trans (hr.t j),
    fun j => (congrArg Cell.x (hc j)).trans (hr.x j),
    fun j => (congrArg Cell.y (hc j)).trans (hr.y j), (top_shade ..).trans hr.top,
    (permanent_shade ..).trans hr.permanent, (sanity_shade ..).trans hr.sanity⟩

namespace Queue

variable {q : Queue} {h h' : Heap} {l : List Nat} {i : Nat}

theorem Holds.congr (hz : ∀ i ∈ l, (h'.cellAt i).z = (h.cellAt i).z) (hq : q.Holds h l) :
    q.Holds h' l :=
  ⟨hq.1.congr hz, hq.2⟩

theorem Holds.isEmpty_iff (hq : q.Holds h l) : q.isEmpty = true ↔ l = [] := by
  unfold isEmpty
  cases l with
  | nil =>
    have hh : q.head = .nil := hq.1
    simp [hh]
  | cons i l => simpa using hq.1.ne_nil

theorem Holds.exists_last (hq : q.Holds h l) (hne : q.isEmpty = false) :
    ∃ k j, l = k ++ [j] ∧ q.tail = .ref j := by
  have hn : l ≠ [] := by
    rw [ne_eq, ← hq.isEmpty_iff]
    simp [hne]
  refine ⟨l.dropLast, l.getLast hn, (List.dropLast_concat_getLast hn).symm, ?_⟩
  rw [hq.2, List.getLast?_eq_some_getLast hn]
  rfl

theorem holds_first (hr : Word.reserved ≤ i) (hset : h.Sets i ((h.cellAt i).set .z .nil) h')
    (v : Word) :
    Queue.Holds ⟨.ref i, .ref i⟩ (h'.shade v) [i] := by
  refine ⟨⟨rfl, hr, ?_⟩, rfl⟩
  rw [cellAt_shade, hset.self]
  exact Cell.get_set_self ..

theorem Holds.link {h₁ h₂ : Heap} {k : List Nat} {j : Nat} (hq : q.Holds h (k ++ [j]))
    (hi : i ∉ k ++ [j]) (hr : Word.reserved ≤ i) (hset₁ : h.Sets i ((h.cellAt i).set .z .nil) h₁)
    (hset₂ : h₁.Sets j ((h₁.cellAt j).set .z (.ref i)) h₂) (v : Word) :
    Queue.Holds ⟨q.head, .ref i⟩ (h₂.shade v) (k ++ [j] ++ [i]) := by
  have hji : j ≠ i := by
    rintro rfl
    simp at hi
  have hnodup := hq.1.nodup
  refine ⟨?_, by simp⟩
  rw [List.append_assoc, List.singleton_append]
  refine hq.1.splice ?_ ?_
  · intro n hn
    rw [cellAt_shade, hset₂.ne, hset₁.ne]
    · rintro rfl
      simp [hn] at hi
    · rintro rfl
      simp only [List.nodup_append] at hnodup
      exact hnodup.2.2 n hn n List.mem_cons_self rfl
  · rw [cellAt_shade, hset₂.self]
    refine ⟨Cell.get_set_self .., hr, ?_⟩
    rw [cellAt_shade, hset₂.ne hji.symm, hset₁.self]
    exact Cell.get_set_self ..

theorem Holds.unlink (hq : q.Holds h (i :: l)) (hset : h.Sets i ((h.cellAt i).set .z .nil) h') :
    Queue.Holds ⟨(h.cellAt i).get .z, if (h.cellAt i).get .z = .nil then .nil else q.tail⟩
      h' l := by
  obtain ⟨-, -, hc⟩ := hq.1
  have hnodup := List.nodup_cons.1 hq.1.nodup
  refine ⟨Chain.congr (fun j hj => ?_) hc, ?_⟩
  · rw [hset.ne]
    rintro rfl
    exact hnodup.1 hj
  · cases l with
    | nil => exact if_pos hc
    | cons j l =>
      dsimp only
      rw [if_neg hc.ne_nil, hq.2]
      simp

theorem ensures_put {E : Heap → Prop} (hs : h.Sound) (hq : q.Holds h l) (hi : i ∉ l)
    (hr : Word.reserved ≤ i) (hu : ∀ j ∈ i :: l, (h.cellAt j).t ≠ .freeT) :
    Ensures (q.put (.ref i)) h
      (fun q' h' => q'.Holds h' (l ++ [i]) ∧ h.Relinks (i :: l) h') E := by
  unfold put
  refine (ensures_store (P := fun _ h' => h.Sets i ((h.cellAt i).set .z .nil) h' ∧
    h.Relinks [i] h') hs ?_).bind ?_
  · intro i' h' hv hlt hset hfade hsound
    cases hv
    have hi := hu i List.mem_cons_self
    exact ⟨hset, .of_sets hset hfade (hsound hi hi) List.mem_cons_self (.inl rfl)⟩
  rintro - h₁ ⟨hset₁, hlink₁⟩
  dsimp only
  refine .ite ?_ ?_
  · intro hne
    have hfirst : q.isEmpty = false := by simpa using hne
    obtain ⟨l, j, rfl, htail⟩ := hq.exists_last hfirst
    rw [htail]
    refine (ensures_store (P := fun _ h' => h₁.Sets j ((h₁.cellAt j).set .z (.ref i)) h' ∧
      h.Relinks (i :: (l ++ [j])) h') hlink₁.sound ?_).bind ?_
    · intro j' h' hv hlt hset hfade hsound
      cases hv
      have hj : (h₁.cellAt j).t ≠ .freeT := by
        rw [hlink₁.t]
        exact hu j (by simp)
      exact ⟨hset, hlink₁.trans (.of_sets (l := [i, j]) hset hfade (hsound hj hj) (by simp)
        (.inr ⟨i, by simp, rfl⟩)) (by simp) (by simp)⟩
    rintro - h₂ ⟨hset₂, hlink₂⟩
    simp only [ensures_modify_bind, ensures_pure, hfirst, Bool.false_eq_true, if_false]
    exact ⟨hq.link hi hr hset₁ hset₂ _, hlink₂.shade List.mem_cons_self⟩
  · intro he
    have hfirst : q.isEmpty = true := by simpa using he
    obtain rfl := hq.isEmpty_iff.1 hfirst
    simp only [ensures_modify_bind, ensures_pure, hfirst, if_true]
    exact ⟨holds_first hr hset₁ _, hlink₁.shade List.mem_cons_self⟩

theorem ensures_pop {E : Heap → Prop} (hs : h.Sound) (hq : q.Holds h l)
    (hu : ∀ j ∈ l, (h.cellAt j).t ≠ .freeT) :
    Ensures q.pop h
      (fun r h' => l = [] ∧ r = (none, q) ∧ h' = h ∨ ∃ i l', l = i :: l' ∧ r.1 = some (.ref i) ∧
        r.2.Holds h' l' ∧ (h'.cellAt i).z = .nil ∧ h.Relinks [i] h') E := by
  unfold pop
  refine .ite ?_ ?_
  · intro he
    exact .inl ⟨hq.isEmpty_iff.1 he, rfl, rfl⟩
  · intro hne
    obtain ⟨i, l, rfl⟩ : ∃ i l₀, l = i :: l₀ := by
      cases l with
      | nil => simp [hq.isEmpty_iff] at hne
      | cons i l => exact ⟨i, l, rfl⟩
    rw [hq.1.1]
    refine ensures_fetch_bind fun i' hv hlt => ?_
    cases hv
    refine (ensures_store (P := fun _ h' => h.Sets i ((h.cellAt i).set .z .nil) h' ∧
      h.Relinks [i] h') hs ?_).bind ?_
    · intro i' h' hv hlt hset hfade hsound
      cases hv
      have hi := hu i List.mem_cons_self
      exact ⟨hset, .of_sets hset hfade (hsound hi hi) List.mem_cons_self (.inl rfl)⟩
    rintro - h' ⟨hset, hlink⟩
    refine .inr ⟨i, l, rfl, rfl, hq.unlink hset, ?_, hlink⟩
    rw [hset.self]
    rfl

end Queue

end ActorMachine
