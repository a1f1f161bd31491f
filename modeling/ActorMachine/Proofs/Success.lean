import ActorMachine.Proofs.FaultFreedom
import ActorMachine.Proofs.Operand

namespace ActorMachine

section Achieves

variable {σ α β : Type} {act : EStateM Fault σ α} {k : α → EStateM Fault σ β} {s s' : σ} {a : α}
  {Q R : α → σ → Prop} {P : β → σ → Prop}

/-- The action succeeds, and what is said of its result is true. -/
def Achieves (act : EStateM Fault σ α) (s : σ) (Q : α → σ → Prop) : Prop :=
  ∃ a s', act s = .ok a s' ∧ Q a s'

theorem Achieves.mono (h : Achieves act s Q) (hq : ∀ a s', Q a s' → R a s') : Achieves act s R := by
  obtain ⟨a, s', hr, ha⟩ := h
  exact ⟨a, s', hr, hq a s' ha⟩

theorem achieves_bind (hr : act s = .ok a s') : Achieves (act >>= k) s P ↔ Achieves (k a) s' P := by
  unfold Achieves
  rw [run_bind hr]

theorem Achieves.bind (h : Achieves act s Q) (hk : ∀ a s', Q a s' → Achieves (k a) s' P) :
    Achieves (act >>= k) s P := by
  obtain ⟨a, s', hr, ha⟩ := h
  exact (achieves_bind hr).2 (hk a s' ha)

theorem achieves_get_bind {k : σ → EStateM Fault σ β} :
    Achieves (get >>= k) s P ↔ Achieves (k s) s P := .rfl

theorem Machine.achieves_look_bind {f : Heap → α} {k : α → MachineM β} {m : Machine}
    {P : β → Machine → Prop} :
    Achieves (look f >>= k) m P ↔ Achieves (k (f m.heap)) m P := .rfl

theorem Machine.achieves_onHeap {act : HeapM α} {m : Machine} {Q : α → Machine → Prop}
    (ha : Achieves act m.heap fun a h => Q a { m with heap := h }) :
    Achieves (liftM act : MachineM α) m Q := by
  obtain ⟨a, h, hr, hq⟩ := ha
  exact ⟨a, _, lift_eq_ok.2 ⟨h, hr, rfl⟩, hq⟩

end Achieves

namespace Heap.FreeList

variable {h : Heap} {l : List Nat} {i : Nat} {c : Cell} {f : Field} {w : Word}

theorem achieves_write (hf : h.FreeList l) (hi : h.Live i) (hw : f = .t → w ≠ .freeT) :
    Achieves (store (.ref i) f w) h fun _ h' => h.Sets i ((h.cellAt i).set f w) h' ∧
      h'.FreeList l := by
  have hok : h.isCell (.ref i) = true := isCell_iff.2 ⟨i, rfl, hi.1⟩
  obtain ⟨h', hr⟩ : ∃ h', store (.ref i) f w h = .ok () h' := ⟨_, by rw [store, if_pos hok]⟩
  obtain ⟨j, hj, -, hset⟩ := store_ok hf.top_le hr
  cases hj
  exact ⟨(), h', hr, hset, hf.sets hset hi.2 (hi.set hw)⟩

theorem achieves_take (hf : h.FreeList l) (hroom : h.inUse < h.capacity) (hc : c.t ≠ .freeT) :
    Achieves (Heap.alloc c) h fun v h' => ∃ i, v = .ref i ∧ h.Takes i c h' ∧
      h.Reworks (fun _ => False) h' ∧
      h'.inUse = h.inUse + 1 := by
  obtain ⟨v, h', hr⟩ := hf.alloc_isOk hroom c
  exact ⟨v, h', hr, hf.taken hc hr⟩

theorem achieves_give (hf : h.FreeList l) (hp : h.permanent ≤ i) (hi : h.Live i) :
    Achieves (Heap.free (.ref i)) h fun _ h' => h' = h.reclaim i ∧ h'.FreeList (i :: l) ∧
      h'.inUse + 1 = h.inUse :=
  ⟨(), _, free_eq (v := .ref _) hp hi, rfl, hf.reclaim hp hi.1 hi.2, hf.inUse_reclaim hp hi⟩

end Heap.FreeList

end ActorMachine
