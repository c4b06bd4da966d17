import Mathlib.Algebra.Group.Nat.Defs
import Managed.Proofs.Heap.Session

/-!
# Handles are not given out twice

The serial of a slot counts how often it has been freed, and a handle carries the serial of the time
when it was given out (`Numbered`). So a new handle differs from all before it (`Allocated.fresh`), as
long as no slot has been freed `2 ^ 32` times, and a stale handle stays stale.
-/

namespace Managed

namespace Heap

variable {α : Type}

/-- The serial of a slot counts how often its object has been freed, and a handle carries the count of
the time when it was given out. -/
structure Numbered (h : Heap α) (issued : List Ref) (freed : Nat → Nat) : Prop where
  serial : ∀ i u, h.serial? i = some u → u = UInt32.ofNat (freed i)
  unused : ∀ i, h.serial? i = none → freed i = 0
  live : ∀ r, h.contains r = true → r ∈ issued
  slot : ∀ r ∈ issued, h.serial? r.index ≠ none
  past : ∀ r ∈ issued, r.serial.toNat ≤ freed r.index
  stale : ∀ r ∈ issued, h.contains r = false → r.serial.toNat < freed r.index

theorem numbered_empty (limits : HeapLimits) :
    ({ limits } : Heap α).Numbered [] fun _ => 0 := by
  refine ⟨fun i u hu => ?_, fun _ _ => rfl, fun r hr => ?_, by simp, by simp, by simp⟩
  · simp [serial?] at hu
  · simp [contains, resolve?] at hr

variable {h h' : Heap α} {issued : List Ref} {freed : Nat → Nat}

theorem SamePlaces.numbered (hs : SamePlaces h h') (hn : h.Numbered issued freed) :
    h'.Numbered issued freed where
  serial i u hu := hn.serial i u (by rwa [← hs.serial])
  unused i hi := hn.unused i (by rwa [← hs.serial])
  live r hr := hn.live r (by rwa [← hs.contains])
  slot r hr := by
    rw [hs.serial]
    exact hn.slot r hr
  past := hn.past
  stale r hr hc := hn.stale r hr (by rwa [← hs.contains])

/-- The handle of a new object carries the number of times its slot has been freed. -/
theorem Allocated.serial_eq {v : α} {r : Ref} (ha : Allocated h v r h')
    (hn : h.Numbered issued freed) : r.serial = UInt32.ofNat (freed r.index) := by
  rcases ha.slot with ⟨_, hser, _⟩ | ⟨_, _, hnone, hzero, _⟩
  · exact hn.serial _ _ hser
  · rw [hzero, hn.unused _ hnone]
    rfl

theorem Allocated.toNat_serial {v : α} {r : Ref} (ha : Allocated h v r h')
    (hn : h.Numbered issued freed) (hf : freed r.index < 2 ^ 32) :
    r.serial.toNat = freed r.index := by
  rw [ha.serial_eq hn, UInt32.toNat_ofNat_of_lt' (by simpa [UInt32.size] using hf)]

/-- An allocation gives a handle that was never given out before. -/
theorem Allocated.fresh {v : α} {r : Ref} (ha : Allocated h v r h')
    (hn : h.Numbered issued freed) (hf : freed r.index < 2 ^ 32) : r ∉ issued := by
  intro hr
  rcases ha.slot with ⟨_, hser, _⟩ | ⟨_, _, hnone, _⟩
  · have hlt := hn.stale r hr (by simp [Heap.contains, ha.stale])
    have heq := ha.toNat_serial hn hf
    omega
  · exact hn.slot r hr hnone

theorem Allocated.numbered {v : α} {r : Ref} (ha : Allocated h v r h')
    (hn : h.Numbered issued freed) (hf : freed r.index < 2 ^ 32) :
    h'.Numbered (issued ++ [r]) freed := by
  have hold : ∀ i, i ≠ r.index → h'.serial? i = h.serial? i := by
    intro i hi
    rcases ha.slot with ⟨_, _, hser⟩ | ⟨_, _, _, _, hser⟩
    · exact hser i
    · rw [hser, if_neg hi]
  have hnew : h'.serial? r.index = some r.serial := by
    rcases ha.slot with ⟨_, hs, hser⟩ | ⟨_, _, _, hz, hser⟩
    · rw [hser, hs]
    · rw [hser, if_pos rfl, hz]
  refine ⟨fun i u hu => ?_, fun i hi => ?_, fun x hx => ?_, fun x hx => ?_, fun x hx => ?_,
    fun x hx hc => ?_⟩
  · by_cases hi : i = r.index
    · subst hi
      rw [hnew, Option.some.injEq] at hu
      rw [← hu, ha.serial_eq hn]
    · exact hn.serial i u (by rwa [← hold i hi])
  · by_cases hir : i = r.index
    · rw [hir, hnew] at hi
      cases hi
    · exact hn.unused i (by rwa [← hold i hir])
  · rw [ha.contains, Bool.or_eq_true, beq_iff_eq] at hx
    rcases hx with rfl | hx
    · simp
    · exact List.mem_append_left _ (hn.live x hx)
  · by_cases hi : x.index = r.index
    · rw [hi, hnew]
      exact Option.some_ne_none _
    · rw [hold _ hi]
      rcases List.mem_append.mp hx with hx | hx
      · exact hn.slot x hx
      · exact absurd (by rw [List.mem_singleton.mp hx]) hi
  · rcases List.mem_append.mp hx with hx | hx
    · exact hn.past x hx
    · rw [List.mem_singleton.mp hx]
      exact Nat.le_of_eq (ha.toNat_serial hn hf)
  · rw [ha.contains, Bool.or_eq_false_iff] at hc
    rcases List.mem_append.mp hx with hx | hx
    · exact hn.stale x hx hc.2
    · simp [List.mem_singleton.mp hx] at hc

theorem numbered_collect [Traced α] (ht : h.Tidy) (hn : h.Numbered issued freed)
    (kind : CollectionKind) (roots : RootSet) :
    (h.collect kind roots).Numbered issued
      fun i => freed i + (h.frees (h.collect kind roots) i).toNat := by
  have hser := serial?_collect ht kind roots
  refine ⟨fun i u hu => ?_, fun i hi => ?_, fun r hr => ?_, fun r hr => ?_, fun r hr => ?_,
    fun r hr hc => ?_⟩
  · rw [hser, Option.map_eq_some_iff] at hu
    obtain ⟨w, hw, rfl⟩ := hu
    have hw' := hn.serial i w hw
    simp only [frees, hw, Option.any_some]
    split
    · next hdead => rw [hdead, Bool.toNat_true, UInt32.ofNat_add, ← hw']; rfl
    · next hdead =>
      rw [Bool.not_eq_true] at hdead
      rw [hdead, Bool.toNat_false, Nat.add_zero, ← hw']
  · rw [hser, Option.map_eq_none_iff] at hi
    simp [frees, hi, hn.unused i hi]
  · rw [contains_collect ht, Bool.and_eq_true] at hr
    exact hn.live r hr.1
  · rw [hser]
    intro hnone
    exact hn.slot r hr (Option.map_eq_none_iff.mp hnone)
  · exact Nat.le_trans (hn.past r hr) (Nat.le_add_right _ _)
  · cases hlive : h.contains r with
    | true =>
      obtain ⟨e, he⟩ := contains_iff.mp hlive
      have hfrees : h.frees (h.collect kind roots) r.index = true := by
        rw [frees, serial?_of_resolve? he, Option.any_some, Bool.and_eq_true, Bool.not_eq_true']
        exact ⟨hlive, hc⟩
      have hle := hn.past r hr
      rw [hfrees, Bool.toNat_true]
      omega
    | false =>
      have hlt := hn.stale r hr hlive
      omega

end Heap

end Managed
