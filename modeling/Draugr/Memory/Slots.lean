import Draugr.Memory.Parts

/-!
# The slots of a slab

A slab on its own: `slab_alloc_slot` and `slab_free_slot` are called in any order on a slab of
`slab_create`. `slab_create`, the free stack and `slab_free_slot` take a bit that is 1 for a free
slot, but `bitmap_find_nonfull_word` takes a word of ones for a full one. So the first call of
`slab_alloc_slot` finds the free stack empty and the bitmap full, and so does every later call: the
slab stays as it was made (`slabRun_fresh`), and an exact slab is one that is never asked for a
slot.
-/

namespace Draugr.Memory
open Lib

/-- A slab with the counter `slab_color`, and the slots that were handed out and not freed. -/
structure SlabUse where
  slab : Slab
  color : ℕ
  outstanding : List Ptr

/-- A slab of `slab_create`. -/
def freshSlab (map sc color : ℕ) : SlabUse := ⟨newSlab map sc, color, []⟩

/-- A call of `slab_alloc_slot` or `slab_free_slot`. -/
inductive SlabCall where
  | alloc
  | free (p : Ptr)
  deriving DecidableEq

/-- Runs one call. -/
def SlabCall.run (u : SlabUse) : SlabCall → SlabUse
  | .alloc =>
    let (p, s, color) := slabAllocSlot u.slab u.color
    ⟨s, color, p.toList ++ u.outstanding⟩
  | .free p =>
    { u with slab := (slabFreeSlot u.slab p).getD u.slab, outstanding := u.outstanding.erase p }

/-- What a call returns: a slot unless all are outstanding, and true for an outstanding slot
alone. -/
def SlabCall.Right (u : SlabUse) : SlabCall → Prop
  | .alloc => (slabAllocSlot u.slab u.color).1 = none ↔ u.outstanding.length = slabSlots
  | .free p => (slabFreeSlot u.slab p).isSome ↔ p ∈ u.outstanding

/-- The outstanding slots are distinct slots of the slab, and `used_count` is their number. -/
structure SlabUse.Exact (u : SlabUse) : Prop where
  distinct : u.outstanding.Nodup
  inside : ∀ p ∈ u.outstanding, ∃ slot < slabSlots, p = u.slab.ptr slot
  used : u.slab.usedCount = u.outstanding.length

/-- Before and after each call the slab is exact, and each call returns what it should. -/
def SlabExact (u : SlabUse) : List SlabCall → Prop
  | [] => u.Exact
  | call :: calls => u.Exact ∧ call.Right u ∧ SlabExact (call.run u) calls

variable {s : Slab} {p : Ptr} {map sc color : ℕ} {calls : List SlabCall}

/-- Every bit of a blank slab is set. -/
lemma Slab.Blank.testBit (hs : s.Blank) {slot : ℕ} (hslot : slot < slabSlots) :
    (s.word (slot / 64)).testBit (slot % 64) = true := by
  have hword : s.word (slot / 64) = 2 ^ 64 - 1 := by
    have hlt : slot / 64 < 4 := by
      unfold slabSlots at hslot
      omega
    unfold Slab.word
    rw [hs.bitmap, List.getD_eq_getElem?_getD, List.getElem?_replicate_of_lt hlt]
    rfl
  rw [hword, Nat.testBit_two_pow_sub_one]
  exact decide_eq_true (Nat.mod_lt _ (by decide))

/-- A blank slab takes no slot back. -/
lemma slabFreeSlot_blank (hs : s.Blank) (p : Ptr) : slabFreeSlot s p = none := by
  unfold slabFreeSlot
  split
  · rename_i hc
    have hslot : (p.off - slabDataOffset) / s.slotSize < slabSlots := Nat.div_lt_of_lt_mul hc.2.2
    rw [if_pos (hs.testBit hslot)]
  · rfl

/-- No call changes a fresh slab. -/
lemma SlabCall.run_fresh (call : SlabCall) :
    call.run (freshSlab map sc color) = freshSlab map sc color := by
  cases call with
  | alloc =>
    unfold SlabCall.run freshSlab
    rw [slabAllocSlot_blank (newSlab_blank map sc)]
    rfl
  | free p =>
    have hfree := slabFreeSlot_blank (newSlab_blank map sc) p
    show (⟨(slabFreeSlot (newSlab map sc) p).getD (newSlab map sc), color, [].erase p⟩ : SlabUse) =
      _
    rw [hfree]
    rfl

/-- A fresh slab is exact. -/
lemma freshSlab_exact : (freshSlab map sc color).Exact := ⟨List.nodup_nil, nofun, rfl⟩

/-- On a fresh slab only `slab_free_slot` returns what it should. -/
lemma SlabCall.right_fresh (call : SlabCall) :
    call.Right (freshSlab map sc color) ↔ call ≠ .alloc := by
  cases call with
  | alloc =>
    unfold SlabCall.Right freshSlab
    rw [slabAllocSlot_blank (newSlab_blank map sc)]
    refine ⟨fun h => ?_, fun h => absurd rfl h⟩
    have hfull : 0 = slabSlots := h.mp rfl
    exact absurd hfull (by decide)
  | free p =>
    have hfree := slabFreeSlot_blank (newSlab_blank map sc) p
    show ((slabFreeSlot (newSlab map sc) p).isSome ↔ p ∈ []) ↔ _
    rw [hfree]
    exact ⟨fun _ => nofun, fun _ => ⟨nofun, fun h => absurd h List.not_mem_nil⟩⟩

/-- A fresh slab hands out its slots exactly in the runs that never ask for one. -/
theorem slab_exact_iff (map sc color : ℕ) (calls : List SlabCall) :
    SlabExact (freshSlab map sc color) calls ↔ ∀ call ∈ calls, call ≠ .alloc := by
  induction calls with
  | nil => exact ⟨fun _ _ h => absurd h List.not_mem_nil, fun _ => freshSlab_exact⟩
  | cons call calls ih =>
    rw [SlabExact, SlabCall.run_fresh, ih, SlabCall.right_fresh, List.forall_mem_cons]
    exact ⟨fun h => h.2, fun h => ⟨freshSlab_exact, h⟩⟩

/-- The first call of `slab_alloc_slot` on a slab of 8-byte slots returns `NULL`. -/
theorem slab_exact_fails : (slabAllocSlot (newSlab 0 0) 0).1 = none ∧
    ¬ SlabExact (freshSlab 0 0 0) [.alloc] := by
  refine ⟨by decide, ?_⟩
  rintro ⟨-, hright, -⟩
  have hnull : (slabAllocSlot (newSlab 0 0) 0).1 = none := by decide
  exact absurd (hright.mp hnull) (by decide)

end Draugr.Memory
