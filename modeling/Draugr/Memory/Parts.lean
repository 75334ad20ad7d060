import Draugr.Memory.Defs

/-!
# Slabs and segments

A bit of a slab's bitmap is 1 for a free slot, but the search of `slab_alloc_slot` behind the free
stack looks for a bit that is 0. So a slab that was never used, or was cleared, is `Blank` and has
no slot to give, and since no slot is ever given none is ever freed: slabs stay blank.

`segAlloc` hands out the first run of free cells, and `segFree` frees the cells of a block.
-/

namespace Draugr.Memory
open Lib

/-- All bits are set and the free stack is empty. -/
structure Slab.Blank (s : Slab) : Prop where
  bitmap : s.bitmap = List.replicate 4 uint64Max
  freeTop : s.freeTop = 0

variable {s : Slab} {ss : List Slab} {free : ℕ → Bool} {g : Segment} {p : Ptr} {size : ℕ}

/-! ## Slabs -/

/-- A new slab is blank. -/
lemma newSlab_blank (map sc : ℕ) : (newSlab map sc).Blank := ⟨rfl, rfl⟩

/-- A cleared slab is blank. -/
lemma Slab.clear_blank (s : Slab) : s.clear.Blank := ⟨rfl, rfl⟩

/-- A blank slab has no slot to give. -/
lemma slabAllocSlot_blank (hs : s.Blank) (color : ℕ) :
    slabAllocSlot s color = (none, s, color) := by
  obtain ⟨map, bitmap, usedCount, freeTop, freeStack, sizeClass⟩ := s
  obtain ⟨hb, ht⟩ := hs
  simp only at hb ht
  subst hb
  subst ht
  rfl

/-- Nor have several. -/
lemma slabsAlloc_blank (hs : ∀ s ∈ ss, s.Blank) (color : ℕ) :
    slabsAlloc ss color = (none, ss, color) := by
  induction ss with
  | nil => rfl
  | cons s ss ih =>
    rw [slabsAlloc, slabAllocSlot_blank (hs s List.mem_cons_self)]
    simp only [ih fun s h => hs s (List.mem_cons_of_mem _ h)]

/-- A pointer into no slab of the set is not freed. -/
lemma slabSetFree_none (h : ∀ s ∈ ss, s.map ≠ p.map) : slabSetFree p ss = none := by
  induction ss with
  | nil => rfl
  | cons s ss ih =>
    have hs : ¬ slabContains s p := fun hc => h s List.mem_cons_self hc.1.symm
    rw [slabSetFree, if_neg hs, ih fun s hm => h s (List.mem_cons_of_mem _ hm)]
    rfl

/-! ## Segments -/

/-- The scan finds a run of free cells. -/
lemma findCells_vacant {need n i c start r : ℕ} (hc : c ≤ i) (hv : Vacant free (i - c) c)
    (hstart : 0 < c → start = i - c) (hneed : c < need)
    (h : findCells free need n i c start = some r) : Vacant free r need ∧ r + need ≤ i + n := by
  induction n generalizing i c start with
  | zero => cases h
  | succ n ih =>
    rw [findCells] at h
    split at h
    · rename_i hfree
      have hs : (if c = 0 then i else start) = i - c := by
        split
        · omega
        · exact hstart (by omega)
      have hv' : Vacant free (i - c) (c + 1) := by
        intro k h1 h2
        by_cases hk : k = i
        · rwa [hk]
        · exact hv k h1 (by omega)
      rw [hs] at h
      simp only at h
      split at h
      · cases h
        have hlen : need = c + 1 := by omega
        exact ⟨hlen ▸ hv', by omega⟩
      · obtain ⟨h1, h2⟩ := ih (i := i + 1) (by omega) (by rwa [Nat.add_sub_add_right])
          (fun _ => by omega) (by omega) h
        exact ⟨h1, by omega⟩
    · obtain ⟨h1, h2⟩ :=
        ih (i := i + 1) (Nat.zero_le _) (fun k _ _ => by omega) (by omega) (by omega) h
      exact ⟨h1, by omega⟩

/-- A block has a cell. -/
lemma cells_pos (h : 0 < size) : 0 < cells size := by
  unfold cells segGranularity
  omega

/-- Below the sizes for which the sum wraps around, a block gets all its cells. -/
lemma slotsNeeded_eq (h : size ≤ 2 ^ 64 - 64) : slotsNeeded size = cells size := by
  unfold slotsNeeded cells segGranularity
  rw [Nat.mod_eq_of_lt (by omega)]

/-- The scan for no cells at all stops at the first free one. -/
lemma findCells_zero {n i start r : ℕ} (h : findCells free 0 n i 0 start = some r) : r < i + n := by
  induction n generalizing i start with
  | zero => cases h
  | succ n ih =>
    rw [findCells] at h
    split at h
    · cases h
      rw [if_pos rfl]
      omega
    · have hr := ih h
      omega

/-- The scan finds every run of free cells: it gives up only where there is none. -/
lemma findCells_none {need n i c start : ℕ} (hc : c ≤ i) (hneed : c < need)
    (hedge : c = i ∨ free (i - c - 1) = false)
    (hbefore : ∀ r, r + need ≤ i → ¬ Vacant free r need)
    (h : findCells free need n i c start = none) :
    ∀ r, r + need ≤ i + n → ¬ Vacant free r need := by
  induction n generalizing i c start with
  | zero => exact hbefore
  | succ n ih =>
    rw [findCells] at h
    split at h
    · dsimp only at h
      split at h
      · cases h
      -- a run that ends at this cell would start before the cells that were counted
      have hbefore' : ∀ r, r + need ≤ i + 1 → ¬ Vacant free r need := by
        intro r hr hv
        by_cases hlt : r + need ≤ i
        · exact hbefore r hlt hv
        · have htaken := hedge.resolve_left (by omega)
          rw [hv (i - c - 1) (by omega) (by omega)] at htaken
          cases htaken
      have hedge' : c + 1 = i + 1 ∨ free (i + 1 - (c + 1) - 1) = false := by
        rw [Nat.add_sub_add_right]
        exact hedge.imp_left fun h => congrArg (· + 1) h
      intro r hr
      exact ih (by omega) (by omega) hedge' hbefore' h r (by omega)
    · rename_i htaken
      have hbefore' : ∀ r, r + need ≤ i + 1 → ¬ Vacant free r need := by
        intro r hr hv
        by_cases hlt : r + need ≤ i
        · exact hbefore r hlt hv
        · exact htaken (hv i (by omega) (by omega))
      intro r hr
      exact ih (Nat.zero_le _) (by omega) (.inr (Bool.not_eq_true _ ▸ htaken)) hbefore' h r
        (by omega)

/-- What `seg_alloc` hands out. -/
lemma segAlloc_spec {g' : Segment} (h : segAlloc g size = some (p, g')) :
    ∃ start < segSlots, p = g.ptr start ∧ Vacant g.freeBitmap start (slotsNeeded size) ∧
      start + slotsNeeded size ≤ segSlots ∧
      g' = { g with
        freeBitmap := setRun g.freeBitmap start (slotsNeeded size) false
        control := setUsed g.control (g.used + slotsNeeded size) } := by
  obtain ⟨start, hf, he⟩ := Option.map_eq_some_iff.mp h
  cases he
  rcases Nat.eq_zero_or_pos (slotsNeeded size) with h0 | hpos
  · rw [h0] at hf ⊢
    have hlt := findCells_zero hf
    exact ⟨start, by omega, rfl, fun k _ _ => by omega, by omega, rfl⟩
  · obtain ⟨h1, h2⟩ := findCells_vacant (Nat.zero_le 0) (fun k _ _ => by omega) (by omega) hpos hf
    exact ⟨start, by omega, rfl, h1, by omega, rfl⟩

/-- `seg_alloc` returns `NULL` only where no run of free cells is long enough. -/
lemma segAlloc_none (h : segAlloc g size = none) (hneed : 0 < slotsNeeded size) {start : ℕ}
    (hfit : start + slotsNeeded size ≤ segSlots) : ¬ Vacant g.freeBitmap start (slotsNeeded size) :=
  findCells_none (Nat.zero_le 0) hneed (.inl rfl) (fun r _ => by omega)
    (Option.map_eq_none_iff.mp h)
    start (by omega)

/-- The address of a cell lies in the data of the segment. -/
lemma Segment.ptr_mem {start : ℕ} (g : Segment) (hstart : start < segSlots) :
    (g.ptr start).map = g.map ∧ segHdrSize ≤ (g.ptr start).off ∧
      (g.ptr start).off - segHdrSize < segDataSize := by
  have hslots : segSlots = 1021 := rfl
  have hdata : segDataSize = 65384 := rfl
  refine ⟨rfl, Nat.le_add_right _ _, ?_⟩
  unfold Segment.ptr
  rw [Nat.add_sub_cancel_left, segGranularity]
  omega

/-- `seg_free` of a block of the segment. -/
lemma segFree_ptr {start : ℕ} (hflags : g.flags = false) (hstart : start < segSlots)
    (hfit : start + slotsNeeded size ≤ segSlots) : segFree g (g.ptr start) size =
      some { g with
        freeBitmap := setRun g.freeBitmap start (slotsNeeded size) true
        control := setUsed g.control (g.used - slotsNeeded size) } := by
  have hoff : (g.ptr start).off - segHdrSize = start * segGranularity := Nat.add_sub_cancel_left ..
  unfold segFree
  rw [if_neg (by rw [hflags]; exact Bool.false_ne_true), if_pos (g.ptr_mem hstart), hoff,
    Nat.mul_div_cancel _ (by decide)]
  dsimp only
  rw [min_eq_left (by omega)]

/-- `seg_free` of a pointer into another mapping. -/
lemma segFree_none (hflags : g.flags = false) (h : p.map ≠ g.map) : segFree g p size = none := by
  unfold segFree
  rw [if_neg (by rw [hflags]; exact Bool.false_ne_true), if_neg fun hc => h hc.1]

end Draugr.Memory
