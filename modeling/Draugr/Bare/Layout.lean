import Draugr.Lib.RobinHood
import Draugr.Lib.ListSet
import Draugr.Bare.Defs

/-!
# The main array as a Robin-Hood layout

The bridge from `HtBare` to the ring layouts of `Draugr.Lib.RobinHood`: `HtBare.layout` forgets
everything but the probe distances, a write of a slot is a `Function.update` of the layout
(`HtBare.layout_setSlot`), and `HtBare.contents` is the multiset of `(hash, value)` entries of the
three lanes. `Sound n t` is the invariant of a table of capacity `n` that every operation keeps: all
entries are reached by the search, and each live slot carries its displacement as its probe
distance.
-/

namespace Draugr
open Lib

/-- What the search sees of a slot. -/
def Slot.cell (s : Slot) : Cell := if s.Empty then .empty else if s.Tomb then .tomb else .live s.pd

/-- The layout of the main array, read on a ring of `n` cells. -/
def HtBare.layout (t : HtBare) (n : ℕ) : Layout n := fun p => (t.slot p.val).cell

/-- The `(hash, value)` entries of the main array, the spill lane and the overflow stash. -/
def HtBare.contents (t : HtBare) : Multiset (ℕ × ℕ) :=
  (liveEntries t.main : Multiset (ℕ × ℕ)) + (t.spill : Multiset (ℕ × ℕ)) +
  (t.overflow : Multiset (ℕ × ℕ))

/-! ## Slots -/

/-- The cell of a live slot shows its distance. -/
lemma Slot.cell_live {s : Slot} (h : s.Live) : s.cell = .live s.pd := by
  unfold Slot.Live at h
  rw [Slot.cell, if_neg (by unfold Slot.Empty; omega), if_neg (by unfold Slot.Tomb; omega)]

/-- The cell of a tombstone. -/
lemma Slot.cell_tomb {s : Slot} (h : s.Tomb) : s.cell = .tomb := by
  have h0 : ¬ s.Empty := by
    unfold Slot.Tomb at h
    unfold Slot.Empty
    omega
  rw [Slot.cell, if_neg h0, if_pos h]

/-- The cell of an empty slot. -/
lemma Slot.cell_empty {s : Slot} (h : s.Empty) : s.cell = .empty := by
  rw [Slot.cell, if_pos h]

/-- A slot whose cell is live holds an entry at that distance. -/
lemma Slot.live_of_cell {s : Slot} {e : ℕ} (h : s.cell = .live e) : s.Live ∧ s.pd = e := by
  unfold Slot.cell at h
  split at h
  · cases h
  · split at h
    · cases h
    · rename_i h0 h1
      cases h
      unfold Slot.Empty at h0
      unfold Slot.Tomb at h1
      exact ⟨by unfold Slot.Live; omega, rfl⟩

/-- A slot is empty, a tombstone or live. -/
lemma Slot.trichotomy (s : Slot) : s.Empty ∨ s.Tomb ∨ s.Live := by
  unfold Slot.Empty Slot.Tomb Slot.Live
  omega

/-- A live slot is no tombstone. -/
lemma Slot.Live.not_tomb {s : Slot} (h : s.Live) : ¬ s.Tomb := by
  unfold Slot.Live at h
  unfold Slot.Tomb
  omega

/-- A live slot is not empty. -/
lemma Slot.Live.not_empty {s : Slot} (h : s.Live) : ¬ s.Empty := by
  unfold Slot.Live at h
  unfold Slot.Empty
  omega

/-- A tombstone is not live. -/
lemma Slot.Tomb.not_live {s : Slot} (h : s.Tomb) : ¬ s.Live := fun hl => hl.not_tomb h

/-- An empty slot is not live. -/
lemma Slot.Empty.not_live {s : Slot} (h : s.Empty) : ¬ s.Live := fun hl => hl.not_empty h

/-- A tombstone is not empty. -/
lemma Slot.Tomb.not_empty {s : Slot} (h : s.Tomb) : ¬ s.Empty := by
  unfold Slot.Tomb at h
  unfold Slot.Empty
  omega

/-- The tombstone that the code writes is one. -/
lemma Slot.tombSlot_tomb : Slot.tombSlot.Tomb := rfl

/-- The empty slot that the code writes is empty. -/
lemma Slot.emptySlot_empty : Slot.emptySlot.Empty := rfl

/-- The entry of a live slot. -/
lemma Slot.entry_live {s : Slot} (h : s.Live) : s.entry = some (s.hash, s.val) := if_pos h

/-- A slot that is not live holds no entry. -/
lemma Slot.entry_not_live {s : Slot} (h : ¬ s.Live) : s.entry = none := if_neg h

/-- Packing loses nothing of a 48-bit hash and a 16-bit distance. -/
lemma hpdPack_eq {h d v : ℕ} (hh : h < 2 ^ 48) (hd : d < 2 ^ 16) : hpdPack h d v = ⟨h, d, v⟩ := by
  unfold hpdPack h48
  rw [Nat.mod_eq_of_lt hh, Nat.mod_eq_of_lt hd]

/-- A packed entry is live. -/
lemma hpdPack_live {h d v : ℕ} (h2 : 2 ≤ h) (hh : h < 2 ^ 48) : (hpdPack h d v).Live := by
  unfold Slot.Live hpdPack h48
  rw [Nat.mod_eq_of_lt hh]
  exact h2

/-! ## Reading and writing the main array -/

variable {n : ℕ} {t : HtBare} {i j : ℕ} {s : Slot}

/-- A written slot keeps the capacity. -/
@[simp] lemma HtBare.capacity_setSlot (t : HtBare) (i : ℕ) (s : Slot) :
    (t.setSlot i s).capacity = t.capacity := List.length_set

/-- The slots after one was written. -/
lemma HtBare.slot_setSlot (s : Slot) (hi : i < t.capacity) :
    (t.setSlot i s).slot j = if j = i then s else t.slot j :=
  getD_set t.main i j s Slot.emptySlot hi

/-- The layout at a natural number. -/
lemma HtBare.layout_natCast (t : HtBare) (n i : ℕ) :
    t.layout n (i : ZMod n) = (t.slot (i % n)).cell := by
  unfold HtBare.layout
  rw [ZMod.val_natCast]

/-- The layout at the index of a slot. -/
lemma HtBare.layout_slot (t : HtBare) (hi : i < n) : t.layout n (i : ZMod n) = (t.slot i).cell := by
  rw [HtBare.layout_natCast, Nat.mod_eq_of_lt hi]

/-- Writing a slot updates one cell of the layout. -/
lemma HtBare.layout_setSlot [NeZero n] (hc : t.capacity = n) (hi : i < n) (s : Slot) :
    (t.setSlot i s).layout n = Function.update (t.layout n) (i : ZMod n) s.cell := by
  funext p
  unfold HtBare.layout
  rw [HtBare.slot_setSlot s (by omega)]
  by_cases hp : p = (i : ZMod n)
  · rw [hp, Function.update_self, ZMod.val_natCast, Nat.mod_eq_of_lt hi, if_pos rfl]
  · rw [Function.update_of_ne hp, if_neg]
    intro he
    apply hp
    rw [← he, ZMod.natCast_zmod_val]

/-- Reading the next index is adding one on the ring. -/
lemma natCast_succ_mod (n i : ℕ) : (((i + 1) % n : ℕ) : ZMod n) = (i : ZMod n) + 1 := by
  rw [ZMod.natCast_mod]
  push_cast
  rfl

/-- Writing a slot exchanges the entry it held for the new one. -/
lemma liveEntries_setSlot (s : Slot) (hi : i < t.capacity) :
    (liveEntries (t.setSlot i s).main ++ (t.slot i).entry.toList).Perm
      (liveEntries t.main ++ s.entry.toList) :=
  filterMap_set_perm Slot.entry t.main i s Slot.emptySlot hi

/-- Writing an entry over an empty slot or a tombstone adds it. -/
lemma HtBare.contents_write (hi : i < t.capacity) (hs : ¬ (t.slot i).Live) (hl : s.Live) :
    (t.setSlot i s).contents = (s.hash, s.val) ::ₘ t.contents := by
  have h := liveEntries_setSlot (t := t) s hi
  rw [Slot.entry_not_live hs, Slot.entry_live hl] at h
  simp only [Option.toList_none, List.append_nil, Option.toList_some] at h
  unfold HtBare.contents
  rw [Multiset.coe_eq_coe.mpr h, ← Multiset.coe_add, Multiset.coe_singleton]
  simp only [HtBare.setSlot, ← Multiset.singleton_add]
  abel

/-- Writing an entry over another one adds the first and drops the second. -/
lemma HtBare.contents_overwrite (hi : i < t.capacity) (hs : (t.slot i).Live) (hl : s.Live) :
    ((t.slot i).hash, (t.slot i).val) ::ₘ (t.setSlot i s).contents =
      (s.hash, s.val) ::ₘ t.contents := by
  have h := liveEntries_setSlot (t := t) s hi
  rw [Slot.entry_live hs, Slot.entry_live hl] at h
  simp only [Option.toList_some] at h
  have h' := Multiset.coe_eq_coe.mpr h
  simp only [← Multiset.coe_add, Multiset.coe_singleton] at h'
  unfold HtBare.contents
  simp only [HtBare.setSlot, ← Multiset.singleton_add] at h' ⊢
  calc {((t.slot i).hash, (t.slot i).val)} +
    (↑(liveEntries (t.main.set i s)) + ↑t.spill + ↑t.overflow)
      = (↑(liveEntries (t.main.set i s)) + {((t.slot i).hash, (t.slot i).val)}) +
          (↑t.spill + ↑t.overflow : Multiset (ℕ × ℕ)) := by abel
    _ = _ := by rw [h']; abel

/-- Writing an empty slot or a tombstone over an entry drops it. -/
lemma HtBare.contents_drop (hi : i < t.capacity) (hs : (t.slot i).Live) (hl : ¬ s.Live) :
    ((t.slot i).hash, (t.slot i).val) ::ₘ (t.setSlot i s).contents = t.contents := by
  have h := liveEntries_setSlot (t := t) s hi
  rw [Slot.entry_live hs, Slot.entry_not_live hl] at h
  simp only [Option.toList_some, Option.toList_none, List.append_nil] at h
  have h' := Multiset.coe_eq_coe.mpr h
  simp only [← Multiset.coe_add, Multiset.coe_singleton] at h'
  unfold HtBare.contents
  rw [← h']
  simp only [HtBare.setSlot, ← Multiset.singleton_add]
  abel

/-- Writing a dead slot over a dead slot keeps the contents. -/
lemma HtBare.contents_dead (hi : i < t.capacity) (hs : ¬ (t.slot i).Live) (hl : ¬ s.Live) :
    (t.setSlot i s).contents = t.contents := by
  have h := liveEntries_setSlot (t := t) s hi
  rw [Slot.entry_not_live hs, Slot.entry_not_live hl] at h
  simp only [Option.toList_none, List.append_nil] at h
  unfold HtBare.contents
  rw [Multiset.coe_eq_coe.mpr h]
  rfl

end Draugr
