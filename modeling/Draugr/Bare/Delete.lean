import Draugr.Bare.Sound

/-!
# Deletion keeps the index sound

`ht_bare_remove_val` turns the slot of the entry into a tombstone and calls `bare_delete_compact`,
which shifts the chain behind it back when the chain ends at an empty slot.

`bare_commit_backward_shift` empties every slot it has read before the entries further on have moved
up, so its intermediate tables are not sound. The proof runs a second loop beside it, `shiftFrom`,
that leaves tombstones behind instead of empty slots: each of its steps is a move back over a run of
tombstones (`Reach.moveBack`), hence keeps the table sound. Emptying the run of tombstones that is
left before the empty slot at the end of the chain (`Reach.exhume`) gives the table of the source.
-/

namespace Draugr
open Lib

variable {n : ℕ} {t t' : HtBare} {idx i w k : ℕ}

/-- Slot `j` counted from `idx` around the ring. -/
def HtBare.at (t : HtBare) (n idx j : ℕ) : Slot := t.slot ((idx + j) % n)

/-- Writes slot `j` counted from `idx` around the ring. -/
def HtBare.put (t : HtBare) (n idx j : ℕ) (s : Slot) : HtBare := t.setSlot ((idx + j) % n) s

/-- `commitFrom` without emptying: the slots read become tombstones, and no counter changes. -/
def shiftFrom (n idx : ℕ) : ℕ → ℕ → ℕ → HtBare → HtBare
  | 0, _, _, t => t
  | m + 1, i, w, t =>
    let s := t.at n idx (i + 1)
    if s.Live then
      shiftFrom n idx m (i + 1) (w + 1)
        ((t.put n idx (i + 1) Slot.tombSlot).put n idx w
          (hpdPack s.hash (s.pd - (i + 1 - w)) s.val))
    else shiftFrom n idx m (i + 1) w t

/-- The run of `m` slots from offset `w` on becomes empty. -/
def emptyRun (n idx w : ℕ) : ℕ → HtBare → HtBare
  | 0, t => t
  | m + 1, t => emptyRun n idx w m (t.put n idx (w + m) Slot.emptySlot)

/-- Two offsets below the capacity name different slots. -/
lemma offset_ne {a b : ℕ} (ha : a < n) (hb : b < n) (h : a ≠ b) :
    (idx + a) % n ≠ (idx + b) % n := by
  intro he
  apply h
  have hm : a ≡ b [MOD n] := Nat.ModEq.add_left_cancel' idx he
  rw [Nat.ModEq, Nat.mod_eq_of_lt ha, Nat.mod_eq_of_lt hb] at hm
  exact hm

/-- Reading an offset after a write at an offset. -/
lemma HtBare.at_put {a b : ℕ} {s : Slot} (hc : t.capacity = n) (ha : a < n) (hb : b < n) :
    (t.put n idx a s).at n idx b = if b = a then s else t.at n idx b := by
  have hpos : 0 < n := by omega
  show (t.setSlot _ s).slot _ = _
  rw [HtBare.slot_setSlot s (by rw [hc]; exact Nat.mod_lt _ hpos)]
  by_cases h : b = a
  · rw [if_pos h, if_pos (by rw [h])]
  · rw [if_neg h, if_neg (offset_ne hb ha h)]
    rfl

/-- A written slot keeps the capacity. -/
@[simp] lemma HtBare.capacity_put (t : HtBare) (n idx j : ℕ) (s : Slot) :
    (t.put n idx j s).capacity = t.capacity := HtBare.capacity_setSlot _ _ _

/-- The layout at an offset. -/
lemma HtBare.layout_offset (t : HtBare) (n idx j : ℕ) :
    t.layout n ((idx : ZMod n) + (j : ZMod n)) = (t.at n idx j).cell := by
  have h := HtBare.layout_natCast t n (idx + j)
  push_cast at h
  exact h

/-- Index and ring position of an offset. -/
lemma offset_natCast (n idx j : ℕ) :
    (((idx + j) % n : ℕ) : ZMod n) = (idx : ZMod n) + (j : ZMod n) := by
  rw [ZMod.natCast_mod]
  push_cast
  rfl

/-! ## The shift with tombstones left behind -/

/-- Moving an entry back over the run of tombstones before it keeps the table sound, with the same
entries. -/
lemma Sound.shiftOne {s : Slot} (hS : Sound n t) (hwi : w ≤ i) (hin : i + 1 < n)
    (hs : t.at n idx (i + 1) = s) (hlive : s.Live) (hpd : i + 1 - w ≤ s.pd)
    (hgap : ∀ j, w ≤ j → j ≤ i → (t.at n idx j).Tomb) :
    Sound n ((t.put n idx (i + 1) Slot.tombSlot).put n idx w
      (hpdPack s.hash (s.pd - (i + 1 - w)) s.val)) ∧
    ((t.put n idx (i + 1) Slot.tombSlot).put n idx w
      (hpdPack s.hash (s.pd - (i + 1 - w)) s.val)).contents = t.contents := by
  have : NeZero n := ⟨hS.pos.ne'⟩
  have hri : (idx + (i + 1)) % n < n := Nat.mod_lt _ hS.pos
  have hwr : (idx + w) % n < n := Nat.mod_lt _ hS.pos
  have hslot : t.slot ((idx + (i + 1)) % n) = s := hs
  have hlive₀ : (t.slot ((idx + (i + 1)) % n)).Live := hslot ▸ hlive
  have hseat : Seated n ((idx + (i + 1)) % n) s := hslot ▸ hS.slots _ hri hlive₀
  have hlim : t.overflowViolated = false → 0 < t.maxProbeDist → s.pd ≤ t.maxProbeDist :=
    fun h1 h2 => hslot ▸ hS.limit h1 h2 _ hri hlive₀
  have hdrop := HtBare.contents_drop (t := t) (s := Slot.tombSlot) (by rw [hS.cap]; exact hri)
    hlive₀ Slot.tombSlot_tomb.not_live
  rw [hslot] at hdrop
  have hpd16 := hseat.pd16
  have hpdn := hseat.pd_lt
  rw [hpdPack_eq hseat.hash48 (by omega)]
  have hlive' : (⟨s.hash, s.pd - (i + 1 - w), s.val⟩ : Slot).Live := hlive
  have hS₁ : Sound n (t.put n idx (i + 1) Slot.tombSlot) := by
    refine hS.write hri ?_ ?_ ?_ ?_
    · rw [Slot.cell_tomb Slot.tombSlot_tomb]
      exact hS.reach.bury _
    all_goals exact fun h => absurd h Slot.tombSlot_tomb.not_live
  constructor
  · refine hS₁.write hwr ?_ ?_ ?_ ?_
    · have hp : (idx : ZMod n) + ((i + 1 : ℕ) : ZMod n) =
          ((idx : ZMod n) + (w : ZMod n)) + ((i + 1 - w : ℕ) : ZMod n) := by
        have e : i + 1 = w + (i + 1 - w) := by omega
        rw [add_assoc, ← Nat.cast_add w, ← e]
      have hlay : (t.put n idx (i + 1) Slot.tombSlot).layout n =
          Function.update (t.layout n) ((idx : ZMod n) + ((i + 1 : ℕ) : ZMod n)) .tomb := by
        unfold HtBare.put
        rw [HtBare.layout_setSlot hS.cap hri, offset_natCast,
          Slot.cell_tomb Slot.tombSlot_tomb]
      rw [hlay, Slot.cell_live hlive', offset_natCast, hp]
      refine hS.reach.moveBack ?_ (by omega) hpd hpdn ?_
      · rw [← hp, HtBare.layout_offset, hs, Slot.cell_live hlive]
      · intro k hk
        rw [add_assoc, ← Nat.cast_add, HtBare.layout_offset]
        exact Slot.cell_tomb (hgap (w + k) (by omega) (by omega))
    · intro _
      refine ⟨?_, by simp only; omega, by simp only; omega, hseat.hash48⟩
      -- moving back by `g` slots lowers the distance by `g`
      have h2 : s.hash + (s.pd - (i + 1 - w)) + (i + 1 - w) ≡ idx + w + (i + 1 - w) [MOD n] := by
        rw [show s.hash + (s.pd - (i + 1 - w)) + (i + 1 - w) = s.hash + s.pd by omega,
          show idx + w + (i + 1 - w) = idx + (i + 1) by omega]
        exact hseat.ideal.trans (Nat.mod_mod _ _).symm |>.trans (Nat.mod_mod _ _)
      exact Nat.ModEq.add_right_cancel' _ h2
    · intro _ h1 h2
      exact le_trans (Nat.sub_le _ _) (hlim h1 h2)
    · intro _
      apply hS.vals (s.hash, s.val)
      rw [← hdrop]
      exact Multiset.mem_cons_self _ _
  · -- the entry is dropped at the old place and written at the new one
    have hdead : ¬ ((t.put n idx (i + 1) Slot.tombSlot).at n idx w).Live := by
      rw [HtBare.at_put hS.cap hin (by omega), if_neg (by omega)]
      exact (hgap w (le_refl _) hwi).not_live
    have h1 := HtBare.contents_write (t := t.put n idx (i + 1) Slot.tombSlot)
      (by rw [hS₁.cap]; exact hwr) hdead hlive'
    exact h1.trans hdrop

/-- What a test of the chain says about its next entry. -/
lemma verifyFrom_live {m : ℕ} (hc : t.capacity = n) (hlive : (t.at n idx (i + 1)).Live)
    (hv : verifyFrom t idx (m + 1) i w = true) :
    i + 1 - w ≤ (t.at n idx (i + 1)).pd ∧ verifyFrom t idx m (i + 1) (w + 1) = true := by
  have hs : t.slot ((idx + 1 + i) % t.capacity) = t.at n idx (i + 1) := by
    rw [hc, show idx + 1 + i = idx + (i + 1) by omega]
    rfl
  rw [verifyFrom, hs, if_neg (not_not.mpr hlive)] at hv
  simp only at hv
  split at hv
  · cases hv
  · split at hv
    · cases hv
    · rename_i h
      exact ⟨not_lt.mp h, hv⟩

/-- The test goes past a tombstone. -/
lemma verifyFrom_dead {m : ℕ} (hc : t.capacity = n) (hdead : ¬ (t.at n idx (i + 1)).Live)
    (hv : verifyFrom t idx (m + 1) i w = true) : verifyFrom t idx m (i + 1) w = true := by
  have hs : t.slot ((idx + 1 + i) % t.capacity) = t.at n idx (i + 1) := by
    rw [hc, show idx + 1 + i = idx + (i + 1) by omega]
    rfl
  rw [verifyFrom, hs, if_pos hdead] at hv
  exact hv

/-- The test only reads the slots ahead. -/
lemma verifyFrom_congr {m : ℕ} (hc : t.capacity = n) (hc' : t'.capacity = n) (hn : i + m < n)
    (h : ∀ j, i < j → j ≤ i + m → t'.at n idx j = t.at n idx j) :
    verifyFrom t' idx m i w = verifyFrom t idx m i w := by
  induction m generalizing i w with
  | zero => rfl
  | succ m ih =>
    have hs : t'.slot ((idx + 1 + i) % t'.capacity) = t.slot ((idx + 1 + i) % t.capacity) := by
      rw [hc, hc', show idx + 1 + i = idx + (i + 1) by omega]
      exact h (i + 1) (by omega) (by omega)
    have ih' := fun w => @ih (i + 1) w (by omega) fun j h1 h2 => h j (by omega) (by omega)
    rw [verifyFrom, verifyFrom, hs, hc, hc', ih', ih']

/-- The rule of the shift: what a single move back over the gap keeps, the shift keeps. -/
lemma shiftFrom_keeps {Q : HtBare → Prop} {m : ℕ} (hcap : ∀ {t}, Q t → t.capacity = n)
    (hmove : ∀ {t i w s}, Q t → w ≤ i → i + 1 < n → t.at n idx (i + 1) = s → s.Live →
      i + 1 - w ≤ s.pd → (∀ j, w ≤ j → j ≤ i → (t.at n idx j).Tomb) →
      Q ((t.put n idx (i + 1) Slot.tombSlot).put n idx w
        (hpdPack s.hash (s.pd - (i + 1 - w)) s.val)))
    (hQ : Q t) (hwi : w ≤ i) (hn : i + m < n)
    (hgap : ∀ j, w ≤ j → j ≤ i → (t.at n idx j).Tomb)
    (hne : ∀ j, i < j → j ≤ i + m → ¬ (t.at n idx j).Empty)
    (hv : verifyFrom t idx m i w = true) : Q (shiftFrom n idx m i w t) := by
  induction m generalizing i w t with
  | zero => exact hQ
  | succ m ih =>
    have hc := hcap hQ
    rw [shiftFrom]
    split
    · -- an entry: it moves back over the gap
      rename_i hlive
      obtain ⟨hpd, hv'⟩ := verifyFrom_live hc hlive hv
      have hQ' := hmove hQ hwi (by omega) rfl hlive hpd hgap
      generalize hpack : hpdPack (t.at n idx (i + 1)).hash
        ((t.at n idx (i + 1)).pd - (i + 1 - w)) (t.at n idx (i + 1)).val = s at hQ' ⊢
      have hcap₁ : (t.put n idx (i + 1) Slot.tombSlot).capacity = n := by
        rw [HtBare.capacity_put, hc]
      have hat : ∀ j, j < n → w < j → i + 1 ≠ j →
          ((t.put n idx (i + 1) Slot.tombSlot).put n idx w s).at n idx j = t.at n idx j := by
        intro j hj hwj hij
        rw [HtBare.at_put hcap₁ (by omega) hj, if_neg (by omega),
          HtBare.at_put hc (by omega) hj, if_neg (by omega)]
      have hahead : ∀ j, i + 1 < j → j ≤ i + 1 + m →
          ((t.put n idx (i + 1) Slot.tombSlot).put n idx w s).at n idx j = t.at n idx j :=
        fun j h1 h2 => hat j (by omega) (by omega) (by omega)
      refine @ih _ (i + 1) (w + 1) hQ' (by omega) (by omega) ?_ ?_ ?_
      · intro j h1 h2
        rcases Nat.eq_or_lt_of_le h2 with rfl | hlt
        · rw [HtBare.at_put hcap₁ (by omega) (by omega), if_neg (by omega),
            HtBare.at_put hc (by omega) (by omega), if_pos rfl]
          exact Slot.tombSlot_tomb
        · rw [hat j (by omega) (by omega) (by omega)]
          exact hgap j (by omega) (by omega)
      · intro j h1 h2
        rw [hahead j h1 h2]
        exact hne j (by omega) (by omega)
      · rw [verifyFrom_congr hc (hcap hQ') (by omega) hahead]
        exact hv'
    · -- a tombstone: the gap grows
      rename_i hdead
      refine ih hQ (by omega) (by omega) ?_ (fun j h1 h2 => hne j (by omega) (by omega))
        (verifyFrom_dead hc hdead hv)
      intro j h1 h2
      rcases Nat.eq_or_lt_of_le h2 with rfl | hlt
      · exact ((Slot.trichotomy _).resolve_left (hne (i + 1) (by omega) (by omega))).resolve_right
          hdead
      · exact hgap j h1 (by omega)

/-- The shift keeps the table sound, with the same entries. -/
lemma shiftFrom_sound {m : ℕ} (hS : Sound n t) (hwi : w ≤ i) (hn : i + m < n)
    (hgap : ∀ j, w ≤ j → j ≤ i → (t.at n idx j).Tomb)
    (hne : ∀ j, i < j → j ≤ i + m → ¬ (t.at n idx j).Empty)
    (hv : verifyFrom t idx m i w = true) :
    Sound n (shiftFrom n idx m i w t) ∧ (shiftFrom n idx m i w t).contents = t.contents := by
  refine shiftFrom_keeps (Q := fun t' => Sound n t' ∧ t'.contents = t.contents)
    (fun h => h.1.cap) ?_ ⟨hS, rfl⟩ hwi hn hgap hne hv
  rintro t' i w s ⟨hS', hcon'⟩ hwi hin hs hlive hpd hgap
  obtain ⟨hS'', hcon''⟩ := hS'.shiftOne hwi hin hs hlive hpd hgap
  exact ⟨hS'', hcon''.trans hcon'⟩

/-! ## Emptying the run of tombstones -/

/-- A run of dead slots before an empty slot can be emptied. -/
lemma emptyRun_sound {m : ℕ} (idx : ℕ) (hS : Sound n t) (hn : w + m < n)
    (hdead : ∀ j, w ≤ j → j < w + m → ¬ (t.at n idx j).Live)
    (hend : (t.at n idx (w + m)).Empty) :
    Sound n (emptyRun n idx w m t) ∧ (emptyRun n idx w m t).contents = t.contents := by
  induction m generalizing t with
  | zero => exact ⟨hS, rfl⟩
  | succ m ih =>
    have : NeZero n := ⟨hS.pos.ne'⟩
    have hri : (idx + (w + m)) % n < n := Nat.mod_lt _ hS.pos
    have hS₁ : Sound n (t.put n idx (w + m) Slot.emptySlot) := by
      refine hS.write hri ?_ ?_ ?_ ?_
      · rw [Slot.cell_empty Slot.emptySlot_empty, offset_natCast]
        apply hS.reach.exhume
        have e : (idx : ZMod n) + ((w + m : ℕ) : ZMod n) + 1 =
            (idx : ZMod n) + ((w + (m + 1) : ℕ) : ZMod n) := by push_cast; ring
        rw [e, HtBare.layout_offset, Slot.cell_empty hend]
      all_goals exact fun h => absurd h Slot.emptySlot_empty.not_live
    have hcon : (t.put n idx (w + m) Slot.emptySlot).contents = t.contents :=
      HtBare.contents_dead (by rw [hS.cap]; exact hri) (hdead (w + m) (by omega) (by omega))
        Slot.emptySlot_empty.not_live
    rw [emptyRun]
    have := ih hS₁ (by omega) ?_ ?_
    · exact ⟨this.1, this.2.trans hcon⟩
    · intro j h1 h2
      rw [HtBare.at_put hS.cap (by omega) (by omega), if_neg (by omega)]
      exact hdead j h1 (by omega)
    · rw [HtBare.at_put hS.cap (by omega) (by omega), if_pos rfl]
      exact Slot.emptySlot_empty

/-- The emptied run. -/
lemma emptyRun_at {m j : ℕ} (hc : t.capacity = n) (hn : w + m ≤ n) (hj : j < n) :
    (emptyRun n idx w m t).at n idx j =
      if w ≤ j ∧ j < w + m then Slot.emptySlot else t.at n idx j := by
  induction m generalizing t with
  | zero =>
    rw [if_neg (by omega)]
    rfl
  | succ m ih =>
    rw [emptyRun, ih (by rw [HtBare.capacity_put, hc]) (by omega),
      HtBare.at_put hc (by omega) hj]
    by_cases h1 : w ≤ j ∧ j < w + m
    · rw [if_pos h1, if_pos (by omega)]
    · rw [if_neg h1]
      by_cases h2 : j = w + m
      · rw [if_pos h2, if_pos (by omega)]
      · rw [if_neg h2, if_neg (by omega)]

/-! ## The loop of the source -/

/-- The number of entries at the `m` offsets after `i`. -/
def liveAfter (t : HtBare) (n idx i : ℕ) : ℕ → ℕ
  | 0 => 0
  | m + 1 => (if (t.at n idx (i + 1)).Live then 1 else 0) + liveAfter t n idx (i + 1) m

/-- Counting only reads the slots ahead. -/
lemma liveAfter_congr {m : ℕ} (h : ∀ j, i < j → j ≤ i + m → t'.at n idx j = t.at n idx j) :
    liveAfter t' n idx i m = liveAfter t n idx i m := by
  induction m generalizing i with
  | zero => rfl
  | succ m ih =>
    rw [liveAfter, liveAfter, h (i + 1) (by omega) (by omega),
      ih fun j h1 h2 => h j (by omega) (by omega)]

/-- At the end of the shift the gap consists of tombstones, and the slots beyond the chain are
untouched. -/
lemma shiftFrom_at {m : ℕ} (hc : t.capacity = n) (hwi : w ≤ i) (hn : i + m < n)
    (hgap : ∀ j, w ≤ j → j ≤ i → (t.at n idx j).Tomb)
    (hne : ∀ j, i < j → j ≤ i + m → ¬ (t.at n idx j).Empty) :
    (∀ j, w + liveAfter t n idx i m ≤ j → j ≤ i + m →
      ((shiftFrom n idx m i w t).at n idx j).Tomb) ∧
    (∀ j, i + m < j → j < n → (shiftFrom n idx m i w t).at n idx j = t.at n idx j) := by
  induction m generalizing i w t with
  | zero => exact ⟨hgap, fun _ _ _ => rfl⟩
  | succ m ih =>
    rw [shiftFrom, liveAfter]
    split
    · rename_i hlive
      have hcap₁ : (t.put n idx (i + 1) Slot.tombSlot).capacity = n := by
        rw [HtBare.capacity_put, hc]
      generalize hpack : hpdPack (t.at n idx (i + 1)).hash
        ((t.at n idx (i + 1)).pd - (i + 1 - w)) (t.at n idx (i + 1)).val = s
      have hat : ∀ j, j < n → w < j → i + 1 ≠ j →
          ((t.put n idx (i + 1) Slot.tombSlot).put n idx w s).at n idx j = t.at n idx j := by
        intro j hj hwj hij
        rw [HtBare.at_put hcap₁ (by omega) hj, if_neg (by omega),
          HtBare.at_put hc (by omega) hj, if_neg (by omega)]
      have hih := @ih ((t.put n idx (i + 1) Slot.tombSlot).put n idx w s) (i + 1) (w + 1)
        (by rw [HtBare.capacity_put, hcap₁]) (by omega) (by omega) ?_ ?_
      · obtain ⟨h1, h2⟩ := hih
        rw [liveAfter_congr fun j hj1 hj2 => hat j (by omega) (by omega) (by omega)] at h1
        refine ⟨fun j hj1 hj2 => h1 j (by omega) (by omega), fun j hj1 hj2 => ?_⟩
        rw [h2 j (by omega) hj2, hat j hj2 (by omega) (by omega)]
      · intro j hj1 hj2
        rcases Nat.eq_or_lt_of_le hj2 with rfl | hlt
        · rw [HtBare.at_put hcap₁ (by omega) (by omega), if_neg (by omega),
            HtBare.at_put hc (by omega) (by omega), if_pos rfl]
          exact Slot.tombSlot_tomb
        · rw [hat j (by omega) (by omega) (by omega)]
          exact hgap j (by omega) (by omega)
      · intro j hj1 hj2
        rw [hat j (by omega) (by omega) (by omega)]
        exact hne j (by omega) (by omega)
    · rename_i hdead
      have hih := @ih t (i + 1) w hc (by omega) (by omega) ?_
        (fun j hj1 hj2 => hne j (by omega) (by omega))
      · obtain ⟨h1, h2⟩ := hih
        exact ⟨fun j hj1 hj2 => h1 j (by omega) (by omega), fun j hj1 hj2 => h2 j (by omega) hj2⟩
      · intro j hj1 hj2
        rcases Nat.eq_or_lt_of_le hj2 with rfl | hlt
        · exact ((Slot.trichotomy _).resolve_left
            (hne (i + 1) (by omega) (by omega))).resolve_right hdead
        · exact hgap j hj1 (by omega)

/-- There are at most as many entries as slots in the chain. -/
lemma liveAfter_le (t : HtBare) (n idx i m : ℕ) : liveAfter t n idx i m ≤ m := by
  induction m generalizing i with
  | zero => exact le_refl _
  | succ m ih =>
    have := ih (i + 1)
    rw [liveAfter]
    split <;> omega

/-- Beside `shiftFrom`, the loop of the source differs in the gap only: there it leaves empty slots,
except at the deleted slot itself as long as nothing has moved there. It counts the tombstones of
the chain. -/
lemma commitFrom_at {m : ℕ} {ta tv : HtBare} (idx : ℕ) (ha : ta.capacity = n) (hv : tv.capacity = n)
    (hwi : w ≤ i) (hn : i + m < n)
    (h : ∀ j, j < n → ta.at n idx j =
      if max w 1 ≤ j ∧ j ≤ i then Slot.emptySlot else tv.at n idx j) :
    (commitFrom idx m i w ta).capacity = n ∧
    (commitFrom idx m i w ta).tombstoneCnt = sizeDec^[m - liveAfter tv n idx i m] ta.tombstoneCnt ∧
    ∀ j, j < n → (commitFrom idx m i w ta).at n idx j =
      if max (w + liveAfter tv n idx i m) 1 ≤ j ∧ j ≤ i + m then Slot.emptySlot
      else (shiftFrom n idx m i w tv).at n idx j := by
  -- over the slots of the chain that are left: slot `i + 1` is read, slot `w` is the next to write
  induction m generalizing i w ta tv with
  | zero => exact ⟨ha, rfl, h⟩
  | succ m ih =>
    have hread : ta.slot ((idx + 1 + i) % ta.capacity) = tv.at n idx (i + 1) := by
      rw [ha, show idx + 1 + i = idx + (i + 1) by omega]
      have := h (i + 1) (by omega)
      rw [if_neg (by omega)] at this
      exact this
    have hle := liveAfter_le tv n idx (i + 1) m
    rw [commitFrom, shiftFrom, liveAfter]
    simp only [hread]
    split
    -- a live slot moves to `w`
    · rename_i hlive
      generalize hpack : hpdPack (tv.at n idx (i + 1)).hash
        ((tv.at n idx (i + 1)).pd - (i + 1 - w)) (tv.at n idx (i + 1)).val = s
      have hcap₁ : (tv.put n idx (i + 1) Slot.tombSlot).capacity = n := by
        rw [HtBare.capacity_put, hv]
      have hcap₂ : ((tv.put n idx (i + 1) Slot.tombSlot).put n idx w s).capacity = n := by
        rw [HtBare.capacity_put, hcap₁]
      have hta : ((ta.setSlot ((idx + w) % ta.capacity) s).setSlot
          ((idx + 1 + i) % ta.capacity) Slot.emptySlot) =
          (ta.put n idx w s).put n idx (i + 1) Slot.emptySlot := by
        rw [ha, show idx + 1 + i = idx + (i + 1) by omega]
        rfl
      have hlv : liveAfter ((tv.put n idx (i + 1) Slot.tombSlot).put n idx w s) n idx (i + 1) m =
          liveAfter tv n idx (i + 1) m := by
        refine liveAfter_congr fun j hj1 hj2 => ?_
        rw [HtBare.at_put hcap₁ (by omega) (by omega), if_neg (by omega),
          HtBare.at_put hv (by omega) (by omega), if_neg (by omega)]
      rw [hta]
      have hcapw : (ta.put n idx w s).capacity = n := by rw [HtBare.capacity_put, ha]
      have hih := @ih (i + 1) (w + 1) ((ta.put n idx w s).put n idx (i + 1) Slot.emptySlot)
        ((tv.put n idx (i + 1) Slot.tombSlot).put n idx w s)
        (by rw [HtBare.capacity_put, hcapw]) hcap₂ (by omega) (by omega) ?_
      · obtain ⟨h1, h2, h3⟩ := hih
        rw [hlv] at h2
        refine ⟨h1, ?_, fun j hj => ?_⟩
        · rw [h2, show m + 1 - (1 + liveAfter tv n idx (i + 1) m) =
            m - liveAfter tv n idx (i + 1) m by omega]
          rfl
        · rw [h3 j hj, hlv]
          congr 1
          rw [eq_iff_iff]
          omega
      · intro j hj
        rw [HtBare.at_put hcapw (by omega) hj, HtBare.at_put ha (by omega) hj,
          HtBare.at_put hcap₁ (by omega) hj, HtBare.at_put hv (by omega) hj, h j hj]
        split_ifs <;> first | rfl | omega
    -- a tombstone is counted and emptied
    · rename_i hdead
      have hta : (({ ta with tombstoneCnt := sizeDec ta.tombstoneCnt } : HtBare).setSlot
          ((idx + 1 + i) % ta.capacity) Slot.emptySlot) =
          ({ ta with tombstoneCnt := sizeDec ta.tombstoneCnt } : HtBare).put n idx (i + 1)
            Slot.emptySlot := by
        rw [ha, show idx + 1 + i = idx + (i + 1) by omega]
        rfl
      rw [hta]
      have hih := @ih (i + 1) w (({ ta with tombstoneCnt := sizeDec ta.tombstoneCnt } :
        HtBare).put n idx (i + 1) Slot.emptySlot) tv
        (by rw [HtBare.capacity_put]; exact ha) hv (by omega) (by omega) ?_
      · obtain ⟨h1, h2, h3⟩ := hih
        refine ⟨h1, ?_, fun j hj => ?_⟩
        · rw [h2, show m + 1 - (0 + liveAfter tv n idx (i + 1) m) =
            (m - liveAfter tv n idx (i + 1) m) + 1 by omega, Function.iterate_succ_apply]
          rfl
        · rw [h3 j hj]
          congr 1
          rw [eq_iff_iff]
          omega
      · intro j hj
        rw [HtBare.at_put (t := { ta with tombstoneCnt := sizeDec ta.tombstoneCnt }) ha
          (by omega) hj]
        show (if j = i + 1 then Slot.emptySlot else ta.at n idx j) = _
        rw [h j hj]
        split_ifs <;> first | rfl | omega

/-- Neither loop touches anything but the main array and the tombstone count. -/
lemma commitFrom_fields (idx m i w : ℕ) (t : HtBare) :
    commitFrom idx m i w t = { t with
      main := (commitFrom idx m i w t).main
      tombstoneCnt := (commitFrom idx m i w t).tombstoneCnt } := by
  induction m generalizing i w t with
  | zero => rfl
  | succ m ih =>
    rw [commitFrom]
    simp only
    split
    · exact ih _ _ _
    · exact ih _ _ _

/-- Shifting changes the main array only. -/
lemma shiftFrom_fields (n idx m i w : ℕ) (t : HtBare) :
    shiftFrom n idx m i w t = { t with main := (shiftFrom n idx m i w t).main } := by
  induction m generalizing i w t with
  | zero => rfl
  | succ m ih =>
    rw [shiftFrom]
    split
    · exact ih _ _ _
    · exact ih _ _ _

/-- Emptying a run of slots changes the main array only. -/
lemma emptyRun_fields (n idx w m : ℕ) (t : HtBare) :
    emptyRun n idx w m t = { t with main := (emptyRun n idx w m t).main } := by
  induction m generalizing t with
  | zero => rfl
  | succ m ih => exact ih _

/-- Shifting keeps the length of the main array. -/
lemma shiftFrom_length (n idx m i w : ℕ) (t : HtBare) :
    (shiftFrom n idx m i w t).main.length = t.main.length := by
  induction m generalizing i w t with
  | zero => rfl
  | succ m ih =>
    rw [shiftFrom]
    split
    · rw [ih]
      exact (List.length_set).trans List.length_set
    · exact ih _ _ _

/-- Emptying a run of slots keeps the length of the main array. -/
lemma emptyRun_length (n idx w m : ℕ) (t : HtBare) :
    (emptyRun n idx w m t).main.length = t.main.length := by
  induction m generalizing t with
  | zero => rfl
  | succ m ih =>
    rw [emptyRun, ih]
    exact List.length_set

/-- The offsets below the capacity reach every slot. -/
lemma exists_offset (idx : ℕ) {p : ℕ} (hp : p < n) : ∃ j, j < n ∧ (idx + j) % n = p := by
  have hpos : 0 < n := by omega
  refine ⟨(p + (n - idx % n)) % n, Nat.mod_lt _ hpos, ?_⟩
  have hlt := Nat.mod_lt idx hpos
  have e : idx % n + (p + (n - idx % n)) = p + n := by omega
  rw [Nat.add_mod_mod, ← Nat.mod_add_mod, e, Nat.add_mod_right, Nat.mod_eq_of_lt hp]

/-- Tables that agree at every offset have the same main array. -/
lemma main_eq_of_at (idx : ℕ) (hc : t.capacity = n) (hc' : t'.capacity = n)
    (h : ∀ j, j < n → t'.at n idx j = t.at n idx j) : t'.main = t.main := by
  apply List.ext_getElem (hc'.trans hc.symm)
  intro p h1 h2
  have hp : p < n := hc ▸ h2
  obtain ⟨j, hj, hoff⟩ := exists_offset idx hp
  have hs := h j hj
  unfold HtBare.at at hs
  rw [hoff] at hs
  unfold HtBare.slot at hs
  rw [List.getD_eq_getElem?_getD, List.getD_eq_getElem?_getD, List.getElem?_eq_getElem h1,
    List.getElem?_eq_getElem h2] at hs
  exact hs

/-- The backward shift of the source is the shift that leaves tombstones, with the gap emptied. -/
lemma bareCommitBackwardShift_eq {len : ℕ} (hc : t.capacity = n) (hn : len + 1 < n)
    (hlive : 0 < liveAfter t n idx 0 len) :
    bareCommitBackwardShift t idx len =
      { emptyRun n idx (liveAfter t n idx 0 len) (len + 1 - liveAfter t n idx 0 len)
          (shiftFrom n idx len 0 0 t) with
        tombstoneCnt := sizeDec^[len + 1 - liveAfter t n idx 0 len] t.tombstoneCnt } := by
  have hle := liveAfter_le t n idx 0 len
  obtain ⟨hcap, hcnt, hat⟩ := commitFrom_at idx (w := 0) (i := 0) (m := len) hc hc
    (le_refl 0) (by omega) (fun j _ => by rw [if_neg (by omega)])
  generalize hl : liveAfter t n idx 0 len = l at *
  have hcap₁ : (shiftFrom n idx len 0 0 t).capacity = n := by
    rw [HtBare.capacity, shiftFrom_length]
    exact hc
  have hcap₂ : (emptyRun n idx l (len + 1 - l) (shiftFrom n idx len 0 0 t)).capacity = n := by
    rw [HtBare.capacity, emptyRun_length]
    exact hcap₁
  have hmain : (commitFrom idx len 0 0 t).main =
      (emptyRun n idx l (len + 1 - l) (shiftFrom n idx len 0 0 t)).main := by
    refine main_eq_of_at idx hcap₂ hcap fun j hj => ?_
    rw [hat j hj, emptyRun_at hcap₁ (by omega) hj]
    congr 1
    rw [eq_iff_iff]
    omega
  have hf := commitFrom_fields idx len 0 0 t
  have hf' : emptyRun n idx l (len + 1 - l) (shiftFrom n idx len 0 0 t) =
      { t with main := (emptyRun n idx l (len + 1 - l) (shiftFrom n idx len 0 0 t)).main } := by
    have h1 := emptyRun_fields n idx l (len + 1 - l) (shiftFrom n idx len 0 0 t)
    rw [shiftFrom_fields] at h1 ⊢
    exact h1
  unfold bareCommitBackwardShift
  rw [hf, hf', hmain, hcnt, show len + 1 - l = (len - l) + 1 by omega, Function.iterate_succ_apply']

/-- The backward shift keeps the table sound, with the same entries. -/
lemma bareCommitBackwardShift_sound {len : ℕ} (hS : Sound n t) (hn : len + 1 < n)
    (htomb : (t.at n idx 0).Tomb) (hne : ∀ j, 0 < j → j ≤ len → ¬ (t.at n idx j).Empty)
    (hend : (t.at n idx (len + 1)).Empty) (hlive : 0 < liveAfter t n idx 0 len)
    (hv : bareVerifyIdealSafe t idx len = true) :
    Sound n (bareCommitBackwardShift t idx len) ∧
      (bareCommitBackwardShift t idx len).contents = t.contents := by
  have hgap : ∀ j, 0 ≤ j → j ≤ 0 → (t.at n idx j).Tomb := by
    intro j _ hj
    rw [Nat.le_zero.mp hj]
    exact htomb
  have hne' : ∀ j, 0 < j → j ≤ 0 + len → ¬ (t.at n idx j).Empty := fun j h1 h2 =>
    hne j h1 (by omega)
  obtain ⟨hS₁, hcon₁⟩ := shiftFrom_sound hS (le_refl 0) (by omega) hgap hne' hv
  obtain ⟨htail, hrest⟩ := shiftFrom_at hS.cap (le_refl 0) (by omega) hgap hne'
  have hle := liveAfter_le t n idx 0 len
  rw [bareCommitBackwardShift_eq hS.cap hn hlive]
  generalize liveAfter t n idx 0 len = l at *
  obtain ⟨hS₂, hcon₂⟩ := emptyRun_sound idx (w := l) (m := len + 1 - l) hS₁ (by omega)
    (fun j h1 h2 => (htail j (by omega) (by omega)).not_live) (by
      rw [show l + (len + 1 - l) = len + 1 by omega, hrest (len + 1) (by omega) hn]
      exact hend)
  exact ⟨hS₂.congr rfl rfl rfl rfl rfl, hcon₂.trans hcon₁⟩

/-! ## Deleting one entry -/

/-- What the scan of a chain that ends at an empty slot has seen. -/
lemma chainScan_spec {m live len l : ℕ} (hc : t.capacity = n)
    (h : chainScan t m ((idx + (i + 1)) % n) i live = (len, l, true)) :
    i ≤ len ∧ (∀ j, i < j → j ≤ len → ¬ (t.at n idx j).Empty) ∧
      (t.at n idx (len + 1)).Empty ∧ l = live + liveAfter t n idx i (len - i) := by
  induction m generalizing i live with
  | zero => cases h
  | succ m ih =>
    rw [chainScan] at h
    have hnext : ((idx + (i + 1)) % n + 1) % t.capacity = (idx + (i + 1 + 1)) % n := by
      rw [hc, Nat.mod_add_mod]
      rfl
    have hafter : ∀ len, i + 1 ≤ len → liveAfter t n idx i (len - i) =
        (if (t.at n idx (i + 1)).Live then 1 else 0) +
          liveAfter t n idx (i + 1) (len - (i + 1)) := by
      intro len hlen
      rw [show len - i = (len - (i + 1)) + 1 by omega, liveAfter]
    have hne : ∀ {len}, (∀ j, i + 1 < j → j ≤ len → ¬ (t.at n idx j).Empty) →
        ¬ (t.at n idx (i + 1)).Empty → ∀ j, i < j → j ≤ len → ¬ (t.at n idx j).Empty := by
      intro len h1 h2 j hj1 hj2
      rcases Nat.eq_or_lt_of_le (Nat.succ_le_of_lt hj1) with rfl | hlt
      · exact h2
      · exact h1 j hlt hj2
    split at h
    · rename_i hempty
      cases h
      exact ⟨le_refl _, fun j h1 h2 => by omega, hempty, by simp [liveAfter]⟩
    · rename_i hnempty
      split at h
      · rename_i htomb
        rw [hnext] at h
        obtain ⟨h1, h2, h3, h4⟩ := ih h
        refine ⟨by omega, hne h2 hnempty, h3, ?_⟩
        have hdead : ¬ (t.at n idx (i + 1)).Live := htomb.not_live
        rw [hafter len h1, h4, if_neg hdead]
        omega
      · rename_i hntomb
        split at h
        · cases h
        · rw [hnext] at h
          obtain ⟨h1, h2, h3, h4⟩ := ih h
          refine ⟨by omega, hne h2 hnempty, h3, ?_⟩
          have hlive : (t.at n idx (i + 1)).Live :=
            ((Slot.trichotomy _).resolve_left hnempty).resolve_left hntomb
          rw [hafter len h1, h4, if_pos hlive]
          omega

/-- A chain that starts at a tombstone and ends at an empty slot is shorter than the ring. -/
lemma chain_lt {len : ℕ} (hpos : 0 < n) (htomb : (t.at n idx 0).Tomb)
    (hne : ∀ j, 0 < j → j ≤ len → ¬ (t.at n idx j).Empty)
    (hend : (t.at n idx (len + 1)).Empty) : len + 1 < n := by
  by_contra hge
  have hat : t.at n idx ((len + 1) % n) = t.at n idx (len + 1) := by
    unfold HtBare.at
    rw [Nat.add_mod_mod]
  have hlt := Nat.mod_lt (len + 1) hpos
  rcases Nat.eq_zero_or_pos ((len + 1) % n) with h0 | h1
  · rw [h0] at hat
    exact htomb.not_empty (hat ▸ hend)
  · exact hne _ h1 (by omega) (hat ▸ hend)

/-- `t'` is `t` with one entry `(h, v)` less. -/
structure Deleted (n : ℕ) (t : HtBare) (h v : ℕ) (t' : HtBare) : Prop where
  sound : Sound n t'
  contents : (h, v) ::ₘ t'.contents = t.contents
  size : t'.size = sizeDec t.size
  mem : t'.mem = t.mem
  resizing : t'.resizing = t.resizing

/-- `bare_delete_compact` after a deletion keeps the table sound, with the same entries. -/
lemma bareDeleteCompact_sound (hS : Sound n t) (hi : idx < n) (htomb : (t.slot idx).Tomb) :
    Sound n (bareDeleteCompact t idx) ∧ (bareDeleteCompact t idx).contents = t.contents := by
  have htomb' : (t.at n idx 0).Tomb := by
    unfold HtBare.at
    rw [Nat.add_zero, Nat.mod_eq_of_lt hi]
    exact htomb
  unfold bareDeleteCompact
  rcases hscan : chainScan t bshiftCap ((idx + 1) % t.capacity) 0 0 with ⟨len, l, e⟩
  simp only
  split
  · rename_i hgo
    obtain ⟨he, hl, hv⟩ := hgo
    rw [he, hS.cap] at hscan
    obtain ⟨_, hne, hend, hlive⟩ := chainScan_spec (i := 0) hS.cap hscan
    rw [Nat.zero_add, Nat.sub_zero] at hlive
    exact bareCommitBackwardShift_sound hS (chain_lt hS.pos htomb' hne hend) htomb' hne hend
      (hlive ▸ hl) hv
  · exact ⟨hS, rfl⟩

/-- The fields a deletion leaves alone. -/
lemma bareDeleteCompact_fields (t : HtBare) (idx : ℕ) :
    (bareDeleteCompact t idx).size = t.size ∧ (bareDeleteCompact t idx).mem = t.mem ∧
      (bareDeleteCompact t idx).resizing = t.resizing := by
  unfold bareDeleteCompact
  rcases chainScan t bshiftCap ((idx + 1) % t.capacity) 0 0 with ⟨len, l, e⟩
  simp only
  split
  · unfold bareCommitBackwardShift
    rw [commitFrom_fields]
    exact ⟨rfl, rfl, rfl⟩
  · exact ⟨rfl, rfl, rfl⟩

/-- Deleting at a live slot drops exactly its entry. -/
lemma deleteAt_deletes (hS : Sound n t) (hi : idx < n) (hlive : (t.slot idx).Live) :
    Deleted n t (t.slot idx).hash (t.slot idx).val (deleteAt t idx) := by
  have : NeZero n := ⟨hS.pos.ne'⟩
  have hi' : idx < t.capacity := by rw [hS.cap]; exact hi
  have hS₁ : Sound n (t.setSlot idx Slot.tombSlot) := by
    refine hS.write hi ?_ ?_ ?_ ?_
    · rw [Slot.cell_tomb Slot.tombSlot_tomb]
      exact hS.reach.bury _
    all_goals exact fun h => absurd h Slot.tombSlot_tomb.not_live
  have htomb : ((t.setSlot idx Slot.tombSlot).slot idx).Tomb := by
    rw [HtBare.slot_setSlot _ hi', if_pos rfl]
    exact Slot.tombSlot_tomb
  obtain ⟨hS₂, hcon⟩ := bareDeleteCompact_sound (t := { t.setSlot idx Slot.tombSlot with
      size := sizeDec t.size, tombstoneCnt := t.tombstoneCnt + 1 })
    (hS₁.congr rfl rfl rfl rfl rfl) hi htomb
  obtain ⟨hsz, hmem, hrz⟩ := bareDeleteCompact_fields { t.setSlot idx Slot.tombSlot with
      size := sizeDec t.size, tombstoneCnt := t.tombstoneCnt + 1 } idx
  refine ⟨hS₂, ?_, hsz, hmem, hrz⟩
  unfold deleteAt
  rw [hcon]
  exact HtBare.contents_drop (t := t) (s := Slot.tombSlot) hi' hlive Slot.tombSlot_tomb.not_live

end Draugr
