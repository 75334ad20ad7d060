import Draugr.Bare.Counters

/-!
# The bookkeeping over whole runs

`Counted` through deletion, the lanes, rebuilding and the public operations, and from there over
every run (`runCalls_counts`). Deletion reuses the decomposition of the backward shift of
`Draugr.Bare.Delete`: moving an entry back keeps every counter, and each emptied slot of the gap is
one tombstone less, which is what the source subtracts.

Allocations may fail at any point here (`mem` is arbitrary), and the runs are all that end.
-/

namespace Draugr
open Lib

variable {n i w idx : ℕ} {t t' : HtBare} {s : Slot}

/-! ## Deletion -/

/-- Moving an entry back over the gap keeps the bookkeeping. -/
lemma Counted.shiftOne (hC : Counted n t) (hwi : w ≤ i) (hin : i + 1 < n)
    (hs : t.at n idx (i + 1) = s) (hlive : s.Live) (hpd : i + 1 - w ≤ s.pd)
    (hgap : ∀ j, w ≤ j → j ≤ i → (t.at n idx j).Tomb) :
    Counted n ((t.put n idx (i + 1) Slot.tombSlot).put n idx w
      (hpdPack s.hash (s.pd - (i + 1 - w)) s.val)) := by
  have hpos : 0 < n := by omega
  have hri : (idx + (i + 1)) % n < n := Nat.mod_lt _ hpos
  have hwr : (idx + w) % n < n := Nat.mod_lt _ hpos
  have hrc : (idx + (i + 1)) % n < t.capacity := by rw [hC.cap]; exact hri
  have hslot : t.slot ((idx + (i + 1)) % n) = s := hs
  have hlive₀ : (t.slot ((idx + (i + 1)) % n)).Live := hslot ▸ hlive
  have hpl : Placed n ((idx + (i + 1)) % n) s := hslot ▸ hC.slots _ hri hlive₀
  have hcap₁ : (t.put n idx (i + 1) Slot.tombSlot).capacity = n := by
    rw [HtBare.capacity_put, hC.cap]
  have hwc : (idx + w) % n < (t.put n idx (i + 1) Slot.tombSlot).capacity := by
    rw [hcap₁]
    exact hwr
  have hpd16 := hpl.pd16
  rw [hpdPack_eq hpl.hash48 (by omega)]
  have hlive' : (⟨s.hash, s.pd - (i + 1 - w), s.val⟩ : Slot).Live := hlive
  have hmid : ((t.put n idx (i + 1) Slot.tombSlot).slot ((idx + w) % n)).Tomb := by
    have : (t.put n idx (i + 1) Slot.tombSlot).at n idx w = t.at n idx w := by
      rw [HtBare.at_put hC.cap hin (by omega), if_neg (by omega)]
    unfold HtBare.at at this
    rw [this]
    exact hgap w (le_refl _) hwi
  -- the counts go down and up again
  have h1 := liveCount_setSlot (t := t) Slot.tombSlot hrc
  have h2 := tombCount_setSlot (t := t) Slot.tombSlot hrc
  have h3 := liveCount_setSlot (t := t.put n idx (i + 1) Slot.tombSlot)
    ⟨s.hash, s.pd - (i + 1 - w), s.val⟩ hwc
  have h4 := tombCount_setSlot (t := t.put n idx (i + 1) Slot.tombSlot)
    ⟨s.hash, s.pd - (i + 1 - w), s.val⟩ hwc
  rw [if_pos hlive₀, if_neg Slot.tombSlot_tomb.not_live] at h1
  rw [if_neg hlive₀.not_tomb, if_pos Slot.tombSlot_tomb] at h2
  rw [if_neg hmid.not_live, if_pos hlive'] at h3
  rw [if_pos hmid, if_neg hlive'.not_tomb] at h4
  have hput₁ : t.put n idx (i + 1) Slot.tombSlot = t.setSlot ((idx + (i + 1)) % n) Slot.tombSlot :=
    rfl
  rw [hput₁] at h3 h4
  have hplaced : Placed n ((idx + w) % n) ⟨s.hash, s.pd - (i + 1 - w), s.val⟩ := by
    refine ⟨hpl.hash48, by simp only; omega, ?_, fun h => ?_⟩
    · -- moving back by `g` slots lowers the distance by `g`
      obtain ⟨hdn, _⟩ := period_dvd hC.pow2
      have hnear : s.hash + s.pd ≡ idx + (i + 1) [MOD period n] :=
        Nat.ModEq.trans hpl.near (Nat.mod_mod_of_dvd _ hdn)
      have hback : s.hash + (s.pd - (i + 1 - w)) + (i + 1 - w) ≡ idx + w + (i + 1 - w)
          [MOD period n] := by
        rw [show s.hash + (s.pd - (i + 1 - w)) + (i + 1 - w) = s.hash + s.pd by omega,
          show idx + w + (i + 1 - w) = idx + (i + 1) by omega]
        exact hnear
      exact (Nat.ModEq.add_right_cancel' _ hback).trans (Nat.mod_mod_of_dvd _ hdn).symm
    · have := hpl.pd_lt h
      simp only
      omega
  refine ⟨hC.pow2, ?_, ?_, ?_, ?_, hC.overflow, hC.overflowLen⟩
  · rw [HtBare.capacity_put, hcap₁]
  · intro j hj
    unfold HtBare.put at hwc ⊢
    rw [HtBare.slot_setSlot _ hwc]
    split
    · rename_i e
      rw [e]
      exact fun _ => hplaced
    · rw [HtBare.slot_setSlot _ hrc]
      split
      · exact fun h => absurd h Slot.tombSlot_tomb.not_live
      · exact hC.slots j hj
  · show t.size = liveCount ((t.setSlot _ _).setSlot _ _) + t.spill.length + t.overflow.length
    rw [hC.size]
    omega
  · show t.tombstoneCnt = tombCount ((t.setSlot _ _).setSlot _ _)
    rw [hC.tombs]
    omega

/-- Emptying the gap does not depend on the counter. -/
lemma emptyRun_tombstoneCnt (n idx w m k : ℕ) (t : HtBare) :
    emptyRun n idx w m { t with tombstoneCnt := k } =
      { emptyRun n idx w m t with tombstoneCnt := k } := by
  induction m generalizing t with
  | zero => rfl
  | succ m ih => exact ih (t.put n idx (w + m) Slot.emptySlot)

/-- Emptying a run of `m` tombstones lowers the count by `m`. -/
lemma Counted.emptyRun {m : ℕ} (idx : ℕ) (hC : Counted n t) (hn : w + m ≤ n)
    (htomb : ∀ j, w ≤ j → j < w + m → (t.at n idx j).Tomb) :
    Counted n { emptyRun n idx w m t with tombstoneCnt := sizeDec^[m] t.tombstoneCnt } := by
  induction m generalizing t with
  | zero => exact hC
  | succ m ih =>
    have hpos : 0 < n := by omega
    have hi : (idx + (w + m)) % n < n := Nat.mod_lt _ hpos
    have hic : (idx + (w + m)) % n < t.capacity := by rw [hC.cap]; exact hi
    have ht : (t.slot ((idx + (w + m)) % n)).Tomb := htomb (w + m) (by omega) (by omega)
    have h1 := liveCount_setSlot (t := t) Slot.emptySlot hic
    have h2 := tombCount_setSlot (t := t) Slot.emptySlot hic
    rw [if_neg ht.not_live, if_neg Slot.emptySlot_empty.not_live] at h1
    rw [if_pos ht, if_neg (by decide)] at h2
    have hC₁ : Counted n { t.put n idx (w + m) Slot.emptySlot with
        tombstoneCnt := sizeDec t.tombstoneCnt } := by
      refine ⟨hC.pow2, ?_, hC.slots_write hi fun h => absurd h Slot.emptySlot_empty.not_live, ?_,
        ?_, hC.overflow, hC.overflowLen⟩
      · exact (HtBare.capacity_put t n idx (w + m) _).trans hC.cap
      · show t.size = liveCount (t.setSlot _ _) + t.spill.length + t.overflow.length
        rw [hC.size]
        omega
      · show sizeDec t.tombstoneCnt = tombCount (t.setSlot _ _)
        rw [sizeDec_pos (by rw [hC.tombs]; exact tombCount_pos hic ht), hC.tombs]
        omega
    have hih := ih hC₁ (by omega) fun j h1 h2 => by
      show ((t.put n idx (w + m) Slot.emptySlot).at n idx j).Tomb
      rw [HtBare.at_put hC.cap (by omega) (by omega), if_neg (by omega)]
      exact htomb j h1 (by omega)
    rw [emptyRun_tombstoneCnt] at hih
    rw [Draugr.emptyRun, Function.iterate_succ_apply]
    exact hih

/-- `bare_delete_compact` after a deletion keeps the bookkeeping. -/
lemma bareDeleteCompact_counts (hC : Counted n t) (hi : idx < n) (htomb : (t.slot idx).Tomb) :
    Counted n (bareDeleteCompact t idx) := by
  have hpos : 0 < n := by omega
  have htomb' : (t.at n idx 0).Tomb := by
    unfold HtBare.at
    rw [Nat.add_zero, Nat.mod_eq_of_lt hi]
    exact htomb
  have hgap : ∀ j, 0 ≤ j → j ≤ 0 → (t.at n idx j).Tomb := by
    intro j _ hj
    rw [Nat.le_zero.mp hj]
    exact htomb'
  unfold bareDeleteCompact
  rcases hscan : chainScan t bshiftCap ((idx + 1) % t.capacity) 0 0 with ⟨len, l, e⟩
  simp only
  split
  · rename_i hgo
    obtain ⟨he, hl, hv⟩ := hgo
    rw [he, hC.cap] at hscan
    obtain ⟨_, hne, hend, hlive⟩ := chainScan_spec (i := 0) hC.cap hscan
    rw [Nat.zero_add, Nat.sub_zero] at hlive
    have hn := chain_lt hpos htomb' hne hend
    have hne' : ∀ j, 0 < j → j ≤ 0 + len → ¬ (t.at n idx j).Empty := fun j h1 h2 =>
      hne j h1 (by omega)
    have hle := liveAfter_le t n idx 0 len
    have hS : Counted n (shiftFrom n idx len 0 0 t) :=
      shiftFrom_keeps (fun h => h.cap) (fun h => h.shiftOne) hC (le_refl 0) (by omega) hgap hne' hv
    obtain ⟨htail, _⟩ := shiftFrom_at hC.cap (le_refl 0) (by omega) hgap hne'
    rw [bareCommitBackwardShift_eq hC.cap hn (hlive ▸ hl)]
    have hrun := hS.emptyRun idx (w := liveAfter t n idx 0 len)
      (m := len + 1 - liveAfter t n idx 0 len) (by omega)
      fun j h1 h2 => htail j (by omega) (by omega)
    rw [shiftFrom_fields] at hrun ⊢
    exact hrun
  · exact hC

/-- Deleting at a live slot keeps the bookkeeping. -/
lemma deleteAt_counts (hC : Counted n t) (hi : idx < n) (hlive : (t.slot idx).Live) :
    Counted n (deleteAt t idx) := by
  have hic : idx < t.capacity := by rw [hC.cap]; exact hi
  have h1 := liveCount_setSlot (t := t) Slot.tombSlot hic
  have h2 := tombCount_setSlot (t := t) Slot.tombSlot hic
  rw [if_pos hlive, if_neg Slot.tombSlot_tomb.not_live] at h1
  rw [if_neg hlive.not_tomb, if_pos Slot.tombSlot_tomb] at h2
  refine bareDeleteCompact_counts ⟨hC.pow2, ?_, hC.slots_write hi fun h =>
    absurd h Slot.tombSlot_tomb.not_live, ?_, ?_, hC.overflow, hC.overflowLen⟩ hi ?_
  · exact (HtBare.capacity_setSlot t idx _).trans hC.cap
  · show sizeDec t.size = liveCount (t.setSlot _ _) + t.spill.length + t.overflow.length
    have hsize := hC.size
    rw [sizeDec_pos (by omega)]
    omega
  · show t.tombstoneCnt + 1 = tombCount (t.setSlot _ _)
    rw [hC.tombs]
    omega
  · show ((t.setSlot idx Slot.tombSlot).slot idx).Tomb
    rw [HtBare.slot_setSlot _ hic, if_pos rfl]
    exact Slot.tombSlot_tomb

/-- The loop of `ht_bare_remove` keeps the bookkeeping. -/
lemma removeFrom_counts {h m dist removed : ℕ} (hC : Counted n t) (hi : idx < n) :
    Counted n (removeFrom h m idx dist removed t).2 := by
  induction m generalizing idx dist removed t with
  | zero => exact hC
  | succ m ih =>
    have hnext : (idx + 1) % t.capacity < n := by
      rw [hC.cap]
      exact Nat.mod_lt _ (by omega)
    rw [removeFrom]
    split
    · exact hC
    split
    · exact ih hC hnext
    rename_i hne hnt
    split
    · exact hC
    split
    · exact ih (deleteAt_counts hC hi
        (((Slot.trichotomy _).resolve_left hne).resolve_left hnt)) hi
    · exact ih hC hnext

/-! ## The lanes -/

/-- Decrementing at most down to zero does not wrap. -/
lemma sizeDec_iterate {k x : ℕ} (h : k ≤ x) : sizeDec^[k] x = x - k := by
  induction k generalizing x with
  | zero => rfl
  | succ k ih =>
    rw [Function.iterate_succ_apply, sizeDec_pos (by omega), ih (by omega)]
    omega

/-- The lanes may shrink when `size` follows. -/
lemma Counted.lanes (hC : Counted n t) {sp ov : List (ℕ × ℕ)} {k : ℕ}
    (hov : ∀ e ∈ ov, e ∈ t.overflow) (hlen : ov.length ≤ t.overflow.length)
    (hk : k = liveCount t + sp.length + ov.length) :
    Counted n { t with spill := sp, overflow := ov, size := k } :=
  ⟨hC.pow2, hC.cap, hC.slots, hk, hC.tombs, fun e he => hC.overflow e (hov e he),
    hlen.trans hC.overflowLen⟩

/-- The removal from the spill lane keeps the counters. -/
lemma bareSpillRemove_counts (hC : Counted n t) (h : ℕ) : Counted n (bareSpillRemove t h).2 := by
  have hle : (t.spill.filter fun e => e.1 ≠ h).length ≤ t.spill.length := List.length_filter_le _ _
  refine hC.lanes (fun e he => he) (le_refl _) ?_
  have := hC.size
  rw [sizeDec_iterate (by omega)]
  omega

/-- The removal from the overflow stash keeps the counters. -/
lemma overflowStashRemove_counts (hC : Counted n t) (h : ℕ) :
    Counted n (overflowStashRemove t h).2 := by
  have hle : (t.overflow.filter fun e => e.1 ≠ h).length ≤ t.overflow.length :=
    List.length_filter_le _ _
  refine hC.lanes (fun e he => List.mem_of_mem_filter he) hle ?_
  have := hC.size
  rw [sizeDec_iterate (by omega)]
  omega

/-- The removal of a value from the spill lane keeps the counters. -/
lemma bareSpillRemoveVal_counts (hC : Counted n t) (h v : ℕ) :
    Counted n (bareSpillRemoveVal t h v).2 := by
  unfold bareSpillRemoveVal
  split
  · rename_i hmem
    have hlen := List.length_erase_of_mem hmem
    have hpos := List.length_pos_of_mem hmem
    refine hC.lanes (fun e he => he) (le_refl _) ?_
    have := hC.size
    rw [sizeDec_pos (by omega)]
    omega
  · exact hC

/-- The removal of a value from the overflow stash keeps the counters. -/
lemma overflowStashRemoveVal_counts (hC : Counted n t) (h v : ℕ) :
    Counted n (overflowStashRemoveVal t h v).2 := by
  unfold overflowStashRemoveVal
  cases hidx : t.overflow.findIdx? (· = (h, v)) with
  | none => exact hC
  | some i =>
    obtain ⟨hi, _, _⟩ := List.findIdx?_eq_some_iff_getElem.mp hidx
    have hperm := set_last_dropLast_perm t.overflow i (0, 0) hi rfl
    have hlen := hperm.length_eq
    rw [List.length_cons] at hlen
    refine hC.lanes (fun e he => hperm.subset (List.mem_cons_of_mem _ he)) (by omega) ?_
    have := hC.size
    rw [sizeDec_pos (by omega)]
    omega

/-- An allocation changes the oracle only. -/
lemma malloc_counts (hC : Counted n t) : Counted n (malloc t).2 := by
  unfold malloc
  cases t.mem with
  | nil => exact hC
  | cons ok rest => exact hC.congr rfl rfl rfl rfl rfl

/-- `bare_spill_insert` keeps the bookkeeping, whether or not the lane can grow. -/
lemma bareSpillInsert_counts (hC : Counted n t) (h v : ℕ) :
    Counted n (bareSpillInsert t h v).2 := by
  have hpush : ∀ {t : HtBare}, Counted n t →
      Counted n { t with spill := t.spill ++ [(h48 h, v)], size := t.size + 1 } := by
    intro t hC
    refine ⟨hC.pow2, hC.cap, hC.slots, ?_, hC.tombs, hC.overflow, hC.overflowLen⟩
    show t.size + 1 = liveCount t + (t.spill ++ [_]).length + t.overflow.length
    rw [List.length_append, List.length_singleton, hC.size]
    omega
  have hgrow : Counted n (bareSpillGrow t).2 := by
    unfold bareSpillGrow
    generalize (if t.spillCap = 0 then spillInitial else t.spillCap * 2) = newCap
    simp only
    split
    · exact hC
    · have hm := malloc_counts hC
      cases hc : malloc t with
      | mk ok t₁ =>
        rw [hc] at hm
        cases ok with
        | false => exact hm
        | true => exact hm.congr rfl rfl rfl rfl rfl
  unfold bareSpillInsert
  simp only
  split
  · cases hg : bareSpillGrow t with
    | mk ok t₁ =>
      rw [hg] at hgrow
      cases ok with
      | false => exact hgrow
      | true => exact hpush hgrow
  · exact hpush hC

/-! ## Rebuilding -/

/-- Entering the spill lane again keeps the counters. -/
lemma bareReinsertSpill_counts {es : List (ℕ × ℕ)} (hC : Counted n t) :
    Counted n (bareReinsertSpill t es) := by
  induction es generalizing t with
  | nil => exact hC
  | cons e es ih =>
    have hone : bareReinsertSpill t (e :: es) = bareReinsertSpill
        (if e.2 = valNone then t else (bareSpillInsert t e.1 e.2).2) es := rfl
    rw [hone]
    split
    · exact ih hC
    · exact ih (bareSpillInsert_counts hC _ _)

/-- A planted tombstone is counted. -/
lemma plantTomb_counts (hC : Counted n t) (hi : i < n) : Counted n (plantTomb t i) := by
  have hic : i < t.capacity := by rw [hC.cap]; exact hi
  unfold plantTomb
  split
  · rename_i hempty
    have h1 := liveCount_setSlot (t := t) Slot.tombSlot hic
    have h2 := tombCount_setSlot (t := t) Slot.tombSlot hic
    rw [if_neg hempty.not_live, if_neg Slot.tombSlot_tomb.not_live] at h1
    rw [if_neg fun h => h.not_empty hempty, if_pos Slot.tombSlot_tomb] at h2
    refine ⟨hC.pow2, (HtBare.capacity_setSlot t i _).trans hC.cap, hC.slots_write hi fun h =>
      absurd h Slot.tombSlot_tomb.not_live, ?_, ?_, hC.overflow, hC.overflowLen⟩
    · show t.size = liveCount (t.setSlot _ _) + t.spill.length + t.overflow.length
      rw [hC.size]
      omega
    · show t.tombstoneCnt + 1 = tombCount (t.setSlot _ _)
      rw [hC.tombs]
      omega
  · exact hC

/-- The tombstones that a rebuild plants are counted. -/
lemma barePlaceProphylacticTombstones_counts (hC : Counted n t) :
    Counted n (barePlaceProphylacticTombstones t) := by
  have hall : ∀ {ps : List ℕ} {t : HtBare}, Counted n t → (∀ p ∈ ps, p < n) →
      Counted n (ps.foldl plantTomb t) := by
    intro ps
    induction ps with
    | nil => exact fun hC _ => hC
    | cons p ps ih =>
      exact fun hC hps => ih (plantTomb_counts hC (hps p List.mem_cons_self))
        fun q hq => hps q (List.mem_cons_of_mem _ hq)
  exact hall hC (hC.cap ▸ prophylactic_lt t)

/-- Fresh blocks. -/
lemma Counted.of_fresh (hn : ∃ k, n = 2 ^ k) (hm : t.main = List.replicate n Slot.emptySlot)
    (hs : t.spill = []) (ho : t.overflow = []) (hsz : t.size = 0) (htc : t.tombstoneCnt = 0) :
    Counted n t := by
  refine ⟨hn, ?_, ?_, ?_, ?_, ?_, ?_⟩
  · rw [HtBare.capacity, hm, List.length_replicate]
  · intro i _ hl
    exfalso
    unfold HtBare.slot at hl
    rw [hm, List.getD_eq_getElem?_getD, List.getElem?_replicate] at hl
    split at hl <;> exact Slot.emptySlot_empty.not_live hl
  · unfold liveCount
    rw [hsz, hm, hs, ho, List.countP_replicate]
    rfl
  · unfold tombCount
    rw [htc, hm, List.countP_replicate]
    rfl
  · rw [ho]
    simp
  · rw [ho]
    exact Nat.zero_le _

/-- A rebuild keeps the bookkeeping. -/
lemma rebuild_counts {rz : HtBare → Option (Bool × HtBare)} {m : ℕ} (hC : Counted n t)
    (hm : ∃ k, m = 2 ^ k) (hw : rebuildWalk noLap rz t m = true) (hr : rebuild rz t m = some t') :
    Counted m t' := by
  rw [rebuildWalk, Bool.and_eq_true] at hw
  unfold rebuild at hr
  have hfresh : Counted m (freshBlocks t m) := Counted.of_fresh hm rfl rfl rfl rfl rfl
  have hmain : ∀ e ∈ liveEntries t.main, 2 ≤ e.1 ∧ e.1 < 2 ^ 48 := by
    intro e he
    refine ⟨liveEntries_hash he, ?_⟩
    obtain ⟨p, hp, hl, hh, _⟩ := exists_slot_of_mem (h := e.1) (v := e.2) hC.cap he
    rw [← hh]
    exact (hC.slots p hp hl).hash48
  cases h₁ : bareReinsertMain rz (freshBlocks t m) t.main with
  | none =>
    rw [h₁] at hr
    cases hr
  | some t₁ =>
    have hrest := hw.2
    rw [h₁] at hr hrest
    have hC₁ := reinsert_counts hfresh hmain hw.1 h₁
    change (reinsert rz (bareReinsertSpill t₁ t.spill) t.overflow >>= fun t₃ => _) = _ at hr
    cases h₃ : reinsert rz (bareReinsertSpill t₁ t.spill) t.overflow with
    | none =>
      rw [h₃] at hr
      cases hr
    | some t₃ =>
      rw [h₃] at hr
      cases hr
      exact barePlaceProphylacticTombstones_counts
        (reinsert_counts (bareReinsertSpill_counts hC₁) hC.overflow hrest h₃)

/-- The allocation of a main block keeps the counters. -/
lemma bareAllocMainBlock_counts (hC : Counted n t) (c : ℕ) :
    Counted n (bareAllocMainBlock t c).2 := by
  unfold bareAllocMainBlock
  split
  · exact hC
  · exact malloc_counts hC

/-- The capacity of a resize that gets its block is a power of two. -/
lemma resizeCapacity_pow2 (h : resizeCapacity t ≤ sizeMax / 12) :
    ∃ k, resizeCapacity t = 2 ^ k := by
  unfold resizeCapacity at h ⊢
  obtain ⟨k, hk⟩ := nextPow2_pow2 (x := t.size * 2) (by omega)
  rw [hk]
  rcases Nat.le_total (2 ^ k) 4 with h4 | h4
  · exact ⟨2, Nat.max_eq_right h4⟩
  · exact ⟨k, Nat.max_eq_left h4⟩

/-- A block that was allocated has a size that fits. -/
lemma bareAllocMainBlock_fits {c : ℕ} {t₁ : HtBare} (h : bareAllocMainBlock t c = (true, t₁)) :
    c ≤ sizeMax / 12 := by
  unfold bareAllocMainBlock at h
  split at h
  · cases h
  · rename_i hc
    exact not_lt.mp hc

/-- `bare_resize_table` keeps the bookkeeping. -/
lemma bareResizeTable_counts {ok : Bool} (hC : Counted n t) (hw : resizeWalk noLap t = true)
    (hr : bareResizeTable t = some (ok, t')) : ∃ m, Counted m t' := by
  unfold bareResizeTable at hr
  split at hr
  · cases hr
    exact ⟨n, hC⟩
  rename_i hrz
  rw [Bool.not_eq_true] at hrz
  split at hr
  · cases hr
    exact ⟨n, hC⟩
  have hmax : max (nextPow2 (t.size * 2)) 4 = resizeCapacity t := rfl
  simp only [hmax] at hr
  rw [resizeWalk, hrz, Bool.false_or] at hw
  have hC₁ := bareAllocMainBlock_counts hC (resizeCapacity t)
  rcases h₁ : bareAllocMainBlock t (resizeCapacity t) with ⟨ok₁, t₁⟩
  rw [h₁] at hr hw hC₁
  cases ok₁ with
  | false =>
    cases hr
    exact ⟨n, hC₁⟩
  | true =>
    simp only at hr hw hC₁
    have hC₂ := malloc_counts hC₁
    rcases h₂ : malloc t₁ with ⟨ok₂, t₂⟩
    rw [h₂] at hr hw hC₂
    cases ok₂ with
    | false =>
      cases hr
      exact ⟨n, hC₂⟩
    | true =>
      simp only at hr hw hC₂
      split at hr
      · cases hr
      · rename_i t₃ h₃
        cases hr
        have hC₂' : Counted n { t₂ with resizing := true } := hC₂.congr rfl rfl rfl rfl rfl
        have hC₃ := rebuild_counts hC₂' (resizeCapacity_pow2 (bareAllocMainBlock_fits h₁)) hw h₃
        exact ⟨_, hC₃.congr rfl rfl rfl rfl rfl⟩

/-- `ht_bare_compact` keeps the bookkeeping. -/
lemma htBareCompact_counts (hC : Counted n t) (hw : compactWalk noLap t = true)
    (hr : htBareCompact t = some t') : ∃ m, Counted m t' := by
  unfold htBareCompact at hr
  unfold compactWalk at hw
  have hC₁ := bareAllocMainBlock_counts hC t.capacity
  rcases h₁ : bareAllocMainBlock t t.capacity with ⟨ok₁, t₁⟩
  rw [h₁] at hr hw hC₁
  cases ok₁ with
  | false =>
    cases hr
    exact ⟨n, hC₁⟩
  | true =>
    simp only at hr hw hC₁
    have hC₂ := malloc_counts hC₁
    rcases h₂ : malloc t₁ with ⟨ok₂, t₂⟩
    rw [h₂] at hr hw hC₂
    cases ok₂ with
    | false =>
      cases hr
      exact ⟨n, hC₂⟩
    | true => exact ⟨_, rebuild_counts hC₂ (hC₂.cap ▸ hC₂.pow2) hw hr⟩

/-! ## The operations -/

/-- `ht_bare_resize` keeps the bookkeeping. -/
lemma htBareResize_counts {newCapacity : ℕ} {ok : Bool} (hC : Counted n t)
    (hw : ¬ newCapacity < t.mainLive → resizeWalk noLap t = true)
    (hr : htBareResize t newCapacity = some (ok, t')) : ∃ m, Counted m t' := by
  unfold htBareResize at hr
  split at hr
  · cases hr
    exact ⟨n, hC⟩
  · rename_i hge
    exact bareResizeTable_counts hC (hw hge) hr

/-- The resizes at the start of `ht_bare_insert` keep the bookkeeping. -/
lemma insertPrepare_counts {ok : Bool} (hC : Counted n t)
    (hw : prepareWalk (resizeWalk noLap) t = true) (hr : insertPrepare t = some (ok, t')) :
    ∃ m, Counted m t' := by
  rw [prepareWalk, Bool.and_eq_true] at hw
  obtain ⟨hw₁, hw₂⟩ := hw
  have hload : ∀ {ok t₁}, loadResize t = some (ok, t₁) → ∃ m, Counted m t₁ := by
    intro ok t₁ h
    unfold loadResize at h
    split at h
    · rename_i hover
      split at h
      · cases h
        exact ⟨n, hC⟩
      · exact htBareResize_counts hC (fun _ => by simpa [hover] using hw₁) h
    · cases h
      exact ⟨n, hC⟩
  unfold insertPrepare at hr
  cases hl : loadResize t with
  | none =>
    rw [hl] at hr
    cases hr
  | some r =>
    obtain ⟨ok₁, t₁⟩ := r
    obtain ⟨m, hC₁⟩ := hload hl
    rw [hl] at hr hw₂
    cases ok₁ with
    | false =>
      cases hr
      exact ⟨m, hC₁⟩
    | true =>
      simp only at hr hw₂
      split at hr
      · rename_i hfull
        exact htBareResize_counts hC₁ (fun _ => by simpa [hfull.2] using hw₂) hr
      · cases hr
        exact ⟨m, hC₁⟩

/-- The calls of a client, `ht_bare_remove` included. -/
inductive BareCall where
  /-- one of the operations of `BareOp` -/
  | op (o : BareOp)
  /-- `ht_bare_remove` -/
  | remove (hash : ℕ)
  deriving DecidableEq, Repr

/-- The table after the call. -/
def BareCall.run : BareCall → HtBare → Option HtBare
  | .op o, t => o.run t
  | .remove hash, t => some (htBareRemove t hash).2

/-- No insertion that the call makes stands at distance `capacity` at a loop head. -/
def BareCall.lapFree : BareCall → HtBare → Bool
  | .op (.insert hash val), t =>
    decide (val = valNone) || decide (h48 hash < 2) || (prepareWalk (resizeWalk noLap) t &&
      match insertPrepare t with
      | some (true, t) => insertWalk noLap bareResizeTable t (h48 hash) val
      | _ => true)
  | .op (.resize newCapacity), t => decide (newCapacity < t.mainLive) || resizeWalk noLap t
  | .op .compact, t => compactWalk noLap t
  | _, _ => true

/-- A sequence of calls. -/
def runCalls : List BareCall → HtBare → Option HtBare
  | [], t => some t
  | call :: calls, t =>
    match call.run t with
    | none => none
    | some t => runCalls calls t

/-- No insertion of the sequence stands at distance `capacity` at a loop head. -/
def lapFreeCalls : List BareCall → HtBare → Bool
  | [], _ => true
  | call :: calls, t =>
    call.lapFree t &&
      match call.run t with
      | none => true
      | some t => lapFreeCalls calls t

/-- `ht_bare_insert` keeps the bookkeeping. -/
lemma htBareInsert_counts {hash v : ℕ} {ok : Bool} (hC : Counted n t)
    (hw : (BareCall.op (.insert hash v)).lapFree t = true)
    (hr : htBareInsert t hash v = some (ok, t')) : ∃ m, Counted m t' := by
  unfold htBareInsert at hr
  split at hr
  · cases hr
    exact ⟨n, hC⟩
  rename_i hv
  split at hr
  · have hins := bareSpillInsert_counts hC (h48 hash) v
    rw [Option.some.inj hr] at hins
    exact ⟨n, hins⟩
  rename_i hbig
  have hw : (prepareWalk (resizeWalk noLap) t && match insertPrepare t with
      | some (true, t) => insertWalk noLap bareResizeTable t (h48 hash) v
      | _ => true) = true := by
    rw [BareCall.lapFree] at hw
    simpa [hv, hbig] using hw
  rw [Bool.and_eq_true] at hw
  obtain ⟨hw₁, hw₂⟩ := hw
  cases hp : insertPrepare t with
  | none =>
    rw [hp] at hr
    cases hr
  | some r =>
    obtain ⟨ok₁, t₁⟩ := r
    obtain ⟨m, hC₁⟩ := insertPrepare_counts hC hw₁ hp
    rw [hp] at hr hw₂
    cases ok₁ with
    | false =>
      cases hr
      exact ⟨m, hC₁⟩
    | true =>
      exact ⟨m, bareRhInsertBounded_counts hC₁ (not_lt.mp hbig)
        (Nat.mod_lt _ (Nat.two_pow_pos 48)) hw₂ hr⟩

/-- `ht_bare_remove_val` keeps the bookkeeping. -/
lemma htBareRemoveVal_counts (hC : Counted n t) (hash v : ℕ) :
    Counted n (htBareRemoveVal t hash v).2 := by
  unfold htBareRemoveVal
  split
  · exact bareSpillRemoveVal_counts hC _ _
  · have hidx : h48 hash % t.capacity < n := by
      rw [hC.cap]
      obtain ⟨k, rfl⟩ := hC.pow2
      exact Nat.mod_lt _ (Nat.two_pow_pos k)
    cases hr : removeValFrom t (h48 hash) v (t.capacity + 1) (h48 hash % t.capacity) 0 with
    | some t' =>
      obtain ⟨i, hi, hl, _, _, rfl⟩ := removeValFrom_some hC.cap hidx hr
      exact deleteAt_counts hC hi hl
    | none => exact overflowStashRemoveVal_counts hC _ _

/-- `ht_bare_remove` keeps the bookkeeping. -/
lemma htBareRemove_counts (hC : Counted n t) (hash : ℕ) : Counted n (htBareRemove t hash).2 := by
  unfold htBareRemove
  split
  · exact bareSpillRemove_counts hC _
  · have hidx : h48 hash % t.capacity < n := by
      rw [hC.cap]
      obtain ⟨k, rfl⟩ := hC.pow2
      exact Nat.mod_lt _ (Nat.two_pow_pos k)
    exact overflowStashRemove_counts (removeFrom_counts hC hidx) _

/-- One call keeps the bookkeeping. -/
lemma BareCall.run_counts {call : BareCall} (hC : Counted n t) (hw : call.lapFree t = true)
    (hr : call.run t = some t') : ∃ m, Counted m t' := by
  cases call with
  | remove hash =>
    cases hr
    exact ⟨n, htBareRemove_counts hC hash⟩
  | op o =>
    cases o with
    | insert hash val =>
      obtain ⟨⟨ok, t₁⟩, h, rfl⟩ := Option.map_eq_some_iff.mp hr
      exact htBareInsert_counts hC hw h
    | removeVal hash val =>
      cases hr
      exact ⟨n, htBareRemoveVal_counts hC hash val⟩
    | resize newCapacity =>
      obtain ⟨⟨ok, t₁⟩, h, rfl⟩ := Option.map_eq_some_iff.mp hr
      rw [BareCall.lapFree, Bool.or_eq_true, decide_eq_true_eq] at hw
      exact htBareResize_counts hC hw.resolve_left h
    | compact => exact htBareCompact_counts hC hw hr
    | clear =>
      cases hr
      exact ⟨n, Counted.of_fresh hC.pow2 (by rw [← hC.cap]; rfl) rfl rfl rfl rfl⟩

/-- A sequence of calls keeps the bookkeeping. -/
lemma runCalls_counts {calls : List BareCall} (hC : Counted n t) (hw : lapFreeCalls calls t = true)
    (hr : runCalls calls t = some t') : ∃ m, Counted m t' := by
  induction calls generalizing n t with
  | nil =>
    cases hr
    exact ⟨n, hC⟩
  | cons call calls ih =>
    rw [lapFreeCalls, Bool.and_eq_true] at hw
    rw [runCalls] at hr
    have hrest := hw.2
    cases h₁ : call.run t with
    | none =>
      rw [h₁] at hr
      cases hr
    | some t₁ =>
      rw [h₁] at hr hrest
      obtain ⟨m, hC₁⟩ := BareCall.run_counts hC hw.1 h₁
      exact ih hC₁ hrest hr

/-- A table as `ht_bare_create` returns it. -/
lemma htBareCreate_counts {cfg : HtConfig} {mem : List Bool} {fuel : ℕ}
    (hc : htBareCreate cfg mem fuel = some t) : ∃ m, Counted m t := by
  unfold htBareCreate at hc
  simp only at hc
  split at hc
  · cases hc
  rename_i hcap
  cases hc
  exact ⟨_, Counted.of_fresh (nextPow2_pow2 (not_lt.mp hcap)) rfl rfl rfl rfl rfl⟩

/-- The counters count what they are meant to count, and every live slot stores its displacement
modulo 2^16, in every state that calls reach whose insertions never stand at distance `capacity`. -/
theorem htBare_counters (cfg : HtConfig) (mem : List Bool) (fuel : ℕ) (calls : List BareCall)
    (t t' : HtBare) (hc : htBareCreate cfg mem fuel = some t) (hw : lapFreeCalls calls t = true)
    (hr : runCalls calls t = some t') :
    t'.size = liveCount t' + t'.spill.length + t'.overflow.length ∧
    t'.tombstoneCnt = tombCount t' ∧ t'.overflow.length ≤ 32 ∧
    ∀ i, i < t'.capacity → (t'.slot i).Live →
      (t'.slot i).pd % 2 ^ 16 =
        (i + (t'.capacity - (t'.slot i).hash % t'.capacity)) % t'.capacity % 2 ^ 16 := by
  obtain ⟨n, hC₀⟩ := htBareCreate_counts hc
  obtain ⟨m, hC⟩ := runCalls_counts hC₀ hw hr
  refine ⟨hC.size, hC.tombs, hC.overflowLen, ?_⟩
  rw [hC.cap]
  intro i hi hl
  have hpl := hC.slots i hi hl
  rw [Nat.mod_eq_of_lt hpl.pd16]
  exact hpl.displacement hC.pow2 hi

/-- A run of both lanes with a removal, a resize and a compaction never laps. -/
theorem htBare_counters_sample : ∃ t',
    runCalls [.op (.insert 5 10), .op (.insert 1 12), .op (.insert 69 13), .remove 5,
      .op (.resize 64), .op .compact] defaultTable = some t' ∧
    t'.size = liveCount t' + t'.spill.length + t'.overflow.length ∧
    t'.tombstoneCnt = tombCount t' := by
  have hrun : (runCalls [.op (.insert 5 10), .op (.insert 1 12), .op (.insert 69 13), .remove 5,
      .op (.resize 64), .op .compact] defaultTable).isSome = true := by decide +kernel
  obtain ⟨t', hr⟩ := Option.isSome_iff_exists.mp hrun
  obtain ⟨hsize, htombs, _⟩ := htBare_counters defaultCfg [] 0 _ defaultTable t'
    (by decide +kernel) (by decide +kernel) hr
  exact ⟨t', hr, hsize, htombs⟩

/-- A table of eight slots with a high load factor. -/
def denseCfg : HtConfig := ⟨8, 97 / 100, 0, 255⟩

/-- Fourteen calls after which an insertion has walked around all eight slots. -/
def lappingCalls : List BareCall :=
  [.op (.insert 69 0), .op (.insert 69 1), .op (.insert 69 2), .op (.resize 8), .op (.insert 69 4),
    .op (.insert 69 5), .op (.insert 70 6), .op (.insert 69 7), .op (.removeVal 69 5),
    .op (.removeVal 69 1), .op (.removeVal 69 2), .op (.insert 70 11), .op (.insert 70 12),
    .op (.insert 70 13)]

/-- The last insertion stores the distance 8 at the ideal slot of its hash. -/
theorem htBare_counters_fails : ∃ t t', htBareCreate denseCfg [] 0 = some t ∧
    runCalls lappingCalls t = some t' ∧ t'.capacity = 8 ∧ t'.slot 6 = ⟨70, 8, 13⟩ ∧
    (t'.slot 6).pd % 2 ^ 16 ≠
      (6 + (t'.capacity - (t'.slot 6).hash % t'.capacity)) % t'.capacity % 2 ^ 16 := by
  have hrun : ((htBareCreate denseCfg [] 0).bind (runCalls lappingCalls)).map
      (fun t' => (t'.capacity, t'.slot 6)) = some (8, ⟨70, 8, 13⟩) := by decide +kernel
  obtain ⟨t', hr, hs⟩ := Option.map_eq_some_iff.mp hrun
  obtain ⟨t, hc, hr⟩ := Option.bind_eq_some_iff.mp hr
  obtain ⟨hcap, hslot⟩ := Prod.mk.inj hs
  refine ⟨t, t', hc, hr, hcap, hslot, ?_⟩
  rw [hcap, hslot]
  decide

end Draugr
