import Draugr.Bare.Books

/-!
# What the bare table does not depend on

The number of tombstones is counted but never read, and where the spill lane lives and how large its
block is only matters when the lane grows. `dress k c s t` is `t` with other values in these three
fields: every other function does the same to `dress k c s t` as to `t`, and leaves the last two
alone.
-/

namespace Draugr
open Lib

/-- `t` with another `tombstone_cnt`, `spill_cap` and `spill_in_block`. -/
def dress (k c : ℕ) (s : Bool) (t : HtBare) : HtBare :=
  { t with tombstoneCnt := k, spillCap := c, spillInBlock := s }

/-- The outcome of an iteration with another table. -/
def RhStep.map (f : HtBare → HtBare) : RhStep → RhStep
  | .ret ok t => .ret ok (f t)
  | .go t c => .go (f t) c
  | .unbounded t c => .unbounded (f t) c
  | .resize t c => .resize (f t) c

section
variable (k c : ℕ) (s : Bool) (t : HtBare)

/-- Dressing changes no slot. -/
@[simp] lemma slot_dress (i : ℕ) : (dress k c s t).slot i = t.slot i := rfl

/-- Dressing keeps the capacity. -/
@[simp] lemma capacity_dress : (dress k c s t).capacity = t.capacity := rfl

/-- A slot is written under any dress. -/
@[simp] lemma setSlot_dress (i : ℕ) (e : Slot) :
    (dress k c s t).setSlot i e = dress k c s (t.setSlot i e) := rfl

/-- A carrier advances under any dress. -/
@[simp] lemma advance_dress (e : Carrier) : e.advance (dress k c s t) = e.advance t := rfl

/-- The limit is the same under any dress. -/
@[simp] lemma overLimit_dress (b : Bool) (e : Carrier) :
    overLimit b (dress k c s t) e ↔ overLimit b t e := Iff.rfl

/-- A carrier is blocked under any dress or none. -/
@[simp] lemma blocked_dress (i d : ℕ) : blocked (dress k c s t) i d = blocked t i d := by
  have hfrom : ∀ n j, blockedFrom (dress k c s t) i d n j = blockedFrom t i d n j := by
    intro n
    induction n with
    | zero => exact fun _ => rfl
    | succ n ih =>
      intro j
      simp only [blockedFrom, slot_dress, capacity_dress, ih]
  exact hfrom _ _

end

variable {k c n i idx h v : ℕ} {b s ok : Bool} {t t' : HtBare} {e : Carrier}

/-! ## Insertion -/

/-- Stashing a carrier commutes with dressing. -/
lemma stashCarrier_dress :
    stashCarrier (dress k c s t) e = (stashCarrier t e).map (dress k c s) := by
  unfold stashCarrier overflowStashInsert
  by_cases hfull : t.overflow.length ≥ overflowStashCap
  · have hfull' : (dress k c s t).overflow.length ≥ overflowStashCap := hfull
    rw [if_pos hfull, if_pos hfull']
    rfl
  · have hfull' : ¬ (dress k c s t).overflow.length ≥ overflowStashCap := hfull
    rw [if_neg hfull, if_neg hfull']
    rfl

/-- The carried entry is stored, unless it is beyond the probe limit. -/
lemma store_dress (b : Bool) (t : HtBare) (e : Carrier) (k c : ℕ) (s : Bool) :
    (if overLimit b (dress k c s t) e then stashCarrier (dress k c s t) e
      else .ret true { (dress k c s t).setSlot e.idx (hpdPack e.hash e.dist e.val) with
        size := (dress k c s t).size + 1 }) =
    (if overLimit b t e then stashCarrier t e
      else .ret true { t.setSlot e.idx (hpdPack e.hash e.dist e.val) with
        size := t.size + 1 }).map (dress k c s) := by
  by_cases hover : overLimit b t e
  · have hover' : overLimit b (dress k c s t) e := hover
    rw [if_pos hover, if_pos hover', stashCarrier_dress]
  · have hover' : ¬ overLimit b (dress k c s t) e := hover
    rw [if_neg hover, if_neg hover']
    rfl

/-- One iteration. -/
lemma rhStep_dress (b : Bool) (t : HtBare) (e : Carrier) (k c : ℕ) (s : Bool) :
    ∃ k', rhStep b (dress k c s t) e = (rhStep b t e).map (dress k' c s) := by
  unfold rhStep
  dsimp only
  by_cases hlive : (t.slot e.idx).Live
  · have hlive' : ((dress k c s t).slot e.idx).Live := hlive
    refine ⟨k, ?_⟩
    rw [if_pos hlive, if_pos hlive']
    by_cases hpd : (t.slot e.idx).pd < e.dist
    · have hpd' : ((dress k c s t).slot e.idx).pd < e.dist := hpd
      rw [if_pos hpd, if_pos hpd', setSlot_dress, slot_dress]
      simp only [overLimit_dress, stashCarrier_dress]
      split <;> rfl
    · have hpd' : ¬ ((dress k c s t).slot e.idx).pd < e.dist := hpd
      rw [if_neg hpd, if_neg hpd', advance_dress]
      simp only [overLimit_dress, stashCarrier_dress]
      split
      · rfl
      · by_cases hfar : (e.advance t).dist > t.capacity
        · have hfar' : (e.advance t).dist > (dress k c s t).capacity := hfar
          rw [if_pos hfar, if_pos hfar']
          rfl
        · have hfar' : ¬ (e.advance t).dist > (dress k c s t).capacity := hfar
          rw [if_neg hfar, if_neg hfar']
          rfl
  · have hlive' : ¬ ((dress k c s t).slot e.idx).Live := hlive
    rw [if_neg hlive, if_neg hlive']
    by_cases hblk : (t.slot e.idx).Tomb ∧ blocked t e.idx e.dist = true
    · have hblk' : ((dress k c s t).slot e.idx).Tomb ∧
          blocked (dress k c s t) e.idx e.dist = true := by rwa [slot_dress, blocked_dress]
      rw [if_pos hblk, if_pos hblk']
      exact ⟨k, rfl⟩
    · have hblk' : ¬ (((dress k c s t).slot e.idx).Tomb ∧
          blocked (dress k c s t) e.idx e.dist = true) := by rwa [slot_dress, blocked_dress]
      rw [if_neg hblk, if_neg hblk']
      by_cases htomb : (t.slot e.idx).Tomb
      · have htomb' : ((dress k c s t).slot e.idx).Tomb := htomb
        rw [if_pos htomb, if_pos htomb']
        exact ⟨sizeDec k, store_dress b { t with tombstoneCnt := sizeDec t.tombstoneCnt } e
          (sizeDec k) c s⟩
      · have htomb' : ¬ ((dress k c s t).slot e.idx).Tomb := htomb
        rw [if_neg htomb, if_neg htomb']
        exact ⟨k, store_dress b t e k c s⟩

/-- The insertion loop. -/
lemma rhLoop_dress {n : ℕ} (b : Bool) (t : HtBare) (e : Carrier) (k c : ℕ) (s : Bool) :
    ∃ k', rhLoop nestedResize n b (dress k c s t) e =
      (rhLoop nestedResize n b t e).map (Prod.map id (dress k' c s)) := by
  induction n generalizing b t e k with
  | zero => exact ⟨k, rfl⟩
  | succ n ih =>
    obtain ⟨k₁, hstep⟩ := rhStep_dress b t e k c s
    rw [rhLoop, rhLoop, hstep]
    cases rhStep b t e with
    | ret ok t₁ => exact ⟨k₁, rfl⟩
    | go t₁ e₁ => exact ih b t₁ e₁ k₁
    | unbounded t₁ e₁ => exact ih false t₁ (.start t₁ e₁.hash e₁.val) k₁
    | resize t₁ e₁ =>
      refine ⟨k₁, ?_⟩
      have hflag : (dress k₁ c s t₁).resizing = t₁.resizing := rfl
      simp only [RhStep.map, nestedResize, hflag]
      cases t₁.resizing <;> rfl

/-- `bare_rh_insert_bounded`. -/
lemma bareRhInsertBounded_dress (t : HtBare) (h v k c : ℕ) (s : Bool) :
    ∃ k', bareRhInsertBounded nestedResize (dress k c s t) h v =
      (bareRhInsertBounded nestedResize t h v).map (Prod.map id (dress k' c s)) := by
  unfold bareRhInsertBounded
  by_cases hc : t.capacity = 0
  · have hc' : (dress k c s t).capacity = 0 := hc
    rw [if_pos hc, if_pos hc']
    exact rhLoop_dress false t (.start t h v) k c s
  · have hc' : ¬ (dress k c s t).capacity = 0 := hc
    rw [if_neg hc, if_neg hc']
    exact rhLoop_dress true t (.start t h v) k c s

/-! ## Lookup -/

/-- Lookups see no dress. -/
lemma htBareFindAll_dress (t : HtBare) (hash k c : ℕ) (s : Bool) :
    htBareFindAll (dress k c s t) hash = htBareFindAll t hash := by
  have hfrom : ∀ n i d, findAllFrom (dress k c s t) (h48 hash) n i d =
      findAllFrom t (h48 hash) n i d := by
    intro n
    induction n with
    | zero => exact fun _ _ => rfl
    | succ n ih =>
      intro i d
      rw [findAllFrom, findAllFrom, ih]
      rfl
  unfold htBareFindAll
  rw [hfrom]
  rfl

/-! ## Removal -/

/-- The scan of a chain sees no dress. -/
lemma chainScan_dress (t : HtBare) (n i chain live k c : ℕ) (s : Bool) :
    chainScan (dress k c s t) n i chain live = chainScan t n i chain live := by
  induction n generalizing i chain live with
  | zero => rfl
  | succ n ih => simp only [chainScan, slot_dress, capacity_dress, ih]

/-- The test of the ideal slots sees no dress. -/
lemma bareVerifyIdealSafe_dress (t : HtBare) (i len k c : ℕ) (s : Bool) :
    bareVerifyIdealSafe (dress k c s t) i len = bareVerifyIdealSafe t i len := by
  have hfrom : ∀ n j w, verifyFrom (dress k c s t) i n j w = verifyFrom t i n j w := by
    intro n
    induction n with
    | zero => exact fun _ _ => rfl
    | succ n ih =>
      intro j w
      simp only [verifyFrom, slot_dress, capacity_dress, ih]
  exact hfrom len 0 0

/-- The commit of a deletion commutes with dressing, up to the count of tombstones. -/
lemma commitFrom_dress (t : HtBare) (i n j w k c : ℕ) (s : Bool) :
    ∃ k', commitFrom i n j w (dress k c s t) = dress k' c s (commitFrom i n j w t) := by
  induction n generalizing t j w k with
  | zero => exact ⟨k, rfl⟩
  | succ n ih =>
    rw [commitFrom, commitFrom]
    dsimp only
    by_cases hlive : (t.slot ((i + 1 + j) % t.capacity)).Live
    · have hlive' : ((dress k c s t).slot ((i + 1 + j) % (dress k c s t).capacity)).Live := hlive
      rw [if_pos hlive, if_pos hlive']
      exact ih ((t.setSlot ((i + w) % t.capacity) _).setSlot ((i + 1 + j) % t.capacity) _) _ _ k
    · have hlive' : ¬ ((dress k c s t).slot ((i + 1 + j) % (dress k c s t).capacity)).Live := hlive
      rw [if_neg hlive, if_neg hlive']
      exact ih ({ t with tombstoneCnt := sizeDec t.tombstoneCnt }.setSlot
        ((i + 1 + j) % t.capacity) _) _ _ (sizeDec k)

/-- A deletion commutes with dressing, up to the count of tombstones. -/
lemma deleteAt_dress (t : HtBare) (i k c : ℕ) (s : Bool) :
    ∃ k', deleteAt (dress k c s t) i = dress k' c s (deleteAt t i) := by
  have hcompact : ∀ (t : HtBare) k, ∃ k',
      bareDeleteCompact (dress k c s t) i = dress k' c s (bareDeleteCompact t i) := by
    intro t k
    unfold bareDeleteCompact
    simp only [chainScan_dress, bareVerifyIdealSafe_dress, capacity_dress]
    split
    · unfold bareCommitBackwardShift
      obtain ⟨k', hk⟩ := commitFrom_dress t i _ 0 0 k c s
      rw [hk]
      exact ⟨sizeDec k', rfl⟩
    · exact ⟨k, rfl⟩
  exact hcompact { t.setSlot i Slot.tombSlot with
    size := sizeDec t.size, tombstoneCnt := t.tombstoneCnt + 1 } (k + 1)

/-- The scan of `ht_bare_remove_val` commutes with dressing, up to the count of tombstones. -/
lemma removeValFrom_dress (t : HtBare) (h v n i d k c : ℕ) (s : Bool) :
    ∃ k', removeValFrom (dress k c s t) h v n i d =
      (removeValFrom t h v n i d).map (dress k' c s) := by
  induction n generalizing i d with
  | zero => exact ⟨k, rfl⟩
  | succ n ih =>
    have hstep : removeValFrom (dress k c s t) h v (n + 1) i d =
        if (t.slot i).Empty then none
        else if (t.slot i).Tomb then
          removeValFrom (dress k c s t) h v n ((i + 1) % t.capacity) ((d + 1) % 2 ^ 16)
        else if (t.slot i).pd < d then none
        else if (t.slot i).hash = h ∧ (t.slot i).val = v then some (deleteAt (dress k c s t) i)
        else removeValFrom (dress k c s t) h v n ((i + 1) % t.capacity) ((d + 1) % 2 ^ 16) := rfl
    rw [hstep, removeValFrom]
    split_ifs
    · exact ⟨k, rfl⟩
    · exact ih _ _
    · exact ⟨k, rfl⟩
    · obtain ⟨k', hk⟩ := deleteAt_dress t i k c s
      exact ⟨k', by rw [hk]; rfl⟩
    · exact ih _ _

/-- `ht_bare_remove_val`. -/
lemma htBareRemoveVal_dress (t : HtBare) (hash v k c : ℕ) (s : Bool) :
    ∃ k', htBareRemoveVal (dress k c s t) hash v =
      Prod.map id (dress k' c s) (htBareRemoveVal t hash v) := by
  unfold htBareRemoveVal
  split
  · refine ⟨k, ?_⟩
    unfold bareSpillRemoveVal
    by_cases hin : (h48 hash, v) ∈ t.spill
    · have hin' : (h48 hash, v) ∈ (dress k c s t).spill := hin
      rw [if_pos hin, if_pos hin']
      rfl
    · have hin' : (h48 hash, v) ∉ (dress k c s t).spill := hin
      rw [if_neg hin, if_neg hin']
      rfl
  · obtain ⟨k', hk⟩ := removeValFrom_dress t (h48 hash) v (t.capacity + 1)
      (h48 hash % t.capacity) 0 k c s
    rw [capacity_dress, hk]
    cases removeValFrom t (h48 hash) v (t.capacity + 1) (h48 hash % t.capacity) 0 with
    | some t₁ => exact ⟨k', rfl⟩
    | none =>
      refine ⟨k, ?_⟩
      simp only [Option.map_none]
      unfold overflowStashRemoveVal
      cases hi : t.overflow.findIdx? (· = (h48 hash, v)) with
      | none =>
        have hi' : (dress k c s t).overflow.findIdx? (· = (h48 hash, v)) = none := hi
        rw [hi']
        rfl
      | some j =>
        have hi' : (dress k c s t).overflow.findIdx? (· = (h48 hash, v)) = some j := hi
        rw [hi']
        rfl

/-! ## Prophylactic tombstones -/

/-- Planting tombstones commutes with dressing, up to their count. -/
lemma barePlaceProphylacticTombstones_dress (t : HtBare) (k c : ℕ) (s : Bool) :
    ∃ k', barePlaceProphylacticTombstones (dress k c s t) =
      dress k' c s (barePlaceProphylacticTombstones t) := by
  have hfold : ∀ (ps : List ℕ) (t : HtBare) k, ∃ k',
      ps.foldl plantTomb (dress k c s t) = dress k' c s (ps.foldl plantTomb t) := by
    intro ps
    induction ps with
    | nil => exact fun _ k => ⟨k, rfl⟩
    | cons p ps ih =>
      intro t k
      rw [List.foldl_cons, List.foldl_cons]
      unfold plantTomb
      by_cases hp : (t.slot p).Empty
      · have hp' : ((dress k c s t).slot p).Empty := hp
        rw [if_pos hp, if_pos hp']
        exact ih { t.setSlot p Slot.tombSlot with tombstoneCnt := t.tombstoneCnt + 1 } (k + 1)
      · have hp' : ¬ ((dress k c s t).slot p).Empty := hp
        rw [if_neg hp, if_neg hp']
        exact ih t k
  exact hfold _ t k

/-! ## What the calls leave alone -/

/-- The fields of a table that are neither entries nor counters. -/
def HtBare.setup (t : HtBare) : HtBare :=
  { t with
    main := [], size := 0, tombstoneCnt := 0, spill := [], overflow := []
    overflowViolated := false }

/-- The setup and the capacity stay, the spill lane does not grow, and `size` by at most `m`. -/
structure Stays (m : ℕ) (t t' : HtBare) : Prop where
  setup : t'.setup = t.setup
  capacity : t'.capacity = t.capacity
  spill : t'.spill.length ≤ t.spill.length
  size : t'.size ≤ t.size + m

variable {m : ℕ} {t'' : HtBare}

/-- A table stays as it is. -/
lemma Stays.refl (t : HtBare) : Stays 0 t t := ⟨rfl, rfl, le_rfl, le_rfl⟩

/-- The entries of two steps add up. -/
lemma Stays.trans (h : Stays m t t') (h' : Stays n t' t'') : Stays (m + n) t t'' :=
  ⟨h'.setup.trans h.setup, h'.capacity.trans h.capacity, h'.spill.trans h.spill,
    by have := h.size; have := h'.size; omega⟩

/-- A bound on the entries may be raised. -/
lemma Stays.mono (h : Stays m t t') (hmn : m ≤ n) : Stays n t t' :=
  ⟨h.setup, h.capacity, h.spill, h.size.trans (Nat.add_le_add_left hmn _)⟩

/-- The capacity of the spill lane stays. -/
lemma Stays.spillCap (h : Stays m t t') : t'.spillCap = t.spillCap := by
  have := congrArg HtBare.spillCap h.setup
  exact this

/-- The spill lane stays in its block, or outside of it. -/
lemma Stays.spillInBlock (h : Stays m t t') : t'.spillInBlock = t.spillInBlock := by
  have := congrArg HtBare.spillInBlock h.setup
  exact this

/-- A written slot enters nothing. -/
lemma stays_setSlot (t : HtBare) (i : ℕ) (x : Slot) : Stays 0 t (t.setSlot i x) :=
  ⟨rfl, List.length_set, le_rfl, le_rfl⟩

/-- What one iteration leaves alone. -/
def StepStays (t : HtBare) : RhStep → Prop
  | .ret _ t' => Stays 1 t t'
  | .go t' _ => Stays 0 t t'
  | .unbounded t' _ => Stays 0 t t'
  | .resize t' _ => Stays 0 t t'

/-- Stashing a carrier enters nothing. -/
lemma stashCarrier_stays {t₀ : HtBare} (h : Stays 0 t₀ t) : StepStays t₀ (stashCarrier t e) := by
  unfold stashCarrier overflowStashInsert
  by_cases hfull : t.overflow.length ≥ overflowStashCap
  · rw [if_pos hfull]
    exact ⟨h.setup, h.capacity, h.spill, h.size⟩
  · rw [if_neg hfull]
    exact ⟨h.setup, h.capacity, h.spill, Nat.succ_le_succ h.size⟩

/-- One iteration. -/
lemma rhStep_stays (b : Bool) (t : HtBare) (e : Carrier) : StepStays t (rhStep b t e) := by
  unfold rhStep
  dsimp only
  split
  · split
    · split
      · exact stashCarrier_stays (stays_setSlot t _ _)
      · exact stays_setSlot t _ _
    · split
      · exact stashCarrier_stays (Stays.refl t)
      · split <;> exact Stays.refl t
  split
  · exact Stays.refl t
  · -- an empty slot, or a tombstone that is reused
    have hcount :
        Stays 0 t (if (t.slot e.idx).Tomb then { t with tombstoneCnt := sizeDec t.tombstoneCnt }
          else t) := by
      split
      · exact ⟨rfl, rfl, le_rfl, le_rfl⟩
      · exact Stays.refl t
    generalize (if (t.slot e.idx).Tomb then { t with tombstoneCnt := sizeDec t.tombstoneCnt }
      else t) = t₁ at hcount ⊢
    split
    · exact stashCarrier_stays hcount
    · exact ⟨hcount.setup, List.length_set.trans hcount.capacity, hcount.spill,
        Nat.succ_le_succ hcount.size⟩

/-- The insertion loop. -/
lemma rhLoop_stays {b : Bool} {t : HtBare} {e : Carrier}
    (hr : rhLoop nestedResize n b t e = some (ok, t')) :
    Stays 1 t t' := by
  induction n generalizing b t e with
  | zero => cases hr
  | succ n ih =>
    have hstep := rhStep_stays b t e
    rw [rhLoop] at hr
    cases hs : rhStep b t e with
    | ret ok₁ t₁ =>
      rw [hs] at hr hstep
      cases hr
      exact hstep
    | go t₁ e₁ =>
      rw [hs] at hr hstep
      exact (hstep.trans (ih hr)).mono le_rfl
    | unbounded t₁ e₁ =>
      rw [hs] at hr hstep
      exact (hstep.trans (ih hr)).mono le_rfl
    | resize t₁ e₁ =>
      rw [hs] at hr hstep
      simp only [nestedResize] at hr
      split at hr
      · cases hr
      · rename_i hz
        split at hz <;> cases hz
        cases hr
        exact hstep.mono (Nat.zero_le 1)
      · rename_i hz
        split at hz <;> cases hz

/-- `bare_rh_insert_bounded` enters one entry at most. -/
lemma bareRhInsertBounded_stays (hr : bareRhInsertBounded nestedResize t h v = some (ok, t')) :
    Stays 1 t t' := by
  unfold bareRhInsertBounded at hr
  split at hr
  · exact rhLoop_stays hr
  · exact rhLoop_stays hr

/-- The commit of a deletion enters nothing. -/
lemma commitFrom_stays (t : HtBare) (i n j w : ℕ) : Stays 0 t (commitFrom i n j w t) := by
  induction n generalizing t j w with
  | zero => exact Stays.refl t
  | succ n ih =>
    rw [commitFrom]
    dsimp only
    split
    · exact ((stays_setSlot t _ _).trans (stays_setSlot _ _ _)).trans (ih _ _ _)
    · have hcount : Stays 0 t { t with tombstoneCnt := sizeDec t.tombstoneCnt } :=
        ⟨rfl, rfl, le_rfl, le_rfl⟩
      exact (hcount.trans (stays_setSlot _ _ _)).trans (ih _ _ _)

/-- A deletion enters nothing. -/
lemma deleteAt_stays (i : ℕ) (hpos : 0 < t.size) : Stays 0 t (deleteAt t i) := by
  have hdrop : Stays 0 t { t.setSlot i Slot.tombSlot with
      size := sizeDec t.size, tombstoneCnt := t.tombstoneCnt + 1 } := by
    refine ⟨rfl, List.length_set, le_rfl, ?_⟩
    show sizeDec t.size ≤ _
    rw [sizeDec_pos hpos]
    omega
  refine Stays.trans hdrop (?_ : Stays 0 _ _)
  unfold deleteAt
  generalize ({ t.setSlot i Slot.tombSlot with
      size := sizeDec t.size, tombstoneCnt := t.tombstoneCnt + 1 } : HtBare) = u
  unfold bareDeleteCompact
  dsimp only
  split
  · unfold bareCommitBackwardShift
    have hcommit := commitFrom_stays u i (chainScan u bshiftCap ((i + 1) % u.capacity) 0 0).1 0 0
    exact ⟨hcommit.setup, hcommit.capacity, hcommit.spill, hcommit.size⟩
  · exact Stays.refl u

/-- `ht_bare_remove_val`. -/
lemma htBareRemoveVal_stays (hcap : 0 < t.capacity)
    (hsize : t.size = liveCount t + t.spill.length + t.overflow.length) (hash v : ℕ) :
    Stays 0 t (htBareRemoveVal t hash v).2 := by
  unfold htBareRemoveVal
  split
  · unfold bareSpillRemoveVal
    split
    · rename_i hin
      have hpos := List.length_pos_of_mem hin
      refine ⟨rfl, rfl, (List.length_erase_le ..), ?_⟩
      show sizeDec t.size ≤ _
      rw [sizeDec_pos (by omega)]
      omega
    · exact Stays.refl t
  · split
    · rename_i t₁ hr
      obtain ⟨j, hj, hl, -, -, rfl⟩ := removeValFrom_some rfl (Nat.mod_lt _ hcap) hr
      have := liveCount_pos hj hl
      exact deleteAt_stays j (by omega)
    · unfold overflowStashRemoveVal
      split
      · exact Stays.refl t
      · rename_i j hj
        obtain ⟨hlt, -⟩ := List.findIdx?_eq_some_iff_getElem.mp hj
        refine ⟨rfl, rfl, le_rfl, ?_⟩
        show sizeDec t.size ≤ _
        rw [sizeDec_pos (by omega)]
        omega

/-- `bare_place_prophylactic_tombstones`. -/
lemma barePlaceProphylacticTombstones_stays (t : HtBare) :
    Stays 0 t (barePlaceProphylacticTombstones t) := by
  unfold barePlaceProphylacticTombstones
  dsimp only
  generalize ((List.range _).map _) = ps
  induction ps generalizing t with
  | nil => exact Stays.refl t
  | cons p ps ih =>
    rw [List.foldl_cons]
    refine Stays.trans (?_ : Stays 0 t (plantTomb t p)) (ih _)
    unfold plantTomb
    split
    · exact ⟨rfl, List.length_set, le_rfl, le_rfl⟩
    · exact Stays.refl t

end Draugr
