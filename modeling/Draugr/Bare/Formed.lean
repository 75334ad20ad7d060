import Draugr.Bare.CounterRuns

/-!
# What every reachable table stores

`Formed t` is what holds of a bare table after any sequence of calls, whatever the allocations did
and however far an insertion travelled: the capacity is a power of two, live slots hold 48-bit
hashes and 16-bit distances, no entry carries `VAL_NONE`, the lanes hold the hashes they are meant
for, and the overflow stash is within its bound. Nothing is said here about where an entry stands.
-/

namespace Draugr
open Lib

/-- What a live slot holds. -/
structure SlotFormed (s : Slot) : Prop where
  hash48 : s.hash < 2 ^ 48
  pd16 : s.pd < 2 ^ 16
  val : s.val ≠ valNone

/-- What an entry of the overflow stash, or one that an insertion carries, holds. -/
structure EntryFormed (h v : ℕ) : Prop where
  hash2 : 2 ≤ h
  hash48 : h < 2 ^ 48
  val : v ≠ valNone

/-- What holds of every reachable table. -/
structure Formed (t : HtBare) : Prop where
  pow2 : ∃ k, t.capacity = 2 ^ k
  slots : ∀ i, (t.slot i).Live → SlotFormed (t.slot i)
  spill : ∀ e ∈ t.spill, e.1 < 2 ∧ e.2 ≠ valNone
  overflow : ∀ e ∈ t.overflow, EntryFormed e.1 e.2
  overflowLen : t.overflow.length ≤ overflowStashCap

/-- `rz` keeps tables formed. -/
def KeepsFormed (rz : HtBare → Option (Bool × HtBare)) : Prop :=
  ∀ {t ok t'}, Formed t → rz t = some (ok, t') → Formed t'

variable {i : ℕ} {b ok : Bool} {t t' : HtBare} {c : Carrier} {s : Slot}
  {rz : HtBare → Option (Bool × HtBare)}

/-- A table with formed slots has a slot. -/
lemma Formed.capacity_pos (hF : Formed t) : 0 < t.capacity := by
  obtain ⟨k, hk⟩ := hF.pow2
  rw [hk]
  exact Nat.two_pow_pos k

/-- A slot of an all-empty main array. -/
lemma slot_fresh {n : ℕ} (hm : t.main = List.replicate n Slot.emptySlot) (i : ℕ) :
    t.slot i = Slot.emptySlot := by
  unfold HtBare.slot
  rw [hm, List.getD_eq_getElem?_getD, List.getElem?_replicate]
  split <;> rfl

/-- A table with an all-empty main array and empty lanes. -/
lemma Formed.of_fresh {n : ℕ} (hn : ∃ k, n = 2 ^ k) (hm : t.main = List.replicate n Slot.emptySlot)
    (hs : t.spill = []) (ho : t.overflow = []) : Formed t := by
  refine ⟨?_, fun i hl => ?_, ?_, ?_, ?_⟩
  · rwa [HtBare.capacity, hm, List.length_replicate]
  · rw [slot_fresh hm i] at hl
    exact absurd hl Slot.emptySlot_empty.not_live
  · rw [hs]
    exact fun _ h => absurd h List.not_mem_nil
  · rw [ho]
    exact fun _ h => absurd h List.not_mem_nil
  · rw [ho]
    exact Nat.zero_le _

/-- The invariant only reads the main array and the lanes. -/
lemma Formed.congr (hF : Formed t) (hm : t'.main = t.main) (hs : t'.spill = t.spill)
    (ho : t'.overflow = t.overflow) : Formed t' := by
  cases t
  cases t'
  simp only at hm hs ho
  subst hm hs ho
  exact ⟨hF.pow2, hF.slots, hF.spill, hF.overflow, hF.overflowLen⟩

/-- Smaller lanes. -/
lemma Formed.lanes (hF : Formed t) (hm : t'.main = t.main) (hs : ∀ e ∈ t'.spill, e ∈ t.spill)
    (ho : ∀ e ∈ t'.overflow, e ∈ t.overflow) (hlen : t'.overflow.length ≤ t.overflow.length) :
    Formed t' := by
  have hslot : ∀ i, t'.slot i = t.slot i := fun i => by
    unfold HtBare.slot
    rw [hm]
  refine ⟨?_, fun i => ?_, fun e he => hF.spill e (hs e he), fun e he => hF.overflow e (ho e he),
    hlen.trans hF.overflowLen⟩
  · rw [HtBare.capacity, hm]
    exact hF.pow2
  · rw [hslot]
    exact hF.slots i

/-- A write past the end of the main array does nothing. -/
lemma HtBare.setSlot_of_le (s : Slot) (hi : t.capacity ≤ i) : t.setSlot i s = t := by
  unfold HtBare.setSlot
  rw [List.set_eq_of_length_le hi]

/-- Writing a slot. -/
lemma Formed.write (hF : Formed t) (hs : s.Live → SlotFormed s) : Formed (t.setSlot i s) := by
  rcases Nat.lt_or_ge i t.capacity with hi | hi
  · refine ⟨?_, fun j => ?_, hF.spill, hF.overflow, hF.overflowLen⟩
    · rw [HtBare.capacity_setSlot]
      exact hF.pow2
    · rw [HtBare.slot_setSlot s hi]
      split
      · exact hs
      · exact hF.slots j
  · rw [HtBare.setSlot_of_le s hi]
    exact hF

/-- Writing an empty slot. -/
lemma Formed.drop (hF : Formed t) (hs : ¬ s.Live) : Formed (t.setSlot i s) :=
  hF.write fun h => absurd h hs

/-- A packed entry. -/
lemma SlotFormed.pack {h d v : ℕ} (hv : v ≠ valNone) : SlotFormed (hpdPack h d v) :=
  ⟨Nat.mod_lt _ (Nat.two_pow_pos 48), Nat.mod_lt _ (Nat.two_pow_pos 16), hv⟩

/-! ## Insertion -/

/-- What one iteration leaves behind. -/
def StepFormed : RhStep → Prop
  | .ret _ t' => Formed t'
  | .go t' c' => Formed t' ∧ EntryFormed c'.hash c'.val
  | .unbounded t' c' => Formed t' ∧ EntryFormed c'.hash c'.val
  | .resize t' c' => Formed t' ∧ EntryFormed c'.hash c'.val

/-- A carrier that goes to the stash keeps the entries formed. -/
lemma stashCarrier_formed (hF : Formed t) (hc : EntryFormed c.hash c.val) :
    StepFormed (stashCarrier t c) := by
  unfold stashCarrier overflowStashInsert
  split
  · rename_i t' h
    split at h
    · cases h
    · rename_i hroom
      cases h
      refine ⟨hF.pow2, hF.slots, hF.spill, fun e he => ?_, ?_⟩
      · rcases List.mem_append.mp he with h | h
        · exact hF.overflow e h
        · rw [List.mem_singleton] at h
          have hh : h48 c.hash = c.hash := Nat.mod_eq_of_lt hc.hash48
          rw [h, hh]
          exact hc
      · show (t.overflow ++ [_]).length ≤ overflowStashCap
        rw [List.length_append, List.length_singleton]
        omega
  · exact ⟨hF.congr rfl rfl rfl, hc⟩

/-- One iteration. -/
lemma rhStep_formed (hF : Formed t) (hc : EntryFormed c.hash c.val) :
    StepFormed (rhStep b t c) := by
  have hnew : SlotFormed (hpdPack c.hash c.dist c.val) := .pack hc.val
  unfold rhStep
  simp only
  split
  · rename_i hlive
    have hslot := hF.slots _ hlive
    split
    · -- the displaced entry is carried on
      have hw : Formed (t.setSlot c.idx (hpdPack c.hash c.dist c.val)) := hF.write fun _ => hnew
      have hold : EntryFormed (t.slot c.idx).hash (t.slot c.idx).val :=
        ⟨hlive, hslot.hash48, hslot.val⟩
      split
      · exact stashCarrier_formed hw hold
      · exact ⟨hw, hold⟩
    · split
      · exact stashCarrier_formed hF hc
      · split
        · exact ⟨hF, hc⟩
        · exact ⟨hF, hc⟩
  · split
    · exact ⟨hF, hc⟩
    · have hput :
        ∀ {t₁ : HtBare}, Formed t₁ → StepFormed (if overLimit b t₁ c then stashCarrier t₁ c
          else .ret true
            { t₁.setSlot c.idx (hpdPack c.hash c.dist c.val) with size := t₁.size + 1 }) := by
        intro t₁ hF₁
        split
        · exact stashCarrier_formed hF₁ hc
        · exact (hF₁.write (i := c.idx) fun _ => hnew).congr rfl rfl rfl
      split
      · exact hput (hF.congr rfl rfl rfl)
      · exact hput hF

/-- The insertion loop. -/
lemma rhLoop_formed (hrz : KeepsFormed rz) {fuel : ℕ} (hF : Formed t)
    (hc : EntryFormed c.hash c.val) (hr : rhLoop rz fuel b t c = some (ok, t')) : Formed t' := by
  induction fuel generalizing b t c with
  | zero => cases hr
  | succ fuel ih =>
    have hstep := rhStep_formed (b := b) hF hc
    rw [rhLoop] at hr
    cases hs : rhStep b t c with
    | ret ok' t₁ =>
      rw [hs] at hstep hr
      cases hr
      exact hstep
    | go t₁ c₁ =>
      rw [hs] at hstep hr
      exact ih hstep.1 hstep.2 hr
    | unbounded t₁ c₁ =>
      rw [hs] at hstep hr
      exact ih (c := .start t₁ c₁.hash c₁.val) hstep.1 hstep.2 hr
    | resize t₁ c₁ =>
      rw [hs] at hstep hr
      simp only at hr
      cases hz : rz t₁ with
      | none =>
        rw [hz] at hr
        cases hr
      | some r =>
        obtain ⟨ok₁, t₂⟩ := r
        have hF₂ := hrz hstep.1 hz
        rw [hz] at hr
        cases ok₁ with
        | false =>
          cases hr
          exact hF₂
        | true => exact ih (c := .start t₂ c₁.hash c₁.val) hF₂ hstep.2 hr

/-- `bare_rh_insert_bounded`. -/
lemma bareRhInsertBounded_formed (hrz : KeepsFormed rz) {h v : ℕ} (hF : Formed t)
    (he : EntryFormed h v) (hr : bareRhInsertBounded rz t h v = some (ok, t')) : Formed t' := by
  unfold bareRhInsertBounded at hr
  rw [if_neg hF.capacity_pos.ne'] at hr
  exact rhLoop_formed hrz hF (c := .start t h v) he hr

/-- A list of insertions. -/
lemma reinsert_formed (hrz : KeepsFormed rz) {es : List (ℕ × ℕ)} (hF : Formed t)
    (hes : ∀ e ∈ es, EntryFormed e.1 e.2) (hr : reinsert rz t es = some t') : Formed t' := by
  induction es generalizing t with
  | nil =>
    cases hr
    exact hF
  | cons e es ih =>
    rw [reinsert] at hr
    cases hi : bareRhInsertBounded rz t e.1 e.2 with
    | none =>
      rw [hi] at hr
      cases hr
    | some r =>
      rw [hi] at hr
      exact ih (bareRhInsertBounded_formed hrz hF (hes e List.mem_cons_self) hi)
        (fun e he => hes e (List.mem_cons_of_mem _ he)) hr

/-! ## The spill lane -/

/-- `bare_spill_grow` keeps the entries. -/
lemma bareSpillGrow_fields (t : HtBare) : (bareSpillGrow t).2.main = t.main ∧
    (bareSpillGrow t).2.spill = t.spill ∧ (bareSpillGrow t).2.overflow = t.overflow := by
  unfold bareSpillGrow malloc
  generalize (if t.spillCap = 0 then spillInitial else t.spillCap * 2) = newCap
  simp only
  split
  · exact ⟨rfl, rfl, rfl⟩
  · cases t.mem with
    | nil => exact ⟨rfl, rfl, rfl⟩
    | cons ok rest => cases ok <;> exact ⟨rfl, rfl, rfl⟩

/-- `bare_spill_insert`. -/
lemma bareSpillInsert_formed {h v : ℕ} (hF : Formed t) (hh : h < 2) (hv : v ≠ valNone) :
    Formed (bareSpillInsert t h v).2 := by
  have hh48 : h48 h = h := Nat.mod_eq_of_lt (by omega)
  have hpush : ∀ {t : HtBare}, Formed t →
      Formed { t with spill := t.spill ++ [(h, v)], size := t.size + 1 } := by
    intro t hF
    refine ⟨hF.pow2, hF.slots, fun e he => ?_, hF.overflow, hF.overflowLen⟩
    rcases List.mem_append.mp he with h | h
    · exact hF.spill e h
    · rw [List.mem_singleton] at h
      rw [h]
      exact ⟨hh, hv⟩
  have hgrow : Formed (bareSpillGrow t).2 := by
    obtain ⟨hm, hs, ho⟩ := bareSpillGrow_fields t
    exact hF.congr hm hs ho
  unfold bareSpillInsert
  rw [hh48]
  dsimp only
  split
  · rcases hg : bareSpillGrow t with ⟨ok, t₁⟩
    rw [hg] at hgrow
    cases ok with
    | false => exact hgrow
    | true => exact hpush hgrow
  · exact hpush hF

/-- `bare_reinsert_spill`. -/
lemma bareReinsertSpill_formed {es : List (ℕ × ℕ)} (hF : Formed t) (hes : ∀ e ∈ es, e.1 < 2) :
    Formed (bareReinsertSpill t es) := by
  unfold bareReinsertSpill
  induction es generalizing t with
  | nil => exact hF
  | cons e es ih =>
    rw [List.foldl_cons]
    refine ih ?_ fun e he => hes e (List.mem_cons_of_mem _ he)
    split
    · exact hF
    · rename_i hv
      exact bareSpillInsert_formed hF (hes e List.mem_cons_self) hv

/-! ## Rebuilding -/

/-- `bare_place_prophylactic_tombstones`. -/
lemma barePlaceProphylacticTombstones_formed (hF : Formed t) :
    Formed (barePlaceProphylacticTombstones t) := by
  unfold barePlaceProphylacticTombstones
  simp only
  generalize ((List.range _).map _) = ps
  induction ps generalizing t with
  | nil => exact hF
  | cons p ps ih =>
    rw [List.foldl_cons]
    refine ih ?_
    unfold plantTomb
    split
    · exact (hF.drop (i := p) Slot.tombSlot_tomb.not_live).congr rfl rfl rfl
    · exact hF

/-- A live entry comes from a live slot. -/
lemma exists_slot_of_mem_live {e : ℕ × ℕ} (he : e ∈ liveEntries t.main) :
    ∃ i, (t.slot i).Live ∧ (t.slot i).hash = e.1 ∧ (t.slot i).val = e.2 := by
  obtain ⟨s, hs, hse⟩ := List.mem_filterMap.mp he
  obtain ⟨i, hi, hget⟩ := List.getElem_of_mem hs
  have hslot : t.slot i = s := by
    unfold HtBare.slot
    rw [List.getD_eq_getElem?_getD, List.getElem?_eq_getElem hi, hget]
    rfl
  unfold Slot.entry at hse
  split at hse
  · rename_i hl
    cases hse
    exact ⟨i, by rwa [hslot], by rw [hslot], by rw [hslot]⟩
  · cases hse

/-- The live entries of the main array. -/
lemma Formed.live (hF : Formed t) {e : ℕ × ℕ} (he : e ∈ liveEntries t.main) :
    EntryFormed e.1 e.2 := by
  obtain ⟨i, hl, hh, hv⟩ := exists_slot_of_mem_live he
  have hslot := hF.slots i hl
  rw [← hh, ← hv]
  exact ⟨hl, hslot.hash48, hslot.val⟩

/-- The common part of a resize and a compaction. -/
lemma rebuild_formed (hrz : KeepsFormed rz) {m : ℕ} (hF : Formed t) (hm : ∃ k, m = 2 ^ k)
    (hr : rebuild rz t m = some t') : Formed t' := by
  unfold rebuild at hr
  obtain ⟨t₁, h₁, hr⟩ := Option.bind_eq_some_iff.mp hr
  obtain ⟨t₃, h₃, hr⟩ := Option.bind_eq_some_iff.mp hr
  cases hr
  have hF₀ : Formed (freshBlocks t m) := .of_fresh hm rfl rfl rfl
  have hF₁ : Formed t₁ := reinsert_formed hrz hF₀ (fun _ he => hF.live he) h₁
  have hF₂ : Formed (bareReinsertSpill t₁ t.spill) :=
    bareReinsertSpill_formed hF₁ fun e he => (hF.spill e he).1
  exact barePlaceProphylacticTombstones_formed (reinsert_formed hrz hF₂ hF.overflow h₃)

/-- An allocation touches no lane. -/
lemma malloc_fields (t : HtBare) : (malloc t).2.main = t.main ∧ (malloc t).2.spill = t.spill ∧
    (malloc t).2.overflow = t.overflow := by
  unfold malloc
  split <;> exact ⟨rfl, rfl, rfl⟩

/-- An allocation keeps the entries formed. -/
lemma malloc_formed (hF : Formed t) : Formed (malloc t).2 := by
  obtain ⟨hm, hs, ho⟩ := malloc_fields t
  exact hF.congr hm hs ho

/-- The allocation of a main block keeps the entries formed. -/
lemma bareAllocMainBlock_formed (hF : Formed t) (n : ℕ) : Formed (bareAllocMainBlock t n).2 := by
  unfold bareAllocMainBlock
  split
  · exact hF
  · exact malloc_formed hF

/-- `bare_resize_table` without a resize in its own insertions. -/
lemma nestedResize_keeps : KeepsFormed nestedResize := by
  intro t ok t' hF hr
  unfold nestedResize at hr
  split at hr
  · cases hr
    exact hF
  · cases hr

/-- A `bare_resize_table` that is neither nested nor too large. -/
lemma bareResizeTable_eq (hz : ¬ t.resizing = true) (hs : ¬ t.size > sizeMax / 2) :
    bareResizeTable t = match bareAllocMainBlock t (resizeCapacity t) with
      | (false, t) => some (false, t)
      | (true, t₁) => match malloc t₁ with
        | (false, t) => some (false, t)
        | (true, t₂) => match rebuild nestedResize { t₂ with resizing := true }
          (resizeCapacity t) with
          | none => none
          | some t => some (true, { t with resizing := false }) := by
  unfold bareResizeTable
  rw [if_neg hz, if_neg hs]
  rfl

/-- A `bare_resize_table` that is nested or too large. -/
lemma bareResizeTable_refused (h : t.resizing = true ∨ t.size > sizeMax / 2) :
    bareResizeTable t = some (false, t) := by
  unfold bareResizeTable
  rcases h with hz | hs
  · rw [if_pos hz]
  · rw [if_pos hs, ite_self]

/-- `bare_resize_table`. -/
lemma bareResizeTable_formed : KeepsFormed bareResizeTable := by
  intro t ok t' hF hr
  by_cases hno : t.resizing = true ∨ t.size > sizeMax / 2
  · rw [bareResizeTable_refused hno] at hr
    cases hr
    exact hF
  rw [bareResizeTable_eq (fun h => hno (.inl h)) (fun h => hno (.inr h))] at hr
  have hF₁ := bareAllocMainBlock_formed hF (resizeCapacity t)
  rcases ha : bareAllocMainBlock t (resizeCapacity t) with ⟨ok₁, t₁⟩
  rw [ha] at hr hF₁
  cases ok₁ with
  | false =>
    cases hr
    exact hF₁
  | true =>
    have hpow := resizeCapacity_pow2 (bareAllocMainBlock_fits ha)
    have hF₂ := malloc_formed hF₁
    rcases hm : malloc t₁ with ⟨ok₂, t₂⟩
    simp only at hr
    rw [hm] at hr hF₂
    cases ok₂ with
    | false =>
      cases hr
      exact hF₂
    | true =>
      simp only at hr
      cases hb : rebuild nestedResize { t₂ with resizing := true } (resizeCapacity t) with
      | none =>
        rw [hb] at hr
        cases hr
      | some t₃ =>
        rw [hb] at hr
        cases hr
        have hF₂' : Formed { t₂ with resizing := true } := hF₂.congr rfl rfl rfl
        exact (rebuild_formed nestedResize_keeps hF₂' hpow hb).congr rfl rfl rfl

/-- `ht_bare_resize`. -/
lemma htBareResize_formed {n : ℕ} (hF : Formed t) (hr : htBareResize t n = some (ok, t')) :
    Formed t' := by
  unfold htBareResize at hr
  split at hr
  · cases hr
    exact hF
  · exact bareResizeTable_formed hF hr

/-- `ht_bare_compact`. -/
lemma htBareCompact_formed (hF : Formed t) (hr : htBareCompact t = some t') : Formed t' := by
  unfold htBareCompact at hr
  have hF₁ := bareAllocMainBlock_formed hF t.capacity
  rcases ha : bareAllocMainBlock t t.capacity with ⟨ok₁, t₁⟩
  rw [ha] at hr hF₁
  cases ok₁ with
  | false =>
    cases hr
    exact hF₁
  | true =>
    have hF₂ := malloc_formed hF₁
    rcases hm : malloc t₁ with ⟨ok₂, t₂⟩
    simp only at hr
    rw [hm] at hr hF₂
    cases ok₂ with
    | false =>
      cases hr
      exact hF₂
    | true => exact rebuild_formed bareResizeTable_formed hF₂ hF₂.pow2 hr

/-- The resizes at the start of `ht_bare_insert`. -/
lemma insertPrepare_formed (hF : Formed t) (hr : insertPrepare t = some (ok, t')) : Formed t' := by
  have hload : ∀ {ok t'}, loadResize t = some (ok, t') → Formed t' := by
    intro ok t' h
    unfold loadResize at h
    split at h
    · split at h
      · cases h
        exact hF
      · exact htBareResize_formed hF h
    · cases h
      exact hF
  unfold insertPrepare at hr
  cases hl : loadResize t with
  | none =>
    rw [hl] at hr
    cases hr
  | some r =>
    obtain ⟨ok₁, t₁⟩ := r
    have hF₁ := hload hl
    rw [hl] at hr
    cases ok₁ with
    | false =>
      cases hr
      exact hF₁
    | true =>
      simp only at hr
      split at hr
      · exact htBareResize_formed hF₁ hr
      · cases hr
        exact hF₁

/-- `ht_bare_insert`. -/
lemma htBareInsert_formed {hash v : ℕ} (hF : Formed t)
    (hr : htBareInsert t hash v = some (ok, t')) :
    Formed t' := by
  unfold htBareInsert at hr
  split at hr
  · cases hr
    exact hF
  rename_i hv
  split at hr
  · rename_i hsmall
    have hins := bareSpillInsert_formed hF hsmall hv
    rwa [Option.some.inj hr] at hins
  rename_i hbig
  cases hp : insertPrepare t with
  | none =>
    rw [hp] at hr
    cases hr
  | some r =>
    obtain ⟨ok₁, t₁⟩ := r
    have hF₁ := insertPrepare_formed hF hp
    rw [hp] at hr
    cases ok₁ with
    | false =>
      cases hr
      exact hF₁
    | true =>
      exact bareRhInsertBounded_formed bareResizeTable_formed hF₁
        ⟨not_lt.mp hbig, Nat.mod_lt _ (Nat.two_pow_pos 48), hv⟩ hr

/-! ## Removal -/

/-- The backward shift. -/
lemma commitFrom_formed (idx m : ℕ) {i w : ℕ} (hF : Formed t) :
    Formed (commitFrom idx m i w t) := by
  induction m generalizing i w t with
  | zero => exact hF
  | succ m ih =>
    rw [commitFrom]
    split
    · rename_i hl
      have hval := (hF.slots _ hl).val
      exact ih ((hF.write fun _ => .pack hval).drop Slot.emptySlot_empty.not_live)
    · exact ih ((hF.drop Slot.emptySlot_empty.not_live).congr rfl rfl rfl)

/-- A slot becomes a tombstone and the chain behind it is compacted. -/
lemma deleteAt_formed (hF : Formed t) (idx : ℕ) : Formed (deleteAt t idx) := by
  have hT : Formed ({ t.setSlot idx Slot.tombSlot with
      size := sizeDec t.size, tombstoneCnt := t.tombstoneCnt + 1 } : HtBare) :=
    (hF.drop (i := idx) Slot.tombSlot_tomb.not_live).congr rfl rfl rfl
  unfold deleteAt bareDeleteCompact
  dsimp only
  split
  · exact (commitFrom_formed _ _ hT).congr rfl rfl rfl
  · exact hT

/-- The scan of `ht_bare_remove_val` keeps the entries formed. -/
lemma removeValFrom_formed {h v m idx dist : ℕ} (hF : Formed t)
    (hr : removeValFrom t h v m idx dist = some t') : Formed t' := by
  induction m generalizing idx dist with
  | zero => cases hr
  | succ m ih =>
    rw [removeValFrom] at hr
    split at hr
    · cases hr
    split at hr
    · exact ih hr
    split at hr
    · cases hr
    split at hr
    · cases hr
      exact deleteAt_formed hF idx
    · exact ih hr

/-- The scan of `ht_bare_remove` keeps the entries formed. -/
lemma removeFrom_formed (h m : ℕ) {idx dist removed : ℕ} (hF : Formed t) :
    Formed (removeFrom h m idx dist removed t).2 := by
  induction m generalizing idx dist removed t with
  | zero => exact hF
  | succ m ih =>
    rw [removeFrom]
    split
    · exact hF
    split
    · exact ih hF
    split
    · exact hF
    split
    · exact ih (deleteAt_formed hF idx)
    · exact ih hF

/-- The removal from the spill lane keeps the entries formed. -/
lemma bareSpillRemove_formed (hF : Formed t) (h : ℕ) : Formed (bareSpillRemove t h).2 :=
  hF.lanes rfl (fun _ he => List.mem_of_mem_filter he) (fun _ he => he) le_rfl

/-- The removal from the overflow stash keeps the entries formed. -/
lemma overflowStashRemove_formed (hF : Formed t) (h : ℕ) : Formed (overflowStashRemove t h).2 :=
  hF.lanes rfl (fun _ he => he) (fun _ he => List.mem_of_mem_filter he) (List.length_filter_le _ _)

/-- The removal of a value from the spill lane keeps the entries formed. -/
lemma bareSpillRemoveVal_formed (hF : Formed t) (h v : ℕ) :
    Formed (bareSpillRemoveVal t h v).2 := by
  unfold bareSpillRemoveVal
  split
  · exact hF.lanes rfl (fun _ he => List.mem_of_mem_erase he) (fun _ he => he) le_rfl
  · exact hF

/-- The removal of a value from the overflow stash keeps the entries formed. -/
lemma overflowStashRemoveVal_formed (hF : Formed t) (h v : ℕ) :
    Formed (overflowStashRemoveVal t h v).2 := by
  unfold overflowStashRemoveVal
  split
  · exact hF
  · rename_i i hi
    have hmem : ∀ e ∈ (t.overflow.set i (t.overflow.getLastD (0, 0))).dropLast, e ∈ t.overflow := by
      intro e he
      rcases List.mem_or_eq_of_mem_set (List.mem_of_mem_dropLast he) with h | h
      · exact h
      · have hne : t.overflow ≠ [] := by
          rintro h0
          rw [h0] at hi
          cases hi
        rw [h, List.getLastD_eq_getLast?, List.getLast?_eq_getLast_of_ne_nil hne]
        exact List.getLast_mem hne
    refine hF.lanes rfl (fun _ he => he) hmem ?_
    show ((t.overflow.set i _).dropLast).length ≤ t.overflow.length
    rw [List.length_dropLast, List.length_set]
    exact Nat.sub_le _ _

/-- `ht_bare_remove_val`. -/
lemma htBareRemoveVal_formed (hF : Formed t) (hash v : ℕ) :
    Formed (htBareRemoveVal t hash v).2 := by
  unfold htBareRemoveVal
  split
  · exact bareSpillRemoveVal_formed hF _ _
  · cases hr : removeValFrom t (h48 hash) v (t.capacity + 1) (h48 hash % t.capacity) 0 with
    | some t₁ => exact removeValFrom_formed hF hr
    | none => exact overflowStashRemoveVal_formed hF _ _

/-- `ht_bare_remove`. -/
lemma htBareRemove_formed (hF : Formed t) (hash : ℕ) : Formed (htBareRemove t hash).2 := by
  unfold htBareRemove
  split
  · exact bareSpillRemove_formed hF _
  · exact overflowStashRemove_formed (removeFrom_formed _ _ hF) _

/-! ## Runs -/

/-- One call. -/
lemma BareCall.run_formed {call : BareCall} (hF : Formed t) (hr : call.run t = some t') :
    Formed t' := by
  cases call with
  | remove hash =>
    cases hr
    exact htBareRemove_formed hF hash
  | op o =>
    cases o with
    | insert hash val =>
      obtain ⟨⟨ok, t₁⟩, h, rfl⟩ := Option.map_eq_some_iff.mp hr
      exact htBareInsert_formed hF h
    | removeVal hash val =>
      cases hr
      exact htBareRemoveVal_formed hF hash val
    | resize newCapacity =>
      obtain ⟨⟨ok, t₁⟩, h, rfl⟩ := Option.map_eq_some_iff.mp hr
      exact htBareResize_formed hF h
    | compact => exact htBareCompact_formed hF hr
    | clear =>
      cases hr
      exact .of_fresh hF.pow2 rfl rfl rfl

/-- A sequence of calls. -/
lemma runCalls_formed {calls : List BareCall} (hF : Formed t) (hr : runCalls calls t = some t') :
    Formed t' := by
  induction calls generalizing t with
  | nil =>
    cases hr
    exact hF
  | cons call calls ih =>
    rw [runCalls] at hr
    cases h₁ : call.run t with
    | none =>
      rw [h₁] at hr
      cases hr
    | some t₁ =>
      rw [h₁] at hr
      exact ih (BareCall.run_formed hF h₁) hr

/-- A table as `ht_bare_create` returns it. -/
lemma htBareCreate_formed {cfg : HtConfig} {mem : List Bool} {fuel : ℕ}
    (hc : htBareCreate cfg mem fuel = some t) : Formed t := by
  unfold htBareCreate at hc
  simp only at hc
  split at hc
  · cases hc
  rename_i hcap
  cases hc
  exact .of_fresh (nextPow2_pow2 (not_lt.mp hcap)) rfl rfl rfl

end Draugr
