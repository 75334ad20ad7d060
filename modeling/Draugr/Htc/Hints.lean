import Draugr.Htc.Defs
import Draugr.Lib.Keyed

/-!
# Control bytes and remap hints

`Hinted g H` is the invariant of the metadata of the buckets, where `H` gives the placement hash of
a record: a control byte is that of the word in its slot, a remap counter that is not saturated
counts the words that left their primary bucket, and the remap filter has a bit for each of them. It
is kept by publishing and emptying a slot, with the hint raised or lowered for a word in its
secondary bucket.

With it a bucket scan misses no word, and a skipped secondary bucket holds no word of the key.
-/

namespace Draugr.Htc
open Draugr.Lib

/-- The control byte of a slot. -/
def ctrlByte (o : Option Word) : ℕ := (o.map fun w => partial8 w.tag).getD 0

/-- A word that left the primary bucket `b`. -/
def Gen.Strayed (g : Gen) (H : ℕ → ℕ) (b : ℕ) (w : Word) : Prop :=
  w.inSec = true ∧ g.primary (H w.idx) = b

/-- The metadata of the buckets agrees with their slots. -/
structure Hinted (g : Gen) (H : ℕ → ℕ) : Prop where
  ctrl : ∀ x, g.ctrl x = ctrlByte (g.slots x)
  count : ∀ b,
    g.remapCount b = remapSaturated ∨ (g.remapCount b : ℕ∞) = (hits g.slots (g.Strayed H b)).encard
  filter : ∀ x w, g.slots x = some w → w.inSec = true →
    (g.remapFilter (g.primary (H w.idx))).testBit (w.tag % 16) = true

variable {g : Gen} {H : ℕ → ℕ} {recs : ℕ → HtcRecord} {x : ℕ × ℕ} {w : Word} {b i identity tag : ℕ}

/-- A fresh generation has nothing to hint at. -/
lemma Hinted.fresh (n seed : ℕ) : Hinted (Gen.fresh n seed) H where
  ctrl _ := rfl
  count b := by
    right
    have h : hits (Gen.fresh n seed).slots ((Gen.fresh n seed).Strayed H b) = ∅ := by
      rw [Set.eq_empty_iff_forall_notMem]
      exact fun x => notMem_hits rfl
    rw [h, Set.encard_empty]
    rfl
  filter x w hx := by cases hx

/-! ## Scanning -/

/-- The borrow is a bit. -/
lemma match8Borrow_le (x : ℕ → ℕ) (i : ℕ) : match8Borrow x i ≤ 1 := by
  cases i with
  | zero => exact Nat.zero_le 1
  | succ i =>
    rw [match8Borrow]
    split <;> omega

/-- `htc_match8` has no false negatives. -/
lemma match8Hit_self {ctrl : ℕ → ℕ} {p i : ℕ} (h : ctrl i = p) : match8Hit ctrl p i = true := by
  have hb := match8Borrow_le (fun j => ctrl j ^^^ p) i
  simp only [match8Hit, h, Nat.xor_self, Nat.zero_testBit, Bool.not_false, Bool.and_true]
  interval_cases match8Borrow (fun j => ctrl j ^^^ p) i <;> decide

/-- What a scan finds. -/
lemma htcBucketScan_some {sec : Bool} (h : htcBucketScan g recs b identity tag sec = some i) :
    ∃ w, i < bucketSlots ∧ g.slots (b, i) = some w ∧ w.inSec = sec ∧
      w.isFor recs identity tag = true := by
  have hm := List.mem_of_find?_eq_some h
  have hp := List.find?_some h
  rw [match8, List.mem_filter, List.mem_range] at hm
  obtain ⟨w, hw, hq⟩ := Option.any_eq_true _ _ |>.mp hp
  rw [Bool.and_eq_true, beq_iff_eq] at hq
  exact ⟨w, hm.1, hw, hq.1, hq.2⟩

/-- What a scan misses. -/
lemma htcBucketScan_none {sec : Bool} (hg : ∀ x, g.ctrl x = ctrlByte (g.slots x))
    (h : htcBucketScan g recs b identity tag sec = none) (hi : i < bucketSlots)
    (hw : g.slots (b, i) = some w) (hs : w.inSec = sec) : w.isFor recs identity tag = false := by
  by_contra hf
  rw [Bool.not_eq_false] at hf
  have ht : w.tag = tag := by
    simp only [Word.isFor, Bool.and_eq_true, beq_iff_eq] at hf
    exact hf.1.1
  have hc : g.ctrl (b, i) = partial8 tag := by rw [hg, hw, ← ht]; rfl
  have hm : i ∈ match8 g b (partial8 tag) := by
    rw [match8, List.mem_filter, List.mem_range]
    exact ⟨hi, match8Hit_self hc⟩
  have hn := List.find?_eq_none.mp h i hm
  rw [hw, Option.any_some, hs, hf] at hn
  simp at hn

/-- A word that sits in its secondary bucket makes the scan of that bucket necessary. -/
lemma Hinted.mustCheckSecondary (hg : Hinted g H) (hw : g.slots x = some w) (hs : w.inSec = true) :
    g.mustCheckSecondary (g.primary (H w.idx)) w.tag = true := by
  rw [Gen.mustCheckSecondary]
  have hne : g.remapCount (g.primary (H w.idx)) ≠ 0 := by
    intro h0
    rcases hg.count (g.primary (H w.idx)) with h | h
    · rw [h0] at h
      cases h
    · rw [h0, Nat.cast_zero] at h
      exact not_of_encard_hits_eq_zero h.symm hw ⟨hs, rfl⟩
  rw [if_neg hne]
  split
  · rfl
  · exact hg.filter x w hw hs

/-! ## Publishing and emptying a slot -/

/-- The control bytes after a put. -/
lemma ctrl_put (h : ∀ x, g.ctrl x = ctrlByte (g.slots x)) (y : ℕ × ℕ) :
    (g.put x w).ctrl y = ctrlByte ((g.put x w).slots y) := by
  by_cases hy : y = x
  · subst hy
    simp only [Gen.put, Function.update_self]
    rfl
  · simp only [Gen.put, Function.update_of_ne hy]
    exact h y

/-- The control bytes after a clear. -/
lemma ctrl_clear (h : ∀ x, g.ctrl x = ctrlByte (g.slots x)) (y : ℕ × ℕ) :
    (g.clear x).ctrl y = ctrlByte ((g.clear x).slots y) := by
  by_cases hy : y = x
  · subst hy
    simp only [Gen.clear, Function.update_self]
    rfl
  · simp only [Gen.clear, Function.update_of_ne hy]
    exact h y

/-- A word is published in its primary bucket. -/
lemma Hinted.put (hg : Hinted g H) (hx : g.slots x = none) (hw : w.inSec = false) :
    Hinted (g.put x w) H where
  ctrl := ctrl_put hg.ctrl
  count b := by
    have hn : ¬ g.Strayed H b w := fun h => by rw [h.1] at hw; cases hw
    have he : hits (g.put x w).slots ((g.put x w).Strayed H b) = hits g.slots (g.Strayed H b) :=
      hits_put_of_not hx hn
    rw [he]
    exact hg.count b
  filter y v hy hv := by
    rcases update_some_cases hy with ⟨-, rfl⟩ | ⟨-, hy⟩
    · rw [hw] at hv
      cases hv
    · exact hg.filter y v hy hv

/-- A bit of the remap filter stays set. -/
lemma testBit_remapInc (h : (g.remapFilter b).testBit i = true) (b' tag : ℕ) :
    ((g.remapInc b' tag).remapFilter b).testBit i = true := by
  by_cases hb : b = b'
  · subst hb
    simp only [Gen.remapInc, Function.update_self, Nat.testBit_or, h, Bool.true_or]
  · simp only [Gen.remapInc, Function.update_of_ne hb]
    exact h

/-- The remap filter has the bit of the tag for which the hint was raised. -/
lemma testBit_remapInc_self (b tag : ℕ) :
    ((g.remapInc b tag).remapFilter b).testBit (tag % 16) = true := by
  have h : (1 <<< (tag % 16)).testBit (tag % 16) = true := by
    rw [Nat.one_shiftLeft, Nat.testBit_two_pow_self]
  simp only [Gen.remapInc, Function.update_self, Nat.testBit_or, h, Bool.or_true]

/-- A word is published in its secondary bucket, after the hint of its primary bucket was raised. -/
lemma Hinted.putSec (hg : Hinted g H) (hx : g.slots x = none) (hw : w.inSec = true) :
    Hinted ((g.remapInc (g.primary (H w.idx)) w.tag).put x w) H where
  ctrl := ctrl_put hg.ctrl
  count b := by
    change (g.remapInc (g.primary (H w.idx)) w.tag).remapCount b = remapSaturated ∨
      ((g.remapInc (g.primary (H w.idx)) w.tag).remapCount b : ℕ∞) =
        (hits (Function.update g.slots x (some w)) (g.Strayed H b)).encard
    by_cases hb : b = g.primary (H w.idx)
    · rw [encard_hits_put hx ⟨hw, hb.symm⟩, ← hb]
      simp only [Gen.remapInc, Function.update_self]
      split
      · exact .inl rfl
      · next hlt =>
        right
        rcases hg.count b with h | h
        · rw [h] at hlt
          exact absurd (by decide) hlt
        · rw [← h, Nat.cast_add, Nat.cast_one]
    · rw [hits_put_of_not hx (fun h => hb h.2.symm)]
      simp only [Gen.remapInc, Function.update_of_ne hb]
      exact hg.count b
  filter y v hy hv := by
    rcases update_some_cases hy with ⟨-, rfl⟩ | ⟨-, hy⟩
    · exact testBit_remapInc_self _ _
    · exact testBit_remapInc (hg.filter y v hy hv) _ _

/-- A slot with a word of its primary bucket is emptied. -/
lemma Hinted.clear (hg : Hinted g H) (hx : g.slots x = some w) (hw : w.inSec = false) :
    Hinted (g.clear x) H where
  ctrl := ctrl_clear hg.ctrl
  count b := by
    have hn : ¬ g.Strayed H b w := fun h => by rw [h.1] at hw; cases hw
    have he : hits (g.clear x).slots ((g.clear x).Strayed H b) = hits g.slots (g.Strayed H b) :=
      hits_clear_of_not hx hn
    rw [he]
    exact hg.count b
  filter y v hy hv := hg.filter y v (update_none_cases hy).2 hv

/-- One less than a count. -/
lemma cast_sub_one_of_add_one_eq {n : ℕ} {m : ℕ∞} (h : m + 1 = n) : ((n - 1 : ℕ) : ℕ∞) = m := by
  have hm : m ≠ ⊤ := by
    rintro rfl
    exact ENat.natCast_ne_top n (by rw [← h, top_add])
  lift m to ℕ using hm
  norm_cast at h ⊢
  omega

/-- Lowering a remap count changes no slot. -/
@[simp] lemma remapDec_slots : (g.remapDec b).slots = g.slots := by
  rw [Gen.remapDec]
  split <;> rfl

/-- Lowering a remap count changes no control byte. -/
@[simp] lemma remapDec_ctrl : (g.remapDec b).ctrl = g.ctrl := by
  rw [Gen.remapDec]
  split <;> rfl

/-- Lowering a remap count does not change the filter. -/
@[simp] lemma remapDec_remapFilter : (g.remapDec b).remapFilter = g.remapFilter := by
  rw [Gen.remapDec]
  split <;> rfl

/-- Lowering a remap count keeps the number of buckets. -/
@[simp] lemma remapDec_numBuckets : (g.remapDec b).numBuckets = g.numBuckets := by
  rw [Gen.remapDec]
  split <;> rfl

/-- Lowering a remap count keeps the seed. -/
@[simp] lemma remapDec_seed : (g.remapDec b).seed = g.seed := by
  rw [Gen.remapDec]
  split <;> rfl

/-- Lowering a remap count keeps the primary buckets. -/
@[simp] lemma remapDec_primary (ph : ℕ) : (g.remapDec b).primary ph = g.primary ph := by
  rw [Gen.primary, remapDec_numBuckets, Gen.primary]

/-- Lowering a remap count leaves the words that strayed. -/
lemma remapDec_strayed (b' : ℕ) : (g.remapDec b).Strayed H b' = g.Strayed H b' := by
  funext v
  rw [Gen.Strayed, Gen.Strayed, remapDec_primary]

/-- The remap counts of other buckets stay. -/
lemma remapDec_remapCount_of_ne {b' : ℕ} (h : b' ≠ b) :
    (g.remapDec b).remapCount b' = g.remapCount b' := by
  rw [Gen.remapDec]
  split
  · rfl
  · exact Function.update_of_ne h ..

/-- The lowered remap count. -/
lemma remapDec_remapCount_self :
    (g.remapDec b).remapCount b =
      if g.remapCount b = 0 ∨ g.remapCount b = remapSaturated then g.remapCount b
      else g.remapCount b - 1 := by
  rw [Gen.remapDec]
  split
  · rfl
  · exact Function.update_self ..

/-- A slot with a word of its secondary bucket is emptied, and the hint of its primary bucket
lowered. -/
lemma Hinted.clearSec (hg : Hinted g H) (hx : g.slots x = some w) (hw : w.inSec = true) :
    Hinted ((g.clear x).remapDec (g.primary (H w.idx))) H where
  ctrl y := by
    rw [remapDec_ctrl, remapDec_slots]
    exact ctrl_clear hg.ctrl y
  count b := by
    rw [remapDec_strayed, remapDec_slots]
    change _ ∨ _ = (hits (Function.update g.slots x none) (g.Strayed H b)).encard
    by_cases hb : b = g.primary (H w.idx)
    · have hc := encard_hits_clear (P := g.Strayed H b) hx ⟨hw, hb.symm⟩
      rw [← hb, remapDec_remapCount_self, show (g.clear x).remapCount b = g.remapCount b from rfl]
      rcases hg.count b with h | h
      · rw [if_pos (.inr h)]
        exact .inl h
      · by_cases hsat : g.remapCount b = remapSaturated
        · rw [if_pos (.inr hsat)]
          exact .inl hsat
        · have hne : g.remapCount b ≠ 0 := by
            intro h0
            rw [h0, Nat.cast_zero] at h
            exact not_of_encard_hits_eq_zero h.symm hx ⟨hw, hb.symm⟩
          rw [if_neg (not_or.mpr ⟨hne, hsat⟩)]
          right
          rw [← h] at hc
          exact cast_sub_one_of_add_one_eq hc
    · rw [remapDec_remapCount_of_ne hb, hits_clear_of_not hx fun h => hb h.2.symm]
      exact hg.count b
  filter y v hy hv := by
    rw [remapDec_slots] at hy
    rw [remapDec_remapFilter, remapDec_primary]
    exact hg.filter y v (update_none_cases hy).2 hv

/-- A hint that is raised and lowered again still holds. -/
lemma Hinted.bump (hg : Hinted g H) (b tag : ℕ) : Hinted ((g.remapInc b tag).remapDec b) H where
  ctrl y := by
    rw [remapDec_ctrl, remapDec_slots]
    exact hg.ctrl y
  count b' := by
    rw [remapDec_strayed, remapDec_slots]
    change _ ∨ _ = (hits g.slots (g.Strayed H b')).encard
    by_cases hb : b' = b
    · subst hb
      rw [remapDec_remapCount_self]
      simp only [Gen.remapInc, Function.update_self]
      by_cases hc : g.remapCount b' ≥ remapSaturated - 1
      · left
        simp [hc]
      · have hlt : g.remapCount b' < 254 := not_le.mp hc
        have h1 : ¬ (g.remapCount b' + 1 = 0 ∨ g.remapCount b' + 1 = remapSaturated) := by
          rw [remapSaturated]
          omega
        rw [if_neg hc, if_neg h1, Nat.add_sub_cancel]
        exact hg.count b'
    · rw [remapDec_remapCount_of_ne hb]
      simp only [Gen.remapInc, Function.update_of_ne hb]
      exact hg.count b'
  filter y v hy hv := by
    rw [remapDec_slots] at hy
    rw [remapDec_remapFilter, remapDec_primary]
    exact testBit_remapInc (hg.filter y v hy hv) _ _

/-! ## Entering and leaving a bucket -/

/-- Publishes a word; the hint of its primary bucket `b` is raised for its secondary bucket. -/
def Gen.enter (g : Gen) (b : ℕ) (x : ℕ × ℕ) (w : Word) : Gen :=
  if w.inSec then (g.remapInc b w.tag).put x w else g.put x w

/-- Empties the slot of a word; the hint of its primary bucket `b` is lowered for its secondary
bucket. -/
def Gen.leave (g : Gen) (b : ℕ) (x : ℕ × ℕ) (w : Word) : Gen :=
  if w.inSec then (g.clear x).remapDec b else g.clear x

/-- The slots after a word has entered. -/
lemma enter_slots : (g.enter b x w).slots = Function.update g.slots x (some w) := by
  rw [Gen.enter]
  split <;> rfl

/-- An entering word keeps the number of buckets. -/
lemma enter_numBuckets : (g.enter b x w).numBuckets = g.numBuckets := by
  rw [Gen.enter]
  split <;> rfl

/-- An entering word keeps the seed. -/
lemma enter_seed : (g.enter b x w).seed = g.seed := by
  rw [Gen.enter]
  split <;> rfl

/-- The slots after a word has left. -/
lemma leave_slots : (g.leave b x w).slots = Function.update g.slots x none := by
  rw [Gen.leave]
  split
  · rw [remapDec_slots]
    rfl
  · rfl

/-- A leaving word keeps the number of buckets. -/
lemma leave_numBuckets : (g.leave b x w).numBuckets = g.numBuckets := by
  rw [Gen.leave]
  split
  · rw [remapDec_numBuckets]
    rfl
  · rfl

/-- A leaving word keeps the seed. -/
lemma leave_seed : (g.leave b x w).seed = g.seed := by
  rw [Gen.leave]
  split
  · rw [remapDec_seed]
    rfl
  · rfl

/-- Entering keeps the hints. -/
lemma Hinted.enter (hg : Hinted g H) (hx : g.slots x = none) :
    Hinted (g.enter (g.primary (H w.idx)) x w) H := by
  rw [Gen.enter]
  split
  · next hs => exact hg.putSec hx hs
  · next hs => exact hg.put hx (Bool.not_eq_true _ ▸ hs)

/-- Leaving keeps the hints. -/
lemma Hinted.leave (hg : Hinted g H) (hx : g.slots x = some w) :
    Hinted (g.leave (g.primary (H w.idx)) x w) H := by
  rw [Gen.leave]
  split
  · next hs => exact hg.clearSec hx hs
  · next hs => exact hg.clear hx (Bool.not_eq_true _ ▸ hs)

end Draugr.Htc
