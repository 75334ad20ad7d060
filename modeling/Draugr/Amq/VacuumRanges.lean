import Mathlib.Order.MinMax
import Mathlib.Tactic.IntervalCases
import Draugr.Amq.Vacuum

/-!
# The ranges of the vacuum filter

`vacuum_filter_create` rounds the number of buckets up to a multiple of the largest alternate range,
and then halves it until it fits its fields. The halving is said to preserve the alignment with the
ranges, but half of an odd multiple is no multiple: the last chunk is then cut off in the middle,
and some buckets in it have their alternate bucket behind the end of the table.
-/

namespace Draugr.Amq
open Draugr.Lib

/-- `bucket_size`, with its default. -/
def createBucketSize (bucketSize : ℕ) : ℕ := if bucketSize = 0 then 4 else bucketSize

/-- `num_buckets` before it is rounded. -/
def createBuckets (bucketsFor : ℕ → ℕ → ℕ) (capacity bucketSize : ℕ) : ℕ :=
  max (bucketsFor capacity (createBucketSize bucketSize)) 1

/-- `ar`. -/
def createAr (rangeSelection : ℕ → ℕ → ℕ → ℕ) (bucketsFor : ℕ → ℕ → ℕ)
    (capacity bucketSize i : ℕ) : ℕ :=
  max (min (computeArSizes rangeSelection capacity (createBucketSize bucketSize) i)
    (arCap (createBuckets bucketsFor capacity bucketSize))) 2

/-- `largest_ar`. -/
def createLargestAr (rangeSelection : ℕ → ℕ → ℕ → ℕ) (bucketsFor : ℕ → ℕ → ℕ)
    (capacity bucketSize : ℕ) : ℕ :=
  let ar := createAr rangeSelection bucketsFor capacity bucketSize
  max (max (ar 0) (ar 1)) (max (ar 2) (ar 3))

/-- `num_buckets` after it is rounded, and before it is halved. -/
def createRounded (rangeSelection : ℕ → ℕ → ℕ → ℕ) (bucketsFor : ℕ → ℕ → ℕ)
    (capacity bucketSize : ℕ) : ℕ :=
  let l := createLargestAr rangeSelection bucketsFor capacity bucketSize
  (createBuckets bucketsFor capacity bucketSize + l - 1) / l * l

/-- A number of buckets does not fit its fields. -/
def TooMany (bucketSize numBuckets : ℕ) : Prop :=
  2 ^ 32 - 1 < numBuckets ∨ 2 ^ 32 - 1 < numBuckets * createBucketSize bucketSize

/-- `k` is the number of halvings. -/
def Halvings (bucketSize numBuckets k : ℕ) : Prop :=
  (∀ i < k, TooMany bucketSize (numBuckets / 2 ^ i)) ∧ ¬ TooMany bucketSize (numBuckets / 2 ^ k)

/-- The alternate index is an involution without fixed points, and stays in the table. -/
def AltRight (vf : VacuumFilter) : Prop :=
  ∀ b < vf.numBuckets, ∀ fp < 2 ^ 32, vacuumAltIndex vf.ar b fp < vf.numBuckets ∧
    vacuumAltIndex vf.ar b fp ≠ b ∧ vacuumAltIndex vf.ar (vacuumAltIndex vf.ar b fp) fp = b

variable {rangeSelection : ℕ → ℕ → ℕ → ℕ} {bucketsFor : ℕ → ℕ → ℕ} {vf : VacuumFilter} {ar : ℕ → ℕ}
  {capacity bucketSize fpBits maxEvicts nb m n : ℕ}

/-! ## Halving -/

/-- The loop ends after the least number of halvings that is enough. -/
lemma halveBuckets_spec (fuel : ℕ) (hfuel : n ≤ fuel) :
    ∃ k, halveBuckets (createBucketSize bucketSize) fuel n = n / 2 ^ k ∧
      Halvings bucketSize n k := by
  induction fuel generalizing n with
  | zero =>
    obtain rfl := Nat.le_zero.mp hfuel
    refine ⟨0, rfl, fun i hi => absurd hi (Nat.not_lt_zero i), ?_⟩
    unfold TooMany
    rw [Nat.zero_div, Nat.zero_mul]
    omega
  | succ fuel ih =>
    rw [halveBuckets]
    split
    · rename_i hmany
      have hpos : 0 < n := by
        by_contra h0
        rw [Nat.eq_zero_of_not_pos h0, Nat.zero_mul] at hmany
        omega
      obtain ⟨k, hk, hbefore, hfit⟩ := ih (n := n / 2) (by omega)
      have hstep : ∀ i, n / 2 / 2 ^ i = n / 2 ^ (i + 1) := by
        intro i
        rw [Nat.div_div_eq_div_mul, Nat.pow_succ, Nat.mul_comm]
      simp only [hstep] at hk hbefore hfit
      refine ⟨k + 1, hk, fun i hi => ?_, hfit⟩
      cases i with
      | zero =>
        rw [Nat.pow_zero, Nat.div_one]
        exact hmany
      | succ i => exact hbefore i (Nat.lt_of_succ_lt_succ hi)
    · rename_i hfit
      refine ⟨0, by rw [Nat.pow_zero, Nat.div_one], fun i hi => absurd hi (Nat.not_lt_zero i), ?_⟩
      rw [Nat.pow_zero, Nat.div_one]
      exact hfit

/-- The number of halvings is one number. -/
lemma Halvings.unique {k k' : ℕ} (h : Halvings bucketSize n k) (h' : Halvings bucketSize n k') :
    k = k' := by
  rcases Nat.lt_trichotomy k k' with hlt | heq | hlt
  · exact absurd (h'.1 k hlt) h.2
  · exact heq
  · exact absurd (h.1 k' hlt) h'.2

/-! ## The ranges of a created filter -/

/-- The header of a created filter. -/
lemma vacuum_create_ranges
    (hc : vacuumFilterCreate rangeSelection bucketsFor capacity bucketSize fpBits maxEvicts =
      some vf) :
    vf.ar = createAr rangeSelection bucketsFor capacity bucketSize ∧
    capacity < 2 ^ 32 ∧
    ∃ k, Halvings bucketSize (createRounded rangeSelection bucketsFor capacity bucketSize) k ∧
      vf.numBuckets = createRounded rangeSelection bucketsFor capacity bucketSize / 2 ^ k := by
  obtain ⟨k, hk, hh⟩ := (@halveBuckets_spec bucketSize)
    (createRounded rangeSelection bucketsFor capacity bucketSize) le_rfl
  unfold vacuumFilterCreate at hc
  extract_lets bs fb me at hc
  split_ifs at hc with h h'
  cases hc
  exact ⟨rfl, by omega, k, hh, hk⟩

/-- `arCap` is a power of two that is not above the number. -/
lemma arCap_pow (hpos : 0 < n) (h : n < 2 ^ 64) : ∃ k, arCap n = 2 ^ k ∧ 2 ^ k ≤ n := by
  obtain ⟨x, hx, hs⟩ : ∃ x, arCap n = x - x >>> 1 ∧ Smeared 64 n x :=
    ⟨_, rfl, (smeared_one n).double.double.double.double.double.double⟩
  obtain ⟨k, -, he, hlt, hle⟩ := hs.eq h
  have hle := hle hpos.ne'
  cases k with
  | zero =>
    rw [Nat.pow_zero] at hlt
    omega
  | succ k =>
    rw [Nat.pow_succ] at he hle
    refine ⟨k, ?_, by omega⟩
    rw [hx, Nat.shiftRight_eq_div_pow]
    omega

/-- The ranges are powers of two, at least 2. -/
lemma createAr_pow (hsel : ∀ c b i, ∃ k, rangeSelection c b i = 2 ^ k)
    (hbuckets : ∀ c < 2 ^ 32, ∀ b, bucketsFor c b < 2 ^ 33) (hcap : capacity < 2 ^ 32) (i : ℕ) :
    ∃ m, 1 ≤ m ∧ m ≤ 32 ∧ createAr rangeSelection bucketsFor capacity bucketSize i = 2 ^ m := by
  have hnb : 0 < createBuckets bucketsFor capacity bucketSize ∧
      createBuckets bucketsFor capacity bucketSize < 2 ^ 33 := by
    have hlt := hbuckets capacity hcap (createBucketSize bucketSize)
    unfold createBuckets
    omega
  obtain ⟨k, hk, hle⟩ := arCap_pow hnb.1 (by omega)
  obtain ⟨k', hk'⟩ := hsel capacity (createBucketSize bucketSize) i
  have hk33 : k < 33 := (Nat.pow_lt_pow_iff_right (by decide)).mp (hle.trans_lt hnb.2)
  have hsize : ∃ m, 1 ≤ m ∧
      computeArSizes rangeSelection capacity (createBucketSize bucketSize) i = 2 ^ m := by
    unfold computeArSizes
    rw [hk']
    split
    · exact ⟨1, le_rfl, rfl⟩
    · rename_i h2
      refine ⟨k', Nat.pos_of_ne_zero fun h0 => h2 ?_, rfl⟩
      rw [h0]
      decide
  obtain ⟨m, hm, hsize⟩ := hsize
  unfold createAr
  rw [hk, hsize]
  rcases Nat.le_total m k with hmk | hmk
  · have hp : 2 ^ m ≤ 2 ^ k := Nat.pow_le_pow_right (by decide) hmk
    have h1 : 2 ^ 1 ≤ 2 ^ m := Nat.pow_le_pow_right (by decide) hm
    exact ⟨m, hm, by omega, by rw [min_eq_left hp]; exact max_eq_left h1⟩
  · have hp : 2 ^ k ≤ 2 ^ m := Nat.pow_le_pow_right (by decide) hmk
    rw [min_eq_right hp]
    rcases Nat.eq_zero_or_pos k with rfl | hpos
    · exact ⟨1, le_rfl, by decide, rfl⟩
    · have h1 : 2 ^ 1 ≤ 2 ^ k := Nat.pow_le_pow_right (by decide) hpos
      exact ⟨k, hpos, by omega, max_eq_left h1⟩

/-! ## A chunk that is cut off -/

/-- Numbers with the same highest bit. -/
lemma xor_lt_of_top {x y : ℕ} (hx : 2 ^ m ≤ x) (hx' : x < 2 ^ (m + 1)) (hy : 2 ^ m ≤ y)
    (hy' : y < 2 ^ (m + 1)) : x ^^^ y < 2 ^ m := by
  refine Nat.lt_pow_two_of_testBit _ fun i hi => ?_
  rw [Nat.testBit_xor]
  rcases Nat.eq_or_lt_of_le hi with rfl | hlt
  · rw [Nat.testBit_of_two_pow_le_and_two_pow_add_one_gt hx hx',
      Nat.testBit_of_two_pow_le_and_two_pow_add_one_gt hy hy', Bool.xor_self]
  · have hp : 2 ^ (m + 1) ≤ 2 ^ i := Nat.pow_le_pow_right (by decide) hlt
    rw [Nat.testBit_lt_two_pow (hx'.trans_le hp), Nat.testBit_lt_two_pow (hy'.trans_le hp),
      Bool.xor_self]

/-- For every range there is a fingerprint that leads across its middle. -/
lemma exists_far (hm : m < 32) {i : ℕ} (hi : i < 4) :
    ∃ fp < 64, fp % 4 = i ∧ 2 ^ m ≤ altDelta (2 ^ (m + 1)) fp := by
  have hall : ∀ m < 32, ∀ i < 4, ∃ fp < 64, fp % 4 = i ∧ 2 ^ m ≤ altDelta (2 ^ (m + 1)) fp := by
    decide +kernel
  exact hall m hm i hi

/-- Where the last chunk is cut off, some bucket has its alternate bucket behind the table. -/
lemma exists_outside {i : ℕ} (hi : i < 4) (hm : m < 32) (har : ar i = 2 ^ (m + 1))
    (hdvd : ¬ 2 ^ (m + 1) ∣ nb) : ∃ b < nb, ∃ fp < 2 ^ 32, nb ≤ vacuumAltIndex ar b fp := by
  obtain ⟨fp, hfp, hmod, hfar⟩ := exists_far hm hi
  have hpos := Nat.two_pow_pos (m + 1)
  have hnear := altDelta_lt (l := 2 ^ (m + 1)) (by have := Nat.two_pow_pos m; omega) fp
  have hr := Nat.mod_lt nb hpos
  have hr0 : 0 < nb % 2 ^ (m + 1) := Nat.pos_of_ne_zero fun h0 => hdvd (Nat.dvd_of_mod_eq_zero h0)
  have hsplit := Nat.div_add_mod' nb (2 ^ (m + 1))
  have hat : ∀ r < 2 ^ (m + 1), vacuumAltIndex ar (nb / 2 ^ (m + 1) * 2 ^ (m + 1) + r) fp =
      nb / 2 ^ (m + 1) * 2 ^ (m + 1) + (r ^^^ altDelta (2 ^ (m + 1)) fp) :=
    fun r hr => vacuumAltIndex_chunk (Nat.succ_le_succ (Nat.zero_le m)) (hmod ▸ har) hr
  by_cases hhalf : nb % 2 ^ (m + 1) < 2 ^ m
  · -- the first bucket of the chunk
    refine ⟨nb / 2 ^ (m + 1) * 2 ^ (m + 1) + 0, by omega, fp, by omega, ?_⟩
    rw [hat 0 hpos, Nat.zero_xor]
    omega
  · -- the bucket that would lead to the first one that is missing
    have hlt := xor_lt_of_top (Nat.le_of_not_lt hhalf) hr hfar hnear
    have hback : nb % 2 ^ (m + 1) ^^^ altDelta (2 ^ (m + 1)) fp ^^^ altDelta (2 ^ (m + 1)) fp =
        nb % 2 ^ (m + 1) := by rw [Nat.xor_assoc, Nat.xor_self, Nat.xor_zero]
    refine ⟨nb / 2 ^ (m + 1) * 2 ^ (m + 1) +
      (nb % 2 ^ (m + 1) ^^^ altDelta (2 ^ (m + 1)) fp), by omega, fp, by omega, ?_⟩
    rw [hat _ (by omega), hback, hsplit]

/-! ## The alternate index -/

/-- The largest range is one of the four, and the others divide it. -/
lemma createLargestAr_spec (hsel : ∀ c b i, ∃ k, rangeSelection c b i = 2 ^ k)
    (hbuckets : ∀ c < 2 ^ 32, ∀ b, bucketsFor c b < 2 ^ 33) (hcap : capacity < 2 ^ 32) :
    (∃ i < 4, createLargestAr rangeSelection bucketsFor capacity bucketSize =
      createAr rangeSelection bucketsFor capacity bucketSize i) ∧
    ∀ i < 4, createAr rangeSelection bucketsFor capacity bucketSize i ∣
      createLargestAr rangeSelection bucketsFor capacity bucketSize := by
  have hmem : ∃ i < 4, createLargestAr rangeSelection bucketsFor capacity bucketSize =
      createAr rangeSelection bucketsFor capacity bucketSize i := by
    unfold createLargestAr
    dsimp only
    generalize createAr rangeSelection bucketsFor capacity bucketSize = ar
    rcases max_choice (max (ar 0) (ar 1)) (max (ar 2) (ar 3)) with h | h
    · rw [h]
      rcases max_choice (ar 0) (ar 1) with h | h
      · exact ⟨0, by decide, h⟩
      · exact ⟨1, by decide, h⟩
    · rw [h]
      rcases max_choice (ar 2) (ar 3) with h | h
      · exact ⟨2, by decide, h⟩
      · exact ⟨3, by decide, h⟩
  refine ⟨hmem, fun i hi => ?_⟩
  have hle : createAr rangeSelection bucketsFor capacity bucketSize i ≤
      createLargestAr rangeSelection bucketsFor capacity bucketSize := by
    unfold createLargestAr
    dsimp only
    interval_cases i <;> omega
  obtain ⟨i', -, hl⟩ := hmem
  obtain ⟨m, -, -, hm⟩ := (@createAr_pow _ _ _ bucketSize) hsel hbuckets hcap i
  obtain ⟨m', -, -, hm'⟩ := (@createAr_pow _ _ _ bucketSize) hsel hbuckets hcap i'
  rw [hl, hm, hm'] at hle
  rw [hl, hm, hm']
  exact Nat.pow_dvd_pow 2 ((Nat.pow_le_pow_iff_right (by decide)).mp hle)

/-- The alternate index is right exactly when the ranges divide the number of buckets. -/
lemma altRight_iff (hsel : ∀ c b i, ∃ k, rangeSelection c b i = 2 ^ k)
    (hbuckets : ∀ c < 2 ^ 32, ∀ b, bucketsFor c b < 2 ^ 33) (hcap : capacity < 2 ^ 32)
    (har : vf.ar = createAr rangeSelection bucketsFor capacity bucketSize) :
    AltRight vf ↔
      createLargestAr rangeSelection bucketsFor capacity bucketSize ∣ vf.numBuckets := by
  obtain ⟨⟨i, hi, hl⟩, hall⟩ := (@createLargestAr_spec _ _ _ bucketSize) hsel hbuckets hcap
  constructor
  · intro h
    by_contra hdvd
    obtain ⟨m, hm, hm32, hpow⟩ := (@createAr_pow _ _ _ bucketSize) hsel hbuckets hcap i
    obtain ⟨m, rfl⟩ := Nat.exists_eq_succ_of_ne_zero (by omega : m ≠ 0)
    rw [hl, hpow] at hdvd
    obtain ⟨b, hb, fp, hfp, hout⟩ := exists_outside hi (by omega) ((congrFun har i).trans hpow) hdvd
    exact absurd (h b hb fp hfp).1 (Nat.not_lt.mpr hout)
  · intro hdvd b hb fp _
    refine vacuum_alt (fun j hj => ?_) hb fp
    obtain ⟨m, hm, -, hpow⟩ := (@createAr_pow _ _ _ bucketSize) hsel hbuckets hcap j
    rw [har]
    exact ⟨m, hm, hpow, (hall j hj).trans hdvd⟩

/-- For every filter that `vacuum_filter_create` returns, with any powers of two for the outcomes of
`range_selection`: the alternate index is an involution without fixed points that stays in the
table, for every bucket and fingerprint, exactly when the number of buckets, rounded up to a
multiple of the largest range and then halved until it fits, is still a multiple of it. -/
theorem vacuum_alt_iff (rangeSelection : ℕ → ℕ → ℕ → ℕ) (bucketsFor : ℕ → ℕ → ℕ)
    (hsel : ∀ c b i, ∃ k, rangeSelection c b i = 2 ^ k)
    (hbuckets : ∀ c < 2 ^ 32, ∀ b, bucketsFor c b < 2 ^ 33)
    (capacity bucketSize fpBits maxEvicts : ℕ) (vf : VacuumFilter)
    (hc : vacuumFilterCreate rangeSelection bucketsFor capacity bucketSize fpBits maxEvicts =
      some vf) :
    AltRight vf ↔
      ∀ k, Halvings bucketSize (createRounded rangeSelection bucketsFor capacity bucketSize) k →
      createLargestAr rangeSelection bucketsFor capacity bucketSize ∣
        createRounded rangeSelection bucketsFor capacity bucketSize / 2 ^ k := by
  obtain ⟨har, hcap, k, hk, hnb⟩ := vacuum_create_ranges hc
  rw [altRight_iff hsel hbuckets hcap har, hnb]
  refine ⟨fun h k' hk' => ?_, fun h => h k hk⟩
  rw [hk'.unique hk]
  exact h

/-- Four buckets of one entry. -/
theorem vacuum_alt_four : ∃ vf,
    vacuumFilterCreate (fun _ _ _ => 1) (fun _ _ => 4) 3 1 8 2 = some vf ∧ AltRight vf := by
  refine ⟨_, rfl, (vacuum_alt_iff (fun _ _ _ => 1) (fun _ _ => 4) (fun _ _ _ => ⟨0, rfl⟩)
    (fun _ _ _ => by decide) 3 1 8 2 _ rfl).mpr fun k hk => ?_⟩
  have hzero : Halvings 1 (createRounded (fun _ _ _ => 1) (fun _ _ => 4) 3 1) 0 :=
    ⟨fun i hi => absurd hi (Nat.not_lt_zero i), by unfold TooMany; decide⟩
  rw [hk.unique hzero]
  decide

/-- The outcomes of `range_selection` for 4294967295 items in buckets of four. -/
def wideRanges (_ _ i : ℕ) : ℕ := [32768, 256, 64, 16].getD i 1

/-- The number of buckets is rounded to 1130266624 = 34493 * 32768 and halved once: a fingerprint of
the largest range leads from a bucket of the last half chunk behind the table. -/
theorem vacuum_alt_fails : ∃ vf,
    vacuumFilterCreate wideRanges (fun _ _ => 1130254552) 4294967295 4 10 200 = some vf ∧
    ¬ AltRight vf := by
  have hval : (vacuumFilterCreate wideRanges (fun _ _ => 1130254552) 4294967295 4 10 200).map
      (fun vf => (vf.numBuckets, decide (vf.numBuckets ≤ vacuumAltIndex vf.ar 565116928 4))) =
      some (565133312, true) := by decide +kernel
  obtain ⟨vf, hc, heq⟩ := Option.map_eq_some_iff.mp hval
  simp only [Prod.mk.injEq, decide_eq_true_eq] at heq
  refine ⟨vf, hc, fun h => ?_⟩
  exact absurd (h 565116928 (by rw [heq.1]; decide) 4 (by decide)).1 (Nat.not_lt.mpr heq.2)

end Draugr.Amq
