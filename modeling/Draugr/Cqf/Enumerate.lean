import Draugr.Cqf.Delete
import Mathlib.Data.List.Sort

/-!
# The enumeration of a filter

`enumerate_pairs` decodes the runs of the occupied quotients one after the other and gives each
fingerprint, the quotient shifted left by the remainder bits with the remainder behind it, with its
count. A fingerprint of a filter with `2 ^ k` slots has `k` and the remainder bits (`Sized`), and
splits into its quotient and its remainder again.

On a filter that holds the counts `c` the pairs come in strictly increasing order of the
fingerprints, and a fingerprint is among them exactly when its count is positive, with this count.
-/

namespace Draugr.Cqf
open Draugr.Lib Draugr.Qf CqfFilter Bag

variable {c : ℕ → List (ℕ × ℕ)} {cf cf₀ : CqfFilter} {k q rem n rbits : ℕ} {fp : UInt64}
  {pairs : List (UInt64 × ℕ)}

/-! ## Fingerprints -/

/-- The fingerprint of a quotient and a remainder. -/
def fingerprintOf (rbits q rem : ℕ) : UInt64 := UInt64.ofNat (q <<< rbits ||| rem)

/-- The filter has `2 ^ k` slots, and its fingerprints fit 64 bits. -/
structure Sized (cf : CqfFilter) (k : ℕ) : Prop where
  numSlots : cf.numSlots = 2 ^ k
  bits : k + cf.remainderBits ≤ 64

/-- The number of a fingerprint. -/
lemma fingerprintOf_toNat (hq : q < 2 ^ k) (hrem : rem < 2 ^ rbits) (h : k + rbits ≤ 64) :
    (fingerprintOf rbits q rem).toNat = q * 2 ^ rbits + rem := by
  have hlt : q * 2 ^ rbits + rem < 2 ^ (k + rbits) := by
    have := Nat.mul_le_mul_right (2 ^ rbits) (Nat.succ_le_of_lt hq)
    rw [Nat.succ_mul, ← Nat.pow_add] at this
    omega
  rw [fingerprintOf, ← Nat.shiftLeft_add_eq_or_of_lt hrem, Nat.shiftLeft_eq]
  exact UInt64.toNat_ofNat_of_lt' (hlt.trans_le (Nat.pow_le_pow_right Nat.two_pos h))

/-- The remainder is the low bits of the fingerprint. -/
lemma remainder_eq (cf : CqfFilter) (fp : UInt64) :
    cf.remainder fp = fp.toNat % 2 ^ cf.remainderBits := by
  rw [remainder, Nat.and_two_pow_sub_one_eq_mod]

/-- The quotient is the bits above the remainder. -/
lemma Sized.quotient_eq (h : Sized cf k) (fp : UInt64) :
    cf.quotient fp = fp.toNat / 2 ^ cf.remainderBits % 2 ^ k := by
  rw [quotient, h.numSlots, Nat.and_two_pow_sub_one_eq_mod, Nat.shiftRight_eq_div_pow]

/-- A fingerprint splits into its quotient and its remainder. -/
lemma Sized.split (h : Sized cf k) (hq : q < cf.numSlots) (hrem : rem < 2 ^ cf.remainderBits) :
    cf.quotient (fingerprintOf cf.remainderBits q rem) = q ∧
      cf.remainder (fingerprintOf cf.remainderBits q rem) = rem := by
  rw [h.numSlots] at hq
  rw [h.quotient_eq, remainder_eq, fingerprintOf_toNat hq hrem h.bits, Nat.mul_comm,
    Nat.mul_add_div (Nat.two_pow_pos _),
    Nat.div_eq_of_lt hrem, Nat.add_zero, Nat.mod_eq_of_lt hq, Nat.mul_add_mod,
    Nat.mod_eq_of_lt hrem]
  exact ⟨rfl, rfl⟩

/-- A hash without further bits is the fingerprint of its parts. -/
lemma Sized.join (h : Sized cf k) (hfp : fp.toNat < cf.numSlots * 2 ^ cf.remainderBits) :
    fingerprintOf cf.remainderBits (cf.quotient fp) (cf.remainder fp) = fp := by
  refine UInt64.toNat_inj.mp ?_
  rw [h.numSlots] at hfp
  have hq : fp.toNat / 2 ^ cf.remainderBits < 2 ^ k :=
    Nat.div_lt_of_lt_mul (by rwa [Nat.mul_comm] at hfp)
  have hrem : fp.toNat % 2 ^ cf.remainderBits < 2 ^ cf.remainderBits :=
    Nat.mod_lt _ (Nat.two_pow_pos _)
  rw [h.quotient_eq, remainder_eq, Nat.mod_eq_of_lt hq, fingerprintOf_toNat hq hrem h.bits,
    Nat.mul_comm]
  exact Nat.div_add_mod ..

/-- Two fingerprints with the same parts are equal. -/
lemma Sized.same_iff (h : Sized cf k) {fp' : UInt64}
    (hfp : fp.toNat < cf.numSlots * 2 ^ cf.remainderBits)
    (hfp' : fp'.toNat < cf.numSlots * 2 ^ cf.remainderBits) : cf.same fp fp' = true ↔ fp' = fp := by
  rw [CqfFilter.same, decide_eq_true_iff]
  refine ⟨fun hs => ?_, fun he => by rw [he]; exact ⟨rfl, rfl⟩⟩
  rw [← h.join hfp, ← h.join hfp', hs.1, hs.2]

/-! ## The pairs -/

/-- The pairs of a run that can be read back. -/
lemma Rep.enumerateRun (h : Rep cf c) (hq : c q ≠ []) :
    cf.enumerateRun q = (c q).map fun p => (fingerprintOf cf.remainderBits q p.1, p.2) := by
  have hm := h.ne_nil_iff.mpr hq
  have hrend := h.holds.selectRun_rank hm
  have hlen := List.length_pos_iff.mpr hm
  unfold CqfFilter.enumerateRun
  dsimp only
  rw [h.holds.rstart_eq hm]
  have hscan : scanStart (start (layout cf.remainderBits c) q) (cf.selectRun (cf.rankOcc q)) =
      start (layout cf.remainderBits c) q := if_neg (by omega)
  rw [hscan, h.decodeRun hq hrend]
  rfl

/-- The enumeration of a filter with contents. -/
lemma Rep.enumerate (h : Rep cf c) : enumeratePairs cf =
    (List.range cf.numSlots).flatMap fun q => (c q).map fun p =>
      (fingerprintOf cf.remainderBits q p.1, p.2) := by
  refine List.flatMap_congr fun q _ => ?_
  by_cases hq : c q = []
  · rw [if_neg fun hocc => (h.holds.occ q).mp hocc ((runSlots_eq_nil _ _).mpr hq), hq]
    rfl
  · rw [if_pos ((h.holds.occ q).mpr (h.ne_nil_iff.mpr hq)), h.enumerateRun hq]

/-- The pairs come in strictly increasing order. -/
lemma Rep.enumerate_sorted (h : Rep cf c) (hs : Sized cf k) :
    (enumeratePairs cf).Pairwise fun p p' => p.1.toNat < p'.1.toNat := by
  have hval : ∀ q < cf.numSlots, ∀ p ∈ c q,
      (fingerprintOf cf.remainderBits q p.1).toNat = q * 2 ^ cf.remainderBits + p.1 ∧
      p.1 < 2 ^ cf.remainderBits := by
    intro q hq p hp
    have hlt := ((h.readable q).fits p hp).lt
    exact ⟨fingerprintOf_toNat (hs.numSlots ▸ hq) hlt hs.bits, hlt⟩
  rw [h.enumerate, List.pairwise_flatMap]
  constructor
  · intro q hq
    rw [List.pairwise_map]
    refine List.Pairwise.imp_of_mem ?_ (h.readable q).ordered
    intro p p' hp hp' hlt
    rw [(hval q (List.mem_range.mp hq) p hp).1, (hval q (List.mem_range.mp hq) p' hp').1]
    omega
  · refine List.Pairwise.imp_of_mem ?_ List.pairwise_lt_range
    intro q q' hq hq' hlt x hx y hy
    obtain ⟨p, hp, rfl⟩ := List.mem_map.mp hx
    obtain ⟨p', hp', rfl⟩ := List.mem_map.mp hy
    obtain ⟨h1, h2⟩ := hval q (List.mem_range.mp hq) p hp
    obtain ⟨h1', -⟩ := hval q' (List.mem_range.mp hq') p' hp'
    have := Nat.mul_le_mul_right (2 ^ cf.remainderBits) (Nat.succ_le_of_lt hlt)
    rw [Nat.succ_mul] at this
    dsimp only
    omega

/-- The pairs are the fingerprints that are there, with their counts. -/
lemma Rep.mem_enumerate (h : Rep cf c) (hs : Sized cf k) : (fp, n) ∈ enumeratePairs cf ↔
    0 < n ∧ fp.toNat < cf.numSlots * 2 ^ cf.remainderBits ∧
    mult (cf.remainder fp) (c (cf.quotient fp)) = n := by
  rw [h.enumerate, List.mem_flatMap]
  constructor
  · rintro ⟨q, hq, hmem⟩
    obtain ⟨⟨rem, C⟩, hp, he⟩ := List.mem_map.mp hmem
    cases he
    have hq := List.mem_range.mp hq
    have hf := (h.readable q).fits _ hp
    obtain ⟨h1, h2⟩ := hs.split hq hf.lt
    refine ⟨hf.pos, ?_, ?_⟩
    · rw [fingerprintOf_toNat (hs.numSlots ▸ hq) hf.lt hs.bits]
      have := Nat.mul_le_mul_right (2 ^ cf.remainderBits) (Nat.succ_le_of_lt hq)
      rw [Nat.succ_mul] at this
      have := hf.lt
      dsimp only at this
      omega
    · rw [h1, h2]
      exact ((mem_iff_mult (h.readable q).ordered fun p hp =>
        ((h.readable q).fits p hp).pos).mp hp).2
  · rintro ⟨hn, hfp, hm⟩
    refine ⟨cf.quotient fp, List.mem_range.mpr (h.holds.quotient_lt fp),
      List.mem_map.mpr ⟨(cf.remainder fp, n), ?_, ?_⟩⟩
    · exact (mem_iff_mult (h.readable _).ordered fun p hp => ((h.readable _).fits p hp).pos).mpr
        ⟨hn, hm⟩
    · exact Prod.ext (hs.join hfp) rfl

/-! ## Runs -/

/-- A created filter has fingerprints of 64 bits at most. -/
lemma sized_create {malloc : Bool} {capacity fpBits : ℕ}
    (hc : cqfFilterCreate malloc capacity fpBits = some (some cf)) :
    ∃ k, Sized cf k := by
  obtain ⟨hf, -, -, hbits⟩ := create_eq_some hc
  exact ⟨_, hf.numSlots, by rw [hf.remainderBits]; exact hbits⟩

/-- The size goes with the layout. -/
lemma Sized.alike (h : Sized cf₀ k) (ha : Alike cf₀ cf) : Sized cf k :=
  ⟨ha.numSlots.trans h.numSlots, by rw [ha.remainderBits]; exact h.bits⟩

/-- A run whose calls meet the conditions leaves a filter that holds what the calls left. -/
lemma accounted_run {malloc : Bool} {capacity fpBits : ℕ}
    (hc : cqfFilterCreate malloc capacity fpBits = some (some cf₀)) {ops : List (CountOp UInt64)}
    (hpresent : Always cqfStep (fun _ evs op => OfPresent cf₀ evs op) cf₀ [] ops)
    (hsound : Always cqfStep (Sound cf₀) cf₀ [] ops) :
    Accounted cf₀ (Lib.countRun cqfStep cf₀ ops).2 (Lib.countRun cqfStep cf₀ ops).1 := by
  obtain ⟨hf, -⟩ := create_eq_some hc
  have hstart : Accounted cf₀ cf₀ [] :=
    ⟨.refl cf₀, hf.rep, fun _ => rfl, congrArg (· + 0) hf.count, fun _ h => by cases h⟩
  exact Always.run (I := Accounted cf₀) (fun _ _ op h hop => h.call op hop.1 hop.2) ops cf₀
    [] hstart (hpresent.and hsound)

/-- The pairs of a filter that holds what some calls left. -/
lemma Accounted.mem_enumerate {evs : List (CountEvent UInt64)} (h : Accounted cf₀ cf evs)
    (hs : Sized cf₀ k) :
    (fp, n) ∈ enumeratePairs cf ↔ 0 < n ∧ fp.toNat < cf₀.numSlots * 2 ^ cf₀.remainderBits ∧
      n + removed (cf₀.same fp) evs = added (cf₀.same fp) evs := by
  rw [h.rep.mem_enumerate (hs.alike h.alike), h.alike.numSlots, h.alike.remainderBits,
    h.alike.quotient, h.alike.remainder]
  have := h.each fp
  refine and_congr_right fun _ => and_congr_right fun _ => ?_
  omega

/-- After every run that deletes fingerprints that are present only, `enumerate_pairs` gives every
fingerprint that was inserted more often than deleted once, with the difference as its count, in
increasing order, and nothing else; under the condition that no call leaves a run that cannot be
read back, and no deletion a hole in front of another run. -/
theorem enumerate_exact (malloc : Bool) (capacity fpBits : ℕ) (cf₀ : CqfFilter)
    (hc : cqfFilterCreate malloc capacity fpBits = some (some cf₀)) (ops : List (CountOp UInt64))
    (hpresent : Always cqfStep (fun _ evs op => OfPresent cf₀ evs op) cf₀ [] ops)
    (hsound : Always cqfStep (Sound cf₀) cf₀ [] ops) :
    let evs := (Lib.countRun cqfStep cf₀ ops).1
    let cf := (Lib.countRun cqfStep cf₀ ops).2
    (enumeratePairs cf).Pairwise (fun p p' => p.1.toNat < p'.1.toNat) ∧
      ∀ fp n, (fp, n) ∈ enumeratePairs cf ↔
      0 < n ∧ fp.toNat < cf₀.numSlots * 2 ^ cf₀.remainderBits ∧
        n + removed (cf₀.same fp) evs = added (cf₀.same fp) evs := by
  obtain ⟨k, hs⟩ := sized_create hc
  have hacc := accounted_run hc hpresent hsound
  exact ⟨hacc.rep.enumerate_sorted (hs.alike hacc.alike), fun fp n => hacc.mem_enumerate hs⟩

/-- Two fingerprints, one with two occurrences of which one is deleted. -/
theorem enumerate_exact_two :
    ∃ cf₀, cqfFilterCreate true 64 8 = some (some cf₀) ∧
      (259, 1) ∈ enumeratePairs
      (Lib.countRun cqfStep cf₀ [.insert 3, .insert 259, .insert 259, .delete 259]).2 := by
  exact ⟨_, rfl,
    ((enumerate_exact true 64 8 _ rfl [.insert 3, .insert 259, .insert 259, .delete 259]
    (by decide +kernel) (by decide +kernel)).2 259 1).mpr ⟨by decide, by decide, by decide +kernel⟩⟩

end Draugr.Cqf
