import Draugr.Cqf.Regrow

/-!
# The counts of a merged filter

A merged filter holds the fingerprints of both filters, also if it was doubled on the way. Its
counts are the sums of theirs up to two things. A query of a quotient without a run may read another
run (`strays`), and the runs of the merged filter are others. And a filter with more slots tells
hashes apart by more bits: those with one of these bits set agree with no fingerprint of the merged
filter (`agreeing_grown`).
-/

namespace Draugr.Cqf
open Draugr.Lib Draugr.Qf CqfFilter Bag

variable {rbits k n N q rem : ℕ} {hash : UInt64} {fps fps₁ fps₂ : List UInt64}
  {cf cf₁ cf₂ out : CqfFilter}

/-! ## What a query counts -/

/-- How many fingerprints agree with a hash in the bits of a filter of `n` slots. -/
def agreeing (rbits n : ℕ) (fps : List UInt64) (hash : UInt64) : ℕ :=
  fps.countP fun fp => decide (fp.toNat = hash.toNat % (n * 2 ^ rbits))

/-- What a query of a hash reads in the run of another quotient, in a filter of `n` slots with the
fingerprints `fps`. -/
def strays (rbits n : ℕ) (fps : List UInt64) (hash : UInt64) : ℕ :=
  strayCount rbits n (bagOf rbits fps) (hash.toNat / 2 ^ rbits % n) (hash.toNat % 2 ^ rbits)

/-- The fingerprints of two lists that agree with a hash. -/
lemma agreeing_append : agreeing rbits n (fps₁ ++ fps₂) hash =
    agreeing rbits n fps₁ hash + agreeing rbits n fps₂ hash := List.countP_append

/-- No query reads anything in an empty filter. -/
lemma strays_nil (rbits n : ℕ) (hash : UInt64) : strays rbits n [] hash = 0 := by
  have hbefore : ∀ k search, runBefore n (bagOf rbits []) k search = [] := by
    intro k
    induction k with
    | zero => exact fun _ => rfl
    | succ k ih =>
      intro search
      rw [runBefore]
      exact (if_pos rfl).trans (ih _)
  rw [strays, strayCount, hbefore]
  exact ite_self 0

/-- The count of a remainder in the run of a quotient is that of the fingerprints that agree. -/
lemma mult_eq_agreeing (rbits n : ℕ) (fps : List UInt64) (hash : UInt64) :
    mult (hash.toNat % 2 ^ rbits) (bagOf rbits fps (hash.toNat / 2 ^ rbits % n)) =
      agreeing rbits n fps hash := by
  rw [mult_bagOf]
  refine List.countP_congr fun fp _ => ?_
  rw [decide_eq_true_iff, decide_eq_true_iff, Nat.mul_comm n, Nat.mod_mul]
  constructor
  · rintro ⟨hq, hrem⟩
    rw [← hq, ← hrem, Nat.mod_add_div]
  · intro he
    rw [he, Nat.add_mul_div_left _ _ (Nat.two_pow_pos _),
      Nat.div_eq_of_lt (Nat.mod_lt _ (Nat.two_pow_pos _)), Nat.zero_add, Nat.add_mul_mod_self_left,
      Nat.mod_mod]
    exact ⟨rfl, rfl⟩

/-- In a filter with more slots a hash agrees with fingerprints of fewer bits only if its quotient
has no more bits. -/
lemma agreeing_grown (hfps : ∀ fp ∈ fps, fp.toNat < n * 2 ^ rbits) (hdvd : n ∣ N) :
    agreeing rbits N fps hash =
      if hash.toNat / 2 ^ rbits % N < n then agreeing rbits n fps hash else 0 := by
  unfold agreeing
  rw [Nat.mul_comm N, Nat.mul_comm n, Nat.mod_mul, Nat.mod_mul]
  split_ifs with hlt
  · rw [← Nat.mod_mod_of_dvd (hash.toNat / 2 ^ rbits) hdvd, Nat.mod_eq_of_lt hlt]
  · rw [List.countP_eq_zero]
    intro fp hfp he
    have hle := Nat.mul_le_mul_left (2 ^ rbits) (not_lt.mp hlt)
    have hbits := hfps fp hfp
    rw [of_decide_eq_true he, Nat.mul_comm n] at hbits
    omega

/-- The count of a hash in a filter that holds some fingerprints. -/
lemma Rep.count_strays (h : Rep cf (bagOf cf.remainderBits fps)) (hs : Sized cf k)
    (hash : UInt64) : cqfFilterCountOccurrences cf hash =
      agreeing cf.remainderBits cf.numSlots fps hash +
        strays cf.remainderBits cf.numSlots fps hash := by
  rw [h.count_eq hash, hs.quotient_eq, remainder_eq, ← hs.numSlots, mult_eq_agreeing]
  rfl

/-- When the counts of a filter that holds the fingerprints of two others are the sums of theirs. -/
lemma Filled.count_add_iff (h : Filled out k rbits (fps₁ ++ fps₂)) (hdvd : n ∣ out.numSlots)
    (hfps : ∀ fp ∈ fps₁ ++ fps₂, fp.toNat < n * 2 ^ rbits) (hash : UInt64) :
    cqfFilterCountOccurrences out hash =
      agreeing rbits n fps₁ hash + strays rbits n fps₁ hash +
        (agreeing rbits n fps₂ hash + strays rbits n fps₂ hash) ↔
    strays rbits out.numSlots (fps₁ ++ fps₂) hash =
      strays rbits n fps₁ hash + strays rbits n fps₂ hash +
        if hash.toNat / 2 ^ rbits % out.numSlots < n then 0
        else agreeing rbits n (fps₁ ++ fps₂) hash := by
  have hrep := h.rep
  rw [← h.remainderBits] at hrep
  rw [hrep.count_strays h.sized, h.remainderBits, agreeing_grown hfps hdvd, agreeing_append]
  split_ifs <;> omega

/-! ## Merging -/

/-- The hash seed has nothing to do with the fingerprints. -/
lemma Filled.seeded (h : Filled cf k rbits fps) (seed : ℕ) : Filled (cf.seeded seed) k rbits fps :=
  ⟨h.numSlots, h.remainderBits, h.bits, h.rep.seeded seed, h.clean, h.below, h.fitting⟩

/-- Of two filters of one size that insertions built, `cqf_filter_merge` makes one where the count
of a hash is the sum of its two counts if and only if queries of it read as much in runs of other
quotients there as in the two filters together, and if the filter was doubled on the way and the
hash has one of the new bits, so much more as there are fingerprints that agree with it in the old
ones. The condition is that every run on the way can be read back. -/
theorem merge_adds_counts (h₁ : Built cf₁) (h₂ : Built cf₂) (hslots : cf₁.numSlots = cf₂.numSlots)
    (hbits : cf₁.remainderBits = cf₂.remainderBits) (hseed : cf₁.hashSeed = cf₂.hashSeed)
    (hgrow : Grows cf₁.remainderBits cf₁.numSlots []
      (occurrences (enumeratePairs cf₁) ++ occurrences (enumeratePairs cf₂)))
    (malloc : ℕ → Bool) :
    let r := cf₁.remainderBits
    let n := cf₁.numSlots
    let fps₁ := occurrences (enumeratePairs cf₁)
    let fps₂ := occurrences (enumeratePairs cf₂)
    let N := grownSlots r n [] (fps₁ ++ fps₂)
    ∃ o, cqfFilterMerge malloc cf₁ cf₂ = some o ∧ ∀ out, o = some out → ∀ hash,
      (cqfFilterCountOccurrences out hash =
        cqfFilterCountOccurrences cf₁ hash + cqfFilterCountOccurrences cf₂ hash ↔
      strays r N (fps₁ ++ fps₂) hash = strays r n fps₁ hash + strays r n fps₂ hash +
        if hash.toNat / 2 ^ r % N < n then 0 else agreeing r n (fps₁ ++ fps₂) hash) := by
  intro r n fps₁ fps₂ N
  obtain ⟨hrep₁, k, hs₁⟩ := h₁.rep
  obtain ⟨hrep₂, k₂, hs₂⟩ := h₂.rep
  have hcount₁ := hrep₁.count_strays hs₁
  have hcount₂ := hrep₂.count_strays hs₂
  rw [← hbits, ← hslots] at hcount₂
  have hnone : ∃ o, some (none : Option CqfFilter) = some o ∧ ∀ out, o = some out → ∀ hash,
      (cqfFilterCountOccurrences out hash =
        cqfFilterCountOccurrences cf₁ hash + cqfFilterCountOccurrences cf₂ hash ↔
      strays r N (fps₁ ++ fps₂) hash = strays r n fps₁ hash + strays r n fps₂ hash +
        if hash.toNat / 2 ^ r % N < n then 0 else agreeing r n (fps₁ ++ fps₂) hash) :=
    ⟨none, rfl, fun out h => by cases h⟩
  have hwidth := clampBits_width hrep₁.holds.width
  rw [cqfFilterMerge, if_neg (not_not.mpr hbits)]
  split
  · exact hnone
  rw [if_neg (not_not.mpr hseed), if_neg (not_not.mpr hslots)]
  dsimp only
  by_cases hnil : (enumeratePairs cf₁).length = 0 ∧ (enumeratePairs cf₂).length = 0
  · rw [if_pos hnil]
    obtain ⟨o, ho⟩ := create_returns (malloc 0) cf₁.remainderBits (show 64 ≤ 2 ^ 63 by norm_num)
    refine ⟨o, ho, fun out hout hash => ?_⟩
    rw [hout] at ho
    obtain ⟨hf, -, -, h64⟩ := create_eq_some ho
    have hempty : fps₁ = [] ∧ fps₂ = [] := by
      constructor
      · change occurrences (enumeratePairs cf₁) = []
        rw [List.length_eq_zero_iff.mp hnil.1]
        rfl
      · change occurrences (enumeratePairs cf₂) = []
        rw [List.length_eq_zero_iff.mp hnil.2]
        rfl
    have hfill := hf.filled h64
    have hzero := hfill.rep
    rw [← hfill.remainderBits] at hzero
    rw [hzero.count_strays hfill.sized, hcount₁, hcount₂]
    change _ + _ = agreeing r n fps₁ hash + strays r n fps₁ hash +
      (agreeing r n fps₂ hash + strays r n fps₂ hash) ↔ _
    rw [hempty.1, hempty.2, List.append_nil, strays_nil, strays_nil, strays_nil]
    refine iff_of_true rfl ?_
    split_ifs <;> rfl
  rw [if_neg hnil]
  split
  · exact hnone
  have hpow : cf₁.numSlots = 2 ^ k := hs₁.numSlots
  have h64 : 64 ≤ 2 ^ k := by
    have := hrep₁.holds.slots
    have := Nat.two_pow_pos k
    omega
  have hk : k ≤ 63 := by
    have := hs₁.bits
    have := hrep₁.holds.width.two_le
    omega
  obtain ⟨o, ho⟩ := create_returns (malloc 2) cf₁.remainderBits
    (hpow.trans_le (Nat.pow_le_pow_right Nat.two_pos hk))
  rw [ho, Option.bind_some]
  cases o with
  | none => exact hnone
  | some out₀ =>
    obtain ⟨hf, -, -, hb64⟩ := create_eq_some ho
    rw [hwidth, hpow, quotientBits_pow h64] at hf hb64
    rw [hpow] at hgrow
    obtain ⟨o, calls, hout, hall⟩ :=
      ((hf.filled hb64).seeded cf₁.hashSeed).replay_grows malloc 63 3 hgrow
    rw [List.nil_append] at hall
    dsimp only
    rw [occurrences_append]
    change ∃ o', ((replay (resizeLoop malloc 64) _ (out₀.seeded cf₁.hashSeed) 3).map Prod.fst) =
      some o' ∧ _
    rw [hout]
    refine ⟨o, rfl, fun out ho' hash => ?_⟩
    obtain ⟨⟨k', hfill⟩, hN, -⟩ := hall out ho'
    rw [← hpow] at hN
    have hbelow : ∀ fp ∈ fps₁ ++ fps₂, fp.toNat < n * 2 ^ r := by
      intro fp hfp
      rcases List.mem_append.mp hfp with hm | hm
      · exact hrep₁.lt_of_mem hs₁ hm
      · have := hrep₂.lt_of_mem hs₂ hm
        rwa [← hslots, ← hbits] at this
    have hiff := hfill.count_add_iff (hN ▸ dvd_grownSlots ..) hbelow hash
    rw [hN] at hiff
    rw [hcount₁, hcount₂]
    exact hiff

/-- Two filters of 64 slots that share the fingerprint `259` are merged. -/
theorem merge_adds_counts_shared : ∃ cf₁ cf₂ out, Built cf₁ ∧ Built cf₂ ∧
    enumeratePairs cf₁ = [(3, 1), (259, 2), (700, 1)] ∧ enumeratePairs cf₂ = [(259, 1), (2000, 1)] ∧
    cqfFilterMerge (fun _ => true) cf₁ cf₂ = some (some out) ∧
    cqfFilterCountOccurrences out 259 =
      cqfFilterCountOccurrences cf₁ 259 + cqfFilterCountOccurrences cf₂ 259 ∧
    cqfFilterCountOccurrences cf₁ 259 = 2 ∧ cqfFilterCountOccurrences cf₂ 259 = 1 := by
  obtain ⟨cf₀, hc⟩ : ∃ cf₀, cqfFilterCreate true 64 8 = some (some cf₀) := ⟨_, rfl⟩
  obtain ⟨cf₁, h₁⟩ : ∃ cf, (Lib.countRun cqfStep (cf₀.seeded 0)
    ([259, 3, 700, 259].map CountOp.insert)).2 = cf := ⟨_, rfl⟩
  obtain ⟨cf₂, h₂⟩ : ∃ cf, (Lib.countRun cqfStep (cf₀.seeded 0)
    ([2000, 259].map CountOp.insert)).2 = cf := ⟨_, rfl⟩
  have hb₁ : Built cf₁ := ⟨true, 64, 8, cf₀, 0, _, hc, by cases hc; decide +kernel, h₁⟩
  have hb₂ : Built cf₂ := ⟨true, 64, 8, cf₀, 0, _, hc, by cases hc; decide +kernel, h₂⟩
  have hpairs₁ : enumeratePairs cf₁ = [(3, 1), (259, 2), (700, 1)] ∧
      cqfFilterCountOccurrences cf₁ 259 = 2 := by
    cases hc
    subst h₁
    decide +kernel
  have hpairs₂ : enumeratePairs cf₂ = [(259, 1), (2000, 1)] ∧
      cqfFilterCountOccurrences cf₂ 259 = 1 := by
    cases hc
    subst h₂
    decide +kernel
  have hsize : cf₁.numSlots = 64 ∧ cf₁.remainderBits = 8 ∧ cf₁.hashSeed = 0 ∧
      cf₂.numSlots = 64 ∧ cf₂.remainderBits = 8 ∧ cf₂.hashSeed = 0 := by
    cases hc
    subst h₁ h₂
    decide +kernel
  have hsome : (cqfFilterMerge (fun _ => true) cf₁ cf₂).map Option.isSome = some true := by
    cases hc
    subst h₁ h₂
    decide +kernel
  obtain ⟨hn₁, hr₁, hs₁, hn₂, hr₂, hs₂⟩ := hsize
  obtain ⟨o, ho, hall⟩ := merge_adds_counts hb₁ hb₂ (hn₁.trans hn₂.symm) (hr₁.trans hr₂.symm)
    (hs₁.trans hs₂.symm) (by rw [hn₁, hr₁, hpairs₁.1, hpairs₂.1]; decide +kernel) fun _ => true
  rw [ho, Option.map_some, Option.some_inj] at hsome
  obtain ⟨out, rfl⟩ := Option.isSome_iff_exists.mp hsome
  refine ⟨cf₁, cf₂, out, hb₁, hb₂, hpairs₁.1, hpairs₂.1, ho, (hall out rfl 259).mpr ?_,
    hpairs₁.2, hpairs₂.2⟩
  rw [hn₁, hr₁, hpairs₁.1, hpairs₂.1]
  decide +kernel

/-- A query of the hash 3 reads the run of the fingerprint 259, which is not its own; it does so no
more when the filter is merged with one where the quotient of 3 has a run. -/
theorem merge_drops_stray : ∃ cf₁ cf₂, Built cf₁ ∧ Built cf₂ ∧
    enumeratePairs cf₁ = [(259, 1)] ∧ enumeratePairs cf₂ = [(5, 1)] ∧
    cf₁.numSlots = cf₂.numSlots ∧ cf₁.remainderBits = cf₂.remainderBits ∧
    cf₁.hashSeed = cf₂.hashSeed ∧
    cqfFilterCountOccurrences cf₁ 3 = 1 ∧ cqfFilterCountOccurrences cf₂ 3 = 0 ∧
    ((cqfFilterMerge (fun _ => true) cf₁ cf₂).bind id).map
      (fun out => cqfFilterCountOccurrences out 3) = some 0 := by
  obtain ⟨cf₀, hc⟩ : ∃ cf₀, cqfFilterCreate true 64 8 = some (some cf₀) := ⟨_, rfl⟩
  have hb : ∀ fp : UInt64,
      Always cqfStep (Sound (cf₀.seeded 0)) (cf₀.seeded 0) [] ([fp].map CountOp.insert) →
      Built (Lib.countRun cqfStep (cf₀.seeded 0) ([fp].map CountOp.insert)).2 :=
    fun fp h => ⟨true, 64, 8, cf₀, 0, [fp], hc, h, rfl⟩
  refine ⟨_, _, hb 259 ?_, hb 5 ?_, ?_, ?_, ?_, ?_, ?_, ?_, ?_, ?_⟩
  all_goals
    cases hc
    decide +kernel

end Draugr.Cqf
