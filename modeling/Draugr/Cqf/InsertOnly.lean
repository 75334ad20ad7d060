import Draugr.Cqf.Insert

/-!
# Filters that are only inserted into

`cqf_filter_create` gives an empty filter whose number of slots is the least power of two from 64 on
that reaches the capacity (`create_eq_some`). A filter that is only inserted into is packed and
clean after every call, which gives what `cqf_filter_validate` checks and the shape of the three bit
vectors (`insert_only_invariant`).
-/

namespace Draugr.Cqf
open Draugr.Lib Draugr.Qf CqfFilter

variable {capacity fpBits n k : ℕ} {malloc : Bool} {cf : CqfFilter} {m : ℕ → List ℕ}

/-! ## Creation -/

/-- The loop of `cqf_filter_create` finds the least power of two that reaches the capacity. -/
lemma doubleTo_eq (hc : capacity ≤ 2 ^ 63) : ∀ {n k : ℕ}, k + n = 64 → k ≤ Nat.clog 2 capacity →
    doubleTo capacity n (2 ^ k) = some (2 ^ Nat.clog 2 capacity)
  | 0, k, hn, hk => by
    have := Nat.clog_le_of_le_pow (b := 2) hc
    omega
  | n + 1, k, hn, hk => by
    rw [doubleTo]
    split_ifs with hlt
    · have hk' : k < Nat.clog 2 capacity := (Nat.lt_clog_iff_pow_lt Nat.one_lt_two).mpr hlt
      have := Nat.clog_le_of_le_pow (b := 2) hc
      have hsmall : 2 ^ (k + 1) < 2 ^ 64 := Nat.pow_lt_pow_right Nat.one_lt_two (by omega)
      rw [← pow_succ, Nat.mod_eq_of_lt hsmall]
      exact doubleTo_eq hc (by omega) hk'
    · have : k = Nat.clog 2 capacity := by
        by_contra hne
        exact hlt (Nat.pow_lt_of_lt_clog (by omega))
      rw [this]

/-- Beyond the greatest power of two in 64 bits it does not end. -/
lemma doubleTo_eq_none (hc : 2 ^ 63 < capacity) :
    ∀ {n k : ℕ}, k + n = 64 → k ≤ 63 → doubleTo capacity n (2 ^ k) = none
  | 0, k, hn, hk => by omega
  | n + 1, k, hn, hk => by
    have hle : 2 ^ k ≤ 2 ^ 63 := Nat.pow_le_pow_right Nat.two_pos hk
    rw [doubleTo, if_pos (by omega)]
    by_cases hk' : k = 63
    · obtain rfl : n = 0 := by omega
      rw [hk', show 2 ^ 63 * 2 % 2 ^ 64 = 0 from rfl, doubleTo, if_pos (by omega)]
    · have hsmall : 2 ^ (k + 1) < 2 ^ 64 := Nat.pow_lt_pow_right Nat.one_lt_two (by omega)
      rw [← pow_succ, Nat.mod_eq_of_lt hsmall]
      exact doubleTo_eq_none hc (by omega) (by omega)

/-- The bits of a quotient in a filter for a capacity. -/
def quotientBits (capacity : ℕ) : ℕ := max 6 (Nat.clog 2 capacity)

/-- A number of slots is the capacity of its own bits. -/
lemma quotientBits_pow {k : ℕ} (h : 64 ≤ 2 ^ k) : quotientBits (2 ^ k) = k := by
  rw [quotientBits, Nat.clog_pow 2 _ Nat.one_lt_two]
  exact max_eq_right ((Nat.pow_le_pow_iff_right Nat.one_lt_two).mp (show 2 ^ 6 ≤ 2 ^ k from h))

/-- The clamped width is one that the filter can have. -/
lemma width_clampBits (fpBits : ℕ) : Width (clampBits fpBits) := by
  constructor <;> unfold clampBits <;> dsimp only <;> split_ifs <;> omega

/-- A filter without data. -/
structure Fresh (cf : CqfFilter) (k rbits : ℕ) : Prop where
  numSlots : cf.numSlots = 2 ^ k
  remainderBits : cf.remainderBits = rbits
  hashSeed : cf.hashSeed = 0
  count : cf.count = 0
  holds : Holds cf fun _ => []
  clean : CqfFilter.Clean cf fun _ => []

/-- What `cqf_filter_create` gives. -/
lemma create_eq (malloc : Bool) (fpBits : ℕ) (h0 : capacity ≠ 0) (hc : capacity ≤ 2 ^ 63) :
    ∃ out, cqfFilterCreate malloc capacity fpBits = some out ∧
      (out = none ↔ 64 < quotientBits capacity + clampBits fpBits ∨ malloc = false) ∧
      ∀ cf, out = some cf → Fresh cf (quotientBits capacity) (clampBits fpBits) := by
  have hpow : (if 2 ^ Nat.clog 2 capacity < 64 then 64 else 2 ^ Nat.clog 2 capacity) =
      2 ^ quotientBits capacity := by
    unfold quotientBits
    by_cases h6 : Nat.clog 2 capacity < 6
    · rw [if_pos (Nat.pow_lt_pow_right (n := 6) Nat.one_lt_two h6), max_eq_left h6.le]
      rfl
    · rw [if_neg (not_lt.mpr (Nat.pow_le_pow_right (i := 6) Nat.two_pos (not_lt.mp h6))),
        max_eq_right (not_lt.mp h6)]
  have h64 : 64 * (2 ^ quotientBits capacity / 64) = 2 ^ quotientBits capacity :=
    Nat.mul_div_cancel' (pow_dvd_pow 2 (le_max_left 6 _))
  have h63 : quotientBits capacity ≤ 63 := max_le (by norm_num) (Nat.clog_le_of_le_pow hc)
  unfold cqfFilterCreate
  rw [if_neg h0, ← pow_zero 2, doubleTo_eq hc rfl (Nat.zero_le _)]
  simp only [Option.map_some, hpow, Nat.log_pow Nat.one_lt_two]
  refine ⟨_, rfl, ?_, fun cf hcf => ?_⟩
  · split_ifs with h1 h2
    · exact iff_of_true rfl (.inl h1)
    · rw [h2]
      exact iff_of_false nofun (by rintro (h | h); exacts [h1 h, nomatch h])
    · exact iff_of_true rfl (.inr (Bool.eq_false_iff.mpr h2))
  · split_ifs at hcf with h1 h2
    cases hcf
    have hstart : ∀ n, start (fun _ : ℕ => ([] : List ℕ)) n = 0 := fun n => Finset.sum_const_zero
    refine ⟨rfl, rfl, rfl, rfl,
      ⟨⟨h64.symm, ⟨_, h63, rfl⟩, width_clampBits _, fun p => Nat.two_pow_pos _,
      fun q hq => absurd rfl hq, fun q => iff_of_false nofun (not_not.mpr rfl), fun q i hi => ?_,
      fun q i hi => ?_, fun p hp => ?_, fun p hp => rfl, ?_⟩, fun b hb => (cnt_false _).symm,
        fun b hb => (cnt_false _).symm⟩,
      fun p hp => rfl⟩
    · cases hi
    · cases hi
    · rw [hstart] at hp
      cases hp
    · rw [hstart]
      exact Nat.zero_le _

/-- `cqf_filter_create` does not return for a capacity that no power of two in 64 bits reaches. -/
lemma create_eq_none (hc : 2 ^ 63 < capacity) : cqfFilterCreate malloc capacity fpBits = none := by
  have hnone : doubleTo capacity 64 1 = none :=
    doubleTo_eq_none hc (k := 0) rfl (by norm_num)
  rw [cqfFilterCreate, if_neg (by omega)]
  simp only [hnone, Option.map_none]

/-- It returns for every other capacity. -/
lemma create_returns (malloc : Bool) (fpBits : ℕ) (hc : capacity ≤ 2 ^ 63) :
    ∃ out, cqfFilterCreate malloc capacity fpBits = some out := by
  by_cases h0 : capacity = 0
  · exact ⟨none, by rw [cqfFilterCreate, if_pos h0]⟩
  · obtain ⟨out, he, -⟩ := create_eq malloc fpBits h0 hc
    exact ⟨out, he⟩

/-- What is known of a filter that was created. -/
lemma create_eq_some (h : cqfFilterCreate malloc capacity fpBits = some (some cf)) :
    Fresh cf (quotientBits capacity) (clampBits fpBits) ∧ 0 < capacity ∧ capacity ≤ 2 ^ 63 ∧
      quotientBits capacity + clampBits fpBits ≤ 64 := by
  by_cases h0 : capacity = 0
  · rw [cqfFilterCreate, if_pos h0] at h
    cases h
  by_cases hc : capacity ≤ 2 ^ 63
  · obtain ⟨out, heq, hnone, hsome⟩ := create_eq malloc fpBits h0 hc
    rw [heq] at h
    obtain rfl := Option.some.inj h
    refine ⟨hsome cf rfl, by omega, hc, ?_⟩
    by_contra hlt
    exact absurd (hnone.mpr (.inl (not_le.mp hlt))) nofun
  · rw [create_eq_none (not_le.mp hc)] at h
    cases h

/-! ## Insertions only -/

/-- The calls of `cqf_filter_insert` for some hashes. -/
def inserts (cf : CqfFilter) (hashes : List UInt64) : CqfFilter :=
  hashes.foldl (fun cf hash => (cqfFilterInsert cf hash).2) cf

/-- A filter that holds some runs and has no data behind them. -/
def Tidy (cf : CqfFilter) : Prop := ∃ m, Holds cf m ∧ CqfFilter.Clean cf m

/-- One insertion keeps a filter tidy, and one that fails changes nothing. -/
lemma Tidy.insert (h : Tidy cf) (hash : UInt64) :
    Tidy (cqfFilterInsert cf hash).2 ∧
      ((cqfFilterInsert cf hash).1 ≠ .ok → (cqfFilterInsert cf hash).2 = cf) := by
  obtain ⟨m, hm, hclean⟩ := h
  rcases hm.insert_cases hash with ⟨e, -, he⟩ | ⟨cf', l, he, hg⟩
  · rw [he]
    exact ⟨⟨m, hm, hclean⟩, fun _ => rfl⟩
  · rw [he]
    exact ⟨⟨_, hg.holds, hg.clean hclean⟩, fun hne => absurd rfl hne⟩

/-- Insertions keep a filter tidy. -/
lemma Tidy.inserts (h : Tidy cf) (hashes : List UInt64) : Tidy (inserts cf hashes) := by
  induction hashes generalizing cf with
  | nil => exact h
  | cons hash hashes ih => exact ih (h.insert hash).1

/-- The sum over the words of a bit vector. -/
lemma sum_popcount (bv : Bits) (n : ℕ) :
    ((List.range n).map fun b => popcount (word bv b)).sum = cnt bv (64 * n) := by
  induction n with
  | zero => rfl
  | succ n ih =>
    rw [List.range_succ, List.map_append, List.sum_append, ih, List.map_singleton,
      List.sum_singleton, popcount, cnt_add_word]
    rfl

namespace CqfFilter

/-- There are as many occupied quotients as run ends. -/
lemma Packed.cnt_occ_eq (h : Packed cf m) : cnt cf.occ cf.numSlots = cnt cf.run cf.numSlots := by
  rw [← h.cnt_run_start]
  exact (cnt_eq_of_clear h.room fun p hp _ => h.rest p hp).symm

/-- The slots with data are those up to the last run end. -/
lemma Packed.phys_iff (h : Packed cf m) (hclean : Clean cf m) {p : ℕ} :
    cf.phys p = true ↔ ∃ e < cf.numSlots, p ≤ e ∧ cf.run e = true := by
  have hroom := h.room
  constructor
  · intro hp
    have hlt : p < start m cf.numSlots := by
      by_contra hlt
      rw [hclean p (by omega)] at hp
      cases hp
    have hpos : 0 < cnt cf.occ cf.numSlots := by
      by_contra h0
      have := h.start_eq_zero (n := cf.numSlots) (by omega)
      omega
    obtain ⟨-, hsel⟩ := h.isSelect_before hpos
    exact ⟨start m cf.numSlots - 1, by omega, by omega, hsel.1⟩
  · rintro ⟨e, -, hpe, hrun⟩
    refine h.phys p ?_
    by_contra hlt
    rw [h.rest e (by omega)] at hrun
    cases hrun

/-- `cqf_filter_validate` accepts a filter that holds some runs. -/
lemma Holds.validate (h : Holds cf m) : cqfFilterValidate cf = true := by
  unfold cqfFilterValidate
  simp only [sum_popcount, ← h.slots]
  rw [if_neg (not_not.mpr h.cnt_occ_eq), List.all_eq_true]
  intro q hq
  cases hocc : cf.occ q with
  | false => rfl
  | true =>
    have hm := (h.occ q).mp hocc
    have h1 := h.selectRun_rank hm
    have h2 := start_add_le (m := m) (h.lt q hm)
    have h3 := h.room
    rw [Bool.not_true, Bool.false_or, decide_eq_true_iff]
    omega

end CqfFilter

/-- In every state that insertions reach from a new filter there are as many occupied quotients as
run ends, the slots with data are those from 0 up to the last run end, the prefix sums are the
counts of the bit vectors, `cqf_filter_validate` accepts the filter, and an insertion that does not
succeed changes nothing. -/
theorem insert_only_invariant (malloc : Bool) (capacity fpBits : ℕ) (cf : CqfFilter)
    (hc : cqfFilterCreate malloc capacity fpBits = some (some cf)) (hashes : List UInt64) :
    let cf := inserts cf hashes
    cnt cf.occ cf.numSlots = cnt cf.run cf.numSlots ∧
      (∀ p < cf.numSlots, cf.phys p = true ↔ ∃ e < cf.numSlots, p ≤ e ∧ cf.run e = true) ∧
      (∀ b ≤ cf.numBlocks,
        cf.occPrefix b = cnt cf.occ (64 * b) ∧ cf.runPrefix b = cnt cf.run (64 * b)) ∧
      cqfFilterValidate cf = true ∧
      ∀ hash, (cqfFilterInsert cf hash).1 ≠ .ok → (cqfFilterInsert cf hash).2 = cf := by
  obtain ⟨hf, -⟩ := create_eq_some hc
  have htidy : Tidy (inserts cf hashes) := Tidy.inserts ⟨_, hf.holds, hf.clean⟩ hashes
  obtain ⟨m, hm, hclean⟩ := id htidy
  exact ⟨hm.cnt_occ_eq, fun p _ => hm.phys_iff hclean,
    fun b hb => ⟨hm.occSums b hb, hm.runSums b hb⟩, hm.validate, fun hash => (htidy.insert hash).2⟩

/-- A filter of 64 slots with five insertions of two fingerprints. -/
theorem insert_only_invariant_five :
    ∃ cf, cqfFilterCreate true 64 8 = some (some cf) ∧
      cqfFilterValidate (inserts cf [3, 3, 3, 3, 260]) = true := by
  obtain ⟨out, heq, hnone, -⟩ := (@create_eq 64) true 8 (by norm_num) (by norm_num)
  have hbits : quotientBits 64 + clampBits 8 ≤ 64 := by decide
  cases hout : out with
  | none => exact absurd (hnone.mp hout) (by simp [not_lt.mpr hbits])
  | some cf =>
    rw [hout] at heq
    exact ⟨cf, heq, (insert_only_invariant true 64 8 cf heq [3, 3, 3, 3, 260]).2.2.2.1⟩

end Draugr.Cqf
