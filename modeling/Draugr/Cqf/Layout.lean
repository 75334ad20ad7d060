import Draugr.Cqf.Filter
import Draugr.Cqf.Run
import Mathlib.Algebra.BigOperators.Group.Finset.Basic
import Mathlib.Algebra.Order.BigOperators.Group.Finset

/-!
# The layout of a filter

`Packed cf m` says that the slots of the filter `cf` hold the runs `m`, one after the other in the
order of their quotients and from the slot 0 on: every slot up to the end of the last run has data,
and the run-end bits are at the last slots of the runs. `Holds` adds that the prefix sums are right.
Rank and select then find the run of a quotient (`Holds.selectRun_rank`, `Holds.rstart_eq`).

`Packed.replace` is what all changes come down to: the run of one quotient is replaced, and the runs
behind it move.
-/

namespace Draugr.Cqf
open Draugr.Lib Draugr.Qf

variable {m : ℕ → List ℕ} {q n p i : ℕ} {l : List ℕ}

/-- The first slot of the run of `q`. -/
def start (m : ℕ → List ℕ) (q : ℕ) : ℕ := ∑ i ∈ Finset.range q, (m i).length

/-- Where the run behind a quotient starts. -/
lemma start_succ (q : ℕ) : start m (q + 1) = start m q + (m q).length := Finset.sum_range_succ ..

/-- The runs start in the order of their quotients. -/
lemma start_mono (h : q ≤ n) : start m q ≤ start m n := by
  induction n, h using Nat.le_induction with
  | base => exact le_rfl
  | succ n h ih =>
    rw [start_succ]
    omega

/-- A run ends before the end of the last run. -/
lemma start_add_le (h : q < n) : start m q + (m q).length ≤ start m n := by
  rw [← start_succ]
  exact start_mono h

/-- The runs up to the replaced one stay where they are. -/
lemma start_update_of_le (h : n ≤ q) : start (Function.update m q l) n = start m n := by
  refine Finset.sum_congr rfl fun i hi => ?_
  have := Finset.mem_range.mp hi
  rw [Function.update_of_ne (by omega)]

/-- The runs behind the replaced one move by the difference of the lengths. -/
lemma start_update_of_lt (h : q < n) :
    start (Function.update m q l) n + (m q).length = start m n + l.length := by
  induction n, (show q + 1 ≤ n from h) using Nat.le_induction with
  | base =>
    rw [start_succ, start_succ, start_update_of_le le_rfl, Function.update_self]
    omega
  | succ n hn ih =>
    have := ih (by omega)
    rw [start_succ, start_succ, Function.update_of_ne (by omega)]
    omega

/-- Every slot with data is in a run. -/
lemma exists_run (hp : p < start m n) : ∃ q < n, start m q ≤ p ∧ p < start m (q + 1) := by
  induction n with
  | zero => cases hp
  | succ n ih =>
    by_cases hlt : p < start m n
    · obtain ⟨q, hq, h⟩ := ih hlt
      exact ⟨q, hq.trans (Nat.lt_succ_self n), h⟩
    · exact ⟨n, Nat.lt_succ_self n, not_lt.mp hlt, hp⟩

/-- A run of `m` ends at the slot `p`. -/
def Ends (m : ℕ → List ℕ) (n p : ℕ) : Prop := ∃ q < n, m q ≠ [] ∧ start m (q + 1) = p + 1

instance (m : ℕ → List ℕ) (n p : ℕ) : Decidable (Ends m n p) :=
  inferInstanceAs (Decidable (∃ q < n, _))

namespace CqfFilter

/-- The slots hold the runs `m`, packed. -/
structure Packed (cf : CqfFilter) (m : ℕ → List ℕ) : Prop where
  slots : cf.numSlots = 64 * cf.numBlocks
  power : ∃ k ≤ 63, cf.numSlots = 2 ^ k
  width : Width cf.remainderBits
  narrow : ∀ p, cf.tbl p < 2 ^ cf.remainderBits
  lt : ∀ q, m q ≠ [] → q < cf.numSlots
  occ : ∀ q, cf.occ q = true ↔ m q ≠ []
  tbl : ∀ q i, i < (m q).length → (m q)[i]? = some (cf.tbl (start m q + i))
  run : ∀ q i, i < (m q).length → cf.run (start m q + i) = decide (i + 1 = (m q).length)
  phys : ∀ p < start m cf.numSlots, cf.phys p = true
  rest : ∀ p, start m cf.numSlots ≤ p → cf.run p = false
  room : start m cf.numSlots ≤ cf.numSlots

/-- The slots hold the runs `m`, and the prefix sums are right. -/
structure Holds (cf : CqfFilter) (m : ℕ → List ℕ) : Prop extends Packed cf m where
  occSums : Prefixed cf.occ cf.occPrefix cf.numBlocks
  runSums : Prefixed cf.run cf.runPrefix cf.numBlocks

/-- No slot behind the last run has data. -/
def Clean (cf : CqfFilter) (m : ℕ → List ℕ) : Prop :=
  ∀ p, start m cf.numSlots ≤ p → cf.phys p = false

variable {cf cf' : CqfFilter}

/-- `update_offsets` makes the prefix sums right. -/
lemma Packed.updateOffsets (h : Packed cf m) : Holds cf.updateOffsets m := by
  have hsum : ∀ (bv : Bits) (pre : ℕ → ℕ),
      Prefixed bv (sumBlocks bv cf.numBlocks 0 (Function.update pre 0 0)) cf.numBlocks := by
    intro bv pre
    have h0 : Prefixed bv (Function.update pre 0 0) 0 := by
      intro b hb
      rw [show b = 0 by omega, Function.update_self]
      exact cnt_zero.symm
    have := h0.sumBlocks cf.numBlocks 0
    rwa [Nat.zero_add] at this
  exact { h with occSums := hsum _ _, runSums := hsum _ _ }

/-! ## Rank and select -/

/-- The run ends before a run are as many as the occupied quotients before its quotient. -/
lemma Packed.cnt_run_start (h : Packed cf m) (n : ℕ) : cnt cf.run (start m n) = cnt cf.occ n := by
  induction n with
  | zero => rfl
  | succ n ih =>
    rw [start_succ, cnt_succ, ← ih]
    by_cases hn : m n = []
    · rw [hn, if_neg (by rw [h.occ]; exact not_not.mpr hn)]
      rfl
    · obtain ⟨k, hk⟩ := Nat.exists_eq_succ_of_ne_zero (mt List.length_eq_zero_iff.mp hn)
      have hclear : ∀ i, start m n ≤ i → i < start m n + k → cf.run i = false := by
        intro i h1 h2
        have := h.run n (i - start m n) (by omega)
        rw [show start m n + (i - start m n) = i by omega, decide_eq_false (by omega)] at this
        exact this
      have hset : cf.run (start m n + k) = true := by
        rw [h.run n k (by omega)]
        exact decide_eq_true hk.symm
      rw [if_pos ((h.occ n).mpr hn), hk, Nat.succ_eq_add_one, ← Nat.add_assoc, cnt_succ_of_set hset,
        cnt_eq_of_clear (Nat.le_add_right ..) hclear]

/-- The end of the run of an occupied quotient is the run end of its number. -/
lemma Packed.isSelect (h : Packed cf m) (hq : m q ≠ []) :
    0 < start m (q + 1) ∧ IsSelect cf.run (cnt cf.occ q) (start m (q + 1) - 1) := by
  obtain ⟨k, hk⟩ := Nat.exists_eq_succ_of_ne_zero (mt List.length_eq_zero_iff.mp hq)
  have hs : start m (q + 1) = start m q + k + 1 := by
    rw [start_succ, hk]
    rfl
  have hset : cf.run (start m q + k) = true := by
    rw [h.run q k (by omega)]
    exact decide_eq_true hk.symm
  rw [hs]
  refine ⟨Nat.succ_pos _, hset, ?_⟩
  have hc := h.cnt_run_start (q + 1)
  rw [hs, cnt_succ_of_set hset, cnt_succ_of_set ((h.occ q).mpr hq)] at hc
  exact Nat.succ_injective hc

/-- Before the run of a quotient ends the run of the occupied quotient before it. -/
lemma Packed.isSelect_before (h : Packed cf m) : ∀ {n : ℕ}, 0 < cnt cf.occ n →
    0 < start m n ∧ IsSelect cf.run (cnt cf.occ n - 1) (start m n - 1)
  | 0, hn => by
    rw [cnt_zero] at hn
    omega
  | n + 1, hn => by
    by_cases hm : m n = []
    · have hocc : cf.occ n = false := by
        rw [Bool.eq_false_iff, Ne, h.occ]
        exact not_not.mpr hm
      have hs : start m (n + 1) = start m n := by
        rw [start_succ, hm]
        rfl
      rw [cnt_succ_of_clear hocc] at hn ⊢
      rw [hs]
      exact h.isSelect_before hn
    · rw [cnt_succ_of_set ((h.occ n).mpr hm)]
      exact h.isSelect hm

/-- Without an occupied quotient there are no slots. -/
lemma Packed.start_eq_zero (h : Packed cf m) (hn : cnt cf.occ n = 0) : start m n = 0 := by
  refine Finset.sum_eq_zero fun i hi => ?_
  have hi := Finset.mem_range.mp hi
  rw [List.length_eq_zero_iff]
  by_contra hm
  have := cnt_lt_of_set ((h.occ i).mpr hm) hi
  omega

/-- There are not more runs than slots. -/
lemma Packed.cnt_occ_le (h : Packed cf m) (hn : n ≤ cf.numSlots) : cnt cf.occ n ≤ cf.numSlots := by
  rw [← h.cnt_run_start]
  exact (Nat.count_le _).trans ((start_mono hn).trans h.room)

/-- The run-end bits are where runs end. -/
lemma Packed.run_iff (h : Packed cf m) : cf.run p = true ↔ Ends m cf.numSlots p := by
  constructor
  · intro hrun
    have hp : p < start m cf.numSlots := by
      by_contra hle
      rw [h.rest p (not_lt.mp hle)] at hrun
      cases hrun
    obtain ⟨q, hq, hle, hlt⟩ := exists_run hp
    rw [start_succ] at hlt
    have hbit := h.run q (p - start m q) (by omega)
    rw [Nat.add_sub_cancel' hle, hrun, eq_comm, decide_eq_true_iff] at hbit
    refine ⟨q, hq, List.ne_nil_of_length_pos (by omega), ?_⟩
    rw [start_succ]
    omega
  · rintro ⟨q, hq, hne, he⟩
    have hpos := List.length_pos_iff.mpr hne
    rw [start_succ] at he
    rw [show p = start m q + ((m q).length - 1) by omega, h.run q _ (by omega)]
    exact decide_eq_true (by omega)

namespace Holds

/-- Rank counts the occupied quotients. -/
lemma rankOcc_eq (h : Holds cf m) (hq : q < cf.numSlots) : cf.rankOcc q = cnt cf.occ (q + 1) :=
  Qf.rankOcc_eq h.occSums (h.slots ▸ hq)

/-- The number of all runs. -/
lemma rankOcc_last (h : Holds cf m) : cf.rankOcc (cf.numSlots - 1) = cnt cf.occ cf.numSlots := by
  obtain ⟨k, -, hk⟩ := h.power
  have hpos : 0 < cf.numSlots := hk ▸ Nat.two_pow_pos k
  rw [h.rankOcc_eq (by omega), Nat.sub_add_cancel hpos]

/-- Select finds the end of the runs before a quotient. -/
lemma selectRun_before (h : Holds cf m) (hn : n ≤ cf.numSlots) (hpos : 0 < cnt cf.occ n) :
    0 < start m n ∧ cf.selectRun (cnt cf.occ n) + 1 = start m n := by
  obtain ⟨hs, hsel⟩ := h.isSelect_before hpos
  have hlt : start m n - 1 < 64 * cf.numBlocks := by
    have := start_mono (m := m) hn
    have := h.room
    rw [← h.slots]
    omega
  have hrun : cf.selectRun (cnt cf.occ n - 1 + 1) = start m n - 1 := selectRun_eq h.runSums hsel hlt
  rw [Nat.sub_add_cancel hpos] at hrun
  refine ⟨hs, ?_⟩
  rw [hrun]
  omega

/-- The end of the run of an occupied quotient. -/
lemma selectRun_rank (h : Holds cf m) (hq : m q ≠ []) :
    cf.selectRun (cf.rankOcc q) + 1 = start m q + (m q).length := by
  have hlt := h.lt q hq
  rw [h.rankOcc_eq hlt, ← start_succ]
  refine (h.selectRun_before hlt ?_).2
  rw [cnt_succ_of_set ((h.occ q).mpr hq)]
  exact Nat.succ_pos _

/-- The first slot of the run of an occupied quotient. -/
lemma rstart_eq (h : Holds cf m) (hq : m q ≠ []) :
    (if 1 < cf.rankOcc q then cf.selectRun (cf.rankOcc q - 1) + 1 else 0) = start m q := by
  have hlt := h.lt q hq
  rw [h.rankOcc_eq hlt, cnt_succ_of_set ((h.occ q).mpr hq), Nat.add_sub_cancel]
  split_ifs with h1
  · exact (h.selectRun_before hlt.le (by omega)).2
  · exact (h.start_eq_zero (by omega)).symm

/-- The run of an occupied quotient, as `find_run` gives it. -/
lemma runStart_eq (h : Holds cf m) (hq : m q ≠ []) : cf.runStart (cf.rankOcc q) = start m q := by
  have hlt := h.lt q hq
  obtain ⟨k, hk63, hk⟩ := h.power
  have hle := h.cnt_occ_le (n := q + 1) hlt
  have hsmall : cf.numSlots ≤ 2 ^ 63 := hk ▸ Nat.pow_le_pow_right Nat.two_pos hk63
  rw [h.rankOcc_eq hlt, cnt_succ_of_set ((h.occ q).mpr hq)] at *
  unfold runStart
  split_ifs with h1
  · exact (h.start_eq_zero (by omega)).symm
  · have hin : start m q < cf.numSlots := by
      have h2 := start_add_le (m := m) hlt
      have h3 := h.room
      have h4 := List.length_pos_iff.mpr hq
      omega
    rw [show (cnt cf.occ q + 1 + (2 ^ 64 - 1)) % 2 ^ 64 = cnt cf.occ q by omega,
      (h.selectRun_before hlt.le (by omega)).2, Nat.mod_eq_of_lt hin]

/-- `find_run` of an occupied quotient. -/
lemma findRun_of_occ (h : Holds cf m) (hq : m q ≠ []) :
    ∃ rend, cf.findRun q = some (start m q, rend) ∧
    rend + 1 = start m q + (m q).length := by
  refine ⟨cf.selectRun (cf.rankOcc q), ?_, h.selectRun_rank hq⟩
  rw [findRun, if_pos ((h.occ q).mpr hq), h.runStart_eq hq]

/-- The end of the last run. -/
lemma lastEnd_eq (h : Holds cf m) (hpos : 0 < start m cf.numSlots) (d : ℕ) :
    cf.lastEnd d + 1 = start m cf.numSlots := by
  have hc : 0 < cnt cf.occ cf.numSlots := by
    by_contra hc
    have := h.start_eq_zero (n := cf.numSlots) (by omega)
    omega
  unfold lastEnd
  simp only [h.rankOcc_last]
  rw [if_pos hc]
  exact (h.selectRun_before le_rfl hc).2

end Holds

/-! ## Replacing a run -/

/-- The filter `cf'` is `cf` with the run of `q` replaced by `l`. -/
structure Replaced (cf cf' : CqfFilter) (m : ℕ → List ℕ) (q : ℕ) (l : List ℕ) : Prop where
  numSlots : cf'.numSlots = cf.numSlots
  numBlocks : cf'.numBlocks = cf.numBlocks
  remainderBits : cf'.remainderBits = cf.remainderBits
  narrow : ∀ p, cf'.tbl p < 2 ^ cf'.remainderBits
  occ : ∀ i, cf'.occ i = true ↔ Function.update m q l i ≠ []
  tblBelow : ∀ p < start m q, cf'.tbl p = cf.tbl p
  runBelow : ∀ p < start m q, cf'.run p = cf.run p
  tblHere : ∀ i, i < l.length → l[i]? = some (cf'.tbl (start m q + i))
  runHere : ∀ i, i < l.length → cf'.run (start m q + i) = decide (i + 1 = l.length)
  tblAbove : ∀ i, start m (q + 1) + i < start m cf.numSlots →
    cf'.tbl (start m q + l.length + i) = cf.tbl (start m (q + 1) + i)
  runAbove : ∀ i, start m (q + 1) + i < start m cf.numSlots →
    cf'.run (start m q + l.length + i) = cf.run (start m (q + 1) + i)
  phys : ∀ p < start (Function.update m q l) cf.numSlots, cf'.phys p = true
  rest : ∀ p, start (Function.update m q l) cf.numSlots ≤ p → cf'.run p = false
  room : start (Function.update m q l) cf.numSlots ≤ cf.numSlots

/-- Replacing a run gives a packed filter again. -/
lemma Packed.replace (h : Packed cf m) (hq : q < cf.numSlots) (w : Replaced cf cf' m q l) :
    Packed cf' (Function.update m q l) := by
  have hlt : ∀ i, Function.update m q l i ≠ [] → i < cf.numSlots := by
    intro i hi
    by_cases hiq : i = q
    · rw [hiq]
      exact hq
    · rw [Function.update_of_ne hiq] at hi
      exact h.lt i hi
  -- where the slots of the other runs are
  have hbelow : ∀ j < q, ∀ i < (m j).length, start m j + i < start m q := fun j hj i hi =>
    lt_of_lt_of_le (by omega) (start_add_le (m := m) hj)
  have habove : ∀ j, q < j → ∀ i < (m j).length, ∃ k, start m j + i = start m (q + 1) + k ∧
      start (Function.update m q l) j + i = start m q + l.length + k ∧
      start m (q + 1) + k < start m cf.numSlots := by
    intro j hj i hi
    have h1 := start_mono (m := m) (show q + 1 ≤ j from hj)
    have h2 := start_update_of_lt (m := m) (l := l) hj
    have h3 := start_succ (m := m) q
    have h4 := h.lt j (by rintro he; rw [he] at hi; cases hi)
    have h5 := start_add_le (m := m) h4
    exact ⟨start m j + i - start m (q + 1), by omega, by omega, by omega⟩
  refine ⟨?_, ?_, ?_, w.narrow, ?_, w.occ, ?_, ?_, ?_, ?_, ?_⟩
  · rw [w.numSlots, w.numBlocks]
    exact h.slots
  · rw [w.numSlots]
    exact h.power
  · rw [w.remainderBits]
    exact h.width
  · rw [w.numSlots]
    exact hlt
  · intro j i hi
    rcases Nat.lt_trichotomy j q with hj | rfl | hj
    · rw [Function.update_of_ne hj.ne] at hi ⊢
      rw [start_update_of_le hj.le, w.tblBelow _ (hbelow j hj i hi)]
      exact h.tbl j i hi
    · rw [Function.update_self] at hi ⊢
      rw [start_update_of_le le_rfl]
      exact w.tblHere i hi
    · rw [Function.update_of_ne hj.ne'] at hi ⊢
      obtain ⟨k, h1, h2, h3⟩ := habove j hj i hi
      rw [h2, w.tblAbove k h3, ← h1]
      exact h.tbl j i hi
  · intro j i hi
    rcases Nat.lt_trichotomy j q with hj | rfl | hj
    · rw [Function.update_of_ne hj.ne] at hi ⊢
      rw [start_update_of_le hj.le, w.runBelow _ (hbelow j hj i hi)]
      exact h.run j i hi
    · rw [Function.update_self] at hi ⊢
      rw [start_update_of_le le_rfl]
      exact w.runHere i hi
    · rw [Function.update_of_ne hj.ne'] at hi ⊢
      obtain ⟨k, h1, h2, h3⟩ := habove j hj i hi
      rw [h2, w.runAbove k h3, ← h1]
      exact h.run j i hi
  · rw [w.numSlots]
    exact w.phys
  · rw [w.numSlots]
    exact w.rest
  · rw [w.numSlots]
    exact w.room

end CqfFilter

end Draugr.Cqf
