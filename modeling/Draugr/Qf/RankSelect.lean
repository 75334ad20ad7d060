import Draugr.Lib.Rank
import Mathlib.Data.List.Range

/-!
# Rank and select of the quotient filters

Model of the helpers that `src/rsqf_filter.c` and `src/cqf_filter.c` share: rank and select on a
word, the prefix sums of the set bits of the blocks, and rank and select on a whole bit vector by
way of these sums. A bit vector is the function from its places to its bits, its word `b` the places
from `64 * b` on.

Rank counts what lies before a place (`rankOcc_eq`), and select finds the set bit of a number
(`selectRun_eq`), once the prefix sums are the counts (`Prefixed`).
-/

namespace Draugr.Qf
open Draugr.Lib

/-- `set_bit`. -/
def setBit (bv : Bits) (pos : ℕ) : Bits := Function.update bv pos true

/-- `clear_bit`. -/
def clearBit (bv : Bits) (pos : ℕ) : Bits := Function.update bv pos false

/-- `move_phys_occ`. -/
def movePhysOcc (p : Bits) (src dst : ℕ) : Bits := if p src then clearBit (setBit p dst) src else p

/-- The word `b` of a bit vector. -/
def word (bv : Bits) (b : ℕ) : Bits := fun i => bv (64 * b + i)

/-- `__builtin_popcountll`. -/
def popcount (w : Bits) : ℕ := cnt w 64

/-- `__builtin_ctzll`, and `none` for the word zero. -/
def ctz (w : Bits) : Option ℕ := (List.range 64).find? fun i => w i

/-- `rank64`. -/
def rank64 (w : Bits) (pos : ℕ) : ℕ := cnt w (if pos < 63 then pos + 1 else 64)

/-- `select64`. -/
def select64 (w : Bits) (k : ℕ) : ℕ :=
  if k = 0 ∨ popcount w < k then 64
  else lowerBound (fun mid => decide (k ≤ cnt w (mid + 1))) 63 0 63

/-- `rank_occ`. -/
def rankOcc (occ : Bits) (occPrefix : ℕ → ℕ) (pos : ℕ) : ℕ :=
  occPrefix (pos / 64) + rank64 (word occ (pos / 64)) (pos % 64)

/-- `select_run`. -/
def selectRun (run : Bits) (runPrefix : ℕ → ℕ) (numBlocks numSlots k : ℕ) : ℕ :=
  if k = 0 then 0
  else if runPrefix numBlocks < k then numSlots - 1
  else
    let lo := lowerBound (fun mid => decide (k ≤ runPrefix mid)) numBlocks 0 numBlocks
    let block := lo - 1
    block * 64 + select64 (word run block) (k - runPrefix block)

/-- The loop that recomputes the prefix sums behind the blocks `[b, b + n)`. -/
def sumBlocks (bv : Bits) : ℕ → ℕ → (ℕ → ℕ) → ℕ → ℕ
  | 0, _, pre => pre
  | n + 1, b,
    pre => sumBlocks bv n (b + 1) (Function.update pre (b + 1) (pre b + popcount (word bv b)))

/-- The prefix sums up to block `n` are the counts. -/
def Prefixed (bv : Bits) (pre : ℕ → ℕ) (n : ℕ) : Prop := ∀ b ≤ n, pre b = cnt bv (64 * b)

variable {bv bv' w : Bits} {pre : ℕ → ℕ} {b n k e pos ns nb : ℕ}

/-! ## Words -/

/-- The bits of a word after those before it. -/
lemma cnt_add_word (bv : Bits) (b i : ℕ) :
    cnt bv (64 * b) + cnt (word bv b) i = cnt bv (64 * b + i) := by
  induction i with
  | zero => rw [cnt_zero, Nat.add_zero, Nat.add_zero]
  | succ i ih =>
    rw [cnt_succ, ← Nat.add_assoc, ih, ← Nat.add_assoc, cnt_succ]
    rfl

/-- `ctz` finds the lowest set bit. -/
lemma ctz_eq_some {i : ℕ} : ctz w = some i ↔ w i = true ∧ i < 64 ∧ ∀ j < i, w j = false := by
  simp [ctz, List.find?_range_eq_some]

/-- A word without a set bit. -/
lemma ctz_eq_none : ctz w = none ↔ ∀ i < 64, w i = false := by
  simp [ctz]

/-- Rank in a word counts the bits up to a place. -/
lemma rank64_eq (h : pos < 64) : rank64 w pos = cnt w (pos + 1) := by
  unfold rank64
  split_ifs with h63
  · rfl
  · rw [show pos + 1 = 64 by omega]

/-- Select in a word finds the bit of a number, counted from 1. -/
lemma select64_eq (hs : IsSelect w k e) (he : e < 64) : select64 w (k + 1) = e := by
  have hpop : k < popcount w := hs.lt_iff.mp he
  rw [select64, if_neg (by omega)]
  refine lowerBound_eq (fun i hi => ?_) (fun i hi _ => ?_) (by omega) (by omega) (by omega)
  · have : cnt w (i + 1) ≤ k := by
      by_contra hc
      have := hs.lt_iff.mpr (not_le.mp hc)
      omega
    exact decide_eq_false (by omega)
  · exact decide_eq_true (hs.lt_iff.mp (show e < i + 1 by omega))

/-! ## The whole vector -/

/-- Sums over some blocks are sums over fewer. -/
lemma Prefixed.mono (h : Prefixed bv pre n) {m : ℕ} (hm : m ≤ n) : Prefixed bv pre m := fun b hb =>
  h b (hb.trans hm)

/-- Rank counts the bits up to a place. -/
lemma rankOcc_eq (h : Prefixed bv pre nb) (hpos : pos < 64 * nb) :
    rankOcc bv pre pos = cnt bv (pos + 1) := by
  rw [rankOcc, rank64_eq (Nat.mod_lt _ (by omega)), h _ (by omega), cnt_add_word]
  congr 1
  omega

/-- Select finds the bit of a number, counted from 1. -/
lemma selectRun_eq (h : Prefixed bv pre nb) (hs : IsSelect bv k e) (he : e < 64 * nb) :
    selectRun bv pre nb ns (k + 1) = e := by
  have hle : ∀ b ≤ nb, (k + 1 ≤ pre b ↔ e < 64 * b) := by
    intro b hb
    rw [h b hb]
    exact hs.lt_iff.symm
  have hlo : lowerBound (fun mid => decide (k + 1 ≤ pre mid)) nb 0 nb = e / 64 + 1 := by
    refine lowerBound_eq (fun i hi => ?_) (fun i hi hin => ?_) (by omega) (by omega) (by omega)
    · exact decide_eq_false ((hle i (by omega)).not.mpr (by omega))
    · exact decide_eq_true ((hle i (by omega)).mpr (by omega))
  have hpre := h (e / 64) (by omega)
  rw [selectRun, if_neg (by omega), if_neg (by have := (hle nb le_rfl).mpr he; omega)]
  simp only [hlo, Nat.add_sub_cancel]
  have hword : IsSelect (word bv (e / 64)) (k - pre (e / 64)) (e % 64) := by
    refine ⟨?_, ?_⟩
    · rw [word, Nat.div_add_mod]
      exact hs.1
    · have := cnt_add_word bv (e / 64) (e % 64)
      rw [Nat.div_add_mod, hs.2] at this
      omega
  have hk : pre (e / 64) ≤ k := by
    have := (hle (e / 64) (by omega)).not.mpr (by omega)
    omega
  rw [show k + 1 - pre (e / 64) = k - pre (e / 64) + 1 by omega,
    select64_eq hword (Nat.mod_lt _ (by omega))]
  omega

/-! ## Recomputing the sums -/

/-- Recomputing the sums of `n` blocks extends them. -/
lemma Prefixed.sumBlocks : ∀ (n b : ℕ) {pre : ℕ → ℕ}, Prefixed bv pre b →
    Prefixed bv (Qf.sumBlocks bv n b pre) (b + n)
  | 0, _, _, h => h
  | n + 1, b, pre, h => by
    rw [Qf.sumBlocks, show b + (n + 1) = b + 1 + n by omega]
    refine Prefixed.sumBlocks n (b + 1) fun c hc => ?_
    by_cases hcb : c = b + 1
    · subst hcb
      rw [Function.update_self, h b le_rfl, popcount, cnt_add_word]
      rfl
    · rw [Function.update_of_ne hcb]
      exact h c (by omega)

/-- Sums before the first change stay right. -/
lemma Prefixed.congr (h : Prefixed bv pre n) (hbv : ∀ i < 64 * n, bv' i = bv i) :
    Prefixed bv' pre n := by
  intro b hb
  rw [h b hb]
  exact (cnt_congr fun i hi => hbv i (by omega)).symm

end Draugr.Qf
