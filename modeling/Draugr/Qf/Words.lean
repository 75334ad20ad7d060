import Draugr.Cqf.Filter
import Draugr.Lib.Packed
import Draugr.Rsqf.Defs

/-!
# Rank and select on words

The index of a quotient filter as it is in memory: the occupied bits and the run-end bits word by
word, and the prefix sums of the blocks. Rank masks a word and counts its bits; select is a binary
search over the sums and another one inside a word.

Both filters have the same rank and select. They differ in how they recompute the offsets, which
rank and select do not read. The sums stay below `num_slots`, so none of them overflows.

`Index.Exact` is that rank and select are right. Recomputing the sums makes them so
(`Index.Summed`), from the first block on or from any block at or before the first one that was
changed. The models of the filters have the bits as functions; `index_updateOffsetsFrom` and the
lemmas around it say that their index is this one.
-/

namespace Draugr.Qf
open Draugr.Lib

/-- `__builtin_popcountll`. -/
def popcountll (w : BitVec 64) : ℕ := w.cpop.toNat

/-- `rank64`. -/
def wordRank64 (word : BitVec 64) (pos : ℕ) : ℕ :=
  let mask := if pos < 63 then 1#64 <<< (pos + 1) - 1#64 else ~~~0#64
  popcountll (word &&& mask)

/-- `select64`. -/
def wordSelect64 (word : BitVec 64) (k : ℕ) : ℕ :=
  if k = 0 ∨ popcountll word < k then 64
  else lowerBound
    (fun mid => decide (k ≤ popcountll (word &&& (1#64 <<< (mid + 1) - 1#64)))) 63 0 63

/-- The arrays of `rsqf_filter_t` and `cqf_filter_t` that rank and select read, and the offsets. -/
structure Index where
  numSlots : ℕ
  numBlocks : ℕ
  occ : Words
  run : Words
  occPrefix : ℕ → ℕ
  runPrefix : ℕ → ℕ
  offsets : ℕ → ℕ

/-- `rank_occ` and `rank_occ_fast`. -/
def Index.rankOcc (ix : Index) (pos : ℕ) : ℕ :=
  ix.occPrefix (pos / 64) + wordRank64 (ix.occ (pos / 64)) (pos % 64)

/-- `select_run` and `select_run_fast`. -/
def Index.selectRun (ix : Index) (k : ℕ) : ℕ :=
  if k = 0 then 0
  else if ix.runPrefix ix.numBlocks < k then ix.numSlots - 1
  else
    let lo := lowerBound (fun mid => decide (k ≤ ix.runPrefix mid)) ix.numBlocks 0 ix.numBlocks
    let block := lo - 1
    block * 64 + wordSelect64 (ix.run block) (k - ix.runPrefix block)

/-- The loop that recomputes the sums behind the blocks `[b, b + n)`. -/
def sumWords (w : Words) : ℕ → ℕ → (ℕ → ℕ) → ℕ → ℕ
  | 0, _, pre => pre
  | n + 1, b, pre => sumWords w n (b + 1) (Function.update pre (b + 1) (pre b + popcountll (w b)))

/-- Pass 2 of `update_offsets_from` for one block. -/
def Index.blockOffset (ix : Index) (b : ℕ) : ℕ :=
  let o :=
    if ix.occPrefix b < ix.occPrefix (b + 1) then
      let rend := ix.selectRun (ix.occPrefix b + 1)
      if b * 64 < rend then rend - b * 64 else 0
    else 0
  if 254 < o then 255 else o

/-- `update_offsets_from`. -/
def Index.updateOffsetsFrom (ix : Index) (firstBlock : ℕ) : Index :=
  let n := ix.numBlocks - firstBlock
  let occP := if firstBlock = 0 then Function.update ix.occPrefix 0 0 else ix.occPrefix
  let runP := if firstBlock = 0 then Function.update ix.runPrefix 0 0 else ix.runPrefix
  let ix := { ix with
    occPrefix := sumWords ix.occ n firstBlock occP, runPrefix := sumWords ix.run n firstBlock runP }
  { ix with
    offsets := (List.range' firstBlock n).foldl
      (fun off b => Function.update off b (ix.blockOffset b)) ix.offsets }

/-- The inner loop of `update_offsets`: the block where the run number `occSeen` ends, and the
number of run ends before it. -/
def Index.seekBlock (ix : Index) (occSeen : ℕ) : ℕ → ℕ × ℕ → ℕ × ℕ
  | 0, s => s
  | n + 1, (rw, consumed) =>
    if rw < ix.numBlocks then
      let wPop := popcountll (ix.run rw)
      if occSeen ≤ consumed + wPop then (rw, consumed)
      else seekBlock ix occSeen n (rw + 1, consumed + wPop)
    else (rw, consumed)

/-- The offsets that `update_offsets` writes for the blocks `[b, b + n)`. -/
def Index.offsetLoop (ix : Index) : ℕ → ℕ → ℕ → ℕ × ℕ → (ℕ → ℕ) → ℕ → ℕ
  | 0, _, _, _, off => off
  | n + 1, b, occSeen, s, off =>
    let occSeen := occSeen + popcountll (ix.occ b)
    let s := if 0 < occSeen then ix.seekBlock occSeen (ix.numBlocks + 1) s else s
    let rend := if s.1 < ix.numBlocks then s.1 * 64 + wordSelect64 (ix.run s.1) (occSeen - s.2)
      else ix.numSlots - 1
    let o := if 0 < occSeen ∧ b * 64 < rend then rend - b * 64 else 0
    offsetLoop ix n (b + 1) occSeen s (Function.update off b (if 255 < o then 255 else o))

/-- `update_offsets` of the counting filter. -/
def Index.updateOffsets (ix : Index) : Index :=
  { ix with
    occPrefix := sumWords ix.occ ix.numBlocks 0 (Function.update ix.occPrefix 0 0)
    runPrefix := sumWords ix.run ix.numBlocks 0 (Function.update ix.runPrefix 0 0)
    offsets := ix.offsetLoop ix.numBlocks 0 0 (0, 0) ix.offsets }

variable {w word : BitVec 64} {W W' : Words} {bv : Bits} {pre : ℕ → ℕ} {b n m k pos : ℕ}
  {ix : Index}

/-! ## Words as bits -/

/-- The bits of a word. -/
def bitsOf (w : BitVec 64) : Bits := fun i => w.getLsbD i

/-- The population count of a word, place by place. -/
lemma cpopNatRec_eq_cnt (w : BitVec 64) (n : ℕ) : w.cpopNatRec n 0 = cnt (bitsOf w) n := by
  induction n with
  | zero => rfl
  | succ n ih =>
    rw [BitVec.cpopNatRec_succ, BitVec.cpopNatRec_eq, ih, cnt_succ, Nat.zero_add, bitsOf]
    cases w.getLsbD n <;> rfl

/-- Counting the bits of a word. -/
lemma popcountll_eq (w : BitVec 64) : popcountll w = popcount (bitsOf w) := by
  rw [popcountll, BitVec.toNat_cpop, cpopNatRec_eq_cnt, popcount]

/-- The mask of the places up to `pos`. -/
lemma getLsbD_lowMask (hpos : pos < 63) (k : ℕ) :
    (1#64 <<< (pos + 1) - 1#64).getLsbD k = decide (k < pos + 1) := by
  have hpow : 2 ^ (pos + 1) < 2 ^ 64 := Nat.pow_lt_pow_right (by decide) (by omega)
  have hmask : 1#64 <<< (pos + 1) - 1#64 = maskBits (pos + 1) := by
    refine BitVec.eq_of_toNat_eq ?_
    have h1 : (1#64 <<< (pos + 1)).toNat = 2 ^ (pos + 1) := by
      rw [BitVec.toNat_shiftLeft, Nat.shiftLeft_eq, show (1#64).toNat = 1 from rfl, Nat.one_mul,
        Nat.mod_eq_of_lt hpow]
    have hp := Nat.two_pow_pos (pos + 1)
    rw [maskBits, BitVec.toNat_sub, h1, BitVec.toNat_ofNat, BitVec.toNat_ofNat]
    omega
  rw [hmask, getLsbD_maskBits (by omega)]

/-- Counting the bits of a word up to a place. -/
lemma popcountll_lowMask (w : BitVec 64) (hpos : pos < 63) :
    popcountll (w &&& (1#64 <<< (pos + 1) - 1#64)) = cnt (bitsOf w) (pos + 1) := by
  have hlow :
      ∀ i < pos + 1, bitsOf (w &&& (1#64 <<< (pos + 1) - 1#64)) i = bitsOf w i := fun i hi => by
    rw [bitsOf, BitVec.getLsbD_and, getLsbD_lowMask hpos, decide_eq_true hi, Bool.and_true, bitsOf]
  have hhigh :
      ∀ i, pos + 1 ≤ i → i < 64 → bitsOf (w &&& (1#64 <<< (pos + 1) - 1#64)) i =
        false := fun i hi _ => by
    rw [bitsOf, BitVec.getLsbD_and, getLsbD_lowMask hpos, decide_eq_false (by omega),
      Bool.and_false]
  rw [popcountll_eq, popcount, cnt_eq_of_clear (by omega) hhigh]
  exact cnt_congr hlow

/-- The rank in a word is that of its bits. -/
lemma wordRank64_eq (w : BitVec 64) (pos : ℕ) : wordRank64 w pos = rank64 (bitsOf w) pos := by
  rw [wordRank64, rank64]
  by_cases h63 : pos < 63
  · rw [if_pos h63, if_pos h63]
    exact popcountll_lowMask w h63
  · have hall : w &&& ~~~0#64 = w := BitVec.and_allOnes
    rw [if_neg h63, if_neg h63, hall, popcountll_eq, popcount]

/-- A binary search depends on the tests in its range. -/
lemma lowerBound_congr {test test' : ℕ → Bool} : ∀ {fuel lo hi : ℕ}, (∀ i < hi, test i = test' i) →
    lowerBound test fuel lo hi = lowerBound test' fuel lo hi
  | 0, _, _, _ => rfl
  | fuel + 1, lo, hi, h => by
    rw [lowerBound, lowerBound]
    split_ifs with hlt h1 h2 h2
    · exact lowerBound_congr fun i hi => h i (by omega)
    · exact absurd (h1.symm.trans (h _ (by omega))) (by simpa using h2)
    · exact absurd ((h _ (by omega)).trans h2) h1
    · exact lowerBound_congr h
    · rfl

/-- The select in a word is that of its bits. -/
lemma wordSelect64_eq (w : BitVec 64) (k : ℕ) : wordSelect64 w k = select64 (bitsOf w) k := by
  rw [wordSelect64, select64, popcountll_eq]
  refine if_congr Iff.rfl rfl (lowerBound_congr fun i hi => ?_)
  rw [popcountll_lowMask w hi]

/-- The words of a bit array. -/
lemma bitsOf_word (W : Words) (b : ℕ) {i : ℕ} (hi : i < 64) :
    Qf.word (bitAt W) b i = bitsOf (W b) i := by
  rw [Qf.word, bitAt, bitsOf, show (64 * b + i) / 64 = b by omega,
    show (64 * b + i) % 64 = i by omega]

/-- The population count of a word of the array. -/
lemma popcount_word (W : Words) (b : ℕ) : popcount (Qf.word (bitAt W) b) = popcountll (W b) := by
  rw [popcountll_eq]
  exact cnt_congr fun i hi => bitsOf_word W b hi

/-- The sums over words are those over blocks of bits. -/
lemma sumWords_eq (W : Words) : ∀ (n b : ℕ) (pre : ℕ → ℕ),
    sumWords W n b pre = sumBlocks (bitAt W) n b pre
  | 0, _, _ => rfl
  | n + 1, b, pre => by rw [sumWords, sumBlocks, popcount_word, sumWords_eq W n]

/-- The rank over words is that over bits. -/
lemma Index.rankOcc_eq (ix : Index) (pos : ℕ) :
    ix.rankOcc pos = Qf.rankOcc (bitAt ix.occ) ix.occPrefix pos := by
  have hpos := Nat.mod_lt pos (by decide : 0 < 64)
  rw [Index.rankOcc, Qf.rankOcc, wordRank64_eq, rank64_eq hpos, rank64_eq hpos]
  exact congrArg _ (cnt_congr fun i hi => (bitsOf_word ix.occ _ (by omega)).symm)

/-- Select depends on the 64 bits of a word. -/
lemma select64_congr {w w' : Bits} (h : ∀ i < 64, w i = w' i) (k : ℕ) :
    select64 w k = select64 w' k := by
  have hpop : popcount w = popcount w' := cnt_congr h
  rw [select64, select64, hpop]
  refine if_congr Iff.rfl rfl (lowerBound_congr fun i hi => ?_)
  rw [cnt_congr fun j hj => h j (by omega)]

/-- Select in a word of a bit array. -/
lemma select64_word (W : Words) (b k : ℕ) :
    select64 (Qf.word (bitAt W) b) k = wordSelect64 (W b) k := by
  rw [wordSelect64_eq]
  exact select64_congr (fun i hi => bitsOf_word W b hi) k

/-- The select over words is that over bits. -/
lemma Index.selectRun_eq (ix : Index) (k : ℕ) :
    ix.selectRun k = Qf.selectRun (bitAt ix.run) ix.runPrefix ix.numBlocks ix.numSlots k := by
  rw [Index.selectRun, Qf.selectRun]
  refine if_congr Iff.rfl rfl (if_congr Iff.rfl rfl ?_)
  dsimp only
  rw [select64_word]

/-! ## Recomputing the sums -/

/-- The prefix sums up to block `b` are the counts of the bits before the blocks. -/
structure Index.SummedTo (ix : Index) (b : ℕ) : Prop where
  occ : Prefixed (bitAt ix.occ) ix.occPrefix b
  run : Prefixed (bitAt ix.run) ix.runPrefix b

/-- All prefix sums are right. -/
def Index.Summed (ix : Index) : Prop := ix.SummedTo ix.numBlocks

/-- Rank and select are right. -/
structure Index.Exact (ix : Index) : Prop where
  rank : ∀ pos < 64 * ix.numBlocks, ix.rankOcc pos = cnt (bitAt ix.occ) (pos + 1)
  select : ∀ k, 1 ≤ k → k ≤ cnt (bitAt ix.run) (64 * ix.numBlocks) →
    ix.selectRun k < 64 * ix.numBlocks ∧
    bitAt ix.run (ix.selectRun k) = true ∧ cnt (bitAt ix.run) (ix.selectRun k) + 1 = k

/-- Once the sums are right, rank and select are. -/
lemma Index.Summed.exact (h : ix.Summed) : ix.Exact where
  rank pos hpos := by
    rw [ix.rankOcc_eq]
    exact Qf.rankOcc_eq h.occ hpos
  select k hk hle := by
    obtain ⟨e, he, hsel⟩ :=
      exists_isSelect (show k - 1 < cnt (bitAt ix.run) (64 * ix.numBlocks) by omega)
    have hrun : ix.selectRun k = e := by
      rw [ix.selectRun_eq, ← Nat.sub_add_cancel hk]
      exact Qf.selectRun_eq h.run hsel he
    rw [hrun]
    exact ⟨he, hsel.1, by rw [hsel.2, Nat.sub_add_cancel hk]⟩

/-- The first block has nothing before it. -/
lemma prefixed_zero (bv : Bits) (pre : ℕ → ℕ) : Prefixed bv (Function.update pre 0 0) 0 := by
  intro b hb
  rw [Nat.le_zero.mp hb, Function.update_self]
  exact cnt_zero.symm

/-- Recomputing one of the arrays of sums. -/
lemma prefixed_sumWords {first nb : ℕ} (h : first ≠ 0 → Prefixed (bitAt W) pre first)
    (hle : first ≤ nb) :
    Prefixed (bitAt W)
      (sumWords W (nb - first) first (if first = 0 then Function.update pre 0 0 else pre)) nb := by
  have hfirst : Prefixed (bitAt W) (if first = 0 then Function.update pre 0 0 else pre) first := by
    by_cases h0 : first = 0
    · rw [if_pos h0, h0]
      exact prefixed_zero _ pre
    · rw [if_neg h0]
      exact h h0
  have hsum := Prefixed.sumBlocks (nb - first) first hfirst
  rw [Nat.add_sub_cancel' hle] at hsum
  rwa [sumWords_eq]

/-- `update_offsets_from` makes all sums right, from block 0 on or from where they are not. -/
lemma Index.updateOffsetsFrom_summed {first : ℕ} (h : first ≠ 0 → ix.SummedTo first)
    (hle : first ≤ ix.numBlocks) :
    (ix.updateOffsetsFrom first).Summed where
  occ := prefixed_sumWords (fun h0 => (h h0).occ) hle
  run := prefixed_sumWords (fun h0 => (h h0).run) hle

/-- `update_offsets` makes all sums right. -/
lemma Index.updateOffsets_summed (ix : Index) : ix.updateOffsets.Summed where
  occ := prefixed_sumWords (fun h0 => absurd rfl h0) (Nat.zero_le _)
  run := prefixed_sumWords (fun h0 => absurd rfl h0) (Nat.zero_le _)

/-! ## Changes -/

/-- The bit vectors after a change, and the block from which the sums are recomputed. -/
structure Change where
  occ : Words
  run : Words
  firstBlock : ℕ

/-- A change and the recomputation of the sums after it. -/
def Index.change (ix : Index) (c : Change) : Index :=
  { ix with occ := c.occ, run := c.run }.updateOffsetsFrom c.firstBlock

/-- The block is one of the filter, at or before the first block that was changed. -/
def Change.From (c : Change) (ix : Index) : Prop :=
  c.firstBlock ≤ ix.numBlocks ∧ ∀ b < c.firstBlock, c.occ b = ix.occ b ∧ c.run b = ix.run b

/-- A list of changes. -/
def Index.changes (ix : Index) : List Change → Index
  | [] => ix
  | c :: cs => (ix.change c).changes cs

/-- All changes of a list are recomputed from early enough. -/
def ChangesFrom : List Change → Index → Prop
  | [], _ => True
  | c :: cs, ix => c.From ix ∧ ChangesFrom cs (ix.change c)

/-- The bits of unchanged words. -/
lemma bitAt_congr {first : ℕ} (h : ∀ b < first, W' b = W b) {i : ℕ} (hi : i < 64 * first) :
    bitAt W' i = bitAt W i := by
  rw [bitAt, h (i / 64) (by omega), bitAt]

/-- A change keeps the sums right. -/
lemma Index.Summed.change {c : Change} (h : ix.Summed) (hc : c.From ix) : (ix.change c).Summed := by
  refine updateOffsetsFrom_summed (fun _ => ⟨?_, ?_⟩) hc.1
  · exact (h.occ.mono hc.1).congr fun i hi => bitAt_congr (fun b hb => (hc.2 b hb).1) hi
  · exact (h.run.mono hc.1).congr fun i hi => bitAt_congr (fun b hb => (hc.2 b hb).2) hi

/-- All changes of a list keep the sums right. -/
lemma Index.Summed.changes {cs : List Change} (h : ix.Summed) (hc : ChangesFrom cs ix) :
    (ix.changes cs).Summed := by
  induction cs generalizing ix with
  | nil => exact h
  | cons c cs ih => exact ih (h.change hc.1) hc.2

/-- Select inside a word. -/
lemma wordSelect64_spec (hk : 1 ≤ k) (hle : k ≤ popcountll word) :
    wordSelect64 word k < 64 ∧ word.getLsbD (wordSelect64 word k) = true ∧
      cnt (bitsOf word) (wordSelect64 word k) + 1 = k := by
  rw [popcountll_eq] at hle
  obtain ⟨e, he, hsel⟩ := exists_isSelect (show k - 1 < cnt (bitsOf word) 64 by
    rw [popcount] at hle
    omega)
  have hrun : wordSelect64 word k = e := by
    rw [wordSelect64_eq, ← Nat.sub_add_cancel hk]
    exact select64_eq hsel he
  rw [hrun]
  exact ⟨he, hsel.1, by rw [hsel.2, Nat.sub_add_cancel hk]⟩

/-- Whatever the arrays hold: after a full recomputation of the sums and any changes, each with a
recomputation from a block at or before the first one that it changes, `rank_occ` and `select_run`
are right; so are `rank_occ_fast` and `select_run_fast` after `update_offsets`, and `select64` in
every word. -/
theorem rank_select_exact (ix : Index) (cs : List Change)
    (hc : ChangesFrom cs (ix.updateOffsetsFrom 0)) (word : BitVec 64) :
    ((ix.updateOffsetsFrom 0).changes cs).Exact ∧ ix.updateOffsets.Exact ∧
      ∀ k, 1 ≤ k → k ≤ popcountll word → wordSelect64 word k < 64 ∧
      word.getLsbD (wordSelect64 word k) = true ∧
        cnt (bitsOf word) (wordSelect64 word k) + 1 = k := by
  have hsum : (ix.updateOffsetsFrom 0).Summed :=
    Index.updateOffsetsFrom_summed (fun h0 => absurd rfl h0) (Nat.zero_le _)
  exact ⟨(hsum.changes hc).exact, ix.updateOffsets_summed.exact,
    fun k hk hle => wordSelect64_spec hk hle⟩

/-- Two blocks, of which the second one is changed. -/
theorem rank_select_exact_two :
    let ix : Index := ⟨128, 2, fun _ => 1, fun _ => 2, fun _ => 7, fun _ => 7, fun _ => 0⟩
    ((ix.updateOffsetsFrom 0).changes [⟨Function.update ix.occ 1 5, ix.run, 1⟩]).Exact := by
  intro ix
  refine (rank_select_exact ix [⟨Function.update ix.occ 1 5, ix.run, 1⟩]
    ⟨⟨?_, fun b hb => ⟨?_, rfl⟩⟩, trivial⟩ 0).1
  · decide
  · exact Function.update_of_ne (ne_of_lt hb) ..

/-! ## The filters -/

/-- A bit vector word by word. -/
def wordsOf (b : Bits) : Words := fun i =>
  (BitVec.ofBoolListLE ((List.range 64).map fun j => b (64 * i + j))).setWidth 64

/-- The bits of the words of an array are the array. -/
lemma bitAt_wordsOf (b : Bits) : bitAt (wordsOf b) = b := by
  funext k
  have hk := Nat.mod_lt k (by decide : 0 < 64)
  rw [bitAt, wordsOf, BitVec.getLsbD_setWidth, decide_eq_true hk, Bool.true_and,
    BitVec.getLsbD_ofBoolListLE,
    List.getD_eq_getElem?_getD, List.getElem?_map, List.getElem?_range hk, Option.map_some,
    Option.getD_some, Nat.div_add_mod]

/-- The index of a rank-and-select quotient filter in memory. -/
def ofRsqf (rf : Rsqf.RsqfFilter) : Index :=
  ⟨rf.numSlots, rf.numBlocks, wordsOf rf.occ, wordsOf rf.run, rf.occPrefix, rf.runPrefix,
    rf.offsets⟩

/-- The index of a counting quotient filter in memory. -/
def ofCqf (cf : Cqf.CqfFilter) : Index :=
  ⟨cf.numSlots, cf.numBlocks, wordsOf cf.occ, wordsOf cf.run, cf.occPrefix, cf.runPrefix,
    cf.offsets⟩

/-- The rank of the RSQF over words. -/
lemma ofRsqf_rankOcc (rf : Rsqf.RsqfFilter) (pos : ℕ) :
    (ofRsqf rf).rankOcc pos = rf.rankOcc pos := by
  rw [Index.rankOcc_eq, ofRsqf, bitAt_wordsOf]
  rfl

/-- The select of the RSQF over words. -/
lemma ofRsqf_selectRun (rf : Rsqf.RsqfFilter) (k : ℕ) :
    (ofRsqf rf).selectRun k = rf.selectRun k := by
  rw [Index.selectRun_eq, ofRsqf, bitAt_wordsOf]
  rfl

/-- The rank of the CQF over words. -/
lemma ofCqf_rankOcc (cf : Cqf.CqfFilter) (pos : ℕ) : (ofCqf cf).rankOcc pos = cf.rankOcc pos := by
  rw [Index.rankOcc_eq, ofCqf, bitAt_wordsOf]
  rfl

/-- The select of the CQF over words. -/
lemma ofCqf_selectRun (cf : Cqf.CqfFilter) (k : ℕ) : (ofCqf cf).selectRun k = cf.selectRun k := by
  rw [Index.selectRun_eq, ofCqf, bitAt_wordsOf]
  rfl

/-- The sums over the words of an array. -/
lemma sumWords_wordsOf (b : Bits) (n first : ℕ) (pre : ℕ → ℕ) :
    sumWords (wordsOf b) n first pre = sumBlocks b n first pre := by
  rw [sumWords_eq, bitAt_wordsOf]

/-- The population count of a word made of bits. -/
lemma popcountll_wordsOf (b : Bits) (i : ℕ) :
    popcountll (wordsOf b i) = popcount (Qf.word b i) := by
  rw [← popcount_word, bitAt_wordsOf]

/-- The select in a word made of bits. -/
lemma wordSelect64_wordsOf (b : Bits) (i k : ℕ) :
    wordSelect64 (wordsOf b i) k = select64 (Qf.word b i) k := by
  rw [← select64_word, bitAt_wordsOf]

/-- The block offset of the RSQF over words. -/
lemma ofRsqf_blockOffset (rf : Rsqf.RsqfFilter) (b : ℕ) :
    (ofRsqf rf).blockOffset b = rf.blockOffset b := by
  rw [Index.blockOffset, Rsqf.RsqfFilter.blockOffset]
  simp only [ofRsqf_selectRun]
  rfl

/-- `update_offsets_from` does the same on the index of the filter and in memory. -/
lemma ofRsqf_updateOffsetsFrom (rf : Rsqf.RsqfFilter) (first : ℕ) :
    ofRsqf (rf.updateOffsetsFrom first) = (ofRsqf rf).updateOffsetsFrom first := by
  have hocc :
      ∀ n pre, sumWords (ofRsqf rf).occ n first pre = sumBlocks rf.occ n first pre := fun n pre =>
    sumWords_wordsOf rf.occ n first pre
  have hrun :
      ∀ n pre, sumWords (ofRsqf rf).run n first pre = sumBlocks rf.run n first pre := fun n pre =>
    sumWords_wordsOf rf.run n first pre
  rw [Rsqf.RsqfFilter.updateOffsetsFrom, Index.updateOffsetsFrom]
  simp only [hocc, hrun, ← ofRsqf_blockOffset]
  rfl

/-- The search of the CQF for a block over words. -/
lemma ofCqf_seekBlock (cf : Cqf.CqfFilter) (occSeen : ℕ) : ∀ (n : ℕ) (s : ℕ × ℕ),
    (ofCqf cf).seekBlock occSeen n s = cf.seekBlock occSeen n s
  | 0, _ => rfl
  | n + 1, (block, consumed) => by
    have hpop : popcountll ((ofCqf cf).run block) = popcount (Qf.word cf.run block) :=
      popcountll_wordsOf cf.run block
    rw [Index.seekBlock, Cqf.CqfFilter.seekBlock]
    simp only [hpop, ofCqf_seekBlock cf occSeen n]
    rfl

/-- The offsets of the CQF over words. -/
lemma ofCqf_offsetLoop (cf : Cqf.CqfFilter) : ∀ (n b occSeen : ℕ) (s : ℕ × ℕ) (off : ℕ → ℕ),
    (ofCqf cf).offsetLoop n b occSeen s off = cf.offsetLoop n b occSeen s off
  | 0, _, _, _, _ => rfl
  | n + 1, b, occSeen, s, off => by
    have hpop : popcountll ((ofCqf cf).occ b) = popcount (Qf.word cf.occ b) :=
      popcountll_wordsOf cf.occ b
    have hsel : ∀ i k, wordSelect64 ((ofCqf cf).run i) k = select64 (Qf.word cf.run i) k :=
      fun i k => wordSelect64_wordsOf cf.run i k
    rw [Index.offsetLoop, Cqf.CqfFilter.offsetLoop]
    simp only [hpop, hsel, ofCqf_seekBlock, ofCqf_offsetLoop cf n]
    rfl

/-- `update_offsets` does the same on the index of the filter and in memory. -/
lemma ofCqf_updateOffsets (cf : Cqf.CqfFilter) :
    ofCqf cf.updateOffsets = (ofCqf cf).updateOffsets := by
  have hocc : ∀ n pre, sumWords (ofCqf cf).occ n 0 pre = sumBlocks cf.occ n 0 pre := fun n pre =>
    sumWords_wordsOf cf.occ n 0 pre
  have hrun : ∀ n pre, sumWords (ofCqf cf).run n 0 pre = sumBlocks cf.run n 0 pre := fun n pre =>
    sumWords_wordsOf cf.run n 0 pre
  rw [Cqf.CqfFilter.updateOffsets, Index.updateOffsets]
  simp only [hocc, hrun, ofCqf_offsetLoop]
  rfl

end Draugr.Qf
