import Draugr.Rsqf.Defs
import Draugr.Rsqf.Slots

/-!
# The index of a filter

A filter is `Good` when its slots are laid out, its prefix sums are the counts and each block's
offset leads to the end of the first run of the block. Rank, select and `find_run` then give what
they stand for, and `update_offsets_from` makes the index right again from the first block that
changed on.
-/

namespace Draugr.Rsqf
open Draugr.Lib Draugr.Qf

namespace RsqfFilter

/-- The offsets of the blocks before `n` lead to the ends of their first runs. -/
def OffsetsRight (rf : RsqfFilter) (n : ℕ) : Prop :=
  ∀ b < n, cnt rf.occ (64 * b) < cnt rf.occ (64 * (b + 1)) → ∀ e,
  IsSelect rf.run (cnt rf.occ (64 * b)) e →
    rf.offsets b = if 254 < e - 64 * b then 255 else e - 64 * b

/-- What holds of a filter apart from the index. -/
structure Sized (rf : RsqfFilter) : Prop where
  slots : rf.numSlots = 64 * rf.numBlocks
  small : rf.numSlots ≤ 2 ^ 64
  bits_pos : 0 < rf.remainderBits
  bits : rf.remainderBits ≤ 64
  laid : Laid rf.numSlots rf.occ rf.run rf.phys
  count : rf.count = cnt rf.phys rf.numSlots

/-- A filter with a right index. -/
structure Good (rf : RsqfFilter) : Prop extends Sized rf where
  occSums : Prefixed rf.occ rf.occPrefix rf.numBlocks
  runSums : Prefixed rf.run rf.runPrefix rf.numBlocks
  offs : rf.OffsetsRight rf.numBlocks

variable {rf : RsqfFilter} {q e k p fb b need : ℕ}

/-! ## Recomputing the index -/

/-- Values written one after the other. -/
lemma foldl_update {g off : ℕ → ℕ} : ∀ (n fb b : ℕ),
    (List.range' fb n).foldl (fun off b => Function.update off b (g b)) off b =
      if fb ≤ b ∧ b < fb + n then g b else off b
  | 0, fb, b => by simp
  | n + 1, fb, b => by
    rw [List.range'_1_concat, List.foldl_append, List.foldl_cons, List.foldl_nil]
    by_cases hb : b = fb + n
    · subst hb
      simp
    · rw [Function.update_of_ne hb, foldl_update n fb b]
      exact if_congr (by omega) rfl rfl

/-- The offset of a block, from right prefix sums. -/
lemma blockOffset_eq (h : rf.Sized) (hocc : Prefixed rf.occ rf.occPrefix rf.numBlocks)
    (hrun : Prefixed rf.run rf.runPrefix rf.numBlocks) (hb : b < rf.numBlocks)
    (hne : cnt rf.occ (64 * b) < cnt rf.occ (64 * (b + 1)))
    (hs : IsSelect rf.run (cnt rf.occ (64 * b)) e) :
    rf.blockOffset b = if 254 < e - 64 * b then 255 else e - 64 * b := by
  have he : e < 64 * rf.numBlocks := h.slots ▸ h.laid.end_lt hs
  have hsel : rf.selectRun (cnt rf.occ (64 * b) + 1) = e := selectRun_eq hrun hs he
  unfold blockOffset
  rw [hocc b hb.le, hocc (b + 1) hb, if_pos hne]
  simp only [hsel]
  rw [show (if b * 64 < e then e - b * 64 else 0) = e - 64 * b by split_ifs <;> omega]

/-- `update_offsets_from` makes the index right if it is right before the first block. -/
lemma good_updateOffsetsFrom (h : rf.Sized) (hfb : fb ≤ rf.numBlocks)
    (hocc : Prefixed rf.occ rf.occPrefix fb ∨ fb = 0)
    (hrun : Prefixed rf.run rf.runPrefix fb ∨ fb = 0)
    (hoffs : rf.OffsetsRight fb) : (rf.updateOffsetsFrom fb).Good := by
  have hsum : ∀ {bv : Bits} {pre : ℕ → ℕ}, Prefixed bv pre fb ∨ fb = 0 →
      Prefixed bv
      (sumBlocks bv (rf.numBlocks - fb) fb (if fb = 0 then Function.update pre 0 0 else pre))
        rf.numBlocks := by
    intro bv pre hpre
    have hstart : Prefixed bv (if fb = 0 then Function.update pre 0 0 else pre) fb := by
      by_cases h0 : fb = 0
      · rw [if_pos h0]
        intro b hb
        rw [show b = 0 by omega, Function.update_self]
        exact cnt_zero.symm
      · rw [if_neg h0]
        exact hpre.resolve_right h0
    have := hstart.sumBlocks (rf.numBlocks - fb) fb
    rwa [show fb + (rf.numBlocks - fb) = rf.numBlocks by omega] at this
  have hocc' := hsum hocc
  have hrun' := hsum hrun
  refine { h with occSums := hocc', runSums := hrun', offs := ?_ }
  intro b hb hne e hs
  change b < rf.numBlocks at hb
  change (List.range' fb (rf.numBlocks - fb)).foldl _ rf.offsets b = _
  rw [foldl_update]
  by_cases hbf : fb ≤ b
  · rw [if_pos ⟨hbf, by omega⟩]
    exact blockOffset_eq { h with } hocc' hrun' hb hne hs
  · rw [if_neg (by omega)]
    exact hoffs b (by omega) hne e hs

/-- `update_offsets_from` after a change of occupied bits from block `fb` on and of run ends from
`x` on, if all runs of the quotients before block `fb` end before `x`. -/
lemma Good.reindexed {rf' : RsqfFilter} (h : rf.Good) (h' : rf'.Sized)
    (hnb : rf'.numBlocks = rf.numBlocks)
    (hop : rf'.occPrefix = rf.occPrefix) (hrp : rf'.runPrefix = rf.runPrefix)
    (hof : rf'.offsets = rf.offsets)
    (hfb : fb ≤ rf.numBlocks) {x : ℕ} (hocc : ∀ i < 64 * fb, rf'.occ i = rf.occ i)
    (hx : 64 * fb ≤ x)
    (hrun : ∀ i < x, rf'.run i = rf.run i) (hc : cnt rf.occ (64 * fb) ≤ cnt rf.run x) :
    (rf'.updateOffsetsFrom fb).Good := by
  refine good_updateOffsetsFrom h' (hnb ▸ hfb) (.inl ?_) (.inl ?_) ?_
  · rw [hop]
    exact (h.occSums.mono hfb).congr hocc
  · rw [hrp]
    exact (h.runSums.mono hfb).congr fun i hi => hrun i (by omega)
  · intro b hb hne e hs
    have hlow : cnt rf'.occ (64 * b) = cnt rf.occ (64 * b) :=
      cnt_congr fun i hi => hocc i (by omega)
    have hhigh : cnt rf'.occ (64 * (b + 1)) = cnt rf.occ (64 * (b + 1)) :=
      cnt_congr fun i hi => hocc i (by omega)
    rw [hlow] at hne hs
    rw [hhigh] at hne
    have hle : cnt rf.occ (64 * (b + 1)) ≤ cnt rf.occ (64 * fb) := cnt_mono (by omega)
    have hex : e < x := by
      rw [hs.lt_iff, cnt_congr hrun]
      omega
    rw [hof]
    refine h.offs b (by omega) hne e ⟨?_, ?_⟩
    · rw [← hrun e hex]
      exact hs.1
    · rw [← hs.2]
      exact (cnt_congr fun i hi => hrun i (by omega)).symm

/-! ## Rank, select and `find_run` -/

namespace Good

/-- `rank_occ` counts the occupied quotients. -/
lemma rankOcc (h : rf.Good) (hq : q < rf.numSlots) : rf.rankOcc q = cnt rf.occ (q + 1) :=
  rankOcc_eq h.occSums (h.slots ▸ hq)

/-- `select_run` finds the run end. -/
lemma selectRun (h : rf.Good) (hs : IsSelect rf.run k e) : rf.selectRun (k + 1) = e :=
  selectRun_eq h.runSums hs (h.slots ▸ h.laid.end_lt hs)

/-- The scan for run ends finds the run end that is `need` further on. -/
lemma scanRunEnds (h : rf.Good) : ∀ {fuel need pos : ℕ},
    IsSelect rf.run (cnt rf.run (pos + 1) + need) e →
    need + 1 + (rf.numBlocks - (pos + 1) / 64) ≤ fuel → rf.scanRunEnds fuel (need + 1) pos = some e
  | 0, need, pos, _, hf => by omega
  | fuel + 1, need, pos, hs, hf => by
    have hns := h.slots
    have he := h.laid.end_lt hs
    have hpos : pos + 1 ≤ e := by
      by_contra hlt
      have := hs.lt_iff.mp (show e < pos + 1 by omega)
      omega
    rw [RsqfFilter.scanRunEnds]
    simp only [if_neg (show ¬ rf.numSlots ≤ pos + 1 by omega),
      if_neg (show ¬ rf.numBlocks ≤ (pos + 1) / 64 by omega)]
    -- the word from `pos + 1` on
    have hword :
      ∀ i, (decide ((pos + 1) % 64 + i < 64) && word rf.run ((pos + 1) / 64) ((pos + 1) % 64 + i)) =
        (decide ((pos + 1) % 64 + i < 64) && rf.run (pos + 1 + i)) := by
      intro i
      rw [word, show 64 * ((pos + 1) / 64) + ((pos + 1) % 64 + i) = pos + 1 + i by omega]
    simp only [hword]
    split
    · -- the next run end is in this word
      rename_i skip hskip
      obtain ⟨hbit, -, hlow⟩ := ctz_eq_some.mp hskip
      obtain ⟨hin, hbit⟩ := Bool.and_eq_true_iff.mp hbit
      have hin := of_decide_eq_true hin
      have hclear : ∀ i, pos + 1 ≤ i → i < pos + 1 + skip → rf.run i = false := by
        intro i h1 h2
        have := hlow (i - (pos + 1)) (by omega)
        rw [show pos + 1 + (i - (pos + 1)) = i by omega, decide_eq_true (by omega),
          Bool.true_and] at this
        exact this
      have hc := cnt_eq_of_clear (show pos + 1 ≤ pos + 1 + skip by omega) hclear
      have hc1 := cnt_succ_of_set hbit
      cases need with
      | zero =>
        rw [RsqfFilter.scanRunEnds]
        · exact congrArg some (IsSelect.unique ⟨hbit, hc⟩ hs)
      | succ need =>
        refine scanRunEnds h ?_ (by omega)
        rw [show cnt rf.run (pos + 1 + skip + 1) + need = cnt rf.run (pos + 1) +
          (need + 1) by omega]
        exact hs
    · -- no run end is left in this word
      rename_i hskip
      have hclear : ∀ i, pos + 1 ≤ i → i < 64 * ((pos + 1) / 64 + 1) → rf.run i = false := by
        intro i h1 h2
        have := ctz_eq_none.mp hskip (i - (pos + 1)) (by omega)
        rw [show pos + 1 + (i - (pos + 1)) = i by omega, decide_eq_true (by omega),
          Bool.true_and] at this
        exact this
      have hc := cnt_eq_of_clear (show pos + 1 ≤ 64 * ((pos + 1) / 64 + 1) by omega) hclear
      refine scanRunEnds h ?_ (by omega)
      rw [show ((pos + 1) / 64 + 1) * 64 - 1 + 1 = 64 * ((pos + 1) / 64 + 1) by omega, hc]
      exact hs

/-- `rank_select` finds the run end of an occupied quotient. -/
lemma rankSelect (h : rf.Good) (hq : rf.occ q = true) (hs : IsSelect rf.run (cnt rf.occ q) e) :
    rf.rankSelect q = some e := by
  have hns := h.slots
  have hqns := h.laid.occ_lt q hq
  have he := h.laid.end_lt hs
  have hqb : cnt rf.occ (64 * (q / 64)) ≤ cnt rf.occ q := cnt_mono (by omega)
  have hnext : cnt rf.occ (q + 1) ≤ cnt rf.occ (64 * (q / 64 + 1)) := cnt_mono (by omega)
  have hqs := cnt_succ_of_set hq
  -- the run end of the first occupied quotient of the block
  obtain ⟨e₁, he₁, hs₁⟩ := h.laid.exists_end (k := cnt rf.occ (64 * (q / 64)))
    (by have := cnt_mono (b := rf.occ) (show q + 1 ≤ rf.numSlots by omega); omega)
  have hbase : 64 * (q / 64) ≤ e₁ := h.laid.le_end hs₁
  have hoff := h.offs (q / 64) (by omega) (by omega) e₁ hs₁
  unfold RsqfFilter.rankSelect
  simp only [hoff]
  by_cases hbig : 254 < e₁ - 64 * (q / 64)
  · rw [if_pos (by rw [if_pos hbig]), h.rankOcc hqns, hqs, h.selectRun hs]
  rw [if_neg (by rw [if_neg hbig]; omega), if_neg hbig]
  by_cases hqbase : q = q / 64 * 64
  · rw [if_pos hqbase]
    rw [show 64 * (q / 64) = q by omega] at hs₁ ⊢
    rw [hs₁.unique hs]
    have := h.laid.le_end hs
    exact congrArg some (by omega)
  rw [if_neg hqbase]
  have hd : rf.rankOcc (q - 1) - (if 0 < q / 64 * 64 then rf.rankOcc (q / 64 * 64 - 1) else 0) =
      cnt rf.occ q - cnt rf.occ (64 * (q / 64)) := by
    rw [h.rankOcc (by omega), show q - 1 + 1 = q by omega]
    split_ifs with h0
    · rw [h.rankOcc (by omega), show q / 64 * 64 - 1 + 1 = 64 * (q / 64) by omega]
    · rw [show 64 * (q / 64) = 0 by omega, cnt_zero]
  rw [hd]
  rw [show q / 64 * 64 + (e₁ - 64 * (q / 64)) = e₁ by omega]
  by_cases h0 : cnt rf.occ q - cnt rf.occ (64 * (q / 64)) = 0
  · rw [if_pos h0]
    rw [show cnt rf.occ (64 * (q / 64)) = cnt rf.occ q by omega] at hs₁
    rw [hs₁.unique hs]
  · rw [if_neg h0]
    obtain ⟨need, hneed⟩ := Nat.exists_eq_succ_of_ne_zero h0
    rw [hneed]
    refine h.scanRunEnds ?_ ?_
    · rw [cnt_succ_of_set hs₁.1, hs₁.2, show cnt rf.occ (64 * (q / 64)) + 1 + need =
        cnt rf.occ q by omega]
      exact hs
    · have : need ≤ need * (rf.numBlocks + 1) := Nat.le_mul_of_pos_right _ (Nat.succ_pos _)
      rw [Nat.succ_mul]
      omega

/-- The first slot of a range. -/
lemma runStart (h : rf.Good) (hs : IsSelect rf.run k e) :
    rf.runStart (k + 1) ≤ e ∧ ∀ p, rf.runStart (k + 1) ≤ p ∧ p ≤ e ↔ cnt rf.run p = k := by
  have he := h.laid.end_lt hs
  have hsmall := h.small
  have hle : ∀ p, p ≤ e ↔ cnt rf.run p ≤ k := by
    intro p
    have := hs.lt_iff (p := p)
    omega
  cases k with
  | zero =>
    refine ⟨Nat.zero_le _, fun p => ?_⟩
    have := hle p
    rw [RsqfFilter.runStart, if_pos rfl]
    omega
  | succ k =>
    obtain ⟨e₀, he₀, hs₀⟩ :=
      exists_isSelect (b := rf.run) (k := k) (n := e) (by rw [hs.2]; exact Nat.lt_succ_self k)
    have hk : k + 1 ≤ e := by
      have : cnt rf.run e ≤ e := Nat.count_le _
      rw [hs.2] at this
      exact this
    have hstart : rf.runStart (k + 1 + 1) = e₀ + 1 := by
      rw [RsqfFilter.runStart, if_neg (by omega),
        show (k + 1 + 1 + (2 ^ 64 - 1)) % 2 ^ 64 = k + 1 by
          omega, h.selectRun hs₀, Nat.mod_eq_of_lt (by omega)]
    rw [hstart]
    refine ⟨he₀, fun p => ?_⟩
    have h1 := hle p
    have h2 := hs₀.lt_iff (p := p)
    omega

/-- `find_run` for an occupied quotient. -/
lemma findRun (h : rf.Good) (hq : rf.occ q = true) (hs : IsSelect rf.run (cnt rf.occ q) e) :
    rf.findRun q = some (some (rf.runStart (cnt rf.occ q + 1), e)) := by
  rw [RsqfFilter.findRun, if_pos hq, h.rankSelect hq hs, h.rankOcc (h.laid.occ_lt q hq),
    cnt_succ_of_set hq]
  rfl

/-- `find_run` for a quotient that is not occupied, at a slot where a run ends. -/
lemma findRun_of_run (h : rf.Good) (hq : rf.occ q = false) (hrun : rf.run q = true) :
    ∃ k e, cnt rf.occ q = k + 1 ∧ IsSelect rf.run k e ∧ q ≤ e ∧
      rf.findRun q = some (some (rf.runStart (k + 1), e)) := by
  have hphys := h.laid.run_phys q hrun
  have hqns := h.laid.phys_lt q hphys
  have hb := h.laid.behind q hphys
  rw [cnt_succ_of_clear hq] at hb
  obtain ⟨k, hk⟩ := Nat.exists_eq_add_of_lt hb
  obtain ⟨e, he, hs⟩ := h.laid.exists_end (k := cnt rf.run q + k)
    (by have := cnt_mono (b := rf.occ) hqns.le; omega)
  refine ⟨cnt rf.run q + k, e, hk, hs, ?_, ?_⟩
  · by_contra hlt
    have := hs.lt_iff.mp (not_le.mp hlt)
    omega
  · unfold RsqfFilter.findRun
    rw [if_neg (by simp [hq]), if_pos hrun, h.rankOcc hqns, cnt_succ_of_clear hq, hk]
    simp only [if_neg (Nat.succ_ne_zero _)]
    rw [h.selectRun hs]

end Good
end RsqfFilter
end Draugr.Rsqf
