import Draugr.Rsqf.Sound

/-!
# Validation and repair

`rsqf_filter_validate` compares the numbers of occupied quotients and run ends and looks up the run
of every occupied quotient. `rsqf_filter_repair_offsets` computes the offset of every block again.
Every filter that a run of clean calls leaves is accepted, and whatever became of its offsets, the
repair makes a filter that answers as it did (`repair_restores`).

A call with `NULL` is left out.
-/

namespace Draugr.Rsqf
open Draugr.Lib Draugr.Qf

namespace RsqfFilter

/-- The second loop of `rsqf_filter_validate`. -/
def validateRuns (rf : RsqfFilter) : List ℕ → Option Bool
  | [] => some true
  | q :: qs =>
    if rf.occ q then
      (rf.findRun q).bind fun
        | none => some false
        | some (_, rend) => if rf.numSlots ≤ rend then some false else validateRuns rf qs
    else validateRuns rf qs

/-- The set bits of all blocks. -/
def popcounts (bv : Bits) (numBlocks : ℕ) : ℕ :=
  ((List.range numBlocks).map fun b => popcount (word bv b)).sum

/-- The loop of `rsqf_filter_repair_offsets`: the number of offsets that changed, and the filter. -/
def repairBlock (s : ℕ × RsqfFilter) (b : ℕ) : ℕ × RsqfFilter :=
  if s.2.offsets b ≠ s.2.blockOffset b then
    (s.1 + 1, { s.2 with offsets := Function.update s.2.offsets b (s.2.blockOffset b) })
  else s

end RsqfFilter

/-- `rsqf_filter_validate`; `none` is a call that does not return. -/
def rsqfFilterValidate (rf : RsqfFilter) : Option Bool :=
  if RsqfFilter.popcounts rf.occ rf.numBlocks ≠ RsqfFilter.popcounts rf.run rf.numBlocks
    then some false
  else rf.validateRuns (List.range rf.numSlots)

/-- `rsqf_filter_repair_offsets`. -/
def rsqfFilterRepairOffsets (rf : RsqfFilter) : ℕ × RsqfFilter :=
  (List.range rf.numBlocks).foldl RsqfFilter.repairBlock (0, rf)

namespace RsqfFilter

variable {rf : RsqfFilter} {q : ℕ} {off : ℕ → ℕ}

/-- The filter with other offsets. -/
def withOffsets (rf : RsqfFilter) (off : ℕ → ℕ) : RsqfFilter := { rf with offsets := off }

/-! ## Validation -/

/-- The bits of the blocks are the bits of the vector. -/
lemma popcounts_eq (bv : Bits) (n : ℕ) : popcounts bv n = cnt bv (64 * n) := by
  induction n with
  | zero => exact cnt_zero.symm
  | succ n ih =>
    rw [popcounts] at ih
    rw [popcounts, List.range_succ, List.map_append, List.sum_append, ih, List.map_singleton,
      List.sum_singleton, popcount, cnt_add_word]
    rfl

/-- A good filter has a run for every occupied quotient. -/
lemma Good.validateRuns (h : rf.Good) : ∀ qs : List ℕ, rf.validateRuns qs = some true
  | [] => rfl
  | q :: qs => by
    rw [RsqfFilter.validateRuns]
    split
    · next ho =>
      obtain ⟨e, -, hs⟩ :=
        h.laid.exists_end (k := cnt rf.occ q) (cnt_lt_of_set ho (h.laid.occ_lt q ho))
      rw [h.findRun ho hs, Option.bind_some]
      dsimp only
      rw [if_neg (not_le.mpr (h.laid.end_lt hs))]
      exact h.validateRuns qs
    · exact h.validateRuns qs

/-- A good filter is valid. -/
lemma Good.validate (h : rf.Good) : rsqfFilterValidate rf = some true := by
  have hpop : popcounts rf.occ rf.numBlocks = popcounts rf.run rf.numBlocks := by
    rw [popcounts_eq, popcounts_eq, ← h.slots]
    exact h.laid.total
  rw [rsqfFilterValidate, if_neg (not_not.mpr hpop)]
  exact h.validateRuns _

/-! ## Repair -/

/-- A block of the loop gets its offset, which counts if it was another one. -/
lemma repairBlock_eq (s : ℕ × RsqfFilter) (b : ℕ) : repairBlock s b =
    (s.1 + [b].countP (fun b => s.2.offsets b != s.2.blockOffset b),
      s.2.withOffsets (Function.update s.2.offsets b (s.2.blockOffset b))) := by
  rw [repairBlock, List.countP_singleton]
  by_cases h : s.2.offsets b = s.2.blockOffset b
  · rw [if_neg (not_not.mpr h), ← h, bne_self_eq_false, if_neg Bool.false_ne_true,
      Function.update_eq_self]
    rfl
  · rw [if_pos h, if_pos (bne_iff_ne.mpr h)]
    rfl

/-- The filter after the repair of the blocks before `n`. -/
lemma repair_eq (rf : RsqfFilter) (n : ℕ) : (List.range n).foldl repairBlock (0, rf) =
    ((List.range n).countP (fun b => rf.offsets b != rf.blockOffset b),
      rf.withOffsets fun b => if b < n then rf.blockOffset b else rf.offsets b) := by
  induction n with
  | zero => rfl
  | succ n ih =>
    rw [List.range_succ, List.foldl_append, ih, List.countP_append, List.foldl_cons, List.foldl_nil,
      repairBlock_eq]
    have hold :
        (rf.withOffsets fun b => if b < n then rf.blockOffset b else rf.offsets b).offsets n =
          rf.offsets n :=
      if_neg (lt_irrefl n)
    have hnew :
      Function.update (fun b => if b < n then rf.blockOffset b else rf.offsets b) n
        (rf.blockOffset n) =
        fun b => if b < n + 1 then rf.blockOffset b else rf.offsets b := by
      funext b
      rw [Function.update_apply]
      by_cases hb : b = n
      · rw [if_pos hb, hb, if_pos (Nat.lt_succ_self n)]
      · rw [if_neg hb]
        exact if_congr (by omega) rfl rfl
    rw [List.countP_singleton, List.countP_singleton, hold, ← hnew]
    rfl

/-- The repair gives every block the offset that `update_offsets_from` computes. -/
lemma repairOffsets_eq (rf : RsqfFilter) : rsqfFilterRepairOffsets rf =
    ((List.range rf.numBlocks).countP (fun b => rf.offsets b != rf.blockOffset b),
      rf.withOffsets fun b => if b < rf.numBlocks then rf.blockOffset b else rf.offsets b) :=
  repair_eq rf rf.numBlocks

/-- Whatever the offsets are, the repair of a good filter is good. -/
lemma Good.repaired (h : rf.Good) (off : ℕ → ℕ) :
    (rsqfFilterRepairOffsets (rf.withOffsets off)).2.Good := by
  rw [repairOffsets_eq]
  refine { h with offs := ?_ }
  intro b hb hne e hs
  have hlt : b < rf.numBlocks := hb
  change (if b < rf.numBlocks then rf.blockOffset b else off b) = _
  rw [if_pos hlt]
  exact blockOffset_eq h.toSized h.occSums h.runSums hlt hne hs

/-- A repaired filter needs no repair. -/
lemma repair_repaired (rf : RsqfFilter) :
    rsqfFilterRepairOffsets (rsqfFilterRepairOffsets rf).2 =
      (0, (rsqfFilterRepairOffsets rf).2) := by
  rw [repairOffsets_eq (rsqfFilterRepairOffsets rf).2, repairOffsets_eq rf]
  dsimp only
  refine Prod.ext ?_ ?_
  · refine List.countP_eq_zero.mpr fun b hb => ?_
    have hlt : b < rf.numBlocks := List.mem_range.mp hb
    change ¬ ((if b < rf.numBlocks then rf.blockOffset b else rf.offsets b) != rf.blockOffset b) =
      true
    rw [if_pos hlt, bne_self_eq_false]
    exact Bool.false_ne_true
  · refine congrArg rf.withOffsets (funext fun b => ?_)
    change (if b < rf.numBlocks then rf.blockOffset b else if b < rf.numBlocks then rf.blockOffset b
      else rf.offsets b) = _
    by_cases hb : b < rf.numBlocks
    · rw [if_pos hb, if_pos hb]
    · rw [if_neg hb]

/-- Good filters that differ in their offsets find the same runs. -/
lemma Good.findRun_withOffsets (h : rf.Good) (h' : (rf.withOffsets off).Good) (q : ℕ) :
    (rf.withOffsets off).findRun q = rf.findRun q := by
  cases ho : rf.occ q with
  | true =>
    obtain ⟨e, -, hs⟩ :=
      h.laid.exists_end (k := cnt rf.occ q) (cnt_lt_of_set ho (h.laid.occ_lt q ho))
    rw [h.findRun ho hs]
    exact h'.findRun ho hs
  | false =>
    have hno : ¬ rf.occ q = true := by
      rw [ho]
      exact Bool.false_ne_true
    rw [RsqfFilter.findRun, RsqfFilter.findRun, if_neg hno]
    exact if_neg hno

/-- Good filters that differ in their offsets answer alike. -/
lemma Good.lookup_withOffsets (h : rf.Good) (h' : (rf.withOffsets off).Good) (hash : UInt64) :
    rsqfFilterLookup (rf.withOffsets off) hash = rsqfFilterLookup rf hash := by
  have hfind := h.findRun_withOffsets h' (rf.quotient hash)
  rw [rsqfFilterLookup, rsqfFilterLookup]
  dsimp only
  rw [← hfind]
  rfl

end RsqfFilter

/-! ## Runs -/

variable {f₀ rf : RsqfFilter}

/-- A clean call leaves a good filter. -/
lemma RsqfFilter.Good.call (h : rf.Good) (op : CountOp UInt64) (hc : StepClean (some rf) op) :
    ∃ rf', (rsqfStep (some rf) op).2 = some rf' ∧ rf'.Good := by
  cases op with
  | insert hash =>
    rcases h.insert_cases hash fun _ => hc rf rfl with hfull | ⟨rf', heq, hi⟩
    · exact ⟨rf, by simp [rsqfStep, hfull], h⟩
    · exact ⟨rf', by simp [rsqfStep, heq], hi.good⟩
  | delete hash =>
    rcases h.delete_cases (hc rf rfl) with hno | ⟨rf', heq, hd⟩
    · exact ⟨rf, by simp [rsqfStep, hno], h⟩
    · exact ⟨rf', by simp [rsqfStep, heq], hd.good⟩

/-- A run of clean calls on a good filter. -/
lemma RsqfFilter.Good.run (h : rf.Good) {ops : List (CountOp UInt64)}
    (hr : Always rsqfStep (fun s _ op => StepClean s op) (some rf) [] ops) :
    ∃ rf', (countRun rsqfStep (some rf) ops).2 = some rf' ∧ rf'.Good :=
  Always.run (I := fun s _ => ∃ rf, s = some rf ∧ rf.Good) (fun s _ op hI hop => by
    obtain ⟨rf, rfl, hg⟩ := hI
    exact hg.call op hop) ops (some rf) [] ⟨rf, rfl, h⟩ hr

/-- The filter that a run of clean calls leaves is valid. If its offsets are lost,
`rsqf_filter_repair_offsets` returns the number of the wrong ones and leaves a filter that is valid,
answers every lookup as the filter did, needs no further repair, and is still valid after every
later run of clean calls. -/
theorem repair_restores {capacity fpBits : ℕ} {ops : List (CountOp UInt64)}
    (hc : rsqfFilterCreate capacity fpBits = some f₀)
    (hr : Always rsqfStep (fun s _ op => StepClean s op) (some f₀) [] ops) :
    ∃ rf, (countRun rsqfStep (some f₀) ops).2 = some rf ∧ rsqfFilterValidate rf = some true ∧
      ∀ off : ℕ → ℕ, ∃ rf', rsqfFilterRepairOffsets { rf with offsets := off } =
          ((List.range rf.numBlocks).countP (fun b => off b != rf.blockOffset b), rf') ∧
        (∀ hash, rsqfFilterLookup rf' hash = rsqfFilterLookup rf hash) ∧
          rsqfFilterRepairOffsets rf' = (0, rf') ∧
        ∀ ops', Always rsqfStep (fun s _ op => StepClean s op) (some rf') [] ops' →
          ∃ rf'', (countRun rsqfStep (some rf') ops').2 = some rf'' ∧
          rsqfFilterValidate rf'' = some true := by
  obtain ⟨rf, hrf, ha⟩ := accounted_run hc hr
  refine ⟨rf, hrf, ha.good.validate, fun off => ?_⟩
  have hgood := ha.good.repaired off
  refine ⟨(rsqfFilterRepairOffsets (rf.withOffsets off)).2, ?_, fun hash => ?_,
    RsqfFilter.repair_repaired _, fun ops' hr' => ?_⟩
  · have hcount : (rsqfFilterRepairOffsets (rf.withOffsets off)).1 =
        (List.range rf.numBlocks).countP fun b => off b != rf.blockOffset b :=
      congrArg Prod.fst (RsqfFilter.repairOffsets_eq (rf.withOffsets off))
    exact Prod.ext hcount rfl
  · rw [RsqfFilter.repairOffsets_eq] at hgood ⊢
    exact ha.good.lookup_withOffsets hgood hash
  · obtain ⟨rf'', hrun, hg⟩ := hgood.run hr'
    exact ⟨rf'', hrun, hg.validate⟩

/-- Two remainders of one quotient, of which the first is deleted; the offsets are lost. -/
theorem repair_restores_two : ∃ f₀ rf, rsqfFilterCreate 64 2 = some f₀ ∧
    (countRun rsqfStep (some f₀) [.insert 21, .insert 22, .delete 21]).2 = some rf ∧
      rsqfFilterValidate rf = some true ∧
      ∃ rf', (rsqfFilterRepairOffsets { rf with offsets := fun _ => 7 }).2 = rf' ∧
        rsqfFilterLookup rf' 22 = rsqfFilterLookup rf 22 := by
  obtain ⟨f₀, hc⟩ : ∃ f₀, rsqfFilterCreate 64 2 = some f₀ := ⟨_, rfl⟩
  obtain ⟨rf, hrf, hvalid, hrepair⟩ := repair_restores hc (stepClean_two hc)
  obtain ⟨rf', heq, hlookup, -⟩ := hrepair fun _ => 7
  exact ⟨f₀, rf, hc, hrf, hvalid, rf', congrArg Prod.snd heq, hlookup 22⟩

end Draugr.Rsqf
