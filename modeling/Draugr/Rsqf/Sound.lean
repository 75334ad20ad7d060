import Draugr.Rsqf.Delete

/-!
# What a search finds

A search compares every slot of a range with the remainder, and two kinds of slots in it are not the
hash's own. A range begins behind the run end before it, so it may begin with free slots, which read
as the remainder
0. And for a quotient without a run whose slot is the end of another run, it is the range of that
   run. `Clean` excludes both. In a run whose calls are clean a search finds exactly the
   fingerprints that are present (`lookup_sound_iff`), and `rank_select` agrees with `select_run`
   (`rankSelect_eq_selectRun`).
-/

namespace Draugr.Rsqf
open Draugr.Lib Draugr.Qf

namespace RsqfFilter

variable {rf rf' : RsqfFilter} {q r k e p : ℕ}

/-- A slot of the range that `find_run` gives for `q` reads as the remainder `r`. -/
def Matches (rf : RsqfFilter) (q r : ℕ) : Prop :=
  ∃ rstart rend p, rf.findRun q = some (some (rstart, rend)) ∧ rstart ≤ p ∧ p ≤ rend ∧
  rf.remGet p = r

/-- If the quotient `q` has a run, then no free slot between the run end before it and its end reads
as `r`. If it has none but its slot is a run end, then no slot reads as `r` in the run of the last
quotient before it. -/
structure Clean (rf : RsqfFilter) (q r : ℕ) : Prop where
  used : rf.occ q = true → ∀ p, cnt rf.run p = cnt rf.occ q → rf.remGet p = r → rf.phys p = true
  own : rf.occ q = false → rf.run q = true → ∀ p, cnt rf.run p + 1 = cnt rf.occ q → rf.remGet p ≠ r

/-- What `find_run` gives: nothing, or the range that ends at the run end of `q` or of the last
quotient before it. -/
lemma Good.findRun_cases (h : rf.Good) :
    rf.findRun q = some none ∧ rf.occ q = false ∧ rf.run q = false ∨
    ∃ k e, IsSelect rf.run k e ∧
      (rf.occ q = true ∧ k = cnt rf.occ q ∨ rf.occ q = false ∧ rf.run q = true ∧
        k + 1 = cnt rf.occ q) ∧
      rf.findRun q = some (some (rf.runStart (k + 1), e)) := by
  cases ho : rf.occ q with
  | true =>
    obtain ⟨e, -, hs⟩ :=
      h.laid.exists_end (k := cnt rf.occ q) (cnt_lt_of_set ho (h.laid.occ_lt q ho))
    exact .inr ⟨_, e, hs, .inl ⟨rfl, rfl⟩, h.findRun ho hs⟩
  | false =>
    cases hr : rf.run q with
    | true =>
      obtain ⟨k, e, hk, hs, -, hfind⟩ := h.findRun_of_run ho hr
      exact .inr ⟨k, e, hs, .inr ⟨rfl, rfl, hk.symm⟩, hfind⟩
    | false =>
      left
      rw [RsqfFilter.findRun, if_neg (by simp [ho]), if_neg (by simp [hr])]
      exact ⟨rfl, rfl, rfl⟩

/-- The range of a run end, without going around the end of the table. -/
lemma Good.matches_iff (h : rf.Good) (hs : IsSelect rf.run k e)
    (hfind : rf.findRun q = some (some (rf.runStart (k + 1), e))) :
    rf.Matches q r ↔ ∃ p, cnt rf.run p = k ∧ rf.remGet p = r := by
  obtain ⟨-, hrange⟩ := h.runStart hs
  constructor
  · rintro ⟨a, b, p, hf, h1, h2, hr⟩
    rw [hfind] at hf
    cases hf
    exact ⟨p, (hrange p).mp ⟨h1, h2⟩, hr⟩
  · rintro ⟨p, hp, hr⟩
    obtain ⟨h1, h2⟩ := (hrange p).mpr hp
    exact ⟨_, _, p, hfind, h1, h2, hr⟩

/-- Where a run ends the filter is not empty. -/
lemma Good.count_pos (h : rf.Good) (hs : IsSelect rf.run k e) : 0 < rf.count := by
  rw [h.count]
  have hlt := cnt_lt_of_set (h.laid.run_phys e hs.1) (h.laid.end_lt hs)
  omega

/-- A clean match is a stored fingerprint. -/
lemma Good.stored_of_matches (h : rf.Good) (hc : rf.Clean q r) (hm : rf.Matches q r) :
    0 < rf.stored q r := by
  rcases h.findRun_cases (q := q) with ⟨hnone, -⟩ | ⟨k, e, hs, ⟨ho, rfl⟩ | ⟨ho, hrun, hk⟩, hfind⟩
  · obtain ⟨a, b, p, hf, -⟩ := hm
    rw [hnone] at hf
    cases hf
  · obtain ⟨p, hp, hr⟩ := (h.matches_iff hs hfind).mp hm
    have hphys := hc.used ho p hp hr
    have hmark : holds rf.occ rf.run rf.phys rf.remGet q r p = true :=
      holds_iff.mpr ⟨ho, hphys, hr, hp⟩
    have hlt := cnt_lt_of_set hmark (h.laid.phys_lt p hphys)
    unfold stored
    omega
  · obtain ⟨p, hp, hr⟩ := (h.matches_iff hs hfind).mp hm
    exact absurd hr (hc.own ho hrun p (by omega))

/-- Without a match the search is clean. -/
lemma Good.clean_of_not_matches (h : rf.Good) (hm : ¬ rf.Matches q r) : rf.Clean q r := by
  rcases h.findRun_cases with ⟨-, ho, hrun⟩ | ⟨k, e, hs, ⟨ho, rfl⟩ | ⟨ho, hrun, hk⟩, hfind⟩
  · exact ⟨fun h => absurd (ho.symm.trans h) Bool.false_ne_true,
      fun _ h => absurd (hrun.symm.trans h) Bool.false_ne_true⟩
  · rw [h.matches_iff hs hfind] at hm
    exact ⟨fun _ p hp hr => absurd ⟨p, hp, hr⟩ hm,
      fun h => absurd (h.symm.trans ho) Bool.false_ne_true⟩
  · rw [h.matches_iff hs hfind] at hm
    exact ⟨fun h => absurd (ho.symm.trans h) Bool.false_ne_true,
      fun _ _ p hp hr => hm ⟨p, by omega, hr⟩⟩

/-- In a clean search of a quotient with a run, the slots that read as the remainder have data. -/
lemma Good.inUse_of_clean (h : rf.Good) (ho : rf.occ q = true) (hc : rf.Clean q r) :
    rf.InUse q r := by
  intro rstart rend hfind p h1 h2 hr
  obtain ⟨e, -, hs⟩ := h.laid.exists_end (k := cnt rf.occ q) (cnt_lt_of_set ho (h.laid.occ_lt q ho))
  rw [h.findRun ho hs] at hfind
  cases hfind
  exact hc.used ho p (((h.runStart hs).2 p).mp ⟨h1, h2⟩) hr

/-- A stored fingerprint has a run. -/
lemma occ_of_stored (hs : 0 < rf.stored q r) : rf.occ q = true := by
  obtain ⟨p, -, hmark, -⟩ := exists_isSelect hs
  exact (holds_iff.mp hmark).1

end RsqfFilter

open RsqfFilter

variable {f₀ rf rf' : RsqfFilter} {evs : List (CountEvent UInt64)}

/-- `rsqf_filter_lookup` says whether there is a match. -/
lemma RsqfFilter.Good.lookup_iff (h : rf.Good) (hash : UInt64) :
    rsqfFilterLookup rf hash = some true ↔ rf.Matches (rf.quotient hash) (rf.remainder hash) := by
  unfold rsqfFilterLookup
  rcases h.findRun_cases with ⟨hnone, -⟩ | ⟨k, e, hs, -, hfind⟩
  · have hno : ¬ rf.Matches (rf.quotient hash) (rf.remainder hash) := by
      rintro ⟨a, b, p, hf, -⟩
      rw [hnone] at hf
      cases hf
    refine iff_of_false (fun heq => ?_) hno
    split at heq
    · cases heq
    · dsimp only at heq
      rw [hnone] at heq
      split at heq <;> cases heq
  · have hcount := h.count_pos hs
    obtain ⟨hse, hrange⟩ := h.runStart hs
    rw [h.matches_iff hs hfind, if_neg (by omega)]
    dsimp only
    rw [if_neg (not_le.mpr (quotient_lt (Nat.zero_lt_of_lt (h.laid.end_lt hs)) hash)), hfind,
      Option.map_some]
    dsimp only
    rw [if_pos hse, Option.some.injEq, List.any_eq_true]
    constructor
    · rintro ⟨p, hp, hr⟩
      have hp := List.mem_range'_1.mp hp
      exact ⟨p, (hrange p).mp ⟨hp.1, by omega⟩, beq_iff_eq.mp hr⟩
    · rintro ⟨p, hp, hr⟩
      have hp := (hrange p).mpr hp
      exact ⟨p, List.mem_range'_1.mpr ⟨hp.1, by omega⟩, beq_iff_eq.mpr hr⟩

/-- `rsqf_filter_delete` deletes if there is a match. -/
lemma RsqfFilter.Good.delete_iff (h : rf.Good) (hash : UInt64) :
    (∃ rf', rsqfFilterDelete rf hash = some (.ok, rf')) ∧
        rf.Matches (rf.quotient hash) (rf.remainder hash) ∨
      rsqfFilterDelete rf hash = some (.notFound, rf) ∧
        ¬ rf.Matches (rf.quotient hash) (rf.remainder hash) := by
  unfold rsqfFilterDelete
  rcases h.findRun_cases with ⟨hnone, -⟩ | ⟨k, e, hs, -, hfind⟩
  · right
    constructor
    · split
      · rfl
      · dsimp only
        rw [hnone]
        rfl
    · rintro ⟨a, b, p, hf, -⟩
      rw [hnone] at hf
      cases hf
  · have hcount := h.count_pos hs
    obtain ⟨hse, hrange⟩ := h.runStart hs
    rw [h.matches_iff hs hfind, if_neg (by omega)]
    dsimp only
    rw [hfind, Option.map_some]
    dsimp only
    rw [if_pos hse, map_mod_range hse (h.laid.end_lt hs)]
    cases hf : (List.range' (rf.runStart (k + 1)) (e + 1 - rf.runStart (k + 1))).find?
        fun idx => rf.remGet idx == rf.remainder hash with
    | none =>
      refine .inr ⟨rfl, fun ⟨p, hp, hr⟩ => ?_⟩
      have hp := (hrange p).mpr hp
      have hno := List.find?_eq_none.mp hf p (List.mem_range'_1.mpr ⟨hp.1, by omega⟩)
      exact hno (beq_iff_eq.mpr hr)
    | some i =>
      have hi := List.mem_range'_1.mp (List.mem_of_find?_eq_some hf)
      have hr : rf.remGet i = rf.remainder hash := by simpa using List.find?_some hf
      exact .inl ⟨⟨_, rfl⟩, i, (hrange i).mp ⟨hi.1, by omega⟩, hr⟩

/-- What a clean `rsqf_filter_delete` does. -/
lemma RsqfFilter.Good.delete_cases (h : rf.Good) {hash : UInt64}
    (hc : rf.Clean (rf.quotient hash) (rf.remainder hash)) :
    rsqfFilterDelete rf hash = some (.notFound, rf) ∨
      ∃ rf', rsqfFilterDelete rf hash = some (.ok, rf') ∧
        Deleted rf (rf.quotient hash) (rf.remainder hash) rf' := by
  rcases h.delete_iff hash with ⟨-, hm⟩ | ⟨heq, -⟩
  · have hs := h.stored_of_matches hc hm
    exact .inr (h.delete hs (h.inUse_of_clean (occ_of_stored hs) hc))
  · exact .inl heq

/-! ## Runs -/

/-- A call meets neither a hole nor a foreign run: an insertion of a quotient without a run no hole
before the end of the run before, a deletion only slots of its own run. -/
def StepClean (s : Option RsqfFilter) : CountOp UInt64 → Prop
  | .insert hash => ∀ rf ∈ s, rf.GapFree (rf.quotient hash)
  | .delete hash => ∀ rf ∈ s, rf.Clean (rf.quotient hash) (rf.remainder hash)

/-- What holds after some events: each fingerprint is stored as often as it was inserted less
deleted. -/
structure Accounted (f₀ rf : RsqfFilter) (evs : List (CountEvent UInt64)) : Prop where
  good : rf.Good
  slots : rf.numSlots = f₀.numSlots
  bits : rf.remainderBits = f₀.remainderBits
  stored : ∀ q r, rf.stored q r + removed (hasFp f₀ (q, r)) evs = added (hasFp f₀ (q, r)) evs

/-- The quotient of a hash is that of the created filter. -/
lemma Accounted.quotient (h : Accounted f₀ rf evs) (hash : UInt64) :
    rf.quotient hash = f₀.quotient hash := by
  unfold RsqfFilter.quotient
  rw [h.slots, h.bits]

/-- The remainder of a hash is that of the created filter. -/
lemma Accounted.remainder (h : Accounted f₀ rf evs) (hash : UInt64) :
    rf.remainder hash = f₀.remainder hash := by
  unfold RsqfFilter.remainder
  rw [h.bits]

/-- A fingerprint is present when it is stored. -/
lemma Accounted.present_iff (h : Accounted f₀ rf evs) (hash : UInt64) :
    Present f₀ evs hash ↔ 0 < rf.stored (rf.quotient hash) (rf.remainder hash) := by
  have hst := h.stored (f₀.quotient hash) (f₀.remainder hash)
  rw [h.quotient, h.remainder]
  unfold Present
  omega

/-- A call that fails changes no account. -/
lemma Accounted.failed (h : Accounted f₀ rf evs) (op : CountOp UInt64) :
    Accounted f₀ rf (evs ++ [⟨op, false⟩]) := by
  refine ⟨h.good, h.slots, h.bits, fun q r => ?_⟩
  rw [added_append, removed_append]
  cases op with
  | insert hash =>
    rw [added_single_insert, removed_single_insert]
    simpa using h.stored q r
  | delete hash =>
    rw [added_single_delete, removed_single_delete]
    simpa using h.stored q r

/-- One clean call. -/
lemma Accounted.call (h : Accounted f₀ rf evs) (op : CountOp UInt64)
    (hc : StepClean (some rf) op) : ∃ rf', (rsqfStep (some rf) op).2 = some rf' ∧
      Accounted f₀ rf' (evs ++ [⟨op, (rsqfStep (some rf) op).1⟩]) := by
  cases op with
  | insert hash =>
    rcases h.good.insert_cases hash fun _ => hc rf rfl with hfull | ⟨rf', heq, hi⟩
    · have hstep : rsqfStep (some rf) (.insert hash) = (false, some rf) := by simp [rsqfStep, hfull]
      rw [hstep]
      exact ⟨rf, rfl, h.failed _⟩
    · have hstep : rsqfStep (some rf) (.insert hash) = (true, some rf') := by simp [rsqfStep, heq]
      rw [hstep]
      refine ⟨rf', rfl, hi.good, hi.slots.trans h.slots, hi.bits.trans h.bits, fun q r => ?_⟩
      rw [added_append, removed_append, added_single_insert, removed_single_insert, hi.stored,
        h.quotient, h.remainder, Bool.true_and, hasFp_toNat]
      have hst := h.stored q r
      omega
  | delete hash =>
    rcases h.good.delete_cases (hc rf rfl) with hno | ⟨rf', heq, hd⟩
    · have hstep : rsqfStep (some rf) (.delete hash) = (false, some rf) := by simp [rsqfStep, hno]
      rw [hstep]
      exact ⟨rf, rfl, h.failed _⟩
    · have hstep : rsqfStep (some rf) (.delete hash) = (true, some rf') := by simp [rsqfStep, heq]
      rw [hstep]
      refine ⟨rf', rfl, hd.good, hd.slots.trans h.slots, hd.bits.trans h.bits, fun q r => ?_⟩
      rw [added_append, removed_append, added_single_delete, removed_single_delete, Bool.true_and,
        hasFp_toNat]
      have h1 := h.stored q r
      have h2 := hd.stored q r
      rw [h.quotient, h.remainder] at h2
      omega

/-- A created filter has no accounts. -/
lemma accounted_create {capacity fpBits : ℕ} (hc : rsqfFilterCreate capacity fpBits = some f₀) :
    Accounted f₀ f₀ [] := by
  obtain ⟨hg, hs, hb, hst, -⟩ := balanced_create hc
  exact ⟨hg, hs, hb, hst⟩

/-- A run of clean calls. -/
lemma accounted_run {capacity fpBits : ℕ} {ops : List (CountOp UInt64)}
    (hc : rsqfFilterCreate capacity fpBits = some f₀)
    (hr : Always rsqfStep (fun s _ op => StepClean s op) (some f₀) [] ops) :
    ∃ rf, (countRun rsqfStep (some f₀) ops).2 = some rf ∧
      Accounted f₀ rf (countRun rsqfStep (some f₀) ops).1 := by
  exact Always.run (I := fun s evs => ∃ rf, s = some rf ∧ Accounted f₀ rf evs)
    (fun s evs op hI hop => by
    obtain ⟨rf, rfl, ha⟩ := hI
    exact ha.call op hop) ops (some f₀) [] ⟨f₀, rfl, accounted_create hc⟩ hr

/-- After a run of clean calls, `rsqf_filter_lookup` and `rsqf_filter_delete` find only what is
present exactly if the search is clean or the fingerprint is present. -/
theorem lookup_sound_iff {capacity fpBits : ℕ} {f₀ : RsqfFilter} {ops : List (CountOp UInt64)}
    (hc : rsqfFilterCreate capacity fpBits = some f₀)
    (hr : Always rsqfStep (fun s _ op => StepClean s op) (some f₀) [] ops) :
    ∃ rf, (countRun rsqfStep (some f₀) ops).2 = some rf ∧ ∀ hash,
      ((rsqfFilterLookup rf hash = some true →
        Present f₀ (countRun rsqfStep (some f₀) ops).1 hash) ↔
        rf.Clean (rf.quotient hash) (rf.remainder hash) ∨
        Present f₀ (countRun rsqfStep (some f₀) ops).1 hash) ∧
      ((∀ rf', rsqfFilterDelete rf hash = some (.ok, rf') →
          Present f₀ (countRun rsqfStep (some f₀) ops).1 hash) ↔
        rf.Clean (rf.quotient hash) (rf.remainder hash) ∨
          Present f₀ (countRun rsqfStep (some f₀) ops).1 hash) := by
  obtain ⟨rf, hrf, ha⟩ := accounted_run hc hr
  refine ⟨rf, hrf, fun hash => ?_⟩
  have hsound : (rf.Matches (rf.quotient hash) (rf.remainder hash) →
      Present f₀ (countRun rsqfStep (some f₀) ops).1 hash) ↔
      rf.Clean (rf.quotient hash) (rf.remainder hash) ∨
      Present f₀ (countRun rsqfStep (some f₀) ops).1 hash := by
    rw [ha.present_iff]
    constructor
    · intro himp
      by_cases hm : rf.Matches (rf.quotient hash) (rf.remainder hash)
      · exact .inr (himp hm)
      · exact .inl (ha.good.clean_of_not_matches hm)
    · rintro (hcl | hst) hm
      · exact ha.good.stored_of_matches hcl hm
      · exact hst
  refine ⟨(imp_congr_left (ha.good.lookup_iff hash)).trans hsound, Iff.trans ?_ hsound⟩
  rcases ha.good.delete_iff hash with ⟨⟨rf', heq⟩, hm⟩ | ⟨heq, hm⟩
  · exact ⟨fun h _ => h rf' heq, fun h _ _ => h hm⟩
  · refine iff_of_true (fun rf' h => ?_) fun h => absurd h hm
    rw [heq] at h
    cases h

/-- If a run of the quotient ends before the slot `b`, only the slots before `b` need to be looked
at. -/
lemma clean_of_below {b : ℕ} (ho : rf.occ q = true) (hb : cnt rf.occ q < cnt rf.run b)
    (h : ∀ p < b, cnt rf.run p = cnt rf.occ q → rf.remGet p = r → rf.phys p = true) :
    rf.Clean q r where
  used _ p hp :=
    h p (lt_of_not_ge fun hle => absurd (cnt_mono hle) (not_le.mpr (hp.trans_lt hb))) hp
  own hf := by
    rw [ho] at hf
    cases hf

/-- Two remainders of one quotient, of which the first is deleted: the calls are clean. -/
lemma stepClean_two (hc : rsqfFilterCreate 64 2 = some f₀) :
    Always rsqfStep (fun s _ op => StepClean s op) (some f₀) []
      [.insert 21, .insert 22, .delete 21] := by
  cases hc
  refine ⟨fun rf h => ?_, fun rf h => ?_, fun rf h => ?_, trivial⟩
  · cases h
    exact fun _ _ h => absurd h (by decide +kernel)
  · cases h
    exact fun h => absurd h (by decide +kernel)
  · cases h
    exact @clean_of_below _ _ _ 7 (by decide +kernel) (by decide +kernel) (by decide +kernel)

/-- The remainder that is left is present, and one that was never inserted is neither found nor
deleted. -/
theorem lookup_sound_absent : ∃ f₀ rf, rsqfFilterCreate 64 2 = some f₀ ∧
    (countRun rsqfStep (some f₀) [.insert 21, .insert 22, .delete 21]).2 = some rf ∧
      Present f₀ (countRun rsqfStep (some f₀) [.insert 21, .insert 22, .delete 21]).1 22 ∧
      ¬ Present f₀ (countRun rsqfStep (some f₀) [.insert 21, .insert 22, .delete 21]).1 23 ∧
      rsqfFilterLookup rf 23 ≠ some true ∧ ∀ rf', rsqfFilterDelete rf 23 ≠ some (.ok, rf') := by
  obtain ⟨f₀, hc⟩ : ∃ f₀, rsqfFilterCreate 64 2 = some f₀ := ⟨_, rfl⟩
  obtain ⟨rf, hrf, hsound⟩ := lookup_sound_iff hc (stepClean_two hc)
  have hpresent :
      Present f₀ (countRun rsqfStep (some f₀) [.insert 21, .insert 22, .delete 21]).1 22 := by
    cases hc
    change _ < _
    decide +kernel
  have habsent :
      ¬ Present f₀ (countRun rsqfStep (some f₀) [.insert 21, .insert 22, .delete 21]).1 23 := by
    cases hc
    change ¬ _ < _
    decide +kernel
  have hclean : rf.Clean (rf.quotient 23) (rf.remainder 23) := by
    have hcheck :
        (countRun rsqfStep (some f₀) [.insert 21, .insert 22, .delete 21]).2.map (fun rf =>
        decide (rf.occ (rf.quotient 23) = true ∧ cnt rf.occ (rf.quotient 23) < cnt rf.run 6 ∧
          ∀ p < 6, cnt rf.run p = cnt rf.occ (rf.quotient 23) → rf.remGet p = rf.remainder 23 →
            rf.phys p = true)) = some true := by
      cases hc
      decide +kernel
    rw [hrf, Option.map_some, Option.some_inj, decide_eq_true_eq] at hcheck
    exact clean_of_below hcheck.1 hcheck.2.1 hcheck.2.2
  exact ⟨f₀, rf, hc, hrf, hpresent, habsent, fun h => habsent ((hsound 23).1.mpr (.inl hclean) h),
    fun rf' h => habsent ((hsound 23).2.mpr (.inl hclean) rf' h)⟩

/-- One fingerprint is inserted, and the free slots before it are found as the remainder 0. -/
theorem lookup_sound_fails :
    ¬ ∀ (capacity fpBits : ℕ) (f₀ : RsqfFilter) (ops : List (CountOp UInt64)),
    rsqfFilterCreate capacity fpBits = some f₀ →
    (∀ ev ∈ (countRun rsqfStep (some f₀) ops).1, ev.ok = true) →
    ∀ rf, (countRun rsqfStep (some f₀) ops).2 = some rf → ∀ hash,
      (rsqfFilterLookup rf hash = some true → Present f₀ (countRun rsqfStep (some f₀) ops).1 hash) ∧
      ∀ rf', rsqfFilterDelete rf hash = some (.ok, rf') →
      Present f₀ (countRun rsqfStep (some f₀) ops).1 hash := by
  intro hall
  have hl : ∀ f₀, rsqfFilterCreate 64 2 = some f₀ →
      (countRun rsqfStep (some f₀) [.insert 21]).2.bind (fun rf => rsqfFilterLookup rf 20) =
      some true := by
    intro f₀ hc
    cases hc
    decide +kernel
  obtain ⟨f₀, hc⟩ : ∃ f₀, rsqfFilterCreate 64 2 = some f₀ := ⟨_, rfl⟩
  obtain ⟨rf, hrf, hfound⟩ := Option.bind_eq_some_iff.mp (hl f₀ hc)
  have hp := (hall 64 2 f₀ [.insert 21] hc (by cases hc; decide +kernel) rf hrf 20).1 hfound
  cases hc
  exact absurd hp (by change ¬ _ < _; decide +kernel)

/-- After a run of clean calls, the guided lookup of a run end is the plain one. -/
theorem rankSelect_eq_selectRun {capacity fpBits : ℕ} {f₀ : RsqfFilter}
    {ops : List (CountOp UInt64)} (hc : rsqfFilterCreate capacity fpBits = some f₀)
    (hr : Always rsqfStep (fun s _ op => StepClean s op) (some f₀) [] ops) :
    ∃ rf, (countRun rsqfStep (some f₀) ops).2 = some rf ∧
      ∀ q, rf.occ q = true → rf.rankSelect q = some (rf.selectRun (rf.rankOcc q)) := by
  obtain ⟨rf, hrf, ha⟩ := accounted_run hc hr
  refine ⟨rf, hrf, fun q ho => ?_⟩
  have hq := ha.good.laid.occ_lt q ho
  obtain ⟨e, -, hs⟩ := ha.good.laid.exists_end (k := cnt rf.occ q) (cnt_lt_of_set ho hq)
  rw [ha.good.rankSelect ho hs, ha.good.rankOcc hq, cnt_succ_of_set ho, ha.good.selectRun hs]

/-- The quotient 5 after one of its two remainders was deleted. -/
theorem rankSelect_eq_selectRun_two : ∃ f₀ rf, rsqfFilterCreate 64 2 = some f₀ ∧
    (countRun rsqfStep (some f₀) [.insert 21, .insert 22, .delete 21]).2 = some rf ∧
      rf.rankSelect 5 = some (rf.selectRun (rf.rankOcc 5)) := by
  obtain ⟨f₀, hc⟩ : ∃ f₀, rsqfFilterCreate 64 2 = some f₀ := ⟨_, rfl⟩
  obtain ⟨rf, hrf, heq⟩ := rankSelect_eq_selectRun hc (stepClean_two hc)
  refine ⟨f₀, rf, hc, hrf, heq 5 ?_⟩
  have hocc :
    (countRun rsqfStep (some f₀) [.insert 21, .insert 22, .delete 21]).2.map (fun rf => rf.occ 5) =
      some true := by
    cases hc
    decide +kernel
  rw [hrf] at hocc
  exact Option.some.inj hocc

/-- A deletion that takes a free slot leaves the run end behind, and the two lookups differ. -/
theorem rankSelect_eq_selectRun_fails :
    ¬ ∀ (capacity fpBits : ℕ) (f₀ : RsqfFilter) (ops : List (CountOp UInt64)),
    rsqfFilterCreate capacity fpBits = some f₀ → ∀ rf,
    (countRun rsqfStep (some f₀) ops).2 = some rf →
      ∀ q, rf.occ q = true → rf.rankSelect q = some (rf.selectRun (rf.rankOcc q)) := by
  intro hall
  have hl : ∀ f₀, rsqfFilterCreate 128 2 = some f₀ →
      (countRun rsqfStep (some f₀) [.insert 256, .delete 256]).2.map
        (fun rf => (rf.occ 64, rf.rankSelect 64, rf.selectRun (rf.rankOcc 64))) =
          some (true, some 64, 63) := by
    intro f₀ hc
    cases hc
    decide +kernel
  obtain ⟨f₀, hc⟩ : ∃ f₀, rsqfFilterCreate 128 2 = some f₀ := ⟨_, rfl⟩
  obtain ⟨rf, hrf, hval⟩ := Option.map_eq_some_iff.mp (hl f₀ hc)
  obtain ⟨ho, hvals⟩ := Prod.mk.inj hval
  obtain ⟨hguided, hplain⟩ := Prod.mk.inj hvals
  have heq := hall 128 2 f₀ [.insert 256, .delete 256] hc rf hrf 64 ho
  rw [hguided, hplain] at heq
  cases heq

end Draugr.Rsqf
