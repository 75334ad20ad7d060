import Draugr.Lib.Tally
import Draugr.Rsqf.Insert

/-!
# Deletions

What `rsqf_filter_delete` does to a good filter: it takes the first slot that reads as the remainder
out of the range of the run, and the slots behind it in the range move down by one (`Deleted`). Two
things can go wrong. The range may begin with free slots, and a free slot reads as the remainder 0
(`InUse` excludes it). And the hole that a deletion leaves is before the data of the next run, where
an insertion takes it for the place of a new run (`GapFree` excludes that).
-/

namespace Draugr.Rsqf
open Draugr.Lib Draugr.Qf

namespace RsqfFilter

variable {rf rf' : RsqfFilter} {q r e i p k : ℕ}

/-- No free slot in the range of the run of `q` reads as the remainder `r`. -/
def InUse (rf : RsqfFilter) (q r : ℕ) : Prop :=
  ∀ rstart rend, rf.findRun q = some (some (rstart, rend)) → ∀ p,
  rstart ≤ p → p ≤ rend → rf.remGet p = r →
    rf.phys p = true

/-- The filter `rf'` is `rf` with one fingerprint `(q, r)` less. -/
structure Deleted (rf : RsqfFilter) (q r : ℕ) (rf' : RsqfFilter) : Prop where
  good : rf'.Good
  slots : rf'.numSlots = rf.numSlots
  bits : rf'.remainderBits = rf.remainderBits
  stored : ∀ q' r', rf'.stored q' r' + (if q' = q ∧ r = r' then 1 else 0) = rf.stored q' r'

/-- The loop that fills the gap, after `k` rounds: the slots from `i` on read as the ones behind
them, the last one is free, and the run end has moved if the loop came to it. -/
lemma moveLeft_eq (hbits : rf.remainderBits ≤ 64) (he : e < rf.numSlots)
    (hphys : ∀ p, i ≤ p → p ≤ e → rf.phys p = true) (hrun : ∀ p, i ≤ p → p < e → rf.run p = false)
    (hend : rf.run e = true) : ∀ k, i + k ≤ e → ∃ tbl,
      (List.range k).foldl
        (fun rf' j => rf'.moveSlotLeft ((i + j + 1) % rf.numSlots) ((i + j) % rf.numSlots)) rf =
      { rf with
        phys := Function.update rf.phys (i + k) (decide (k = 0))
        run := if k ≠ 0 ∧ i + k = e
          then Function.update (Function.update rf.run (e - 1) true) e false else rf.run
        remTable := tbl } ∧
      ∀ p, { rf with remTable := tbl }.remGet p = if i ≤ p ∧ p < i + k then rf.remGet (p + 1)
        else rf.remGet p
  | 0, hk => by
    refine ⟨rf.remTable, ?_, fun p => ?_⟩
    · rw [List.range_zero, List.foldl_nil, if_neg (by omega), Nat.add_zero,
        Function.update_eq_self_iff.mpr (by simp [hphys i le_rfl hk])]
    · rw [if_neg (by omega)]
  | k + 1, hk => by
    obtain ⟨tbl, heq, hrem⟩ := moveLeft_eq hbits he hphys hrun hend k (by omega)
    rw [List.range_succ, List.foldl_append, List.foldl_cons, List.foldl_nil, heq, if_neg (by omega),
      Nat.mod_eq_of_lt (show i + k + 1 < rf.numSlots by omega),
      Nat.mod_eq_of_lt (show i + k < rf.numSlots by omega)]
    have hp : movePhysOcc (Function.update rf.phys (i + k) (decide (k = 0))) (i + k + 1) (i + k) =
        Function.update rf.phys (i + (k + 1)) (decide (k + 1 = 0)) := by
      rw [movePhysOcc, Function.update_of_ne (by omega), hphys (i + k + 1) (by omega) hk,
        if_pos rfl, setBit, Function.update_idem,
        Function.update_eq_self_iff.mpr (hphys (i + k) (by omega) (by omega)).symm,
        decide_eq_false (Nat.succ_ne_zero k)]
      rfl
    have hr : (if rf.run (i + k + 1) then clearBit (setBit rf.run (i + k)) (i + k + 1)
      else rf.run) =
        if k + 1 ≠ 0 ∧ i + (k + 1) = e
          then Function.update (Function.update rf.run (e - 1) true) e false
        else rf.run := by
      by_cases hke : i + k + 1 = e
      · rw [hke, if_pos hend, if_pos ⟨Nat.succ_ne_zero k, hke⟩, show i + k = e - 1 by omega]
        rfl
      · rw [hrun (i + k + 1) (by omega) (by omega), if_neg Bool.false_ne_true,
          if_neg fun h => hke h.2]
    refine ⟨setBits tbl ((i + k) * rf.remainderBits) rf.remainderBits
      ({ rf with remTable := tbl }.remGet (i + k + 1) % 2 ^ rf.remainderBits), ?_, fun p => ?_⟩
    · simp only [moveSlotLeft, hp, hr]
      rfl
    · change ({ rf with remTable := tbl }.remSet (i + k)
        ({ rf with remTable := tbl }.remGet (i + k + 1))).remGet p = _
      by_cases hpk : p = i + k
      · rw [hpk, remGet_remSet_self
          (show { rf with remTable := tbl }.remainderBits ≤ 64 from hbits), Nat.mod_eq_of_lt
          (remGet_lt (show { rf with remTable := tbl }.remainderBits ≤ 64 from hbits) _),
          hrem, if_neg (by omega), if_pos (by omega)]
      · rw [remGet_remSet_of_ne
          (show { rf with remTable := tbl }.remainderBits ≤ 64 from hbits) hpk, hrem]
        exact if_congr (by omega) rfl rfl

/-- The last slot with data of a range. -/
lemma find_last {s m : ℕ} (phys : Bits) (hsm : s ≤ m) (hm : phys m = false)
    (hdown : ∀ p, s ≤ p → p < m → phys p = true → phys (m - 1) = true) :
    (List.range' s (m + 1 - s)).reverse.find? (fun p => phys p) =
      if s < m ∧ phys (m - 1) = true then some (m - 1) else none := by
  obtain ⟨n, rfl⟩ := Nat.exists_eq_add_of_le hsm
  rw [show s + n + 1 - s = n + 1 by omega, List.range'_1_concat, List.reverse_concat,
    List.find?_cons_of_neg (by simp [hm])]
  cases n with
  | zero => simp
  | succ n =>
    rw [List.range'_1_concat, List.reverse_concat]
    by_cases hp : phys (s + n) = true
    · rw [List.find?_cons_of_pos hp, if_pos ⟨by omega, hp⟩]
      rfl
    · rw [List.find?_cons_of_neg (by simpa using hp), if_neg fun h => hp h.2, List.find?_eq_none]
      intro p hmem hpp
      have := List.mem_range'_1.mp (List.mem_reverse.mp hmem)
      exact hp (hdown p this.1 (by omega) hpp)

/-- The slots of a range that does not go around the end of the table. -/
lemma map_mod_range {s ns : ℕ} (hse : s ≤ e) (he : e < ns) :
    (List.range (e - s + 1)).map (fun k => (s + k) % ns) = List.range' s (e + 1 - s) := by
  rw [List.range'_eq_map_range, show e + 1 - s = e - s + 1 by omega]
  refine List.map_congr_left fun k hk => Nat.mod_eq_of_lt ?_
  have := List.mem_range.mp hk
  omega

/-- Clearing the bits of a range. -/
lemma foldl_clearBit : ∀ (n s : ℕ) (bv : Bits) (p : ℕ),
    (List.range' s n).foldl clearBit bv p = if s ≤ p ∧ p < s + n then false else bv p
  | 0, s, bv, p => by
    rw [if_neg (by omega)]
    rfl
  | n + 1, s, bv, p => by
    rw [List.range'_1_concat, List.foldl_append, List.foldl_cons, List.foldl_nil, clearBit]
    by_cases hp : p = s + n
    · subst hp
      simp
    · rw [Function.update_of_ne hp, foldl_clearBit n s bv p]
      exact if_congr (by omega) rfl rfl

/-- What the part of `rsqf_filter_delete` behind the search does: the run has one slot less, or
goes. -/
lemma removeAt_eq (h : rf.Good) {s : ℕ} (w : InRun rf.occ rf.run rf.phys q e i) (hsi : s ≤ i)
    (hrange : ∀ p, s ≤ p ∧ p ≤ e ↔ cnt rf.run p = cnt rf.occ q) : ∃ tbl,
    rf.removeAt q s e i = { rf with
      occ := if s < e ∧ rf.phys (e - 1) = true then rf.occ else Function.update rf.occ q false
      run := if s < e ∧ rf.phys (e - 1) = true then Function.update (Function.update rf.run e false)
        (e - 1) true
        else Function.update rf.run e false
      phys := Function.update rf.phys e false
      count := rf.count - 1
      remTable := tbl }.updateOffsetsFrom ((if q < s then q else s) / 64) ∧
      ∀ p, { rf with remTable := tbl }.remGet p = closeAt rf.remGet i e 0 p := by
  have hie := w.le
  have hens := h.laid.end_lt w.select
  have hrun : ∀ p, s ≤ p → p < e → rf.run p = false := by
    intro p h1 h2
    have h3 := (hrange p).mp ⟨h1, h2.le⟩
    have h4 := (hrange e).mp ⟨by omega, le_rfl⟩
    exact clear_of_cnt_eq (h3.trans h4.symm) le_rfl h2
  have hdown : ∀ p, s ≤ p → p < e → rf.phys p = true → rf.phys (e - 1) = true := by
    intro p h1 h2 hp
    refine h.laid.phys_of_le hp (by omega) ?_
    rw [(hrange p).mp ⟨h1, h2.le⟩, (hrange (e - 1)).mp ⟨by omega, by omega⟩]
  obtain ⟨tbl, heq, hrem⟩ := moveLeft_eq h.bits hens (fun p h1 h2 => (w.range h.laid h1 h2).1)
    (fun p h1 h2 => hrun p (by omega) h2) w.select.1 (e - i) (by omega)
  have hslots := map_mod_range (show s ≤ e by omega) hens
  have hphys : clearBit (Function.update rf.phys (i + (e - i)) (decide (e - i = 0))) e =
      Function.update rf.phys e false := by
    rw [show i + (e - i) = e by omega, clearBit, Function.update_idem]
  have hlast :=
    find_last (Function.update rf.phys e false) (show s ≤ e by omega) (Function.update_self ..)
    fun p h1 h2 hp => by
      rw [Function.update_of_ne (by omega)] at hp ⊢
      exact hdown p h1 h2 hp
  unfold removeAt
  simp only [if_pos hie, heq, if_pos (show s ≤ e by omega), hslots, hphys, hlast]
  refine ⟨setBits tbl (e * rf.remainderBits) rf.remainderBits (0 % 2 ^ rf.remainderBits), ?_,
    fun p => ?_⟩
  · rw [show (if e < s then 0 else (if q < s then q else s) / 64) =
      (if q < s then q else s) / 64 from if_neg (by omega)]
    by_cases hne : s < e ∧ rf.phys (e - 1) = true
    · -- the slot before the end is in the run: it is the end now
      have hne' : s < e ∧ Function.update rf.phys e false (e - 1) = true := by
        rw [Function.update_of_ne (by omega)]
        exact hne
      have hr : setBit ((List.range' s (e + 1 - s)).foldl clearBit
          (clearBit (if e - i ≠ 0 ∧ i + (e - i) = e
            then Function.update (Function.update rf.run (e - 1) true) e false
            else rf.run) e)) (e - 1) = Function.update (Function.update rf.run e false)
              (e - 1) true := by
        funext p
        unfold setBit
        by_cases hp1 : p = e - 1
        · rw [hp1, Function.update_self, Function.update_self]
        rw [Function.update_of_ne hp1, Function.update_of_ne hp1, foldl_clearBit]
        by_cases hpe : p = e
        · rw [hpe, Function.update_self, if_pos (by omega)]
        rw [Function.update_of_ne hpe]
        split_ifs with hin
        · exact (hrun p hin.1 (by omega)).symm
        · rw [clearBit, Function.update_of_ne hpe, Function.update_of_ne hpe,
            Function.update_of_ne hp1]
        · rw [clearBit, Function.update_of_ne hpe]
      simp only [if_pos hne', if_pos hne, hr]
      rfl
    · -- the end was the only slot of the run
      have hne' : ¬(s < e ∧ Function.update rf.phys e false (e - 1) = true) := by
        rintro ⟨hse, hp⟩
        rw [Function.update_of_ne (by omega)] at hp
        exact hne ⟨hse, hp⟩
      have hi : i = e := by
        by_contra hne2
        exact hne ⟨by omega, (w.range h.laid (show i ≤ e - 1 by omega) (by omega)).1⟩
      have hr : clearBit (clearBit (if e - i ≠ 0 ∧ i + (e - i) = e then
          Function.update (Function.update rf.run (e - 1) true) e false else rf.run) e) e =
          Function.update rf.run e false := by
        rw [if_neg (by omega), clearBit, clearBit, Function.update_idem]
      simp only [if_neg hne', if_neg hne, hr]
      rfl
  · change ({ rf with remTable := tbl }.remSet e 0).remGet p = _
    have hb : { rf with remTable := tbl }.remainderBits ≤ 64 := h.bits
    unfold closeAt
    by_cases hpe : p = e
    · rw [hpe, remGet_remSet_self hb, Nat.zero_mod, if_neg (by omega), if_neg (lt_irrefl _),
        if_pos rfl]
    · rw [remGet_remSet_of_ne hb hpe, hrem]
      split_ifs <;> first | rfl | omega

/-- The counts of the slots with a mark after a slot with data was closed. -/
lemma cnt_unmarked {x x' : Bits} {ns : ℕ} (hie : i ≤ e) (he : e < ns)
    (hx : ∀ p, x' p = closeAt x i e false p) :
    cnt x' ns + (if x i = true then 1 else 0) = cnt x ns := by
  rw [cnt_congr fun p _ => hx p]
  exact cnt_closeAt_of_gt hie he

/-- Taking a slot out of a run takes out its fingerprint. -/
lemma removeAt_deleted (h : rf.Good) {s : ℕ} (w : InRun rf.occ rf.run rf.phys q e i) (hsi : s ≤ i)
    (hrange : ∀ p, s ≤ p ∧ p ≤ e ↔ cnt rf.run p = cnt rf.occ q) :
    Deleted rf q (rf.remGet i) (rf.removeAt q s e i) := by
  have hns := h.slots
  have hie := w.le
  have hens := h.laid.end_lt w.select
  have hqe := h.laid.le_end w.select
  have hq := h.laid.occ_lt q w.set
  obtain ⟨tbl, heq, hrem⟩ := removeAt_eq h w hsi hrange
  have hrange' : ∀ p, s ≤ p → p ≤ e → cnt rf.run p = cnt rf.occ q := fun p h1 h2 =>
    (hrange p).mp ⟨h1, h2⟩
  have hfb : 64 * ((if q < s then q else s) / 64) ≤ q ∧
      64 * ((if q < s then q else s) / 64) ≤ s := by
    split_ifs <;> omega
  generalize (if q < s then q else s) / 64 = fb at heq hfb
  have hmark : ∀ q' r', holds rf.occ rf.run rf.phys rf.remGet q' r' i = true ↔
      q' = q ∧ rf.remGet i = r' := by
    intro q' r'
    rw [holds_iff]
    constructor
    · rintro ⟨ho, -, hr, hc⟩
      refine ⟨IsSelect.unique ⟨ho, rfl⟩ ⟨w.set, ?_⟩, hr⟩
      rw [← hc, w.same, w.select.2]
    · rintro ⟨rfl, hr⟩
      exact ⟨w.set, w.used, hr, by rw [w.same, w.select.2]⟩
  have hcount : rf.count - 1 = cnt (Function.update rf.phys e false) rf.numSlots := by
    have hp := (w.range h.laid hie le_rfl).1
    have := cnt_clear hp rf.numSlots
    rw [if_pos hens] at this
    rw [h.count]
    omega
  rw [heq]
  by_cases hne : s < e ∧ rf.phys (e - 1) = true
  · simp only [if_pos hne]
    have hlast : rf.run (e - 1) = false :=
      clear_of_cnt_eq (n := e)
      (by rw [hrange' (e - 1) (by omega) (by omega), hrange' e (by omega) le_rfl]) le_rfl
        (by omega)
    have hsized : Sized { rf with
        run := Function.update (Function.update rf.run e false) (e - 1) true
        phys := Function.update rf.phys e false
        count := rf.count - 1
        remTable := tbl } :=
      ⟨h.slots, h.small, h.bits_pos, h.bits, w.laid_shrink h.laid (by omega) hne.2 hlast, hcount⟩
    refine ⟨?_, rfl, rfl, fun q' r' => ?_⟩
    · refine h.reindexed hsized rfl rfl rfl rfl (show fb ≤ rf.numBlocks by omega) (fun i _ => rfl)
        (show 64 * fb ≤ e - 1 by omega) (fun p hp => ?_) ?_
      · change Function.update (Function.update rf.run e false) (e - 1) true p = rf.run p
        rw [Function.update_of_ne (by omega), Function.update_of_ne (by omega)]
      · rw [hrange' (e - 1) (by omega) (by omega)]
        exact cnt_mono hfb.1
    · have := cnt_unmarked hie hens fun p => (@InRun.holds_shrink _ _ _ _ _ _ _ q') h.laid w
        (by omega) hlast hrem r' p
      rw [if_congr (hmark q' r') rfl rfl] at this
      exact this
  · simp only [if_neg hne]
    have hlast : ∀ p < e, rf.phys p = true → cnt rf.run p < cnt rf.run e := by
      intro p hp hphys
      refine lt_of_le_of_ne (cnt_mono hp.le) fun hc => hne ?_
      have hsp := ((hrange p).mpr (by rw [hc, w.select.2])).1
      refine ⟨by omega, h.laid.phys_of_le hphys (by omega) ?_⟩
      rw [hrange' p hsp hp.le, hrange' (e - 1) (by omega) (by omega)]
    have hsized : Sized { rf with
        occ := Function.update rf.occ q false
        run := Function.update rf.run e false
        phys := Function.update rf.phys e false
        count := rf.count - 1
        remTable := tbl } :=
      ⟨h.slots, h.small, h.bits_pos, h.bits, w.laid_drop h.laid hlast, hcount⟩
    refine ⟨?_, rfl, rfl, fun q' r' => ?_⟩
    · refine h.reindexed hsized rfl rfl rfl rfl (show fb ≤ rf.numBlocks by omega)
        (fun p hp => Function.update_of_ne (by omega) ..) (show 64 * fb ≤ e by omega)
        (fun p hp => Function.update_of_ne (by omega) ..) ?_
      rw [w.select.2]
      exact cnt_mono hfb.1
    · have := cnt_unmarked hie hens fun p =>
        (@InRun.holds_drop _ _ _ _ _ _ _ q') h.laid w hlast hrem r' p
      rw [if_congr (hmark q' r') rfl rfl] at this
      exact this

end RsqfFilter

open RsqfFilter

variable {f₀ rf rf' : RsqfFilter}

/-- `rsqf_filter_delete` takes out a stored fingerprint, if no free slot reads as its remainder. -/
lemma RsqfFilter.Good.delete (h : rf.Good) {hash : UInt64}
    (hs : 0 < rf.stored (rf.quotient hash) (rf.remainder hash))
    (hu : rf.InUse (rf.quotient hash) (rf.remainder hash)) :
    ∃ rf', rsqfFilterDelete rf hash = some (.ok, rf') ∧ Deleted rf (rf.quotient hash)
      (rf.remainder hash) rf' := by
  obtain ⟨p, hp, hmark, -⟩ := exists_isSelect hs
  obtain ⟨ho, hphys, hrem, hrank⟩ := holds_iff.mp hmark
  have hq := h.laid.occ_lt _ ho
  have hcount : 0 < rf.count := by
    rw [h.count]
    have := cnt_lt_of_set hphys hp
    omega
  obtain ⟨e, hens, hsel⟩ :=
    h.laid.exists_end (k := cnt rf.occ (rf.quotient hash)) (cnt_lt_of_set ho hq)
  obtain ⟨hse, hrange⟩ := h.runStart hsel
  obtain ⟨hsp, hpe⟩ := (hrange p).mpr hrank
  have hfind := h.findRun ho hsel
  have hused := hu _ _ hfind
  unfold rsqfFilterDelete
  rw [if_neg (by omega)]
  dsimp only
  rw [hfind, Option.map_some]
  dsimp only
  generalize rf.runStart (cnt rf.occ (rf.quotient hash) + 1) = s at *
  rw [if_pos hse, map_mod_range hse hens]
  cases hf : (List.range' s (e + 1 - s)).find? fun idx => rf.remGet idx == rf.remainder hash with
  | none =>
    have := List.find?_eq_none.mp hf p (List.mem_range'_1.mpr ⟨hsp, by omega⟩)
    simp [hrem] at this
  | some i =>
    have hi := List.mem_range'_1.mp (List.mem_of_find?_eq_some hf)
    have hri : rf.remGet i = rf.remainder hash := by simpa using List.find?_some hf
    have w : InRun rf.occ rf.run rf.phys (rf.quotient hash) e i :=
      ⟨ho, hsel, by omega, hused i hi.1 (by omega) hri,
        by rw [hsel.2]; exact (hrange i).mp ⟨hi.1, by omega⟩⟩
    have := removeAt_deleted h w hi.1 hrange
    rw [hri] at this
    exact ⟨_, rfl, this⟩

/-! ## Runs -/

/-- A call of the filter, and whether it returned `RSQF_OK`; the state is `none` once a call does
not return. -/
def rsqfStep (s : Option RsqfFilter) (op : CountOp UInt64) : Bool × Option RsqfFilter :=
  let result := s.bind fun rf =>
    match op with
    | .insert hash => rsqfFilterInsert rf hash
    | .delete hash => rsqfFilterDelete rf hash
  match result with
  | none => (false, none)
  | some (err, rf) => (err == .ok, some rf)

/-- A hash has the fingerprint `fp`. -/
def hasFp (f₀ : RsqfFilter) (fp : ℕ × ℕ) (hash : UInt64) : Bool :=
  f₀.quotient hash == fp.1 && f₀.remainder hash == fp.2

/-- After the events, the fingerprint was inserted more often than deleted. -/
def Present (f₀ : RsqfFilter) (evs : List (CountEvent UInt64)) (hash : UInt64) : Prop :=
  removed (hasFp f₀ (f₀.quotient hash, f₀.remainder hash)) evs <
  added (hasFp f₀ (f₀.quotient hash, f₀.remainder hash)) evs

/-- A deletion is of a fingerprint that is present. -/
def DeletesPresent (f₀ : RsqfFilter) (_ : Option RsqfFilter) (evs : List (CountEvent UInt64)) :
    CountOp UInt64 → Prop
  | .insert _ => True
  | .delete hash => Present f₀ evs hash

/-- A call meets no hole: an insertion of a quotient without a run none before the end of the run
before, a deletion none that reads as its remainder. -/
def MeetsNoHole (s : Option RsqfFilter) : CountOp UInt64 → Prop
  | .insert hash => ∀ rf ∈ s, rf.GapFree (rf.quotient hash)
  | .delete hash => ∀ rf ∈ s, rf.InUse (rf.quotient hash) (rf.remainder hash)

/-- What holds after some events: each fingerprint is stored as often as it was inserted less
deleted. -/
structure Balanced (f₀ rf : RsqfFilter) (evs : List (CountEvent UInt64)) : Prop where
  good : rf.Good
  slots : rf.numSlots = f₀.numSlots
  bits : rf.remainderBits = f₀.remainderBits
  stored : ∀ q r, rf.stored q r + removed (hasFp f₀ (q, r)) evs = added (hasFp f₀ (q, r)) evs
  deletes : ∀ ev ∈ evs, ∀ hash, ev.op = .delete hash → ev.ok = true

variable {evs : List (CountEvent UInt64)}

/-- The quotient of a hash is that of the created filter. -/
lemma Balanced.quotient (h : Balanced f₀ rf evs) (hash : UInt64) :
    rf.quotient hash = f₀.quotient hash := by
  unfold RsqfFilter.quotient
  rw [h.slots, h.bits]

/-- The remainder of a hash is that of the created filter. -/
lemma Balanced.remainder (h : Balanced f₀ rf evs) (hash : UInt64) :
    rf.remainder hash = f₀.remainder hash := by
  unfold RsqfFilter.remainder
  rw [h.bits]

/-- A fingerprint that is present is stored. -/
lemma Balanced.stored_pos (h : Balanced f₀ rf evs) {hash : UInt64} (hp : Present f₀ evs hash) :
    0 < rf.stored (rf.quotient hash) (rf.remainder hash) := by
  have := h.stored (f₀.quotient hash) (f₀.remainder hash)
  rw [h.quotient, h.remainder]
  unfold Present at hp
  omega

/-- A hash counts for its own fingerprint only. -/
lemma hasFp_toNat (q r : ℕ) (hash : UInt64) :
    (hasFp f₀ (q, r) hash).toNat = if q = f₀.quotient hash ∧ f₀.remainder hash = r then 1
      else 0 := by
  unfold hasFp
  by_cases h1 : q = f₀.quotient hash
  · by_cases h2 : f₀.remainder hash = r
    · simp [h1, h2]
    · simp [h2]
  · simp [h1, Ne.symm h1]

/-- One call that meets no hole keeps the balance. -/
lemma Balanced.call (h : Balanced f₀ rf evs) (op : CountOp UInt64)
    (hp : DeletesPresent f₀ (some rf) evs op) (hn : MeetsNoHole (some rf) op) :
    ∃ rf', (rsqfStep (some rf) op).2 = some rf' ∧
      Balanced f₀ rf' (evs ++ [⟨op, (rsqfStep (some rf) op).1⟩]) := by
  cases op with
  | insert hash =>
    rcases h.good.insert_cases hash fun _ => hn rf rfl with hfull | ⟨rf', heq, hi⟩
    · have hstep : rsqfStep (some rf) (.insert hash) = (false, some rf) := by
        simp [rsqfStep, hfull]
      rw [hstep]
      refine ⟨rf, rfl, h.good, h.slots, h.bits, fun q r => ?_, fun ev hev x hx => ?_⟩
      · rw [added_append, removed_append, added_single_insert, removed_single_insert]
        simpa using h.stored q r
      · rcases List.mem_append.mp hev with hev | hev
        · exact h.deletes ev hev x hx
        · rw [List.mem_singleton.mp hev] at hx
          cases hx
    · have hstep : rsqfStep (some rf) (.insert hash) = (true, some rf') := by
        simp [rsqfStep, heq]
      rw [hstep]
      refine ⟨rf', rfl, hi.good, hi.slots.trans h.slots, hi.bits.trans h.bits, fun q r => ?_,
        fun ev hev x hx => ?_⟩
      · rw [added_append, removed_append, added_single_insert, removed_single_insert, hi.stored,
          h.quotient, h.remainder, Bool.true_and, hasFp_toNat]
        have := h.stored q r
        omega
      · rcases List.mem_append.mp hev with hev | hev
        · exact h.deletes ev hev x hx
        · rw [List.mem_singleton.mp hev] at hx
          cases hx
  | delete hash =>
    obtain ⟨rf', heq, hd⟩ := h.good.delete (h.stored_pos hp) (hn rf rfl)
    have hstep : rsqfStep (some rf) (.delete hash) = (true, some rf') := by
      simp [rsqfStep, heq]
    rw [hstep]
    refine ⟨rf', rfl, hd.good, hd.slots.trans h.slots, hd.bits.trans h.bits, fun q r => ?_,
      fun ev hev x hx => ?_⟩
    · rw [added_append, removed_append, added_single_delete, removed_single_delete, Bool.true_and,
        hasFp_toNat]
      have h1 := h.stored q r
      have h2 := hd.stored q r
      rw [h.quotient, h.remainder] at h2
      omega
    · rcases List.mem_append.mp hev with hev | hev
      · exact h.deletes ev hev x hx
      · rw [List.mem_singleton.mp hev]

/-- A created filter is balanced. -/
lemma balanced_create {capacity fpBits : ℕ} (hc : rsqfFilterCreate capacity fpBits = some f₀) :
    Balanced f₀ f₀ [] := by
  obtain ⟨hg, -, hphys⟩ := good_create hc
  refine ⟨hg, rfl, rfl, fun q r => ?_, nofun⟩
  have : f₀.stored q r = 0 := by
    unfold stored
    rw [cnt_congr fun p _ => show holds f₀.occ f₀.run f₀.phys f₀.remGet q r p =
      (fun _ => false) p by
      simp [holds, hphys], cnt_false]
  rw [this]
  rfl

/-- In a run whose calls meet no hole, every fingerprint that was inserted more often than deleted
is found, and every deletion of one that is present succeeds. -/
theorem lookup_after_deletions {capacity fpBits : ℕ} {f₀ : RsqfFilter} {ops : List (CountOp UInt64)}
    (hc : rsqfFilterCreate capacity fpBits = some f₀)
    (hr : Always rsqfStep (fun s evs op => DeletesPresent f₀ s evs op ∧ MeetsNoHole s op) (some f₀)
      [] ops) :
    ∃ rf, (countRun rsqfStep (some f₀) ops).2 = some rf ∧
      (∀ hash, Present f₀ (countRun rsqfStep (some f₀) ops).1 hash →
        rsqfFilterLookup rf hash = some true) ∧
      ∀ ev ∈ (countRun rsqfStep (some f₀) ops).1, ∀ hash, ev.op = .delete hash → ev.ok = true := by
  have := Always.run (I := fun s evs => ∃ rf, s = some rf ∧ Balanced f₀ rf evs)
      (fun s evs op hI hop => by
    obtain ⟨rf, rfl, hb⟩ := hI
    exact hb.call op hop.1 hop.2) ops (some f₀) [] ⟨f₀, rfl, balanced_create hc⟩ hr
  obtain ⟨rf, hrf, hb⟩ := this
  exact ⟨rf, hrf, fun hash hp => hb.good.lookup (hb.stored_pos hp), hb.deletes⟩

/-- Two remainders of one quotient, of which the first is deleted. -/
theorem lookup_after_deletions_two : ∃ f₀ rf, rsqfFilterCreate 64 2 = some f₀ ∧
    (countRun rsqfStep (some f₀) [.insert 21, .insert 22, .delete 21]).2 = some rf ∧
      rsqfFilterLookup rf 22 = some true := by
  obtain ⟨f₀, hc⟩ : ∃ f₀, rsqfFilterCreate 64 2 = some f₀ := ⟨_, rfl⟩
  have hr : Always rsqfStep (fun s evs op => DeletesPresent f₀ s evs op ∧ MeetsNoHole s op)
    (some f₀) []
      [.insert 21, .insert 22, .delete 21] := by
    cases hc
    refine ⟨⟨trivial, fun rf h => ?_⟩, ⟨trivial, fun rf h => ?_⟩, ⟨?_, fun rf h => ?_⟩, trivial⟩
    · cases h
      exact fun _ _ h => absurd h (by decide +kernel)
    · cases h
      exact fun h => absurd h (by decide +kernel)
    · change _ < _
      decide +kernel
    · cases h
      intro rstart rend hf p _ hp
      have he : some (some (rstart, rend)) = some (some (0, 6)) := hf.symm.trans (by decide +kernel)
      cases he
      revert p
      have hdec : ∀ {P Q : ℕ → Prop}, (∀ p < 7, P p → Q p) → ∀ p, 0 ≤ p → p ≤ 6 → P p → Q p :=
        fun h p _ hp => h p (by omega)
      exact hdec (by decide +kernel)
  obtain ⟨rf, hrf, hl, -⟩ := lookup_after_deletions hc hr
  refine ⟨f₀, rf, hc, hrf, hl 22 ?_⟩
  cases hc
  change _ < _
  decide +kernel

/-- The third remainder of a quotient is deleted, and the hole it leaves takes a new run: the run
behind is lost. -/
theorem deletion_loses_run :
    ¬ ∀ (capacity fpBits : ℕ) (f₀ : RsqfFilter) (ops : List (CountOp UInt64)),
    rsqfFilterCreate capacity fpBits = some f₀ →
    Always rsqfStep (DeletesPresent f₀) (some f₀) [] ops →
    (∀ ev ∈ (countRun rsqfStep (some f₀) ops).1, ev.ok = true) →
    ∀ rf, (countRun rsqfStep (some f₀) ops).2 = some rf →
      ∀ hash, Present f₀ (countRun rsqfStep (some f₀) ops).1 hash →
      rsqfFilterLookup rf hash = some true := by
  intro hall
  have h := hall 64 2 _ [.insert 21, .insert 22, .insert 23, .insert 24, .delete 23, .insert 29] rfl
    ⟨trivial, trivial, trivial, trivial, by change _ < _; decide +kernel, trivial, trivial⟩
      (by decide +kernel)
  have hl : ∀ f₀, rsqfFilterCreate 64 2 = some f₀ →
      ((countRun rsqfStep (some f₀) [.insert 21, .insert 22, .insert 23, .insert 24, .delete 23,
        .insert 29]).2.bind
        fun rf => rsqfFilterLookup rf 24) = some false := by
    intro f₀ hc
    cases hc
    decide +kernel
  obtain ⟨rf, hrf, hlf⟩ := Option.bind_eq_some_iff.mp (hl _ rfl)
  have := h rf hrf 24 (by change _ < _; decide +kernel)
  rw [hlf] at this
  cases this

end Draugr.Rsqf
