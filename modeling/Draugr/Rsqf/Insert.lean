import Draugr.Rsqf.Index

/-!
# Insertions

What `rsqf_filter_insert` does to a good filter: it is full and nothing changes, or one slot is
opened and holds the new fingerprint (`Inserted`). For a quotient without a run this needs that no
slot between the quotient and the end of the run before is free (`GapFree`). A filter without a free
slot inside of its clusters (`Dense`) always has that and stays so, which gives the correctness of
filters that are only inserted into.
-/

namespace Draugr.Rsqf
open Draugr.Lib Draugr.Qf

namespace RsqfFilter

variable {rf rf' : RsqfFilter} {q rem s n p e k v : ℕ}

/-! ## Slots -/

/-- A remainder has `remainderBits` bits. -/
lemma remGet_lt (h : rf.remainderBits ≤ 64) (p : ℕ) : rf.remGet p < 2 ^ rf.remainderBits :=
  getBits_lt h

/-- The remainder that was written. -/
lemma remGet_remSet_self (h : rf.remainderBits ≤ 64) (p v : ℕ) :
    (rf.remSet p v).remGet p = v % 2 ^ rf.remainderBits :=
  getBits_setBits h (Nat.mod_lt _ (Nat.two_pow_pos _))

/-- The other remainders stay. -/
lemma remGet_remSet_of_ne (h : rf.remainderBits ≤ 64) {i : ℕ} (hp : p ≠ i) (v : ℕ) :
    (rf.remSet i v).remGet p = rf.remGet p := by
  refine getBits_setBits_of_disjoint h h (Nat.mod_lt _ (Nat.two_pow_pos _)) ?_
  rcases Nat.lt_or_gt_of_ne hp with hlt | hgt
  · have := Nat.mul_le_mul_right rf.remainderBits (show p + 1 ≤ i from hlt)
    rw [Nat.succ_mul] at this
    exact .inl this
  · have := Nat.mul_le_mul_right rf.remainderBits (show i + 1 ≤ p from hgt)
    rw [Nat.succ_mul] at this
    exact .inr this

/-- Moving a slot to the right, onto a free one. -/
lemma moveSlotRight_eq (hphys : rf.phys (p + 1) = false) : rf.moveSlotRight (p + 1) p =
    { (rf.remSet (p + 1) (rf.remGet p)).remSet p 0 with
      run := Function.update (Function.update rf.run (p + 1) (rf.run p)) p false
      phys := Function.update (Function.update rf.phys (p + 1) (rf.phys p)) p false } := by
  have hr : clearBit (if rf.run p then setBit rf.run (p + 1) else clearBit rf.run (p + 1)) p =
      Function.update (Function.update rf.run (p + 1) (rf.run p)) p false := by
    cases rf.run p <;> rfl
  have hp : clearBit (movePhysOcc rf.phys p (p + 1)) p =
      Function.update (Function.update rf.phys (p + 1) (rf.phys p)) p false := by
    cases hp : rf.phys p with
    | true => simp [movePhysOcc, hp, clearBit, setBit]
    | false =>
      have hq : Function.update rf.phys (p + 1) false = rf.phys :=
        Function.update_eq_self_iff.mpr hphys.symm
      simp [movePhysOcc, hp, clearBit, hq]
  simp only [moveSlotRight, hr, hp]

/-- What the loop over `move_slot_right` does, up to a free slot. -/
lemma shiftRight_eq : ∀ (k : ℕ) {rf : RsqfFilter}, rf.remainderBits ≤ 64 → rf.phys (s + k) = false →
    rf.run (s + k) = false → ∃ tbl, rf.shiftRight s k =
      { rf with
        run := openAt rf.run s (s + k) false, phys := openAt rf.phys s (s + k) false
        remTable := tbl } ∧
      ∀ p, p ≠ s → (rf.shiftRight s k).remGet p = openAt rf.remGet s (s + k) 0 p
  | 0, rf, _, hphys, hrun => by
    rw [Nat.add_zero] at hphys hrun
    refine ⟨rf.remTable, ?_, fun p hp => ?_⟩
    · rw [shiftRight, Nat.add_zero, openAt_eq_self hphys, openAt_eq_self hrun]
    · rw [shiftRight, Nat.add_zero]
      rcases Nat.lt_or_gt_of_ne hp with hlt | hgt
      · exact (openAt_of_lt hlt).symm
      · exact (openAt_of_gt le_rfl hgt).symm
  | k + 1, rf, hbits, hphys, hrun => by
    rw [← Nat.add_assoc] at hphys hrun
    have hmove := moveSlotRight_eq hphys
    have hbits' : (rf.remSet (s + k + 1) (rf.remGet (s + k))).remainderBits ≤ 64 := hbits
    have hcur : (rf.moveSlotRight (s + k + 1) (s + k)).remGet =
        Function.update (Function.update rf.remGet (s + k + 1) (rf.remGet (s + k))) (s + k) 0 := by
      rw [hmove]
      funext p
      change ((rf.remSet (s + k + 1) (rf.remGet (s + k))).remSet (s + k) 0).remGet p = _
      by_cases hp : p = s + k
      · rw [hp, Function.update_self, remGet_remSet_self hbits', Nat.zero_mod]
      · rw [Function.update_of_ne hp, remGet_remSet_of_ne hbits' hp]
        by_cases hp1 : p = s + k + 1
        · rw [hp1, Function.update_self, remGet_remSet_self hbits,
            Nat.mod_eq_of_lt (remGet_lt hbits _)]
        · rw [Function.update_of_ne hp1, remGet_remSet_of_ne hbits hp1]
    obtain ⟨tbl, heq, hrem⟩ := shiftRight_eq k
      (show (rf.moveSlotRight (s + k + 1) (s + k)).remainderBits ≤ 64 by rw [hmove]; exact hbits)
        (by rw [hmove]; exact Function.update_self ..)
      (by rw [hmove]; exact Function.update_self ..)
    refine ⟨tbl, ?_, fun p hp => ?_⟩
    · rw [shiftRight, heq, hmove]
      simp only [openAt_update, ← Nat.add_assoc]
      rfl
    · rw [shiftRight, hrem p hp, hcur, openAt_update, ← Nat.add_assoc]

/-- Opening the slot `s` does what the loop over `move_slot_right` does. -/
lemma openSlot_eq (hsn : s ≤ n) : rf.openSlot s n = rf.shiftRight s (n - s) := by
  unfold openSlot
  rcases Nat.lt_or_eq_of_le hsn with hlt | rfl
  · rw [if_pos hlt]
  · rw [if_neg (lt_irrefl _), if_neg (lt_irrefl _), Nat.sub_self, shiftRight]

/-- The remainders after a slot was opened and written. -/
lemma remGet_place (rem : ℕ) (hbits : rf.remainderBits ≤ 64) (hsn : s ≤ n)
    (hphys : rf.phys n = false) (hrun : rf.run n = false) (p : ℕ) :
    ((rf.openSlot s n).remSet s rem).remGet p =
      openAt rf.remGet s n (rem % 2 ^ rf.remainderBits) p := by
  obtain ⟨k, rfl⟩ := Nat.exists_eq_add_of_le hsn
  obtain ⟨tbl, heq, hrem⟩ := shiftRight_eq k hbits hphys hrun
  rw [openSlot_eq hsn, Nat.add_sub_cancel_left]
  have hb : (rf.shiftRight s k).remainderBits = rf.remainderBits := by rw [heq]
  by_cases hp : p = s
  · rw [hp, openAt_self, remGet_remSet_self (hb ▸ hbits), hb]
  · rw [remGet_remSet_of_ne (hb ▸ hbits) hp, hrem p hp]
    simp [openAt, hp]

/-- A slot is opened and holds the last remainder of a run. -/
lemma place_eq (q rem : ℕ) (hbits : rf.remainderBits ≤ 64) (hsn : s ≤ n)
    (hphys : rf.phys n = false) (hrun : rf.run n = false) :
    ∃ tbl, (rf.openSlot s n).place q rem s =
      { rf with
        occ := Function.update rf.occ q true
        run := openAt rf.run s n true
        phys := openAt rf.phys s n true
        count := rf.count + 1
        remTable := tbl } := by
  obtain ⟨k, rfl⟩ := Nat.exists_eq_add_of_le hsn
  obtain ⟨tbl, heq, -⟩ := shiftRight_eq k hbits hphys hrun
  rw [openSlot_eq hsn, Nat.add_sub_cancel_left, heq]
  refine ⟨setBits tbl (s * rf.remainderBits) rf.remainderBits (rem % 2 ^ rf.remainderBits), ?_⟩
  unfold place setBit
  simp only [update_openAt]
  rfl

/-- The search for a free slot over `n` slots. -/
lemma skipUsed_spec : ∀ (n pos : ℕ), pos ≤ rf.skipUsed n pos ∧ rf.skipUsed n pos ≤ pos + n ∧
    (∀ p, pos ≤ p → p < rf.skipUsed n pos → rf.phys p = true) ∧
    (rf.skipUsed n pos < pos + n → rf.phys (rf.skipUsed n pos) = false)
  | 0, pos => by
    rw [skipUsed]
    exact ⟨le_rfl, le_rfl, fun p h1 h2 => by omega, fun h => by omega⟩
  | n + 1, pos => by
    rw [skipUsed, slotIsFree]
    cases hp : rf.phys pos with
    | false =>
      rw [if_pos (by rfl)]
      exact ⟨le_rfl, by omega, fun p h1 h2 => by omega, fun _ => hp⟩
    | true =>
      rw [if_neg (by simp)]
      obtain ⟨h1, h2, h3, h4⟩ := skipUsed_spec n (pos + 1)
      refine ⟨by omega, by omega, fun p h5 h6 => ?_, fun h => h4 (by omega)⟩
      rcases Nat.lt_or_eq_of_le h5 with hlt | rfl
      · exact h3 p hlt h6
      · exact hp

/-- `firstFree` gives a free slot behind `start` with used slots between, or one before it with used
slots from `start` to the end of the table. -/
lemma firstFree_eq_some (hs : s < rf.numSlots) (h : rf.firstFree s = some n) :
    rf.phys n = false ∧ (s ≤ n ∧ n < rf.numSlots ∧ (∀ p, s ≤ p → p < n → rf.phys p = true) ∨
      n < s ∧ ∀ p, s ≤ p → p < rf.numSlots → rf.phys p = true) := by
  obtain ⟨h1, h2, h3, h4⟩ := (@skipUsed_spec rf) (rf.numSlots - s) s
  unfold firstFree at h
  simp only at h
  split_ifs at h with hend hfull
  · obtain ⟨g1, g2, g3, g4⟩ := (@skipUsed_spec rf) s 0
    cases h
    exact ⟨g4 (by omega), .inr ⟨by omega, fun p hp hpn => h3 p hp (by omega)⟩⟩
  · cases h
    exact ⟨h4 (by omega), .inl ⟨h1, by omega, h3⟩⟩

/-- The search for a free slot stops at once at one. -/
lemma firstFree_of_free (hs : s < rf.numSlots) (h : rf.phys s = false) :
    rf.firstFree s = some s := by
  have hskip : rf.skipUsed (rf.numSlots - s) s = s := by
    obtain ⟨n, hn⟩ := Nat.exists_eq_succ_of_ne_zero (show rf.numSlots - s ≠ 0 by omega)
    rw [hn, skipUsed, slotIsFree, h]
    exact if_pos rfl
  unfold firstFree
  simp only [hskip]
  rw [if_neg (by omega)]

/-- `clusterEnd` gives a slot before a free one with used slots up to it, or the used slots go up to
the end of the table. -/
lemma clusterEnd_eq_some : ∀ (fuel : ℕ) {s r : ℕ}, s < rf.numSlots → rf.clusterEnd fuel s = some r →
    rf.phys ((r + 1) % rf.numSlots) = false ∧
      (s ≤ r ∧ r + 1 < rf.numSlots ∧ (∀ p, s < p → p ≤ r → rf.phys p = true) ∨
        ∀ p, s < p → p < rf.numSlots → rf.phys p = true)
  | 0, s, r, _, h => by cases h
  | fuel + 1, s, r, hs, h => by
    rw [clusterEnd, slotIsFree] at h
    cases hp : rf.phys ((s + 1) % rf.numSlots) with
    | false =>
      rw [hp, if_pos (by rfl)] at h
      cases h
      refine ⟨hp, ?_⟩
      by_cases hend : s + 1 < rf.numSlots
      · exact .inl ⟨le_rfl, hend, fun p h1 h2 => by omega⟩
      · exact .inr fun p h1 h2 => by omega
    | true =>
      rw [hp, if_neg (by simp)] at h
      by_cases hend : s + 1 < rf.numSlots
      · rw [Nat.mod_eq_of_lt hend] at h hp
        obtain ⟨h1, ⟨h3, h4, h5⟩ | h3⟩ := clusterEnd_eq_some fuel hend h
        · refine ⟨h1, .inl ⟨by omega, h4, fun p h6 h7 => ?_⟩⟩
          rcases Nat.lt_or_eq_of_le (show s + 1 ≤ p from h6) with hlt | rfl
          · exact h5 p hlt h7
          · exact hp
        · refine ⟨h1, .inr fun p h6 h7 => ?_⟩
          rcases Nat.lt_or_eq_of_le (show s + 1 ≤ p from h6) with hlt | rfl
          · exact h3 p hlt h7
          · exact hp
      · rw [show (s + 1) % rf.numSlots =
          0 by rw [show s + 1 = rf.numSlots by omega, Nat.mod_self]] at h
        obtain ⟨h1, -⟩ := clusterEnd_eq_some fuel (by omega) h
        exact ⟨h1, .inr fun p h2 h3 => by omega⟩

/-! ## What an insertion does -/

/-- How many slots hold the fingerprint `(q, r)`. -/
def stored (rf : RsqfFilter) (q r : ℕ) : ℕ :=
  cnt (holds rf.occ rf.run rf.phys rf.remGet q r) rf.numSlots

/-- No slot between a quotient and the end of its run is free. -/
def Dense (rf : RsqfFilter) : Prop := ∀ p, cnt rf.run p < cnt rf.occ (p + 1) → rf.phys p = true

/-- No slot between a quotient without a run and the end of the run before is free. -/
def GapFree (rf : RsqfFilter) (q : ℕ) : Prop :=
  rf.occ q = false → rf.run q = false → 0 < rf.rankOcc q → ∀ p,
  q ≤ p → p ≤ rf.selectRun (rf.rankOcc q) → rf.phys p = true

/-- The filter `rf'` is `rf` with one more fingerprint `(q, r)`. -/
structure Inserted (rf : RsqfFilter) (q r : ℕ) (rf' : RsqfFilter) : Prop where
  good : rf'.Good
  slots : rf'.numSlots = rf.numSlots
  bits : rf'.remainderBits = rf.remainderBits
  stored : ∀ q' r', rf'.stored q' r' = rf.stored q' r' + if q' = q ∧ r = r' then 1 else 0
  dense : rf.Dense → rf'.Dense

/-- The count of slots with a mark after one slot was opened for it. -/
lemma cnt_marked {x x' : Bits} {ns : ℕ} {c : Prop} [Decidable c] (hsn : s ≤ n) (hn : n < ns)
    (hfree : x n = false)
    (hx : ∀ p, x' p = openAt x s n (decide c) p) : cnt x' ns = cnt x ns + if c then 1 else 0 := by
  rw [cnt_congr fun p _ => hx p, cnt_openAt_of_gt hsn hfree hn]
  by_cases hc : c <;> simp [hc]

/-- A free slot holds no fingerprint. -/
lemma holds_of_free {r : ℕ} (hn : rf.phys n = false) :
    holds rf.occ rf.run rf.phys rf.remGet q r n = false := by
  simp [holds, hn]

namespace Good

/-- A new run is put into an opened slot. -/
lemma insert_new (h : rf.Good) (w : NewRun rf.numSlots rf.occ rf.run rf.phys q s n)
    (hrem : rem < 2 ^ rf.remainderBits) (hd : rf.Dense → ∀ p, q ≤ p → p < s → rf.phys p = true) :
    Inserted rf q rem (((rf.openSlot s n).place q rem s).updateOffsetsFrom (q / 64)) := by
  have hsn := w.le_free
  have hn := w.lt
  have hqs := w.le
  have hns := h.slots
  have hrun := h.laid.run_of_free w.free
  obtain ⟨tbl, heq⟩ := place_eq q rem h.bits hsn w.free hrun
  have hget : ∀ p, ((rf.openSlot s n).place q rem s).remGet p = openAt rf.remGet s n rem p := by
    intro p
    have := remGet_place rem h.bits hsn w.free hrun p
    rw [Nat.mod_eq_of_lt hrem] at this
    exact this
  rw [heq] at hget ⊢
  have hsized : Sized { rf with
      occ := Function.update rf.occ q true
      run := openAt rf.run s n true
      phys := openAt rf.phys s n true
      count := rf.count + 1
      remTable := tbl } := by
    refine ⟨h.slots, h.small, h.bits_pos, h.bits, w.laid h.laid, ?_⟩
    change rf.count + 1 = cnt (openAt rf.phys s n true) rf.numSlots
    rw [cnt_openAt_of_gt hsn w.free hn, h.count]
    rfl
  refine ⟨?_, rfl, rfl, fun q' r' => ?_, fun hdense p hp => ?_⟩
  · refine h.reindexed hsized rfl rfl rfl rfl (show q / 64 ≤ rf.numBlocks by omega)
      (fun i hi => Function.update_of_ne (by omega) ..) (show 64 * (q / 64) ≤ s by omega)
      (fun i hi => openAt_of_lt hi) ?_
    rw [w.rank]
    exact cnt_mono (by omega)
  · exact cnt_marked hsn hn (holds_of_free w.free) (w.holds_eq h.laid hget q' r')
  · change openAt rf.phys s n true p = true
    change cnt (openAt rf.run s n true) p < cnt (Function.update rf.occ q true) (p + 1) at hp
    rw [w.cnt_occ, w.cnt_run h.laid] at hp
    rcases openAt_cases s n p with hps | rfl | ⟨p, rfl, h1, h2⟩ | ⟨h1, h2⟩
    · rw [openAt_of_lt hps]
      by_cases hqp : q ≤ p
      · exact hd hdense p hqp hps
      · rw [if_pos hps.le, if_neg (by omega)] at hp
        exact hdense p hp
    · exact openAt_self
    · rw [openAt_succ h1 h2]
      exact w.used p h1 h2
    · rw [openAt_of_gt hsn h2]
      rw [if_neg (by omega), if_neg (by omega), if_pos (by omega)] at hp
      exact hdense p (by omega)

/-- A run gets one more slot. -/
lemma insert_extend (h : rf.Good) (w : Extension rf.numSlots rf.occ rf.run rf.phys q e n)
    (hrem : rem < 2 ^ rf.remainderBits) :
    Inserted rf q rem (({ rf.openSlot (e + 1) n with
      run := clearBit (rf.openSlot (e + 1) n).run e }.place q rem (e + 1)).updateOffsetsFrom
        (q / 64)) := by
  have hen := w.lt_free
  have hn := w.lt
  have hns := h.slots
  have hqe := h.laid.le_end w.select
  have hrun := h.laid.run_of_free w.free
  have hsn : e + 1 ≤ n := hen
  obtain ⟨tbl, heq⟩ := place_eq q rem h.bits hsn w.free hrun
  have hget :
      ∀ p, ((rf.openSlot (e + 1) n).place q rem (e + 1)).remGet p = openAt rf.remGet
        (e + 1) n rem p := by
    intro p
    have := remGet_place rem h.bits hsn w.free hrun p
    rw [Nat.mod_eq_of_lt hrem] at this
    exact this
  have hclear :
      { rf.openSlot (e + 1) n with run := clearBit (rf.openSlot (e + 1) n).run e }.place q rem
        (e + 1) =
      { (rf.openSlot (e + 1) n).place q rem (e + 1) with
        run := Function.update ((rf.openSlot (e + 1) n).place q rem (e + 1)).run e false } := by
    have hc := Function.update_comm (Nat.succ_ne_self e).symm false true (rf.openSlot (e + 1) n).run
    exact congrArg (fun run => { (rf.openSlot (e + 1) n).place q rem (e + 1) with run := run }) hc
  have hocc : Function.update rf.occ q true = rf.occ := Function.update_eq_self_iff.mpr w.set.symm
  rw [hclear]
  rw [heq, hocc] at hget ⊢
  have hsized : Sized { rf with
      run := Function.update (openAt rf.run (e + 1) n true) e false
      phys := openAt rf.phys (e + 1) n true
      count := rf.count + 1
      remTable := tbl } := by
    refine ⟨h.slots, h.small, h.bits_pos, h.bits, w.laid h.laid, ?_⟩
    change rf.count + 1 = cnt (openAt rf.phys (e + 1) n true) rf.numSlots
    rw [cnt_openAt_of_gt hsn w.free hn, h.count]
    rfl
  refine ⟨?_, rfl, rfl, fun q' r' => ?_, fun hdense p hp => ?_⟩
  · refine h.reindexed hsized rfl rfl rfl rfl (show q / 64 ≤ rf.numBlocks by omega)
      (fun i hi => rfl)
      (show 64 * (q / 64) ≤ e by omega) (fun i hi => ?_) ?_
    · change Function.update (openAt rf.run (e + 1) n true) e false i = rf.run i
      rw [Function.update_of_ne (by omega), openAt_of_lt (by omega)]
    · rw [w.select.2]
      exact cnt_mono (by omega)
  · exact cnt_marked hsn hn (holds_of_free w.free) (w.holds_eq h.laid hget q' r')
  · change openAt rf.phys (e + 1) n true p = true
    change cnt (Function.update (openAt rf.run (e + 1) n true) e false) p < cnt rf.occ (p + 1) at hp
    rw [w.cnt_run h.laid] at hp
    rcases openAt_cases (e + 1) n p with hps | rfl | ⟨p, rfl, h1, h2⟩ | ⟨h1, h2⟩
    · rw [openAt_of_lt hps]
      rw [if_pos (by omega)] at hp
      exact hdense p hp
    · exact openAt_self
    · rw [openAt_succ h1 h2]
      exact w.used p h1 h2
    · rw [openAt_of_gt hsn h2]
      rw [if_neg (by omega), if_neg (by omega)] at hp
      exact hdense p hp

/-- The last slot ends a run if it is used. -/
lemma run_last (h : rf.Good) (hns : 0 < rf.numSlots) (hp : rf.phys (rf.numSlots - 1) = true) :
    rf.run (rf.numSlots - 1) = true := by
  by_contra hr
  have := h.laid.phys_lt _ (h.laid.joined _ hp (Bool.eq_false_iff.mpr hr))
  omega

/-- What the part of `rsqf_filter_insert` for a quotient without a run does. -/
lemma insertNew_cases (h : rf.Good) (hq : q < rf.numSlots) (hocc : rf.occ q = false)
    (hrunq : rf.run q = false) (hgap : rf.GapFree q) (hrem : rem < 2 ^ rf.remainderBits) :
    rf.insertNew q rem = (.full, rf) ∨ ∃ rf',
      rf.insertNew q rem = (.ok, rf') ∧ Inserted rf q rem rf' := by
  have hrank : rf.rankOcc q = cnt rf.occ q := by rw [h.rankOcc hq, cnt_succ_of_clear hocc]
  have hgap := hgap hocc hrunq
  -- the run in front of the quotient ends at `select_run`
  have hend : ∀ k, cnt rf.occ q = k + 1 → ∃ e < rf.numSlots,
      IsSelect rf.run k e ∧ rf.selectRun (k + 1) = e := by
    intro k hk
    have hle := cnt_mono (b := rf.occ) hq.le
    obtain ⟨e, he, hs⟩ := h.laid.exists_end (k := k) (by omega)
    exact ⟨e, he, hs, h.selectRun hs⟩
  rw [hrank] at hgap
  unfold insertNew
  -- the home slot is free, or the runs in front of it reach it
  cases hphys : rf.phys q with
  | false =>
    rw [slotIsFree, hphys, if_pos (by rfl)]
    refine .inr ⟨_, rfl, ?_⟩
    have hrank' : cnt rf.run q = cnt rf.occ q := by
      refine Nat.le_antisymm (h.laid.run_le q) ?_
      rcases Nat.eq_zero_or_eq_succ_pred (cnt rf.occ q) with h0 | hk
      · omega
      · obtain ⟨e, -, hs, hsel⟩ := hend _ hk
        have hlt : e < q := by
          by_contra hle
          have := hgap (by omega) q le_rfl (by rw [hk, hsel]; omega)
          rw [hphys] at this
          cases this
        have := hs.lt_iff.mp hlt
        omega
    have w : NewRun rf.numSlots rf.occ rf.run rf.phys q q q :=
      ⟨hocc, le_rfl, le_rfl, hq, hphys, fun p h1 h2 => by omega, hrank',
        fun p hp hpp => h.laid.front_of_free hphys hpp hp⟩
    have := h.insert_new w hrem fun _ p h1 h2 => by omega
    rwa [openSlot, if_neg (lt_irrefl _), if_neg (lt_irrefl _)] at this
  | true =>
    rw [slotIsFree, hphys, if_neg (by simp), hrank]
    have hpos : cnt rf.run q < cnt rf.occ q := by
      have := h.laid.behind q hphys
      rwa [cnt_succ_of_clear hocc] at this
    obtain ⟨k, hk⟩ := Nat.exists_eq_succ_of_ne_zero (show cnt rf.occ q ≠ 0 by omega)
    obtain ⟨e, he, hs, hsel⟩ := hend k hk
    have hqe : q ≤ e := by
      by_contra hlt
      have := hs.lt_iff.mp (not_le.mp hlt)
      omega
    have hused : ∀ p, q ≤ p → p ≤ e → rf.phys p = true := fun p h1 h2 =>
      hgap (by omega) p h1 (by rw [hk, hsel]; exact h2)
    simp only [hk, if_pos (Nat.succ_pos k), hsel]
    -- the source gives up where the new run would wrap
    by_cases hend : e + 1 = rf.numSlots
    · rw [if_pos ⟨Nat.succ_pos k, by rw [hend, Nat.mod_self]⟩]
      exact .inl rfl
    rw [Nat.mod_eq_of_lt (show e + 1 < rf.numSlots by omega), if_neg (by omega)]
    split
    · exact .inl rfl
    rename_i r hr
    obtain ⟨hfree, hcase⟩ := clusterEnd_eq_some _ hq hr
    rw [firstFree_of_free (Nat.mod_lt _ (by omega)) hfree]
    simp only
    rcases hcase with ⟨hqr, hrn, hbetween⟩ | hall
    · -- the free slot is behind the cluster
      rw [Nat.mod_eq_of_lt hrn] at hfree ⊢
      have hall : ∀ p, q ≤ p → p < r + 1 → rf.phys p = true := by
        intro p h1 h2
        rcases Nat.lt_or_eq_of_le h1 with hlt | rfl
        · exact hbetween p hlt (by omega)
        · exact hphys
      have her : e < r + 1 := by
        by_contra hle
        rw [hused (r + 1) (by omega) (by omega)] at hfree
        cases hfree
      have hcnt : cnt rf.run (e + 1) = cnt rf.occ q := by rw [cnt_succ_of_set hs.1, hs.2, hk]
      have w : NewRun rf.numSlots rf.occ rf.run rf.phys q (e + 1) (r + 1) :=
        ⟨hocc, by omega, her, hrn, hfree, fun p h1 h2 => hall p (by omega) h2, hcnt,
          fun p hp _ => by
          have := cnt_mono (b := rf.run) (show p ≤ e by omega)
          rw [hcnt, hk]
          rw [hs.2] at this
          omega⟩
      rw [if_neg (by omega), if_neg (by omega), if_pos (by omega)]
      exact .inr ⟨_, rfl, h.insert_new w hrem fun _ p h1 h2 => hused p h1 (by omega)⟩
    · -- the cluster goes on to the end of the table
      have hlast : rf.run (rf.numSlots - 1) = true := by
        refine h.run_last (by omega) ?_
        rcases Nat.lt_or_eq_of_le (show q ≤ rf.numSlots - 1 by omega) with hlt | heq
        · exact hall _ hlt (by omega)
        · rwa [← heq]
      have hlt : (r + 1) % rf.numSlots < e + 1 := by
        by_contra hle
        rw [hall _ (by omega) (Nat.mod_lt _ (by omega))] at hfree
        cases hfree
      rw [if_pos ⟨hlt, hlast⟩]
      exact .inl rfl

/-- What the part of `rsqf_filter_insert` for a quotient with a run does, when the run ends at
`e`. -/
lemma insertBehind_cases (h : rf.Good) (hq : q < rf.numSlots) (hrem : rem < 2 ^ rf.remainderBits)
    (he : rf.occ q = true ∧ IsSelect rf.run (cnt rf.occ q) e ∨
      rf.occ q = false ∧ q ≤ e ∧ ∃ k, cnt rf.occ q = k + 1 ∧ IsSelect rf.run k e) :
    rf.insertBehind q rem e = (.full, rf) ∨
      ∃ rf', rf.insertBehind q rem e = (.ok, rf') ∧ Inserted rf q rem rf' := by
  have hens : e < rf.numSlots := by
    rcases he with ⟨-, hs⟩ | ⟨-, -, k, -, hs⟩ <;> exact h.laid.end_lt hs
  unfold insertBehind
  by_cases hlast : rf.numSlots ≤ e + 1
  · -- behind the last slot: rejected
    simp only [if_pos hlast]
    split
    · exact .inl rfl
    · have hbad : rf.occ q = true ∨ 0 < rf.rankOcc q := by
        rcases he with ⟨ho, -⟩ | ⟨ho, -, k, hk, -⟩
        · exact .inl ho
        · rw [h.rankOcc hq, cnt_succ_of_clear ho, hk]
          exact .inr (Nat.succ_pos k)
      rw [if_pos ⟨trivial, by omega, hbad⟩]
      exact .inl rfl
  simp only [if_neg hlast]
  split
  · exact .inl rfl
  rename_i n hn
  rw [if_neg (by omega)]
  obtain ⟨hfree, ⟨hsn, hnn, hused⟩ | ⟨hns, hall⟩⟩ := firstFree_eq_some (by omega) hn
  · have hqe : q ≤ e := by
      rcases he with ⟨-, hs⟩ | ⟨-, hqe, -⟩
      · exact h.laid.le_end hs
      · exact hqe
    have hfb : (if n < e + 1 then 0 else (if q < e + 1 then q else e + 1) / 64) = q / 64 := by
      rw [if_neg (by omega), if_pos (by omega)]
    have hprev : (if e + 1 = 0 then rf.numSlots - 1 else e + 1 - 1) = e := by
      rw [if_neg (by omega), Nat.add_sub_cancel]
    rw [if_neg (by omega), hfb, hprev]
    rcases he with ⟨ho, hs⟩ | ⟨ho, -, k, hk, hs⟩
    · have w : Extension rf.numSlots rf.occ rf.run rf.phys q e n := ⟨ho, hs, hsn, hnn, hfree, hused⟩
      rw [if_pos ho]
      exact .inr ⟨_, rfl, h.insert_extend w hrem⟩
    · have hcnt : cnt rf.run (e + 1) = cnt rf.occ q := by rw [cnt_succ_of_set hs.1, hs.2, hk]
      have w : NewRun rf.numSlots rf.occ rf.run rf.phys q (e + 1) n :=
        ⟨ho, by omega, hsn, hnn, hfree, hused, hcnt, fun p hp _ => by
          have := cnt_mono (b := rf.run) (show p ≤ e by omega)
          rw [hcnt, hk]
          rw [hs.2] at this
          omega⟩
      rw [if_neg (by simp [ho])]
      refine .inr ⟨_, rfl, h.insert_new w hrem fun hd p h1 h2 => hd p ?_⟩
      have h3 := cnt_mono (b := rf.run) (show p ≤ e by omega)
      have h4 := cnt_mono (b := rf.occ) (show q ≤ p + 1 by omega)
      rw [hs.2] at h3
      omega
  · rw [if_pos ⟨hns, h.run_last (by omega) (hall _ (by omega) (by omega))⟩]
    exact .inl rfl

end Good
end RsqfFilter

open RsqfFilter

variable {rf rf' : RsqfFilter}

/-- A remainder has `remainderBits` bits. -/
lemma remainder_lt (rf : RsqfFilter) (hash : UInt64) : rf.remainder hash < 2 ^ rf.remainderBits :=
  Nat.and_lt_two_pow _ (Nat.sub_lt (Nat.two_pow_pos _) Nat.one_pos)

/-- A quotient names a slot. -/
lemma quotient_lt (hns : 0 < rf.numSlots) (hash : UInt64) : rf.quotient hash < rf.numSlots := by
  have : rf.quotient hash ≤ rf.numSlots - 1 := Nat.and_le_right
  omega

/-- What `rsqf_filter_insert` does. -/
lemma RsqfFilter.Good.insert_cases (h : rf.Good) (hash : UInt64)
    (hgap : rf.quotient hash < rf.numSlots → rf.GapFree (rf.quotient hash)) :
    rsqfFilterInsert rf hash = some (.full, rf) ∨
      ∃ rf', rsqfFilterInsert rf hash = some (.ok, rf') ∧ Inserted rf (rf.quotient hash)
      (rf.remainder hash) rf' := by
  unfold rsqfFilterInsert
  by_cases hfull : rf.numSlots ≤ rf.count
  · rw [if_pos hfull]
    exact .inl rfl
  rw [if_neg hfull]
  dsimp only
  have hq : rf.quotient hash < rf.numSlots := quotient_lt (by omega) hash
  have hgap := hgap hq
  have hrem := remainder_lt rf hash
  generalize rf.quotient hash = q at hgap hq ⊢
  generalize rf.remainder hash = rem at hrem ⊢
  have hdone : ∀ {x : RsqfErr × RsqfFilter},
    (x = (.full, rf) ∨ ∃ rf', x = (.ok, rf') ∧ Inserted rf q rem rf') →
      some x = some (RsqfErr.full, rf) ∨ ∃ rf',
      some x = some (RsqfErr.ok, rf') ∧ Inserted rf q rem rf' := by
    rintro x (rfl | ⟨rf', rfl, hi⟩)
    · exact .inl rfl
    · exact .inr ⟨rf', rfl, hi⟩
  cases ho : rf.occ q with
  | true =>
    obtain ⟨e, -, hs⟩ := h.laid.exists_end (k := cnt rf.occ q) (cnt_lt_of_set ho hq)
    rw [h.findRun ho hs]
    exact hdone (h.insertBehind_cases hq hrem (.inl ⟨ho, hs⟩))
  | false =>
    cases hr : rf.run q with
    | true =>
      obtain ⟨k, e, hk, hs, hqe, hfind⟩ := h.findRun_of_run ho hr
      rw [hfind]
      exact hdone (h.insertBehind_cases hq hrem (.inr ⟨ho, hqe, k, hk, hs⟩))
    | false =>
      have hfind : rf.findRun q = some none := by
        rw [RsqfFilter.findRun, if_neg (by simp [ho]), if_neg (by simp [hr])]
      rw [hfind]
      exact hdone (h.insertNew_cases hq ho hr hgap hrem)

/-- In a dense filter the home slot of every quotient is followed by used slots up to the run
before. -/
lemma RsqfFilter.Good.gapFree (h : rf.Good) (hd : rf.Dense) {q : ℕ} (hq : q < rf.numSlots) :
    rf.GapFree q := by
  intro ho _ hpos p hqp hpe
  rw [h.rankOcc hq, cnt_succ_of_clear ho] at hpos hpe
  obtain ⟨k, hk⟩ := Nat.exists_eq_succ_of_ne_zero hpos.ne'
  have hle := cnt_mono (b := rf.occ) hq.le
  obtain ⟨e, -, hs⟩ := h.laid.exists_end (k := k) (by omega)
  rw [hk, h.selectRun hs] at hpe
  have h3 := cnt_mono (b := rf.run) hpe
  have h4 := cnt_mono (b := rf.occ) (show q ≤ p + 1 by omega)
  rw [hs.2] at h3
  exact hd p (by omega)

/-! ## Filters that are only inserted into -/

/-- The next power of two has 64 bits. -/
lemma nextPowerOf2_lt (n : ℕ) : nextPowerOf2 n < 2 ^ 64 := by
  unfold nextPowerOf2
  by_cases h0 : n = 0
  · rw [if_pos h0]
    exact Nat.one_lt_two_pow (by omega)
  · rw [if_neg h0]
    exact Nat.mod_lt _ (Nat.two_pow_pos 64)

/-- `rsqf_filter_create` gives a good filter without data. -/
lemma good_create {capacity fpBits : ℕ} (h : rsqfFilterCreate capacity fpBits = some rf) :
    rf.Good ∧ rf.Dense ∧ rf.phys = fun _ => false := by
  unfold rsqfFilterCreate at h
  by_cases h0 : capacity = 0
  · rw [if_pos h0] at h
    cases h
  rw [if_neg h0] at h
  extract_lets b₀ b₁ b₂ nb at h
  cases h
  have hnb : nb ≤ 2 ^ 58 := by
    have := nextPowerOf2_lt capacity
    omega
  have hbits : 2 ≤ b₂ ∧ b₂ ≤ 32 := by
    have h1 : 2 ≤ b₁ := by
      unfold b₁
      split_ifs <;> omega
    unfold b₂
    split_ifs <;> omega
  refine ⟨⟨⟨Nat.mul_comm .., ?_, ?_, ?_, ⟨nofun, nofun, rfl, nofun, nofun, nofun⟩,
    (cnt_false _).symm⟩, fun b _ => (cnt_false _).symm, fun b _ => (cnt_false _).symm, ?_⟩, ?_, rfl⟩
  · change nb * 64 ≤ 2 ^ 64
    omega
  · change 0 < b₂
    omega
  · change b₂ ≤ 64
    omega
  · intro b _ hlt
    rw [show cnt _ (64 * (b + 1)) = 0 from cnt_false _] at hlt
    cases hlt
  · intro p hp
    rw [show cnt _ (p + 1) = 0 from cnt_false _] at hp
    cases hp

/-- The filters that insertions reach from `f₀`, with the hashes that were inserted. -/
inductive Grown (f₀ : RsqfFilter) : List UInt64 → RsqfFilter → Prop where
  | start : Grown f₀ [] f₀
  | insert {hashes rf hash err rf'} :
    Grown f₀ hashes rf → rsqfFilterInsert rf hash = some (err, rf') →
    Grown f₀ (if err = .ok then hash :: hashes else hashes) rf'

/-- `rsqf_filter_lookup` finds a stored fingerprint. -/
lemma RsqfFilter.Good.lookup (h : rf.Good) {hash : UInt64}
    (hs : 0 < rf.stored (rf.quotient hash) (rf.remainder hash)) :
    rsqfFilterLookup rf hash = some true := by
  obtain ⟨p, hp, hmark, -⟩ := exists_isSelect hs
  obtain ⟨ho, hphys, hrem, hrank⟩ := holds_iff.mp hmark
  have hq := h.laid.occ_lt _ ho
  have hcount : 0 < rf.count := by
    rw [h.count]
    have := cnt_lt_of_set hphys hp
    omega
  obtain ⟨e, -, hsel⟩ :=
    h.laid.exists_end (k := cnt rf.occ (rf.quotient hash)) (cnt_lt_of_set ho hq)
  obtain ⟨hse, hrange⟩ := h.runStart hsel
  obtain ⟨hsp, hpe⟩ := (hrange p).mpr hrank
  unfold rsqfFilterLookup
  rw [if_neg (by omega)]
  dsimp only
  rw [if_neg (by omega), h.findRun ho hsel, Option.map_some]
  dsimp only
  rw [if_pos hse]
  refine congrArg some (List.any_eq_true.mpr ⟨p, List.mem_range'_1.mpr ⟨hsp, by omega⟩, ?_⟩)
  rw [hrem]
  exact beq_self_eq_true _

/-- What holds of a filter that is only inserted into. -/
structure Filling (f₀ : RsqfFilter) (hashes : List UInt64) (rf : RsqfFilter) : Prop where
  good : rf.Good
  dense : rf.Dense
  slots : rf.numSlots = f₀.numSlots
  bits : rf.remainderBits = f₀.remainderBits
  held : ∀ h ∈ hashes, 0 < rf.stored (f₀.quotient h) (f₀.remainder h)

/-- The quotient of a hash is that of the created filter. -/
lemma Filling.quotient {f₀ : RsqfFilter} {hashes : List UInt64} (h : Filling f₀ hashes rf)
    (hash : UInt64) :
    rf.quotient hash = f₀.quotient hash := by
  unfold RsqfFilter.quotient
  rw [h.slots, h.bits]

/-- The remainder of a hash is that of the created filter. -/
lemma Filling.remainder {f₀ : RsqfFilter} {hashes : List UInt64} (h : Filling f₀ hashes rf)
    (hash : UInt64) :
    rf.remainder hash = f₀.remainder hash := by
  unfold RsqfFilter.remainder
  rw [h.bits]

/-- One insertion. -/
lemma Filling.insert {f₀ : RsqfFilter} {hashes : List UInt64} (h : Filling f₀ hashes rf)
    (hash : UInt64) :
    rsqfFilterInsert rf hash = some (.full, rf) ∨
      ∃ rf', rsqfFilterInsert rf hash = some (.ok, rf') ∧ Filling f₀ (hash :: hashes) rf' := by
  rcases h.good.insert_cases hash fun hq => h.good.gapFree h.dense hq with hfull | ⟨rf', heq, hi⟩
  · exact .inl hfull
  · refine .inr ⟨rf', heq, hi.good, hi.dense h.dense, hi.slots.trans h.slots, hi.bits.trans h.bits,
      fun x hx => ?_⟩
    rw [hi.stored]
    rcases List.mem_cons.mp hx with rfl | hx
    · rw [h.quotient, h.remainder, if_pos ⟨rfl, rfl⟩]
      exact Nat.succ_pos _
    · exact Nat.add_pos_left (h.held x hx) _

/-- Insertions keep what holds of the filter. -/
lemma Grown.filling {f₀ : RsqfFilter} (h₀ : f₀.Good) (hd : f₀.Dense) {hashes : List UInt64}
    (h : Grown f₀ hashes rf) :
    Filling f₀ hashes rf := by
  induction h with
  | start => exact ⟨h₀, hd, rfl, rfl, nofun⟩
  | @insert hashes rf hash err rf' _ hi ih =>
    rcases ih.insert hash with hfull | ⟨rf'', heq, hf⟩
    · rw [hfull] at hi
      cases hi
      exact ih
    · rw [heq] at hi
      cases hi
      exact hf

/-- A filter that was only inserted into: as many occupied quotients as run ends, every run at or
behind its quotient with used slots between and not around the end of the table, and every inserted
hash is found; an insertion returns, and leaves the filter if it is full. -/
theorem insert_only_correct {capacity fpBits : ℕ} {f₀ rf : RsqfFilter} {hashes : List UInt64}
    (hc : rsqfFilterCreate capacity fpBits = some f₀) (hg : Grown f₀ hashes rf) :
    cnt rf.occ rf.numSlots = cnt rf.run rf.numSlots ∧
      (∀ k q e, IsSelect rf.occ k q → IsSelect rf.run k e →
        q ≤ e ∧ e < rf.numSlots ∧ ∀ p, q ≤ p → p ≤ e → rf.phys p = true) ∧
      (∀ q, rf.occ q = true → ∃ rstart rend,
        rf.findRun q = some (some (rstart, rend)) ∧ rstart ≤ rend ∧
        rend < rf.numSlots) ∧
      (∀ hash ∈ hashes, rsqfFilterLookup rf hash = some true) ∧
      ∀ hash, ∃ err rf', rsqfFilterInsert rf hash = some (err, rf') ∧ (err = .full → rf' = rf) := by
  obtain ⟨h₀, hd, -⟩ := good_create hc
  have hf := hg.filling h₀ hd
  have h := hf.good
  refine ⟨h.laid.total, fun k q e hq he => ?_, fun q hq => ?_, fun hash hh => ?_, fun hash => ?_⟩
  · have he' : IsSelect rf.run (cnt rf.occ q) e := by rwa [hq.2]
    refine ⟨h.laid.le_end he', h.laid.end_lt he, fun p hqp hpe => hf.dense p ?_⟩
    have h1 := cnt_mono (b := rf.run) hpe
    have h2 := cnt_lt_of_set hq.1 (show q < p + 1 by omega)
    rw [he.2] at h1
    rw [hq.2] at h2
    omega
  · obtain ⟨e, he, hs⟩ := h.laid.exists_end (cnt_lt_of_set hq (h.laid.occ_lt q hq))
    exact ⟨_, e, h.findRun hq hs, (h.runStart hs).1, he⟩
  · refine h.lookup ?_
    rw [hf.quotient, hf.remainder]
    exact hf.held hash hh
  · rcases hf.insert hash with hfull | ⟨rf', heq, -⟩
    · exact ⟨.full, rf, hfull, fun _ => rfl⟩
    · exact ⟨.ok, rf', heq, nofun⟩

/-- A filter with three hashes of two quotients, the third behind the run of the first. -/
theorem insert_only_correct_three :
    ∃ f₀ rf, rsqfFilterCreate 64 2 = some f₀ ∧ Grown f₀ [24, 22, 21] rf ∧
    rsqfFilterLookup rf 24 = some true := by
  obtain ⟨f₀, hc⟩ : ∃ f₀, rsqfFilterCreate 64 2 = some f₀ := ⟨_, rfl⟩
  have hrun : ((rsqfFilterInsert f₀ 21).bind fun r₁ => (rsqfFilterInsert r₁.2 22).bind fun r₂ =>
      (rsqfFilterInsert r₂.2 24).map fun r₃ => (r₁.1, r₂.1, r₃.1)) = some (.ok, .ok, .ok) := by
    cases hc
    decide +kernel
  obtain ⟨⟨e₁, f₁⟩, h₁, hrun⟩ := Option.bind_eq_some_iff.mp hrun
  obtain ⟨⟨e₂, f₂⟩, h₂, hrun⟩ := Option.bind_eq_some_iff.mp hrun
  obtain ⟨⟨e₃, f₃⟩, h₃, hrun⟩ := Option.map_eq_some_iff.mp hrun
  cases hrun
  have hg : Grown f₀ [24, 22, 21] f₃ := .insert (.insert (.insert .start h₁) h₂) h₃
  exact ⟨f₀, f₃, hc, hg, (insert_only_correct hc hg).2.2.2.1 24 (by decide)⟩

end Draugr.Rsqf
