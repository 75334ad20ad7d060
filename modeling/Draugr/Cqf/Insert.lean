import Draugr.Cqf.Shift

/-!
# Insertions

What `cqf_filter_insert` does to a packed filter. Whatever the decoder makes of a run, an insertion
replaces a part of one run and moves the runs behind it, or it fails before the first write
(`Holds.insert_cases`). An entry never gets shorter by one more occurrence, so a filter that is only
inserted into stays packed.
-/

namespace Draugr.Cqf
open Draugr.Lib Draugr.Qf

section Decoder

variable {rbits x C n i pos rend cnt next e : ℕ} {tbl : ℕ → ℕ} {occ : ℕ → Bool}

/-! ## The decoder -/

/-- A scan goes forward, and not past the end. -/
lemma scan_bounds (tbl : ℕ → ℕ) (p : ℕ → Bool) : ∀ n i, i ≤ scan tbl p n i ∧ scan tbl p n i ≤ i + n
  | 0, i => ⟨le_rfl, le_rfl⟩
  | n + 1, i => by
    rw [scan]
    split_ifs
    · have := scan_bounds tbl p n (i + 1)
      omega
    · omega

/-- The symbols of a zero counter end inside the run. -/
lemma zeroSymbols_bounds (tbl : ℕ → ℕ) (rend : ℕ) : ∀ n i, i + n = rend + 1 →
    i ≤ (zeroSymbols tbl rend n i).2 ∧ (zeroSymbols tbl rend n i).2 ≤ rend + 1
  | 0, i, hi => by
    rw [zeroSymbols]
    omega
  | n + 1, i, hi => by
    rw [zeroSymbols]
    split_ifs with h
    · dsimp only
      omega
    · have := zeroSymbols_bounds tbl rend n (i + 1) (by omega)
      dsimp only
      omega

/-- A decoded count has 64 bits. -/
lemma decodeCount_lt (enc : List ℕ) (x rbits : ℕ) : decodeCount enc x rbits < 2 ^ 64 := by
  unfold decodeCount
  split_ifs
  · norm_num
  · exact Nat.mod_lt _ (by norm_num)
  · exact Nat.mod_lt _ (by norm_num)

/-- What the decoder gives for a remainder: the entry ends in the run, and a count that was not read
from symbols is the number of its slots. -/
lemma decodeZero_bounds (hp : pos ≤ rend) (h : decodeZero rbits tbl rend pos = (cnt, e)) :
    pos < e ∧ e ≤ rend + 1 ∧ cnt < 2 ^ 64 ∧ (1 ≤ cnt ∨ pos + 2 ≤ e) := by
  have hi := scan_bounds tbl (fun v => decide (v = 0)) (rend + 1 - (pos + 1)) (pos + 1)
  unfold decodeZero at h
  dsimp only at h
  generalize scan tbl (fun v => decide (v = 0)) (rend + 1 - (pos + 1)) (pos + 1) = j at h hi
  have htwo : (j - pos, j) = (cnt, e) → ¬ 2 < j - pos → pos < e ∧ e ≤ rend + 1 ∧ cnt < 2 ^ 64 ∧
      (1 ≤ cnt ∨ pos + 2 ≤ e) := by
    intro h h'
    obtain ⟨rfl, rfl⟩ := Prod.mk.inj h
    omega
  split_ifs at h with h1 h2 h3
  · obtain ⟨rfl, rfl⟩ := Prod.mk.inj h
    omega
  · obtain ⟨rfl, rfl⟩ := Prod.mk.inj h
    have := zeroSymbols_bounds tbl rend (rend + 1 - j) j (by omega)
    exact ⟨by omega, by omega, decodeCount_lt _ _ _, .inr (by omega)⟩
  · exact htwo h h1
  · exact htwo h h1

/-- A decoded entry with a remainder ends inside the run and has an occurrence or two slots. -/
lemma decodeNonzero_bounds (hp : pos ≤ rend) (h : decodeNonzero rbits tbl rend pos x = (cnt, e)) :
    pos < e ∧ e ≤ rend + 1 ∧ cnt < 2 ^ 64 ∧ (1 ≤ cnt ∨ pos + 2 ≤ e) := by
  have hj := scan_bounds tbl (fun v => decide (v ≠ x)) (rend + 1 - (pos + 1)) (pos + 1)
  unfold decodeNonzero at h
  dsimp only at h
  generalize scan tbl (fun v => decide (v ≠ x)) (rend + 1 - (pos + 1)) (pos + 1) = j at h hj
  split_ifs at h with h1 h2
  · obtain ⟨rfl, rfl⟩ := Prod.mk.inj h
    omega
  · obtain ⟨rfl, rfl⟩ := Prod.mk.inj h
    omega
  · obtain ⟨rfl, rfl⟩ := Prod.mk.inj h
    exact ⟨by omega, by omega, decodeCount_lt _ _ _, .inr (by omega)⟩

/-- What a successful decoding says, whatever the slots hold. -/
structure Decoded (rbits : ℕ) (tbl : ℕ → ℕ) (rend pos x cnt next : ℕ) : Prop where
  le : pos ≤ rend
  first : tbl pos = x
  one_le : 1 ≤ cnt
  lt : cnt < 2 ^ 64
  slots : pos + cqfEncSlots cnt x rbits = next
  next_le : next ≤ rend + 1

/-- Where there is data, the decoder reads from the first slot on. -/
lemma cqfDecodeEntry_of_occ (hocc : occ pos = true) :
    cqfDecodeEntry rbits tbl occ rend pos = cqfDecodeEntry rbits tbl (fun _ => true) rend pos := by
  have hskip : ∀ n, skipGaps occ n pos = pos := by
    intro n
    cases n with
    | zero => rfl
    | succ n => rw [skipGaps, if_pos hocc]
  unfold cqfDecodeEntry
  rw [hskip, skipGaps_of_occ]

/-- There is at least one slot, and more for a count above one. -/
lemma one_le_cqfEncSlots (C x rbits : ℕ) : 1 ≤ cqfEncSlots C x rbits := by
  rw [cqfEncSlots]
  split_ifs <;> omega

/-- A decoded entry ends inside the run. -/
lemma decoded (hocc : pos ≤ rend → occ pos = true)
    (h : cqfDecodeEntry rbits tbl occ rend pos = some (x, cnt, next)) :
    Decoded rbits tbl rend pos x cnt next := by
  have hp : pos ≤ rend := by
    by_contra hp
    unfold cqfDecodeEntry at h
    have hz : rend + 1 - pos = 0 := by omega
    rw [hz, skipGaps, if_pos (by omega)] at h
    cases h
  rw [cqfDecodeEntry_of_occ (hocc hp)] at h
  rcases hd : (if tbl pos = 0 then decodeZero rbits tbl rend pos
    else decodeNonzero rbits tbl rend pos (tbl pos)) with
    ⟨c, e⟩
  rw [cqfDecodeEntry_eq hp hd] at h
  have hb : pos < e ∧ e ≤ rend + 1 ∧ c < 2 ^ 64 ∧ (1 ≤ c ∨ pos + 2 ≤ e) := by
    split_ifs at hd
    · exact decodeZero_bounds hp hd
    · exact decodeNonzero_bounds hp hd
  split_ifs at h with hs
  obtain ⟨hx, h⟩ := Prod.mk.inj (Option.some.inj h)
  obtain ⟨rfl, rfl⟩ := Prod.mk.inj h
  rw [hx, not_not] at hs
  refine ⟨hp, hx, ?_, hb.2.2.1, by omega, hb.2.1⟩
  by_contra h0
  have hone : cqfEncSlots c x rbits = 1 := if_pos (by omega)
  omega

end Decoder

namespace CqfFilter

variable {cf cf' : CqfFilter} {m : ℕ → List ℕ} {q n s f rem rend pos cnt next insPos a : ℕ}
  {hash : UInt64}

/-! ## Quotients and remainders -/

/-- A quotient names a slot. -/
lemma Packed.quotient_lt (h : Packed cf m) (hash : UInt64) : cf.quotient hash < cf.numSlots := by
  obtain ⟨k, -, hk⟩ := h.power
  rw [quotient, hk, Nat.and_two_pow_sub_one_eq_mod]
  exact Nat.mod_lt _ (Nat.two_pow_pos k)

/-- A remainder has `remainderBits` bits. -/
lemma remainder_lt (cf : CqfFilter) (hash : UInt64) : cf.remainder hash < 2 ^ cf.remainderBits := by
  rw [remainder, Nat.and_two_pow_sub_one_eq_mod]
  exact Nat.mod_lt _ (Nat.two_pow_pos _)

/-- There is a slot. -/
lemma Packed.numSlots_pos (h : Packed cf m) : 0 < cf.numSlots := by
  obtain ⟨k, -, hk⟩ := h.power
  exact hk ▸ Nat.two_pow_pos k

/-! ## The search for a free slot -/

/-- `skip_used` stops at the first unused slot. -/
lemma skipUsed_spec (phys : Bits) : ∀ n s, s ≤ skipUsed phys n s ∧ skipUsed phys n s ≤ s + n ∧
    (∀ p, s ≤ p → p < skipUsed phys n s → phys p = true) ∧
    (skipUsed phys n s < s + n → phys (skipUsed phys n s) = false)
  | 0, s => ⟨le_rfl, le_rfl, fun p h1 h2 => absurd (h1.trans_lt h2) (lt_irrefl _),
    fun h => absurd h (lt_irrefl _)⟩
  | n + 1, s => by
    rw [skipUsed]
    split_ifs with hs
    · obtain ⟨h1, h2, h3, h4⟩ := skipUsed_spec phys n (s + 1)
      refine ⟨by omega, by omega, fun p h5 h6 => ?_, fun h => h4 (by omega)⟩
      rcases Nat.lt_or_eq_of_le h5 with hlt | rfl
      · exact h3 p hlt h6
      · exact hs
    · exact ⟨le_rfl, by omega, fun p h1 h2 => by omega, fun _ => Bool.eq_false_iff.mpr hs⟩

/-- The search finds a free slot if there is one. -/
lemma firstFree_cases (hs : s < cf.numSlots) :
    (∃ f < cf.numSlots, cf.firstFree s = some f ∧ cf.phys f = false) ∨
    cf.firstFree s = none ∧ ∀ p < cf.numSlots, cf.phys p = true := by
  obtain ⟨h1, h2, h3, h4⟩ := skipUsed_spec cf.phys (cf.numSlots - s) s
  obtain ⟨g1, g2, g3, g4⟩ := skipUsed_spec cf.phys s 0
  unfold firstFree
  dsimp only
  split_ifs with hend hfull
  · refine .inr ⟨rfl, fun p hp => ?_⟩
    by_cases hps : p < s
    · exact g3 p (Nat.zero_le p) (by omega)
    · exact h3 p (by omega) (by omega)
  · exact .inl ⟨_, by omega, rfl, g4 (by omega)⟩
  · exact .inl ⟨_, by omega, rfl, h4 (by omega)⟩

/-- A free slot is behind the last run. -/
lemma Packed.le_free (h : Packed cf m) (hf : cf.phys f = false) : start m cf.numSlots ≤ f := by
  by_contra hlt
  rw [h.phys f (by omega)] at hf
  cases hf

/-! ## One more slot -/

/-- A run with a new remainder at its place `a`. -/
def insertedRun (l : List ℕ) (a rem : ℕ) : List ℕ := l.take a ++ rem :: l.drop a

/-- The filter `cf'` holds the runs `m'` and has `k` more occurrences than `cf`. -/
structure Gained (cf cf' : CqfFilter) (m m' : ℕ → List ℕ) : Prop where
  holds : Holds cf' m'
  alike : Alike cf cf'
  count : cf'.count = cf.count + 1
  clean : Clean cf m → Clean cf' m'

/-- Opening a slot behind the slots of a run that stay and in front of those that move. -/
lemma Packed.spliced_opened (h : Packed cf m) (hs : s ≤ start m cf.numSlots)
    (hf : start m cf.numSlots ≤ f)
    (ho : Opened cf cf' s f rem) (hrem : rem < 2 ^ cf.remainderBits) :
    Spliced cf cf' s 0 (start m cf.numSlots) [rem] false := by
  have hsf := hs.trans hf
  have hcell : ∀ p p', cf'.tbl p = cf.tbl p' → cf'.run p = cf.run p' → cf'.phys p = cf.phys p' →
      cf'.cell p = cf.cell p' := by
    intro p p' h1 h2 h3
    rw [cell, cell, h1, h2, h3]
  -- below the place nothing changes, at it is the new slot, behind it the old ones one further
  refine ⟨fun p => ?_, fun p hp => ?_, fun i hi => ?_, fun i hi => ?_, fun i hi => ?_,
    fun i hi => ?_, fun p hp => ?_, fun hclean p hp => ?_⟩
  · rw [ho.tbl, ho.beside.remainderBits]
    rcases openAt_cases s f p with hps | rfl | ⟨p, rfl, h1, h2⟩ | ⟨h1, h2⟩
    · rw [openAt_of_lt hps]
      exact h.narrow p
    · rw [openAt_self]
      exact Nat.mod_lt _ (Nat.two_pow_pos _)
    · rw [openAt_succ h1 h2]
      exact h.narrow p
    · rw [openAt_of_gt hsf h2]
      exact h.narrow p
  · exact hcell p p (by rw [ho.tbl, openAt_of_lt hp]) (by rw [ho.run, openAt_of_lt hp])
      (by rw [ho.phys, openAt_of_lt hp])
  · obtain rfl : i = 0 := Nat.lt_one_iff.mp hi
    rw [Nat.add_zero, ho.tbl, openAt_self, Nat.mod_eq_of_lt hrem]
    rfl
  · obtain rfl : i = 0 := Nat.lt_one_iff.mp hi
    rw [Nat.add_zero, ho.run, openAt_self]
    rfl
  · obtain rfl : i = 0 := Nat.lt_one_iff.mp hi
    rw [Nat.add_zero, ho.phys, openAt_self]
  · have h1 : s ≤ s + i := Nat.le_add_right ..
    have h2 : s + i < f := by omega
    rw [show s + [rem].length + i = s + i + 1 by rw [List.length_singleton]; omega,
      show s + 0 + i = s + i from rfl]
    exact hcell _ _ (by rw [ho.tbl, openAt_succ h1 h2]) (by rw [ho.run, openAt_succ h1 h2])
      (by rw [ho.phys, openAt_succ h1 h2])
  · rw [List.length_singleton] at hp
    rw [ho.run]
    rcases openAt_cases s f p with hps | rfl | ⟨p, rfl, h1, h2⟩ | ⟨h1, h2⟩
    · omega
    · exact openAt_self
    · rw [openAt_succ h1 h2]
      exact h.rest p (by omega)
    · rw [openAt_of_gt hsf h2]
      exact h.rest p (by omega)
  · rw [List.length_singleton] at hp
    rw [ho.phys]
    rcases openAt_cases s f p with hps | rfl | ⟨p, rfl, h1, h2⟩ | ⟨h1, h2⟩
    · omega
    · omega
    · rw [openAt_succ h1 h2]
      exact hclean p (by omega)
    · rw [openAt_of_gt hsf h2]
      exact hclean p (by omega)

variable {cf'' : CqfFilter} {L : ℕ} {w : List ℕ}

/-- The run of a new quotient ends at its only slot. -/
lemma Spliced.mark (hs : Spliced cf cf' s 0 L [rem] false)
    (hbits : cf''.remainderBits = cf'.remainderBits)
    (htbl : cf''.tbl = cf'.tbl) (hphys : cf''.phys = cf'.phys) (hrun : cf''.run = setBit cf'.run s)
    (hsL : s ≤ L) :
    Spliced cf cf'' s 0 L [rem] true := by
  have hrun' : ∀ p, p ≠ s → cf''.run p = cf'.run p := fun p hp => by
    rw [hrun]
    exact Function.update_of_ne hp ..
  have hcell : ∀ p, p ≠ s → cf''.cell p = cf'.cell p := fun p hp => by
    rw [cell, cell, htbl, hphys, hrun' p hp]
  refine ⟨fun p => ?_, fun p hp => ?_, fun i hi => ?_, fun i hi => ?_, fun i hi => ?_,
    fun i hi => ?_, fun p hp => ?_, fun hclean p hp => ?_⟩
  · rw [htbl, hbits]
    exact hs.narrow p
  · rw [hcell p hp.ne]
    exact hs.below p hp
  · rw [htbl]
    exact hs.tbl i hi
  · obtain rfl : i = 0 := Nat.lt_one_iff.mp hi
    rw [hrun]
    exact Function.update_self ..
  · rw [hphys]
    exact hs.phys i hi
  · rw [hcell _ (by rw [List.length_singleton]; omega)]
    exact hs.behind i hi
  · rw [List.length_singleton] at hp
    rw [hrun' p (by omega)]
    exact hs.rest p hp
  · rw [hphys]
    exact hs.clean hclean p hp

/-- The end of a run moves to the slot that was opened behind it. -/
lemma Spliced.append (hs : Spliced cf cf' (s + 1) 0 L [rem] false)
    (hbits : cf''.remainderBits = cf'.remainderBits)
    (htbl : cf''.tbl = cf'.tbl) (hphys : cf''.phys = cf'.phys)
    (hrun : cf''.run = setBit (clearBit cf'.run s) (s + 1)) (hsL : s < L) (hp : cf.phys s = true) :
    Spliced cf cf'' s 1 L [cf.tbl s, rem] true := by
  have hrun' : ∀ p, p ≠ s → p ≠ s + 1 → cf''.run p = cf'.run p := fun p h1 h2 => by
    rw [hrun, setBit, Function.update_of_ne h2]
    exact Function.update_of_ne h1 ..
  have hcell : ∀ p, p ≠ s → p ≠ s + 1 → cf''.cell p = cf'.cell p := fun p h1 h2 => by
    rw [cell, cell, htbl, hphys, hrun' p h1 h2]
  have hlast := hs.below s (Nat.lt_succ_self s)
  have htwo : ∀ i < [cf.tbl s, rem].length, i = 0 ∨ i = 1 := by
    intro i hi
    simp only [List.length_cons, List.length_nil] at hi
    omega
  refine ⟨fun p => ?_, fun p hp => ?_, fun i hi => ?_, fun i hi => ?_, fun i hi => ?_,
    fun i hi => ?_, fun p hp => ?_, fun hclean p hp => ?_⟩
  · rw [htbl, hbits]
    exact hs.narrow p
  · rw [hcell p (by omega) (by omega)]
    exact hs.below p (by omega)
  · rcases htwo i hi with rfl | rfl
    · rw [htbl, Nat.add_zero, tbl_of_cell hlast]
      rfl
    · rw [htbl]
      exact hs.tbl 0 Nat.one_pos
  · rcases htwo i hi with rfl | rfl
    · rw [Nat.add_zero, hrun, setBit, Function.update_of_ne (by omega), clearBit,
        Function.update_self]
      rfl
    · rw [hrun, setBit, Function.update_self]
      rfl
  · rcases htwo i hi with rfl | rfl
    · rw [hphys, Nat.add_zero, phys_of_cell hlast]
      exact hp
    · rw [hphys]
      exact hs.phys 0 Nat.one_pos
  · have hb := hs.behind i (by omega)
    rw [List.length_singleton] at hb
    rw [show [cf.tbl s, rem].length = 2 from rfl, hcell _ (by omega) (by omega),
      show s + 2 + i = s + 1 + 1 + i by omega, hb]
  · rw [show [cf.tbl s, rem].length = 2 from rfl] at hp
    rw [hrun' p (by omega) (by omega)]
    exact hs.rest p (by rw [List.length_singleton]; omega)
  · rw [show [cf.tbl s, rem].length = 2 from rfl] at hp
    rw [hphys]
    exact hs.clean hclean p (by rw [List.length_singleton]; omega)

/-- A new run is put behind the runs of the smaller quotients. -/
lemma Holds.insertNew_cases (h : Holds cf m) (hq : q < cf.numSlots) (hm : m q = [])
    (hrem : rem < 2 ^ cf.remainderBits) :
    cf.insertNew q rem = (.full, cf) ∧ (∀ p < cf.numSlots, cf.phys p = true) ∨
      ∃ cf', cf.insertNew q rem = (.ok, cf') ∧ start m cf.numSlots < cf.numSlots ∧
        Gained cf cf' m (Function.update m q [rem]) := by
  have hocc : cf.occ q = false := by
    rw [Bool.eq_false_iff, Ne, h.occ]
    exact not_not.mpr hm
  have hrank : cf.rankOcc q = cnt cf.occ q := by rw [h.rankOcc_eq hq, cnt_succ_of_clear hocc]
  unfold insertNew
  dsimp only
  rcases firstFree_cases
    (Nat.mod_lt (cf.lastEnd (cf.selectRun (cf.rankOcc q)) + 1) h.numSlots_pos) with
    ⟨f, hf, heq, hphys⟩ | ⟨heq, hfull⟩
  · have hfree := h.toPacked.le_free hphys
    have hsL := start_mono (m := m) hq.le
    have hins : (if cf.rankOcc q = 0 then 0 else (cf.selectRun (cf.rankOcc q) + 1) % cf.numSlots) =
        start m q := by
      rw [hrank]
      split_ifs with h0
      · exact (h.start_eq_zero h0).symm
      · rw [(h.selectRun_before hq.le (by omega)).2, Nat.mod_eq_of_lt (by omega)]
    rw [heq, hins]
    refine .inr ⟨_, rfl, by omega, ?_⟩
    have ho := opened_place h.narrow (hsL.trans hfree) hphys (h.rest f hfree) rem
    have hs := h.toPacked.spliced_opened hsL hfree ho hrem
    generalize cf.place (start m q) f rem = cf₁ at ho hs ⊢
    generalize hcf₂ : { cf₁ with
      run := setBit cf₁.run (start m q)
      occ := setBit cf₁.occ q
      count := cf₁.count + 1
      distinctCount := (cf₁.distinctCount + 1) % 2 ^ 64 } = cf₂
    have ha : Alike cf cf₂ := by
      rw [← hcf₂]
      exact ⟨ho.beside.numSlots, ho.beside.numBlocks, ho.beside.remainderBits, ho.beside.hashSeed⟩
    have hocc₂ : ∀ i, cf₂.occ i = true ↔ i = q ∨ cf.occ i = true := by
      intro i
      rw [← hcf₂, ← ho.beside.occ]
      by_cases hiq : i = q
      · subst hiq
        exact iff_of_true (Function.update_self ..) (.inl rfl)
      · rw [or_iff_right hiq]
        exact iff_of_eq (congrArg (· = true) (Function.update_of_ne hiq ..))
    have hs₂ : Spliced cf cf₂ (start m q + 0) 0 (start m cf.numSlots) [rem]
        (decide (0 + 0 = (m q).length)) := by
      have hlast : decide (0 + 0 = (m q).length) = true := by
        rw [hm]
        rfl
      rw [hlast]
      exact hs.mark (by rw [← hcf₂]) (by rw [← hcf₂]) (by rw [← hcf₂]) (by rw [← hcf₂]) hsL
    obtain ⟨hp, hclean⟩ := h.toPacked.spliced hq ha hocc₂ (Nat.zero_le _) (.inr hm) (by simp) hs₂
      (by rw [List.length_singleton]; omega)
    rw [hm] at hp hclean
    refine ⟨hp.updateOffsets, ⟨ha.numSlots, ha.numBlocks, ha.remainderBits, ha.hashSeed⟩,
      ?_, hclean⟩
    rw [← ho.beside.count, ← hcf₂]
    rfl
  · rw [heq]
    exact .inl ⟨rfl, hfull⟩

/-- Replacing the last slot by itself and a new one. -/
lemma splice_last {l : List ℕ} (hl : l ≠ []) {v : ℕ} (hv : l[l.length - 1]? = some v) (rem : ℕ) :
    l.take (l.length - 1) ++ ([v, rem] ++ l.drop (l.length - 1 + 1)) =
      insertedRun l l.length rem := by
  have hlen := List.length_pos_iff.mpr hl
  have hlast : l.take (l.length - 1) ++ [v] = l := by
    obtain ⟨hlt, hv⟩ := List.getElem?_eq_some_iff.mp hv
    rw [← hv, List.take_append_getElem, Nat.sub_add_cancel hlen, List.take_length]
  rw [insertedRun, List.take_length, List.drop_length, Nat.sub_add_cancel hlen, List.drop_length,
    List.append_nil]
  rw [show ([v, rem] : List ℕ) = [v] ++ [rem] from rfl, ← List.append_assoc, hlast]

/-- A new remainder is put at its place in a run. -/
lemma Holds.insertAt_cases (h : Holds cf m) (hm : m q ≠ []) (hrem : rem < 2 ^ cf.remainderBits)
    (hrend : rend + 1 = start m q + (m q).length)
    (hins : start m cf.numSlots < cf.numSlots → ∃ a ≤ (m q).length, insPos = start m q + a) :
    cf.insertAt rem rend insPos = (.full, cf) ∧ (∀ p < cf.numSlots, cf.phys p = true) ∨
      ∃ cf', cf.insertAt rem rend insPos = (.ok, cf') ∧ start m cf.numSlots < cf.numSlots ∧
        ∃ a ≤ (m q).length, insPos = start m q + a ∧
        Gained cf cf' m (Function.update m q (insertedRun (m q) a rem)) := by
  have hq := h.lt q hm
  have hlen := List.length_pos_iff.mpr hm
  unfold insertAt
  rcases firstFree_cases (Nat.mod_lt (cf.lastEnd rend + 1) h.numSlots_pos) with
    ⟨f, hf, heq, hphys⟩ | ⟨heq, hfull⟩
  · have hfree := h.toPacked.le_free hphys
    have hend := start_add_le (m := m) hq
    obtain ⟨a, ha, rfl⟩ := hins (by omega)
    have hsL : start m q + a ≤ start m cf.numSlots := by omega
    rw [heq]
    refine .inr ⟨_, rfl, by omega, a, ha, rfl, ?_⟩
    -- what lies behind the place moves up by one slot, into the free one
    have ho := opened_place h.narrow (hsL.trans hfree) hphys (h.rest f hfree) rem
    have hs := h.toPacked.spliced_opened hsL hfree ho hrem
    generalize cf.place (start m q + a) f rem = cf₁ at ho hs ⊢
    have hmod : (rend + 1) % cf₁.numSlots = rend + 1 := by
      rw [ho.beside.numSlots]
      exact Nat.mod_eq_of_lt (by omega)
    rw [hmod]
    generalize hcf₂ : { cf₁ with
      run := if rend + 1 = start m q + a then setBit (clearBit cf₁.run rend) (start m q + a)
        else cf₁.run
      count := cf₁.count + 1
      distinctCount := (cf₁.distinctCount + 1) % 2 ^ 64 } = cf₂
    have hl : Alike cf cf₂ := by
      rw [← hcf₂]
      exact ⟨ho.beside.numSlots, ho.beside.numBlocks, ho.beside.remainderBits, ho.beside.hashSeed⟩
    have hocc₂ : ∀ i, cf₂.occ i = true ↔ i = q ∨ cf.occ i = true := by
      intro i
      rw [← hcf₂, ← ho.beside.occ]
      refine ⟨.inr, ?_⟩
      rintro (rfl | hi)
      · rw [ho.beside.occ]
        exact (h.occ i).mpr hm
      · exact hi
    have hcount : cf₂.count = cf.count + 1 := by
      rw [← ho.beside.count, ← hcf₂]
    have hfin :
        ∀ m', Packed cf₂ m' ∧ (Clean cf m → Clean cf₂ m') →
          Gained cf cf₂.updateOffsets m m' := fun m' hm' =>
      ⟨hm'.1.updateOffsets, ⟨hl.numSlots, hl.numBlocks, hl.remainderBits, hl.hashSeed⟩,
        hcount, hm'.2⟩
    refine hfin _ ?_
    by_cases hlast : a = (m q).length
    · -- the end of the run moves to the new slot
      have hpos : start m q + a = rend + 1 := by omega
      have hs' : Spliced cf cf₁ (rend + 1) 0 (start m cf.numSlots) [rem] false := hpos ▸ hs
      have hs₂ : Spliced cf cf₂ rend 1 (start m cf.numSlots) [cf.tbl rend, rem] true := by
        refine hs'.append (by rw [← hcf₂]) (by rw [← hcf₂]) (by rw [← hcf₂]) ?_ (by omega)
          (h.phys rend (by omega))
        rw [← hcf₂, if_pos hpos.symm, hpos]
      have hv : (m q)[(m q).length - 1]? = some (cf.tbl rend) := by
        rw [h.tbl q _ (by omega), show start m q + ((m q).length - 1) = rend by omega]
      have hp := h.toPacked.spliced (a := (m q).length - 1) (o := 1)
          (w := [cf.tbl rend, rem]) hq hl hocc₂ (by omega)
        (.inl (by omega)) (Nat.succ_pos _)
        (by rwa [show start m q + ((m q).length - 1) = rend by omega, decide_eq_true (by omega)])
        (by rw [show [cf.tbl rend, rem].length = 2 from rfl]; omega)
      rw [splice_last hm hv, ← hlast] at hp
      exact hp
    · have hs₂ :
          Spliced cf cf₂ (start m q + a) 0 (start m cf.numSlots) [rem]
            (decide (a + 0 = (m q).length)) := by
        rw [decide_eq_false (by omega), ← hcf₂, if_neg (by omega)]
        exact ⟨hs.narrow, hs.below, hs.tbl, hs.run, hs.phys, hs.behind, hs.rest, hs.clean⟩
      exact h.toPacked.spliced hq hl hocc₂ (by omega) (.inl (by omega)) (by simp) hs₂
        (by rw [List.length_singleton]; omega)
  · rw [heq]
    exact .inl ⟨rfl, hfull⟩

/-! ## One more occurrence -/

/-- Where the symbols of a counter begin in its entry. -/
def symbolsAt (rem : ℕ) : ℕ := if rem = 0 then 2 else 1

/-- The slots of a counter. -/
lemma cqfEncSlots_of_le {C rbits : ℕ} (hw : Width rbits) (hC : 3 ≤ C) (hC' : C < 2 ^ 64) (rem : ℕ) :
    cqfEncSlots C rem rbits = 2 * symbolsAt rem + (cqfEncode C rem rbits).length ∧
      0 < (cqfEncode C rem rbits).length := by
  rw [cqfEncSlots, if_neg (by omega), if_neg (by omega), symbolsAt]
  by_cases h0 : rem = 0
  · subst h0
    rw [if_pos rfl, if_pos rfl, length_cqfEncode_zero hw hC hC']
    exact ⟨rfl, List.length_pos_of_ne_nil (valDigits_ne_nil _ _)⟩
  · rw [if_neg h0, if_neg h0, length_cqfEncode hw h0 hC hC']
    exact ⟨rfl, Nat.add_pos_left (List.length_pos_of_ne_nil (valDigits_ne_nil _ _)) _⟩

/-- The symbols are written behind the first copies of the remainder. -/
lemma rewriteSymbols_eq {oldCount newCount : ℕ} (h3 : 3 ≤ oldCount) :
    cf.rewriteSymbols pos rem oldCount newCount = { cf with
      tbl := remSetAll cf.remainderBits cf.tbl (pos + symbolsAt rem)
        (cqfEncode newCount rem cf.remainderBits) } := by
  unfold rewriteSymbols symbolsAt
  dsimp only
  by_cases h0 : rem = 0
  · rw [if_pos ⟨h0, h3⟩, if_pos h0]
  · rw [if_neg (by omega), if_pos ⟨h0, h3⟩, if_neg h0]

/-- Writing into a run keeps the filter packed. -/
lemma Packed.write (h : Packed cf m) (hq : q < cf.numSlots) {l : List ℕ} (hl : 0 < l.length)
    (hal : a + l.length ≤ (m q).length) (halike : Alike cf cf') (hocc : cf'.occ = cf.occ)
    (hrun : cf'.run = cf.run) (hphys : cf'.phys = cf.phys)
    (htbl : cf'.tbl = remSetAll cf.remainderBits cf.tbl (start m q + a) l) :
    Packed cf' (Function.update m q
      ((m q).take a ++ (l.map (· % 2 ^ cf.remainderBits) ++ (m q).drop (a + l.length)))) ∧
      (Clean cf m → Clean cf' (Function.update m q
        ((m q).take a ++ (l.map (· % 2 ^ cf.remainderBits) ++ (m q).drop (a + l.length))))) := by
  have hlen : (l.map (· % 2 ^ cf.remainderBits)).length = l.length := List.length_map ..
  have hend := start_add_le (m := m) hq
  have hcell : ∀ p, p < start m q + a ∨ start m q + a + l.length ≤ p → cf'.cell p = cf.cell p := by
    intro p hp
    rw [cell, cell, hrun, hphys, htbl]
    rcases hp with hp | hp
    · rw [remSetAll_of_lt _ _ hp]
    · rw [remSetAll_of_ge _ hp]
  refine h.spliced hq halike (fun i => ?_) hal (.inl (by omega)) (by omega)
    ⟨fun p => ?_, fun p hp => hcell p (.inl hp), fun i hi => ?_, fun i hi => ?_, fun i hi => ?_,
      fun i hi => ?_, fun p hp => ?_, fun hclean p hp => ?_⟩ (by rw [hlen]; have := h.room; omega)
  · rw [hocc]
    refine ⟨.inr, ?_⟩
    rintro (rfl | hi)
    · exact (h.occ i).mpr (List.ne_nil_of_length_pos (by omega))
    · exact hi
  · rw [htbl, halike.remainderBits]
    exact remSetAll_lt _ _ _ h.narrow
  · rw [htbl]
    exact remSetAll_get _ (hlen ▸ hi)
  · rw [hlen] at hi ⊢
    have hr := h.run q (a + i) (by omega)
    rw [← Nat.add_assoc] at hr
    rw [hrun, hr, ← Bool.decide_and]
    exact decide_eq_decide.mpr (by omega)
  · rw [hlen] at hi
    rw [hphys]
    exact h.phys _ (by omega)
  · rw [hlen]
    exact hcell _ (.inr (by omega))
  · rw [hlen] at hp
    rw [hrun]
    exact h.rest p (by omega)
  · rw [hlen] at hp
    rw [hphys]
    exact hclean p (by omega)

/-- The slots of a counter that has got another count but the same number of slots. -/
def recountedRun (rbits : ℕ) (l : List ℕ) (a rem C : ℕ) : List ℕ :=
  let enc := cqfEncode C rem rbits
  l.take (a + symbolsAt rem) ++ (enc.map (· % 2 ^ rbits) ++ l.drop (a + symbolsAt rem + enc.length))

/-- The slots of a run in which the entry of `old` slots at `a` was written anew. -/
def resizedRun (rbits : ℕ) (l : List ℕ) (a old rem C : ℕ) : List ℕ :=
  l.take a ++ ((entrySlots rbits (rem, C)).map (· % 2 ^ rbits) ++ l.drop (a + old))

/-- An entry that was decoded in a run. -/
lemma Holds.entryAt (h : Holds cf m) (hm : m q ≠ []) (hrend : rend + 1 = start m q + (m q).length)
    (hd : Decoded cf.remainderBits cf.tbl rend pos rem cnt next) :
    EntryAt cf pos (next - pos) rend (start m cf.numSlots) := by
  have hend := start_add_le (m := m) (h.lt q hm)
  have hone := one_le_cqfEncSlots cnt rem cf.remainderBits
  have hs := hd.slots
  have hle := hd.next_le
  have hlen := List.length_pos_iff.mpr hm
  refine ⟨h.narrow, by omega, by omega, by omega, h.room, h.phys, h.rest, ?_⟩
  have hr := h.run q ((m q).length - 1) (by omega)
  rw [show start m q + ((m q).length - 1) = rend by omega, decide_eq_true (by omega)] at hr
  exact hr

/-- The number of slots behind an entry up to the end of the last run. -/
lemma tailSlots_eq {rstart dataAfter limit L : ℕ} (hr : rstart ≤ rend) (hlimit : limit + 1 = L)
    (hle : dataAfter ≤ L) :
    dataAfter + cf.tailSlots rstart rend dataAfter limit = L := by
  rw [tailSlots, if_pos hr]
  split_ifs <;> omega

/-- An entry that gets another number of slots. -/
lemma Holds.resizeEntry {C limit tail c : ℕ} (h : Holds cf m) (hm : m q ≠ [])
    (hrend : rend + 1 = start m q + (m q).length)
    (hd : Decoded cf.remainderBits cf.tbl rend (start m q + a) rem cnt next)
    (hne : cqfEncSlots C rem cf.remainderBits ≠ next - (start m q + a))
    (hroom : start m cf.numSlots + cqfEncSlots C rem cf.remainderBits ≤
      cf.numSlots + (next - (start m q + a)))
    (hlimit : limit + 1 = start m cf.numSlots) (htail : next + tail = start m cf.numSlots) :
    let cf₁ := { cf.resizeEntry rend (start m q + a) (next - (start m q + a))
      (cqfEncSlots C rem cf.remainderBits) rem C
      limit tail with count := c }
    Holds cf₁.updateOffsets
        (Function.update m q (resizedRun cf.remainderBits (m q) a (next - (start m q + a)) rem C)) ∧
          Alike cf cf₁ ∧
      (Clean cf m →
        Clean cf₁ (Function.update m q
          (resizedRun cf.remainderBits (m q) a (next - (start m q + a)) rem C))) := by
  have hone := one_le_cqfEncSlots cnt rem cf.remainderBits
  have hone' := one_le_cqfEncSlots C rem cf.remainderBits
  have hs := hd.slots
  have hle := hd.next_le
  have hlen : ((entrySlots cf.remainderBits (rem, C)).map (· % 2 ^ cf.remainderBits)).length =
      cqfEncSlots C rem cf.remainderBits := by
    rw [List.length_map, length_entrySlots]
  have htail' : start m q + a + (next - (start m q + a)) + tail = start m cf.numSlots := by omega
  obtain ⟨hb, hsp⟩ :=
    spliced_resizeEntry (h.entryAt hm hrend hd)
    (length_entrySlots cf.remainderBits (rem, C)) hne hone'
    hroom hlimit htail'
  generalize cf.resizeEntry rend (start m q + a) (next - (start m q + a))
    (cqfEncSlots C rem cf.remainderBits) rem C
    limit tail = cf₁ at hb hsp
  intro cf₂
  have hl : Alike cf cf₂ := ⟨hb.numSlots, hb.numBlocks, hb.remainderBits, hb.hashSeed⟩
  have hlast : decide (start m q + a + (next - (start m q + a)) = rend + 1) =
      decide (a + (next - (start m q + a)) = (m q).length) := decide_eq_decide.mpr (by omega)
  rw [hlast] at hsp
  have hsp₂ : Spliced cf cf₂ (start m q + a) (next - (start m q + a)) (start m cf.numSlots) _ _ :=
    ⟨hsp.narrow, hsp.below, hsp.tbl, hsp.run, hsp.phys, hsp.behind, hsp.rest, hsp.clean⟩
  obtain ⟨hp, hclean⟩ := h.toPacked.spliced (a := a) (o := next - (start m q + a))
    (w := (entrySlots cf.remainderBits (rem, C)).map (· % 2 ^ cf.remainderBits)) (h.lt q hm) hl
    (fun i => by
      change cf₁.occ i = true ↔ _
      rw [hb.occ]
      refine ⟨.inr, ?_⟩
      rintro (rfl | hi)
      · exact (h.occ i).mpr hm
      · exact hi)
    (by omega) (.inl (by omega)) (by omega) hsp₂ (by omega)
  exact ⟨hp.updateOffsets, hl, hclean⟩

/-- A counter that gets another count with the same number of slots. -/
lemma Holds.recount {oldCount C c : ℕ} (h : Holds cf m) (hm : m q ≠ [])
    (hrend : rend + 1 = start m q + (m q).length)
    (hd : Decoded cf.remainderBits cf.tbl rend (start m q + a) rem cnt next) (h3 : 3 ≤ oldCount)
    (hC : 3 ≤ C)
    (hC' : C < 2 ^ 64) (hslots : cqfEncSlots C rem cf.remainderBits = next - (start m q + a)) :
    let cf₁ := { cf.rewriteSymbols (start m q + a) rem oldCount C with count := c }
    Packed cf₁ (Function.update m q (recountedRun cf.remainderBits (m q) a rem C)) ∧ Alike cf cf₁ ∧
      (Clean cf m →
        Clean cf₁ (Function.update m q (recountedRun cf.remainderBits (m q) a rem C))) := by
  have hle := hd.next_le
  have hs := hd.slots
  obtain ⟨he, hpos⟩ := cqfEncSlots_of_le h.width hC hC' rem
  intro cf₁
  have hl : Alike cf cf₁ := ⟨rfl, rfl, rfl, rfl⟩
  have htbl : cf₁.tbl = remSetAll cf.remainderBits cf.tbl (start m q + (a + symbolsAt rem))
      (cqfEncode C rem cf.remainderBits) := by
    rw [← Nat.add_assoc]
    exact congrArg CqfFilter.tbl (rewriteSymbols_eq h3)
  obtain ⟨hp, hclean⟩ := h.toPacked.write (h.lt q hm) hpos (by omega) hl rfl rfl rfl htbl
  exact ⟨hp, hl, hclean⟩

/-- The number of slots of an entry grows with its count, and below 3 strictly. -/
lemma three_le_of_cqfEncSlots_eq {C rbits : ℕ} (hC : 1 ≤ C)
    (h : cqfEncSlots (C + 1) rem rbits = cqfEncSlots C rem rbits) : 3 ≤ C := by
  by_contra hlt
  have h2 : C = 1 ∨ C = 2 := by omega
  rcases h2 with rfl | rfl
  · cases h
  · have hlhs : 2 < cqfEncSlots 3 rem rbits := by
      rw [cqfEncSlots, if_neg (by omega), if_neg (by omega)]
      split_ifs with h0
      · omega
      · have : 0 < (cqfEncode 3 rem rbits).length := by
          rw [cqfEncode, if_neg (by omega), if_neg h0, encodeDigits, if_pos rfl]
          split_ifs <;> rw [prependZero] <;> split_ifs <;> simp [encBuf] at *
        omega
    rw [h] at hlhs
    exact absurd hlhs (lt_irrefl 2)

/-- The run after one more occurrence in the entry at `a`. -/
def recounted (rbits : ℕ) (l : List ℕ) (a rem cnt : ℕ) : List ℕ :=
  if cqfEncSlots (cnt + 1) rem rbits = cqfEncSlots cnt rem rbits
    then recountedRun rbits l a rem (cnt + 1)
  else resizedRun rbits l a (cqfEncSlots cnt rem rbits) rem (cnt + 1)

/-- A remainder that was found gets one more occurrence. -/
lemma Holds.increment_cases (h : Holds cf m) (hm : m q ≠ [])
    (hrend : rend + 1 = start m q + (m q).length)
    (hd : Decoded cf.remainderBits cf.tbl rend (start m q + a) rem cnt next) :
    cnt + 1 = 2 ^ 64 ∧ cf.increment rem (start m q) rend (start m q + a) cnt next =
      (.overflow, cf) ∨
      cf.numSlots + cqfEncSlots cnt rem cf.remainderBits <
        start m cf.numSlots + cqfEncSlots (cnt + 1) rem cf.remainderBits ∧
        cf.increment rem (start m q) rend (start m q + a) cnt next = (.full, cf) ∨
      ∃ cf', cf.increment rem (start m q) rend (start m q + a) cnt next = (.ok, cf') ∧
        start m cf.numSlots + cqfEncSlots (cnt + 1) rem cf.remainderBits ≤
          cf.numSlots + cqfEncSlots cnt rem cf.remainderBits ∧
        Gained cf cf' m (Function.update m q (recounted cf.remainderBits (m q) a rem cnt)) := by
  have hq := h.lt q hm
  have hlt := hd.lt
  have hs := hd.slots
  have hle := hd.next_le
  have hend := start_add_le (m := m) hq
  have hone := one_le_cqfEncSlots cnt rem cf.remainderBits
  have hstart : start m q ≤ rend := by omega
  have hold : next - (start m q + a) = cqfEncSlots cnt rem cf.remainderBits := by omega
  unfold increment
  dsimp only
  by_cases hover : cnt + 1 = 2 ^ 64
  · rw [hover, Nat.mod_self, if_pos rfl]
    exact .inl ⟨rfl, rfl⟩
  have hmono :=
    cqfEncSlots_le_succ (C := cnt) h.width (hd.first ▸ h.narrow (start m q + a)) (by omega)
  rw [Nat.mod_eq_of_lt (show cnt + 1 < 2 ^ 64 by omega), if_neg (Nat.succ_ne_zero cnt), hold]
  unfold recounted
  by_cases heq : cqfEncSlots (cnt + 1) rem cf.remainderBits = cqfEncSlots cnt rem cf.remainderBits
  · have h3 := three_le_of_cqfEncSlots_eq hd.one_le heq
    obtain ⟨hp, hl, hclean⟩ :=
      h.recount (c := cf.count + 1) hm hrend hd h3 (show 3 ≤ cnt + 1 by omega) (by omega)
        (heq.trans hold.symm)
    rw [if_pos heq, if_pos heq]
    have := h.room
    exact .inr (.inr ⟨_, rfl, by omega, hp.updateOffsets,
      ⟨hl.numSlots, hl.numBlocks, hl.remainderBits, hl.hashSeed⟩, rfl, hclean⟩)
  · have hlimit := h.lastEnd_eq (show 0 < start m cf.numSlots by omega) rend
    have htail :=
      (@tailSlots_eq cf) hstart hlimit
      (show start m q + a + cqfEncSlots cnt rem cf.remainderBits ≤ _ by omega)
    rw [if_neg heq, if_neg heq, if_neg (show ¬ cqfEncSlots (cnt + 1) rem cf.remainderBits <
      cqfEncSlots cnt rem cf.remainderBits by omega)]
    split_ifs with hfull
    · exact .inr (.inl ⟨by omega, rfl⟩)
    · have hroom : start m cf.numSlots + cqfEncSlots (cnt + 1) rem cf.remainderBits ≤
          cf.numSlots + cqfEncSlots cnt rem cf.remainderBits := by omega
      obtain ⟨hh, hl, hclean⟩ :=
        h.resizeEntry (c := cf.count + 1) hm hrend hd (hold ▸ heq) (by omega) hlimit
          (show next + _ = _ by rw [← hs]; exact htail)
      rw [hold] at hh hl hclean
      exact .inr (.inr
        ⟨_, rfl, hroom, hh, ⟨hl.numSlots, hl.numBlocks, hl.remainderBits, hl.hashSeed⟩, rfl,
          hclean⟩)

/-! ## The scan of a run -/

/-- What the scan of a run gives, whatever the slots hold. -/
lemma Holds.scanRun_spec (h : Holds cf m) (hm : m q ≠ [])
    (hrend : rend + 1 = start m q + (m q).length)
    {P : ℕ → Prop} (hP : ∀ a ≤ (m q).length, P (start m q + a)) : ∀ (n : ℕ) {pos insPos : ℕ},
      start m q ≤ pos →
    pos ≤ rend + 1 → P insPos →
    match cf.scanRun rend rem n pos insPos with
    | .found pos cnt next => start m q ≤ pos ∧ Decoded cf.remainderBits cf.tbl rend pos rem cnt next
    | .missing insPos => P insPos
  | 0, pos, insPos, _, _, hi => hi
  | n + 1, pos, insPos, hpos, hle, hi => by
    rw [scanRun]
    split_ifs with hr
    · exact hi
    cases hd : cqfDecodeEntry cf.remainderBits cf.tbl cf.phys rend pos with
    | none => exact hi
    | some r =>
      obtain ⟨x, cnt, next⟩ := r
      have hend := start_add_le (m := m) (h.lt q hm)
      have hdec := decoded (fun _ => h.phys pos (by omega)) hd
      dsimp only
      split_ifs with hx hlt
      · exact ⟨hpos, hx ▸ hdec⟩
      · have := hP (pos - start m q) (by omega)
        rwa [show start m q + (pos - start m q) = pos by omega] at this
      · have hslots := hdec.slots
        have hnext := hdec.next_le
        refine h.scanRun_spec hm hrend hP n (by omega) hnext ?_
        have := hP (next - start m q) (by omega)
        rwa [show start m q + (next - start m q) = next by omega] at this

/-! ## The whole insertion -/

/-- What an insertion does: it changes nothing, or one run is replaced. -/
lemma Holds.insert_cases (h : Holds cf m) (hash : UInt64) :
    (∃ e, e ≠ .ok ∧ cqfFilterInsert cf hash = (e, cf)) ∨
      ∃ cf' l, cqfFilterInsert cf hash = (.ok, cf') ∧
      Gained cf cf' m (Function.update m (cf.quotient hash) l) := by
  have hq := h.quotient_lt hash
  have hrem := remainder_lt cf hash
  unfold cqfFilterInsert
  dsimp only
  split_ifs with hcount hocc
  · exact .inl ⟨.full, nofun, rfl⟩
  · have hm := (h.occ _).mp hocc
    have hrend := h.selectRun_rank hm
    unfold insertRun
    dsimp only
    rw [h.rstart_eq hm]
    generalize cf.selectRun (cf.rankOcc (cf.quotient hash)) = rend at hrend
    generalize cf.quotient hash = q at *
    have hlen := List.length_pos_iff.mpr hm
    have hstart : scanStart (start m q) rend = start m q := if_neg (by omega)
    rw [hstart]
    have hspec := @Holds.scanRun_spec _ _ _ (cf.remainder hash) _ h hm hrend
      (fun ip => start m cf.numSlots < cf.numSlots → ∃ a ≤ (m q).length, ip = start m q + a)
      (fun a ha _ => ⟨a, ha, rfl⟩) (rend + 1) (start m q) ((rend + 1) % cf.numSlots) le_rfl
        (by omega)
      (fun hlt => ⟨(m q).length, le_rfl, by
        have := start_add_le (m := m) hq
        rw [Nat.mod_eq_of_lt (by omega), hrend]⟩)
    cases hscan : cf.scanRun rend (cf.remainder hash) (rend + 1) (start m q)
      ((rend + 1) % cf.numSlots) with
    | found pos cnt next =>
      rw [hscan] at hspec
      obtain ⟨hpos, hd⟩ := hspec
      obtain ⟨a, rfl⟩ := Nat.exists_eq_add_of_le hpos
      rcases h.increment_cases hm hrend hd with ⟨-, he⟩ | ⟨-, he⟩ | ⟨cf', he, -, hg⟩
      · exact .inl ⟨.overflow, nofun, he⟩
      · exact .inl ⟨.full, nofun, he⟩
      · exact .inr ⟨cf', _, he, hg⟩
    | missing insPos =>
      rw [hscan] at hspec
      rcases h.insertAt_cases hm hrem hrend hspec with ⟨he, -⟩ | ⟨cf', he, -, a, -, -, hg⟩
      · exact .inl ⟨.full, nofun, he⟩
      · exact .inr ⟨cf', _, he, hg⟩
  · have hm : m (cf.quotient hash) = [] := by
      by_contra hm
      exact hocc ((h.occ _).mpr hm)
    rcases h.insertNew_cases hq hm hrem with ⟨he, -⟩ | ⟨cf', he, -, hg⟩
    · exact .inl ⟨.full, nofun, he⟩
    · exact .inr ⟨cf', _, he, hg⟩

end CqfFilter

end Draugr.Cqf
