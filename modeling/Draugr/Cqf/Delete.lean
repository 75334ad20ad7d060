import Draugr.Cqf.Contents
import Draugr.Cqf.InsertOnly
import Draugr.Lib.Tally

/-!
# Deletions

A deletion takes one occurrence from a count. An entry that stays is written anew and everything
behind it moves, as after an insertion (`Rep.decrement`). An entry that goes is closed up inside of
its run only, so the slots of the last run stay packed and those of any other run do not
(`Holds.removeEntry`, `delete_loses_other`).

`find_run` finds a run for a quotient without one where the bit vector of the run ends is set at the
quotient; the count of a deleted fingerprint is then what the run of another quotient says
(`Rep.count_eq`, `Rep.count_iff`).
-/

namespace Draugr.Cqf
open Draugr.Lib Draugr.Qf CqfFilter Bag

namespace CqfFilter

variable {cf cf' : CqfFilter} {m : ℕ → List ℕ} {q a o rend : ℕ}

/-! ## Removing an entry -/

/-- The stale slots behind an entry that was closed up are cleared, if anything has moved. -/
lemma clear_stale {pos tail : ℕ} (hle : pos + tail ≤ rend) (hrend : rend < cf.numSlots)
    (hn : cf.Narrow) :
    ∃ cf', (if 0 < tail then
        if (pos + tail) % cf.numSlots ≤ rend then
          cf.clearSlots ((pos + tail) % cf.numSlots) (rend + 1 - (pos + tail) % cf.numSlots)
        else (cf.clearSlots ((pos + tail) % cf.numSlots)
          (cf.numSlots - (pos + tail) % cf.numSlots)).clearSlots 0 (rend + 1)
      else cf) = cf' ∧ Beside cf cf' ∧ cf'.Narrow ∧ ∀ p,
        p < pos + tail ∨ rend < p → cf'.cell p = cf.cell p := by
  rw [Nat.mod_eq_of_lt (show pos + tail < cf.numSlots by omega), if_pos hle]
  refine ⟨_, rfl, ?_⟩
  split_ifs with ht
  · refine ⟨beside_clearSlots .., narrow_clearSlots hn _ _, fun p hp => ?_⟩
    rw [cell_clearSlots, if_neg (by omega)]
  · exact ⟨.refl cf, hn, fun _ _ => rfl⟩

/-- The bits of a run that was closed up: an empty run loses its bits, another one gets a new
end. -/
lemma Holds.closeRun {cf₁ cf₂ : CqfFilter} {l : List ℕ} {tail : ℕ} (h : Holds cf m) (hm : m q ≠ [])
    (hrend : rend + 1 = start m q + (m q).length) (ho : 0 < o) (hlen : l.length + o = (m q).length)
    (htail : a + tail = l.length) (hns : cf₁.numSlots = cf.numSlots) (hb₂ : Beside cf cf₂) :
    ∃ cf₃, (if rend - start m q + 1 ≤ o then
        { cf₂ with
          occ := clearBit cf₂.occ q
          run := clearRun cf₂.run (start m q) (rend + 1 - start m q)
          distinctCount := (cf₂.distinctCount + (2 ^ 64 - 1)) % 2 ^ 64 }
      else
        { cf₂ with
          run := setBit (clearRun cf₂.run (start m q) (rend + 1 - start m q))
            (if 0 < tail then (start m q + a + tail - 1) % cf₁.numSlots
            else if 0 < start m q + a then start m q + a - 1 else cf₁.numSlots - 1) }) = cf₃ ∧
      Alike cf cf₃ ∧ cf₃.count = cf.count ∧ (∀ i, cf₃.occ i = true ↔ Function.update m q l i ≠ []) ∧
      cf₃.tbl = cf₂.tbl ∧ cf₃.phys = cf₂.phys ∧
      ∀ p, cf₃.run p = (decide (p + 1 = start m q + a + tail ∧ 0 < l.length) ||
        (!decide (start m q ≤ p ∧ p < rend + 1) && cf₂.run p)) := by
  have hend := start_add_le (m := m) (h.lt q hm)
  have hroom := h.room
  have hl : Alike cf cf₂ := hb₂.toAlike
  have hcleared : ∀ p, clearRun cf₂.run (start m q) (rend + 1 - start m q) p =
      (!decide (start m q ≤ p ∧ p < rend + 1) && cf₂.run p) := fun p => by
    rw [clearRun_eq, show start m q + (rend + 1 - start m q) = rend + 1 by omega]
  refine ⟨_, rfl, ?_⟩
  -- the run goes with its last slot, or a slot before it becomes its end
  by_cases hempty : rend - start m q + 1 ≤ o
  · rw [if_pos hempty]
    have hnil : l = [] := List.length_eq_zero_iff.mp (by omega)
    refine ⟨⟨hl.numSlots, hl.numBlocks, hl.remainderBits, hl.hashSeed⟩, hb₂.count, fun i => ?_, rfl,
      rfl, fun p => ?_⟩
    · by_cases hi : i = q
      · rw [hi, Function.update_self, hnil]
        exact iff_of_false (by simp [clearBit]) (not_not.mpr rfl)
      · rw [Function.update_of_ne hi, ← h.occ, ← hb₂.occ]
        exact iff_of_eq (congrArg (· = true) (Function.update_of_ne hi ..))
    · rw [hnil, decide_eq_false (by simp), Bool.false_or]
      exact hcleared p
  · rw [if_neg hempty]
    have hpos : 0 < l.length := by omega
    have hnew : (if 0 < tail then (start m q + a + tail - 1) % cf₁.numSlots
        else if 0 < start m q + a then start m q + a - 1 else cf₁.numSlots - 1) + 1 =
          start m q + a + tail := by
      rw [hns]
      split_ifs
      · rw [Nat.mod_eq_of_lt (by omega)]
        omega
      · omega
      · omega
    refine ⟨⟨hl.numSlots, hl.numBlocks, hl.remainderBits, hl.hashSeed⟩, hb₂.count, fun i => ?_, rfl,
      rfl, fun p => ?_⟩
    · rw [hb₂.occ, h.occ]
      by_cases hi : i = q
      · rw [hi, Function.update_self]
        exact iff_of_true hm (List.ne_nil_of_length_pos hpos)
      · rw [Function.update_of_ne hi]
    · generalize (if 0 < tail then (start m q + a + tail - 1) % cf₁.numSlots
        else if 0 < start m q + a then start m q + a - 1 else cf₁.numSlots - 1) = newRend at hnew
      dsimp only
      rw [setBit]
      by_cases hp : p = newRend
      · rw [hp, Function.update_self, decide_eq_true ⟨hnew, hpos⟩]
        rfl
      · rw [Function.update_of_ne hp, decide_eq_false (by omega), Bool.false_or]
        exact hcleared p

/-- An entry is taken out of the last run. -/
lemma Holds.removeEntry (h : Holds cf m) (hm : m q ≠ [])
    (hlast : start m (q + 1) = start m cf.numSlots)
    (hrend : rend + 1 = start m q + (m q).length) (ho : 0 < o) (hao : a + o ≤ (m q).length) :
    Holds (cf.removeEntry q (start m q) rend (start m q + a) o)
        (Function.update m q ((m q).take a ++ ([] ++ (m q).drop (a + o)))) ∧
      Alike cf (cf.removeEntry q (start m q) rend (start m q + a) o) ∧
      (cf.removeEntry q (start m q) rend (start m q + a) o).count = cf.count - 1 := by
  have hq := h.lt q hm
  have hend := start_add_le (m := m) hq
  have hroom := h.room
  have hsucc := start_succ (m := m) q
  have hget := getElem?_splice (l := m q) (w := []) (o := o) (show a ≤ (m q).length by omega)
  have hlen : ((m q).take a ++ ([] ++ (m q).drop (a + o))).length + o = (m q).length := by
    simp only [List.length_append, List.length_take, List.length_drop, List.nil_append]
    omega
  generalize (m q).take a ++ ([] ++ (m q).drop (a + o)) = l at hget hlen ⊢
  have hend' := start_update_of_lt (m := m) (l := l) hq
  -- what moves
  have htail := (@tailSlots_eq cf rend _ _ rend) (show start m q ≤ rend by omega) rfl
    (show start m q + a + o ≤ rend + 1 by omega)
  unfold CqfFilter.removeEntry
  dsimp only
  generalize cf.tailSlots (start m q) rend (start m q + a + o) rend = tail at htail ⊢
  have hmoved :=
    moved_moveLeft h.narrow (show start m q + a < start m q + a + o by omega) tail (by omega)
      fun k hk => h.phys (start m q + a + o + k) (by omega)
  generalize cf.moveLeft (start m q + a + o) (start m q + a) tail = cf₁ at hmoved ⊢
  have hns := hmoved.beside.numSlots
  rw [← hns]
  obtain ⟨cf₂, he, hb, hn, hcell⟩ :=
    (@clear_stale _ rend) (show start m q + a + tail ≤ rend by omega)
      (hns ▸ (show rend < cf.numSlots by omega)) hmoved.narrow
  rw [he, if_pos (show start m q ≤ rend by omega), if_pos (show start m q ≤ rend by omega)]
  have hb₂ := hmoved.beside.trans hb
  have hbelow : ∀ p < start m q + a, cf₂.cell p = cf.cell p := fun p hp => by
    rw [hcell p (.inl (by omega)), hmoved.below p (by omega) hp]
  have hhere :
      ∀ k < tail, cf₂.cell (start m q + a + k) = cf.cell (start m q + a + o + k) := fun k hk => by
    rw [hcell _ (.inl (by omega)), hmoved.here k hk]
  have habove : ∀ p, rend < p → cf₂.cell p = cf.cell p := fun p hp => by
    rw [hcell p (.inr hp), hmoved.above p (by omega) (by omega)]
  -- the slots and bits after the removal
  obtain ⟨cf₃, hcf₃, hb₃, hcount, hocc, htbl, hphys, hrun⟩ := h.closeRun hm hrend ho hlen
    (show a + tail = l.length by omega) hns hb₂
  rw [hcf₃]
  have hpacked : Packed cf₃ (Function.update m q l) := by
    refine h.toPacked.replace hq ⟨hb₃.numSlots, hb₃.numBlocks, hb₃.remainderBits, fun p => ?_, hocc,
      fun p hp => ?_,
      fun p hp => ?_, fun i hi => ?_, fun i hi => ?_, fun i hi => ?_, fun i hi => ?_,
      fun p hp => ?_, fun p hp => ?_, by omega⟩
    · rw [htbl, hb₃.remainderBits, ← hb₂.remainderBits]
      exact hn p
    · rw [htbl]
      exact tbl_of_cell (hbelow p (by omega))
    · rw [hrun, decide_eq_false (by omega), decide_eq_false (by omega)]
      exact run_of_cell (hbelow p (by omega))
    · rw [hget, htbl]
      by_cases h1 : i < a
      · rw [if_pos h1, tbl_of_cell (hbelow (start m q + i) (by omega))]
        exact h.tbl q i (by omega)
      · have hc := hhere (i - a) (by omega)
        rw [show start m q + a + (i - a) = start m q + i by omega,
          show start m q + a + o + (i - a) = start m q + (i + o) by omega] at hc
        rw [if_neg h1, List.length_nil, Nat.add_zero, if_neg h1, Nat.sub_zero, tbl_of_cell hc]
        exact h.tbl q _ (by omega)
    · rw [hrun, decide_eq_true (show start m q ≤ start m q + i ∧ start m q + i < rend + 1 by omega),
        Bool.not_true, Bool.false_and, Bool.or_false]
      exact decide_eq_decide.mpr (by omega)
    · omega
    · omega
    · rw [hphys]
      by_cases h1 : p < start m q + a
      · rw [phys_of_cell (hbelow p h1)]
        exact h.phys p (by omega)
      · have hc := hhere (p - (start m q + a)) (by omega)
        rw [show start m q + a + (p - (start m q + a)) = p by omega] at hc
        rw [phys_of_cell hc]
        exact h.phys _ (by omega)
    · rw [hrun, decide_eq_false (by omega), Bool.false_or]
      by_cases h1 : p < rend + 1
      · rw [decide_eq_true (by omega)]
        rfl
      · rw [run_of_cell (habove p (by omega)), h.rest p (by omega), Bool.and_false]
  have hmod := hpacked
  exact ⟨(@Packed.updateOffsets _ { cf₃ with count := cf₃.count - 1 })
    ⟨hmod.slots, hmod.power, hmod.width, hmod.narrow,
      hmod.lt, hmod.occ, hmod.tbl, hmod.run, hmod.phys, hmod.rest, hmod.room⟩,
    ⟨hb₃.numSlots, hb₃.numBlocks, hb₃.remainderBits, hb₃.hashSeed⟩, congrArg (· - 1) hcount⟩

end CqfFilter

section Contents

variable {cf : CqfFilter} {c : ℕ → List (ℕ × ℕ)} {q rem rend C : ℕ} {A B : List (ℕ × ℕ)}
  {hash : UInt64}

/-- Without runs behind a quotient its run is the last one. -/
lemma start_of_last {rbits ns : ℕ} (hq : q < ns) (hlast : ∀ i, q < i → c i = []) :
    start (layout rbits c) (q + 1) = start (layout rbits c) ns := by
  have hnil : ∀ n, start (layout rbits c) (q + 1 + n) = start (layout rbits c) (q + 1) := by
    intro n
    induction n with
    | zero => rfl
    | succ n ih =>
      have hm : layout rbits c (q + 1 + n) = [] := (runSlots_eq_nil _ _).mpr (hlast _ (by omega))
      rw [← Nat.add_assoc, start_succ, ih, hm]
      rfl
  obtain ⟨n, hn⟩ := Nat.exists_eq_add_of_le (show q + 1 ≤ ns from hq)
  rw [hn, hnil]

/-- A filter holds other contents in one run. -/
lemma Rep.update {cf' : CqfFilter} {ps : List (ℕ × ℕ)} (h : Rep cf c) (hq : q < cf.numSlots)
    (halike : Alike cf cf')
    (hh : Holds cf' (Function.update (layout cf.remainderBits c) q (runSlots cf.remainderBits ps)))
    (hr : Readable cf.remainderBits ps) (hcount : cf'.count + size (c q) = cf.count + size ps) :
    Rep cf' (Function.update c q ps) := by
  refine ⟨?_, fun i => ?_, ?_⟩
  · rw [halike.remainderBits, layout_update]
    exact hh
  · rw [halike.remainderBits]
    by_cases hi : i = q
    · rw [hi, Function.update_self]
      exact hr
    · rw [Function.update_of_ne hi]
      exact h.readable i
  · have htotal := total_update (c := c) hq ps
    have := h.count
    rw [halike.numSlots]
    omega

/-- The only occurrence in an entry of the last run is deleted. -/
lemma Rep.removeEntry (h : Rep cf c) (hq : q < cf.numSlots) (hAB : c q = A ++ (rem, 1) :: B)
    (hlast : ∀ i, q < i → c i = []) (hr : Readable cf.remainderBits (A ++ B))
    (hrend : rend + 1 = start (layout cf.remainderBits c) q +
      (layout cf.remainderBits c q).length) :
    ∃ cf', cf.removeEntry q (start (layout cf.remainderBits c) q) rend
        (start (layout cf.remainderBits c) q + (runSlots cf.remainderBits A).length)
        (cqfEncSlots 1 rem cf.remainderBits) = cf' ∧ Alike cf cf' ∧
          Rep cf' (Function.update c q (A ++ B)) := by
  have hlayout : layout cf.remainderBits c q = runSlots cf.remainderBits (A ++ (rem, 1) :: B) := by
    rw [layout, hAB]
  have hm : layout cf.remainderBits c q ≠ [] := h.ne_nil_iff.mpr (hAB ▸ by simp)
  have hone := one_le_cqfEncSlots 1 rem cf.remainderBits
  have hlen := length_runSlots cf.remainderBits rem 1 A B
  rw [← hlayout] at hlen
  obtain ⟨hh, hl, hcount⟩ :=
    h.holds.removeEntry (a := (runSlots cf.remainderBits A).length) hm
    (start_of_last hq hlast) hrend hone
    (by omega)
  have hnew : (layout cf.remainderBits c q).take (runSlots cf.remainderBits A).length ++
      ([] ++ (layout cf.remainderBits c q).drop ((runSlots cf.remainderBits A).length +
        cqfEncSlots 1 rem cf.remainderBits)) = runSlots cf.remainderBits (A ++ B) := by
    have he : cqfEncSlots 1 rem cf.remainderBits = (entrySlots cf.remainderBits (rem, 1)).length :=
      (length_entrySlots cf.remainderBits (rem, 1)).symm
    rw [he, hlayout, runSlots_append, runSlots_cons, List.take_left, ← List.drop_drop,
      List.drop_left, List.drop_left, runSlots_append, List.nil_append]
  rw [hnew] at hh
  refine ⟨_, rfl, hl, h.update hq hl hh hr ?_⟩
  have hsize := h.size_le q
  rw [hAB, size_append, size_cons] at *
  rw [hcount, size_append]
  dsimp only at *
  omega

/-- One of several occurrences is deleted. -/
lemma Rep.decrement (h : Rep cf c) (hq : q < cf.numSlots) (hAB : c q = A ++ (rem, C + 1) :: B)
    (hC : 1 ≤ C) (hr : Readable cf.remainderBits (A ++ (rem, C) :: B))
    (hrend : rend + 1 = start (layout cf.remainderBits c) q +
      (layout cf.remainderBits c q).length) :
    ∃ cf', cf.decrement rem (start (layout cf.remainderBits c) q) rend
        (start (layout cf.remainderBits c) q + (runSlots cf.remainderBits A).length)
        (cqfEncSlots (C + 1) rem cf.remainderBits) (C + 1) = cf' ∧ Alike cf cf' ∧
      Rep cf' (Function.update c q (A ++ (rem, C) :: B)) := by
  have hlayout :
      layout cf.remainderBits c q = runSlots cf.remainderBits (A ++ (rem, C + 1) :: B) := by
    rw [layout, hAB]
  have hm : layout cf.remainderBits c q ≠ [] := h.ne_nil_iff.mpr (hAB ▸ by simp)
  have hend := start_add_le (m := layout cf.remainderBits c) hq
  have hlen := length_runSlots cf.remainderBits rem (C + 1) A B
  rw [← hlayout] at hlen
  have hd := h.decoded hAB hrend
  have hlt := hd.lt
  have hone := one_le_cqfEncSlots (C + 1) rem cf.remainderBits
  have hf : Fits cf.remainderBits (rem, C) :=
    hr.fits _ (List.mem_append_right _ (List.mem_cons_self ..))
  have hmono : cqfEncSlots C rem cf.remainderBits ≤ cqfEncSlots (C + 1) rem cf.remainderBits :=
    cqfEncSlots_le_succ h.holds.width hf.lt hlt
  have hold : start (layout cf.remainderBits c) q + (runSlots cf.remainderBits A).length +
      cqfEncSlots (C + 1) rem cf.remainderBits -
      (start (layout cf.remainderBits c) q + (runSlots cf.remainderBits A).length) =
      cqfEncSlots (C + 1) rem cf.remainderBits := Nat.add_sub_cancel_left ..
  have hcount : cf.count - 1 + size (c q) = cf.count + size (A ++ (rem, C) :: B) := by
    have := h.size_le q
    rw [hAB, size_append, size_cons, size_append, size_cons] at *
    dsimp only at *
    omega
  unfold CqfFilter.decrement
  dsimp only
  rw [Nat.add_sub_cancel]
  -- the counter keeps its length and is rewritten in place, or the entry shrinks
  by_cases heq : cqfEncSlots C rem cf.remainderBits = cqfEncSlots (C + 1) rem cf.remainderBits
  · have h3 := three_le_of_cqfEncSlots_eq hC heq.symm
    rw [if_pos ⟨heq, by omega⟩]
    obtain ⟨hp, hl, -⟩ :=
      h.holds.recount (c := cf.count - 1) hm hrend hd (show 3 ≤ C + 1 by omega) h3 (by omega)
        (heq.trans hold.symm)
    rw [hlayout, recountedRun_runSlots h.holds.width hf (by omega) hlt h3 heq] at hp
    refine ⟨_, rfl, hl, h.update hq hl ⟨hp, ?_, ?_⟩ hr hcount⟩
    · exact h.holds.occSums
    · exact h.holds.runSums
  · rw [if_neg (fun hc => heq hc.1)]
    have hlimit :=
      h.holds.lastEnd_eq (show 0 < start (layout cf.remainderBits c) cf.numSlots by omega) rend
    have htail :=
      (@tailSlots_eq cf rend) (show start (layout cf.remainderBits c) q ≤ rend by omega) hlimit
        (show start (layout cf.remainderBits c) q + (runSlots cf.remainderBits A).length +
          cqfEncSlots (C + 1) rem cf.remainderBits ≤ _ by omega)
    have hroom := h.holds.room
    obtain ⟨hh, hl, -⟩ :=
      h.holds.resizeEntry (c := cf.count - 1) hm hrend hd (hold ▸ heq) (by omega) hlimit htail
    rw [hold, hlayout, resizedRun_runSlots h.holds.width hf] at hh
    rw [hold] at hl
    exact ⟨_, rfl, ⟨hl.numSlots, hl.numBlocks, hl.remainderBits, hl.hashSeed⟩,
      h.update hq ⟨hl.numSlots, hl.numBlocks, hl.remainderBits, hl.hashSeed⟩ hh hr hcount⟩

/-- A deletion of a fingerprint that is in takes one from its count, if the new run can be read back
and no run with a hole in front of the runs behind it is left. -/
lemma Rep.delete (h : Rep cf c) (hin : 0 < mult (cf.remainder hash) (c (cf.quotient hash)))
    (hr : Readable cf.remainderBits (remove (cf.remainder hash) (c (cf.quotient hash))))
    (hlast : mult (cf.remainder hash) (c (cf.quotient hash)) = 1 → ∀ i,
      cf.quotient hash < i → c i = []) :
    ∃ cf', cqfFilterDelete cf hash = (.ok, cf') ∧ Alike cf cf' ∧
      Rep cf' (Function.update c (cf.quotient hash)
        (remove (cf.remainder hash) (c (cf.quotient hash)))) := by
  have hq := h.holds.quotient_lt hash
  unfold cqfFilterDelete
  dsimp only
  generalize cf.quotient hash = q at *
  generalize cf.remainder hash = rem at *
  rcases cut (h.readable q).ordered rem with ⟨A, C, B, hAB, haround⟩ | ⟨A, B, hAB, haround⟩
  · have hC := (h.readable q).fits (rem, C) (hAB ▸ List.mem_append_right _ (List.mem_cons_self ..))
    have hpos : 1 ≤ C := hC.pos
    have hcq : c q ≠ [] := hAB ▸ by simp
    have hm := h.ne_nil_iff.mpr hcq
    have hlen := List.length_pos_iff.mpr hm
    obtain ⟨rend, hfind, hrend⟩ := h.holds.findRun_of_occ hm
    have hcount : cf.count ≠ 0 := by
      have := h.size_le q
      rw [hAB, size_append, size_cons] at this
      dsimp only at this
      omega
    have hscan :
        scanStart (start (layout cf.remainderBits c) q) rend =
          start (layout cf.remainderBits c) q :=
      if_neg (by omega)
    rw [if_neg hcount, hfind]
    dsimp only
    rw [hscan, h.scanRun hcq hrend, hAB, scanEntries_found haround]
    dsimp only
    rw [Nat.add_sub_cancel_left]
    rw [hAB, haround.mult_found] at hlast
    rw [hAB, haround.remove_found] at hr
    rw [haround.remove_found]
    by_cases h1 : C = 1
    · subst h1
      rw [if_pos rfl] at hr
      obtain ⟨cf', he, hl, hrep⟩ := h.removeEntry hq hAB (hlast rfl) hr hrend
      exact ⟨cf', by rw [if_pos rfl, he], hl, by rw [if_pos rfl]; exact hrep⟩
    · obtain ⟨C, rfl⟩ := Nat.exists_eq_add_of_le' hpos
      rw [if_neg h1, Nat.add_sub_cancel] at hr ⊢
      obtain ⟨cf', he, hl, hrep⟩ := h.decrement hq hAB (show 1 ≤ C by omega) hr hrend
      exact ⟨cf', by rw [if_neg (show C ≠ 0 by omega), he], hl, hrep⟩
  · rw [hAB, haround.mult_missing] at hin
    cases hin

/-! ## Counting -/

/-- The loop of `find_run` finds an occupied quotient. -/
lemma CqfFilter.occ_of_prevOccupied :
    ∀ {n search s : ℕ}, cf.prevOccupied n search = some s → cf.occ s = true
  | n + 1, search, s, h => by
    rw [prevOccupied] at h
    generalize (if search = 0 then cf.numSlots else search) - 1 = prev at h
    split_ifs at h with hocc
    · exact Option.some.inj h ▸ hocc
    · exact occ_of_prevOccupied h

/-- The loop of `find_run` goes over all quotients. -/
lemma CqfFilter.occ_of_prevOccupied_none {ns : ℕ} (hns : cf.numSlots = ns) : ∀ {n search k : ℕ},
    cf.prevOccupied n search = none → search < ns → n ≤ ns → k < n →
    cf.occ ((search + ns - 1 - k) % ns) = false
  | n + 1, search, k, h, hs, hn, hk => by
    have hprev : (if search = 0 then ns else search) - 1 = (search + ns - 1) % ns := by
      split_ifs with h0
      · rw [Nat.mod_eq_of_lt (by omega)]
        omega
      · rw [show search + ns - 1 = search - 1 + ns by omega, Nat.add_mod_right,
          Nat.mod_eq_of_lt (by omega)]
    rw [prevOccupied, hns, hprev] at h
    split_ifs at h with hocc
    cases k with
    | zero => exact Bool.eq_false_iff.mpr hocc
    | succ k =>
      have ih := occ_of_prevOccupied_none hns h (Nat.mod_lt _ (by omega)) (by omega)
        (Nat.lt_of_succ_lt_succ hk)
      by_cases h0 : search = 0
      · rw [h0, Nat.zero_add, Nat.mod_eq_of_lt (show ns - 1 < ns by omega)] at ih
        rwa [h0, show 0 + ns - 1 - (k + 1) = ns - 1 + ns - 1 - k - ns by omega,
          ← Nat.mod_eq_sub_mod (by omega)]
      · rw [show search + ns - 1 = search - 1 + ns by omega, Nat.add_mod_right,
          Nat.mod_eq_of_lt (show search - 1 < ns by omega)] at ih
        rwa [show search + ns - 1 - (k + 1) = search - 1 + ns - 1 - k by omega]

/-- A query of `hash` goes to the run of another quotient, and its remainder is there: the quotient
has no run, but a run ends at the slot of its number, and the run of the occupied quotient before it
has the remainder. -/
def Misled (cf : CqfFilter) (c : ℕ → List (ℕ × ℕ)) (hash : UInt64) : Prop :=
  cf.occ (cf.quotient hash) = false ∧ cf.run (cf.quotient hash) = true ∧
    ∃ s, cf.prevOccupied cf.numSlots (cf.quotient hash) = some s ∧
    mult (cf.remainder hash) (c s) ≠ 0

/-- The count that is read in the run of a quotient. -/
lemma Rep.countRun (h : Rep cf c) (hq : c q ≠ []) (hrend : rend + 1 =
    start (layout cf.remainderBits c) q + (layout cf.remainderBits c q).length) (rem : ℕ) :
    countRun cf.remainderBits cf.tbl cf.phys rend rem (rend + 1)
      (scanStart (start (layout cf.remainderBits c) q) rend) = mult rem (c q) := by
  have hlen := List.length_pos_iff.mpr (h.ne_nil_iff.mpr hq)
  rw [scanStart, if_neg (by omega)]
  exact countRun_of_decodeRun (h.decodeRun hq hrend) (h.readable q).ordered

/-- The run of the last occupied quotient before `search`, over `k` quotients and around the end of
the table. -/
def runBefore (n : ℕ) (c : ℕ → List (ℕ × ℕ)) : ℕ → ℕ → List (ℕ × ℕ)
  | 0, _ => []
  | k + 1, search =>
    let search := (if search = 0 then n else search) - 1
    if c search = [] then runBefore n c k search else c search

/-- What a query for the remainder `rem` with the quotient `q` reads in the run of another
quotient. -/
def strayCount (rbits n : ℕ) (c : ℕ → List (ℕ × ℕ)) (q rem : ℕ) : ℕ :=
  if c q = [] ∧ Ends (layout rbits c) n q then mult rem (runBefore n c n q) else 0

/-- An occupied quotient is one with a run. -/
lemma Rep.occ_iff (h : Rep cf c) (q : ℕ) : cf.occ q = true ↔ c q ≠ [] :=
  (h.holds.occ q).trans h.ne_nil_iff

/-- The run that `find_run` goes to. -/
lemma Rep.runBefore_eq (h : Rep cf c) : ∀ k search : ℕ,
    runBefore cf.numSlots c k search = (cf.prevOccupied k search).elim [] c
  | 0, _ => rfl
  | k + 1, search => by
    rw [runBefore, prevOccupied]
    generalize (if search = 0 then cf.numSlots else search) - 1 = prev
    by_cases hocc : cf.occ prev = true
    · rw [if_pos hocc, if_neg ((h.occ_iff prev).mp hocc)]
      rfl
    · rw [if_neg hocc, if_pos (not_not.mp (mt (h.occ_iff prev).mpr hocc))]
      exact h.runBefore_eq k prev

/-- A count is that of the fingerprint and what the query reads in the run of another quotient. -/
lemma Rep.count_eq (h : Rep cf c) (hash : UInt64) : cqfFilterCountOccurrences cf hash =
    mult (cf.remainder hash) (c (cf.quotient hash)) +
      strayCount cf.remainderBits cf.numSlots c (cf.quotient hash) (cf.remainder hash) := by
  have hq := h.holds.quotient_lt hash
  have hnil : ∀ {q}, cf.occ q = false → c q = [] := by
    intro q hocc
    by_contra hc
    rw [(h.occ_iff q).mpr hc] at hocc
    cases hocc
  unfold cqfFilterCountOccurrences strayCount
  rw [h.runBefore_eq]
  generalize cf.quotient hash = q at *
  generalize cf.remainder hash = rem at *
  by_cases hcount : cf.count = 0
  · have hzero : ∀ i, mult rem (c i) = 0 := fun i => by
      have := mult_le_size rem (c i)
      have := h.size_le i
      omega
    rw [if_pos hcount, hzero q, Nat.zero_add]
    cases cf.prevOccupied cf.numSlots q with
    | none => exact (ite_self 0).symm
    | some s =>
      rw [Option.elim_some, hzero s]
      exact (ite_self 0).symm
  rw [if_neg hcount]
  cases hocc : cf.occ q with
  | true =>
    have hm := (h.holds.occ q).mp hocc
    obtain ⟨rend, hfind, hrend⟩ := h.holds.findRun_of_occ hm
    rw [hfind, if_neg fun hc => (h.occ_iff q).mp hocc hc.1]
    exact h.countRun (h.ne_nil_iff.mp hm) hrend rem
  | false =>
    rw [hnil hocc]
    unfold findRun
    rw [if_neg (by rw [hocc]; exact Bool.false_ne_true)]
    cases hrun : cf.run q with
    | false =>
      rw [if_neg Bool.false_ne_true, if_neg fun he => ?_]
      · rfl
      · rw [h.holds.run_iff.mpr he.2] at hrun
        cases hrun
    | true =>
      rw [if_pos rfl, if_pos ⟨rfl, h.holds.run_iff.mp hrun⟩]
      cases hprev : cf.prevOccupied cf.numSlots q with
      | none =>
        -- then no quotient has a run
        exfalso
        refine hcount (h.count.trans (Finset.sum_eq_zero fun i hi => ?_))
        have hi := Finset.mem_range.mp hi
        by_cases hiq : i < q
        · have := occ_of_prevOccupied_none rfl hprev hq le_rfl (k := q - 1 - i) (by omega)
          rw [show q + cf.numSlots - 1 - (q - 1 - i) = i + cf.numSlots by omega, Nat.add_mod_right,
            Nat.mod_eq_of_lt hi] at this
          rw [hnil this]
          rfl
        · have := occ_of_prevOccupied_none rfl hprev hq le_rfl (k := q + cf.numSlots - 1 - i)
            (by omega)
          rw [show q + cf.numSlots - 1 - (q + cf.numSlots - 1 - i) = i by omega,
            Nat.mod_eq_of_lt hi] at this
          rw [hnil this]
          rfl
      | some s =>
        have hm := (h.holds.occ s).mp (occ_of_prevOccupied hprev)
        dsimp only
        rw [h.holds.runStart_eq hm, h.countRun (h.ne_nil_iff.mp hm) (h.holds.selectRun_rank hm) rem,
          Option.elim_some]
        exact (Nat.zero_add _).symm

/-- A count is right if and only if the query is not misled. -/
lemma Rep.count_iff (h : Rep cf c) (hash : UInt64) :
    cqfFilterCountOccurrences cf hash = mult (cf.remainder hash) (c (cf.quotient hash)) ↔
      ¬ Misled cf c hash := by
  have hcond : c (cf.quotient hash) = [] ∧
      Ends (layout cf.remainderBits c) cf.numSlots (cf.quotient hash) ↔
      cf.occ (cf.quotient hash) = false ∧ cf.run (cf.quotient hash) = true := by
    rw [h.holds.run_iff, ← Bool.not_eq_true, h.occ_iff, not_not]
  rw [h.count_eq hash, Nat.add_eq_left, strayCount, h.runBefore_eq, Misled, ← and_assoc]
  by_cases hno : cf.occ (cf.quotient hash) = false ∧ cf.run (cf.quotient hash) = true
  · rw [if_pos (hcond.mpr hno), and_iff_right hno]
    cases cf.prevOccupied cf.numSlots (cf.quotient hash) with
    | none => exact iff_of_true rfl fun ⟨s, hs, _⟩ => by cases hs
    | some s =>
      constructor
      · rintro hz ⟨s', hs, hne⟩
        obtain rfl := Option.some.inj hs
        exact hne hz
      · exact fun hall => not_not.mp fun hne => hall ⟨s, rfl, hne⟩
  · rw [if_neg (mt hcond.mp hno)]
    exact iff_of_true rfl fun hm => hno hm.1

end Contents

/-! ## Runs -/

section Runs

/-- A call with whether it gives `CQF_OK`. -/
def cqfStep (cf : CqfFilter) : CountOp UInt64 → Bool × CqfFilter
  | .insert hash => (decide ((cqfFilterInsert cf hash).1 = .ok), (cqfFilterInsert cf hash).2)
  | .delete hash => (decide ((cqfFilterDelete cf hash).1 = .ok), (cqfFilterDelete cf hash).2)

/-- The hashes with the fingerprint of `hash`. -/
def CqfFilter.same (cf : CqfFilter) (hash hash' : UInt64) : Bool :=
  decide (cf.quotient hash' = cf.quotient hash ∧ cf.remainder hash' = cf.remainder hash)

/-- The bags of the quotients after a call. -/
def contentsCall (cf : CqfFilter) (c : ℕ → List (ℕ × ℕ)) (ev : CountEvent UInt64) :
    ℕ → List (ℕ × ℕ) :=
  if ev.ok then
    match ev.op with
    | .insert hash => Function.update c (cf.quotient hash)
      (add (cf.remainder hash) (c (cf.quotient hash)))
    | .delete hash => Function.update c (cf.quotient hash)
      (remove (cf.remainder hash) (c (cf.quotient hash)))
  else c

/-- The fingerprints that the successful calls leave, with their counts, as a bag for each
quotient. -/
def contents (cf : CqfFilter) (evs : List (CountEvent UInt64)) : ℕ → List (ℕ × ℕ) :=
  evs.foldl (contentsCall cf) fun _ => []

/-- A deletion is of a fingerprint that was inserted more often than deleted. -/
def OfPresent (cf : CqfFilter) (evs : List (CountEvent UInt64)) : CountOp UInt64 → Prop
  | .insert _ => True
  | .delete hash => removed (cf.same hash) evs < added (cf.same hash) evs

/-- The run that a call changes can be read back after it, and a deletion does not take the last
occurrence of a fingerprint while a greater quotient has a run. -/
def Sound (cf₀ cf : CqfFilter) (evs : List (CountEvent UInt64)) : CountOp UInt64 → Prop
  | .insert hash => (cqfFilterInsert cf hash).1 = .ok → Readable cf₀.remainderBits
      (add (cf₀.remainder hash) (contents cf₀ evs (cf₀.quotient hash)))
  | .delete hash => Readable cf₀.remainderBits
      (remove (cf₀.remainder hash) (contents cf₀ evs (cf₀.quotient hash))) ∧
        (mult (cf₀.remainder hash) (contents cf₀ evs (cf₀.quotient hash)) = 1 →
          ∀ q, cf₀.quotient hash < q → contents cf₀ evs q = [])

variable {cf₀ cf : CqfFilter} {evs : List (CountEvent UInt64)} {c : ℕ → List (ℕ × ℕ)}
  {hash : UInt64}

/-- The filter holds what the calls leave. -/
structure Accounted (cf₀ cf : CqfFilter) (evs : List (CountEvent UInt64)) : Prop where
  alike : Alike cf₀ cf
  rep : Rep cf (contents cf₀ evs)
  each : ∀ hash,
    mult (cf₀.remainder hash) (contents cf₀ evs (cf₀.quotient hash)) + removed (cf₀.same hash) evs =
    added (cf₀.same hash) evs
  count : cf.count + removed (fun _ => true) evs = added (fun _ => true) evs
  deletes : ∀ ev ∈ evs, ∀ hash, ev.op = .delete hash → ev.ok = true

/-- The bags after one call more. -/
lemma contents_append (cf : CqfFilter) (evs : List (CountEvent UInt64)) (ev : CountEvent UInt64) :
    contents cf (evs ++ [ev]) = contentsCall cf (contents cf evs) ev := List.foldl_append ..

/-- A quotient that no call has is empty. -/
lemma contents_eq_nil {q : ℕ} (h : ∀ ev ∈ evs, cf.quotient ev.op.elem ≠ q) :
    contents cf evs q = [] := by
  induction evs using List.reverseRecOn with
  | nil => rfl
  | append_singleton evs ev ih =>
    have ih := ih fun ev' hev => h ev' (List.mem_append_left _ hev)
    have hq : cf.quotient ev.op.elem ≠ q :=
      h ev (List.mem_append_right _ (List.mem_singleton_self ev))
    obtain ⟨op, ok⟩ := ev
    rw [contents_append, contentsCall]
    cases ok with
    | false => exact ih
    | true =>
      cases op with
      | insert hash => exact (Function.update_of_ne hq.symm _ _).trans ih
      | delete hash => exact (Function.update_of_ne hq.symm _ _).trans ih

/-- Only the quotients of the calls need to be looked at. -/
lemma contents_nil_above {q : ℕ} :
    (∀ ev ∈ evs, q < cf.quotient ev.op.elem → contents cf evs (cf.quotient ev.op.elem) = []) ↔
      ∀ q', q < q' → contents cf evs q' = [] := by
  constructor
  · intro h q' hq'
    by_cases hev : ∃ ev ∈ evs, cf.quotient ev.op.elem = q'
    · obtain ⟨ev, hm, rfl⟩ := hev
      exact h ev hm hq'
    · exact contents_eq_nil fun ev hm he => hev ⟨ev, hm, he⟩
  · exact fun h ev _ hq => h _ hq

instance (cf : CqfFilter) (evs : List (CountEvent UInt64)) : ∀ op, Decidable (OfPresent cf evs op)
  | .insert _ => isTrue trivial
  | .delete _ => inferInstanceAs (Decidable (_ < _))

instance (cf₀ cf : CqfFilter) (evs : List (CountEvent UInt64)) :
    ∀ op, Decidable (Sound cf₀ cf evs op)
  | .insert _ => inferInstanceAs (Decidable (_ = _ → Readable _ _))
  | .delete hash => decidable_of_iff (Readable cf₀.remainderBits
      (remove (cf₀.remainder hash) (contents cf₀ evs (cf₀.quotient hash))) ∧
        (mult (cf₀.remainder hash) (contents cf₀ evs (cf₀.quotient hash)) = 1 → ∀ ev ∈ evs,
          cf₀.quotient hash < cf₀.quotient ev.op.elem →
          contents cf₀ evs (cf₀.quotient ev.op.elem) = []))
      (and_congr_right fun _ => imp_congr_right fun _ => contents_nil_above)

/-- One more of a fingerprint. -/
lemma mult_update_add (h : ∀ q, Ordered (c q)) (hash hash' : UInt64) :
    mult (cf.remainder hash')
      (Function.update c (cf.quotient hash) (add (cf.remainder hash) (c (cf.quotient hash)))
      (cf.quotient hash')) = mult (cf.remainder hash') (c (cf.quotient hash')) +
        (cf.same hash' hash).toNat := by
  unfold CqfFilter.same
  by_cases hq : cf.quotient hash = cf.quotient hash'
  · rw [← hq, Function.update_self, mult_add (h _)]
    by_cases hr : cf.remainder hash = cf.remainder hash'
    · rw [if_pos hr, decide_eq_true ⟨rfl, hr⟩]
      rfl
    · rw [if_neg hr, decide_eq_false fun hc => hr hc.2]
      rfl
  · rw [Function.update_of_ne (Ne.symm hq), decide_eq_false fun hc => hq hc.1]
    rfl

/-- One less of a fingerprint that is there. -/
lemma mult_update_remove (h : ∀ q, Ordered (c q))
    (hin : 0 < mult (cf.remainder hash) (c (cf.quotient hash)))
    (hash' : UInt64) : mult (cf.remainder hash') (Function.update c (cf.quotient hash)
      (remove (cf.remainder hash) (c (cf.quotient hash))) (cf.quotient hash')) +
        (cf.same hash' hash).toNat =
        mult (cf.remainder hash') (c (cf.quotient hash')) := by
  unfold CqfFilter.same
  by_cases hq : cf.quotient hash = cf.quotient hash'
  · rw [← hq, Function.update_self, ← mult_remove (h _) hin]
    by_cases hr : cf.remainder hash = cf.remainder hash'
    · rw [if_pos hr, decide_eq_true ⟨rfl, hr⟩]
      rfl
    · rw [if_neg hr, decide_eq_false fun hc => hr hc.2]
      rfl
  · rw [Function.update_of_ne (Ne.symm hq), decide_eq_false fun hc => hq hc.1]
    rfl

/-- One call keeps the account. -/
lemma Accounted.call (h : Accounted cf₀ cf evs) (op : CountOp UInt64) (hop : OfPresent cf₀ evs op)
    (hs : Sound cf₀ cf evs op) :
    Accounted cf₀ (cqfStep cf op).2 (evs ++ [⟨op, (cqfStep cf op).1⟩]) := by
  have hordered : ∀ q, Ordered (contents cf₀ evs q) := fun q => (h.rep.readable q).ordered
  cases op with
  | insert hash =>
    have hins := fun hr => (@Rep.insert _ _ hash) h.rep hr
    rw [h.alike.quotient, h.alike.remainder, h.alike.remainderBits] at hins
    -- a refused insertion leaves the filter as it is
    by_cases hok : (cqfFilterInsert cf hash).1 = .ok
    · obtain ⟨e, hne, he, -⟩ | ⟨cf', he, hl, hrep, -⟩ := hins (hs hok)
      · rw [he] at hok
        exact absurd hok hne
      have hstep : cqfStep cf (.insert hash) = (true, cf') := by
        rw [cqfStep, he, decide_eq_true rfl]
      have hcontents :
        contents cf₀ (evs ++ [⟨.insert hash, true⟩]) = Function.update (contents cf₀ evs)
          (cf₀.quotient hash) (add (cf₀.remainder hash) (contents cf₀ evs (cf₀.quotient hash))) :=
            contents_append ..
      have htotal :=
        total_update (c := contents cf₀ evs) (h.alike.quotient hash ▸ h.rep.holds.quotient_lt hash)
          (add (cf₀.remainder hash) (contents cf₀ evs (cf₀.quotient hash)))
      rw [hstep]
      refine ⟨h.alike.trans hl, hcontents ▸ hrep, fun hash' => ?_, ?_, fun ev hev hash' hd => ?_⟩
      · rw [hcontents, mult_update_add hordered, added_append, removed_append, added_single_insert,
          removed_single_insert, Bool.true_and]
        have := h.each hash'
        omega
      · rw [added_append, removed_append, added_single_insert, removed_single_insert, Bool.true_and,
          hrep.count, hl.numSlots]
        have := h.count
        have := h.rep.count
        have := size_add (hordered (cf₀.quotient hash)) (cf₀.remainder hash)
        rw [Bool.toNat_true]
        omega
      · rcases List.mem_append.mp hev with hev | hev
        · exact h.deletes ev hev hash' hd
        · rw [List.mem_singleton.mp hev] at hd
          cases hd
    · have hstep : cqfStep cf (.insert hash) = (false, cf) := by
        obtain ⟨e, -, he⟩ | ⟨cf', l, he, -⟩ := h.rep.holds.insert_cases hash
        · rw [cqfStep, decide_eq_false hok, he]
        · rw [he] at hok
          exact absurd rfl hok
      have hcontents : contents cf₀ (evs ++ [⟨.insert hash, false⟩]) = contents cf₀ evs :=
        contents_append ..
      rw [hstep]
      refine ⟨h.alike, hcontents ▸ h.rep, fun hash' => ?_, ?_, fun ev hev hash' hd => ?_⟩
      · rw [hcontents, added_append, removed_append]
        exact h.each hash'
      · rw [added_append, removed_append]
        exact h.count
      · rcases List.mem_append.mp hev with hev | hev
        · exact h.deletes ev hev hash' hd
        · rw [List.mem_singleton.mp hev] at hd
          cases hd
  | delete hash =>
    -- what the history has more of is in the run
    have hin : 0 < mult (cf₀.remainder hash) (contents cf₀ evs (cf₀.quotient hash)) := by
      have := h.each hash
      have : removed (cf₀.same hash) evs < added (cf₀.same hash) evs := hop
      omega
    have hdel := fun h1 h2 h3 => (@Rep.delete _ _ hash) h.rep h1 h2 h3
    rw [h.alike.quotient, h.alike.remainder, h.alike.remainderBits] at hdel
    obtain ⟨cf', he, hl, hrep⟩ := hdel hin hs.1 hs.2
    have hstep : cqfStep cf (.delete hash) = (true, cf') := by
      rw [cqfStep, he, decide_eq_true rfl]
    have hcontents :
      contents cf₀ (evs ++ [⟨.delete hash, true⟩]) = Function.update (contents cf₀ evs)
        (cf₀.quotient hash) (remove (cf₀.remainder hash) (contents cf₀ evs (cf₀.quotient hash))) :=
          contents_append ..
    have htotal :=
      total_update (c := contents cf₀ evs) (h.alike.quotient hash ▸ h.rep.holds.quotient_lt hash)
        (remove (cf₀.remainder hash) (contents cf₀ evs (cf₀.quotient hash)))
    rw [hstep]
    refine ⟨h.alike.trans hl, hcontents ▸ hrep, fun hash' => ?_, ?_, fun ev hev hash' hd => ?_⟩
    · rw [hcontents, added_append, removed_append, added_single_delete, removed_single_delete,
        Bool.true_and]
      have := h.each hash'
      have := mult_update_remove hordered hin hash'
      omega
    · rw [added_append, removed_append, added_single_delete, removed_single_delete, Bool.true_and,
        hrep.count, hl.numSlots]
      have := h.count
      have := h.rep.count
      have := size_remove (hordered (cf₀.quotient hash)) hin
      rw [Bool.toNat_true]
      omega
    · rcases List.mem_append.mp hev with hev | hev
      · exact h.deletes ev hev hash' hd
      · rw [List.mem_singleton.mp hev]

/-- A new filter holds nothing. -/
lemma Fresh.rep {k rbits : ℕ} (h : Fresh cf k rbits) : Rep cf fun _ => [] :=
  ⟨h.holds, fun _ => ⟨.nil, nofun, .nil⟩, h.count.trans (Finset.sum_const_zero).symm⟩

/-- In every run that deletes fingerprints that are present only, the deletions succeed, the count
field is that of the successful insertions less that of the deletions, and so is the count of every
fingerprint if and only if the query is not misled to the run of another quotient; under the
condition that no call leaves a run that cannot be read back, and no deletion a hole in front of
another run. -/
theorem delete_inverts_insert (malloc : Bool) (capacity fpBits : ℕ) (cf₀ : CqfFilter)
    (hc : cqfFilterCreate malloc capacity fpBits = some (some cf₀)) (ops : List (CountOp UInt64))
    (hpresent : Always cqfStep (fun _ evs op => OfPresent cf₀ evs op) cf₀ [] ops)
    (hsound : Always cqfStep (Sound cf₀) cf₀ [] ops) :
    let evs := (Lib.countRun cqfStep cf₀ ops).1
    let cf := (Lib.countRun cqfStep cf₀ ops).2
    (∀ ev ∈ evs, ∀ hash, ev.op = .delete hash → ev.ok = true) ∧
      cf.count + removed (fun _ => true) evs = added (fun _ => true) evs ∧
      ∀ hash, cqfFilterCountOccurrences cf hash + removed (cf₀.same hash) evs = added
      (cf₀.same hash) evs ↔
        ¬ Misled cf (contents cf₀ evs) hash := by
  obtain ⟨hf, -⟩ := create_eq_some hc
  have hstart : Accounted cf₀ cf₀ [] :=
    ⟨⟨rfl, rfl, rfl, rfl⟩, hf.rep, fun _ => rfl, congrArg (· + 0) hf.count, nofun⟩
  have hrun :=
    Always.run (I := Accounted cf₀) (fun _ _ op h hop => h.call op hop.1 hop.2) ops cf₀ [] hstart
      (hpresent.and hsound)
  rw [List.nil_append] at hrun
  refine ⟨hrun.deletes, hrun.count, fun hash => ?_⟩
  have hiff := hrun.rep.count_iff hash
  rw [hrun.alike.quotient, hrun.alike.remainder] at hiff
  rw [← hiff, ← hrun.each hash]
  exact Nat.add_right_cancel_iff

/-- Two fingerprints, one with two occurrences of which one is deleted. -/
theorem delete_inverts_insert_two :
    ∃ cf₀, cqfFilterCreate true 64 8 = some (some cf₀) ∧
      cqfFilterCountOccurrences
      (Lib.countRun cqfStep cf₀ [.insert 3, .insert 259, .insert 259, .delete 259]).2 259 +
        removed (cf₀.same 259)
        (Lib.countRun cqfStep cf₀ [.insert 3, .insert 259, .insert 259, .delete 259]).1 =
        added (cf₀.same 259)
        (Lib.countRun cqfStep cf₀ [.insert 3, .insert 259, .insert 259, .delete 259]).1 := by
  exact ⟨_, rfl,
    ((delete_inverts_insert true 64 8 _ rfl [.insert 3, .insert 259, .insert 259, .delete 259]
    (by decide +kernel) (by decide +kernel)).2.2 259).mpr fun h => absurd h.1 (by decide +kernel)⟩

/-- A deletion empties the run in front of that of another fingerprint, and the other fingerprint is
lost. -/
theorem delete_loses_other :
    ∃ cf₀, cqfFilterCreate true 64 8 = some (some cf₀) ∧
      let evs := (Lib.countRun cqfStep cf₀ [.insert 5, .insert 259, .delete 5]).1
      let cf := (Lib.countRun cqfStep cf₀ [.insert 5, .insert 259, .delete 5]).2
      evs.map CountEvent.ok = [true, true, true] ∧
        removed (cf₀.same 5) [⟨.insert 5, true⟩, ⟨.insert 259, true⟩] <
          added (cf₀.same 5) [⟨.insert 5, true⟩, ⟨.insert 259, true⟩] ∧
        added (cf₀.same 259) evs = 1 ∧ removed (cf₀.same 259) evs = 0 ∧
          cqfFilterCountOccurrences cf 259 = 0 :=
  ⟨_, rfl, by decide +kernel, by decide +kernel, by decide +kernel, by decide +kernel,
    by decide +kernel⟩

end Runs

end Draugr.Cqf
