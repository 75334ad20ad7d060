import Draugr.Cqf.Layout

/-!
# Moving slots

What the loops that move slots do. A slot is seen with its run-end bit and its physical-occupancy
bit as one cell. `place` opens one cell by a shift up to a free slot (`opened_place`); `resizeEntry`
replaces the cells of an entry by those of its new encoding and moves all cells behind it
(`Packed.resizeEntry`).
-/

namespace Draugr.Cqf
open Draugr.Lib Draugr.Qf

namespace CqfFilter

/-- The two filters have one shape. -/
structure Alike (cf cf' : CqfFilter) : Prop where
  numSlots : cf'.numSlots = cf.numSlots
  numBlocks : cf'.numBlocks = cf.numBlocks
  remainderBits : cf'.remainderBits = cf.remainderBits
  hashSeed : cf'.hashSeed = cf.hashSeed

namespace Alike

variable {cf cf' cf'' : CqfFilter}

/-- A filter has its own shape. -/
lemma refl (cf : CqfFilter) : Alike cf cf := ⟨rfl, rfl, rfl, rfl⟩

/-- Filters of one shape, one after the other. -/
lemma trans (h : Alike cf cf') (h' : Alike cf' cf'') : Alike cf cf'' :=
  ⟨h'.numSlots.trans h.numSlots, h'.numBlocks.trans h.numBlocks,
    h'.remainderBits.trans h.remainderBits, h'.hashSeed.trans h.hashSeed⟩

/-- The quotient of a hash depends on the shape only. -/
lemma quotient (h : Alike cf cf') (hash : UInt64) : cf'.quotient hash = cf.quotient hash := by
  rw [CqfFilter.quotient, CqfFilter.quotient, h.numSlots, h.remainderBits]

/-- The remainder of a hash depends on the shape only. -/
lemma remainder (h : Alike cf cf') (hash : UInt64) : cf'.remainder hash = cf.remainder hash := by
  rw [CqfFilter.remainder, CqfFilter.remainder, h.remainderBits]

end Alike

/-- The two filters differ in their slots and in their index only. -/
structure Beside (cf cf' : CqfFilter) : Prop extends Alike cf cf' where
  occ : cf'.occ = cf.occ
  count : cf'.count = cf.count

/-- A slot with its two bits. -/
def cell (cf : CqfFilter) (p : ℕ) : ℕ × Bool × Bool := (cf.tbl p, cf.run p, cf.phys p)

/-- Every slot holds a value of the width of a remainder. -/
def Narrow (cf : CqfFilter) : Prop := ∀ p, cf.tbl p < 2 ^ cf.remainderBits

variable {cf cf' cf'' : CqfFilter} {m : ℕ → List ℕ}
  {src dst n p s f v rend pos old new rem C limit tail : ℕ}

/-- A filter differs from itself in nothing else. -/
lemma Beside.refl (cf : CqfFilter) : Beside cf cf := ⟨⟨rfl, rfl, rfl, rfl⟩, rfl, rfl⟩

/-- Two steps that change slots and index only. -/
lemma Beside.trans (h : Beside cf cf') (h' : Beside cf' cf'') : Beside cf cf'' :=
  ⟨⟨h'.numSlots.trans h.numSlots, h'.numBlocks.trans h.numBlocks,
    h'.remainderBits.trans h.remainderBits,
    h'.hashSeed.trans h.hashSeed⟩, h'.occ.trans h.occ, h'.count.trans h.count⟩

/-- A write keeps the width. -/
lemma remSet_lt {rbits : ℕ} {tbl : ℕ → ℕ} (h : ∀ p, tbl p < 2 ^ rbits) (i v p : ℕ) :
    remSet rbits tbl i v p < 2 ^ rbits := by
  rw [remSet]
  by_cases hp : p = i
  · rw [hp, Function.update_self]
    exact Nat.mod_lt _ (Nat.two_pow_pos _)
  · rw [Function.update_of_ne hp]
    exact h p

/-- Written remainders have `rbits` bits. -/
lemma remSetAll_lt {rbits : ℕ} : ∀ (l : List ℕ) {tbl : ℕ → ℕ} (i p : ℕ), (∀ p, tbl p < 2 ^ rbits) →
    remSetAll rbits tbl i l p < 2 ^ rbits
  | [], _, _, p, h => h p
  | v :: l, _, i, p, h => remSetAll_lt l (i + 1) p (remSet_lt h i v)

/-- Slots behind those written stay. -/
lemma remSetAll_of_ge {rbits : ℕ} : ∀ (l : List ℕ) {tbl : ℕ → ℕ} {i k : ℕ}, i + l.length ≤ k →
    remSetAll rbits tbl i l k = tbl k
  | [], tbl, i, k, _ => rfl
  | v :: l, tbl, i, k, h => by
    rw [List.length_cons] at h
    rw [remSetAll, remSetAll_of_ge l (by omega), remSet, Function.update_of_ne (by omega)]

/-- The slots written. -/
lemma remSetAll_get {rbits : ℕ} : ∀ (l : List ℕ) {tbl : ℕ → ℕ} {i k : ℕ}, k < l.length →
    (l.map (· % 2 ^ rbits))[k]? = some (remSetAll rbits tbl i l (i + k))
  | [], tbl, i, k, h => by cases h
  | v :: l, tbl, i, 0, h => by
    rw [Nat.add_zero, remSetAll, remSetAll_of_lt rbits l (Nat.lt_succ_self i), remSet,
      Function.update_self]
    rfl
  | v :: l, tbl, i, k + 1, h => by
    have := @remSetAll_get rbits l (remSet rbits tbl i v) (i + 1) k (Nat.lt_of_succ_lt_succ h)
    rw [remSetAll, List.map_cons, List.getElem?_cons_succ, this,
      show i + 1 + k = i + (k + 1) by omega]

/-! ## Opening a cell -/

/-- One step of the shift to a cell without data. -/
lemma shiftSlot_eq (hn : cf.Narrow) (hphys : cf.phys (p + 1) = false)
    (hrun : cf.run (p + 1) = false) :
    cf.shiftSlot p = { cf with
      tbl := Function.update (Function.update cf.tbl (p + 1) (cf.tbl p)) p 0
      run := Function.update (Function.update cf.run (p + 1) (cf.run p)) p false
      phys := Function.update (Function.update cf.phys (p + 1) (cf.phys p)) p false } := by
  have hr : (if cf.run p then clearBit (setBit cf.run (p + 1)) p else cf.run) =
      Function.update (Function.update cf.run (p + 1) (cf.run p)) p false := by
    cases hp : cf.run p with
    | true => rfl
    | false =>
      have hq : Function.update cf.run (p + 1) false = cf.run :=
        Function.update_eq_self_iff.mpr hrun.symm
      rw [hq, if_neg (by simp)]
      exact (Function.update_eq_self_iff.mpr hp.symm).symm
  have hp : movePhysOcc cf.phys p (p + 1) =
      Function.update (Function.update cf.phys (p + 1) (cf.phys p)) p false := by
    cases hp : cf.phys p with
    | true => simp [movePhysOcc, hp, clearBit, setBit]
    | false =>
      have hq : Function.update cf.phys (p + 1) false = cf.phys :=
        Function.update_eq_self_iff.mpr hphys.symm
      rw [hq, movePhysOcc, hp, if_neg (by simp)]
      exact (Function.update_eq_self_iff.mpr hp.symm).symm
  simp only [shiftSlot, hr, hp, remSet, Nat.mod_eq_of_lt (hn p), Nat.zero_mod]

/-- The loop of `shift_range_right` up to a free slot. -/
lemma shiftLoop_eq (s : ℕ) : ∀ (k : ℕ) {cf : CqfFilter}, cf.Narrow → cf.phys (s + k) = false →
    cf.run (s + k) = false → ∃ t, (∀ v, Function.update t s v = openAt cf.tbl s (s + k) v) ∧
      cf.shiftLoop s k = { cf with
        tbl := t
        run := openAt cf.run s (s + k) false
        phys := openAt cf.phys s (s + k) false }
  | 0, cf, _, hphys, hrun => by
    rw [Nat.add_zero] at hphys hrun
    refine ⟨cf.tbl, fun v => ?_, ?_⟩
    · rw [Nat.add_zero, ← update_openAt (u := cf.tbl s), openAt_eq_self rfl]
    · rw [shiftLoop, Nat.add_zero, openAt_eq_self hphys, openAt_eq_self hrun]
  | k + 1, cf, hn, hphys, hrun => by
    rw [← Nat.add_assoc] at hphys hrun
    have hmove := shiftSlot_eq hn hphys hrun
    have hn' : (cf.shiftSlot (s + k)).Narrow := remSet_lt (remSet_lt hn _ _) _ _
    obtain ⟨t, ht, heq⟩ := shiftLoop_eq s k hn' (by rw [hmove]; exact Function.update_self ..)
      (by rw [hmove]; exact Function.update_self ..)
    refine ⟨t, fun v => ?_, ?_⟩
    · rw [ht, hmove]
      exact openAt_update k
    · rw [shiftLoop, heq, hmove]
      simp only [openAt_update, ← Nat.add_assoc]

/-- The filter `cf'` is `cf` with a cell opened at `s` for the remainder `rem`, up to the free slot
`f`. -/
structure Opened (cf cf' : CqfFilter) (s f rem : ℕ) : Prop where
  beside : Beside cf cf'
  tbl : cf'.tbl = openAt cf.tbl s f (rem % 2 ^ cf.remainderBits)
  run : cf'.run = openAt cf.run s f false
  phys : cf'.phys = openAt cf.phys s f true

/-- `place` opens a cell and fills it. -/
lemma opened_place (hn : cf.Narrow) (hsf : s ≤ f) (hphys : cf.phys f = false)
    (hrun : cf.run f = false) (rem : ℕ) :
    Opened cf (cf.place s f rem) s f rem := by
  unfold place
  rcases Nat.lt_or_eq_of_le hsf with hlt | rfl
  · obtain ⟨k, rfl⟩ := Nat.exists_eq_add_of_le hsf
    obtain ⟨t, ht, heq⟩ := shiftLoop_eq s k hn hphys hrun
    have hshift : cf.shiftRangeRight s (s + k) = (cf.shiftLoop s k).updateOffsets := by
      rw [shiftRangeRight, if_pos hlt, Nat.add_sub_cancel_left]
    rw [if_pos hlt.ne, hshift, heq]
    exact ⟨⟨⟨rfl, rfl, rfl, rfl⟩, rfl, rfl⟩, ht _, rfl, update_openAt⟩
  · rw [if_neg (not_not.mpr rfl)]
    refine ⟨⟨⟨rfl, rfl, rfl, rfl⟩, rfl, rfl⟩, ?_, (openAt_eq_self hrun).symm, ?_⟩
    · rw [← update_openAt (u := cf.tbl s), openAt_eq_self rfl]
      rfl
    · rw [← update_openAt (u := cf.phys s), openAt_eq_self rfl]
      rfl

/-! ## Moving cells -/

/-- The cells `[src, src + n)` have moved to `dst`; what is before or behind both places is as it
was. -/
structure Moved (cf cf' : CqfFilter) (src dst n : ℕ) : Prop where
  beside : Beside cf cf'
  narrow : cf'.Narrow
  here : ∀ k < n, cf'.cell (dst + k) = cf.cell (src + k)
  below : ∀ p, p < src → p < dst → cf'.cell p = cf.cell p
  above : ∀ p, src + n ≤ p → dst + n ≤ p → cf'.cell p = cf.cell p

/-- A moved slot changes slots and index only. -/
lemma beside_moveSlot (cf : CqfFilter) (src dst : ℕ) : Beside cf (cf.moveSlot src dst) :=
  ⟨⟨rfl, rfl, rfl, rfl⟩, rfl, rfl⟩

/-- A moved slot is still narrow. -/
lemma narrow_moveSlot (hn : cf.Narrow) (src dst : ℕ) : (cf.moveSlot src dst).Narrow :=
  remSet_lt hn _ _

/-- The cell that a slot is moved to. -/
lemma cell_moveSlot_dst (hn : cf.Narrow) (hne : dst ≠ src) (hphys : cf.phys src = true) :
    (cf.moveSlot src dst).cell dst = cf.cell src := by
  have htbl : remSet cf.remainderBits cf.tbl dst (cf.tbl src) dst = cf.tbl src := by
    rw [remSet, Function.update_self, Nat.mod_eq_of_lt (hn src)]
  have hrun : (if cf.run src then clearBit (setBit cf.run dst) src else clearBit cf.run dst) dst =
      cf.run src := by
    cases hr : cf.run src with
    | true => rw [if_pos rfl, clearBit, Function.update_of_ne hne, setBit, Function.update_self]
    | false => rw [if_neg (by simp), clearBit, Function.update_self]
  have hp : movePhysOcc cf.phys src dst dst = cf.phys src := by
    rw [movePhysOcc, hphys, if_pos rfl, clearBit, Function.update_of_ne hne, setBit,
      Function.update_self]
  simp only [cell, moveSlot, htbl, hrun, hp]

/-- The other cells. -/
lemma cell_moveSlot_of_ne (h1 : p ≠ src) (h2 : p ≠ dst) :
    (cf.moveSlot src dst).cell p = cf.cell p := by
  have htbl : remSet cf.remainderBits cf.tbl dst (cf.tbl src) p = cf.tbl p :=
    Function.update_of_ne h2 ..
  have hrun : (if cf.run src then clearBit (setBit cf.run dst) src else clearBit cf.run dst) p =
      cf.run p := by
    split_ifs
    · rw [clearBit, Function.update_of_ne h1, setBit, Function.update_of_ne h2]
    · rw [clearBit, Function.update_of_ne h2]
  have hp : movePhysOcc cf.phys src dst p = cf.phys p := by
    rw [movePhysOcc]
    split_ifs
    · rw [clearBit, Function.update_of_ne h1, setBit, Function.update_of_ne h2]
    · rfl
  simp only [cell, moveSlot, htbl, hrun, hp]

/-- The bit of data is part of the cell. -/
lemma phys_of_cell {q : ℕ} (h : cf'.cell p = cf.cell q) : cf'.phys p = cf.phys q :=
  congrArg (fun c => c.2.2) h

/-- Equal cells have the same run-end bit. -/
lemma run_of_cell {q : ℕ} (h : cf'.cell p = cf.cell q) : cf'.run p = cf.run q :=
  congrArg (fun c => c.2.1) h

/-- Equal cells have the same remainder. -/
lemma tbl_of_cell {q : ℕ} (h : cf'.cell p = cf.cell q) : cf'.tbl p = cf.tbl q := congrArg Prod.fst h

/-- Moving to the right, the last slot first. -/
lemma moved_moveRight : ∀ (n : ℕ) {cf : CqfFilter}, cf.Narrow → src < dst → dst + n ≤ cf.numSlots →
    (∀ k < n, cf.phys (src + k) = true) → Moved cf (cf.moveRight src dst n) src dst n
  | 0, cf, hn, _, _, _ => ⟨.refl cf, hn, fun k hk => by omega, fun _ _ _ => rfl, fun _ _ _ => rfl⟩
  | n + 1, cf, hn, hlt, hns, hphys => by
    rw [moveRight, Nat.mod_eq_of_lt (by omega), Nat.mod_eq_of_lt (by omega)]
    have hcell :
        ∀ p, p ≠ src + n → p ≠ dst + n → (cf.moveSlot (src + n) (dst + n)).cell p =
          cf.cell p := fun p h1 h2 =>
      cell_moveSlot_of_ne h1 h2
    have ih := moved_moveRight n (narrow_moveSlot hn (src + n) (dst + n)) hlt
      (show dst + n ≤ (cf.moveSlot (src + n) (dst + n)).numSlots from by
        rw [(beside_moveSlot ..).numSlots]
        omega)
      fun k hk => by
        rw [phys_of_cell (hcell (src + k) (by omega) (by omega))]
        exact hphys k (by omega)
    refine ⟨(beside_moveSlot ..).trans ih.beside, ih.narrow, fun k hk => ?_, fun p h1 h2 => ?_,
      fun p h1 h2 => ?_⟩
    · rcases Nat.lt_or_eq_of_le (Nat.le_of_lt_succ hk) with hk | rfl
      · rw [ih.here k hk, hcell _ (by omega) (by omega)]
      · rw [ih.above _ (by omega) le_rfl, cell_moveSlot_dst hn (by omega) (hphys k (by omega))]
    · rw [ih.below p h1 h2, hcell _ (by omega) (by omega)]
    · rw [ih.above p (by omega) (by omega), hcell _ (by omega) (by omega)]

/-- Moving to the left, the first slot first. -/
lemma moved_moveLeft (hn : cf.Narrow) (hlt : dst < src) : ∀ (n : ℕ), src + n ≤ cf.numSlots →
    (∀ k < n, cf.phys (src + k) = true) → Moved cf (cf.moveLeft src dst n) src dst n
  | 0, _, _ => ⟨.refl cf, hn, fun k hk => by omega, fun _ _ _ => rfl, fun _ _ _ => rfl⟩
  | n + 1, hns, hphys => by
    have ih := moved_moveLeft hn hlt n (by omega) fun k hk => hphys k (by omega)
    rw [moveLeft, Nat.mod_eq_of_lt (by omega), Nat.mod_eq_of_lt (by omega)]
    have hcell : ∀ p, p ≠ src + n → p ≠ dst + n →
        ((cf.moveLeft src dst n).moveSlot (src + n) (dst + n)).cell p =
        (cf.moveLeft src dst n).cell p :=
      fun p h1 h2 => cell_moveSlot_of_ne h1 h2
    refine ⟨ih.beside.trans (beside_moveSlot ..), narrow_moveSlot ih.narrow _ _, fun k hk => ?_,
      fun p h1 h2 => ?_, fun p h1 h2 => ?_⟩
    · rcases Nat.lt_or_eq_of_le (Nat.le_of_lt_succ hk) with hk | rfl
      · rw [hcell _ (by omega) (by omega), ih.here k hk]
      · have hsrc := ih.above (src + k) le_rfl (by omega)
        rw [cell_moveSlot_dst ih.narrow (by omega)
          (by rw [phys_of_cell hsrc]; exact hphys k (by omega)), hsrc]
    · rw [hcell _ (by omega) (by omega), ih.below p h1 h2]
    · rw [hcell _ (by omega) (by omega), ih.above p (by omega) (by omega)]

/-! ## Clearing cells -/

/-- Clearing changes slots and index only. -/
lemma beside_clearSlots (cf : CqfFilter) (s : ℕ) : ∀ n, Beside cf (cf.clearSlots s n)
  | 0 => .refl cf
  | n + 1 => (beside_clearSlots cf s n).trans ⟨⟨rfl, rfl, rfl, rfl⟩, rfl, rfl⟩

/-- Cleared slots are narrow. -/
lemma narrow_clearSlots (hn : cf.Narrow) (s : ℕ) : ∀ n, (cf.clearSlots s n).Narrow
  | 0 => hn
  | n + 1 => remSet_lt (narrow_clearSlots hn s n) _ _

/-- The cells after slots were cleared. -/
lemma cell_clearSlots (cf : CqfFilter) (s p : ℕ) : ∀ n,
    (cf.clearSlots s n).cell p = if s ≤ p ∧ p < s + n then (0, false, false) else cf.cell p
  | 0 => by
    rw [if_neg (by omega)]
    rfl
  | n + 1 => by
    by_cases hp : p = s + n
    · rw [if_pos (by omega), hp, clearSlots, cell]
      simp only [clearSlot, remSet, clearBit, Function.update_self, Nat.zero_mod]
    · have hcell : (cf.clearSlots s (n + 1)).cell p = (cf.clearSlots s n).cell p := by
        simp only [clearSlots, cell, clearSlot, remSet, clearBit, Function.update_of_ne hp]
      rw [hcell, cell_clearSlots cf s p n]
      exact if_congr (by omega) rfl rfl

/-- `track_phys_occ` marks the slots of its range. -/
lemma trackPhys_eq (phys : Bits) (s p : ℕ) :
    ∀ n, trackPhys phys s n p = (decide (s ≤ p ∧ p < s + n) || phys p)
  | 0 => by
    rw [decide_eq_false (by omega)]
    rfl
  | n + 1 => by
    rw [trackPhys, setBit]
    by_cases hp : p = s + n
    · rw [hp, Function.update_self, decide_eq_true (by omega)]
      rfl
    · rw [Function.update_of_ne hp, trackPhys_eq phys s p n]
      congr 1
      exact decide_eq_decide.mpr (by omega)

/-- No slot of a cleared range ends a run. -/
lemma clearRun_eq (run : Bits) (s p : ℕ) :
    ∀ n, clearRun run s n p = (!decide (s ≤ p ∧ p < s + n) && run p)
  | 0 => by
    rw [decide_eq_false (by omega)]
    rfl
  | n + 1 => by
    rw [clearRun, clearBit]
    by_cases hp : p = s + n
    · rw [hp, Function.update_self, decide_eq_true (by omega)]
      rfl
    · rw [Function.update_of_ne hp, clearRun_eq run s p n]
      congr 2
      exact decide_eq_decide.mpr (by omega)

/-! ## Entries of another size -/

/-- In the slots up to `L` the `old` slots at `pos` were replaced by `w`, and the cells behind them
have moved. The last of the new slots ends a run if `last` says so. -/
structure Spliced (cf cf' : CqfFilter) (pos old L : ℕ) (w : List ℕ) (last : Bool) : Prop where
  narrow : cf'.Narrow
  below : ∀ p < pos, cf'.cell p = cf.cell p
  tbl : ∀ i < w.length, w[i]? = some (cf'.tbl (pos + i))
  run : ∀ i < w.length, cf'.run (pos + i) = (last && decide (i + 1 = w.length))
  phys : ∀ i < w.length, cf'.phys (pos + i) = true
  behind : ∀ i, pos + old + i < L → cf'.cell (pos + w.length + i) = cf.cell (pos + old + i)
  rest : ∀ p, L + w.length ≤ p + old → cf'.run p = false
  clean : (∀ p, L ≤ p → cf.phys p = false) → ∀ p, L + w.length ≤ p + old → cf'.phys p = false

/-- An entry of `old` slots at `pos` in a run that ends at `rend`, in slots that are used up to
`L`. -/
structure EntryAt (cf : CqfFilter) (pos old rend L : ℕ) : Prop where
  narrow : cf.Narrow
  size : 0 < old
  le : pos + old ≤ rend + 1
  lt : rend < L
  room : L ≤ cf.numSlots
  phys : ∀ p < L, cf.phys p = true
  rest : ∀ p, L ≤ p → cf.run p = false
  ends : cf.run rend = true

/-- An entry is written into cleared slots, and the run-end bit is set at `newRend`. -/
lemma spliced_write {L newRend : ℕ} {cf₁ cf₂ cf₃ : CqfFilter} {w : (ℕ → ℕ) × ℕ}
    (h : EntryAt cf pos old rend L) (hm : Moved cf cf₁ (pos + old) (pos + new) tail)
    (hnew : (entrySlots cf.remainderBits (rem, C)).length = new) (hpos : 0 < new)
    (htail : pos + old + tail = L)
    (hend : newRend + old = rend + new) (hcf₂ : cf₂ = cf₁.clearSlots pos new)
    (hw : w = cqfWriteEntry cf₂.remainderBits cf₂.tbl pos rem C)
    (hcf₃ : cf₃ = { cf₂ with
      tbl := w.1
      phys := trackPhys cf₂.phys pos w.2
      run := setBit (clearBit cf₂.run newRend) newRend }) :
    Beside cf cf₃ ∧ cf₃.Narrow ∧ (∀ p < pos, cf₃.cell p = cf.cell p) ∧
      (∀ i < new, ((entrySlots cf.remainderBits (rem, C)).map (· % 2 ^ cf.remainderBits))[i]? =
        some (cf₃.tbl (pos + i)) ∧
        cf₃.run (pos + i) = (decide (pos + old = rend + 1) && decide (i + 1 = new)) ∧
        cf₃.phys (pos + i) = true) ∧
      (∀ i < tail, cf₃.cell (pos + new + i) = cf.cell (pos + old + i)) ∧
      ∀ p, pos + new + tail ≤ p → L ≤ p → cf₃.cell p = cf.cell p := by
  have h1 := h.le
  have h2 := h.lt
  have h4 := h.size
  have hb : Beside cf cf₂ := hcf₂ ▸ hm.beside.trans (beside_clearSlots cf₁ pos new)
  have hn₂ : cf₂.Narrow := hcf₂ ▸ narrow_clearSlots hm.narrow pos new
  have hcell : ∀ p, cf₂.cell p = if pos ≤ p ∧ p < pos + new then (0, false, false)
      else cf₁.cell p := fun p =>
    hcf₂ ▸ cell_clearSlots cf₁ pos p new
  have hw : w = (remSetAll cf.remainderBits cf₂.tbl pos (entrySlots cf.remainderBits (rem, C)),
      new) := by
    rw [hw, cqfWriteEntry_eq, hb.remainderBits, hnew]
  have htbl :
      cf₃.tbl = remSetAll cf.remainderBits cf₂.tbl pos (entrySlots cf.remainderBits (rem, C)) := by
    rw [hcf₃, hw]
  have hphys : cf₃.phys = trackPhys cf₂.phys pos new := by
    rw [hcf₃, hw]
  have hrun : cf₃.run = Function.update cf₂.run newRend true := by
    rw [hcf₃]
    exact Function.update_idem ..
  have hb₃ : Beside cf cf₃ := hb.trans (hcf₃ ▸ ⟨⟨rfl, rfl, rfl, rfl⟩, rfl, rfl⟩)
  -- the run-end bit that is set behind the entry was moved there
  have hmoved : pos + old ≠ rend + 1 → cf₂.run newRend = true := by
    intro hne
    have hk := hm.here (rend - (pos + old)) (by omega)
    rw [show pos + new + (rend - (pos + old)) = newRend by omega,
      show pos + old + (rend - (pos + old)) = rend by omega]
      at hk
    have hc := hcell newRend
    rw [if_neg (by omega)] at hc
    rw [run_of_cell (hc.trans hk)]
    exact h.ends
  have hout : ∀ p, p < pos ∨ pos + new ≤ p → cf₃.cell p = cf₁.cell p := by
    intro p hp
    have hc := hcell p
    rw [if_neg (by omega)] at hc
    rw [← hc, cell, cell, htbl, hphys, hrun, trackPhys_eq, decide_eq_false (by omega),
      Bool.false_or]
    have ht : remSetAll cf.remainderBits cf₂.tbl pos (entrySlots cf.remainderBits (rem, C)) p =
        cf₂.tbl p := by
      rcases hp with hp | hp
      · exact remSetAll_of_lt _ _ hp
      · exact remSetAll_of_ge _ (by omega)
    have hr : Function.update cf₂.run newRend true p = cf₂.run p := by
      by_cases hpr : p = newRend
      · rw [hpr, Function.update_self, hmoved (by omega)]
      · exact Function.update_of_ne hpr ..
    rw [ht, hr]
  refine ⟨hb₃, ?_, fun p hp => ?_, fun i hi => ⟨?_, ?_, ?_⟩, fun i hi => ?_, fun p h5 h6 => ?_⟩
  · intro p
    rw [htbl, hb₃.remainderBits]
    refine remSetAll_lt _ _ _ ?_
    rw [← hb.remainderBits]
    exact hn₂
  · rw [hout p (.inl hp)]
    exact hm.below p (by omega) (by omega)
  · rw [htbl]
    exact remSetAll_get _ (by omega)
  · rw [hrun]
    have hz : cf₂.run (pos + i) = false := by
      have hc := hcell (pos + i)
      rw [if_pos (by omega)] at hc
      exact congrArg (fun c => c.2.1) hc
    by_cases hpr : pos + i = newRend
    · rw [hpr, Function.update_self, decide_eq_true (by omega), decide_eq_true (by omega)]
      rfl
    · rw [Function.update_of_ne hpr, hz]
      by_cases hlast : pos + old = rend + 1
      · rw [decide_eq_false (show ¬ i + 1 = new by omega), Bool.and_false]
      · rw [decide_eq_false hlast, Bool.false_and]
  · rw [hphys, trackPhys_eq, decide_eq_true (by omega), Bool.true_or]
  · rw [hout _ (.inr (by omega)), hm.here i hi]
  · rw [hout p (.inr (by omega))]
    exact hm.above p (by omega) h5

/-- `resizeEntry` writes the new encoding and moves what is behind it. -/
lemma spliced_resizeEntry {L : ℕ} (h : EntryAt cf pos old rend L)
    (hnew : (entrySlots cf.remainderBits (rem, C)).length = new) (hne : new ≠ old) (hpos : 0 < new)
    (hroom : L + new ≤ cf.numSlots + old) (hlimit : limit + 1 = L) (htail : pos + old + tail = L) :
    Beside cf (cf.resizeEntry rend pos old new rem C limit tail) ∧
      Spliced cf (cf.resizeEntry rend pos old new rem C limit tail) pos old L
        ((entrySlots cf.remainderBits (rem, C)).map (· % 2 ^ cf.remainderBits))
          (decide (pos + old = rend + 1)) := by
  have h1 := h.le
  have h2 := h.lt
  have h3 := h.room
  have h4 := h.size
  have hlen : ((entrySlots cf.remainderBits (rem, C)).map (· % 2 ^ cf.remainderBits)).length =
      new := by
    rw [List.length_map, hnew]
  -- the move
  have hmoved : Moved cf (if pos + new < pos + old then cf.moveLeft (pos + old) (pos + new) tail
      else cf.moveRight (pos + old) (pos + new) tail) (pos + old) (pos + new) tail := by
    split_ifs with hlt
    · exact moved_moveLeft h.narrow hlt tail (by omega) fun k hk => h.phys _ (by omega)
    · exact moved_moveRight tail h.narrow (by omega) (by omega) fun k hk => h.phys _ (by omega)
  have hrend :
    (if old ≤ rend + new then (rend + new - old) % cf.numSlots
      else (rend + new + cf.numSlots - old) % cf.numSlots) =
      rend + new - old := by
    rw [if_pos (by omega), Nat.mod_eq_of_lt (by omega)]
  unfold resizeEntry
  dsimp only
  rw [hrend]
  generalize (if pos + new < pos + old then cf.moveLeft (pos + old) (pos + new) tail
    else cf.moveRight (pos + old) (pos + new) tail) = cf₁ at hmoved ⊢
  generalize hcf₃ : { cf₁.clearSlots pos new with
    run := setBit (clearBit (cf₁.clearSlots pos new).run (rend + new - old)) (rend + new - old)
    phys := trackPhys (cf₁.clearSlots pos new).phys pos
      (cqfWriteEntry (cf₁.clearSlots pos new).remainderBits
        (cf₁.clearSlots pos new).tbl pos rem C).2
    tbl := (cqfWriteEntry (cf₁.clearSlots pos new).remainderBits
      (cf₁.clearSlots pos new).tbl pos rem C).1 } = cf₃
  obtain ⟨hb, hn, hbelow, hentry, hbehind, hout⟩ :=
    spliced_write h hmoved hnew hpos htail (by omega) rfl rfl hcf₃.symm
  by_cases hlt : new < old
  · have hlast :
      (if 0 < tail then (pos + new + tail - 1) % cf.numSlots else (pos + new - 1) % cf.numSlots) =
        pos + new + tail - 1 := by
      split_ifs with ht
      · exact Nat.mod_eq_of_lt (by omega)
      · rw [Nat.mod_eq_of_lt (by omega)]
        omega
    rw [if_pos hlt, hlast, if_pos (by omega)]
    have hcell :
      ∀ p, (cf₃.clearSlots (pos + new + tail - 1 + 1) (limit - (pos + new + tail - 1))).cell p =
        if pos + new + tail ≤ p ∧ p < L then (0, false, false) else cf₃.cell p := by
      intro p
      rw [cell_clearSlots]
      exact if_congr (by omega) rfl rfl
    have hkeep : ∀ p, p < pos + new + tail →
        (cf₃.clearSlots (pos + new + tail - 1 + 1) (limit - (pos + new + tail - 1))).cell p =
        cf₃.cell p := by
      intro p hp
      rw [hcell, if_neg (by omega)]
    refine ⟨hb.trans (beside_clearSlots ..), narrow_clearSlots hn _ _, fun p hp => ?_,
      fun i hi => ?_, fun i hi => ?_,
      fun i hi => ?_, fun i hi => ?_, fun p hp => ?_, fun hclean p hp => ?_⟩
    · rw [hkeep p (by omega), hbelow p hp]
    · rw [hlen] at hi
      rw [tbl_of_cell (hkeep (pos + i) (by omega))]
      exact (hentry i hi).1
    · rw [hlen] at hi ⊢
      rw [run_of_cell (hkeep (pos + i) (by omega))]
      exact (hentry i hi).2.1
    · rw [hlen] at hi
      rw [phys_of_cell (hkeep (pos + i) (by omega))]
      exact (hentry i hi).2.2
    · rw [hlen, hkeep _ (by omega)]
      exact hbehind i (by omega)
    · rw [hlen] at hp
      have hc := hcell p
      by_cases hin : p < L
      · rw [if_pos (by omega)] at hc
        exact congrArg (fun c => c.2.1) hc
      · rw [if_neg (by omega), hout p (by omega) (by omega)] at hc
        rw [run_of_cell hc]
        exact h.rest p (by omega)
    · rw [hlen] at hp
      have hc := hcell p
      by_cases hin : p < L
      · rw [if_pos (by omega)] at hc
        exact congrArg (fun c => c.2.2) hc
      · rw [if_neg (by omega), hout p (by omega) (by omega)] at hc
        rw [phys_of_cell hc]
        exact hclean p (by omega)
  · rw [if_neg hlt]
    refine ⟨hb, hn, hbelow, fun i hi => ?_, fun i hi => ?_, fun i hi => ?_, fun i hi => ?_,
      fun p hp => ?_, fun hclean p hp => ?_⟩
    · rw [hlen] at hi
      exact (hentry i hi).1
    · rw [hlen] at hi ⊢
      exact (hentry i hi).2.1
    · rw [hlen] at hi
      exact (hentry i hi).2.2
    · rw [hlen]
      exact hbehind i (by omega)
    · rw [hlen] at hp
      rw [run_of_cell (hout p (by omega) (by omega))]
      exact h.rest p (by omega)
    · rw [hlen] at hp
      rw [phys_of_cell (hout p (by omega) (by omega))]
      exact hclean p (by omega)

/-- The elements of a list with a part replaced. -/
lemma getElem?_splice {α : Type*} {l w : List α} {a o : ℕ} (ha : a ≤ l.length) (i : ℕ) :
    (l.take a ++ (w ++ l.drop (a + o)))[i]? =
      if i < a then l[i]? else if i < a + w.length then w[i - a]? else l[i - w.length + o]? := by
  have hlen : (l.take a).length = a := List.length_take_of_le ha
  split_ifs with h1 h2
  · rw [List.getElem?_append_left (by omega), List.getElem?_take_of_lt h1]
  · rw [List.getElem?_append_right (by omega), hlen, List.getElem?_append_left (by omega)]
  · rw [List.getElem?_append_right (by omega), hlen, List.getElem?_append_right (by omega),
      List.getElem?_drop]
    congr 1
    omega

/-- A packed filter stays packed when a part of a run is replaced. -/
lemma Packed.spliced {q a o : ℕ} {w : List ℕ} (h : Packed cf m) (hq : q < cf.numSlots)
    (hl : Alike cf cf')
    (hocc : ∀ i, cf'.occ i = true ↔ i = q ∨ cf.occ i = true) (hao : a + o ≤ (m q).length)
    (ha : a < (m q).length ∨ m q = []) (hw : 0 < w.length)
    (hs : Spliced cf cf' (start m q + a) o (start m cf.numSlots) w (decide (a + o = (m q).length)))
    (hroom : start m cf.numSlots + w.length ≤ cf.numSlots + o) :
    Packed cf' (Function.update m q ((m q).take a ++ (w ++ (m q).drop (a + o)))) ∧
      (Clean cf m →
        Clean cf' (Function.update m q ((m q).take a ++ (w ++ (m q).drop (a + o))))) := by
  have hlen : ((m q).take a ++ (w ++ (m q).drop (a + o))).length + o = (m q).length + w.length := by
    simp only [List.length_append, List.length_take, List.length_drop]
    omega
  have hget := getElem?_splice (l := m q) (w := w) (o := o) (show a ≤ (m q).length by omega)
  have hne : (m q).take a ++ (w ++ (m q).drop (a + o)) ≠ [] := List.ne_nil_of_length_pos (by omega)
  generalize (m q).take a ++ (w ++ (m q).drop (a + o)) = l at hlen hget hne ⊢
  have hend := start_add_le (m := m) hq
  have hend' := start_update_of_lt (m := m) (l := l) hq
  have hsucc := start_succ (m := m) q
  have ha : a < (m q).length ∨ (m q).length = 0 := ha.imp_right List.length_eq_zero_iff.mpr
  -- the cells of the run, and those behind it
  have hkeep : ∀ i, i < a → cf'.cell (start m q + i) = cf.cell (start m q + i) := fun i hi =>
    hs.below _ (by omega)
  have hshift : ∀ k, start m q + a + o + k < start m cf.numSlots →
      cf'.cell (start m q + a + w.length + k) = cf.cell (start m q + a + o + k) := hs.behind
  refine ⟨h.replace hq ⟨hl.numSlots, hl.numBlocks, hl.remainderBits, hs.narrow, fun i => ?_,
    fun p hp => tbl_of_cell (hs.below p (by omega)),
    fun p hp => run_of_cell (hs.below p (by omega)), fun i hi => ?_,
    fun i hi => ?_, fun i hi => ?_, fun i hi => ?_, fun p hp => ?_,
    fun p hp => hs.rest p (by omega), by omega⟩, fun hclean p hp => ?_⟩
  · rw [hocc]
    by_cases hiq : i = q
    · rw [hiq, Function.update_self]
      exact iff_of_true (.inl rfl) hne
    · rw [Function.update_of_ne hiq, or_iff_right hiq]
      exact h.occ i
  · rw [hget]
    split_ifs with h1 h2
    · rw [tbl_of_cell (hkeep i h1)]
      exact h.tbl q i (by omega)
    · rw [hs.tbl (i - a) (by omega), show start m q + a + (i - a) = start m q + i by omega]
    · have hc := hshift (i - a - w.length) (by omega)
      rw [show start m q + a + w.length + (i - a - w.length) = start m q + i by omega,
        show start m q + a + o + (i - a - w.length) = start m q + (i - w.length + o) by omega] at hc
      rw [tbl_of_cell hc]
      exact h.tbl q _ (by omega)
  · by_cases h1 : i < a
    · rw [run_of_cell (hkeep i h1), h.run q i (by omega)]
      exact decide_eq_decide.mpr (by omega)
    by_cases h2 : i < a + w.length
    · have hr := hs.run (i - a) (by omega)
      rw [show start m q + a + (i - a) = start m q + i by omega] at hr
      rw [hr, ← Bool.decide_and]
      exact decide_eq_decide.mpr (by omega)
    · have hc := hshift (i - a - w.length) (by omega)
      rw [show start m q + a + w.length + (i - a - w.length) = start m q + i by omega,
        show start m q + a + o + (i - a - w.length) = start m q + (i - w.length + o) by omega] at hc
      rw [run_of_cell hc, h.run q _ (by omega)]
      exact decide_eq_decide.mpr (by omega)
  · have hc := hshift ((m q).length - a - o + i) (by omega)
    rw [show start m q + a + w.length + ((m q).length - a - o + i) = start m q + l.length +
      i by omega,
      show start m q + a + o + ((m q).length - a - o + i) = start m (q + 1) + i by omega] at hc
    exact tbl_of_cell hc
  · have hc := hshift ((m q).length - a - o + i) (by omega)
    rw [show start m q + a + w.length + ((m q).length - a - o + i) = start m q + l.length +
      i by omega,
      show start m q + a + o + ((m q).length - a - o + i) = start m (q + 1) + i by omega] at hc
    exact run_of_cell hc
  · by_cases h1 : p < start m q + a
    · rw [phys_of_cell (hs.below p h1)]
      exact h.phys p (by omega)
    by_cases h2 : p < start m q + a + w.length
    · have hr := hs.phys (p - (start m q + a)) (by omega)
      rwa [show start m q + a + (p - (start m q + a)) = p by omega] at hr
    · have hc := hshift (p - (start m q + a + w.length)) (by omega)
      rw [show start m q + a + w.length + (p - (start m q + a + w.length)) = p by omega] at hc
      rw [phys_of_cell hc]
      exact h.phys _ (by omega)
  · rw [hl.numSlots] at hp
    exact hs.clean hclean p (by omega)

end CqfFilter

end Draugr.Cqf
