import Draugr.Bare.Formed

/-!
# The books of every reachable table

`Books t` adds to `Formed t` that `size` and `tombstone_cnt` count what they are meant to count.
Like `Formed`, it holds after any sequence of calls: the stored distances play no part in it. What
an insertion does to the main array is in `Grew`: it adds at most one live slot, to an array of the
same capacity unless the table is rebuilt on the way.
-/

namespace Draugr
open Lib

/-- The counters of a formed table are right. -/
structure Books (t : HtBare) : Prop extends Formed t where
  size : t.size = liveCount t + t.spill.length + t.overflow.length
  tombs : t.tombstoneCnt = tombCount t

/-- The loop invariant of an insertion. -/
structure Carry (b : Bool) (t : HtBare) (c : Carrier) : Prop where
  books : Books t
  idx : c.idx < t.capacity
  entry : EntryFormed c.hash c.val
  dist16 : c.dist < 2 ^ 16
  look : overLimit b t c →
    (t.slot c.idx).Live ∨ ((t.slot c.idx).Tomb ∧ blocked t c.idx c.dist = true)

/-- The configuration of a table and its flag `resizing` stay. -/
structure SameConfig (t t' : HtBare) : Prop where
  maxLoadFactor : t'.maxLoadFactor = t.maxLoadFactor
  maxProbeDist : t'.maxProbeDist = t.maxProbeDist
  resizing : t'.resizing = t.resizing

/-- At most `k` more live slots in an array of the same capacity. -/
structure Grew (k : ℕ) (t t' : HtBare) : Prop where
  frame : Frame t t'
  cap : t'.capacity = t.capacity
  live : liveCount t' ≤ liveCount t + k

/-- `rz` keeps the books. -/
def KeepsBooks (rz : HtBare → Option (Bool × HtBare)) : Prop :=
  ∀ {t ok t'}, Books t → rz t = some (ok, t') → Books t' ∧ SameConfig t t'

variable {i k n : ℕ} {b ok : Bool} {t t' t'' : HtBare} {c : Carrier} {s : Slot}
  {rz : HtBare → Option (Bool × HtBare)}

/-- A table has its own configuration. -/
lemma SameConfig.refl (t : HtBare) : SameConfig t t := ⟨rfl, rfl, rfl⟩

/-- Two steps that keep the configuration keep it. -/
lemma SameConfig.trans (h : SameConfig t t') (h' : SameConfig t' t'') : SameConfig t t'' :=
  ⟨h'.maxLoadFactor.trans h.maxLoadFactor, h'.maxProbeDist.trans h.maxProbeDist,
    h'.resizing.trans h.resizing⟩

/-- A frame keeps the configuration. -/
lemma Frame.sameConfig (h : Frame t t') : SameConfig t t' :=
  ⟨h.maxLoadFactor, h.maxProbeDist, h.resizing⟩

/-- Doing nothing adds no live slot. -/
lemma Grew.refl (t : HtBare) : Grew 0 t t := ⟨Frame.refl t, rfl, le_rfl⟩

/-- The new live slots of two steps add up. -/
lemma Grew.trans {m : ℕ} (h : Grew k t t') (h' : Grew m t' t'') : Grew (k + m) t t'' :=
  ⟨h.frame.trans h'.frame, h'.cap.trans h.cap, by have := h.live; have := h'.live; omega⟩

/-- A bound on the new live slots may be raised. -/
lemma Grew.mono {m : ℕ} (h : Grew k t t') (hkm : k ≤ m) : Grew m t t' :=
  ⟨h.frame, h.cap, h.live.trans (Nat.add_le_add_left hkm _)⟩

/-- A table with an all-empty main array and empty lanes. -/
lemma Books.of_fresh (hn : ∃ k, n = 2 ^ k) (hm : t.main = List.replicate n Slot.emptySlot)
    (hs : t.spill = []) (ho : t.overflow = []) (hz : t.size = 0) (ht : t.tombstoneCnt = 0) :
    Books t := by
  have hcount : ∀ p : Slot → Bool, p Slot.emptySlot = false → t.main.countP p = 0 := fun p hp => by
    rw [hm, List.countP_replicate, if_neg (by rw [hp]; exact Bool.false_ne_true)]
  refine ⟨.of_fresh hn hm hs ho, ?_, ?_⟩
  · rw [hz, hs, ho, liveCount, hcount _ (by decide)]
    rfl
  · rw [ht, tombCount, hcount _ (by decide)]

/-- The books only read the main array, the lanes and the counters. -/
lemma Books.congr (hB : Books t) (hm : t'.main = t.main) (hs : t'.spill = t.spill)
    (ho : t'.overflow = t.overflow) (hz : t'.size = t.size)
    (ht : t'.tombstoneCnt = t.tombstoneCnt) : Books t' := by
  refine ⟨hB.toFormed.congr hm hs ho, ?_, ?_⟩
  · rw [hz, hs, ho, liveCount, hm]
    exact hB.size
  · rw [ht, tombCount, hm]
    exact hB.tombs

/-- Writing a slot, with the counters adjusted. -/
lemma Books.write {z m : ℕ} (hB : Books t) (hi : i < t.capacity) (hs : s.Live → SlotFormed s)
    (hz : z + (if (t.slot i).Live then 1 else 0) = t.size + if s.Live then 1 else 0)
    (hm : m + (if (t.slot i).Tomb then 1 else 0) = t.tombstoneCnt + if s.Tomb then 1 else 0) :
    Books { t.setSlot i s with size := z, tombstoneCnt := m } := by
  have hF : Formed (t.setSlot i s) := hB.toFormed.write hs
  have h1 := liveCount_setSlot (t := t) s hi
  have h2 := tombCount_setSlot (t := t) s hi
  have hsize := hB.size
  have htombs := hB.tombs
  refine ⟨hF.congr rfl rfl rfl, ?_, ?_⟩
  · show z = liveCount (t.setSlot i s) + t.spill.length + t.overflow.length
    omega
  · show m = tombCount (t.setSlot i s)
    omega

/-- An entry is written over an entry. -/
lemma Books.overwrite (hB : Books t) (hi : i < t.capacity) (hl : (t.slot i).Live) (hs : s.Live)
    (hf : SlotFormed s) : Books (t.setSlot i s) ∧ Grew 0 t (t.setSlot i s) := by
  constructor
  · refine hB.write (z := t.size) (m := t.tombstoneCnt) hi (fun _ => hf) ?_ ?_
    · rw [if_pos hl, if_pos hs]
    · rw [if_neg hl.not_tomb, if_neg hs.not_tomb]
  · have h1 := liveCount_setSlot (t := t) s hi
    rw [if_pos hl, if_pos hs] at h1
    exact ⟨Frame.setSlot t i s, HtBare.capacity_setSlot t i s, by omega⟩

/-- A counted tombstone can be taken off the count. -/
lemma Books.tombs_pos (hB : Books t) (hi : i < t.capacity) (ht : (t.slot i).Tomb) :
    sizeDec t.tombstoneCnt + 1 = t.tombstoneCnt := by
  have hpos := tombCount_pos hi ht
  rw [hB.tombs, sizeDec_pos hpos]
  omega

/-- An entry is written over an empty slot or a tombstone. -/
lemma Books.fill (hB : Books t) (hi : i < t.capacity) (hl : ¬ (t.slot i).Live) (hs : s.Live)
    (hf : SlotFormed s)
    (hk : k = if (t.slot i).Tomb then sizeDec t.tombstoneCnt else t.tombstoneCnt) :
    Books { t.setSlot i s with size := t.size + 1, tombstoneCnt := k } ∧
      Grew 1 t { t.setSlot i s with size := t.size + 1, tombstoneCnt := k } := by
  constructor
  · refine hB.write hi (fun _ => hf) ?_ ?_
    · rw [if_neg hl, if_pos hs]
    · rw [if_neg hs.not_tomb, hk]
      by_cases ht : (t.slot i).Tomb
      · rw [if_pos ht, if_pos ht]
        exact hB.tombs_pos hi ht
      · rw [if_neg ht, if_neg ht]
  · have h1 := liveCount_setSlot (t := t) s hi
    rw [if_neg hl, if_pos hs] at h1
    exact ⟨⟨rfl, rfl, rfl, rfl, rfl, rfl, rfl⟩, HtBare.capacity_setSlot t i s, h1.le⟩

/-! ## Insertion -/

/-- What one iteration leaves behind. -/
def StepBooks (b : Bool) (t : HtBare) : RhStep → Prop
  | .ret _ t' => Books t' ∧ Grew 1 t t'
  | .go t' c' => Carry b t' c' ∧ Grew 0 t t'
  | .unbounded t' c' => Books t' ∧ EntryFormed c'.hash c'.val ∧ Grew 0 t t'
  | .resize t' c' => Books t' ∧ EntryFormed c'.hash c'.val ∧ Grew 0 t t'

/-- A carrier that goes to the stash keeps the books. -/
lemma stashCarrier_books (hB : Books t) (hc : EntryFormed c.hash c.val) {t₀ : HtBare}
    (hg : Grew 0 t₀ t) : StepBooks b t₀ (stashCarrier t c) := by
  have hF := stashCarrier_formed hB.toFormed hc
  unfold stashCarrier overflowStashInsert at hF ⊢
  split
  · rename_i t' h
    rw [h] at hF
    split at h
    · cases h
    · cases h
      refine ⟨⟨hF, ?_, hB.tombs⟩, hg.mono (Nat.zero_le 1) |>.frame.trans
        ⟨rfl, rfl, rfl, rfl, rfl, rfl, rfl⟩, hg.cap, (hg.mono (Nat.zero_le 1)).live⟩
      show t.size + 1 = liveCount t + t.spill.length + (t.overflow ++ [_]).length
      rw [hB.size, List.length_append, List.length_singleton]
      omega
  · exact ⟨hB.congr rfl rfl rfl rfl rfl, hc, hg.frame.trans ⟨rfl, rfl, rfl, rfl, rfl, rfl, rfl⟩,
      hg.cap, hg.live⟩

/-- The carrier goes one slot further. -/
lemma Carry.advance (hC : Carry b t c)
    (hlook : overLimit b t (c.advance t) → (t.slot ((c.idx + 1) % t.capacity)).Live ∨
      ((t.slot ((c.idx + 1) % t.capacity)).Tomb ∧
        blocked t ((c.idx + 1) % t.capacity) (c.advance t).dist = true)) :
    Carry b t (c.advance t) :=
  ⟨hC.books, Nat.mod_lt _ hC.books.capacity_pos, hC.entry, Nat.mod_lt _ (Nat.two_pow_pos 16), hlook⟩

/-- One iteration. -/
lemma rhStep_books (hC : Carry b t c) : StepBooks b t (rhStep b t c) := by
  have hnew : (hpdPack c.hash c.dist c.val).Live := hpdPack_live hC.entry.hash2 hC.entry.hash48
  have hform : SlotFormed (hpdPack c.hash c.dist c.val) := .pack hC.entry.val
  unfold rhStep
  simp only
  split
  · rename_i hlive
    have hslot := hC.books.slots _ hlive
    have hold : EntryFormed (t.slot c.idx).hash (t.slot c.idx).val :=
      ⟨hlive, hslot.hash48, hslot.val⟩
    split
    · -- the displaced entry is carried on
      obtain ⟨hB, hg⟩ := hC.books.overwrite hC.idx hlive hnew hform
      split
      · exact stashCarrier_books hB hold hg
      · rename_i hover
        refine ⟨⟨hB, ?_, hold, Nat.mod_lt _ (Nat.two_pow_pos 16), fun h => absurd h hover⟩, hg⟩
        exact Nat.mod_lt _ hB.capacity_pos
    · split
      · exact stashCarrier_books (c := c.advance t) hC.books hC.entry (Grew.refl t)
      · rename_i hover
        split
        · exact ⟨hC.books, hC.entry, Grew.refl t⟩
        · exact ⟨hC.advance fun h => absurd h hover, Grew.refl t⟩
  · rename_i hdead
    split
    · -- a blocked tombstone
      rename_i hblk
      refine ⟨hC.advance fun _ => ?_, Grew.refl t⟩
      have hnext := blocked_succ hblk.2
      obtain ⟨j, h1, _, hl, hpd, _⟩ := blockedFrom_true hblk.2
      have h16 : c.dist + 1 < 2 ^ 16 := by
        have := (hC.books.slots _ hl).pd16
        omega
      rw [show (c.advance t).dist = c.dist + 1 from Nat.mod_eq_of_lt h16]
      exact hnext
    · rename_i hblk
      have hno : ¬ overLimit b t c := by
        intro h
        rcases hC.look h with hl | hb
        · exact hdead hl
        · exact hblk hb
      have hfill := hC.books.fill hC.idx hdead hnew hform rfl
      by_cases ht : (t.slot c.idx).Tomb
      · have hno' : ¬ overLimit b { t with tombstoneCnt := sizeDec t.tombstoneCnt } c := hno
        rw [if_pos ht, if_neg hno']
        rw [if_pos ht] at hfill
        exact hfill
      · rw [if_neg ht, if_neg hno]
        rw [if_neg ht] at hfill
        exact hfill

/-- A fresh carrier. -/
lemma Carry.start {h v : ℕ} (hB : Books t) (he : EntryFormed h v) : Carry b t (.start t h v) := by
  refine ⟨hB, Nat.mod_lt _ hB.capacity_pos, he, Nat.two_pow_pos 16, ?_⟩
  rintro ⟨-, -, h⟩
  exact absurd h (Nat.not_lt_zero _)

/-- The insertion loop. -/
lemma rhLoop_books (hrz : KeepsBooks rz) {fuel : ℕ} (hC : Carry b t c)
    (hr : rhLoop rz fuel b t c = some (ok, t')) : Books t' ∧ SameConfig t t' := by
  induction fuel generalizing b t c with
  | zero => cases hr
  | succ fuel ih =>
    have hstep := rhStep_books hC
    rw [rhLoop] at hr
    cases hs : rhStep b t c with
    | ret ok' t₁ =>
      rw [hs] at hstep hr
      cases hr
      exact ⟨hstep.1, hstep.2.frame.sameConfig⟩
    | go t₁ c₁ =>
      rw [hs] at hstep hr
      obtain ⟨hB, hsame⟩ := ih hstep.1 hr
      exact ⟨hB, hstep.2.frame.sameConfig.trans hsame⟩
    | unbounded t₁ c₁ =>
      rw [hs] at hstep hr
      obtain ⟨hB₁, hentry, hg⟩ := hstep
      obtain ⟨hB, hsame⟩ := ih (Carry.start hB₁ hentry) hr
      exact ⟨hB, hg.frame.sameConfig.trans hsame⟩
    | resize t₁ c₁ =>
      rw [hs] at hstep hr
      obtain ⟨hB₁, hentry, hg⟩ := hstep
      simp only at hr
      cases hz : rz t₁ with
      | none =>
        rw [hz] at hr
        cases hr
      | some r =>
        obtain ⟨ok₁, t₂⟩ := r
        obtain ⟨hB₂, hsame₂⟩ := hrz hB₁ hz
        rw [hz] at hr
        cases ok₁ with
        | false =>
          cases hr
          exact ⟨hB₂, hg.frame.sameConfig.trans hsame₂⟩
        | true =>
          obtain ⟨hB, hsame⟩ := ih (Carry.start hB₂ hentry) hr
          exact ⟨hB, (hg.frame.sameConfig.trans hsame₂).trans hsame⟩

/-- `bare_rh_insert_bounded`. -/
lemma bareRhInsertBounded_books (hrz : KeepsBooks rz) {h v : ℕ} (hB : Books t)
    (he : EntryFormed h v) (hr : bareRhInsertBounded rz t h v = some (ok, t')) :
    Books t' ∧ SameConfig t t' := by
  unfold bareRhInsertBounded at hr
  rw [if_neg hB.capacity_pos.ne'] at hr
  exact rhLoop_books hrz (Carry.start hB he) hr

/-- A list of insertions. -/
lemma reinsert_books (hrz : KeepsBooks rz) {es : List (ℕ × ℕ)} (hB : Books t)
    (hes : ∀ e ∈ es, EntryFormed e.1 e.2) (hr : reinsert rz t es = some t') :
    Books t' ∧ SameConfig t t' := by
  induction es generalizing t with
  | nil =>
    cases hr
    exact ⟨hB, SameConfig.refl _⟩
  | cons e es ih =>
    rw [reinsert] at hr
    cases hi : bareRhInsertBounded rz t e.1 e.2 with
    | none =>
      rw [hi] at hr
      cases hr
    | some r =>
      rw [hi] at hr
      obtain ⟨hB₁, hsame₁⟩ := bareRhInsertBounded_books hrz hB (hes e List.mem_cons_self) hi
      obtain ⟨hB', hsame⟩ := ih hB₁ (fun e he => hes e (List.mem_cons_of_mem _ he)) hr
      exact ⟨hB', hsame₁.trans hsame⟩

/-! ## The spill lane -/

/-- `bare_spill_grow` keeps the counters and the configuration. -/
lemma bareSpillGrow_counters (t : HtBare) : (bareSpillGrow t).2.size = t.size ∧
    (bareSpillGrow t).2.tombstoneCnt = t.tombstoneCnt ∧ SameConfig t (bareSpillGrow t).2 := by
  unfold bareSpillGrow malloc
  generalize (if t.spillCap = 0 then spillInitial else t.spillCap * 2) = newCap
  simp only
  split
  · exact ⟨rfl, rfl, SameConfig.refl t⟩
  · cases t.mem with
    | nil => exact ⟨rfl, rfl, rfl, rfl, rfl⟩
    | cons ok rest => cases ok <;> exact ⟨rfl, rfl, rfl, rfl, rfl⟩

/-- `bare_spill_insert` does not touch the main array. -/
lemma bareSpillInsert_main (t : HtBare) (h v : ℕ) : (bareSpillInsert t h v).2.main = t.main ∧
    (bareSpillInsert t h v).2.overflow = t.overflow ∧
    SameConfig t (bareSpillInsert t h v).2 := by
  obtain ⟨hm, -, ho⟩ := bareSpillGrow_fields t
  obtain ⟨-, -, hsame⟩ := bareSpillGrow_counters t
  unfold bareSpillInsert
  dsimp only
  split
  · rcases hg : bareSpillGrow t with ⟨ok, t₁⟩
    rw [hg] at hm ho hsame
    cases ok with
    | false => exact ⟨hm, ho, hsame⟩
    | true => exact ⟨hm, ho, hsame.1, hsame.2, hsame.3⟩
  · exact ⟨rfl, rfl, rfl, rfl, rfl⟩

/-- `bare_spill_insert`. -/
lemma bareSpillInsert_books {h v : ℕ} (hB : Books t) (hh : h < 2) (hv : v ≠ valNone) :
    Books (bareSpillInsert t h v).2 := by
  have hF := bareSpillInsert_formed hB.toFormed hh hv
  have hpush : ∀ {t : HtBare} (e : ℕ × ℕ), Books t →
      t.size + 1 = liveCount t + (t.spill ++ [e]).length + t.overflow.length := by
    intro t e hB
    rw [hB.size, List.length_append, List.length_singleton]
    omega
  have hgrow : Books (bareSpillGrow t).2 := by
    obtain ⟨hm, hs, ho⟩ := bareSpillGrow_fields t
    obtain ⟨hz, ht, -⟩ := bareSpillGrow_counters t
    exact hB.congr hm hs ho hz ht
  unfold bareSpillInsert at hF ⊢
  dsimp only at hF ⊢
  split
  · rename_i hfull
    rw [if_pos hfull] at hF
    rcases hg : bareSpillGrow t with ⟨ok, t₁⟩
    rw [hg] at hgrow hF
    cases ok with
    | false => exact hgrow
    | true => exact ⟨hF, hpush _ hgrow, hgrow.tombs⟩
  · rename_i hroom
    rw [if_neg hroom] at hF
    exact ⟨hF, hpush _ hB, hB.tombs⟩

/-- `bare_reinsert_spill`. -/
lemma bareReinsertSpill_books {es : List (ℕ × ℕ)} (hB : Books t) (hes : ∀ e ∈ es, e.1 < 2) :
    Books (bareReinsertSpill t es) ∧ SameConfig t (bareReinsertSpill t es) ∧
      (bareReinsertSpill t es).main = t.main := by
  unfold bareReinsertSpill
  induction es generalizing t with
  | nil => exact ⟨hB, SameConfig.refl t, rfl⟩
  | cons e es ih =>
    rw [List.foldl_cons]
    have hrest : ∀ e ∈ es, e.1 < 2 := fun e he => hes e (List.mem_cons_of_mem _ he)
    split
    · exact ih hB hrest
    · rename_i hv
      obtain ⟨hm, -, hsame⟩ := bareSpillInsert_main t e.1 e.2
      obtain ⟨h1, h2, h3⟩ := ih (bareSpillInsert_books hB (hes e List.mem_cons_self) hv) hrest
      exact ⟨h1, hsame.trans h2, h3.trans hm⟩

/-! ## Rebuilding -/

/-- A prophylactic tombstone. -/
lemma plantTomb_books (hB : Books t) (hi : i < t.capacity) :
    Books (plantTomb t i) ∧ Grew 0 t (plantTomb t i) := by
  unfold plantTomb
  split
  · rename_i he
    constructor
    · refine hB.write hi (fun h => absurd h Slot.tombSlot_tomb.not_live) ?_ ?_
      · rw [if_neg he.not_live, if_neg Slot.tombSlot_tomb.not_live]
        rfl
      · rw [if_neg fun h => Slot.Tomb.not_empty h he, if_pos Slot.tombSlot_tomb]
    · have h1 := liveCount_setSlot (t := t) Slot.tombSlot hi
      rw [if_neg he.not_live, if_neg Slot.tombSlot_tomb.not_live] at h1
      exact ⟨⟨rfl, rfl, rfl, rfl, rfl, rfl, rfl⟩, HtBare.capacity_setSlot t i _, h1.le⟩
  · exact ⟨hB, Grew.refl t⟩

/-- `bare_place_prophylactic_tombstones`. -/
lemma barePlaceProphylacticTombstones_books (hB : Books t) :
    Books (barePlaceProphylacticTombstones t) ∧ Grew 0 t (barePlaceProphylacticTombstones t) := by
  have hlt := prophylactic_lt t
  unfold barePlaceProphylacticTombstones
  simp only at hlt ⊢
  generalize ((List.range _).map _) = ps at hlt ⊢
  induction ps generalizing t with
  | nil => exact ⟨hB, Grew.refl t⟩
  | cons p ps ih =>
    obtain ⟨hB₁, hg₁⟩ := plantTomb_books hB (hlt p List.mem_cons_self)
    obtain ⟨hB', hg⟩ := ih hB₁ fun q hq => by
      rw [hg₁.cap]
      exact hlt q (List.mem_cons_of_mem _ hq)
    exact ⟨hB', hg₁.trans hg⟩

/-- The common part of a resize and a compaction. -/
lemma rebuild_books (hrz : KeepsBooks rz) {m : ℕ} (hF : Formed t) (hm : ∃ k, m = 2 ^ k)
    (hr : rebuild rz t m = some t') : Books t' ∧ SameConfig t t' := by
  unfold rebuild at hr
  obtain ⟨t₁, h₁, hr⟩ := Option.bind_eq_some_iff.mp hr
  obtain ⟨t₃, h₃, hr⟩ := Option.bind_eq_some_iff.mp hr
  cases hr
  have hB₀ : Books (freshBlocks t m) := .of_fresh hm rfl rfl rfl rfl rfl
  have hC₀ : SameConfig t (freshBlocks t m) := ⟨rfl, rfl, rfl⟩
  obtain ⟨hB₁, hC₁⟩ := reinsert_books hrz hB₀ (fun _ he => hF.live he) h₁
  obtain ⟨hB₂, hC₂, -⟩ := bareReinsertSpill_books hB₁ fun e he => (hF.spill e he).1
  obtain ⟨hB₃, hC₃⟩ := reinsert_books hrz hB₂ hF.overflow h₃
  obtain ⟨hB₄, hg⟩ := barePlaceProphylacticTombstones_books hB₃
  exact ⟨hB₄, (((hC₀.trans hC₁).trans hC₂).trans hC₃).trans hg.frame.sameConfig⟩

/-- Drawing an allocation keeps the books. -/
lemma malloc_books (hB : Books t) : Books (malloc t).2 ∧ SameConfig t (malloc t).2 := by
  unfold malloc
  split
  · exact ⟨hB, SameConfig.refl t⟩
  · exact ⟨hB.congr rfl rfl rfl rfl rfl, rfl, rfl, rfl⟩

/-- The allocation of a main block keeps the books. -/
lemma bareAllocMainBlock_books (hB : Books t) (n : ℕ) :
    Books (bareAllocMainBlock t n).2 ∧ SameConfig t (bareAllocMainBlock t n).2 := by
  unfold bareAllocMainBlock
  split
  · exact ⟨hB, SameConfig.refl t⟩
  · exact malloc_books hB

/-- `bare_resize_table` in an insertion that is part of a resize. -/
lemma nestedResize_books : KeepsBooks nestedResize := by
  intro t ok t' hB hr
  unfold nestedResize at hr
  split at hr
  · cases hr
    exact ⟨hB, SameConfig.refl _⟩
  · cases hr

/-- What a `bare_resize_table` that is not refused does: the table is rebuilt, with blocks drawn
before. -/
lemma bareResizeTable_cases (hr : bareResizeTable t = some (ok, t')) :
    (ok = false ∧ (t' = t ∨ t' = (bareAllocMainBlock t (resizeCapacity t)).2 ∨
      t' = (malloc (bareAllocMainBlock t (resizeCapacity t)).2).2)) ∨
    (ok = true ∧ t.resizing = false ∧ (∃ k, resizeCapacity t = 2 ^ k) ∧
      ∃ t₁, rebuild nestedResize
        { (malloc (bareAllocMainBlock t (resizeCapacity t)).2).2 with resizing := true }
          (resizeCapacity t) = some t₁ ∧ t' = { t₁ with resizing := false }) := by
  by_cases hno : t.resizing = true ∨ t.size > sizeMax / 2
  · rw [bareResizeTable_refused hno] at hr
    cases hr
    exact .inl ⟨rfl, .inl rfl⟩
  have hrz : ¬ t.resizing = true := fun h => hno (.inl h)
  rw [bareResizeTable_eq hrz (fun h => hno (.inr h))] at hr
  rcases ha : bareAllocMainBlock t (resizeCapacity t) with ⟨ok₁, t₁⟩
  rw [ha] at hr
  cases ok₁ with
  | false =>
    cases hr
    exact .inl ⟨rfl, .inr (.inl rfl)⟩
  | true =>
    have hpow := resizeCapacity_pow2 (bareAllocMainBlock_fits ha)
    rcases hm : malloc t₁ with ⟨ok₂, t₂⟩
    simp only at hr
    rw [hm] at hr
    cases ok₂ with
    | false =>
      cases hr
      exact .inl ⟨rfl, .inr (.inr rfl)⟩
    | true =>
      simp only at hr
      cases hb : rebuild nestedResize { t₂ with resizing := true } (resizeCapacity t) with
      | none =>
        rw [hb] at hr
        cases hr
      | some t₃ =>
        rw [hb] at hr
        cases hr
        exact .inr ⟨rfl, Bool.eq_false_of_not_eq_true hrz, hpow, t₃, rfl, rfl⟩

/-- `bare_resize_table`. -/
lemma bareResizeTable_books : KeepsBooks bareResizeTable := by
  intro t ok t' hB hr
  obtain ⟨hB₁, hC₁⟩ := bareAllocMainBlock_books hB (resizeCapacity t)
  obtain ⟨hB₂, hC₂⟩ := malloc_books hB₁
  rcases bareResizeTable_cases hr with ⟨-, rfl | rfl | rfl⟩ | ⟨-, hrz, hpow, t₁, hb, rfl⟩
  · exact ⟨hB, SameConfig.refl _⟩
  · exact ⟨hB₁, hC₁⟩
  · exact ⟨hB₂, hC₁.trans hC₂⟩
  · have hF : Formed ({ (malloc (bareAllocMainBlock t (resizeCapacity t)).2).2 with
        resizing := true } : HtBare) := hB₂.toFormed.congr rfl rfl rfl
    obtain ⟨hB₃, hC₃⟩ := rebuild_books nestedResize_books hF hpow hb
    exact ⟨hB₃.congr rfl rfl rfl rfl rfl, hC₁.trans hC₂ |>.trans
      ⟨hC₃.1, hC₃.2, ((hC₁.trans hC₂).resizing.trans hrz).symm⟩⟩

/-- `ht_bare_resize`. -/
lemma htBareResize_books (hB : Books t) (hr : htBareResize t n = some (ok, t')) :
    Books t' ∧ SameConfig t t' := by
  unfold htBareResize at hr
  split at hr
  · cases hr
    exact ⟨hB, SameConfig.refl _⟩
  · exact bareResizeTable_books hB hr

/-- `ht_bare_compact`. -/
lemma htBareCompact_books (hB : Books t) (hr : htBareCompact t = some t') :
    Books t' ∧ SameConfig t t' := by
  unfold htBareCompact at hr
  obtain ⟨hB₁, hC₁⟩ := bareAllocMainBlock_books hB t.capacity
  rcases ha : bareAllocMainBlock t t.capacity with ⟨ok₁, t₁⟩
  rw [ha] at hr hB₁ hC₁
  cases ok₁ with
  | false =>
    cases hr
    exact ⟨hB₁, hC₁⟩
  | true =>
    obtain ⟨hB₂, hC₂⟩ := malloc_books hB₁
    rcases hm : malloc t₁ with ⟨ok₂, t₂⟩
    simp only at hr
    rw [hm] at hr hB₂ hC₂
    cases ok₂ with
    | false =>
      cases hr
      exact ⟨hB₂, hC₁.trans hC₂⟩
    | true =>
      obtain ⟨hB₃, hC₃⟩ := rebuild_books bareResizeTable_books hB₂.toFormed hB₂.pow2 hr
      exact ⟨hB₃, (hC₁.trans hC₂).trans hC₃⟩

/-- The resize on account of the load factor. -/
lemma loadResize_books (hB : Books t) (hr : loadResize t = some (ok, t')) :
    Books t' ∧ SameConfig t t' := by
  unfold loadResize at hr
  split at hr
  · split at hr
    · cases hr
      exact ⟨hB, SameConfig.refl _⟩
    · exact htBareResize_books hB hr
  · cases hr
    exact ⟨hB, SameConfig.refl _⟩

/-- The resizes at the start of `ht_bare_insert`. -/
lemma insertPrepare_books (hB : Books t) (hr : insertPrepare t = some (ok, t')) :
    Books t' ∧ SameConfig t t' := by
  unfold insertPrepare at hr
  cases hl : loadResize t with
  | none =>
    rw [hl] at hr
    cases hr
  | some r =>
    obtain ⟨ok₁, t₁⟩ := r
    obtain ⟨hB₁, hC₁⟩ := loadResize_books hB hl
    rw [hl] at hr
    cases ok₁ with
    | false =>
      cases hr
      exact ⟨hB₁, hC₁⟩
    | true =>
      simp only at hr
      split at hr
      · obtain ⟨hB₂, hC₂⟩ := htBareResize_books hB₁ hr
        exact ⟨hB₂, hC₁.trans hC₂⟩
      · cases hr
        exact ⟨hB₁, hC₁⟩

/-- `ht_bare_insert`. -/
lemma htBareInsert_books {hash v : ℕ} (hB : Books t) (hr : htBareInsert t hash v = some (ok, t')) :
    Books t' ∧ SameConfig t t' := by
  unfold htBareInsert at hr
  split at hr
  · cases hr
    exact ⟨hB, SameConfig.refl _⟩
  rename_i hv
  split at hr
  · rename_i hsmall
    have hins := bareSpillInsert_books hB hsmall hv
    have hsame := (bareSpillInsert_main t (h48 hash) v).2.2
    rw [Option.some.inj hr] at hins hsame
    exact ⟨hins, hsame⟩
  rename_i hbig
  cases hp : insertPrepare t with
  | none =>
    rw [hp] at hr
    cases hr
  | some r =>
    obtain ⟨ok₁, t₁⟩ := r
    obtain ⟨hB₁, hC₁⟩ := insertPrepare_books hB hp
    rw [hp] at hr
    cases ok₁ with
    | false =>
      cases hr
      exact ⟨hB₁, hC₁⟩
    | true =>
      obtain ⟨hB₂, hC₂⟩ := bareRhInsertBounded_books bareResizeTable_books hB₁
        ⟨not_lt.mp hbig, Nat.mod_lt _ (Nat.two_pow_pos 48), hv⟩ hr
      exact ⟨hB₂, hC₁.trans hC₂⟩

/-! ## Removal -/

/-- What a deletion keeps: a move back over the gap and the emptying of a tombstone are its only
writes. -/
lemma bareDeleteCompact_rule {Q : HtBare → Prop} {idx : ℕ} (hcap : ∀ {t}, Q t → t.capacity = n)
    (hmove : ∀ {t i w s}, Q t → w ≤ i → i + 1 < n → t.at n idx (i + 1) = s → s.Live →
      i + 1 - w ≤ s.pd → (∀ j, w ≤ j → j ≤ i → (t.at n idx j).Tomb) →
      Q ((t.put n idx (i + 1) Slot.tombSlot).put n idx w
        (hpdPack s.hash (s.pd - (i + 1 - w)) s.val)))
    (hsweep : ∀ {t i}, Q t → i < n → (t.slot i).Tomb →
      Q { t.setSlot i Slot.emptySlot with tombstoneCnt := sizeDec t.tombstoneCnt })
    (hQ : Q t) (hi : idx < n) (htomb : (t.slot idx).Tomb) : Q (bareDeleteCompact t idx) := by
  have hpos : 0 < n := by omega
  have hc := hcap hQ
  have htomb' : (t.at n idx 0).Tomb := by
    unfold HtBare.at
    rw [Nat.add_zero, Nat.mod_eq_of_lt hi]
    exact htomb
  have hgap : ∀ j, 0 ≤ j → j ≤ 0 → (t.at n idx j).Tomb := by
    intro j _ hj
    rw [Nat.le_zero.mp hj]
    exact htomb'
  -- the slots that are left over are emptied one by one
  have hempty : ∀ {m w : ℕ} {t : HtBare}, Q t → w + m ≤ n →
      (∀ j, w ≤ j → j < w + m → (t.at n idx j).Tomb) →
      Q { emptyRun n idx w m t with tombstoneCnt := sizeDec^[m] t.tombstoneCnt } := by
    intro m
    induction m with
    | zero => exact fun hQ _ _ => hQ
    | succ m ih =>
      intro w t hQ hn htombs
      have hQ₁ := hsweep hQ (Nat.mod_lt (idx + (w + m)) hpos) (htombs (w + m) (by omega) (by omega))
      have hih := ih (w := w) hQ₁ (by omega) fun j h1 h2 => by
        show ((t.put n idx (w + m) Slot.emptySlot).at n idx j).Tomb
        have hj : j < n := by omega
        have hwm : w + m < n := by omega
        rw [HtBare.at_put (hcap hQ) hwm hj, if_neg (by omega)]
        exact htombs j h1 (by omega)
      have hput : ({ t.setSlot ((idx + (w + m)) % n) Slot.emptySlot with
          tombstoneCnt := sizeDec t.tombstoneCnt } : HtBare) =
          { t.put n idx (w + m) Slot.emptySlot with tombstoneCnt := sizeDec t.tombstoneCnt } := rfl
      rw [hput, emptyRun_tombstoneCnt] at hih
      rw [Draugr.emptyRun, Function.iterate_succ_apply]
      exact hih
  unfold bareDeleteCompact
  rcases hscan : chainScan t bshiftCap ((idx + 1) % t.capacity) 0 0 with ⟨len, l, e⟩
  simp only
  split
  · rename_i hgo
    obtain ⟨he, hl, hv⟩ := hgo
    rw [he, hc] at hscan
    obtain ⟨_, hne, hend, hlive⟩ := chainScan_spec (i := 0) hc hscan
    rw [Nat.zero_add, Nat.sub_zero] at hlive
    have hn := chain_lt hpos htomb' hne hend
    have hne' : ∀ j, 0 < j → j ≤ 0 + len → ¬ (t.at n idx j).Empty := fun j h1 h2 =>
      hne j h1 (by omega)
    have hle := liveAfter_le t n idx 0 len
    have hS : Q (shiftFrom n idx len 0 0 t) :=
      shiftFrom_keeps hcap hmove hQ (le_refl 0) (by omega) hgap hne' hv
    obtain ⟨htail, _⟩ := shiftFrom_at hc (le_refl 0) (by omega) hgap hne'
    rw [bareCommitBackwardShift_eq hc hn (hlive ▸ hl)]
    have hrun := hempty (w := liveAfter t n idx 0 len) (m := len + 1 - liveAfter t n idx 0 len) hS
      (by omega) fun j h1 h2 => htail j (by omega) (by omega)
    rw [shiftFrom_fields] at hrun ⊢
    exact hrun
  · exact hQ

/-- Moving an entry back over the gap. -/
lemma Books.move {idx w : ℕ} (hB : Books t) (hc : t.capacity = n) (hwi : w ≤ i) (hin : i + 1 < n)
    (hs : t.at n idx (i + 1) = s) (hlive : s.Live)
    (hgap : ∀ j, w ≤ j → j ≤ i → (t.at n idx j).Tomb) :
    Books ((t.put n idx (i + 1) Slot.tombSlot).put n idx w
      (hpdPack s.hash (s.pd - (i + 1 - w)) s.val)) := by
  have hpos : 0 < n := by omega
  have hrc : (idx + (i + 1)) % n < t.capacity := by rw [hc]; exact Nat.mod_lt _ hpos
  have hslot : t.slot ((idx + (i + 1)) % n) = s := hs
  have hlive₀ : (t.slot ((idx + (i + 1)) % n)).Live := hslot ▸ hlive
  have hform : SlotFormed s := hslot ▸ hB.slots _ hlive₀
  have hsize : 0 < t.size := by
    have := hB.size
    have := liveCount_pos hrc hlive₀
    omega
  -- the entry leaves its slot, and then takes the first slot of the gap
  have hB₁ : Books { t.put n idx (i + 1) Slot.tombSlot with
      size := t.size - 1, tombstoneCnt := t.tombstoneCnt + 1 } := by
    refine hB.write hrc (fun h => absurd h Slot.tombSlot_tomb.not_live) ?_ ?_
    · rw [if_pos hlive₀, if_neg Slot.tombSlot_tomb.not_live]
      omega
    · rw [if_neg hlive₀.not_tomb, if_pos Slot.tombSlot_tomb]
  have hcap₁ : (t.put n idx (i + 1) Slot.tombSlot).capacity = n := by
    rw [HtBare.capacity_put, hc]
  have hmid : ((t.put n idx (i + 1) Slot.tombSlot).slot ((idx + w) % n)).Tomb := by
    have : (t.put n idx (i + 1) Slot.tombSlot).at n idx w = t.at n idx w := by
      rw [HtBare.at_put hc hin (by omega), if_neg (by omega)]
    unfold HtBare.at at this
    rw [this]
    exact hgap w (le_refl _) hwi
  have hnew : (hpdPack s.hash (s.pd - (i + 1 - w)) s.val).Live := hpdPack_live hlive hform.hash48
  refine (hB₁.write (s := hpdPack s.hash (s.pd - (i + 1 - w)) s.val) (i := (idx + w) % n)
    (z := t.size)
    (m := t.tombstoneCnt) ?_ (fun _ => .pack hform.val) ?_ ?_).congr rfl rfl rfl rfl rfl
  · show (idx + w) % n < (t.put n idx (i + 1) Slot.tombSlot).capacity
    rw [hcap₁]
    exact Nat.mod_lt _ hpos
  · show t.size +
      (if ((t.put n idx (i + 1) Slot.tombSlot).slot ((idx + w) % n)).Live then 1 else 0) =
      t.size - 1 + _
    rw [if_neg hmid.not_live, if_pos hnew]
    have := hB.size
    have := liveCount_pos hrc hlive₀
    omega
  · show t.tombstoneCnt +
      (if ((t.put n idx (i + 1) Slot.tombSlot).slot ((idx + w) % n)).Tomb then 1 else 0) =
      t.tombstoneCnt + 1 + _
    rw [if_pos hmid, if_neg hnew.not_tomb]

/-- A tombstone is emptied. -/
lemma Books.sweep (hB : Books t) (hi : i < t.capacity) (ht : (t.slot i).Tomb) :
    Books { t.setSlot i Slot.emptySlot with tombstoneCnt := sizeDec t.tombstoneCnt } := by
  refine hB.write (z := t.size) hi (fun h => absurd h Slot.emptySlot_empty.not_live) ?_ ?_
  · rw [if_neg ht.not_live, if_neg Slot.emptySlot_empty.not_live]
  · rw [if_pos ht, if_neg (by decide)]
    exact hB.tombs_pos hi ht

/-- Deleting at a live slot. -/
lemma deleteAt_books {idx : ℕ} (hB : Books t) (hi : idx < t.capacity) (hl : (t.slot idx).Live) :
    Books (deleteAt t idx) ∧ (deleteAt t idx).capacity = t.capacity := by
  have hB₁ : Books { t.setSlot idx Slot.tombSlot with
      size := sizeDec t.size, tombstoneCnt := t.tombstoneCnt + 1 } := by
    refine hB.write hi (fun h => absurd h Slot.tombSlot_tomb.not_live) ?_ ?_
    · rw [if_pos hl, if_neg Slot.tombSlot_tomb.not_live]
      have := hB.size
      have := liveCount_pos hi hl
      rw [sizeDec_pos (by omega)]
      omega
    · rw [if_neg hl.not_tomb, if_pos Slot.tombSlot_tomb]
  have htomb : (HtBare.slot { t.setSlot idx Slot.tombSlot with
      size := sizeDec t.size, tombstoneCnt := t.tombstoneCnt + 1 } idx).Tomb := by
    show ((t.setSlot idx Slot.tombSlot).slot idx).Tomb
    rw [HtBare.slot_setSlot _ hi, if_pos rfl]
    exact Slot.tombSlot_tomb
  refine bareDeleteCompact_rule (Q := fun t' => Books t' ∧ t'.capacity = t.capacity)
    (fun h => h.2) ?_ ?_
    ⟨hB₁, HtBare.capacity_setSlot t idx _⟩ hi htomb
  · rintro t' i w s ⟨hB', hc'⟩ hwi hin hs hlive - hgap
    refine ⟨hB'.move hc' hwi hin hs hlive hgap, ?_⟩
    rw [HtBare.capacity_put, HtBare.capacity_put, hc']
  · rintro t' i ⟨hB', hc'⟩ hi' ht'
    exact ⟨hB'.sweep (by rw [hc']; exact hi') ht', (HtBare.capacity_setSlot t' i _).trans hc'⟩

/-- The scan of `ht_bare_remove_val` keeps the books. -/
lemma removeValFrom_books {h v m idx dist : ℕ} (hB : Books t) (hi : idx < t.capacity)
    (hr : removeValFrom t h v m idx dist = some t') : Books t' := by
  obtain ⟨i, hi', hl, -, -, rfl⟩ := removeValFrom_some rfl hi hr
  exact (deleteAt_books hB hi' hl).1

/-- The scan of `ht_bare_remove` keeps the books. -/
lemma removeFrom_books (h m : ℕ) {idx dist removed : ℕ} (hB : Books t) (hi : idx < t.capacity) :
    Books (removeFrom h m idx dist removed t).2 := by
  induction m generalizing idx dist removed t with
  | zero => exact hB
  | succ m ih =>
    have hnext : (idx + 1) % t.capacity < t.capacity := Nat.mod_lt _ hB.capacity_pos
    rw [removeFrom]
    split
    · exact hB
    split
    · exact ih hB hnext
    rename_i hne hnt
    split
    · exact hB
    split
    · obtain ⟨hB', hc⟩ :=
        deleteAt_books hB hi (((Slot.trichotomy _).resolve_left hne).resolve_left hnt)
      exact ih hB' (by rw [hc]; exact hi)
    · exact ih hB hnext

/-- Smaller lanes, with `size` following. -/
lemma Books.lanes (hB : Books t) {sp ov : List (ℕ × ℕ)} {k : ℕ} (hs : ∀ e ∈ sp, e ∈ t.spill)
    (ho : ∀ e ∈ ov, e ∈ t.overflow) (hlen : ov.length ≤ t.overflow.length)
    (hk : k = liveCount t + sp.length + ov.length) :
    Books { t with spill := sp, overflow := ov, size := k } :=
  ⟨hB.toFormed.lanes rfl hs ho hlen, hk, hB.tombs⟩

/-- The removal from the spill lane keeps the books. -/
lemma bareSpillRemove_books (hB : Books t) (h : ℕ) : Books (bareSpillRemove t h).2 := by
  have hlen : (t.spill.filter fun e => e.1 ≠ h).length ≤ t.spill.length := List.length_filter_le _ _
  refine hB.lanes (fun _ he => List.mem_of_mem_filter he) (fun _ he => he) le_rfl ?_
  have := hB.size
  rw [sizeDec_iterate (by omega)]
  omega

/-- The removal from the overflow stash keeps the books. -/
lemma overflowStashRemove_books (hB : Books t) (h : ℕ) : Books (overflowStashRemove t h).2 := by
  have hlen : (t.overflow.filter fun e => e.1 ≠ h).length ≤ t.overflow.length :=
    List.length_filter_le _ _
  refine hB.lanes (fun _ he => he) (fun _ he => List.mem_of_mem_filter he) hlen ?_
  have := hB.size
  rw [sizeDec_iterate (by omega)]
  omega

/-- The removal of a value from the spill lane keeps the books. -/
lemma bareSpillRemoveVal_books (hB : Books t) (h v : ℕ) : Books (bareSpillRemoveVal t h v).2 := by
  unfold bareSpillRemoveVal
  split
  · rename_i hmem
    have hpos := List.length_pos_of_mem hmem
    refine hB.lanes (fun _ he => List.mem_of_mem_erase he) (fun _ he => he) le_rfl ?_
    have := hB.size
    rw [sizeDec_pos (by omega), List.length_erase_of_mem hmem]
    omega
  · exact hB

/-- The removal of a value from the overflow stash keeps the books. -/
lemma overflowStashRemoveVal_books (hB : Books t) (h v : ℕ) :
    Books (overflowStashRemoveVal t h v).2 := by
  have hF := overflowStashRemoveVal_formed hB.toFormed h v
  unfold overflowStashRemoveVal at hF ⊢
  split
  · exact hB
  · rename_i i hi
    rw [hi] at hF
    obtain ⟨hlt, -⟩ := List.findIdx?_eq_some_iff_getElem.mp hi
    refine ⟨hF, ?_, hB.tombs⟩
    show sizeDec t.size = liveCount t + t.spill.length + ((t.overflow.set i _).dropLast).length
    have := hB.size
    rw [sizeDec_pos (by omega), List.length_dropLast, List.length_set]
    omega

/-- `ht_bare_remove_val`. -/
lemma htBareRemoveVal_books (hB : Books t) (hash v : ℕ) : Books (htBareRemoveVal t hash v).2 := by
  unfold htBareRemoveVal
  split
  · exact bareSpillRemoveVal_books hB _ _
  · cases hr : removeValFrom t (h48 hash) v (t.capacity + 1) (h48 hash % t.capacity) 0 with
    | some t₁ => exact removeValFrom_books hB (Nat.mod_lt _ hB.capacity_pos) hr
    | none => exact overflowStashRemoveVal_books hB _ _

/-- `ht_bare_remove`. -/
lemma htBareRemove_books (hB : Books t) (hash : ℕ) : Books (htBareRemove t hash).2 := by
  unfold htBareRemove
  split
  · exact bareSpillRemove_books hB _
  · exact overflowStashRemove_books (removeFrom_books _ _ hB (Nat.mod_lt _ hB.capacity_pos)) _

/-! ## Runs -/

/-- One call. -/
lemma BareCall.run_books {call : BareCall} (hB : Books t) (hr : call.run t = some t') :
    Books t' := by
  cases call with
  | remove hash =>
    cases hr
    exact htBareRemove_books hB hash
  | op o =>
    cases o with
    | insert hash val =>
      obtain ⟨⟨ok, t₁⟩, h, rfl⟩ := Option.map_eq_some_iff.mp hr
      exact (htBareInsert_books hB h).1
    | removeVal hash val =>
      cases hr
      exact htBareRemoveVal_books hB hash val
    | resize newCapacity =>
      obtain ⟨⟨ok, t₁⟩, h, rfl⟩ := Option.map_eq_some_iff.mp hr
      exact (htBareResize_books hB h).1
    | compact => exact (htBareCompact_books hB hr).1
    | clear =>
      cases hr
      exact .of_fresh hB.pow2 rfl rfl rfl rfl rfl

/-- A sequence of calls. -/
lemma runCalls_books {calls : List BareCall} (hB : Books t) (hr : runCalls calls t = some t') :
    Books t' := by
  induction calls generalizing t with
  | nil =>
    cases hr
    exact hB
  | cons call calls ih =>
    rw [runCalls] at hr
    cases h₁ : call.run t with
    | none =>
      rw [h₁] at hr
      cases hr
    | some t₁ =>
      rw [h₁] at hr
      exact ih (BareCall.run_books hB h₁) hr

/-- A table as `ht_bare_create` returns it. -/
lemma htBareCreate_books {cfg : HtConfig} {mem : List Bool} {fuel : ℕ}
    (hc : htBareCreate cfg mem fuel = some t) : Books t := by
  unfold htBareCreate at hc
  simp only at hc
  split at hc
  · cases hc
  rename_i hcap
  cases hc
  exact .of_fresh (nextPow2_pow2 (not_lt.mp hcap)) rfl rfl rfl rfl rfl

end Draugr
