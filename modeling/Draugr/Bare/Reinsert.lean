import Draugr.Bare.Load
import Draugr.Bare.Remove

/-!
# Resize and compaction of any reachable table

A rebuild inserts into fresh blocks, so no tombstone is in the way (`Clean`), and what has to go
into the main array and the stash is known beforehand (`Fits`). The loop heads are then safe
(`Fits.headSafe`) as long as no carrier goes past a live slot at the last distance that 16 bits hold
(`noWrap`), whatever the table was like before: `rebuild_keeps` needs of the old table only that its
entries are formed.
-/

namespace Draugr
open Lib

/-- The 16-bit distance of the carrier does not wrap at this loop head. -/
def NoWrap (t : HtBare) (c : Carrier) : Prop :=
  (t.slot c.idx).Live → c.dist ≤ (t.slot c.idx).pd → c.dist + 1 < 2 ^ 16

instance (t : HtBare) (c : Carrier) : Decidable (NoWrap t c) :=
  inferInstanceAs (Decidable (_ → _ → _))

/-- `NoWrap` as a test. -/
def noWrap (t : HtBare) (c : Carrier) : Bool := decide (NoWrap t c)

/-- A table under construction: no tombstones, and the limit is given up with a full stash only. -/
structure Clean (t : HtBare) : Prop where
  tombs : ∀ i, i < t.capacity → ¬ (t.slot i).Tomb
  full : t.overflowViolated = true → overflowStashCap ≤ t.overflow.length

/-- `k` entries fit into `n` slots, or into these and the overflow stash. -/
def Fits (n mpd k : ℕ) : Prop := k ≤ n ∨ (0 < mpd ∧ mpd < n ∧ k ≤ n + overflowStashCap)

instance (n mpd k : ℕ) : Decidable (Fits n mpd k) := inferInstanceAs (Decidable (_ ∨ _))

/-- The entries of the main array and the overflow stash. -/
def held (t : HtBare) : ℕ := liveCount t + t.overflow.length

variable {n k m : ℕ} {b ok : Bool} {t t' : HtBare} {c c' : Carrier}

/-- The entries are those of the slots and stash and those of the spill lane. -/
lemma card_contents (t : HtBare) : t.contents.card = held t + t.spill.length := by
  unfold HtBare.contents held
  rw [Multiset.card_add, Multiset.card_add, Multiset.coe_card, Multiset.coe_card, Multiset.coe_card,
    liveEntries_length]
  omega

/-! ## Loop heads -/

/-- A searcher that arrives has passed no empty slot. -/
lemma Carrying.dist_lt [NeZero n] (hC : Carrying n b t c) {i : ℕ} (hi : i < n)
    (he : (t.slot i).Empty) : c.dist < n := by
  by_contra hge
  obtain ⟨j, hj, hoff⟩ := exists_offset (i + 1) hC.idx
  have hpass := hC.arrives (j + 1) (Nat.le_add_left 1 j) (by omega)
  have hcell : ((c.idx : ZMod n) - ((j + 1 : ℕ) : ZMod n)) = ((i : ℕ) : ZMod n) := by
    rw [← hoff, ZMod.natCast_mod]
    push_cast
    ring
  rw [hcell, HtBare.layout_slot t hi, Slot.cell_empty he] at hpass
  exact hpass

/-- An array with fewer live slots than slots has one that is not live. -/
lemma exists_dead (hlt : liveCount t < t.capacity) : ∃ i, i < t.capacity ∧ ¬ (t.slot i).Live := by
  by_contra hall
  push Not at hall
  refine absurd (List.countP_eq_length.mpr fun s hs => ?_) hlt.ne
  obtain ⟨i, hi, rfl⟩ := List.getElem_of_mem hs
  have := hall i hi
  unfold HtBare.slot at this
  rw [List.getD_eq_getElem?_getD, List.getElem?_eq_getElem hi] at this
  exact decide_eq_true this

/-- The loop heads of a rebuild are safe when the distance does not wrap. -/
lemma Fits.headSafe [NeZero n] (hC : Carrying n b t c) (hK : Clean t)
    (hF : Fits n t.maxProbeDist k) (hk : held t + 1 ≤ k) (hw : NoWrap t c) : HeadSafe t c := by
  have hcap := hC.sound.cap
  refine ⟨?_, hw, fun ht => absurd ht (hK.tombs _ (hcap.symm ▸ hC.idx))⟩
  have hempty : liveCount t < t.capacity → c.dist < n := by
    intro hlt
    obtain ⟨i, hi, hdead⟩ := exists_dead hlt
    refine hC.dist_lt (hcap ▸ hi) ?_
    rcases Slot.trichotomy (t.slot i) with he | ht | hl
    · exact he
    · exact absurd ht (hK.tombs i hi)
    · exact absurd hl hdead
  rw [hcap]
  unfold held at hk
  rcases hF with hle | ⟨hpos, hlt, hle⟩
  · exact hempty (by omega)
  · cases hv : t.overflowViolated with
    | true =>
      have := hK.full hv
      exact hempty (by omega)
    | false =>
      have := hC.limit hv hpos
      omega

/-! ## One iteration -/

/-- What one iteration does to the tombstones and the stash. -/
def StepClean : RhStep → Prop
  | .ret _ t' => Clean t'
  | .go t' _ => Clean t'
  | .unbounded t' _ => Clean t'
  | .resize _ _ => True

/-- No tombstone in a slot that is written with an entry. -/
lemma Clean.write {i : ℕ} {s : Slot} (hK : Clean t) (hs : s.Live) : Clean (t.setSlot i s) := by
  refine ⟨fun j hj => ?_, hK.full⟩
  rw [HtBare.capacity_setSlot] at hj
  by_cases hi : i < t.capacity
  · rw [HtBare.slot_setSlot _ hi]
    split
    · exact hs.not_tomb
    · exact hK.tombs j hj
  · rw [HtBare.setSlot_of_le s (not_lt.mp hi)]
    exact hK.tombs j hj

/-- A carrier that goes to the stash leaves the table clean. -/
lemma stashCarrier_clean (hK : Clean t) : StepClean (stashCarrier t c) := by
  unfold stashCarrier overflowStashInsert
  split
  · rename_i h
    split at h
    · cases h
    · cases h
      refine ⟨hK.tombs, fun hv => (hK.full hv).trans ?_⟩
      show t.overflow.length ≤ (t.overflow ++ [_]).length
      rw [List.length_append]
      exact Nat.le_add_right _ _
  · rename_i h
    split at h
    · rename_i hfull
      exact ⟨hK.tombs, fun _ => hfull⟩
    · cases h

/-- One iteration puts no tombstone anywhere. -/
lemma rhStep_clean (hK : Clean t) (h2 : 2 ≤ c.hash) (h48 : c.hash < 2 ^ 48) :
    StepClean (rhStep b t c) := by
  have hnew : (hpdPack c.hash c.dist c.val).Live := hpdPack_live h2 h48
  unfold rhStep
  dsimp only
  split
  · split
    · split
      · exact stashCarrier_clean (hK.write hnew)
      · exact hK.write hnew
    · split
      · exact stashCarrier_clean hK
      · split
        · trivial
        · exact hK
  · split
    · exact hK
    · have hK' : Clean (if (t.slot c.idx).Tomb then
          ({ t with tombstoneCnt := sizeDec t.tombstoneCnt } : HtBare) else t) := by
        split
        · exact ⟨hK.tombs, hK.full⟩
        · exact hK
      generalize (if (t.slot c.idx).Tomb then
        ({ t with tombstoneCnt := sizeDec t.tombstoneCnt } : HtBare) else t) = t₁ at hK' ⊢
      split
      · exact stashCarrier_clean hK'
      · have hK'' := hK'.write (i := c.idx) hnew
        exact ⟨hK''.tombs, hK''.full⟩

/-! ## Insertions into a table under construction -/

/-- A step that keeps the contents and the lanes keeps the number of entries. -/
lemma held_congr (hcon : t'.contents.card = t.contents.card) (hs : t'.spill = t.spill) :
    held t' = held t := by
  rw [card_contents, card_contents, hs] at hcon
  omega

/-- One insertion: the loop heads are safe and the table stays clean. -/
lemma rhWalk_headSafe [NeZero n] {rz : HtBare → Option (Bool × HtBare)} {fuel : ℕ}
    (hC : Carrying n b t c) (hK : Clean t) (hF : Fits n t.maxProbeDist k) (hk : held t + 1 ≤ k)
    (hw : rhWalk noWrap rz fuel b t c = true) :
    rhWalk headSafe rz fuel b t c = true ∧
      ∀ ok t', rhLoop rz fuel b t c = some (ok, t') → Clean t' := by
  induction fuel generalizing b t c with
  | zero => exact ⟨rfl, nofun⟩
  | succ fuel ih =>
    rw [rhWalk, Bool.and_eq_true] at hw
    have hH := hF.headSafe hC hK hk (of_decide_eq_true hw.1)
    have hstep := rhStep_inserts hC hH
    have hclean := rhStep_clean (b := b) hK hC.hash2 hC.hash48
    have hrest := hw.2
    rw [rhWalk, rhLoop, Bool.and_eq_true]
    cases hr : rhStep b t c with
    | ret ok' t₁ =>
      rw [hr] at hclean
      refine ⟨⟨decide_eq_true hH, rfl⟩, fun ok t' he => ?_⟩
      cases he
      exact hclean
    | go t₁ c₁ =>
      rw [hr] at hstep hclean hrest
      obtain ⟨hC₁, hcon, -, hfr, -⟩ := hstep
      have hcard := congrArg Multiset.card hcon
      rw [Multiset.card_cons, Multiset.card_cons] at hcard
      have hheld := held_congr (by omega) hfr.spill
      obtain ⟨hsafe, hend⟩ := ih hC₁ hclean (hfr.maxProbeDist ▸ hF) (by omega) hrest
      exact ⟨⟨decide_eq_true hH, hsafe⟩, hend⟩
    | unbounded t₁ c₁ =>
      rw [hr] at hstep hclean hrest
      obtain ⟨-, hS₁, hvio, ⟨h2, h48, hv⟩, hcon, -, hfr⟩ := hstep
      have hcard := congrArg Multiset.card hcon
      rw [Multiset.card_cons, Multiset.card_cons] at hcard
      have hheld := held_congr (by omega) hfr.spill
      obtain ⟨hsafe, hend⟩ := ih (Carrying.start hS₁ h2 h48 hv fun _ => hvio) hclean
        (hfr.maxProbeDist ▸ hF) (by omega) hrest
      exact ⟨⟨decide_eq_true hH, hsafe⟩, hend⟩
    | resize t₁ c₁ =>
      rw [hr] at hstep
      exact hstep.elim

/-- A list of insertions: the loop heads are safe and the table stays clean. -/
lemma reinsertWalk_headSafe {rz : HtBare → Option (Bool × HtBare)} {es : List (ℕ × ℕ)}
    (hS : Sound n t) (hK : Clean t) (hes : ∀ e ∈ es, 2 ≤ e.1 ∧ e.1 < 2 ^ 48 ∧ e.2 ≠ valNone)
    (hF : Fits n t.maxProbeDist k) (hk : held t + es.length ≤ k)
    (hw : reinsertWalk noWrap rz t es = true) :
    reinsertWalk headSafe rz t es = true ∧ ∀ t', reinsert rz t es = some t' →
      Clean t' ∧ held t' = held t + es.length := by
  have : NeZero n := ⟨hS.pos.ne'⟩
  induction es generalizing t with
  | nil =>
    refine ⟨rfl, fun t' he => ?_⟩
    cases he
    exact ⟨hK, rfl⟩
  | cons e es ih =>
    obtain ⟨h, v⟩ := e
    obtain ⟨h2, h48, hv⟩ := hes (h, v) List.mem_cons_self
    rw [reinsertWalk, Bool.and_eq_true] at hw
    rw [List.length_cons] at hk
    have hC : Carrying n true t (.start t h v) :=
      Carrying.start hS h2 h48 hv (fun he => absurd he.symm Bool.false_ne_true)
    obtain ⟨hsafe, hend⟩ := rhWalk_headSafe hC hK hF (by omega) hw.1
    obtain ⟨t₁, hrun, hI⟩ := (@bareRhInsertBounded_inserts _ _ rz) hS h2 h48 hv hsafe
    have hcard := congrArg Multiset.card hI.contents
    rw [Multiset.card_cons, card_contents, card_contents, hI.frame.spill] at hcard
    have hK₁ : Clean t₁ := by
      refine hend true t₁ ?_
      rw [← hrun]
      unfold bareRhInsertBounded
      rw [if_neg (by rw [hS.cap]; exact hS.pos.ne')]
    have hrest := hw.2
    rw [hrun] at hrest
    obtain ⟨hsafe', hend'⟩ := ih hI.sound hK₁ (fun e he => hes e (List.mem_cons_of_mem _ he))
      (hI.frame.maxProbeDist ▸ hF) (by omega) hrest
    constructor
    · rw [reinsertWalk, hrun, Bool.and_eq_true]
      exact ⟨hsafe, hsafe'⟩
    · intro t' he
      rw [reinsert, hrun] at he
      obtain ⟨hK', hheld⟩ := hend' t' he
      exact ⟨hK', by rw [hheld, List.length_cons]; omega⟩

/-! ## The rebuild of any formed table -/

/-- The entries of a formed table can be stored in another. -/
lemma Formed.storable (hF : Formed t) : Storable t where
  main := fun _ he => ⟨(hF.live he).hash2, (hF.live he).hash48, (hF.live he).val⟩
  overflow :=
    fun e he => ⟨(hF.overflow e he).hash2, (hF.overflow e he).hash48, (hF.overflow e he).val⟩
  spill := hF.spill

/-- Fresh blocks are clean. -/
lemma freshBlocks_clean (t : HtBare) (m : ℕ) : Clean (freshBlocks t m) := by
  refine ⟨fun i _ ht => ?_, nofun⟩
  rw [slot_fresh (t := freshBlocks t m) rfl i] at ht
  exact absurd ht (by decide)

/-- A fresh table holds nothing. -/
lemma freshBlocks_held (t : HtBare) (m : ℕ) : held (freshBlocks t m) = 0 := by
  show (List.replicate m Slot.emptySlot).countP (fun s => decide s.Live) + 0 = 0
  rw [List.countP_replicate]
  rfl

/-- A rebuild whose distances do not wrap keeps every entry of any formed table that fits. -/
lemma rebuild_sound {rz : HtBare → Option (Bool × HtBare)} (hF : Formed t) (hm : 0 < m)
    (hfit : Fits m t.maxProbeDist (held t)) (hw : rebuildWalk noWrap rz t m = true) :
    ∃ t', rebuild rz t m = some t' ∧ Sound m t' ∧ t'.contents = t.contents := by
  have hSt := hF.storable
  have hsafe : rebuildWalk headSafe rz t m = true := by
    rw [rebuildWalk, Bool.and_eq_true] at hw ⊢
    obtain ⟨hw₁, hw₂⟩ := hw
    have hfresh : Sound m (freshBlocks t m) := Sound.of_fresh hm rfl rfl rfl
    have hlen : (liveEntries t.main).length = liveCount t := liveEntries_length t
    have hzero := freshBlocks_held t m
    obtain ⟨hsafe₁, hend₁⟩ := (@reinsertWalk_headSafe _ (held t) _ rz) hfresh
      (freshBlocks_clean t m) hSt.main hfit (by unfold held at *; omega) hw₁
    refine ⟨hsafe₁, ?_⟩
    obtain ⟨t₁, hr₁, hS₁, hF₁, -, -⟩ := reinsert_inserts hfresh hSt.main hsafe₁
    obtain ⟨hK₁, hheld₁⟩ := hend₁ t₁ hr₁
    have hrm : bareReinsertMain rz (freshBlocks t m) t.main = some t₁ := hr₁
    rw [hrm] at hw₂ ⊢
    have hsp : bareReinsertSpill t₁ t.spill =
        { t₁ with spill := t₁.spill ++ t.spill, size := t₁.size + t.spill.length } := by
      refine bareReinsertSpill_eq hSt.spill ?_
      rw [hF₁.spill, hF₁.spillCap]
      simp [freshBlocks]
    simp only at hw₂ ⊢
    rw [hsp] at hw₂ ⊢
    have hK₂ : Clean { t₁ with spill := t₁.spill ++ t.spill, size := t₁.size + t.spill.length } :=
      ⟨hK₁.tombs, hK₁.full⟩
    have hS₂ : Sound m { t₁ with spill := t₁.spill ++ t.spill, size := t₁.size + t.spill.length } :=
      hS₁.spill_append hSt.spill _ t₁.spillCap
    refine (reinsertWalk_headSafe (k := held t) hS₂ hK₂ hSt.overflow ?_ ?_ hw₂).1
    · show Fits m t₁.maxProbeDist (held t)
      rw [hF₁.maxProbeDist]
      exact hfit
    · show held t₁ + t.overflow.length ≤ held t
      unfold held at *
      omega
  obtain ⟨t', hr, hS, hcon, -, -⟩ := rebuild_keeps hSt hm hsafe
  exact ⟨t', hr, hS, hcon⟩

/-! ## `ht_bare_resize` and `ht_bare_compact` -/

/-- The allocations of a rebuild into `capacity` slots succeed. -/
def Allocates (t : HtBare) (capacity : ℕ) : Prop :=
  (bareAllocMainBlock t capacity).1 = true ∧ (malloc (bareAllocMainBlock t capacity).2).1 = true

instance (t : HtBare) (capacity : ℕ) : Decidable (Allocates t capacity) :=
  inferInstanceAs (Decidable (_ ∧ _))

/-- What a rebuild of `t` is meant to lead to. -/
structure EntriesKept (t t' : HtBare) : Prop where
  checked : htBareCheckInvariants t' = none
  contents : t'.contents = t.contents
  reported : ∀ hash, valuesOf t.contents (h48 hash) ≤ (htBareFindAll t' hash : Multiset ℕ)

/-- An allocation changes the list of outcomes only. -/
lemma malloc_mem (t : HtBare) : ∃ mem, (malloc t).2 = { t with mem := mem } := by
  unfold malloc
  split
  · exact ⟨t.mem, rfl⟩
  · exact ⟨_, rfl⟩

/-- The allocations of a rebuild change no field but the one of the allocator. -/
lemma Allocates.mem {capacity : ℕ} (hA : Allocates t capacity) :
    ∃ t₁ mem, bareAllocMainBlock t capacity = (true, t₁) ∧
      malloc t₁ = (true, { t with mem := mem }) ∧ capacity ≤ sizeMax / 12 := by
  obtain ⟨h₁, h₂⟩ := hA
  have hcap : ¬ capacity > sizeMax / 12 := by
    intro hbig
    unfold bareAllocMainBlock at h₁
    rw [if_pos hbig] at h₁
    cases h₁
  have ha : bareAllocMainBlock t capacity = malloc t := by
    unfold bareAllocMainBlock
    rw [if_neg hcap]
  rw [ha] at h₁ h₂ ⊢
  obtain ⟨mem, hm⟩ := malloc_mem t
  obtain ⟨mem', hm'⟩ := malloc_mem (malloc t).2
  refine ⟨(malloc t).2, mem', Prod.ext h₁ rfl, Prod.ext h₂ ?_, not_lt.mp hcap⟩
  rw [hm', hm]

/-- A sound table with the same entries is what a rebuild is meant to lead to. -/
lemma EntriesKept.of_sound (hB : Books t') (hS : Sound m t') (hcon : t'.contents = t.contents) :
    EntriesKept t t' := by
  have hcap := hS.cap
  subst hcap
  refine ⟨?_, hcon, fun hash => ?_⟩
  · rw [htBareCheckInvariants_iff hB]
    exact ⟨hS.pos, rfl, hS.reach, hS.slots, nofun, hS.spill, hS.overflow, hS.vals⟩
  · rw [← hcon]
    by_cases hh : h48 hash < 2
    · refine Multiset.le_iff_count.mpr fun v => ?_
      rw [count_valuesOf, hB.toFormed.count_small hh, Multiset.coe_count,
        count_htBareFindAll_spill hh]
    · rw [coe_htBareFindAll hS hB.toFormed hh]
      exact Multiset.le_add_right _ _

/-- When `ht_bare_resize` does what it is meant to do, at the latest. -/
lemma htBareResize_rebuilds {newCapacity : ℕ} (hB : Books t) (hz : t.resizing = false)
    (hnew : t.mainLive ≤ newCapacity) (hA : Allocates t (resizeCapacity t))
    (hw : resizeWalk noWrap t = true) :
    ∃ t', htBareResize t newCapacity = some (true, t') ∧ EntriesKept t t' := by
  obtain ⟨t₁, mem, ha, hm, hcap⟩ := hA.mem
  have hbound : t.size * 2 ≤ resizeCapacity t :=
    (le_nextPow2 (t.size * 2)).trans (Nat.le_max_left _ _)
  have hsize : ¬ t.size > sizeMax / 2 := by
    unfold sizeMax at hcap ⊢
    omega
  rw [resizeWalk, hz, Bool.false_or, ha] at hw
  simp only [hm] at hw
  have hF : Formed ({ t with mem := mem, resizing := true } : HtBare) :=
    hB.toFormed.congr rfl rfl rfl
  have hfit : Fits (resizeCapacity t) t.maxProbeDist (held t) := by
    left
    have := hB.size
    unfold held
    omega
  obtain ⟨t', hr, hS, hcon⟩ := rebuild_sound hF (resizeCapacity_pos t) hfit hw
  have hres : htBareResize t newCapacity = some (true, { t' with resizing := false }) := by
    unfold htBareResize bareResizeTable
    rw [if_neg (not_lt.mpr hnew), if_neg (by rw [hz]; exact Bool.false_ne_true), if_neg hsize]
    have hmax : max (nextPow2 (t.size * 2)) 4 = resizeCapacity t := rfl
    simp only [hmax, ha, hm, hr]
  exact ⟨_, hres, .of_sound (htBareResize_books hB hres).1 (hS.congr rfl rfl rfl rfl rfl) hcon⟩

/-- When `ht_bare_compact` does what it is meant to do, at the latest. -/
lemma htBareCompact_rebuilds (hB : Books t) (hA : Allocates t t.capacity)
    (hw : compactWalk noWrap t = true)
    (hfit : held t ≤ t.capacity ∨ (0 < t.maxProbeDist ∧ t.maxProbeDist < t.capacity)) :
    ∃ t', htBareCompact t = some t' ∧ EntriesKept t t' := by
  obtain ⟨t₁, mem, ha, hm, -⟩ := hA.mem
  rw [compactWalk, ha] at hw
  simp only [hm] at hw
  have hF : Formed ({ t with mem := mem } : HtBare) := hB.toFormed.congr rfl rfl rfl
  have hlive : liveCount t ≤ t.capacity := List.countP_le_length
  have hfit' : Fits t.capacity t.maxProbeDist (held t) := by
    refine hfit.imp id fun h => ⟨h.1, h.2, ?_⟩
    have := hB.overflowLen
    unfold held
    omega
  obtain ⟨t', hr, hS, hcon⟩ := rebuild_sound hF hB.capacity_pos hfit' hw
  have hres : htBareCompact t = some t' := by
    unfold htBareCompact
    rw [ha]
    simp only [hm]
    exact hr
  exact ⟨t', hres, .of_sound (htBareCompact_books hB hres).1 hS hcon⟩

/-- A created table is not resizing. -/
lemma htBareCreate_resizing {cfg : HtConfig} {mem : List Bool} {fuel : ℕ}
    (hc : htBareCreate cfg mem fuel = some t) : t.resizing = false := by
  unfold htBareCreate at hc
  simp only at hc
  split at hc
  · cases hc
  · cases hc
    rfl

/-- A resize and a compaction of any reachable table lead to a table that passes the check, holds
the same entries and reports all of them, if the 16-bit distance wraps at no loop head of their
insertions and, for a compaction, the entries of the main array and of the overflow stash fit into
the array or the probe limit is below its capacity. -/
theorem htBare_rebuild_keeps (cfg : HtConfig) (mem : List Bool) (fuel : ℕ) (calls : List BareCall)
    (t₀ t : HtBare) (hc : htBareCreate cfg mem fuel = some t₀) (hr : runCalls calls t₀ = some t) :
    (∀ newCapacity, t.mainLive ≤ newCapacity → Allocates t (resizeCapacity t) →
      resizeWalk noWrap t = true →
        ∃ t', htBareResize t newCapacity = some (true, t') ∧ EntriesKept t t') ∧
    (Allocates t t.capacity → compactWalk noWrap t = true →
      (liveCount t + t.overflow.length ≤ t.capacity ∨
        (0 < t.maxProbeDist ∧ t.maxProbeDist < t.capacity)) →
          ∃ t', htBareCompact t = some t' ∧ EntriesKept t t') := by
  have hB₀ := htBareCreate_books hc
  have hB := runCalls_books hB₀ hr
  have hz : t.resizing = false := (runCalls_config hB₀ hr).resizing.trans (htBareCreate_resizing hc)
  constructor
  · intro newCapacity hnew hA hw
    exact htBareResize_rebuilds hB hz hnew hA hw
  · intro hA hw hfit
    exact htBareCompact_rebuilds hB hA hw hfit

/-- The table after `pairCalls`, resized and compacted. -/
theorem htBare_rebuild_keeps_pair : ∃ t, runCalls pairCalls defaultTable = some t ∧
    (∃ t', htBareResize t 128 = some (true, t') ∧ EntriesKept t t') ∧
    ∃ t', htBareCompact t = some t' ∧ EntriesKept t t' := by
  have h : (runCalls pairCalls defaultTable).map (fun t =>
      (decide (t.mainLive ≤ 128), decide (Allocates t (resizeCapacity t)), resizeWalk noWrap t,
        decide (Allocates t t.capacity), compactWalk noWrap t,
        decide (liveCount t + t.overflow.length ≤ t.capacity))) =
      some (true, true, true, true, true, true) := by
    decide +kernel
  obtain ⟨t, hr, h⟩ := Option.map_eq_some_iff.mp h
  simp only [Prod.mk.injEq, decide_eq_true_eq] at h
  obtain ⟨hnew, hA, hw, hA', hw', hfit⟩ := h
  have hc : htBareCreate defaultCfg [] 0 = some defaultTable := by decide +kernel
  obtain ⟨hresize, hcompact⟩ := htBare_rebuild_keeps defaultCfg [] 0 pairCalls defaultTable t hc hr
  exact ⟨t, hr, hresize 128 hnew hA hw, hcompact hA' hw' (.inl hfit)⟩

/-! ## A distance that wraps -/

/-- An array of `n` slots with `k` entries of the hash `n`, one after the other from slot 0 on. -/
def rampMain (n k : ℕ) : List Slot :=
  (List.range k).map (fun i => ⟨n, i % 2 ^ 16, 0⟩) ++ List.replicate (n - k) Slot.emptySlot

/-- A configuration of capacity `2 ^ 18` with the greatest probe limit. -/
def rampCfg : HtConfig := { defaultCfg with initialCapacity := 2 ^ 18, maxProbeDist := 2 ^ 16 }

/-- The table of capacity `2 ^ 18` after `k` insertions of the hash `2 ^ 18`. -/
def ramp (k : ℕ) : HtBare :=
  { emptyTable rampCfg (2 ^ 18) (2 ^ 16 - 1) [] 0 with main := rampMain (2 ^ 18) k, size := k }

/-- The ramp has the length of the table. -/
lemma rampMain_length (hk : k ≤ n) : (rampMain n k).length = n := by
  unfold rampMain
  rw [List.length_append, List.length_map, List.length_range, List.length_replicate]
  omega

/-- The slots of the ramp. -/
lemma rampMain_slot (hm : t.main = rampMain n k) (j : ℕ) :
    t.slot j = if j < k then ⟨n, j % 2 ^ 16, 0⟩ else Slot.emptySlot := by
  unfold HtBare.slot
  rw [hm, List.getD_eq_getElem?_getD]
  unfold rampMain
  split
  · rename_i hj
    rw [List.getElem?_append_left (by rw [List.length_map, List.length_range]; exact hj),
      List.getElem?_map, List.getElem?_range hj]
    rfl
  · rename_i hj
    rw [List.getElem?_append_right (by rw [List.length_map, List.length_range]; omega)]
    by_cases hlt : j - ((List.range k).map fun i => (⟨n, i % 2 ^ 16, 0⟩ : Slot)).length < n - k
    · rw [List.getElem?_replicate_of_lt hlt]
      rfl
    · rw [List.getElem?_eq_none (by rw [List.length_replicate]; omega)]
      rfl

/-- The ramp gets one longer by its next slot. -/
lemma rampMain_succ (hk : k < n) :
    (rampMain n k).set k ⟨n, k % 2 ^ 16, 0⟩ = rampMain n (k + 1) := by
  obtain ⟨d, hd⟩ : ∃ d, n - k = d + 1 := ⟨n - k - 1, by omega⟩
  unfold rampMain
  rw [List.set_append_right _ _ (by rw [List.length_map, List.length_range]), List.length_map,
    List.length_range, Nat.sub_self, hd, List.replicate_succ, List.set_cons_zero, List.range_succ,
    List.map_append, List.append_assoc, show n - (k + 1) = d by omega]
  rfl

/-- An insertion passes every entry of the ramp and comes to rest behind the last. -/
lemma rhLoop_ramp {rz : HtBare → Option (Bool × HtBare)} {j : ℕ} (hm : t.main = rampMain n k)
    (hp : t.maxProbeDist = 2 ^ 16 - 1) (hn : 2 ^ 16 ≤ n) (hn' : n < 2 ^ 48) (hk : k < n)
    (hj : j ≤ k) (hf : k - j < m) :
    rhLoop rz m b t ⟨n, 0, j, j % 2 ^ 16⟩ =
      some (true, { t with main := rampMain n (k + 1), size := t.size + 1 }) := by
  have hcap : t.capacity = n := by
    unfold HtBare.capacity
    rw [hm, rampMain_length hk.le]
  have hlim : ∀ c : Carrier, c.dist < 2 ^ 16 → ¬ overLimit b t c := by
    rintro c hc ⟨-, -, hlt⟩
    omega
  induction m generalizing j with
  | zero => omega
  | succ m ih =>
    rw [rhLoop]
    rcases Nat.eq_or_lt_of_le hj with rfl | hlt
    · -- behind the last entry
      have hslot : t.slot j = Slot.emptySlot := by
        rw [rampMain_slot hm, if_neg (lt_irrefl j)]
      have hstep : rhStep b t ⟨n, 0, j, j % 2 ^ 16⟩ =
          .ret true { t.setSlot j (hpdPack n (j % 2 ^ 16) 0) with size := t.size + 1 } := by
        unfold rhStep
        simp only [hslot]
        rw [if_neg (by decide), if_neg (fun h => absurd h.1 (by decide)),
          if_neg (show ¬ Slot.emptySlot.Tomb by decide),
          if_neg (hlim _ (Nat.mod_lt _ (Nat.two_pow_pos 16)))]
      have hpack : hpdPack n (j % 2 ^ 16) 0 = ⟨n, j % 2 ^ 16, 0⟩ := by
        unfold hpdPack h48
        rw [Nat.mod_eq_of_lt hn', Nat.mod_mod]
      rw [hstep, hpack]
      unfold HtBare.setSlot
      rw [hm, rampMain_succ hk]
    · have hslot : t.slot j = ⟨n, j % 2 ^ 16, 0⟩ := by
        rw [rampMain_slot hm, if_pos hlt]
      have hadv : Carrier.advance t ⟨n, 0, j, j % 2 ^ 16⟩ = ⟨n, 0, j + 1, (j + 1) % 2 ^ 16⟩ := by
        unfold Carrier.advance
        simp only
        rw [hcap, Nat.mod_eq_of_lt (show j + 1 < n by omega), Nat.mod_add_mod]
      have hlive : (⟨n, j % 2 ^ 16, 0⟩ : Slot).Live := by
        show 2 ≤ n
        omega
      have h16 := Nat.mod_lt (j + 1) (Nat.two_pow_pos 16)
      have hstep : rhStep b t ⟨n, 0, j, j % 2 ^ 16⟩ = .go t ⟨n, 0, j + 1, (j + 1) % 2 ^ 16⟩ := by
        unfold rhStep
        simp only [hslot]
        rw [if_pos hlive, if_neg (lt_irrefl _), hadv, if_neg (hlim _ h16), if_neg]
        rw [hcap]
        show ¬ (j + 1) % 2 ^ 16 > n
        omega
      rw [hstep]
      exact ih hlt (by omega)

/-- One insertion. -/
lemma bareRhInsertBounded_ramp {rz : HtBare → Option (Bool × HtBare)} (hm : t.main = rampMain n k)
    (hp : t.maxProbeDist = 2 ^ 16 - 1) (hn : 2 ^ 16 ≤ n) (hn' : n < 2 ^ 48) (hk : k < n) :
    bareRhInsertBounded rz t n 0 =
      some (true, { t with main := rampMain n (k + 1), size := t.size + 1 }) := by
  have hcap : t.capacity = n := by
    unfold HtBare.capacity
    rw [hm, rampMain_length hk.le]
  have hstart : Carrier.start t n 0 = ⟨n, 0, 0, 0 % 2 ^ 16⟩ := by
    unfold Carrier.start
    rw [hcap, Nat.mod_self]
    rfl
  unfold bareRhInsertBounded
  rw [if_neg (by omega), hstart]
  refine rhLoop_ramp hm hp hn hn' hk (Nat.zero_le k) ?_
  have hle : n + 1 ≤ (n + 1) ^ 3 := Nat.le_self_pow (by decide) (n + 1)
  unfold rhFuel
  rw [hcap]
  omega

/-- The insertions of a rebuild. -/
lemma reinsert_ramp {rz : HtBare → Option (Bool × HtBare)} (m : ℕ) (hm : t.main = rampMain n k)
    (hp : t.maxProbeDist = 2 ^ 16 - 1) (hn : 2 ^ 16 ≤ n) (hn' : n < 2 ^ 48) (hk : k + m ≤ n) :
    reinsert rz t (List.replicate m (n, 0)) =
      some { t with main := rampMain n (k + m), size := t.size + m } := by
  induction m generalizing t k with
  | zero =>
    rw [List.replicate_zero, reinsert, Nat.add_zero, Nat.add_zero, ← hm]
  | succ m ih =>
    rw [List.replicate_succ, reinsert, bareRhInsertBounded_ramp hm hp hn hn' (by omega)]
    have hrest := ih (t := { t with main := rampMain n (k + 1), size := t.size + 1 }) (k := k + 1)
      rfl hp (by omega)
    simp only at hrest ⊢
    rw [hrest, Nat.add_right_comm k 1 m, Nat.add_right_comm t.size 1 m]
    rfl

/-- The ramp holds one hash, as often as it is long. -/
lemma liveEntries_ramp (hn : 2 ≤ n) : liveEntries (rampMain n k) = List.replicate k (n, 0) := by
  unfold liveEntries rampMain
  rw [List.filterMap_append, List.filterMap_map]
  have hone : (Slot.entry ∘ fun i => (⟨n, i % 2 ^ 16, 0⟩ : Slot)) = some ∘ fun _ => (n, 0) :=
    funext fun i => if_pos hn
  have hnone : Slot.entry Slot.emptySlot = none := rfl
  rw [hone, List.filterMap_eq_map, List.map_const', List.length_range,
    List.filterMap_replicate, hnone, List.append_nil]

/-- The insertions of a run. -/
lemma runCalls_ramp (hk : k ≤ 2 ^ 17) :
    runCalls (List.replicate k (.op (.insert (2 ^ 18) 0))) (ramp 0) = some (ramp k) := by
  induction k with
  | zero => rfl
  | succ k ih =>
    rw [List.replicate_succ', runCalls_append, ih (by omega), Option.bind_some]
    have hcap : (ramp k).capacity = 2 ^ 18 := rampMain_length (by omega)
    have hh : h48 (2 ^ 18) = 2 ^ 18 := Nat.mod_eq_of_lt (by decide)
    have hcalm : ¬ overLoaded (ramp k) := by
      rintro ⟨-, hgt⟩
      rw [hcap] at hgt
      have hlive : (ramp k).mainLive = k := rfl
      have hfactor : (ramp k).maxLoadFactor = 3 / 4 := by
        show clampLoadFactor (3 / 4) = 3 / 4
        unfold clampLoadFactor
        norm_num
      rw [hlive, hfactor, gt_iff_lt, lt_div_iff₀ (by positivity)] at hgt
      have hle : ((k + 1 : ℕ) : ℚ) ≤ 2 ^ 17 := by exact_mod_cast hk
      push_cast at hgt hle
      linarith
    have hins := (@htBareInsert_calm _ (2 ^ 18) 0) (by decide) (by rw [hh]; decide) hcalm rfl
    rw [hh, bareRhInsertBounded_ramp (t := ramp k) (n := 2 ^ 18) rfl rfl (by decide) (by decide)
      (by omega)] at hins
    rw [runCalls, BareCall.run, BareOp.run, hins]
    rfl

/-- A tombstone is planted in no live slot. -/
lemma plantTombs_live {ps : List ℕ} {i : ℕ} (hl : (t.slot i).Live) :
    (ps.foldl plantTomb t).slot i = t.slot i := by
  induction ps generalizing t with
  | nil => rfl
  | cons p ps ih =>
    have hone : (plantTomb t p).slot i = t.slot i := by
      unfold plantTomb
      split
      · rename_i he
        show (t.setSlot p Slot.tombSlot).slot i = _
        by_cases hp : p < t.capacity
        · rw [HtBare.slot_setSlot _ hp, if_neg]
          rintro rfl
          exact hl.not_empty he
        · rw [HtBare.setSlot_of_le _ (not_lt.mp hp)]
      · rfl
    rw [List.foldl_cons, ih (by rw [hone]; exact hl), hone]

/-- The rebuild of a ramp. -/
lemma rebuild_ramp {rz : HtBare → Option (Bool × HtBare)} (hm : t.main = rampMain n k)
    (hs : t.spill = []) (ho : t.overflow = []) (hp : t.maxProbeDist = 2 ^ 16 - 1) (hn : 2 ^ 16 ≤ n)
    (hn' : n < 2 ^ 48) (hk : k ≤ n) :
    ∃ t', rebuild rz t n = some t' ∧ t'.capacity = n ∧
      ∀ i, i < k → t'.slot i = ⟨n, i % 2 ^ 16, 0⟩ := by
  have hfresh : (freshBlocks t n).main = rampMain n 0 := rfl
  have hmain := (@reinsert_ramp _ _ _ rz) k hfresh hp hn hn' (by omega)
  rw [Nat.zero_add] at hmain
  let t₁ : HtBare :=
    { freshBlocks t n with main := rampMain n k, size := (freshBlocks t n).size + k }
  have hslot : ∀ i, i < k → t₁.slot i = ⟨n, i % 2 ^ 16, 0⟩ := by
    intro i hi
    rw [rampMain_slot (t := t₁) rfl, if_pos hi]
  refine ⟨barePlaceProphylacticTombstones t₁, ?_, ?_, fun i hi => ?_⟩
  · unfold rebuild bareReinsertMain
    rw [hm, liveEntries_ramp (by omega), hmain, hs, ho]
    rfl
  · have hlen : ∀ ps : List ℕ, ∀ t : HtBare, (ps.foldl plantTomb t).capacity = t.capacity := by
      intro ps
      induction ps with
      | nil => exact fun _ => rfl
      | cons p ps ih =>
        intro t
        rw [List.foldl_cons, ih]
        unfold plantTomb
        split
        · exact HtBare.capacity_setSlot t p _
        · rfl
    exact (hlen _ t₁).trans (rampMain_length hk)
  · unfold barePlaceProphylacticTombstones
    rw [plantTombs_live, hslot i hi]
    rw [hslot i hi]
    show 2 ≤ n
    omega

/-- A resize of a table with 65537 entries of one hash stores the distance 65536 as 0, and the check
fails. -/
theorem htBare_rebuild_keeps_fails : ∃ t₀ t, htBareCreate rampCfg [] 0 = some t₀ ∧
    runCalls (List.replicate (2 ^ 16 + 1) (.op (.insert (2 ^ 18) 0))) t₀ = some t ∧
    t.mainLive ≤ 2 ^ 18 ∧ Allocates t (resizeCapacity t) ∧
    ¬ ∃ t', htBareResize t (2 ^ 18) = some (true, t') ∧ EntriesKept t t' := by
  have hc : htBareCreate rampCfg [] 0 = some (ramp 0) := by
    have hcap : nextPow2 (max (2 ^ 18) 4) = 2 ^ 18 := by decide
    show (if nextPow2 (max (2 ^ 18) 4) > sizeMax / 12 then none else
      some (emptyTable rampCfg (nextPow2 (max (2 ^ 18) 4)) (2 ^ 16 - 1) [] 0)) = _
    rw [hcap, if_neg (by decide)]
    rfl
  have hr := runCalls_ramp (k := 2 ^ 16 + 1) (by decide)
  have hB := runCalls_books (htBareCreate_books hc) hr
  have hsize : (ramp (2 ^ 16 + 1)).size = 2 ^ 16 + 1 := rfl
  have hcap : resizeCapacity (ramp (2 ^ 16 + 1)) = 2 ^ 18 := by
    unfold resizeCapacity
    rw [hsize]
    decide
  have halloc : bareAllocMainBlock (ramp (2 ^ 16 + 1)) (2 ^ 18) = (true, ramp (2 ^ 16 + 1)) := by
    unfold bareAllocMainBlock
    rw [if_neg (by decide)]
    exact malloc_nil rfl
  have hmem : malloc (ramp (2 ^ 16 + 1)) = (true, ramp (2 ^ 16 + 1)) := malloc_nil rfl
  have hlive : (ramp (2 ^ 16 + 1)).mainLive = 2 ^ 16 + 1 := rfl
  refine ⟨_, _, hc, hr, ?_, ?_, ?_⟩
  · rw [hlive]
    decide
  · unfold Allocates
    rw [hcap, halloc, hmem]
    exact ⟨rfl, rfl⟩
  rintro ⟨t', hres, hre⟩
  have hB' := (htBareResize_books hB hres).1
  unfold htBareResize at hres
  rw [hlive, if_neg (by decide)] at hres
  rcases bareResizeTable_cases hres with ⟨hf, -⟩ | ⟨-, -, -, t₁, hb, rfl⟩
  · cases hf
  rw [hcap, halloc, hmem] at hb
  obtain ⟨_, hb', hcap₁, hslot⟩ := rebuild_ramp (n := 2 ^ 18) (k := 2 ^ 16 + 1)
    (t := { ramp (2 ^ 16 + 1) with resizing := true }) rfl rfl rfl rfl (by decide) (by decide)
    (by decide)
  rw [hb'] at hb
  cases hb
  -- the entry at distance 65536
  have hS := (htBareCheckInvariants_iff hB').mp hre.checked
  have hlast : t₁.slot (2 ^ 16) = ⟨2 ^ 18, 0, 0⟩ := by
    rw [hslot (2 ^ 16) (Nat.lt_succ_self _), Nat.mod_self]
  have hideal : ((t₁.slot (2 ^ 16)).hash + (t₁.slot (2 ^ 16)).pd) % t₁.capacity = 2 ^ 16 := by
    refine (hS.slots (2 ^ 16) ?_ ?_).ideal
    · show 2 ^ 16 < t₁.capacity
      rw [hcap₁]
      decide
    · show (t₁.slot (2 ^ 16)).Live
      rw [hlast]
      decide
  rw [hlast, hcap₁] at hideal
  revert hideal
  decide

end Draugr
