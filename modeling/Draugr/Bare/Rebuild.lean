import Draugr.Bare.Insert
import Draugr.Bare.Find

/-!
# Rebuilding the bare index

`bare_resize_table` and `ht_bare_compact` move every entry into fresh blocks: the main array through
`bare_rh_insert_bounded`, the spill lane by appending (its new block is large enough, so nothing is
allocated on the way), the overflow stash through `bare_rh_insert_bounded` again, and prophylactic
tombstones into the gaps at the end. `rebuild_keeps` is that the entries are kept, given that the
loop heads of all these insertions are safe; resize, compaction and insertion follow from it.
-/

namespace Draugr
open Lib

variable {n : ℕ} {t t' : HtBare}

/-- A table between two operations, all later allocations succeeding. -/
structure Ready (t : HtBare) : Prop where
  sound : ∃ n, Sound n t
  cap : t.capacity ≤ sizeMax / 12
  size : t.size = t.contents.card
  mem : t.mem = []
  resizing : t.resizing = false

/-- The fields a rebuild carries over. -/
structure Carried (t t' : HtBare) : Prop where
  resizing : t'.resizing = t.resizing
  maxLoadFactor : t'.maxLoadFactor = t.maxLoadFactor
  minLoadFactor : t'.minLoadFactor = t.minLoadFactor
  maxProbeDist : t'.maxProbeDist = t.maxProbeDist
  mem : t'.mem = t.mem

/-- A frame carries the configuration over. -/
lemma Frame.carried (h : Frame t t') : Carried t t' :=
  ⟨h.resizing, h.maxLoadFactor, h.minLoadFactor, h.maxProbeDist, h.mem⟩

/-- Two steps that carry the configuration over. -/
lemma Carried.trans {t'' : HtBare} (h : Carried t t') (h' : Carried t' t'') : Carried t t'' :=
  ⟨h'.resizing.trans h.resizing, h'.maxLoadFactor.trans h.maxLoadFactor,
    h'.minLoadFactor.trans h.minLoadFactor, h'.maxProbeDist.trans h.maxProbeDist,
    h'.mem.trans h.mem⟩

/-! ## The spill lane -/

/-- Appending to the spill lane adds an entry to the contents. -/
lemma contents_spill_append (t : HtBare) (es : List (ℕ × ℕ)) (k c : ℕ) :
    ({ t with spill := t.spill ++ es, size := k, spillCap := c } : HtBare).contents =
      (es : Multiset (ℕ × ℕ)) + t.contents := by
  unfold HtBare.contents
  simp only [← Multiset.coe_add]
  abel

/-- A table stays sound when entries with small hashes are appended to the spill lane. -/
lemma Sound.spill_append (hS : Sound n t) {es : List (ℕ × ℕ)}
    (hes : ∀ e ∈ es, e.1 < 2 ∧ e.2 ≠ valNone) (k c : ℕ) :
    Sound n { t with spill := t.spill ++ es, size := k, spillCap := c } := by
  refine ⟨hS.pos, hS.cap, hS.reach, hS.slots, hS.limit, ?_, hS.overflow, ?_⟩
  · intro e he
    rcases List.mem_append.mp he with h | h
    · exact hS.spill e h
    · exact (hes e h).1
  · intro e he
    rw [contents_spill_append, Multiset.mem_add] at he
    rcases he with h | h
    · exact (hes e h).2
    · exact hS.vals e h

/-- `bare_reinsert_spill` into a lane with room appends the entries. -/
lemma bareReinsertSpill_eq {es : List (ℕ × ℕ)} (hes : ∀ e ∈ es, e.1 < 2 ∧ e.2 ≠ valNone)
    (hroom : t.spill.length + es.length ≤ t.spillCap) :
    bareReinsertSpill t es = { t with spill := t.spill ++ es, size := t.size + es.length } := by
  induction es generalizing t with
  | nil => simp [bareReinsertSpill]
  | cons e es ih =>
    obtain ⟨hsmall, hval⟩ := hes e List.mem_cons_self
    rw [List.length_cons] at hroom
    have hh : h48 e.1 = e.1 := Nat.mod_eq_of_lt (by omega)
    have hone : bareReinsertSpill t (e :: es) =
        bareReinsertSpill { t with spill := t.spill ++ [e], size := t.size + 1 } es := by
      unfold bareReinsertSpill
      rw [List.foldl_cons, if_neg hval, bareSpillInsert, if_neg (by omega), hh]
    rw [hone, ih (fun e he => hes e (List.mem_cons_of_mem _ he)) (by simp; omega)]
    simp only [List.append_assoc, List.singleton_append, List.length_cons]
    congr 1
    omega

/-! ## Prophylactic tombstones -/

/-- A prophylactic tombstone keeps the table sound, with the same entries. -/
lemma plantTomb_keeps (hS : Sound n t) {pos : ℕ} (hp : pos < n) :
    Sound n (plantTomb t pos) ∧ (plantTomb t pos).contents = t.contents ∧
      (plantTomb t pos).size = t.size ∧ Frame t (plantTomb t pos) := by
  have : NeZero n := ⟨hS.pos.ne'⟩
  unfold plantTomb
  split
  · rename_i hempty
    refine ⟨?_, ?_, rfl, ⟨rfl, rfl, rfl, rfl, rfl, rfl, rfl⟩⟩
    · refine Sound.congr (t := t.setSlot pos Slot.tombSlot) ?_ rfl rfl rfl rfl rfl
      refine hS.write hp ?_ ?_ ?_ ?_
      · rw [Slot.cell_tomb Slot.tombSlot_tomb]
        exact hS.reach.bury _
      all_goals exact fun h => absurd h Slot.tombSlot_tomb.not_live
    · exact HtBare.contents_dead (t := t) (s := Slot.tombSlot) (by rw [hS.cap]; exact hp)
        hempty.not_live Slot.tombSlot_tomb.not_live
  · exact ⟨hS, rfl, rfl, Frame.refl t⟩

/-- Prophylactic tombstones keep the table sound, with the same entries. -/
lemma plantTombs_keep {ps : List ℕ} (hS : Sound n t) (hps : ∀ p ∈ ps, p < n) :
    Sound n (ps.foldl plantTomb t) ∧ (ps.foldl plantTomb t).contents = t.contents ∧
      (ps.foldl plantTomb t).size = t.size ∧ Frame t (ps.foldl plantTomb t) := by
  induction ps generalizing t with
  | nil => exact ⟨hS, rfl, rfl, Frame.refl t⟩
  | cons p ps ih =>
    obtain ⟨hS₁, hcon₁, hsz₁, hF₁⟩ := plantTomb_keeps hS (hps p List.mem_cons_self)
    obtain ⟨hS₂, hcon₂, hsz₂, hF₂⟩ := ih hS₁ fun q hq => hps q (List.mem_cons_of_mem _ hq)
    exact ⟨hS₂, hcon₂.trans hcon₁, hsz₂.trans hsz₁, hF₁.trans hF₂⟩

/-- The positions of `bare_place_prophylactic_tombstones` are slots. -/
lemma prophylactic_lt (t : HtBare) :
    ∀ p ∈ (List.range ((t.capacity + prophylacticSpacing t - 1) / prophylacticSpacing t)).map
      (· * prophylacticSpacing t), p < t.capacity := by
  intro p hp
  obtain ⟨i, hi, rfl⟩ := List.mem_map.mp hp
  rw [List.mem_range] at hi
  have hpos : 4 ≤ prophylacticSpacing t := Nat.le_max_left _ _
  have h1 : (i + 1) * prophylacticSpacing t ≤ t.capacity + prophylacticSpacing t - 1 :=
    (Nat.le_div_iff_mul_le (by omega)).mp hi
  rw [Nat.add_mul] at h1
  omega

/-- `bare_place_prophylactic_tombstones` keeps the table sound, with the same entries. -/
lemma barePlaceProphylacticTombstones_keeps (hS : Sound n t) :
    Sound n (barePlaceProphylacticTombstones t) ∧
      (barePlaceProphylacticTombstones t).contents = t.contents ∧
      (barePlaceProphylacticTombstones t).size = t.size ∧
      Frame t (barePlaceProphylacticTombstones t) :=
  plantTombs_keep hS (hS.cap ▸ prophylactic_lt t)

/-! ## The rebuild -/

/-- The entries of a table can be inserted again. -/
structure Storable (t : HtBare) : Prop where
  main : ∀ e ∈ liveEntries t.main, 2 ≤ e.1 ∧ e.1 < 2 ^ 48 ∧ e.2 ≠ valNone
  overflow : ∀ e ∈ t.overflow, 2 ≤ e.1 ∧ e.1 < 2 ^ 48 ∧ e.2 ≠ valNone
  spill : ∀ e ∈ t.spill, e.1 < 2 ∧ e.2 ≠ valNone

/-- The entries of the main array of a sound table can be inserted again. -/
lemma Sound.mem_main (hS : Sound n t) {e : ℕ × ℕ} (he : e ∈ liveEntries t.main) :
    2 ≤ e.1 ∧ e.1 < 2 ^ 48 ∧ e.2 ≠ valNone := by
  refine ⟨liveEntries_hash he, ?_, ?_⟩
  · obtain ⟨p, hp, hl, hh, _⟩ := exists_slot_of_mem (h := e.1) (v := e.2) hS.cap he
    rw [← hh]
    exact (hS.slots p hp hl).hash48
  · apply hS.vals
    unfold HtBare.contents
    simp [he]

/-- The entries of the overflow stash of a sound table can be inserted again. -/
lemma Sound.mem_overflow (hS : Sound n t) {e : ℕ × ℕ} (he : e ∈ t.overflow) :
    2 ≤ e.1 ∧ e.1 < 2 ^ 48 ∧ e.2 ≠ valNone := by
  obtain ⟨h2, h48⟩ := hS.overflow e he
  refine ⟨h2, h48, hS.vals e ?_⟩
  unfold HtBare.contents
  simp [he]

/-- The entries of the spill lane of a sound table can be inserted again. -/
lemma Sound.mem_spill (hS : Sound n t) {e : ℕ × ℕ} (he : e ∈ t.spill) :
    e.1 < 2 ∧ e.2 ≠ valNone := by
  refine ⟨hS.spill e he, hS.vals e ?_⟩
  unfold HtBare.contents
  simp [he]

/-- The entries of a sound table can be stored in another. -/
lemma Sound.storable (hS : Sound n t) : Storable t :=
  ⟨fun _ he => hS.mem_main he, fun _ he => hS.mem_overflow he, fun _ he => hS.mem_spill he⟩

/-- A rebuild with safe loop heads keeps every entry. -/
lemma rebuild_keeps {rz : HtBare → Option (Bool × HtBare)} {m : ℕ} (hS : Storable t) (hm : 0 < m)
    (hw : rebuildWalk headSafe rz t m = true) :
    ∃ t', rebuild rz t m = some t' ∧ Sound m t' ∧ t'.contents = t.contents ∧
      t'.size = t.contents.card ∧ Carried t t' := by
  rw [rebuildWalk, Bool.and_eq_true] at hw
  obtain ⟨hw₁, hw₂⟩ := hw
  have hfresh : Sound m (freshBlocks t m) := Sound.of_fresh hm rfl rfl rfl
  have hzero : (freshBlocks t m).contents = 0 := contents_fresh rfl rfl rfl
  obtain ⟨t₁, hr₁, hS₁, hF₁, hcon₁, hsz₁⟩ := reinsert_inserts hfresh hS.main hw₁
  have hrm : bareReinsertMain rz (freshBlocks t m) t.main = some t₁ := hr₁
  rw [hrm] at hw₂
  have hsp : bareReinsertSpill t₁ t.spill =
      { t₁ with spill := t₁.spill ++ t.spill, size := t₁.size + t.spill.length } := by
    refine bareReinsertSpill_eq hS.spill ?_
    rw [hF₁.spill, hF₁.spillCap]
    simp [freshBlocks]
  have hS₂ : Sound m (bareReinsertSpill t₁ t.spill) := by
    rw [hsp]
    exact hS₁.spill_append hS.spill _ t₁.spillCap
  have hcon₂ :
      (bareReinsertSpill t₁ t.spill).contents = (t.spill : Multiset (ℕ × ℕ)) + t₁.contents := by
    rw [hsp]
    exact contents_spill_append t₁ t.spill _ t₁.spillCap
  obtain ⟨t₃, hr₃, hS₃, hF₃, hcon₃, hsz₃⟩ := reinsert_inserts hS₂ hS.overflow hw₂
  obtain ⟨hS₄, hcon₄, hsz₄, hF₄⟩ := barePlaceProphylacticTombstones_keeps hS₃
  refine ⟨barePlaceProphylacticTombstones t₃, ?_, hS₄, ?_, ?_, ?_⟩
  · unfold rebuild
    rw [hrm]
    show (reinsert rz (bareReinsertSpill t₁ t.spill) t.overflow >>= fun t₃ => _) = _
    rw [hr₃]
    rfl
  · rw [hcon₄, hcon₃, hcon₂, hcon₁, hzero]
    unfold HtBare.contents
    abel
  · have hsz₂ : (bareReinsertSpill t₁ t.spill).size = t₁.size + t.spill.length := by rw [hsp]
    rw [hsz₄, hsz₃, hsz₂, hsz₁]
    simp [HtBare.contents, freshBlocks]
    omega
  · have h₂ : Carried t₁ (bareReinsertSpill t₁ t.spill) := by
      rw [hsp]
      exact ⟨rfl, rfl, rfl, rfl, rfl⟩
    have h₀ : Carried t (freshBlocks t m) := ⟨rfl, rfl, rfl, rfl, rfl⟩
    exact (((h₀.trans hF₁.carried).trans h₂).trans hF₃.carried).trans hF₄.carried

/-- The capacity asked for by a resize is positive. -/
lemma resizeCapacity_pos (t : HtBare) : 0 < resizeCapacity t := by
  unfold resizeCapacity
  omega

/-- The block that `bare_resize_table` asks for has a size that fits a `size_t`, and the loop heads
of the resize are safe. -/
def resizeSafe (t : HtBare) : Bool :=
  decide (resizeCapacity t ≤ sizeMax / 12) && resizeWalk headSafe t

/-- With `mem` empty an allocation succeeds. -/
lemma malloc_nil (hm : t.mem = []) : malloc t = (true, t) := by
  unfold malloc
  rw [hm]

/-- `bare_resize_table` keeps every entry. -/
lemma bareResizeTable_keeps (hR : Ready t) (hw : resizeSafe t = true) :
    ∃ t', bareResizeTable t = some (true, t') ∧ Ready t' ∧ t'.contents = t.contents := by
  rw [resizeSafe, Bool.and_eq_true] at hw
  obtain ⟨hcap, hw⟩ := hw
  have hcap : resizeCapacity t ≤ sizeMax / 12 := of_decide_eq_true hcap
  have halloc : bareAllocMainBlock t (resizeCapacity t) = (true, t) := by
    rw [bareAllocMainBlock, if_neg (not_lt.mpr hcap), malloc_nil hR.mem]
  rw [resizeWalk, hR.resizing, Bool.false_or, halloc] at hw
  simp only [malloc_nil hR.mem] at hw
  obtain ⟨n, hS⟩ := hR.sound
  have hS' : Sound n { t with resizing := true } := hS.congr rfl rfl rfl rfl rfl
  obtain ⟨t', hr, hS'', hcon, hsz, hC⟩ := rebuild_keeps hS'.storable (resizeCapacity_pos t) hw
  have hsize : ¬ t.size > sizeMax / 2 := by
    intro hbig
    have hle : t.size * 2 ≤ resizeCapacity t := by
      unfold resizeCapacity nextPow2
      rw [if_neg (by unfold sizeMax at hbig; omega), if_neg (by unfold sizeMax at hbig; omega)]
      exact Nat.le_max_left _ _
    unfold sizeMax at hbig hcap
    omega
  refine ⟨{ t' with resizing := false }, ?_, ⟨⟨_, hS''.congr rfl rfl rfl rfl rfl⟩, ?_, ?_, ?_, rfl⟩,
    hcon⟩
  · unfold bareResizeTable
    rw [if_neg (by rw [hR.resizing]; exact Bool.false_ne_true), if_neg hsize]
    have hmax : max (nextPow2 (t.size * 2)) 4 = resizeCapacity t := rfl
    simp only [hmax, halloc, malloc_nil hR.mem, hr]
  · exact hS''.cap.trans_le hcap
  · exact hsz.trans (congrArg Multiset.card hcon.symm)
  · exact hC.mem.trans hR.mem

/-- `ht_bare_resize` keeps every entry. -/
lemma htBareResize_keeps (hR : Ready t) (newCapacity : ℕ)
    (hw : ¬ newCapacity < t.mainLive → resizeSafe t = true) :
    ∃ ok t', htBareResize t newCapacity = some (ok, t') ∧ Ready t' ∧ t'.contents = t.contents ∧
      (¬ newCapacity < t.mainLive → ok = true) := by
  unfold htBareResize
  split
  · rename_i hlt
    exact ⟨false, t, rfl, hR, rfl, fun h => absurd hlt h⟩
  · rename_i hge
    obtain ⟨t', hr, hR', hcon⟩ := bareResizeTable_keeps hR (hw hge)
    exact ⟨true, t', hr, hR', hcon, fun _ => rfl⟩

/-- `ht_bare_compact` keeps every entry. -/
lemma htBareCompact_keeps (hR : Ready t)
    (hw : compactWalk headSafe t = true) :
    ∃ t', htBareCompact t = some t' ∧ Ready t' ∧ t'.contents = t.contents := by
  obtain ⟨n, hS⟩ := hR.sound
  have halloc : bareAllocMainBlock t t.capacity = (true, t) := by
    rw [bareAllocMainBlock, if_neg (not_lt.mpr hR.cap), malloc_nil hR.mem]
  unfold compactWalk at hw
  rw [halloc] at hw
  simp only [malloc_nil hR.mem] at hw
  unfold htBareCompact
  rw [halloc]
  simp only [malloc_nil hR.mem]
  obtain ⟨t', hr, hS', hcon, hsz, hC⟩ := rebuild_keeps hS.storable (by rw [hS.cap]; exact hS.pos) hw
  exact ⟨t', hr, ⟨⟨_, hS'⟩, hS'.cap.trans_le hR.cap, hsz.trans (congrArg _ hcon.symm),
    hC.mem.trans hR.mem, hC.resizing.trans hR.resizing⟩, hcon⟩

/-! ## Insertion -/

/-- The main array has at most as many entries as slots. -/
lemma Ready.mainLive_le (hR : Ready t) : t.mainLive ≤ t.capacity := by
  have hcard :
      t.contents.card = (liveEntries t.main).length + t.spill.length + t.overflow.length := by
    unfold HtBare.contents
    simp
    omega
  have hlen : (liveEntries t.main).length ≤ t.capacity := List.length_filterMap_le _ _
  unfold HtBare.mainLive
  have := hR.size
  omega

/-- The resize that `ht_bare_insert` asks for when the table is full is made. -/
lemma htBareResize_double (hR : Ready t) {newCapacity : ℕ} (hn : t.capacity ≤ newCapacity)
    (hw : resizeSafe t = true) :
    ∃ t', htBareResize t newCapacity = some (true, t') ∧ Ready t' ∧ t'.contents = t.contents := by
  have hge : ¬ newCapacity < t.mainLive := by
    have := hR.mainLive_le
    omega
  obtain ⟨ok, t', hr, hR', hcon, hok⟩ := htBareResize_keeps hR newCapacity fun _ => hw
  rw [hok hge] at hr
  exact ⟨t', hr, hR', hcon⟩

/-- The resizes at the start of `ht_bare_insert` keep every entry. -/
lemma insertPrepare_keeps (hR : Ready t) (hw : prepareWalk resizeSafe t = true) :
    ∃ t', insertPrepare t = some (true, t') ∧ Ready t' ∧ t'.contents = t.contents := by
  rw [prepareWalk, Bool.and_eq_true] at hw
  obtain ⟨hw₁, hw₂⟩ := hw
  have hsmall : ∀ {t : HtBare}, Ready t → ¬ t.capacity > sizeMax / 2 := by
    intro t hR
    have := hR.cap
    unfold sizeMax at *
    omega
  -- the first resize, on account of the load factor
  obtain ⟨t₁, hr₁, hR₁, hcon₁⟩ : ∃ t₁, loadResize t = some (true, t₁) ∧ Ready t₁ ∧
      t₁.contents = t.contents := by
    unfold loadResize
    split
    · rename_i hover
      rw [if_neg (hsmall hR)]
      refine htBareResize_double hR (by omega) ?_
      rw [Bool.or_eq_true] at hw₁
      rcases hw₁ with h | h
      · exact absurd hover (of_decide_eq_false (by simpa using h))
      · exact h
    · exact ⟨t, rfl, hR, rfl⟩
  rw [hr₁] at hw₂
  unfold insertPrepare
  rw [hr₁]
  simp only
  -- the second one, on account of the full overflow stash
  split
  · rename_i hfull
    have hcap : t₁.capacity ≤ t₁.capacity * 2 % 2 ^ 64 := by
      have := hR₁.cap
      unfold sizeMax at this
      rw [Nat.mod_eq_of_lt (by omega)]
      omega
    obtain ⟨t', hr, hR', hcon⟩ := htBareResize_double hR₁ hcap (by simpa [hfull.2] using hw₂)
    exact ⟨t', hr, hR', hcon.trans hcon₁⟩
  · exact ⟨t₁, rfl, hR₁, hcon₁⟩

end Draugr
