import Draugr.Bare.Books

/-!
# The load factor

`ht_bare_insert` asks for a resize when the main array would exceed the load factor, and passes
`capacity * 2`; `ht_bare_resize` only checks that number and rebuilds the table with the capacity
that suits its size. So a resize need not make room: `Enlarges` says when it does. An insertion all
of whose resizes do keeps to the load factor (`htBareInsert_room`), a load factor of at least 3/4
makes every resize do so, and below 3/4 three insertions suffice to exceed it.
-/

namespace Draugr
open Lib

/-- One more entry fits the load factor of the main array. -/
def Room (t : HtBare) : Prop :=
  ((liveCount t + 1 : ℕ) : ℚ) ≤ t.maxLoadFactor * t.capacity ∨ liveCount t = 0

/-- One more entry fits the load factor after a resize, if every entry of the overflow stash moves
to the main array. -/
def Enlarges (t : HtBare) : Prop :=
  ((t.size - t.spill.length + 1 : ℕ) : ℚ) ≤ t.maxLoadFactor * resizeCapacity t ∨
    t.size = t.spill.length

instance (t : HtBare) : Decidable (Enlarges t) := inferInstanceAs (Decidable (_ ∨ _))

/-- Every resize of the insertion loop enlarges the table. -/
def loopEnlarges : ℕ → Bool → HtBare → Carrier → Bool
  | 0, _, _, _ => true
  | n + 1, bounded, t, c =>
    match rhStep bounded t c with
    | .ret _ _ => true
    | .go t c => loopEnlarges n bounded t c
    | .unbounded t c => loopEnlarges n false t (.start t c.hash c.val)
    | .resize t c =>
      decide (Enlarges t) &&
        match bareResizeTable t with
        | some (true, t) => loopEnlarges n bounded t (.start t c.hash c.val)
        | _ => true

/-- Every resize of `ht_bare_insert` enlarges the table. -/
def insertEnlarges (t : HtBare) (hash val : ℕ) : Bool :=
  prepareWalk (fun t => decide (Enlarges t)) t &&
    match insertPrepare t with
    | some (true, t) => loopEnlarges (rhFuel t) true t (.start t (h48 hash) val)
    | _ => true

/-- The main array keeps to the load factor `q`, or holds a single entry. -/
def LoadKept (q : ℚ) (t : HtBare) : Prop :=
  (liveCount t : ℚ) ≤ q * t.capacity ∨ liveCount t = 1

instance (q : ℚ) (t : HtBare) : Decidable (LoadKept q t) := inferInstanceAs (Decidable (_ ∨ _))

variable {k m : ℕ} {b ok : Bool} {t t' : HtBare} {c : Carrier}

/-! ## What a resize leaves in the main array -/

/-- An insertion whose own resizes are refused adds at most one live slot. -/
lemma rhLoop_grew {fuel : ℕ} (hC : Carry b t c)
    (hr : rhLoop nestedResize fuel b t c = some (ok, t')) : Grew 1 t t' := by
  induction fuel generalizing b t c with
  | zero => cases hr
  | succ fuel ih =>
    have hstep := rhStep_books hC
    rw [rhLoop] at hr
    cases hs : rhStep b t c with
    | ret ok' t₁ =>
      rw [hs] at hstep hr
      cases hr
      exact hstep.2
    | go t₁ c₁ =>
      rw [hs] at hstep hr
      exact hstep.2.trans (ih hstep.1 hr)
    | unbounded t₁ c₁ =>
      rw [hs] at hstep hr
      obtain ⟨hB₁, hentry, hg⟩ := hstep
      exact hg.trans (ih (Carry.start hB₁ hentry) hr)
    | resize t₁ c₁ =>
      rw [hs] at hstep hr
      simp only at hr
      have hz : nestedResize t₁ = some (false, t₁) ∨ nestedResize t₁ = none := by
        unfold nestedResize
        split
        · exact .inl rfl
        · exact .inr rfl
      rcases hz with hz | hz
      · rw [hz] at hr
        cases hr
        exact hstep.2.2.mono (Nat.zero_le 1)
      · rw [hz] at hr
        cases hr

/-- A list of insertions adds at most its length. -/
lemma reinsert_grew {es : List (ℕ × ℕ)} (hB : Books t) (hes : ∀ e ∈ es, EntryFormed e.1 e.2)
    (hr : reinsert nestedResize t es = some t') : Grew es.length t t' := by
  induction es generalizing t with
  | nil =>
    cases hr
    exact Grew.refl _
  | cons e es ih =>
    rw [reinsert] at hr
    cases hi : bareRhInsertBounded nestedResize t e.1 e.2 with
    | none =>
      rw [hi] at hr
      cases hr
    | some r =>
      rw [hi] at hr
      have hentry := hes e List.mem_cons_self
      have hB₁ := (bareRhInsertBounded_books nestedResize_books hB hentry hi).1
      unfold bareRhInsertBounded at hi
      rw [if_neg hB.capacity_pos.ne'] at hi
      have hg := (rhLoop_grew (Carry.start hB hentry) hi).trans
        (ih hB₁ (fun e he => hes e (List.mem_cons_of_mem _ he)) hr)
      rwa [Nat.add_comm] at hg

/-- The number of live slots. -/
lemma liveEntries_length (t : HtBare) : (liveEntries t.main).length = liveCount t := by
  unfold liveEntries liveCount
  rw [List.length_filterMap_eq_countP]
  refine List.countP_congr fun s _ => ?_
  unfold Slot.entry
  by_cases h : s.Live <;> simp [h]

/-- The main array after a rebuild. -/
lemma rebuild_live (hF : Formed t) (hm : ∃ k, m = 2 ^ k) (hr : rebuild nestedResize t m = some t') :
    t'.capacity = m ∧ liveCount t' ≤ liveCount t + t.overflow.length := by
  unfold rebuild at hr
  obtain ⟨t₁, h₁, hr⟩ := Option.bind_eq_some_iff.mp hr
  obtain ⟨t₃, h₃, hr⟩ := Option.bind_eq_some_iff.mp hr
  cases hr
  have hB₀ : Books (freshBlocks t m) := .of_fresh hm rfl rfl rfl rfl rfl
  have hlive : ∀ e ∈ liveEntries t.main, EntryFormed e.1 e.2 := fun _ he => hF.live he
  have hg₁ := reinsert_grew hB₀ hlive h₁
  have hB₁ := (reinsert_books nestedResize_books hB₀ hlive h₁).1
  obtain ⟨hB₂, -, hmain⟩ := bareReinsertSpill_books hB₁ fun e he => (hF.spill e he).1
  have hg₃ := reinsert_grew hB₂ hF.overflow h₃
  have hB₃ := (reinsert_books nestedResize_books hB₂ hF.overflow h₃).1
  have hg₄ := (barePlaceProphylacticTombstones_books hB₃).2
  have hcap₂ : (bareReinsertSpill t₁ t.spill).capacity = t₁.capacity := congrArg List.length hmain
  have hlive₂ : liveCount (bareReinsertSpill t₁ t.spill) = liveCount t₁ := by
    unfold liveCount
    rw [hmain]
  have hcap₀ : (freshBlocks t m).capacity = m := List.length_replicate
  have hlive₀ : liveCount (freshBlocks t m) = 0 := by
    unfold liveCount freshBlocks
    rw [List.countP_replicate]
    rfl
  constructor
  · rw [hg₄.cap, hg₃.cap, hcap₂, hg₁.cap, hcap₀]
  · have h1 := hg₁.live
    have h3 := hg₃.live
    have h4 := hg₄.live
    rw [liveEntries_length] at h1
    omega

/-- A resize that enlarges leaves room. -/
lemma bareResizeTable_room (hB : Books t) (he : Enlarges t)
    (hr : bareResizeTable t = some (true, t')) : Room t' := by
  obtain ⟨hB₁, hC₁⟩ := bareAllocMainBlock_books hB (resizeCapacity t)
  obtain ⟨hB₂, hC₂⟩ := malloc_books hB₁
  have hfactor := (bareResizeTable_books hB hr).2.maxLoadFactor
  rcases bareResizeTable_cases hr with ⟨hok, -⟩ | ⟨-, -, hpow, t₁, hb, rfl⟩
  · cases hok
  have hF : Formed ({ (malloc (bareAllocMainBlock t (resizeCapacity t)).2).2 with
      resizing := true } : HtBare) := hB₂.toFormed.congr rfl rfl rfl
  obtain ⟨hcap, hlive⟩ := rebuild_live hF hpow hb
  have hsame : liveCount (malloc (bareAllocMainBlock t (resizeCapacity t)).2).2 = liveCount t ∧
      (malloc (bareAllocMainBlock t (resizeCapacity t)).2).2.overflow = t.overflow := by
    unfold liveCount bareAllocMainBlock
    split
    · exact ⟨by rw [(malloc_fields t).1], (malloc_fields t).2.2⟩
    · obtain ⟨hm, -, ho⟩ := malloc_fields (malloc t).2
      rw [hm, ho]
      exact ⟨by rw [(malloc_fields t).1], (malloc_fields t).2.2⟩
  have hsize := hB.size
  have hle : liveCount t₁ ≤ t.size - t.spill.length := by
    have h : liveCount t₁ ≤ liveCount t + t.overflow.length := by
      rw [← hsame.1, ← hsame.2]
      exact hlive
    omega
  unfold Room
  rw [show ({ t₁ with resizing := false } : HtBare).capacity = resizeCapacity t from hcap]
  rw [show liveCount { t₁ with resizing := false } = liveCount t₁ from rfl, hfactor]
  rcases he with he | he
  · left
    refine le_trans ?_ he
    exact_mod_cast Nat.add_le_add_right hle 1
  · right
    omega

/-! ## Insertion -/

/-- A step without a new live slot leaves the room. -/
lemma Room.congr (h : Room t) (hg : Grew 0 t t') : Room t' := by
  have hlive := hg.live
  unfold Room at h ⊢
  rw [hg.cap, hg.frame.maxLoadFactor]
  rcases h with h | h
  · left
    refine le_trans ?_ h
    exact_mod_cast Nat.add_le_add_right hlive 1
  · right
    omega

/-- The insertion loop starts its last descent with room. -/
lemma rhLoop_room {fuel : ℕ} (hC : Carry b t c) (hR : Room t) (hw : loopEnlarges fuel b t c = true)
    (hr : rhLoop bareResizeTable fuel b t c = some (true, t')) : ∃ t₁, Room t₁ ∧ Grew 1 t₁ t' := by
  induction fuel generalizing b t c with
  | zero => cases hr
  | succ fuel ih =>
    have hstep := rhStep_books hC
    rw [rhLoop] at hr
    rw [loopEnlarges] at hw
    cases hs : rhStep b t c with
    | ret ok' t₁ =>
      rw [hs] at hstep hr
      cases hr
      exact ⟨t, hR, hstep.2⟩
    | go t₁ c₁ =>
      rw [hs] at hstep hr hw
      exact ih hstep.1 (hR.congr hstep.2) hw hr
    | unbounded t₁ c₁ =>
      rw [hs] at hstep hr hw
      obtain ⟨hB₁, hentry, hg⟩ := hstep
      exact ih (Carry.start hB₁ hentry) (hR.congr hg) hw hr
    | resize t₁ c₁ =>
      rw [hs] at hstep hr hw
      obtain ⟨hB₁, hentry, hg⟩ := hstep
      simp only [Bool.and_eq_true, decide_eq_true_eq] at hr hw
      obtain ⟨he, hw⟩ := hw
      cases hz : bareResizeTable t₁ with
      | none =>
        rw [hz] at hr
        cases hr
      | some r =>
        obtain ⟨ok₁, t₂⟩ := r
        rw [hz] at hr hw
        cases ok₁ with
        | false => cases hr
        | true =>
          have hB₂ := (bareResizeTable_books hB₁ hz).1
          exact ih (Carry.start hB₂ hentry) (bareResizeTable_room hB₁ he hz) hw hr

/-- A table that is not overloaded has room. -/
lemma Room.of_not_overLoaded (hB : Books t) (hz : t.resizing = false) (h : ¬ overLoaded t) :
    Room t := by
  have hpos : (0 : ℚ) < t.capacity := by exact_mod_cast hB.capacity_pos
  have hmain : t.mainLive = liveCount t := by
    have := hB.size
    unfold HtBare.mainLive
    omega
  left
  have hle : ((t.mainLive + 1 : ℕ) : ℚ) / t.capacity ≤ t.maxLoadFactor := by
    by_contra hlt
    exact h ⟨hz, not_le.mp hlt⟩
  rw [hmain] at hle
  exact (div_le_iff₀ hpos).mp hle

/-- A resize on request leaves room. -/
lemma htBareResize_room (hB : Books t) (he : Enlarges t)
    (hr : htBareResize t k = some (true, t')) : Room t' := by
  unfold htBareResize at hr
  split at hr
  · cases hr
  · exact bareResizeTable_room hB he hr

/-- The resizes at the start of `ht_bare_insert` leave room. -/
lemma insertPrepare_room (hB : Books t) (hz : t.resizing = false)
    (hw : prepareWalk (fun t => decide (Enlarges t)) t = true)
    (hr : insertPrepare t = some (true, t')) : Room t' := by
  rw [prepareWalk, Bool.and_eq_true] at hw
  obtain ⟨hw₁, hw₂⟩ := hw
  unfold insertPrepare at hr
  cases hl : loadResize t with
  | none =>
    rw [hl] at hr
    cases hr
  | some r =>
    obtain ⟨ok₁, t₁⟩ := r
    have hB₁ := (loadResize_books hB hl).1
    rw [hl] at hr hw₂
    cases ok₁ with
    | false => cases hr
    | true =>
      simp only at hr hw₂
      split at hr
      · -- the overflow stash is full
        rename_i hfull
        refine htBareResize_room hB₁ ?_ hr
        simpa [hfull.2] using hw₂
      · cases hr
        unfold loadResize at hl
        split at hl
        · rename_i hover
          split at hl
          · cases hl
          · exact htBareResize_room hB (by simpa [hover] using hw₁) hl
        · rename_i hover
          cases hl
          exact Room.of_not_overLoaded hB hz hover

/-- An insertion all of whose resizes enlarge the table keeps to the load factor. -/
lemma htBareInsert_room {hash v : ℕ} (hB : Books t) (hz : t.resizing = false)
    (hfactor : 0 ≤ t.maxLoadFactor) (hh : 2 ≤ h48 hash) (hw : insertEnlarges t hash v = true)
    (hr : htBareInsert t hash v = some (true, t')) : LoadKept t.maxLoadFactor t' := by
  unfold htBareInsert at hr
  split at hr
  · cases hr
  rename_i hv
  rw [if_neg (not_lt.mpr hh)] at hr
  rw [insertEnlarges, Bool.and_eq_true] at hw
  obtain ⟨hw₁, hw₂⟩ := hw
  cases hp : insertPrepare t with
  | none =>
    rw [hp] at hr
    cases hr
  | some r =>
    obtain ⟨ok₁, t₁⟩ := r
    rw [hp] at hr hw₂
    cases ok₁ with
    | false => cases hr
    | true =>
      simp only at hr hw₂
      obtain ⟨hB₁, hC₁⟩ := insertPrepare_books hB hp
      have hR₁ := insertPrepare_room hB hz hw₁ hp
      have hentry : EntryFormed (h48 hash) v := ⟨hh, Nat.mod_lt _ (Nat.two_pow_pos 48), hv⟩
      have hC₂ := (bareRhInsertBounded_books bareResizeTable_books hB₁ hentry hr).2
      unfold bareRhInsertBounded at hr
      rw [if_neg hB₁.capacity_pos.ne'] at hr
      obtain ⟨t₂, hR₂, hg⟩ := rhLoop_room (Carry.start hB₁ hentry) hR₁ hw₂ hr
      have hlive := hg.live
      have hsame : t₂.maxLoadFactor = t.maxLoadFactor := by
        rw [← hC₁.maxLoadFactor, ← hC₂.maxLoadFactor, hg.frame.maxLoadFactor]
      unfold LoadKept
      rcases hR₂ with h | h
      · left
        rw [hg.cap, ← hsame]
        refine le_trans ?_ h
        exact_mod_cast hlive
      · rcases Nat.eq_zero_or_pos (liveCount t') with h0 | h0
        · left
          rw [h0, Nat.cast_zero]
          positivity
        · right
          omega

/-! ## Load factors from 3/4 on -/

/-- With a load factor of at least 3/4 a resize enlarges the table. -/
lemma Enlarges.of_factor (h : 3 / 4 ≤ t.maxLoadFactor) : Enlarges t := by
  have hcap : max (t.size * 2) 4 ≤ resizeCapacity t :=
    max_le_max (le_nextPow2 (t.size * 2)) le_rfl
  have hnat : 4 * (t.size - t.spill.length + 1) ≤ 3 * resizeCapacity t ∨
      t.size = t.spill.length := by
    omega
  rcases hnat with hle | heq
  · left
    have hq : (4 : ℚ) * ((t.size - t.spill.length + 1 : ℕ) : ℚ) ≤ 3 * (resizeCapacity t : ℚ) := by
      exact_mod_cast hle
    have hpos : (0 : ℚ) ≤ resizeCapacity t := Nat.cast_nonneg _
    nlinarith
  · exact .inr heq

/-- With a load factor of at least 3/4 the loop enlarges the table in time. -/
lemma loopEnlarges_of_factor {fuel : ℕ} (hC : Carry b t c) (h : 3 / 4 ≤ t.maxLoadFactor) :
    loopEnlarges fuel b t c = true := by
  induction fuel generalizing b t c with
  | zero => rfl
  | succ fuel ih =>
    have hstep := rhStep_books hC
    rw [loopEnlarges]
    cases hs : rhStep b t c with
    | ret ok' t₁ => rfl
    | go t₁ c₁ =>
      rw [hs] at hstep
      exact ih hstep.1 (hstep.2.frame.maxLoadFactor ▸ h)
    | unbounded t₁ c₁ =>
      rw [hs] at hstep
      obtain ⟨hB₁, hentry, hg⟩ := hstep
      exact ih (Carry.start hB₁ hentry) (hg.frame.maxLoadFactor ▸ h)
    | resize t₁ c₁ =>
      rw [hs] at hstep
      obtain ⟨hB₁, hentry, hg⟩ := hstep
      have h₁ : 3 / 4 ≤ t₁.maxLoadFactor := hg.frame.maxLoadFactor ▸ h
      simp only [Bool.and_eq_true, decide_eq_true_eq]
      refine ⟨Enlarges.of_factor h₁, ?_⟩
      cases hz : bareResizeTable t₁ with
      | none => rfl
      | some r =>
        obtain ⟨ok₁, t₂⟩ := r
        obtain ⟨hB₂, hsame⟩ := bareResizeTable_books hB₁ hz
        cases ok₁ with
        | false => rfl
        | true => exact ih (Carry.start hB₂ hentry) (hsame.maxLoadFactor ▸ h₁)

/-- With a load factor of at least 3/4 an insertion enlarges the table in time. -/
lemma insertEnlarges_of_factor {hash v : ℕ} (hB : Books t) (h : 3 / 4 ≤ t.maxLoadFactor)
    (hh : 2 ≤ h48 hash) (hv : v ≠ valNone) : insertEnlarges t hash v = true := by
  rw [insertEnlarges, prepareWalk, Bool.and_eq_true, Bool.and_eq_true]
  refine ⟨⟨?_, ?_⟩, ?_⟩
  · rw [decide_eq_true (Enlarges.of_factor h), Bool.or_true]
  · cases hl : loadResize t with
    | none => rfl
    | some r =>
      obtain ⟨ok₁, t₁⟩ := r
      have hsame := (loadResize_books hB hl).2
      cases ok₁ with
      | false => rfl
      | true =>
        simp only
        rw [decide_eq_true (Enlarges.of_factor (t := t₁) (hsame.maxLoadFactor ▸ h)), Bool.or_true]
  · cases hp : insertPrepare t with
    | none => rfl
    | some r =>
      obtain ⟨ok₁, t₁⟩ := r
      obtain ⟨hB₁, hsame⟩ := insertPrepare_books hB hp
      cases ok₁ with
      | false => rfl
      | true =>
        have hentry : EntryFormed (h48 hash) v := ⟨hh, Nat.mod_lt _ (Nat.two_pow_pos 48), hv⟩
        exact loopEnlarges_of_factor (Carry.start hB₁ hentry) (hsame.maxLoadFactor ▸ h)

/-! ## The configuration along a run -/

/-- The commit of a deletion keeps the configuration. -/
lemma commitFrom_config (idx m : ℕ) {i w : ℕ} : SameConfig t (commitFrom idx m i w t) := by
  induction m generalizing i w t with
  | zero => exact SameConfig.refl t
  | succ m ih =>
    rw [commitFrom]
    split
    · exact ⟨ih.1, ih.2, ih.3⟩
    · exact ⟨ih.1, ih.2, ih.3⟩

/-- A deletion keeps the configuration. -/
lemma deleteAt_config (t : HtBare) (idx : ℕ) : SameConfig t (deleteAt t idx) := by
  unfold deleteAt bareDeleteCompact
  dsimp only
  split
  · have h := commitFrom_config (t := { t.setSlot idx Slot.tombSlot with
      size := sizeDec t.size, tombstoneCnt := t.tombstoneCnt + 1 }) idx
      (chainScan { t.setSlot idx Slot.tombSlot with
        size := sizeDec t.size, tombstoneCnt := t.tombstoneCnt + 1 } bshiftCap
        ((idx + 1) % ({ t.setSlot idx Slot.tombSlot with
          size := sizeDec t.size, tombstoneCnt := t.tombstoneCnt + 1 } : HtBare).capacity) 0 0).1
      (i := 0) (w := 0)
    exact ⟨h.1, h.2, h.3⟩
  · exact ⟨rfl, rfl, rfl⟩

/-- `ht_bare_remove_val` keeps the configuration. -/
lemma htBareRemoveVal_config (t : HtBare) (hash v : ℕ) :
    SameConfig t (htBareRemoveVal t hash v).2 := by
  have hfrom : ∀ {m idx dist t'}, removeValFrom t (h48 hash) v m idx dist = some t' →
      SameConfig t t' := by
    intro m
    induction m with
    | zero => nofun
    | succ m ih =>
      intro idx dist t' hr
      rw [removeValFrom] at hr
      split_ifs at hr
      · exact ih hr
      · cases hr
        exact deleteAt_config t idx
      · exact ih hr
  unfold htBareRemoveVal
  split
  · unfold bareSpillRemoveVal
    split <;> exact ⟨rfl, rfl, rfl⟩
  · cases hr : removeValFrom t (h48 hash) v (t.capacity + 1) (h48 hash % t.capacity) 0 with
    | some t₁ => exact hfrom hr
    | none =>
      simp only
      unfold overflowStashRemoveVal
      split <;> exact ⟨rfl, rfl, rfl⟩

/-- `ht_bare_remove` keeps the configuration. -/
lemma htBareRemove_config (t : HtBare) (hash : ℕ) : SameConfig t (htBareRemove t hash).2 := by
  have hfrom : ∀ m {idx dist removed : ℕ} {t : HtBare},
      SameConfig t (removeFrom (h48 hash) m idx dist removed t).2 := by
    intro m
    induction m with
    | zero => exact SameConfig.refl _
    | succ m ih =>
      intro idx dist removed t
      rw [removeFrom]
      split_ifs
      · exact SameConfig.refl t
      · exact ih
      · exact SameConfig.refl t
      · exact (deleteAt_config t idx).trans ih
      · exact ih
  unfold htBareRemove
  split
  · exact ⟨rfl, rfl, rfl⟩
  · have h := @hfrom (t.capacity + 1) (h48 hash % t.capacity) 0 0 t
    exact ⟨h.1, h.2, h.3⟩

/-- A call keeps the configuration. -/
lemma BareCall.run_config {call : BareCall} (hB : Books t) (hr : call.run t = some t') :
    SameConfig t t' := by
  cases call with
  | remove hash =>
    cases hr
    exact htBareRemove_config t hash
  | op o =>
    cases o with
    | insert hash val =>
      obtain ⟨⟨ok, t₁⟩, hi, rfl⟩ := Option.map_eq_some_iff.mp hr
      exact (htBareInsert_books hB hi).2
    | removeVal hash val =>
      cases hr
      exact htBareRemoveVal_config t hash val
    | resize newCapacity =>
      obtain ⟨⟨ok, t₁⟩, hi, rfl⟩ := Option.map_eq_some_iff.mp hr
      exact (htBareResize_books hB hi).2
    | compact => exact (htBareCompact_books hB hr).2
    | clear =>
      cases hr
      exact ⟨rfl, rfl, rfl⟩

/-- A sequence of calls keeps the configuration. -/
lemma runCalls_config {calls : List BareCall} (hB : Books t) (hr : runCalls calls t = some t') :
    SameConfig t t' := by
  induction calls generalizing t with
  | nil =>
    cases hr
    exact SameConfig.refl _
  | cons call calls ih =>
    rw [runCalls] at hr
    cases h₁ : call.run t with
    | none =>
      rw [h₁] at hr
      cases hr
    | some t₁ =>
      rw [h₁] at hr
      exact (call.run_config hB h₁).trans (ih (call.run_books hB h₁) hr)

/-! ## Load factors below 3/4 -/

/-- `ht_bare_insert` without a resize at its start. -/
lemma htBareInsert_calm {hash v : ℕ} (hv : v ≠ valNone) (hh : ¬ h48 hash < 2)
    (h : ¬ overLoaded t) (ho : t.overflow = []) :
    htBareInsert t hash v = bareRhInsertBounded bareResizeTable t (h48 hash) v := by
  have hfull : ¬ (0 < t.maxProbeDist ∧ t.overflow.length = overflowStashCap) := by
    rw [ho]
    rintro ⟨-, h0⟩
    cases h0
  unfold htBareInsert insertPrepare loadResize
  rw [if_neg hv, if_neg hh, if_neg h]
  simp only
  rw [if_neg hfull]

/-- `ht_bare_insert` with a resize on account of the load factor. -/
lemma htBareInsert_grown {hash v : ℕ} (hv : v ≠ valNone) (hh : ¬ h48 hash < 2)
    (h : overLoaded t) (hcap : ¬ t.capacity > sizeMax / 2) (hlive : ¬ t.capacity * 2 < t.mainLive)
    (hr : bareResizeTable t = some (true, t')) (ho : t'.overflow = []) :
    htBareInsert t hash v = bareRhInsertBounded bareResizeTable t' (h48 hash) v := by
  have hfull : ¬ (0 < t'.maxProbeDist ∧ t'.overflow.length = overflowStashCap) := by
    rw [ho]
    rintro ⟨-, h0⟩
    cases h0
  unfold htBareInsert insertPrepare loadResize htBareResize
  rw [if_neg hv, if_neg hh, if_pos h, if_neg hcap, if_neg hlive, hr]
  simp only
  rw [if_neg hfull]

/-- A table of capacity 4 with the load factor `q`. -/
def fourSlots (q : ℚ) (main : List Slot) (size tombs : ℕ) : HtBare :=
  { emptyTable ⟨4, 0, 0, 0⟩ 4 255 [] 0 with
    main := main, size := size, tombstoneCnt := tombs, maxLoadFactor := q }

/-- The configuration with the load factor `q` and the initial capacity 4. -/
def fourCfg (q : ℚ) : HtConfig := ⟨4, q, 0, 0⟩

/-- In four slots there is one prophylactic tombstone. -/
lemma prophylactic_four (hc : t.capacity = 4) :
    barePlaceProphylacticTombstones t = plantTomb t 0 := by
  have hs : 4 ≤ prophylacticSpacing t := le_max_left _ _
  unfold barePlaceProphylacticTombstones
  simp only
  have h1 : (t.capacity + prophylacticSpacing t - 1) / prophylacticSpacing t = 1 := by
    rw [hc]
    exact Nat.div_eq_of_lt_le (by omega) (by omega)
  rw [h1]
  simp

/-- When four slots are over the load factor. -/
lemma overLoaded_four {q : ℚ} {main : List Slot} {size tombs : ℕ} (h4 : main.length = 4) :
    overLoaded (fourSlots q main size tombs) ↔ q < ((size + 1 : ℕ) : ℚ) / 4 := by
  have hm : (fourSlots q main size tombs).mainLive = size := rfl
  have hcap : (fourSlots q main size tombs).capacity = 4 := h4
  unfold overLoaded
  rw [hm, hcap]
  exact and_iff_right rfl

/-- An insertion into four slots that do not exceed the load factor. -/
lemma htBareInsert_four_calm {q : ℚ} {main : List Slot} {size tombs hash v : ℕ}
    {r : Option (Bool × HtBare)} (h4 : main.length = 4) (hv : v ≠ valNone) (hh : ¬ h48 hash < 2)
    (hq : ((size + 1 : ℕ) : ℚ) / 4 ≤ q)
    (hr : bareRhInsertBounded bareResizeTable (fourSlots q main size tombs) (h48 hash) v = r) :
    htBareInsert (fourSlots q main size tombs) hash v = r :=
  (htBareInsert_calm hv hh
    (fun h => absurd ((overLoaded_four h4).mp h) (not_lt.mpr hq)) rfl).trans hr

/-- An insertion into four slots that would exceed the load factor. -/
lemma htBareInsert_four_grown {q : ℚ} {main main' : List Slot} {size size' tombs tombs' hash v : ℕ}
    {r : Option (Bool × HtBare)} (h4 : main.length = 4) (hv : v ≠ valNone) (hh : ¬ h48 hash < 2)
    (hq : q < ((size + 1 : ℕ) : ℚ) / 4) (hsize : size ≤ 4)
    (hz : bareResizeTable (fourSlots q main size tombs) =
      some (true, fourSlots q main' size' tombs'))
    (hr : bareRhInsertBounded bareResizeTable (fourSlots q main' size' tombs') (h48 hash) v = r) :
    htBareInsert (fourSlots q main size tombs) hash v = r := by
  have hcap : (fourSlots q main size tombs).capacity = 4 := h4
  have hm : (fourSlots q main size tombs).mainLive = size := rfl
  refine (htBareInsert_grown hv hh ((overLoaded_four h4).mpr hq) ?_ ?_ hz rfl).trans hr
  · rw [hcap]
    decide
  · rw [hcap, hm]
    omega

/-- Four empty slots. The hashes below are 2, 3 and 0 modulo 4; the tombstone is prophylactic. -/
def mainEmpty : List Slot := [.emptySlot, .emptySlot, .emptySlot, .emptySlot]

/-- The tombstone alone. -/
def mainTomb : List Slot := [.tombSlot, .emptySlot, .emptySlot, .emptySlot]

/-- The entry of the hash 2. -/
def mainTwo : List Slot := [.emptySlot, .emptySlot, ⟨2, 0, 0⟩, .emptySlot]

/-- The tombstone and the entry of the hash 2. -/
def mainTombTwo : List Slot := [.tombSlot, .emptySlot, ⟨2, 0, 0⟩, .emptySlot]

/-- The entries of the hashes 2 and 3. -/
def mainThree : List Slot := [.emptySlot, .emptySlot, ⟨2, 0, 0⟩, ⟨3, 0, 1⟩]

/-- The tombstone and the entries of the hashes 2 and 3. -/
def mainTombThree : List Slot := [.tombSlot, .emptySlot, ⟨2, 0, 0⟩, ⟨3, 0, 1⟩]

/-- The entries of the hashes 2, 3 and 4. -/
def mainFour : List Slot := [⟨4, 0, 2⟩, .emptySlot, ⟨2, 0, 0⟩, ⟨3, 0, 1⟩]

/-- A resize of four slots that hold at most two entries. -/
lemma bareResizeTable_four {q : ℚ} {main : List Slot} {size tombs : ℕ} (hs : size ≤ 2)
    (hr : reinsert nestedResize { fourSlots q mainEmpty 0 0 with resizing := true }
      (liveEntries main) = some t) (h4 : t.capacity = 4) :
    bareResizeTable (fourSlots q main size tombs) =
      some (true, { plantTomb t 0 with resizing := false }) := by
  have hcap : resizeCapacity (fourSlots q main size tombs) = 4 := by
    show max (nextPow2 (size * 2)) 4 = 4
    interval_cases size <;> rfl
  have hbig : ¬ (fourSlots q main size tombs).size > sizeMax / 2 := by
    show ¬ size > sizeMax / 2
    unfold sizeMax
    omega
  have hb : rebuild nestedResize { fourSlots q main size tombs with resizing := true } 4 =
      some (barePlaceProphylacticTombstones t) := by
    have hmain : bareReinsertMain nestedResize
        (freshBlocks { fourSlots q main size tombs with resizing := true } 4) main = some t := hr
    show (bareReinsertMain nestedResize
        (freshBlocks { fourSlots q main size tombs with resizing := true } 4) main >>= fun t₁ =>
      reinsert nestedResize t₁ [] >>= fun t₃ => some (barePlaceProphylacticTombstones t₃)) = _
    rw [hmain]
    rfl
  have hmem : bareAllocMainBlock (fourSlots q main size tombs) 4 =
      (true, fourSlots q main size tombs) := rfl
  have hmem' : malloc (fourSlots q main size tombs) = (true, fourSlots q main size tombs) := rfl
  rw [bareResizeTable_eq (by exact Bool.false_ne_true) hbig, hcap, hmem]
  dsimp only
  rw [hmem']
  dsimp only
  rw [hb, prophylactic_four h4]

/-- The third insertion, over the prophylactic tombstone. -/
lemma insert_mainTombThree (q : ℚ) :
    bareRhInsertBounded bareResizeTable (fourSlots q mainTombThree 2 1) (h48 4) 2 =
      some (true, fourSlots q mainFour 3 0) := by
  have hstart : Carrier.start (fourSlots q mainTombThree 2 1) (h48 4) 2 = ⟨4, 2, 0, 0⟩ := by
    show (⟨h48 4, 2, h48 4 % 4, 0⟩ : Carrier) = _
    rfl
  have hstep : rhStep true (fourSlots q mainTombThree 2 1) ⟨4, 2, 0, 0⟩ =
    .ret true (fourSlots q mainFour 3 0) := rfl
  have hfuel : rhFuel (fourSlots q mainTombThree 2 1) = 249 + 1 := rfl
  unfold bareRhInsertBounded
  rw [if_neg (by exact Nat.succ_ne_zero 3), hstart, hfuel, rhLoop, hstep]

/-- Below 3/4, at most three insertions exceed the load factor. -/
lemma loadFactor_exceeded {q : ℚ} (h0 : 0 < q) (h : q < 3 / 4) :
    ∃ ops : List BareOp, ∃ hash v t' t'', (∀ op ∈ ops, ∃ hash v, op = .insert hash v) ∧
    runOps ops (fourSlots q mainEmpty 0 0) = some t' ∧ 2 ≤ h48 hash ∧
    htBareInsert t' hash v = some (true, t'') ∧ ¬ LoadKept q t'' := by
  -- the resizes that the insertions ask for keep four slots
  have hz₀ : bareResizeTable (fourSlots q mainEmpty 0 0) = some (true, fourSlots q mainTomb 0 1) :=
    (bareResizeTable_four (show 0 ≤ 2 by decide) rfl rfl).trans rfl
  have hz₁ : bareResizeTable (fourSlots q mainTwo 1 0) = some (true, fourSlots q mainTombTwo 1 1) :=
    (bareResizeTable_four (show 1 ≤ 2 by decide) rfl rfl).trans rfl
  have hz₂ : bareResizeTable (fourSlots q mainTombTwo 1 1) =
      some (true, fourSlots q mainTombTwo 1 1) :=
        (bareResizeTable_four (show 1 ≤ 2 by decide) rfl rfl).trans rfl
  have hz₃ : bareResizeTable (fourSlots q mainThree 2 0) =
      some (true, fourSlots q mainTombThree 2 1) :=
        (bareResizeTable_four (show 2 ≤ 2 by decide) rfl rfl).trans rfl
  have hover : ∀ main size tombs, main.length = 4 → liveCount (fourSlots q main size tombs) ≠ 1 →
      q < (liveCount (fourSlots q main size tombs) : ℚ) / 4 →
      ¬ LoadKept q (fourSlots q main size tombs) := by
    intro main size tombs h4 h1 hq hkept
    have hcap : (fourSlots q main size tombs).capacity = 4 := h4
    unfold LoadKept at hkept
    rw [hcap] at hkept
    push_cast at hkept
    rcases hkept with hle | heq
    · linarith
    · exact h1 heq
  have htwo : q < 1 / 2 → ∀ {tombs : ℕ} {main : List Slot}, main.length = 4 →
      bareResizeTable (fourSlots q main 1 tombs) = some (true, fourSlots q mainTombTwo 1 1) →
      htBareInsert (fourSlots q main 1 tombs) 3 1 = some (true, fourSlots q mainTombThree 2 1) := by
    intro hq tombs main h4 hz
    refine htBareInsert_four_grown h4 (by decide) (by decide) ?_ (by decide) hz rfl
    push_cast
    linarith
  have hbad : q < 1 / 2 → ¬ LoadKept q (fourSlots q mainTombThree 2 1) := fun hq => by
    refine hover _ _ _ rfl (show (2 : ℕ) ≠ 1 by decide) ?_
    show q < ((2 : ℕ) : ℚ) / 4
    push_cast
    linarith
  rcases lt_or_ge q (1 / 4) with hq | hq
  · -- the first insertion already asks for a resize
    have h₁ : htBareInsert (fourSlots q mainEmpty 0 0) 2 0 =
        some (true, fourSlots q mainTombTwo 1 1) := by
      refine htBareInsert_four_grown rfl (by decide) (by decide) ?_ (by decide) hz₀ rfl
      push_cast
      linarith
    refine ⟨[.insert 2 0], 3, 1, _, _, by simp, ?_, by decide, htwo (by linarith) rfl hz₂,
      hbad (by linarith)⟩
    rw [runOps, BareOp.run, h₁]
    rfl
  have h₁ : htBareInsert (fourSlots q mainEmpty 0 0) 2 0 =
      some (true, fourSlots q mainTwo 1 0) := by
    refine htBareInsert_four_calm rfl (by decide) (by decide) ?_ rfl
    push_cast
    linarith
  rcases lt_or_ge q (1 / 2) with hq' | hq'
  · -- the second one
    refine ⟨[.insert 2 0], 3, 1, _, _, by simp, ?_, by decide, htwo hq' rfl hz₁, hbad hq'⟩
    rw [runOps, BareOp.run, h₁]
    rfl
  · -- the third one
    have h₂ : htBareInsert (fourSlots q mainTwo 1 0) 3 1 =
        some (true, fourSlots q mainThree 2 0) := by
      refine htBareInsert_four_calm rfl (by decide) (by decide) ?_ rfl
      push_cast
      linarith
    have h₃ : htBareInsert (fourSlots q mainThree 2 0) 4 2 =
        some (true, fourSlots q mainFour 3 0) := by
      refine htBareInsert_four_grown rfl (by decide) (by decide) ?_ (by decide) hz₃
        (insert_mainTombThree q)
      push_cast
      linarith
    refine ⟨[.insert 2 0, .insert 3 1], 4, 2, _, _, by simp, ?_, by decide, h₃, ?_⟩
    · rw [runOps, BareOp.run, h₁]
      simp only [Option.map_some]
      rw [runOps, BareOp.run, h₂]
      rfl
    · refine hover _ _ _ rfl (show (3 : ℕ) ≠ 1 by decide) ?_
      show q < ((3 : ℕ) : ℚ) / 4
      push_cast
      linarith

/-! ## The load factor is honoured from 3/4 on -/

/-- `ht_bare_insert`, `ht_bare_remove_val` or `ht_bare_compact`. -/
def BareCall.Ordinary : BareCall → Prop
  | .op (.insert _ _) => True
  | .op (.removeVal _ _) => True
  | .op .compact => True
  | _ => False

/-- Every insertion into the main array after a run of ordinary calls keeps to the load factor
`q`. -/
def LoadHonoured (q : ℚ) : Prop :=
  ∀ (cfg : HtConfig) (fuel : ℕ) (calls : List BareCall) (t t' t'' : HtBare) (hash val : ℕ),
    cfg.maxLoadFactor = q → (∀ call ∈ calls, call.Ordinary) → htBareCreate cfg [] fuel = some t →
    runCalls calls t = some t' → 2 ≤ h48 hash → htBareInsert t' hash val = some (true, t'') →
    LoadKept q t''

/-- The table that `ht_bare_create` returns has the load factor of the configuration. -/
lemma htBareCreate_config {cfg : HtConfig} {mem : List Bool} {fuel : ℕ}
    (h0 : 0 < cfg.maxLoadFactor) (h1 : cfg.maxLoadFactor ≤ 97 / 100)
    (hc : htBareCreate cfg mem fuel = some t) :
    t.maxLoadFactor = cfg.maxLoadFactor ∧ t.resizing = false := by
  unfold htBareCreate at hc
  simp only at hc
  split at hc
  · cases hc
  cases hc
  refine ⟨?_, rfl⟩
  show clampLoadFactor cfg.maxLoadFactor = _
  unfold clampLoadFactor
  rw [if_neg (not_le.mpr h0), if_neg (not_lt.mpr h1)]

/-- A run of operations is a run of calls. -/
lemma runOps_eq_runCalls (ops : List BareOp) (t : HtBare) :
    runOps ops t = runCalls (ops.map .op) t := by
  induction ops generalizing t with
  | nil => rfl
  | cons op ops ih =>
    rw [runOps, List.map_cons, runCalls, BareCall.run]
    cases op.run t with
    | none => rfl
    | some t₁ => exact ih t₁

/-- An insertion into the main array keeps to the load factor if every resize it asks for enlarges
the table; every insertion of every run does so exactly for the load factors from 3/4 on. -/
theorem htBareInsert_load (q : ℚ) (h0 : 0 < q) (h1 : q ≤ 97 / 100) :
    (∀ (cfg : HtConfig) (mem : List Bool) (fuel : ℕ) (calls : List BareCall) (t t' t'' : HtBare)
      (hash val : ℕ), cfg.maxLoadFactor = q → htBareCreate cfg mem fuel = some t →
      runCalls calls t = some t' → 2 ≤ h48 hash → htBareInsert t' hash val = some (true, t'') →
      insertEnlarges t' hash val = true → LoadKept q t'') ∧
    (LoadHonoured q ↔ 3 / 4 ≤ q) := by
  have hreach : ∀ {cfg : HtConfig} {mem : List Bool} {fuel : ℕ} {calls : List BareCall}
      {t t' : HtBare}, cfg.maxLoadFactor = q → htBareCreate cfg mem fuel = some t →
      runCalls calls t = some t' → Books t' ∧ t'.maxLoadFactor = q ∧ t'.resizing = false := by
    rintro cfg mem fuel calls t t' rfl hc hr
    have hB := htBareCreate_books hc
    obtain ⟨hq, hz⟩ := htBareCreate_config h0 h1 hc
    have hsame := runCalls_config hB hr
    exact ⟨runCalls_books hB hr, hsame.maxLoadFactor.trans hq, hsame.resizing.trans hz⟩
  constructor
  · intro cfg mem fuel calls t t' t'' hash val hcfg hc hr hh hi hw
    obtain ⟨hB, hq, hz⟩ := hreach hcfg hc hr
    have h := htBareInsert_room hB hz (hq ▸ h0.le) hh hw hi
    rwa [hq] at h
  · constructor
    · intro hhon
      by_contra hlt
      obtain ⟨ops, hash, val, t', t'', hops, hr, hh, hi, hbad⟩ :=
        loadFactor_exceeded h0 (not_le.mp hlt)
      have hc : htBareCreate (fourCfg q) [] 0 = some (fourSlots q mainEmpty 0 0) := by
        have hclamp : clampLoadFactor q = q := by
          unfold clampLoadFactor
          rw [if_neg (not_le.mpr h0), if_neg (not_lt.mpr h1)]
        have hcap : nextPow2 (max 4 4) = 4 := by decide
        show (if nextPow2 (max 4 4) > sizeMax / 12 then none else
          some (emptyTable (fourCfg q) (nextPow2 (max 4 4)) 255 [] 0)) = _
        rw [hcap, if_neg (by decide)]
        show some { fourSlots q mainEmpty 0 0 with maxLoadFactor := clampLoadFactor q } = _
        rw [hclamp]
        rfl
      refine hbad (hhon (fourCfg q) 0 (ops.map .op) _ t' t'' hash val rfl ?_ hc ?_ hh hi)
      · intro call hcall
        obtain ⟨op, hop, rfl⟩ := List.mem_map.mp hcall
        obtain ⟨hash, v, rfl⟩ := hops op hop
        trivial
      · rw [← runOps_eq_runCalls]
        exact hr
    · intro hq cfg fuel calls t t' t'' hash val hcfg _ hc hr hh hi
      obtain ⟨hB, hfactor, hz⟩ := hreach hcfg hc hr
      have hv : val ≠ valNone := by
        rintro rfl
        unfold htBareInsert at hi
        rw [if_pos rfl] at hi
        cases hi
      have hw := insertEnlarges_of_factor hB (hfactor ▸ hq) hh hv
      have h := htBareInsert_room hB hz (hfactor ▸ h0.le) hh hw hi
      rwa [hfactor] at h

/-- The load factor of the default configuration is honoured. -/
theorem htBareInsert_load_default : LoadHonoured (3 / 4) :=
  (htBareInsert_load (3 / 4) (by norm_num) (by norm_num)).2.mpr le_rfl

/-- With the load factor 1/2 three insertions into a table of capacity 4 fill three slots: the
resize that the third one asks for keeps the capacity. -/
theorem htBareInsert_load_fails : ∃ t t' t'', htBareCreate (fourCfg (1 / 2)) [] 0 = some t ∧
    runCalls [.op (.insert 2 0), .op (.insert 3 1)] t = some t' ∧ 2 ≤ h48 4 ∧
    htBareInsert t' 4 2 = some (true, t'') ∧ t''.capacity = 4 ∧ liveCount t'' = 3 ∧
    ¬ LoadKept (1 / 2) t'' := by
  have h : ((htBareCreate (fourCfg (1 / 2)) [] 0).bind fun t =>
      (runCalls [.op (.insert 2 0), .op (.insert 3 1)] t).bind fun t' =>
      (htBareInsert t' 4 2).map fun r => (r.1, r.2.capacity, liveCount r.2,
        decide (LoadKept (1 / 2) r.2))) = some (true, 4, 3, false) := by
    decide +kernel
  obtain ⟨t, hc, h⟩ := Option.bind_eq_some_iff.mp h
  obtain ⟨t', hr, h⟩ := Option.bind_eq_some_iff.mp h
  obtain ⟨⟨ok, t''⟩, hi, h⟩ := Option.map_eq_some_iff.mp h
  simp only [Prod.mk.injEq, decide_eq_false_iff_not] at h
  obtain ⟨rfl, hcap, hlive, hkept⟩ := h
  exact ⟨t, t', t'', hc, hr, by decide, hi, hcap, hlive, hkept⟩

end Draugr
