import Draugr.Bare.RemoveVal

/-!
# `ht_bare_remove` on a table that passes the check

The loop deletes every entry of the hash it comes to and has `capacity + 1` iterations for it. A
deletion that leaves a tombstone costs a second iteration, so the entries of a long run can
outnumber them: `removalSteps` counts the iterations that it takes to delete all of them, and
`removeFrom_clears` says what the loop has done when its iterations are used up.
-/

namespace Draugr
open Lib

/-- The slot holds an entry of the hash `h`. -/
def Slot.Has (s : Slot) (h : ℕ) : Prop := s.Live ∧ s.hash = h

instance (s : Slot) (h : ℕ) : Decidable (s.Has h) := inferInstanceAs (Decidable (_ ∧ _))

/-- The number of slots that hold an entry of the hash `h`. -/
def hashCount (t : HtBare) (h : ℕ) : ℕ := t.main.countP fun s => decide (s.Has h)

/-- The iterations that the loop of `ht_bare_remove` needs, from offset `k` of the probe sequence
on, until no slot holds an entry of `h`: one for each deletion and one for each slot it goes
past. -/
def removalSteps (h : ℕ) : ℕ → ℕ → HtBare → ℕ
  | 0, _, _ => 0
  | m + 1, k, t =>
    if hashCount t h = 0 then 0
    else if (t.at t.capacity h k).Has h then
      removalSteps h m k (deleteAt t ((h + k) % t.capacity)) + 1
    else removalSteps h m (k + 1) t + 1

/-- The probe limit of the searches hides no entry. -/
def HtBare.Limited (t : HtBare) : Prop :=
  t.overflowViolated = false → 0 < t.maxProbeDist →
    ∀ i, i < t.capacity → (t.slot i).Live → (t.slot i).pd ≤ t.maxProbeDist

instance (t : HtBare) : Decidable t.Limited := inferInstanceAs (Decidable (_ → _ → ∀ _, _ → _))

variable {n h v k : ℕ} {t t' t'' : HtBare}

/-- A table that passes the check and hides no entry is sound. -/
lemma Sound.of_limited (hS : Sound t.capacity t.unlimited) (hl : t.Limited) : Sound t.capacity t :=
  ⟨hS.pos, rfl, hS.reach, hS.slots, hl, hS.spill, hS.overflow, hS.vals⟩

/-! ## One deletion -/

/-- What deletions of entries of `h` keep. -/
structure KeepsOthers (h : ℕ) (t t' : HtBare) : Prop where
  cap : t'.capacity = t.capacity
  spill : t'.spill = t.spill
  overflow : t'.overflow = t.overflow
  violated : t'.overflowViolated = t.overflowViolated
  limit : t'.maxProbeDist = t.maxProbeDist
  main : ∀ h' v, h' ≠ h →
    (t'.main.countP fun s => decide (s.Holds h' v)) = t.main.countP fun s => decide (s.Holds h' v)
  empty : (∃ i, i < t.capacity ∧ (t.slot i).Empty) → ∃ i, i < t'.capacity ∧ (t'.slot i).Empty
  full : (∀ i, i < t.capacity → ¬ (t.slot i).Empty) → ∀ i, i < t.capacity →
    t'.slot i = t.slot i ∨ ((t.slot i).Has h ∧ t'.slot i = Slot.tombSlot)

/-- The entries of other hashes are kept by doing nothing. -/
lemma KeepsOthers.refl (h : ℕ) (t : HtBare) : KeepsOthers h t t :=
  ⟨rfl, rfl, rfl, rfl, rfl, fun _ _ _ => rfl, id, fun _ _ _ => .inl rfl⟩

/-- Two steps that keep the entries of other hashes. -/
lemma KeepsOthers.trans (hK : KeepsOthers h t t') (hK' : KeepsOthers h t' t'') :
    KeepsOthers h t t'' where
  cap := hK'.cap.trans hK.cap
  spill := hK'.spill.trans hK.spill
  overflow := hK'.overflow.trans hK.overflow
  violated := hK'.violated.trans hK.violated
  limit := hK'.limit.trans hK.limit
  main := fun h' v hne => (hK'.main h' v hne).trans (hK.main h' v hne)
  empty := fun he => hK'.empty (hK.empty he)
  full := by
    intro hne i hi
    have hne' : ∀ i, i < t'.capacity → ¬ (t'.slot i).Empty := by
      intro j hj
      rcases hK.full hne j (hK.cap ▸ hj) with he | ⟨-, he⟩
      · rw [he]
        exact hne j (hK.cap ▸ hj)
      · rw [he]
        exact Slot.tombSlot_tomb.not_empty
    rcases hK'.full hne' i (hK.cap.symm ▸ hi) with he' | ⟨hh, he'⟩
    · rw [he']
      exact hK.full hne i hi
    · right
      rcases hK.full hne i hi with he | ⟨hh', -⟩
      · exact ⟨he ▸ hh, he'⟩
      · exact ⟨hh', he'⟩

/-- The entries of the main array after a deletion. -/
lemma deleteAt_liveEntries {idx : ℕ} (hS : Sound n t) (hi : idx < n) (hl : (t.slot idx).Live) :
    ((t.slot idx).hash, (t.slot idx).val) ::ₘ
      (liveEntries (deleteAt t idx).main : Multiset (ℕ × ℕ)) =
      (liveEntries t.main : Multiset (ℕ × ℕ)) := by
  have hcon := (deleteAt_deletes hS hi hl).contents
  obtain ⟨hsp, hov, -, -⟩ := deleteAt_fields t idx
  unfold HtBare.contents at hcon
  rw [hsp, hov, add_assoc, add_assoc, ← Multiset.cons_add] at hcon
  exact add_right_cancel hcon

/-- The count of a hash, as one of the entries. -/
lemma hashCount_eq (t : HtBare) (h : ℕ) :
    hashCount t h = (liveEntries t.main : Multiset (ℕ × ℕ)).countP fun e => e.1 = h := by
  unfold hashCount liveEntries
  rw [Multiset.coe_countP, List.countP_filterMap]
  refine List.countP_congr fun s _ => ?_
  unfold Slot.Has Slot.entry
  by_cases hl : s.Live <;> simp [hl]

/-- A deletion takes one entry of its hash away. -/
lemma deleteAt_hashCount {idx : ℕ} (hS : Sound n t) (hi : idx < n) (hh : (t.slot idx).Has h) :
    hashCount (deleteAt t idx) h + 1 = hashCount t h := by
  rw [hashCount_eq, hashCount_eq, ← deleteAt_liveEntries hS hi hh.1, Multiset.countP_cons,
    if_pos hh.2]

/-- A deletion of an entry of `h` keeps the others. -/
lemma deleteAt_keepsOthers {idx : ℕ} (hB : Books t) (hS : Sound n t) (hi : idx < n)
    (hh : (t.slot idx).Has h) : KeepsOthers h t (deleteAt t idx) := by
  obtain ⟨hsp, hov, hvi, hmp⟩ := deleteAt_fields t idx
  have hi' : idx < t.capacity := hS.cap.symm ▸ hi
  have hcap := (deleteAt_books hB hi' hh.1).2
  refine ⟨hcap, hsp, hov, hvi, hmp, ?_, ?_, ?_⟩
  · intro h' v hne
    have h1 := congrArg (Multiset.count (h', v)) (deleteAt_liveEntries hS hi hh.1)
    rw [Multiset.count_cons_of_ne (by rw [hh.2]; exact fun he => hne (congrArg Prod.fst he)),
      coe_count_pair, coe_count_pair, count_liveEntries, count_liveEntries] at h1
    exact h1
  · rintro ⟨i, hic, hie⟩
    have hcount := deleteAt_countP (p := fun s => decide s.Empty) hB.toFormed hi'
      (fun s hs => decide_eq_false hs.not_empty) (by
        intro s g hl _ hp
        exact absurd (of_decide_eq_true hp) hl.not_empty)
    rw [if_neg (by rw [decide_eq_true_eq]; exact hh.1.not_empty)] at hcount
    have hpos : 0 < t.main.countP fun s => decide s.Empty := by
      rw [List.countP_pos_iff]
      refine ⟨t.slot i, ?_, decide_eq_true hie⟩
      unfold HtBare.slot
      rw [List.getD_eq_getElem?_getD, List.getElem?_eq_getElem hic]
      exact List.getElem_mem hic
    obtain ⟨s, hs, hse⟩ := List.countP_pos_iff.mp (hpos.trans_le hcount)
    obtain ⟨j, hj, rfl⟩ := List.getElem_of_mem hs
    refine ⟨j, hj, ?_⟩
    unfold HtBare.slot
    rw [List.getD_eq_getElem?_getD, List.getElem?_eq_getElem hj]
    exact of_decide_eq_true hse
  · intro hne i _
    rw [deleteAt_full hne hi']
    show (t.setSlot idx Slot.tombSlot).slot i = _ ∨ _ ∧ (t.setSlot idx Slot.tombSlot).slot i = _
    rw [HtBare.slot_setSlot _ hi']
    by_cases he : i = idx
    · rw [if_pos he, he]
      exact .inr ⟨hh, rfl⟩
    · rw [if_neg he]
      exact .inl rfl

/-- A deletion at offset `k` brings no entry of `h` before it. -/
lemma deleteAt_behind (hF : Formed t) (hc : t.capacity = n) (hk : k < n)
    (hb : ∀ j, j < k → ¬ (t.at n h j).Has h) :
    ∀ j, j < k → ¬ ((deleteAt t ((h + k) % n)).at n h j).Has h := by
  have hpos : 0 < n := by omega
  have hi : (h + k) % n < n := Nat.mod_lt _ hpos
  have hi' : (h + k) % n < t.capacity := hc.symm ▸ hi
  let t₁ : HtBare := { t.setSlot ((h + k) % n) Slot.tombSlot with
    size := sizeDec t.size, tombstoneCnt := t.tombstoneCnt + 1 }
  have hslot₁ : ∀ i, t₁.slot i = if i = (h + k) % n then Slot.tombSlot else t.slot i :=
    fun i => HtBare.slot_setSlot _ hi'
  have hF₁ : Formed t₁ := (hF.drop Slot.tombSlot_tomb.not_live).congr rfl rfl rfl
  refine (bareDeleteCompact_rule (t := t₁) (n := n)
    (Q := fun t' => (t'.capacity = n ∧ Formed t') ∧ ∀ j, j < k → ¬ (t'.at n h j).Has h)
    (fun h => h.1.1) ?_ ?_ ⟨⟨(HtBare.capacity_setSlot t _ _).trans hc, hF₁⟩, ?_⟩ hi ?_).2
  · -- an entry moves back
    rintro t' i w s ⟨⟨hc', hF'⟩, hb'⟩ hwi hin hs hlive - -
    have hform : SlotFormed s := hs ▸ hF'.slots _ (by
      show (t'.at n ((h + k) % n) (i + 1)).Live
      rw [hs]
      exact hlive)
    have hc₁ : (t'.put n ((h + k) % n) (i + 1) Slot.tombSlot).capacity = n := by
      rw [HtBare.capacity_put, hc']
    refine ⟨⟨by rw [HtBare.capacity_put, hc₁], ?_⟩, fun j hj => ?_⟩
    · exact (hF'.drop Slot.tombSlot_tomb.not_live).write fun _ => .pack hform.val
    show ¬ (((t'.setSlot (((h + k) % n + (i + 1)) % n) Slot.tombSlot).setSlot
      (((h + k) % n + w) % n) _).slot ((h + j) % n)).Has h
    have hw' : ((h + k) % n + w) % n <
        (t'.setSlot (((h + k) % n + (i + 1)) % n) Slot.tombSlot).capacity := by
      rw [HtBare.capacity_setSlot, hc']
      exact Nat.mod_lt _ hpos
    have hi1 : ((h + k) % n + (i + 1)) % n < t'.capacity := by
      rw [hc']
      exact Nat.mod_lt _ hpos
    rw [HtBare.slot_setSlot _ hw', HtBare.slot_setSlot _ hi1, Nat.mod_add_mod, Nat.mod_add_mod]
    split
    · -- the place it moves to lies before `k` only when it comes from before `k`
      rename_i he
      rintro ⟨-, hhash⟩
      have hsh : s.hash = h := by
        have : h48 s.hash = h := hhash
        rwa [show h48 s.hash = s.hash from Nat.mod_eq_of_lt hform.hash48] at this
      have hat : t'.slot ((h + k + (i + 1)) % n) = s := by
        rw [← hs]
        unfold HtBare.at
        rw [Nat.mod_add_mod]
      rcases Nat.lt_or_ge (k + (i + 1)) n with hlt | hge
      · have hjn : j < n := by omega
        have hkw : k + w < n := by omega
        have hne : j ≠ k + w := by omega
        refine offset_ne hjn hkw hne (he.trans ?_)
        rw [Nat.add_assoc]
      · refine hb' (k + (i + 1) - n) (by omega) ?_
        have hoff : (h + (k + (i + 1) - n)) % n = (h + k + (i + 1)) % n := by
          rw [← Nat.add_mod_right]
          congr 1
          omega
        unfold HtBare.at
        rw [hoff, hat]
        exact ⟨hlive, hsh⟩
    · split
      · exact fun hc => absurd hc.1 Slot.tombSlot_tomb.not_live
      · exact hb' j hj
  · -- a tombstone is emptied
    rintro t' i ⟨⟨hc', hF'⟩, hb'⟩ hi' -
    refine ⟨⟨(HtBare.capacity_setSlot t' i _).trans hc',
      (hF'.drop (i := i) Slot.emptySlot_empty.not_live).congr rfl rfl rfl⟩, fun j hj => ?_⟩
    show ¬ ((t'.setSlot i Slot.emptySlot).slot ((h + j) % n)).Has h
    rw [HtBare.slot_setSlot _ (hc'.symm ▸ hi')]
    split
    · exact fun hc => absurd hc.1 Slot.emptySlot_empty.not_live
    · exact hb' j hj
  · intro j hj
    show ¬ (t₁.slot ((h + j) % n)).Has h
    rw [hslot₁]
    split
    · exact fun hc => absurd hc.1 Slot.tombSlot_tomb.not_live
    · exact hb j hj
  · rw [hslot₁, if_pos rfl]
    exact Slot.tombSlot_tomb

/-! ## The loop -/

/-- An entry of `h` in the main array. -/
lemma hashCount_pos (hc : t.capacity = n) (hh : hashCount t h ≠ 0) :
    ∃ j, j < n ∧ (t.at n h j).Has h := by
  obtain ⟨s, hs, hhas⟩ := List.countP_pos_iff.mp (Nat.pos_of_ne_zero hh)
  obtain ⟨p, hp, rfl⟩ := List.getElem_of_mem hs
  have hpn : p < n := hc ▸ hp
  obtain ⟨j, hj, hoff⟩ := exists_offset h hpn
  refine ⟨j, hj, ?_⟩
  unfold HtBare.at HtBare.slot
  rw [hoff, List.getD_eq_getElem?_getD, List.getElem?_eq_getElem hp]
  exact of_decide_eq_true hhas

/-- Without entries of `h` there is none in any slot. -/
lemma not_has_of_hashCount {i : ℕ} (hi : i < t.capacity) (hh : hashCount t h = 0) :
    ¬ (t.slot i).Has h := by
  intro hhas
  have h0 := List.countP_eq_zero.mp hh (t.slot i) (by
    unfold HtBare.slot
    rw [List.getD_eq_getElem?_getD, List.getElem?_eq_getElem hi]
    exact List.getElem_mem hi)
  exact h0 (decide_eq_true hhas)

/-- Without entries of `h` the array reports nothing. -/
lemma findAllFrom_idle (m : ℕ) {idx dist : ℕ} (hpos : 0 < t.capacity) (hi : idx < t.capacity)
    (hh : hashCount t h = 0) : findAllFrom t h m idx dist = [] := by
  induction m generalizing idx dist with
  | zero => rfl
  | succ m ih =>
    have hnext := Nat.mod_lt (idx + 1) hpos
    have hno := not_has_of_hashCount hi hh
    rw [findAllFrom]
    rcases Slot.trichotomy (t.slot idx) with he | ht | hl
    · rw [if_pos he]
    · rw [if_neg ht.not_empty, if_pos ht]
      exact ih hnext
    · rw [if_neg hl.not_empty, if_neg hl.not_tomb]
      split
      · rfl
      · rw [if_neg fun hc => hno ⟨hl, hc⟩]
        exact ih hnext

/-- Without entries of `h` the loop removes nothing. -/
lemma removeFrom_idle (m : ℕ) {idx dist removed : ℕ} (hpos : 0 < t.capacity) (hi : idx < t.capacity)
    (hh : hashCount t h = 0) : removeFrom h m idx dist removed t = (removed, t) := by
  induction m generalizing idx dist with
  | zero => rfl
  | succ m ih =>
    have hnext := Nat.mod_lt (idx + 1) hpos
    have hno := not_has_of_hashCount hi hh
    rw [removeFrom]
    rcases Slot.trichotomy (t.slot idx) with he | ht | hl
    · rw [if_pos he]
    · rw [if_neg ht.not_empty, if_pos ht]
      exact ih hnext
    · rw [if_neg hl.not_empty, if_neg hl.not_tomb]
      split
      · rfl
      · rw [if_neg fun hc => hno ⟨hl, hc⟩]
        exact ih hnext

/-- What the loop has done after `m` iterations from offset `k` on. -/
structure Removal (n h f k m removed : ℕ) (t : HtBare) (r : ℕ × HtBare) : Prop where
  sound : Sound n r.2
  books : Books r.2
  count : r.1 + hashCount r.2 h = removed + hashCount t h
  clears : hashCount r.2 h = 0 ↔ removalSteps h f k t ≤ m
  others : KeepsOthers h t r.2

/-- One more iteration. -/
lemma Removal.step {f m removed removed' k' : ℕ} {r : ℕ × HtBare}
    (hR : Removal n h f k' m removed' t' r) (hK : KeepsOthers h t t')
    (hcount : removed' + hashCount t' h = removed + hashCount t h)
    (hsteps : removalSteps h (f + 1) k t = removalSteps h f k' t' + 1) :
    Removal n h (f + 1) k (m + 1) removed t r where
  sound := hR.sound
  books := hR.books
  count := hR.count.trans hcount
  clears := by
    rw [hsteps, hR.clears]
    omega
  others := hK.trans hR.others

/-- The loop deletes the entries of `h` one after the other, as far as its iterations go. -/
lemma removeFrom_clears {f m removed : ℕ} (hS : Sound n t) (hB : Books t) (hk : k ≤ n)
    (hb : ∀ j, j < k → ¬ (t.at n h j).Has h) (hf : hashCount t h + (n - k) ≤ f) :
    Removal n h f k m removed t (removeFrom h m ((h + k) % n) (k % 2 ^ 16) removed t) := by
  have hcap := hS.cap
  have hpos := hS.pos
  induction m generalizing k f removed t with
  | zero =>
    refine ⟨hS, hB, rfl, ?_, KeepsOthers.refl h t⟩
    show hashCount t h = 0 ↔ removalSteps h f k t ≤ 0
    cases f with
    | zero =>
      rw [removalSteps]
      exact iff_of_true (by omega) le_rfl
    | succ f =>
      rw [removalSteps]
      by_cases h0 : hashCount t h = 0
      · rw [if_pos h0]
        exact iff_of_true h0 le_rfl
      · rw [if_neg h0]
        refine iff_of_false h0 ?_
        split <;> omega
  | succ m ih =>
    by_cases h0 : hashCount t h = 0
    · rw [removeFrom_idle _ (hcap.symm ▸ hpos) (hcap.symm ▸ Nat.mod_lt _ hpos) h0]
      refine ⟨hS, hB, rfl, iff_of_true h0 ?_, KeepsOthers.refl h t⟩
      cases f with
      | zero => exact Nat.zero_le _
      | succ f =>
        rw [removalSteps, if_pos h0]
        exact Nat.zero_le _
    obtain ⟨j, hj, hhas⟩ := hashCount_pos hcap h0
    have hkj : k ≤ j := by
      by_contra hlt
      exact hb j (not_le.mp hlt) hhas
    have hkn : k < n := lt_of_le_of_lt hkj hj
    obtain ⟨f, rfl⟩ : ∃ g, f = g + 1 := ⟨f - 1, by omega⟩
    obtain ⟨hne, hpass⟩ := hS.passes hj hhas.1 hhas.2 hkj
    have h16 : k % 2 ^ 16 = k := by
      refine Nat.mod_eq_of_lt (lt_of_le_of_lt hkj ?_)
      have := (hS.slots _ (Nat.mod_lt (h + j) hpos) hhas.1).pd16
      rwa [show (t.slot ((h + j) % n)).pd = j from hS.pd_eq hj hhas.1 hhas.2] at this
    obtain ⟨e1, e2⟩ := step_offset hcap h k
    have hslot : t.slot ((h + k) % n) = t.at n h k := rfl
    -- the slot holds no entry of `h`
    have hadvance : ¬ (t.at n h k).Has h → Removal n h (f + 1) k (m + 1) removed t
        (removeFrom h m ((h + (k + 1)) % n) ((k + 1) % 2 ^ 16) removed t) := by
      intro hno
      have hb' : ∀ j, j < k + 1 → ¬ (t.at n h j).Has h := by
        intro i hi
        rcases Nat.eq_or_lt_of_le (Nat.le_of_lt_succ hi) with rfl | hlt
        · exact hno
        · exact hb i hlt
      refine (@ih _ _ f removed hS hB hkn hb' (by omega) hcap).step
        (KeepsOthers.refl h t) rfl ?_
      rw [removalSteps, if_neg h0, hcap, if_neg hno]
    rw [removeFrom, e1, e2, hslot, if_neg hne]
    rcases Slot.trichotomy (t.at n h k) with he | ht | hl
    · exact absurd he hne
    · rw [if_pos ht]
      exact hadvance fun hc => hc.1.not_tomb ht
    · rw [if_neg hl.not_tomb, h16, if_neg (not_lt.mpr (hpass hl))]
      by_cases hh : (t.at n h k).hash = h
      · -- a deletion
        rw [if_pos hh]
        have hi : (h + k) % n < n := Nat.mod_lt _ hpos
        have hhas' : (t.slot ((h + k) % n)).Has h := ⟨hl, hh⟩
        have hD := deleteAt_deletes hS hi hl
        obtain ⟨hB', hcap'⟩ := deleteAt_books hB (hcap.symm ▸ hi) hl
        have hcount := deleteAt_hashCount hS hi hhas'
        have hbehind := deleteAt_behind hB.toFormed hcap hkn hb
        have hrec := @ih _ _ f (removed + 1) hD.sound hB' hk hbehind (by omega)
          hD.sound.cap
        rw [h16] at hrec
        refine hrec.step (deleteAt_keepsOthers hB hS hi hhas') (by omega) ?_
        rw [removalSteps, if_neg h0, hcap, if_pos ⟨hl, hh⟩]
      · rw [if_neg hh]
        have := hadvance fun hc => hh hc.2
        rwa [← h16] at this ⊢

/-! ## What is reported before and after -/

/-- A value under a hash occurs as often as the pair of the two. -/
lemma count_valuesOf (c : Multiset (ℕ × ℕ)) (h v : ℕ) :
    (valuesOf c h).count v = c.count (h, v) := by
  induction c using Multiset.induction with
  | empty => rfl
  | cons e c ih =>
    obtain ⟨a, b⟩ := e
    unfold valuesOf at ih ⊢
    rw [Multiset.count_cons, ← ih]
    by_cases ha : a = h
    · rw [Multiset.filter_cons_of_pos (p := fun e : ℕ × ℕ => e.1 = h) c ha, Multiset.map_cons,
        Multiset.count_cons]
      by_cases hb : v = b
      · simp [ha, hb]
      · simp [hb]
    · rw [Multiset.filter_cons_of_neg (p := fun e : ℕ × ℕ => e.1 = h) c ha]
      simp [Ne.symm ha]

/-- The second report of the ideal slot by a search that laps the array. -/
def lapVals (t : HtBare) (hash : ℕ) : Multiset ℕ :=
  if Laps t hash ∧ (t.slot (h48 hash % t.capacity)).Has (h48 hash) then
    {(t.slot (h48 hash % t.capacity)).val}
  else 0

/-- In a sound table every slot with an entry is seen. -/
lemma seenCount_eq (hS : Sound n t) (h v : ℕ) :
    seenCount t h v = t.main.countP fun s => decide (s.Holds h v) := by
  unfold seenCount
  refine List.countP_congr fun s hs => ?_
  rw [decide_eq_true_eq, decide_eq_true_eq]
  refine ⟨fun hc => hc.1, fun hc => ⟨hc, ?_⟩⟩
  rintro ⟨h1, h2, h3⟩
  obtain ⟨p, hp, rfl⟩ := List.getElem_of_mem hs
  have hslot : t.slot p = t.main[p] := by
    unfold HtBare.slot
    rw [List.getD_eq_getElem?_getD, List.getElem?_eq_getElem hp]
    rfl
  have hpn : p < n := hS.cap ▸ hp
  have hle := hS.limit h1 h2 p hpn (hslot.symm ▸ hc.1)
  rw [hslot] at hle
  omega

/-- In a sound table `ht_bare_find_all` reports what is stored, and the ideal slot once more when it
laps. -/
lemma coe_htBareFindAll {hash : ℕ} (hS : Sound n t) (hF : Formed t) (hh : ¬ h48 hash < 2) :
    (htBareFindAll t hash : Multiset ℕ) = valuesOf t.contents (h48 hash) + lapVals t hash := by
  have hS' : Sound n t.unlimited :=
    ⟨hS.pos, hS.cap, hS.reach, hS.slots, nofun, hS.spill, hS.overflow, hS.vals⟩
  refine Multiset.ext.mpr fun v => ?_
  rw [Multiset.coe_count, Multiset.count_add, count_valuesOf, count_contents, hF.count_spill hh,
    count_htBareFindAll hS' hh, seenCount_eq hS]
  have hlap : (lapVals t hash).count v = if Laps t hash ∧
      (t.slot (h48 hash % t.capacity)).Holds (h48 hash) v then 1 else 0 := by
    unfold lapVals
    by_cases hc : Laps t hash ∧ (t.slot (h48 hash % t.capacity)).Has (h48 hash)
    · rw [if_pos hc, Multiset.count_singleton]
      by_cases hv : v = (t.slot (h48 hash % t.capacity)).val
      · rw [if_pos hv, if_pos ⟨hc.1, hc.2.1, hc.2.2, hv.symm⟩]
      · rw [if_neg hv, if_neg fun hc' => hv hc'.2.2.2.symm]
    · rw [if_neg hc, if_neg fun hc' => hc ⟨hc'.1, hc'.2.1, hc'.2.2.1⟩]
      rfl
  rw [hlap]
  omega

/-- The number of stored values of a hash of the main array. -/
lemma card_valuesOf {hash : ℕ} (hF : Formed t) (hh : ¬ hash < 2) :
    (valuesOf t.contents hash).card =
      hashCount t hash + t.overflow.countP fun e => decide (e.1 = hash) := by
  have hspill : (t.spill : Multiset (ℕ × ℕ)).countP (fun e => e.1 = hash) = 0 := by
    rw [Multiset.coe_countP, List.countP_eq_zero]
    intro e he hc
    have := (hF.spill e he).1
    have : e.1 = hash := of_decide_eq_true hc
    omega
  unfold valuesOf HtBare.contents
  rw [Multiset.card_map, ← Multiset.countP_eq_card_filter, Multiset.countP_add, Multiset.countP_add,
    ← hashCount_eq, hspill, Multiset.coe_countP]
  omega

/-- The search for `hash'` begins to lap when the entries of `hash` have become tombstones. -/
def LapsWithout (t : HtBare) (hash hash' : ℕ) : Prop :=
  t.capacity % 2 ^ 16 = 0 ∧ ∀ j, j < t.capacity →
    goesOn t (h48 hash') j ∨ (t.at t.capacity (h48 hash') j).Has (h48 hash)

instance (t : HtBare) (hash hash' : ℕ) : Decidable (LapsWithout t hash hash') :=
  inferInstanceAs (Decidable (_ ∧ _))

/-- Which searches lap after all entries of a hash are gone. -/
lemma laps_after {hash hash' : ℕ} (hK : KeepsOthers (h48 hash) t t')
    (h0 : hashCount t' (h48 hash) = 0) : Laps t' hash' ↔ LapsWithout t hash hash' := by
  by_cases he : ∃ i, i < t.capacity ∧ (t.slot i).Empty
  · -- an empty slot stops every search
    have hno : ∀ {t : HtBare}, (∃ i, i < t.capacity ∧ (t.slot i).Empty) →
        ∃ j, j < t.capacity ∧ (t.at t.capacity (h48 hash') j).Empty := by
      rintro t ⟨i, hi, hie⟩
      obtain ⟨j, hj, hoff⟩ := exists_offset (h48 hash') hi
      refine ⟨j, hj, ?_⟩
      unfold HtBare.at
      rw [hoff]
      exact hie
    obtain ⟨j, hj, hje⟩ := hno he
    obtain ⟨j', hj', hje'⟩ := hno (hK.empty he)
    refine iff_of_false (fun hL => (hL.2 j' hj').1 hje') fun hL => ?_
    rcases hL.2 j hj with h | h
    · exact h.1 hje
    · exact h.1.not_empty hje
  · push Not at he
    have hgoes : ∀ j, j < t.capacity → (goesOn t' (h48 hash') j ↔
        goesOn t (h48 hash') j ∨ (t.at t.capacity (h48 hash') j).Has (h48 hash)) := by
      intro j hj
      have hi : (h48 hash' + j) % t.capacity < t.capacity := Nat.mod_lt _ (by omega)
      have hgone := not_has_of_hashCount (hK.cap.symm ▸ hi) h0
      unfold goesOn searchStops HtBare.at
      rw [hK.cap] at hgone
      rw [hK.cap, hK.violated, hK.limit]
      rcases hK.full he _ hi with hs | ⟨hhas, hs⟩
      · rw [hs] at hgone ⊢
        exact ⟨.inl, fun hc => hc.resolve_right hgone⟩
      · rw [hs]
        refine iff_of_true ?_ (.inr hhas)
        exact ⟨Slot.tombSlot_tomb.not_empty, fun hl => absurd hl Slot.tombSlot_tomb.not_live⟩
    unfold Laps LapsWithout
    rw [hK.cap]
    exact and_congr_right fun _ => forall₂_congr fun j hj => hgoes j hj

/-- What laps before laps afterwards. -/
lemma Laps.without {hash hash' : ℕ} (hL : Laps t hash') : LapsWithout t hash hash' :=
  ⟨hL.1, fun j hj => .inl (hL.2 j hj)⟩

/-- The second reports of another hash are the same unless its search begins to lap. -/
lemma lapVals_after {hash hash' : ℕ} (hK : KeepsOthers (h48 hash) t t')
    (h0 : hashCount t' (h48 hash) = 0) (hne : h48 hash' ≠ h48 hash) (hpos : 0 < t.capacity) :
    lapVals t' hash' = lapVals t hash' ↔ ¬ ((t.slot (h48 hash' % t.capacity)).Has (h48 hash') ∧
      ¬ Laps t hash' ∧ LapsWithout t hash hash') := by
  have hi := Nat.mod_lt (h48 hash') hpos
  have hideal : Laps t' hash' → t'.slot (h48 hash' % t.capacity) = t.slot (h48 hash' % t.capacity) ∨
      ¬ (t.slot (h48 hash' % t.capacity)).Has (h48 hash') ∧
      ¬ (t'.slot (h48 hash' % t.capacity)).Has (h48 hash') := by
    intro hL
    by_cases he : ∃ i, i < t.capacity ∧ (t.slot i).Empty
    · obtain ⟨i, hic, hie⟩ := hK.empty he
      exact absurd hie (hL.no_empty hic)
    · push Not at he
      rcases hK.full he _ hi with hs | ⟨hhas, hs⟩
      · exact .inl hs
      · right
        rw [hs]
        exact ⟨fun hc => hne (hc.2.symm.trans hhas.2), fun hc => hc.1.not_tomb Slot.tombSlot_tomb⟩
  unfold lapVals
  rw [hK.cap]
  by_cases hL' : Laps t' hash'
  · have hW := (laps_after hK h0).mp hL'
    rcases hideal hL' with hs | ⟨h1, h2⟩
    · rw [hs]
      by_cases hhas : (t.slot (h48 hash' % t.capacity)).Has (h48 hash')
      · by_cases hL : Laps t hash'
        · rw [if_pos ⟨hL', hhas⟩, if_pos ⟨hL, hhas⟩]
          exact iff_of_true rfl fun hc => hc.2.1 hL
        · rw [if_pos ⟨hL', hhas⟩, if_neg fun hc => hL hc.1]
          exact iff_of_false (Multiset.singleton_ne_zero _) fun hc => hc ⟨hhas, hL, hW⟩
      · rw [if_neg fun hc => hhas hc.2, if_neg fun hc => hhas hc.2]
        exact iff_of_true rfl fun hc => hhas hc.1
    · rw [if_neg fun hc => h2 hc.2, if_neg fun hc => h1 hc.2]
      exact iff_of_true rfl fun hc => h1 hc.1
  · have hW : ¬ LapsWithout t hash hash' := fun h => hL' ((laps_after hK h0).mpr h)
    have hL : ¬ Laps t hash' := fun h => hW h.without
    rw [if_neg fun hc => hL' hc.1, if_neg fun hc => hL hc.1]
    exact iff_of_true rfl fun hc => hW hc.2.2

/-! ## `ht_bare_remove` -/

/-- `ht_bare_remove` removes what `ht_bare_find_all` reports for the hash, and leaves what it
reports for the others. -/
structure Clears (t : HtBare) (hash : ℕ) : Prop where
  count : (htBareRemove t hash).1 = (htBareFindAll t hash).length
  gone : htBareFindAll (htBareRemove t hash).2 hash = []
  others : ∀ hash', h48 hash' ≠ h48 hash →
    (htBareFindAll (htBareRemove t hash).2 hash' : Multiset ℕ) = htBareFindAll t hash'

/-- The search for another hash, whose ideal slot holds one of its entries, begins to lap the array
when the entries of `hash` have become tombstones. -/
def StartsLap (t : HtBare) (hash : ℕ) : Prop :=
  ∃ hash', h48 hash' ≠ h48 hash ∧ (t.slot (h48 hash' % t.capacity)).Has (h48 hash') ∧
    ¬ Laps t hash' ∧ LapsWithout t hash hash'

/-- When `ht_bare_remove` does what it is meant to do: its iterations suffice, and no search laps
the array with an entry of its hash in its ideal slot. -/
def RemoveFits (t : HtBare) (hash : ℕ) : Prop :=
  removalSteps (h48 hash) (2 * t.capacity) 0 t ≤ t.capacity + 1 ∧
  ¬ (Laps t hash ∧ (t.slot (h48 hash % t.capacity)).Has (h48 hash)) ∧ ¬ StartsLap t hash

/-- The probe loop of `ht_bare_find_all` reads the main array and the probe limit. -/
lemma findAllFrom_congr (t t' : HtBare) (hm : t'.main = t.main)
    (hv : t'.overflowViolated = t.overflowViolated) (hp : t'.maxProbeDist = t.maxProbeDist)
    (h m idx dist : ℕ) :
    findAllFrom t' h m idx dist = findAllFrom t h m idx dist := by
  have hcap : t'.capacity = t.capacity := congrArg List.length hm
  have hslot : ∀ i, t'.slot i = t.slot i := fun i => congrArg (·.getD i Slot.emptySlot) hm
  have hstop : ∀ s d, searchStops t' s d ↔ searchStops t s d := by
    intro s d
    unfold searchStops
    rw [hv, hp]
  induction m generalizing idx dist with
  | zero => rfl
  | succ m ih =>
    unfold findAllFrom
    simp only [hslot, hcap, hstop, ih]

/-- In the spill lane `ht_bare_remove` takes exactly the entries of the hash. -/
lemma clears_small {hash : ℕ} (hh : h48 hash < 2) : Clears t hash := by
  have hr : htBareRemove t hash = bareSpillRemove t (h48 hash) := by
    unfold htBareRemove
    rw [if_pos hh]
  have hsplit := List.length_eq_length_filter_add (l := t.spill) fun e => decide (e.1 = h48 hash)
  have hneg : (t.spill.filter fun e => !decide (e.1 = h48 hash)) =
      t.spill.filter fun e => e.1 ≠ h48 hash := by
    refine List.filter_congr fun e _ => ?_
    rw [decide_not]
  constructor
  · rw [hr]
    unfold htBareFindAll bareSpillRemove laneVals
    rw [if_pos hh, List.length_map]
    show t.spill.length - (t.spill.filter fun e => e.1 ≠ h48 hash).length = _
    rw [hneg] at hsplit
    omega
  · rw [hr]
    unfold htBareFindAll bareSpillRemove laneVals
    rw [if_pos hh, List.map_eq_nil_iff, List.filter_eq_nil_iff]
    intro e he
    have hne := of_decide_eq_true (List.mem_filter.mp he).2
    rw [decide_eq_true_eq]
    exact hne
  · intro hash' hne
    rw [hr]
    refine Multiset.ext.mpr fun v => ?_
    rw [Multiset.coe_count, Multiset.coe_count]
    by_cases hh' : h48 hash' < 2
    · rw [count_htBareFindAll_spill hh', count_htBareFindAll_spill hh']
      exact List.count_filter (decide_eq_true hne)
    · have hsame :
          htBareFindAll (bareSpillRemove t (h48 hash)).2 hash' = htBareFindAll t hash' := by
        unfold htBareFindAll
        rw [if_neg hh', if_neg hh',
          findAllFrom_congr t (bareSpillRemove t (h48 hash)).2 rfl rfl rfl]
        rfl
      rw [hsame]

/-- What the array of another hash reports comes from the slots, the ideal slot a second time, and
the overflow stash. -/
lemma htBareFindAll_others {hash hash' : ℕ} (hS : Sound n t) (hF : Formed t) (hS' : Sound n t')
    (hF' : Formed t') (hK : KeepsOthers (h48 hash) t t') (hne : h48 hash' ≠ h48 hash)
    (hh : ¬ h48 hash' < 2) :
    (htBareFindAll t' hash' : Multiset ℕ) = htBareFindAll t hash' ↔
      lapVals t' hash' = lapVals t hash' := by
  have hvals : valuesOf t'.contents (h48 hash') = valuesOf t.contents (h48 hash') := by
    refine Multiset.ext.mpr fun v => ?_
    rw [count_valuesOf, count_valuesOf, count_contents, count_contents, hK.main _ _ hne, hK.spill,
      hK.overflow]
  rw [coe_htBareFindAll hS hF hh, coe_htBareFindAll hS' hF' hh, hvals]
  exact add_right_inj _

/-- The overflow part of `ht_bare_remove` does not touch the main array. -/
lemma overflowStashRemove_others (h : ℕ) {hash' : ℕ} (hne : h48 hash' ≠ h) :
    htBareFindAll (overflowStashRemove t h).2 hash' = htBareFindAll t hash' := by
  have hlane : laneVals (overflowStashRemove t h).2.overflow (h48 hash') =
      laneVals t.overflow (h48 hash') := by
    unfold laneVals overflowStashRemove
    rw [List.filter_filter]
    congr 1
    refine List.filter_congr fun e _ => ?_
    by_cases he : e.1 = h48 hash'
    · rw [he]
      simp [hne]
    · simp [he]
  unfold htBareFindAll
  rw [hlane, findAllFrom_congr t (overflowStashRemove t h).2 rfl rfl rfl]
  rfl

/-- When `ht_bare_remove` does what it is meant to do. -/
lemma clears_iff {hash : ℕ} (hB : Books t) (hchk : htBareCheckInvariants t = none)
    (hl : t.Limited) :
    Clears t hash ↔ (2 ≤ h48 hash → RemoveFits t hash) := by
  by_cases hh : h48 hash < 2
  · exact iff_of_true (clears_small hh) fun h2 => absurd hh (not_lt.mpr h2)
  have hS := ((htBareCheckInvariants_iff hB).mp hchk).of_limited hl
  have hpos := hS.pos
  have hcount : hashCount t (h48 hash) ≤ t.capacity := List.countP_le_length
  have hR := (@removeFrom_clears _ (h48 hash) 0 _ (2 * t.capacity) (t.capacity + 1) 0) hS hB
    (Nat.zero_le _) (fun j hj => absurd hj (Nat.not_lt_zero j))
    (by omega)
  rw [Nat.zero_mod, Nat.add_zero (h48 hash)] at hR
  obtain ⟨r, hr⟩ : ∃ r, removeFrom (h48 hash) (t.capacity + 1) (h48 hash % t.capacity) 0 0 t = r :=
    ⟨_, rfl⟩
  rw [hr] at hR
  have hrem : htBareRemove t hash = (r.1 + (overflowStashRemove r.2 (h48 hash)).1,
      (overflowStashRemove r.2 (h48 hash)).2) := by
    unfold htBareRemove
    rw [if_neg hh, hr]
  obtain ⟨o, ho⟩ : ∃ o, o = overflowStashRemove r.2 (h48 hash) := ⟨_, rfl⟩
  rw [← ho] at hrem
  -- the count
  have hover : o.1 = r.2.overflow.countP fun e => decide (e.1 = h48 hash) := by
    rw [ho]
    show r.2.overflow.length - (r.2.overflow.filter fun e => e.1 ≠ h48 hash).length = _
    have hsplit := List.length_eq_countP_add_countP (l := r.2.overflow)
      fun e => decide (e.1 = h48 hash)
    have hneg : (r.2.overflow.countP fun e => decide ¬ (decide (e.1 = h48 hash) = true)) =
        (r.2.overflow.filter fun e => e.1 ≠ h48 hash).length := by
      rw [← List.countP_eq_length_filter]
      refine List.countP_congr fun e _ => ?_
      simp
    omega
  have hlen :
      (htBareFindAll t hash).length = hashCount t (h48 hash) + o.1 + (lapVals t hash).card := by
    rw [← Multiset.coe_card, coe_htBareFindAll hS hB.toFormed hh, Multiset.card_add,
      card_valuesOf hB.toFormed hh, hover, hR.others.overflow]
  have hcnt := hR.count
  have hboth : (htBareRemove t hash).1 = (htBareFindAll t hash).length ↔
      hashCount r.2 (h48 hash) = 0 ∧ (lapVals t hash).card = 0 := by
    rw [hrem, hlen]
    show r.1 + o.1 = _ ↔ _
    omega
  have hlapno : (lapVals t hash).card = 0 ↔
      ¬ (Laps t hash ∧ (t.slot (h48 hash % t.capacity)).Has (h48 hash)) := by
    unfold lapVals
    split
    · rename_i hc
      rw [Multiset.card_singleton]
      exact iff_of_false one_ne_zero fun hno => hno hc
    · rename_i hc
      exact iff_of_true Multiset.card_zero hc
  -- the other hashes
  have hothers : hashCount r.2 (h48 hash) = 0 →
      ((∀ hash', h48 hash' ≠ h48 hash →
        (htBareFindAll (htBareRemove t hash).2 hash' : Multiset ℕ) = htBareFindAll t hash') ↔
      ¬ StartsLap t hash) := by
    intro h0
    have hone : ∀ hash', h48 hash' ≠ h48 hash →
        ((htBareFindAll (htBareRemove t hash).2 hash' : Multiset ℕ) = htBareFindAll t hash' ↔
        ¬ ((t.slot (h48 hash' % t.capacity)).Has (h48 hash') ∧ ¬ Laps t hash' ∧
          LapsWithout t hash hash')) := by
      intro hash' hne
      rw [hrem, ho, overflowStashRemove_others _ hne]
      by_cases hh' : h48 hash' < 2
      · refine iff_of_true ?_ fun hc => ?_
        · unfold htBareFindAll
          rw [if_pos hh', if_pos hh', hR.others.spill]
        · have hlive := hc.1.1
          unfold Slot.Live at hlive
          have := hc.1.2
          omega
      · rw [htBareFindAll_others hS hB.toFormed hR.sound hR.books.toFormed hR.others hne hh',
          lapVals_after hR.others h0 hne hpos]
    constructor
    · rintro hall ⟨hash', hne, hc⟩
      exact (hone hash' hne).mp (hall hash' hne) hc
    · intro hno hash' hne
      exact (hone hash' hne).mpr fun hc => hno ⟨hash', hne, hc⟩
  constructor
  · intro hC _
    obtain ⟨h0, hlap⟩ := hboth.mp hC.count
    exact ⟨hR.clears.mp h0, hlapno.mp hlap, (hothers h0).mp hC.others⟩
  · intro hfit
    obtain ⟨hsteps, hlap, hstart⟩ := hfit (not_lt.mp hh)
    have h0 := hR.clears.mpr hsteps
    refine ⟨hboth.mpr ⟨h0, hlapno.mpr hlap⟩, ?_, (hothers h0).mpr hstart⟩
    -- nothing of the hash is left
    rw [hrem, ho]
    unfold htBareFindAll
    rw [if_neg hh, List.append_eq_nil_iff]
    constructor
    · rw [findAllFrom_congr r.2 (overflowStashRemove r.2 (h48 hash)).2 rfl rfl rfl]
      have hpos' := hR.books.capacity_pos
      exact findAllFrom_idle _ hpos' (Nat.mod_lt _ hpos') h0
    · unfold laneVals
      rw [List.map_eq_nil_iff, List.filter_eq_nil_iff]
      intro e he
      rw [decide_eq_true_eq]
      exact of_decide_eq_true (List.mem_filter.mp he).2

/-- `ht_bare_remove` on a reachable table that passes the check and hides no entry behind the probe
limit: it removes what is reported of the hash and leaves what is reported of the others exactly
when the hash belongs to the spill lane or the iterations of its loop suffice and no search laps the
array. -/
theorem htBareRemove_clears_iff (cfg : HtConfig) (mem : List Bool) (fuel : ℕ)
    (calls : List BareCall) (t₀ t : HtBare) (hash : ℕ) (hc : htBareCreate cfg mem fuel = some t₀)
    (hr : runCalls calls t₀ = some t) (hchk : htBareCheckInvariants t = none) (hl : t.Limited) :
    Clears t hash ↔ (2 ≤ h48 hash → RemoveFits t hash) :=
  clears_iff (runCalls_books (htBareCreate_books hc) hr) hchk hl

/-- The table after `pairCalls`. -/
theorem htBareRemove_clears_pair : ∃ t, runCalls pairCalls defaultTable = some t ∧
    htBareFindAll t 5 = [10, 11] ∧ Clears t 5 := by
  have h : (runCalls pairCalls defaultTable).map (fun t =>
      (htBareCheckInvariants t, htBareFindAll t 5, decide (t.capacity % 2 ^ 16 = 0),
        decide t.Limited, decide (removalSteps (h48 5) (2 * t.capacity) 0 t ≤ t.capacity + 1))) =
      some (none, [10, 11], false, true, true) := by
    decide +kernel
  obtain ⟨t, hr, h⟩ := Option.map_eq_some_iff.mp h
  simp only [Prod.mk.injEq, decide_eq_false_iff_not, decide_eq_true_eq] at h
  obtain ⟨hchk, hfind, hcap, hlim, hsteps⟩ := h
  have hc : htBareCreate defaultCfg [] 0 = some defaultTable := by decide +kernel
  refine ⟨t, hr, hfind, (htBareRemove_clears_iff defaultCfg [] 0 pairCalls defaultTable t 5 hc hr
    hchk hlim).mpr fun _ => ⟨hsteps, fun hL => hcap hL.1.1, ?_⟩⟩
  rintro ⟨hash', -, -, -, hL⟩
  exact hcap hL.1

/-- 48 values of one hash. -/
def longRun : List BareCall := (List.range 48).map fun i => .op (.insert 5 i)

/-- Of 48 values in an array of 64 slots one call removes 33. -/
theorem htBareRemove_clears_fails : ∃ t, runCalls longRun defaultTable = some t ∧
    htBareCheckInvariants t = none ∧ (htBareFindAll t 5).length = 48 ∧ (htBareRemove t 5).1 = 33 ∧
    (htBareFindAll (htBareRemove t 5).2 5).length = 15 ∧ ¬ Clears t 5 := by
  have h : (runCalls longRun defaultTable).map (fun t =>
      (htBareCheckInvariants t, (htBareFindAll t 5).length, (htBareRemove t 5).1,
        (htBareFindAll (htBareRemove t 5).2 5).length)) = some (none, 48, 33, 15) := by
    decide +kernel
  obtain ⟨t, hr, h⟩ := Option.map_eq_some_iff.mp h
  simp only [Prod.mk.injEq] at h
  obtain ⟨hchk, hfind, hrem, hleft⟩ := h
  refine ⟨t, hr, hchk, hfind, hrem, hleft, fun hC => ?_⟩
  rw [hC.gone] at hleft
  cases hleft

end Draugr
