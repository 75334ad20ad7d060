import Draugr.Bare.Delete

/-!
# Lookup and removal by value

In a sound table the probe sequence of a hash passes every entry of that hash before it stops:
`Sound.passes` turns the arrival condition of an entry into the tests the loops make. From it,
`ht_bare_find_all` visits exactly the entries of the hash (`htBareFindAll_eq`), `ht_bare_find` is
its first visit (`htBareFind_eq`) and `ht_bare_remove_val` drops one entry if there is one
(`htBareRemoveVal_spec`).

The loops take `capacity + 1` steps, so a search that is never stopped comes to its ideal slot a
second time, at distance `capacity` modulo 2^16. `Laps` is that this happens with the distance back
at zero; `ht_bare_find_all` then visits the entries of the ideal slot twice.
-/

namespace Draugr
open Lib

variable {n : ℕ} {t t' : HtBare} {h v k : ℕ}

/-- A search at offset `j` of the probe sequence of `h` goes on. -/
def goesOn (t : HtBare) (h j : ℕ) : Prop :=
  ¬ (t.at t.capacity h j).Empty ∧
    ((t.at t.capacity h j).Live → ¬ searchStops t (t.at t.capacity h j) (j % 2 ^ 16))

instance (t : HtBare) (h j : ℕ) : Decidable (goesOn t h j) := inferInstanceAs (Decidable (_ ∧ _))

/-- The search for `h` walks around the whole array and starts over at distance zero. -/
def Laps (t : HtBare) (hash : ℕ) : Prop :=
  t.capacity % 2 ^ 16 = 0 ∧ ∀ j, j < t.capacity → goesOn t (h48 hash) j

instance (t : HtBare) (hash : ℕ) : Decidable (Laps t hash) := inferInstanceAs (Decidable (_ ∧ _))

/-- The values of the entries of `h` at offset `j` of its probe sequence. -/
def valsAt (t : HtBare) (n h j : ℕ) : List ℕ :=
  if (t.at n h j).Live ∧ (t.at n h j).hash = h then [(t.at n h j).val] else []

/-! ## The probe sequence of an entry -/

/-- An entry of hash `h` at offset `j` of the probe sequence of `h` stores the distance `j`. -/
lemma Sound.pd_eq (hS : Sound n t) {j : ℕ} (hj : j < n) (hl : (t.at n h j).Live)
    (hh : (t.at n h j).hash = h) : (t.at n h j).pd = j := by
  have hseat : Seated n ((h + j) % n) (t.at n h j) := hS.slots _ (Nat.mod_lt (h + j) hS.pos) hl
  have hideal : (h + (t.at n h j).pd) % n = (h + j) % n := by
    have := hseat.ideal
    rwa [hh] at this
  have hm : (t.at n h j).pd ≡ j [MOD n] := Nat.ModEq.add_left_cancel' h hideal
  rw [Nat.ModEq, Nat.mod_eq_of_lt hseat.pd_lt, Nat.mod_eq_of_lt hj] at hm
  exact hm

/-- Before the entry at offset `j` of its probe sequence, no slot is empty and no entry has a
smaller distance than the search. -/
lemma Sound.passes (hS : Sound n t) {j : ℕ} (hj : j < n) (hl : (t.at n h j).Live)
    (hh : (t.at n h j).hash = h) (hkj : k ≤ j) :
    ¬ (t.at n h k).Empty ∧ ((t.at n h k).Live → k ≤ (t.at n h k).pd) := by
  have hpd := hS.pd_eq hj hl hh
  rcases Nat.eq_or_lt_of_le hkj with rfl | hlt
  · exact ⟨hl.not_empty, fun _ => hpd.ge⟩
  have hcell : t.layout n ((h : ZMod n) + (j : ZMod n)) = .live j := by
    rw [HtBare.layout_offset, Slot.cell_live hl, hpd]
  have hp := hS.reach _ _ hcell (j - k) (by omega) (by omega)
  have e : (h : ZMod n) + (j : ZMod n) - ((j - k : ℕ) : ZMod n) = (h : ZMod n) + (k : ZMod n) := by
    rw [show (j : ZMod n) = ((k + (j - k) : ℕ) : ZMod n) by rw [Nat.add_sub_cancel' hkj]]
    push_cast
    ring
  rw [e, HtBare.layout_offset, show j - (j - k) = k by omega] at hp
  refine ⟨fun he => ?_, fun hlk => ?_⟩
  · rw [Slot.cell_empty he] at hp
    exact hp
  · rw [Slot.cell_live hlk] at hp
    exact hp

/-- Every entry of `h` lies beyond every slot the search for `h` goes past. -/
lemma Sound.goesOn (hS : Sound n t) {j : ℕ} (hj : j < n) (hl : (t.at n h j).Live)
    (hh : (t.at n h j).hash = h) (hkj : k ≤ j) : goesOn t h k := by
  obtain ⟨hne, hpd⟩ := hS.passes hj hl hh hkj
  have h16 : j < 2 ^ 16 := by
    have := (hS.slots _ (Nat.mod_lt (h + j) hS.pos) hl).pd16
    rwa [show (t.slot ((h + j) % n)).pd = j from hS.pd_eq hj hl hh] at this
  unfold Draugr.goesOn
  rw [hS.cap, Nat.mod_eq_of_lt (lt_of_le_of_lt hkj h16)]
  refine ⟨hne, fun hlk hstop => ?_⟩
  rcases hstop with hlt | ⟨hv, hm, hlt⟩
  · exact absurd (hpd hlk) (by omega)
  · have := hS.limit hv hm _ (Nat.mod_lt (h + j) hS.pos) hl
    rw [show (t.slot ((h + j) % n)).pd = j from hS.pd_eq hj hl hh] at this
    omega

/-! ## The loop of `ht_bare_find_all` -/

/-- One step along the probe sequence. -/
lemma step_offset (hc : t.capacity = n) (h k : ℕ) :
    ((h + k) % n + 1) % t.capacity = (h + (k + 1)) % n ∧
      (k % 2 ^ 16 + 1) % 2 ^ 16 = (k + 1) % 2 ^ 16 := by
  rw [hc, Nat.mod_add_mod, Nat.mod_add_mod]
  exact ⟨rfl, rfl⟩

/-- The last step, back at the ideal slot, visits nothing unless the distance has wrapped. -/
lemma findAllFrom_last (hS : Sound n t) (hn : n % 2 ^ 16 ≠ 0) :
    findAllFrom t h 1 ((h + n) % n) (n % 2 ^ 16) = [] := by
  rw [findAllFrom, findAllFrom, Nat.add_mod_right]
  split
  · rfl
  split
  · rfl
  split
  · rfl
  rename_i hne hnt hstop
  split
  · -- an entry of `h` at its ideal slot has distance zero
    rename_i hh
    exfalso
    have hl : (t.at n h 0).Live := ((Slot.trichotomy _).resolve_left hne).resolve_left hnt
    have hpd : (t.slot (h % n)).pd = 0 := hS.pd_eq hS.pos hl hh
    exact hstop (.inl (by omega))
  · rfl

/-- The loop visits the entries of `h` at the offsets still ahead. -/
lemma findAllFrom_eq (hS : Sound n t) (m : ℕ) (hk : k + m = n)
    (hpast : ∀ j, j < k → goesOn t h j)
    (hlap : n % 2 ^ 16 = 0 → ∃ j, j < n ∧ ¬ goesOn t h j) :
    findAllFrom t h (m + 1) ((h + k) % n) (k % 2 ^ 16) =
      (List.range' k m).flatMap (valsAt t n h) := by
  induction m generalizing k with
  | zero =>
    rw [Nat.add_zero] at hk
    subst hk
    have hn : k % 2 ^ 16 ≠ 0 := by
      intro h0
      obtain ⟨j, hj, hno⟩ := hlap h0
      exact hno (hpast j hj)
    rw [findAllFrom_last hS hn]
    rfl
  | succ m ih =>
    rw [findAllFrom]
    obtain ⟨e1, e2⟩ := step_offset hS.cap h k
    rw [e1, e2, List.range'_succ, List.flatMap_cons]
    -- if the search stops here, no entry of `h` lies here or ahead
    have hstopped : ¬ goesOn t h k →
        valsAt t n h k ++ (List.range' (k + 1) m).flatMap (valsAt t n h) = [] := by
      intro hno
      rw [← List.flatMap_cons, ← List.range'_succ, List.flatMap_eq_nil_iff]
      intro j hj
      obtain ⟨h1, h2⟩ := List.mem_range'_1.mp hj
      unfold valsAt
      rw [if_neg]
      rintro ⟨hl, hh⟩
      exact hno (hS.goesOn (by omega) hl hh h1)
    have hcont : goesOn t h k → findAllFrom t h (m + 1) ((h + (k + 1)) % n) ((k + 1) % 2 ^ 16) =
        (List.range' (k + 1) m).flatMap (valsAt t n h) := by
      intro hgo
      refine ih (by omega) fun j hj => ?_
      rcases Nat.eq_or_lt_of_le (Nat.le_of_lt_succ hj) with rfl | hlt
      · exact hgo
      · exact hpast j hlt
    have hat : t.at t.capacity h k = t.slot ((h + k) % n) := by
      unfold HtBare.at
      rw [hS.cap]
    have hval : valsAt t n h k = if (t.slot ((h + k) % n)).Live ∧ (t.slot ((h + k) % n)).hash = h
        then [(t.slot ((h + k) % n)).val] else [] := rfl
    split
    · rename_i hempty
      exact (hstopped fun hgo => hgo.1 (hat ▸ hempty)).symm
    rename_i hne
    split
    · rename_i htomb
      rw [hcont ⟨hat ▸ hne, fun hl => absurd htomb (hat ▸ hl).not_tomb⟩, hval,
        if_neg fun hc => htomb.not_live hc.1, List.nil_append]
    rename_i hnt
    have hl : (t.slot ((h + k) % n)).Live := ((Slot.trichotomy _).resolve_left hne).resolve_left hnt
    split
    · rename_i hstop
      exact (hstopped fun hgo => hgo.2 (hat ▸ hl) (hat ▸ hstop)).symm
    rename_i hgo
    rw [hcont ⟨hat ▸ hne, fun _ => hat ▸ hgo⟩, hval]
    split
    · rename_i hh
      rw [if_pos ⟨hl, hh⟩]
      rfl
    · rename_i hh
      rw [if_neg fun hc => hh hc.2]
      rfl

/-! ## From offsets to slots -/

/-- The offsets of a probe sequence enumerate the slots. -/
lemma offsets_perm (hpos : 0 < n) (h : ℕ) :
    ((List.range n).map fun j => (h + j) % n).Perm (List.range n) := by
  have hinj : ((List.range n).map fun j => (h + j) % n).Nodup := by
    refine (List.nodup_map_iff_inj_on List.nodup_range).mpr ?_
    intro a ha b hb hab
    by_contra hne
    exact offset_ne (List.mem_range.mp ha) (List.mem_range.mp hb) hne hab
  rw [List.perm_ext_iff_of_nodup hinj List.nodup_range]
  intro p
  rw [List.mem_map, List.mem_range]
  constructor
  · rintro ⟨j, _, rfl⟩
    exact Nat.mod_lt _ hpos
  · intro hp
    obtain ⟨j, hj, e⟩ := exists_offset h hp
    exact ⟨j, List.mem_range.mpr hj, e⟩

/-- The main array is the list of its slots. -/
lemma main_eq_map (hc : t.capacity = n) : t.main = (List.range n).map t.slot := by
  apply List.ext_getElem
  · rw [List.length_map, List.length_range]
    exact hc
  · intro i h1 h2
    rw [List.getElem_map, List.getElem_range, HtBare.slot, List.getD_eq_getElem?_getD,
      List.getElem?_eq_getElem h1]
    rfl

/-- The values under `h` of the entries of the main array, offset by offset. -/
lemma main_vals_perm (hS : Sound n t) (h : ℕ) :
    ((List.range n).flatMap (valsAt t n h)).Perm (laneVals (liveEntries t.main) h) := by
  -- one slot contributes the same value in both readings
  have hone : ∀ s : Slot, (if s.Live ∧ s.hash = h then [s.val] else []) =
      laneVals s.entry.toList h := by
    intro s
    unfold laneVals Slot.entry
    by_cases hl : s.Live
    · by_cases hh : s.hash = h
      · simp [hl, hh]
      · simp [hl, hh]
    · simp [hl]
  have hlane : laneVals (liveEntries t.main) h =
      (List.range n).flatMap fun p => laneVals (t.slot p).entry.toList h := by
    unfold liveEntries laneVals
    rw [main_eq_map hS.cap, List.filterMap_map, List.filterMap_eq_flatMap_toList,
      List.filter_flatMap, List.map_flatMap]
    rfl
  rw [hlane]
  have hoff : (List.range n).flatMap (valsAt t n h) =
      ((List.range n).map fun j => (h + j) % n).flatMap fun p =>
        laneVals (t.slot p).entry.toList h := by
    rw [List.flatMap_map]
    congr 1
    funext j
    exact hone _
  rw [hoff]
  exact (offsets_perm hS.pos h).flatMap_right _

/-- The values a multiset of entries holds under `h`. -/
def valuesOf (c : Multiset (ℕ × ℕ)) (h : ℕ) : Multiset ℕ := (c.filter fun e => e.1 = h).map (·.2)

/-- The values of a lane under a hash are those of its multiset. -/
lemma coe_laneVals (l : List (ℕ × ℕ)) (h : ℕ) :
    (laneVals l h : Multiset ℕ) = valuesOf (l : Multiset (ℕ × ℕ)) h := by
  unfold valuesOf laneVals
  rw [Multiset.filter_coe, Multiset.map_coe]

/-- The values under a hash in a sum. -/
lemma valuesOf_add (c d : Multiset (ℕ × ℕ)) (h : ℕ) :
    valuesOf (c + d) h = valuesOf c h + valuesOf d h := by
  unfold valuesOf
  rw [Multiset.filter_add, Multiset.map_add]

/-- A lane whose hashes all differ from `h` has no values under it. -/
lemma valuesOf_eq_zero {c : Multiset (ℕ × ℕ)} (hc : ∀ e ∈ c, e.1 ≠ h) : valuesOf c h = 0 := by
  unfold valuesOf
  rw [Multiset.filter_eq_nil.mpr hc, Multiset.map_zero]

/-- The entries of the main array have hashes from 2 on. -/
lemma liveEntries_hash {e : ℕ × ℕ} {main : List Slot} (he : e ∈ liveEntries main) : 2 ≤ e.1 := by
  obtain ⟨s, _, hs⟩ := List.mem_filterMap.mp he
  unfold Slot.entry at hs
  split at hs
  · rename_i hl
    cases hs
    exact hl
  · cases hs

/-- `ht_bare_find_all` visits exactly the values stored under the hash. -/
lemma htBareFindAll_eq (hS : Sound n t) {hash : ℕ} (hlap : ¬ Laps t hash) :
    (htBareFindAll t hash : Multiset ℕ) = valuesOf t.contents (h48 hash) := by
  unfold htBareFindAll HtBare.contents
  rw [valuesOf_add, valuesOf_add]
  split
  · -- hashes 0 and 1 live in the spill lane
    rename_i hsmall
    rw [valuesOf_eq_zero (h := h48 hash) (c := (liveEntries t.main : Multiset (ℕ × ℕ))),
      valuesOf_eq_zero (h := h48 hash) (c := (t.overflow : Multiset (ℕ × ℕ))), zero_add, add_zero,
      coe_laneVals]
    · intro e he
      have := (hS.overflow e he).1
      omega
    · intro e he
      have := liveEntries_hash (Multiset.mem_coe.mp he)
      omega
  · rename_i hbig
    have hno : n % 2 ^ 16 = 0 → ∃ j, j < n ∧ ¬ goesOn t (h48 hash) j := by
      intro h0
      by_contra hall
      push Not at hall
      exact hlap ⟨hS.cap ▸ h0, hS.cap.symm ▸ hall⟩
    have hfind := findAllFrom_eq (k := 0) hS n (by omega) (fun j hj => absurd hj (by omega)) hno
    rw [Nat.zero_mod, ← List.range_eq_range'] at hfind
    change findAllFrom t (h48 hash) (n + 1) (h48 hash % n) 0 = _ at hfind
    rw [hS.cap, hfind, ← Multiset.coe_add, Multiset.coe_eq_coe.mpr (main_vals_perm hS _),
      coe_laneVals, coe_laneVals,
      valuesOf_eq_zero (h := h48 hash) (c := (t.spill : Multiset (ℕ × ℕ))), add_zero]
    intro e he
    have := hS.spill e he
    omega

/-- The loop of `ht_bare_find` stops at the first visit of `ht_bare_find_all`. -/
lemma findFrom_eq (t : HtBare) (h m idx dist : ℕ) :
    findFrom t h m idx dist = (findAllFrom t h m idx dist).head? := by
  induction m generalizing idx dist with
  | zero => rfl
  | succ m ih =>
    rw [findFrom, findAllFrom]
    split
    · rfl
    split
    · exact ih _ _
    split
    · rfl
    split
    · rfl
    · exact ih _ _

/-- The first value of a lane under a hash. -/
lemma laneFind_eq (l : List (ℕ × ℕ)) (h : ℕ) : laneFind l h = (laneVals l h).head? := by
  unfold laneFind laneVals
  rw [List.head?_map, List.head?_filter]

/-- `ht_bare_find` returns the first value that `ht_bare_find_all` visits. -/
lemma htBareFind_eq (t : HtBare) (hash : ℕ) : htBareFind t hash = (htBareFindAll t hash).head? := by
  unfold htBareFind htBareFindAll
  split
  · exact laneFind_eq _ _
  · rw [findFrom_eq, List.head?_append, laneFind_eq]
    cases (findAllFrom t (h48 hash) (t.capacity + 1) (h48 hash % t.capacity) 0).head? <;> rfl

/-! ## Removal by value -/

/-- The loop of `ht_bare_remove_val` deletes at a slot that holds the entry. -/
lemma removeValFrom_some {m idx dist : ℕ} (hc : t.capacity = n) (hi : idx < n)
    (hr : removeValFrom t h v m idx dist = some t') :
    ∃ i, i < n ∧ (t.slot i).Live ∧ (t.slot i).hash = h ∧ (t.slot i).val = v ∧
      t' = deleteAt t i := by
  induction m generalizing idx dist with
  | zero => cases hr
  | succ m ih =>
    have hnext : (idx + 1) % t.capacity < n := by
      rw [hc]
      exact Nat.mod_lt _ (by omega)
    rw [removeValFrom] at hr
    split at hr
    · cases hr
    split at hr
    · exact ih hnext hr
    rename_i hne hnt
    split at hr
    · cases hr
    split at hr
    · rename_i hmatch
      cases hr
      exact ⟨idx, hi, ((Slot.trichotomy _).resolve_left hne).resolve_left hnt, hmatch.1, hmatch.2,
        rfl⟩
    · exact ih hnext hr

/-- Where an entry of the main array sits. -/
lemma exists_slot_of_mem (hc : t.capacity = n) (he : (h, v) ∈ liveEntries t.main) :
    ∃ p, p < n ∧ (t.slot p).Live ∧ (t.slot p).hash = h ∧ (t.slot p).val = v := by
  obtain ⟨s, hs, he⟩ := List.mem_filterMap.mp he
  rw [main_eq_map hc, List.mem_map] at hs
  obtain ⟨p, hp, rfl⟩ := hs
  unfold Slot.entry at he
  split at he
  · rename_i hl
    cases he
    exact ⟨p, List.mem_range.mp hp, hl, rfl, rfl⟩
  · cases he

/-- The loop of `ht_bare_remove_val` finds an entry at an offset still ahead. -/
lemma removeValFrom_ne_none {m j : ℕ} (hS : Sound n t) (hj : j < n) (hl : (t.at n h j).Live)
    (hh : (t.at n h j).hash = h) (hval : (t.at n h j).val = v) (hkj : k ≤ j) (hm : j < k + m) :
    removeValFrom t h v m ((h + k) % n) (k % 2 ^ 16) ≠ none := by
  induction m generalizing k with
  | zero => omega
  | succ m ih =>
    obtain ⟨hne, hpd⟩ := hS.passes hj hl hh hkj
    have h16 : j < 2 ^ 16 := by
      have := (hS.slots _ (Nat.mod_lt (h + j) hS.pos) hl).pd16
      rwa [show (t.slot ((h + j) % n)).pd = j from hS.pd_eq hj hl hh] at this
    obtain ⟨e1, e2⟩ := step_offset hS.cap h k
    have hslot : t.slot ((h + k) % n) = t.at n h k := rfl
    rw [removeValFrom, e1, e2, Nat.mod_eq_of_lt (lt_of_le_of_lt hkj h16), hslot]
    rcases Nat.eq_or_lt_of_le hkj with rfl | hlt
    · rw [if_neg hl.not_empty, if_neg hl.not_tomb, if_neg (not_lt.mpr (hpd hl)), if_pos ⟨hh, hval⟩]
      exact Option.some_ne_none _
    · rw [if_neg hne]
      split
      · exact ih hlt (by omega)
      rename_i hnt
      have hlk : (t.at n h k).Live := ((Slot.trichotomy _).resolve_left hne).resolve_left hnt
      rw [if_neg (not_lt.mpr (hpd hlk))]
      split
      · exact Option.some_ne_none _
      · exact ih hlt (by omega)

/-- The overflow stash loses one entry if it holds it. -/
lemma overflowStashRemoveVal_spec (hS : Sound n t) (h v : ℕ) :
    (overflowStashRemoveVal t h v = (false, t) ∧ (h, v) ∉ t.overflow) ∨
      ∃ t', overflowStashRemoveVal t h v = (true, t') ∧ Deleted n t h v t' := by
  unfold overflowStashRemoveVal
  cases hidx : t.overflow.findIdx? (· = (h, v)) with
  | none =>
    refine .inl ⟨rfl, fun hmem => ?_⟩
    rw [List.findIdx?_eq_none_iff] at hidx
    exact absurd rfl (of_decide_eq_false (hidx _ hmem))
  | some i =>
    right
    refine ⟨_, rfl, ?_⟩
    obtain ⟨hi, hmatch, _⟩ := List.findIdx?_eq_some_iff_getElem.mp hidx
    have hget : t.overflow.getD i (0, 0) = (h, v) := by
      rw [List.getD_eq_getElem?_getD, List.getElem?_eq_getElem hi]
      exact of_decide_eq_true hmatch
    -- up to order the removed entry is exchanged for the last one, which is dropped
    have hperm : ((h, v) :: (t.overflow.set i (t.overflow.getLastD (0, 0))).dropLast).Perm
        t.overflow := by
      exact set_last_dropLast_perm t.overflow i (0, 0) hi hget
    have hcon : (h, v) ::ₘ ({ t with
        overflow := (t.overflow.set i (t.overflow.getLastD (0, 0))).dropLast,
        size := sizeDec t.size } : HtBare).contents = t.contents := by
      unfold HtBare.contents
      rw [← Multiset.coe_eq_coe.mpr hperm, ← Multiset.cons_coe, Multiset.add_cons]
    refine ⟨⟨hS.pos, hS.cap, hS.reach, hS.slots, hS.limit, hS.spill, ?_, ?_⟩, hcon, rfl, rfl, rfl⟩
    · intro e he
      exact hS.overflow e (hperm.subset (List.mem_cons_of_mem _ he))
    · intro e he
      apply hS.vals e
      rw [← hcon]
      exact Multiset.mem_cons_of_mem he

/-- The spill lane loses one entry if it holds it. -/
lemma bareSpillRemoveVal_spec (hS : Sound n t) (h v : ℕ) :
    (bareSpillRemoveVal t h v = (false, t) ∧ (h, v) ∉ t.spill) ∨
      ∃ t', bareSpillRemoveVal t h v = (true, t') ∧ Deleted n t h v t' := by
  unfold bareSpillRemoveVal
  split
  · rename_i hmem
    right
    refine ⟨_, rfl, ?_⟩
    have hcon : (h, v) ::ₘ ({ t with spill := t.spill.erase (h, v), size := sizeDec t.size } :
        HtBare).contents = t.contents := by
      unfold HtBare.contents
      rw [Multiset.coe_eq_coe.mpr (List.perm_cons_erase hmem), ← Multiset.cons_coe,
        Multiset.add_cons, Multiset.cons_add]
    refine ⟨⟨hS.pos, hS.cap, hS.reach, hS.slots, hS.limit, ?_, hS.overflow, ?_⟩, hcon, rfl,
      rfl, rfl⟩
    · exact fun e he => hS.spill e (List.mem_of_mem_erase he)
    · intro e he
      apply hS.vals e
      rw [← hcon]
      exact Multiset.mem_cons_of_mem he
  · rename_i hmem
    exact .inl ⟨rfl, hmem⟩

/-- `ht_bare_remove_val` drops one entry if there is one, and says whether. -/
lemma htBareRemoveVal_spec (hS : Sound n t) (hash v : ℕ) :
    (htBareRemoveVal t hash v = (false, t) ∧ (h48 hash, v) ∉ t.contents) ∨
      ∃ t', htBareRemoveVal t hash v = (true, t') ∧ Deleted n t (h48 hash) v t' := by
  unfold htBareRemoveVal
  split
  · rename_i hsmall
    rcases bareSpillRemoveVal_spec hS (h48 hash) v with ⟨he, hno⟩ | hdel
    · refine .inl ⟨he, fun hmem => ?_⟩
      rcases Multiset.mem_add.mp hmem with hmem | hmem
      · rcases Multiset.mem_add.mp hmem with hmem | hmem
        · have := liveEntries_hash (Multiset.mem_coe.mp hmem)
          omega
        · exact hno hmem
      · have := (hS.overflow _ hmem).1
        omega
    · exact .inr hdel
  · rename_i hbig
    have hidx : h48 hash % t.capacity < n := by
      rw [hS.cap]
      exact Nat.mod_lt _ hS.pos
    cases hr : removeValFrom t (h48 hash) v (t.capacity + 1) (h48 hash % t.capacity) 0 with
    | some t' =>
      obtain ⟨i, hi, hl, hh, hv, rfl⟩ := removeValFrom_some hS.cap hidx hr
      right
      refine ⟨_, rfl, ?_⟩
      have := deleteAt_deletes hS hi hl
      rwa [hh, hv] at this
    | none =>
      -- the main array does not hold the entry
      have hmain : (h48 hash, v) ∉ liveEntries t.main := by
        intro hmem
        obtain ⟨p, hp, hl, hh, hv⟩ := exists_slot_of_mem hS.cap hmem
        obtain ⟨j, hj, hoff⟩ := exists_offset (h48 hash) hp
        rw [← hoff] at hl hh hv
        refine removeValFrom_ne_none (k := 0) (m := t.capacity + 1) hS hj hl hh hv (Nat.zero_le j)
          (by rw [hS.cap]; omega) ?_
        rw [Nat.zero_mod]
        rw [hS.cap] at hr ⊢
        exact hr
      rcases overflowStashRemoveVal_spec hS (h48 hash) v with ⟨he, hno⟩ | hdel
      · refine .inl ⟨he, fun hmem => ?_⟩
        rcases Multiset.mem_add.mp hmem with hmem | hmem
        · rcases Multiset.mem_add.mp hmem with hmem | hmem
          · exact hmain hmem
          · have := hS.spill _ hmem
            omega
        · exact hno hmem
      · exact .inr hdel

end Draugr
