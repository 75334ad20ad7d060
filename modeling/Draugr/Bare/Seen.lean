import Draugr.Bare.Check

/-!
# What `ht_bare_find_all` reports

In a table that passes `ht_bare_check_invariants`, a search for a hash goes past every entry of the
hash, unless the probe limit stops it. So `ht_bare_find_all` reports an entry of the main array
exactly when the limit admits its distance (`Visible`), every entry of the overflow stash, and the
entry of the ideal slot once more when the search laps the array (`Laps`): `count_htBareFindAll`.
-/

namespace Draugr
open Lib

/-- The probe limit of the searches admits the distance. -/
def Visible (t : HtBare) (pd : ℕ) : Prop :=
  ¬ (t.overflowViolated = false ∧ 0 < t.maxProbeDist ∧ t.maxProbeDist < pd)

instance (t : HtBare) (pd : ℕ) : Decidable (Visible t pd) := inferInstanceAs (Decidable (¬ _))

/-- The slot holds the entry `(h, v)`. -/
def Slot.Holds (s : Slot) (h v : ℕ) : Prop := s.Live ∧ s.hash = h ∧ s.val = v

instance (s : Slot) (h v : ℕ) : Decidable (s.Holds h v) := inferInstanceAs (Decidable (_ ∧ _ ∧ _))

/-- What a search for `h` sees of the slot at offset `j`. -/
def seenAt (t : HtBare) (n h j : ℕ) : List ℕ :=
  if (t.at n h j).Live ∧ (t.at n h j).hash = h ∧ Visible t (t.at n h j).pd then [(t.at n h j).val]
  else []

variable {n h v k : ℕ} {t : HtBare}

/-- A visible entry of `h` lies beyond every slot that the search for `h` goes past. -/
lemma Sound.goesOn_visible (hS : Sound n t.unlimited) {j : ℕ} (hj : j < n) (hl : (t.at n h j).Live)
    (hh : (t.at n h j).hash = h) (hv : Visible t (t.at n h j).pd) (hkj : k ≤ j) :
    Draugr.goesOn t h k := by
  obtain ⟨hne, hpd⟩ := hS.passes hj hl hh hkj
  have hpdj : (t.at n h j).pd = j := hS.pd_eq hj hl hh
  have h16 : j < 2 ^ 16 := by
    have := (hS.slots _ (Nat.mod_lt (h + j) hS.pos) hl).pd16
    rwa [show (t.unlimited.slot ((h + j) % n)).pd = j from hpdj] at this
  have hcap : t.capacity = n := hS.cap
  unfold Draugr.goesOn
  rw [hcap, Nat.mod_eq_of_lt (lt_of_le_of_lt hkj h16)]
  refine ⟨hne, fun hlk hstop => ?_⟩
  rcases hstop with hlt | ⟨h1, h2, h3⟩
  · exact absurd (hpd hlk) (not_le.mpr hlt)
  · exact hv ⟨h1, h2, by omega⟩

/-- An entry of `h` that the search for `h` comes to is visible. -/
lemma visible_of_goesOn (hS : Sound n t.unlimited) {j : ℕ} (hj : j < n) (hl : (t.at n h j).Live)
    (hh : (t.at n h j).hash = h) (hgo : goesOn t h j) : Visible t (t.at n h j).pd := by
  have hpdj : (t.at n h j).pd = j := hS.pd_eq hj hl hh
  have h16 : j < 2 ^ 16 := by
    have := (hS.slots _ (Nat.mod_lt (h + j) hS.pos) hl).pd16
    rwa [show (t.unlimited.slot ((h + j) % n)).pd = j from hpdj] at this
  have hcap : t.capacity = n := hS.cap
  unfold goesOn at hgo
  rw [hcap, Nat.mod_eq_of_lt h16] at hgo
  rintro ⟨h1, h2, h3⟩
  exact hgo.2 hl (.inr ⟨h1, h2, by omega⟩)

/-- The last step of the loop, back at the ideal slot. -/
lemma findAllFrom_back (hS : Sound n t.unlimited) (hpast : ∀ j, j < n → goesOn t h j) :
    findAllFrom t h 1 ((h + n) % n) (n % 2 ^ 16) =
      if n % 2 ^ 16 = 0 then seenAt t n h 0 else [] := by
  have hslot : t.slot (h % n) = t.at n h 0 := rfl
  have hpd0 : ∀ {s}, s = t.at n h 0 → s.Live → s.hash = h → s.pd = 0 :=
    fun hs hl hh => hs ▸ hS.pd_eq hS.pos (hs ▸ hl) (hs ▸ hh)
  have hgo := hpast 0 hS.pos
  rw [findAllFrom, findAllFrom, Nat.add_mod_right, hslot]
  rcases Slot.trichotomy (t.at n h 0) with he | ht | hl
  · have hnone : seenAt t n h 0 = [] := if_neg fun hc => hc.1.not_empty he
    rw [if_pos he, hnone, ite_self]
  · have hnone : seenAt t n h 0 = [] := if_neg fun hc => hc.1.not_tomb ht
    rw [if_neg ht.not_empty, if_pos ht, hnone, ite_self]
  rw [if_neg hl.not_empty, if_neg hl.not_tomb]
  split
  · -- the search stops: the distance has not come back to zero
    rename_i hstop
    by_cases h0 : n % 2 ^ 16 = 0
    · rw [h0] at hstop
      have hcap : t.capacity = n := hS.cap
      rw [goesOn, hcap] at hgo
      exact absurd hstop (hgo.2 hl)
    · rw [if_neg h0]
  · rename_i hstop
    by_cases hh : (t.at n h 0).hash = h
    · have hpd := hpd0 rfl hl hh
      have h0 : n % 2 ^ 16 = 0 := by
        by_contra hne
        exact hstop (.inl (by omega))
      have hone : seenAt t n h 0 = [(t.at n h 0).val] :=
        if_pos ⟨hl, hh, visible_of_goesOn hS hS.pos hl hh hgo⟩
      rw [if_pos hh, if_pos h0, hone]
    · have hnone : seenAt t n h 0 = [] := if_neg fun hc => hh hc.2.1
      rw [if_neg hh, hnone, ite_self]

/-- The loop sees the slots still ahead, and the ideal slot once more when it laps. -/
lemma findAllFrom_seen (hS : Sound n t.unlimited) (m : ℕ) (hk : k + m = n)
    (hpast : ∀ j, j < k → goesOn t h j) :
    findAllFrom t h (m + 1) ((h + k) % n) (k % 2 ^ 16) =
      (List.range' k m).flatMap (seenAt t n h) ++
        if n % 2 ^ 16 = 0 ∧ ∀ j, j < n → goesOn t h j then seenAt t n h 0 else [] := by
  have hcap : t.capacity = n := hS.cap
  induction m generalizing k with
  | zero =>
    rw [Nat.add_zero] at hk
    subst hk
    rw [findAllFrom_back hS hpast, List.range'_zero, List.flatMap_nil, List.nil_append]
    exact if_congr (and_iff_left hpast).symm rfl rfl
  | succ m ih =>
    rw [findAllFrom]
    obtain ⟨e1, e2⟩ := step_offset hcap h k
    rw [e1, e2, List.range'_succ, List.flatMap_cons]
    -- if the search stops here, nothing is seen here or ahead
    have hstopped : ¬ goesOn t h k →
        [] = (seenAt t n h k ++ (List.range' (k + 1) m).flatMap (seenAt t n h)) ++
          if n % 2 ^ 16 = 0 ∧ ∀ j, j < n → goesOn t h j then seenAt t n h 0 else [] := by
      intro hno
      rw [if_neg fun hc => hno (hc.2 k (by omega)), List.append_nil, ← List.flatMap_cons,
        ← List.range'_succ, eq_comm, List.flatMap_eq_nil_iff]
      intro j hj
      obtain ⟨h1, h2⟩ := List.mem_range'_1.mp hj
      unfold seenAt
      rw [if_neg]
      rintro ⟨hl, hh, hv⟩
      exact hno (hS.goesOn_visible (by omega) hl hh hv h1)
    have hcont : goesOn t h k → findAllFrom t h (m + 1) ((h + (k + 1)) % n) ((k + 1) % 2 ^ 16) =
        (List.range' (k + 1) m).flatMap (seenAt t n h) ++
          if n % 2 ^ 16 = 0 ∧ ∀ j, j < n → goesOn t h j then seenAt t n h 0 else [] := by
      intro hgo
      refine ih (by omega) fun j hj => ?_
      rcases Nat.eq_or_lt_of_le (Nat.le_of_lt_succ hj) with rfl | hlt
      · exact hgo
      · exact hpast j hlt
    have hslot : t.slot ((h + k) % n) = t.at n h k := rfl
    have hgoes : goesOn t h k ↔ ¬ (t.at n h k).Empty ∧
        ((t.at n h k).Live → ¬ searchStops t (t.at n h k) (k % 2 ^ 16)) := by
      unfold goesOn
      rw [hcap]
    rw [hslot]
    rcases Slot.trichotomy (t.at n h k) with he | ht | hl
    · rw [if_pos he]
      exact hstopped fun hgo => (hgoes.mp hgo).1 he
    · rw [if_neg ht.not_empty, if_pos ht,
        hcont (hgoes.mpr ⟨ht.not_empty, fun hl => absurd ht hl.not_tomb⟩)]
      have hnone : seenAt t n h k = [] := if_neg fun hc => hc.1.not_tomb ht
      rw [hnone, List.nil_append]
    · rw [if_neg hl.not_empty, if_neg hl.not_tomb]
      split
      · rename_i hstop
        exact hstopped fun hgo => (hgoes.mp hgo).2 hl hstop
      · rename_i hstop
        have hgo : goesOn t h k := hgoes.mpr ⟨hl.not_empty, fun _ => hstop⟩
        rw [hcont hgo]
        split
        · rename_i hh
          have hone : seenAt t n h k = [(t.at n h k).val] :=
            if_pos ⟨hl, hh, visible_of_goesOn hS (by omega) hl hh hgo⟩
          rw [hone, List.append_assoc]
          rfl
        · rename_i hh
          have hnone : seenAt t n h k = [] := if_neg fun hc => hh hc.2.1
          rw [hnone, List.nil_append]

/-! ## Counting the reports -/

/-- A value of a lane under a hash occurs as often as the pair of the two. -/
lemma count_laneVals (lane : List (ℕ × ℕ)) (h v : ℕ) :
    (laneVals lane h).count v = lane.count (h, v) := by
  induction lane with
  | nil => rfl
  | cons e lane ih =>
    obtain ⟨a, b⟩ := e
    unfold laneVals at ih ⊢
    rw [List.filter_cons, List.count_cons]
    by_cases ha : a = h
    · rw [if_pos (decide_eq_true ha), List.map_cons, List.count_cons, ih]
      by_cases hb : b = v
      · simp [ha, hb]
      · simp [ha, hb]
    · rw [if_neg (by simpa using ha), ih]
      simp [ha]

/-- What a search for `h` sees of a slot. -/
lemma count_flatMap_slots (p : Slot → Prop) [DecidablePred p] (main : List Slot) (h v : ℕ) :
    (main.flatMap fun s => if s.Live ∧ s.hash = h ∧ p s then [s.val] else []).count v =
      main.countP fun s => decide (s.Holds h v ∧ p s) := by
  induction main with
  | nil => rfl
  | cons s main ih =>
    rw [List.flatMap_cons, List.count_append, ih, List.countP_cons, Nat.add_comm]
    congr 1
    by_cases hs : s.Live ∧ s.hash = h ∧ p s
    · rw [if_pos hs]
      by_cases hv : s.val = v
      · rw [if_pos (decide_eq_true ⟨⟨hs.1, hs.2.1, hv⟩, hs.2.2⟩), hv, List.count_singleton_self]
      · rw [if_neg, List.count_singleton, if_neg (by simpa using hv)]
        rw [decide_eq_true_eq]
        exact fun hc => hv hc.1.2.2
    · rw [if_neg hs, if_neg, List.count_nil]
      rw [decide_eq_true_eq]
      exact fun hc => hs ⟨hc.1.1, hc.1.2.1, hc.2⟩

/-- The slots that hold `(h, v)` at a visible distance. -/
def seenCount (t : HtBare) (h v : ℕ) : ℕ :=
  t.main.countP fun s => decide (s.Holds h v ∧ Visible t s.pd)

/-- Seen offset by offset or slot by slot. -/
lemma count_seenAt (hS : Sound n t.unlimited) (h v : ℕ) :
    ((List.range n).flatMap (seenAt t n h)).count v = seenCount t h v := by
  have hmain : t.main = (List.range n).map t.slot := main_eq_map (t := t) hS.cap
  have hoff : (List.range n).flatMap (seenAt t n h) =
      ((List.range n).map fun j => (h + j) % n).flatMap fun p =>
        if (t.slot p).Live ∧ (t.slot p).hash = h ∧ Visible t (t.slot p).pd then [(t.slot p).val]
        else [] := by
    rw [List.flatMap_map]
    rfl
  have hperm := (offsets_perm hS.pos h).flatMap_right fun p =>
    if (t.slot p).Live ∧ (t.slot p).hash = h ∧ Visible t (t.slot p).pd then [(t.slot p).val] else []
  rw [hoff, hperm.count_eq]
  unfold seenCount
  rw [← count_flatMap_slots (fun s => Visible t s.pd), hmain, List.flatMap_map]

/-- How often `ht_bare_find_all` reports a value for a hash of the main array. -/
lemma count_htBareFindAll {hash : ℕ} (hS : Sound n t.unlimited) (hh : ¬ h48 hash < 2) (v : ℕ) :
    (htBareFindAll t hash).count v = seenCount t (h48 hash) v + t.overflow.count (h48 hash, v) +
      if Laps t hash ∧ (t.slot (h48 hash % t.capacity)).Holds (h48 hash) v then 1 else 0 := by
  have hcap : t.capacity = n := hS.cap
  have hfrom := findAllFrom_seen (h := h48 hash) (k := 0) hS n (Nat.zero_add n)
    fun j hj => absurd hj (Nat.not_lt_zero j)
  rw [Nat.zero_mod, ← List.range_eq_range'] at hfrom
  change findAllFrom t (h48 hash) (n + 1) (h48 hash % n) 0 = _ at hfrom
  unfold htBareFindAll
  rw [if_neg hh, hcap, hfrom, List.count_append, List.count_append, count_seenAt hS, count_laneVals]
  have hlap : (if n % 2 ^ 16 = 0 ∧ ∀ j, j < n → goesOn t (h48 hash) j then
      seenAt t n (h48 hash) 0 else []).count v =
      if Laps t hash ∧ (t.slot (h48 hash % n)).Holds (h48 hash) v then 1 else 0 := by
    by_cases hL : Laps t hash
    · have hL' : n % 2 ^ 16 = 0 ∧ ∀ j, j < n → goesOn t (h48 hash) j := by
        unfold Laps at hL
        rwa [hcap] at hL
      rw [if_pos hL']
      have hslot : t.slot (h48 hash % n) = t.at n (h48 hash) 0 := rfl
      rw [hslot]
      by_cases hs : (t.at n (h48 hash) 0).Live ∧ (t.at n (h48 hash) 0).hash = h48 hash
      · have hvis := visible_of_goesOn hS hS.pos hs.1 hs.2 (hL'.2 0 hS.pos)
        have hone : seenAt t n (h48 hash) 0 = [(t.at n (h48 hash) 0).val] :=
          if_pos ⟨hs.1, hs.2, hvis⟩
        rw [hone]
        by_cases hv : (t.at n (h48 hash) 0).val = v
        · rw [if_pos ⟨hL, hs.1, hs.2, hv⟩, hv, List.count_singleton_self]
        · rw [if_neg fun hc => hv hc.2.2.2, List.count_singleton, if_neg (by simpa using hv)]
      · have hnone : seenAt t n (h48 hash) 0 = [] := if_neg fun hc => hs ⟨hc.1, hc.2.1⟩
        rw [hnone, if_neg fun hc => hs ⟨hc.2.1, hc.2.2.1⟩, List.count_nil]
    · have hL' : ¬ (n % 2 ^ 16 = 0 ∧ ∀ j, j < n → goesOn t (h48 hash) j) := by
        unfold Laps at hL
        rwa [hcap] at hL
      rw [if_neg hL', if_neg fun hc => hL hc.1, List.count_nil]
  rw [hlap]
  omega

/-- How often `ht_bare_find_all` reports a value for a hash of the spill lane. -/
lemma count_htBareFindAll_spill {hash : ℕ} (hh : h48 hash < 2) (v : ℕ) :
    (htBareFindAll t hash).count v = t.spill.count (h48 hash, v) := by
  unfold htBareFindAll
  rw [if_pos hh, count_laneVals]

/-! ## Stored and reported -/

/-- The slots that hold `(h, v)`. -/
lemma count_liveEntries (main : List Slot) (h v : ℕ) :
    (liveEntries main).count (h, v) = main.countP fun s => decide (s.Holds h v) := by
  induction main with
  | nil => rfl
  | cons s main ih =>
    unfold liveEntries at ih ⊢
    rw [List.countP_cons, ← ih]
    by_cases hl : s.Live
    · rw [List.filterMap_cons_some (Slot.entry_live hl), List.count_cons]
      congr 1
      unfold Slot.Holds
      by_cases hh : s.hash = h
      · by_cases hv : s.val = v
        · simp [hl, hh, hv]
        · simp [hh, hv]
      · simp [hh]
    · have hno : ¬ s.Holds h v := fun hc => hl hc.1
      rw [List.filterMap_cons_none (Slot.entry_not_live hl), decide_eq_false hno]
      rfl

/-- Occurrences in a lane and in its multiset. -/
lemma coe_count_pair (lane : List (ℕ × ℕ)) (e : ℕ × ℕ) :
    (lane : Multiset (ℕ × ℕ)).count e = lane.count e := by
  induction lane with
  | nil => rfl
  | cons a lane ih =>
    rw [← Multiset.cons_coe, Multiset.count_cons, List.count_cons, ih]
    by_cases h : e = a
    · simp [h]
    · simp [h, Ne.symm h]

/-- How often an entry is stored. -/
lemma count_contents (t : HtBare) (h v : ℕ) : t.contents.count (h, v) =
    (t.main.countP fun s => decide (s.Holds h v)) + t.spill.count (h, v) +
      t.overflow.count (h, v) := by
  unfold HtBare.contents
  rw [Multiset.count_add, Multiset.count_add, coe_count_pair, coe_count_pair, coe_count_pair,
    count_liveEntries]

/-- A lookup sees a pair at most as often as the slots hold it. -/
lemma seenCount_le (t : HtBare) (h v : ℕ) :
    seenCount t h v ≤ t.main.countP fun s => decide (s.Holds h v) := by
  unfold seenCount
  refine List.countP_mono_left fun s _ hs => ?_
  rw [decide_eq_true_eq] at hs ⊢
  exact hs.1

/-- An entry of a hash from 2 on is not in the spill lane of a formed table. -/
lemma Formed.count_spill (hF : Formed t) (hh : ¬ h < 2) (v : ℕ) : t.spill.count (h, v) = 0 :=
  List.count_eq_zero.mpr fun hm => hh (hF.spill _ hm).1

/-- An entry of a hash below 2 is in the spill lane only. -/
lemma Formed.count_small (hF : Formed t) (hh : h < 2) (v : ℕ) :
    t.contents.count (h, v) = t.spill.count (h, v) := by
  have hmain : (t.main.countP fun s => decide (s.Holds h v)) = 0 := by
    rw [List.countP_eq_zero]
    intro s _
    rw [decide_eq_true_eq]
    rintro ⟨hl, hs, -⟩
    unfold Slot.Live at hl
    omega
  have hov : t.overflow.count (h, v) = 0 := List.count_eq_zero.mpr fun hm => by
    have := (hF.overflow _ hm).hash2
    omega
  rw [count_contents, hmain, hov]
  omega

end Draugr
