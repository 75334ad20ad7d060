import Draugr.Bare.Multimap

/-!
# Counters and stored distances

`Counted n t` is the bookkeeping invariant of the bare table, independent of whether lookups find
anything: `size` and `tombstone_cnt` count what they are meant to count, the overflow stash is
within its bound, and a live slot stores its displacement modulo 2^16 (`Placed`). Every function of
the table keeps it as long as no insertion stands at distance `capacity` at a loop head (`noLap`):
there the carried entry has come back to its ideal slot, and the source, which tests `dist >
capacity`, would still store the distance `capacity`. Arrays of 2^16 slots and more are not
affected, since the distance is kept modulo 2^16.

The one delicate counter is `tombstone_cnt`: reusing a tombstone decrements it before the probe
limit is tested. The loop invariant `Carries.look` is that at a loop head beyond the limit the slot
is live or a blocked tombstone, so that the decrement is never followed by the bail-out.
-/

namespace Draugr
open Lib

/-- The number of live slots of the main array. -/
def liveCount (t : HtBare) : ℕ := t.main.countP fun s => decide s.Live

/-- The number of tombstones of the main array. -/
def tombCount (t : HtBare) : ℕ := t.main.countP fun s => decide s.Tomb

/-- The period of the stored distances in an array of `n` slots. -/
def period (n : ℕ) : ℕ := min n (2 ^ 16)

/-- A live slot at `i` stores its displacement modulo 2^16. -/
structure Placed (n i : ℕ) (s : Slot) : Prop where
  hash48 : s.hash < 2 ^ 48
  pd16 : s.pd < 2 ^ 16
  near : (s.hash + s.pd) % period n = i % period n
  pd_lt : n < 2 ^ 16 → s.pd < n

/-- The bookkeeping invariant of a table of capacity `n`. -/
structure Counted (n : ℕ) (t : HtBare) : Prop where
  pow2 : ∃ k, n = 2 ^ k
  cap : t.capacity = n
  slots : ∀ i, i < n → (t.slot i).Live → Placed n i (t.slot i)
  size : t.size = liveCount t + t.spill.length + t.overflow.length
  tombs : t.tombstoneCnt = tombCount t
  overflow : ∀ e ∈ t.overflow, 2 ≤ e.1 ∧ e.1 < 2 ^ 48
  overflowLen : t.overflow.length ≤ overflowStashCap

/-- The loop heads that keep the bookkeeping right. -/
def noLap (t : HtBare) (c : Carrier) : Bool := decide (t.capacity < 2 ^ 16 → c.dist < t.capacity)

/-- The loop invariant of an insertion. -/
structure Carries (n : ℕ) (b : Bool) (t : HtBare) (c : Carrier) : Prop where
  counted : Counted n t
  idx : c.idx < n
  hash2 : 2 ≤ c.hash
  hash48 : c.hash < 2 ^ 48
  dist16 : c.dist < 2 ^ 16
  near : (c.hash + c.dist) % period n = c.idx % period n
  look : overLimit b t c →
    (t.slot c.idx).Live ∨ ((t.slot c.idx).Tomb ∧ blocked t c.idx c.dist = true)

variable {n i : ℕ} {b : Bool} {t t' : HtBare} {c c' : Carrier} {s : Slot}

/-! ## Arithmetic of stored distances -/

/-- The period divides the capacity and 2^16. -/
lemma period_dvd (hn : ∃ k, n = 2 ^ k) : period n ∣ n ∧ period n ∣ 2 ^ 16 := by
  obtain ⟨k, rfl⟩ := hn
  unfold period
  rcases Nat.le_total k 16 with h | h
  · rw [Nat.min_eq_left (Nat.pow_le_pow_right (by omega) h)]
    exact ⟨dvd_refl _, Nat.pow_dvd_pow 2 h⟩
  · rw [Nat.min_eq_right (Nat.pow_le_pow_right (by omega) h)]
    exact ⟨Nat.pow_dvd_pow 2 h, dvd_refl _⟩

/-- One step along the array, index modulo the capacity and distance modulo 2^16. -/
lemma near_succ {h d : ℕ} (hn : ∃ k, n = 2 ^ k) (hd : (h + d) % period n = i % period n) :
    (h + (d + 1) % 2 ^ 16) % period n = ((i + 1) % n) % period n := by
  obtain ⟨h1, h2⟩ := period_dvd hn
  rw [Nat.mod_mod_of_dvd _ h1, ← Nat.add_mod_mod, Nat.mod_mod_of_dvd _ h2, Nat.add_mod_mod,
    ← Nat.add_assoc, ← Nat.mod_add_mod, hd, Nat.mod_add_mod]

/-- A placed slot stores the cyclic displacement from its ideal slot modulo 2^16. -/
lemma Placed.displacement (hn : ∃ k, n = 2 ^ k) (hi : i < n) (h : Placed n i s) :
    s.pd = (i + (n - s.hash % n)) % n % 2 ^ 16 := by
  obtain ⟨hdn, hd16⟩ := period_dvd hn
  have hpos : 0 < n := by omega
  have hlt := Nat.mod_lt s.hash hpos
  -- the displacement is congruent to the stored distance modulo the period
  have hmod : s.pd ≡ i + (n - s.hash % n) [MOD period n] := by
    have h1 : s.hash % n + s.pd ≡ i [MOD period n] := by
      have : s.hash % n ≡ s.hash [MOD period n] := Nat.mod_mod_of_dvd _ hdn
      exact (this.add_right _).trans h.near
    have h2 : s.hash % n + (i + (n - s.hash % n)) ≡ i [MOD period n] := by
      rw [show s.hash % n + (i + (n - s.hash % n)) = i + n by omega]
      have : n ≡ 0 [MOD period n] := (Nat.modEq_zero_iff_dvd).mpr hdn
      exact (this.add_left i)
    exact Nat.ModEq.add_left_cancel' _ (h1.trans h2.symm)
  have hmod' : s.pd ≡ (i + (n - s.hash % n)) % n [MOD period n] :=
    hmod.trans (Nat.mod_mod_of_dvd _ hdn).symm
  rcases Nat.lt_or_ge n (2 ^ 16) with hsmall | hbig
  · have hp : period n = n := Nat.min_eq_left hsmall.le
    rw [hp, Nat.ModEq, Nat.mod_eq_of_lt (h.pd_lt hsmall), Nat.mod_mod] at hmod'
    rw [← hmod', Nat.mod_eq_of_lt h.pd16]
  · have hp : period n = 2 ^ 16 := Nat.min_eq_right hbig
    rw [hp, Nat.ModEq, Nat.mod_eq_of_lt h.pd16] at hmod'
    exact hmod'

/-! ## Writing a slot -/

/-- The live slots after a slot was written. -/
lemma liveCount_setSlot (s : Slot) (hi : i < t.capacity) :
    liveCount (t.setSlot i s) + (if (t.slot i).Live then 1 else 0) =
      liveCount t + (if s.Live then 1 else 0) := by
  have h := countP_set_add (fun s : Slot => decide s.Live) t.main i s Slot.emptySlot hi
  simp only [decide_eq_true_eq] at h
  exact h

/-- The tombstones after a slot was written. -/
lemma tombCount_setSlot (s : Slot) (hi : i < t.capacity) :
    tombCount (t.setSlot i s) + (if (t.slot i).Tomb then 1 else 0) =
      tombCount t + (if s.Tomb then 1 else 0) := by
  have h := countP_set_add (fun s : Slot => decide s.Tomb) t.main i s Slot.emptySlot hi
  simp only [decide_eq_true_eq] at h
  exact h

/-- A slot that is a tombstone is counted. -/
lemma tombCount_pos (hi : i < t.capacity) (h : (t.slot i).Tomb) : 0 < tombCount t := by
  have := tombCount_setSlot (t := t) Slot.emptySlot hi
  rw [if_pos h, if_neg (by decide)] at this
  omega

/-- A slot that is live is counted. -/
lemma liveCount_pos (hi : i < t.capacity) (h : (t.slot i).Live) : 0 < liveCount t := by
  have := liveCount_setSlot (t := t) Slot.emptySlot hi
  rw [if_pos h, if_neg (by decide)] at this
  omega

/-- A write of a placed entry, a tombstone or an empty slot keeps the slots placed. -/
lemma Counted.slots_write (hC : Counted n t) (hi : i < n) (hs : s.Live → Placed n i s) :
    ∀ j, j < n → ((t.setSlot i s).slot j).Live → Placed n j ((t.setSlot i s).slot j) := by
  intro j hj
  rw [HtBare.slot_setSlot s (by rw [hC.cap]; exact hi)]
  split
  · rename_i e
    rw [e]
    exact hs
  · exact hC.slots j hj

/-- The invariant only reads the main array, the lanes and the counters. -/
lemma Counted.congr (hC : Counted n t) (hm : t'.main = t.main) (hs : t'.spill = t.spill)
    (ho : t'.overflow = t.overflow) (hz : t'.size = t.size)
    (ht : t'.tombstoneCnt = t.tombstoneCnt) : Counted n t' := by
  cases t
  cases t'
  simp only at hm hs ho hz ht
  subst hm hs ho hz ht
  exact ⟨hC.pow2, hC.cap, hC.slots, hC.size, hC.tombs, hC.overflow, hC.overflowLen⟩

/-- Writing an entry over an entry keeps all counters. -/
lemma Counted.overwrite (hC : Counted n t) (hi : i < n) (hl : (t.slot i).Live) (hs : s.Live)
    (hp : Placed n i s) : Counted n (t.setSlot i s) := by
  have hi' : i < t.capacity := by rw [hC.cap]; exact hi
  have h1 := liveCount_setSlot (t := t) s hi'
  have h2 := tombCount_setSlot (t := t) s hi'
  rw [if_pos hl, if_pos hs] at h1
  rw [if_neg hl.not_tomb, if_neg hs.not_tomb] at h2
  refine ⟨hC.pow2, ?_, hC.slots_write hi fun _ => hp, ?_, ?_, hC.overflow, hC.overflowLen⟩
  · rw [HtBare.capacity_setSlot, hC.cap]
  · show t.size = _ + t.spill.length + t.overflow.length
    rw [hC.size]
    omega
  · show t.tombstoneCnt = _
    rw [hC.tombs]
    omega

/-- A tombstone is counted, so decrementing does not wrap. -/
lemma sizeDec_pos {x : ℕ} (h : 0 < x) : sizeDec x = x - 1 := if_neg (by omega)

/-- Writing an entry over an empty slot or a tombstone, with the counters adjusted. -/
lemma Counted.fill (hC : Counted n t) (hi : i < n) (hl : ¬ (t.slot i).Live) (hs : s.Live)
    (hp : Placed n i s) (k : ℕ)
    (hk : k = if (t.slot i).Tomb then sizeDec t.tombstoneCnt else t.tombstoneCnt) :
    Counted n { t.setSlot i s with size := t.size + 1, tombstoneCnt := k } := by
  have hi' : i < t.capacity := by rw [hC.cap]; exact hi
  have h1 := liveCount_setSlot (t := t) s hi'
  have h2 := tombCount_setSlot (t := t) s hi'
  rw [if_neg hl, if_pos hs] at h1
  rw [if_neg hs.not_tomb] at h2
  refine ⟨hC.pow2, ?_, hC.slots_write hi fun _ => hp, ?_, ?_, hC.overflow, hC.overflowLen⟩
  · exact (HtBare.capacity_setSlot t i s).trans hC.cap
  · show t.size + 1 = liveCount (t.setSlot i s) + t.spill.length + t.overflow.length
    rw [hC.size]
    omega
  · show k = tombCount (t.setSlot i s)
    rw [hk]
    split
    · rename_i ht
      have hpos := tombCount_pos hi' ht
      rw [if_pos ht] at h2
      rw [sizeDec_pos (by rw [hC.tombs]; exact hpos), hC.tombs]
      omega
    · rename_i ht
      rw [if_neg ht] at h2
      rw [hC.tombs]
      omega

/-! ## One iteration of an insertion -/

/-- A look-ahead that sees an entry travelling past at a greater distance, before any empty slot, is
blocked. -/
lemma blockedFrom_of {idx dist m k j : ℕ} (hkj : k ≤ j) (hj : j < k + m)
    (hl : (t.slot ((idx + j) % t.capacity)).Live)
    (hpd : dist + j < (t.slot ((idx + j) % t.capacity)).pd)
    (hne : ∀ l, k ≤ l → l < j → ¬ (t.slot ((idx + l) % t.capacity)).Empty) :
    blockedFrom t idx dist m k = true := by
  induction m generalizing k with
  | zero => omega
  | succ m ih =>
    rw [blockedFrom]
    rcases Nat.eq_or_lt_of_le hkj with rfl | hlt
    · rw [if_neg hl.not_empty, if_neg hl.not_tomb, if_pos hpd]
    · have hrest := ih hlt (by omega) fun l h1 h2 => hne l (by omega) h2
      rw [if_neg (hne k (le_refl _) hlt)]
      split
      · exact hrest
      · split
        · rfl
        · exact hrest

/-- Behind a blocked tombstone comes a live slot or another blocked tombstone. -/
lemma blocked_succ {idx dist : ℕ} (h : blocked t idx dist = true) :
    (t.slot ((idx + 1) % t.capacity)).Live ∨ ((t.slot ((idx + 1) % t.capacity)).Tomb ∧
      blocked t ((idx + 1) % t.capacity) (dist + 1) = true) := by
  obtain ⟨j, h1, h2, hl, hpd, hne⟩ := blockedFrom_true h
  rcases Nat.eq_or_lt_of_le h1 with rfl | hlt
  · exact .inl hl
  rcases Slot.trichotomy (t.slot ((idx + 1) % t.capacity)) with he | ht | hl'
  · exact absurd he (hne 1 (le_refl _) hlt)
  · -- the blocking entry is one slot nearer
    have hshift :
        ∀ l, ((idx + 1) % t.capacity + l) % t.capacity = (idx + (l + 1)) % t.capacity := by
      intro l
      rw [Nat.mod_add_mod, Nat.add_assoc, Nat.add_comm 1 l]
    refine .inr
      ⟨ht, blockedFrom_of (j := j - 1) (by omega) (by unfold bshiftCap at *; omega) ?_ ?_ ?_⟩
    · rw [hshift, Nat.sub_add_cancel h1]
      exact hl
    · rw [hshift, Nat.sub_add_cancel h1]
      omega
    · intro l hl1 hl2
      rw [hshift]
      exact hne (l + 1) (by omega) (by omega)
  · exact .inl hl'

/-- What one iteration does to the bookkeeping. -/
def StepCounts (n : ℕ) (b : Bool) : RhStep → Prop
  | .ret _ t' => Counted n t'
  | .go t' c' => Carries n b t' c'
  | .unbounded t' c' => Counted n t' ∧ 2 ≤ c'.hash ∧ c'.hash < 2 ^ 48
  | .resize _ _ => False

/-- The bail-out to the overflow stash keeps the bookkeeping. -/
lemma stashCarrier_counts (hC : Counted n t) (h2 : 2 ≤ c.hash) (h48 : c.hash < 2 ^ 48) :
    StepCounts n b (stashCarrier t c) := by
  unfold stashCarrier overflowStashInsert
  split
  · rename_i t' h
    split at h
    · cases h
    · rename_i hroom
      cases h
      have hh : Draugr.h48 c.hash = c.hash := Nat.mod_eq_of_lt h48
      refine ⟨hC.pow2, hC.cap, hC.slots, ?_, hC.tombs, ?_, ?_⟩
      · show t.size + 1 = liveCount t + t.spill.length + (t.overflow ++ [_]).length
        rw [hC.size, List.length_append, List.length_singleton]
        omega
      · intro e he
        rcases List.mem_append.mp he with h | h
        · exact hC.overflow e h
        · rw [List.mem_singleton] at h
          rw [h, hh]
          exact ⟨h2, h48⟩
      · show (t.overflow ++ [_]).length ≤ overflowStashCap
        rw [List.length_append, List.length_singleton]
        omega
  · exact ⟨hC.congr rfl rfl rfl rfl rfl, h2, h48⟩

/-- The carried entry may be stored where it stands. -/
lemma Carries.placed (hC : Carries n b t c) (hd : n < 2 ^ 16 → c.dist < n) :
    Placed n c.idx (hpdPack c.hash c.dist c.val) := by
  rw [hpdPack_eq hC.hash48 hC.dist16]
  exact ⟨hC.hash48, hC.dist16, hC.near, hd⟩

/-- The carrier goes one slot further. -/
lemma Carries.advance (hC : Carries n b t c)
    (hlook : overLimit b t (c.advance t) → (t.slot ((c.idx + 1) % n)).Live ∨
      ((t.slot ((c.idx + 1) % n)).Tomb ∧ blocked t ((c.idx + 1) % n) (c.advance t).dist = true)) :
    Carries n b t (c.advance t) := by
  have hi : (c.advance t).idx = (c.idx + 1) % n := by
    unfold Carrier.advance
    rw [hC.counted.cap]
  refine ⟨hC.counted, ?_, hC.hash2, hC.hash48, Nat.mod_lt _ (Nat.two_pow_pos 16), ?_, ?_⟩
  · rw [hi]
    exact Nat.mod_lt _ (by have := hC.idx; omega)
  · rw [hi]
    exact near_succ hC.counted.pow2 hC.near
  · rw [hi]
    exact hlook

/-- One iteration keeps the bookkeeping. -/
lemma rhStep_counts (hC : Carries n b t c) (hd : noLap t c = true) :
    StepCounts n b (rhStep b t c) := by
  have hcap := hC.counted.cap
  have hd : n < 2 ^ 16 → c.dist < n := by
    have := of_decide_eq_true hd
    rwa [hcap] at this
  have hnew : (hpdPack c.hash c.dist c.val).Live := hpdPack_live hC.hash2 hC.hash48
  have hpl := hC.placed hd
  unfold rhStep
  simp only
  split
  · rename_i hlive
    have hslot := hC.counted.slots _ hC.idx hlive
    split
    · -- displacement: an entry is written over an entry
      have hC₁ := hC.counted.overwrite hC.idx hlive hnew hpl
      split
      · exact stashCarrier_counts hC₁ hlive hslot.hash48
      · rename_i hover
        refine ⟨hC₁, ?_, hlive, hslot.hash48, Nat.mod_lt _ (Nat.two_pow_pos 16), ?_, fun h =>
          absurd h hover⟩
        · simp only [HtBare.capacity_setSlot, hcap]
          exact Nat.mod_lt _ (by have := hC.idx; omega)
        · simp only [HtBare.capacity_setSlot, hcap]
          exact near_succ hC.counted.pow2 hslot.near
    · split
      · exact stashCarrier_counts hC.counted hC.hash2 hC.hash48
      · rename_i hover
        split
        · -- `dist > capacity` is not reached
          rename_i hgt
          have hlt : (c.advance t).dist < 2 ^ 16 := Nat.mod_lt _ (Nat.two_pow_pos 16)
          have hle : (c.advance t).dist ≤ c.dist + 1 := Nat.mod_le _ _
          rcases Nat.lt_or_ge n (2 ^ 16) with hn | hn
          · have := hd hn
            omega
          · omega
        · exact hC.advance fun h => absurd h hover
  · rename_i hdead
    split
    · -- a blocked tombstone
      rename_i hblk
      refine hC.advance fun _ => ?_
      have hnext := blocked_succ hblk.2
      obtain ⟨j, h1, _, hl, hpd, _⟩ := blockedFrom_true hblk.2
      have h16 : c.dist + 1 < 2 ^ 16 := by
        have := (hC.counted.slots ((c.idx + j) % t.capacity)
          (by rw [hcap]; exact Nat.mod_lt _ (by have := hC.idx; omega)) hl).pd16
        omega
      have hdist : (c.advance t).dist = c.dist + 1 := Nat.mod_eq_of_lt h16
      rw [hcap] at hnext
      rw [hdist]
      exact hnext
    · rename_i hblk
      -- a carrier over the limit is stopped at a live slot
      have hno : ¬ overLimit b t c := by
        intro h
        rcases hC.look h with hl | hb
        · exact hdead hl
        · exact hblk hb
      have hno' : ¬ overLimit b (if (t.slot c.idx).Tomb then
          ({ t with tombstoneCnt := sizeDec t.tombstoneCnt } : HtBare) else t) c := by
        split
        · exact hno
        · exact hno
      rw [if_neg hno']
      have hfill := hC.counted.fill hC.idx hdead hnew hpl _ rfl
      split at hfill
      · rename_i ht
        rw [if_pos ht]
        exact hfill
      · rename_i ht
        rw [if_neg ht]
        exact hfill

/-! ## Insertions -/

/-- A fresh carrier. -/
lemma Carries.start {h v : ℕ} (hC : Counted n t) (h2 : 2 ≤ h) (h48 : h < 2 ^ 48) :
    Carries n b t (.start t h v) := by
  have hpos : 0 < n := by
    obtain ⟨k, rfl⟩ := hC.pow2
    exact Nat.two_pow_pos k
  have hidx : (Carrier.start t h v).idx = h % n := by
    unfold Carrier.start
    rw [hC.cap]
  refine ⟨hC, ?_, h2, h48, Nat.two_pow_pos 16, ?_, ?_⟩
  · rw [hidx]
    exact Nat.mod_lt _ hpos
  · rw [hidx]
    exact (Nat.mod_mod_of_dvd _ (period_dvd hC.pow2).1).symm
  · rintro ⟨_, _, h⟩
    exact absurd h (Nat.not_lt_zero _)

/-- The insertion loop keeps the bookkeeping. -/
lemma rhLoop_counts {rz : HtBare → Option (Bool × HtBare)} {fuel : ℕ} {ok : Bool}
    (hC : Carries n b t c) (hw : rhWalk noLap rz fuel b t c = true)
    (hr : rhLoop rz fuel b t c = some (ok, t')) : Counted n t' := by
  induction fuel generalizing b t c with
  | zero => cases hr
  | succ fuel ih =>
    rw [rhWalk, Bool.and_eq_true] at hw
    have hstep := rhStep_counts hC hw.1
    have hrest := hw.2
    rw [rhLoop] at hr
    cases hs : rhStep b t c with
    | ret ok' t₁ =>
      rw [hs] at hstep hr
      cases hr
      exact hstep
    | go t₁ c₁ =>
      rw [hs] at hstep hr hrest
      exact ih hstep hrest hr
    | unbounded t₁ c₁ =>
      rw [hs] at hstep hr hrest
      exact ih (Carries.start hstep.1 hstep.2.1 hstep.2.2) hrest hr
    | resize t₁ c₁ =>
      rw [hs] at hstep
      exact hstep.elim

/-- `bare_rh_insert_bounded` keeps the bookkeeping. -/
lemma bareRhInsertBounded_counts {rz : HtBare → Option (Bool × HtBare)} {h v : ℕ} {ok : Bool}
    (hC : Counted n t) (h2 : 2 ≤ h) (h48 : h < 2 ^ 48) (hw : insertWalk noLap rz t h v = true)
    (hr : bareRhInsertBounded rz t h v = some (ok, t')) : Counted n t' := by
  unfold bareRhInsertBounded at hr
  have hpos : t.capacity ≠ 0 := by
    rw [hC.cap]
    obtain ⟨k, rfl⟩ := hC.pow2
    exact (Nat.two_pow_pos k).ne'
  rw [if_neg hpos] at hr
  exact rhLoop_counts (Carries.start hC h2 h48) hw hr

/-- A list of insertions keeps the bookkeeping. -/
lemma reinsert_counts {rz : HtBare → Option (Bool × HtBare)} {es : List (ℕ × ℕ)}
    (hC : Counted n t) (hes : ∀ e ∈ es, 2 ≤ e.1 ∧ e.1 < 2 ^ 48)
    (hw : reinsertWalk noLap rz t es = true) (hr : reinsert rz t es = some t') : Counted n t' := by
  induction es generalizing t with
  | nil =>
    cases hr
    exact hC
  | cons e es ih =>
    obtain ⟨h, v⟩ := e
    rw [reinsertWalk, Bool.and_eq_true] at hw
    rw [reinsert] at hr
    obtain ⟨h2, h48⟩ := hes (h, v) List.mem_cons_self
    cases hi : bareRhInsertBounded rz t h v with
    | none =>
      rw [hi] at hr
      cases hr
    | some r =>
      obtain ⟨ok, t₁⟩ := r
      rw [hi] at hr
      have hrest := hw.2
      rw [hi] at hrest
      exact ih (bareRhInsertBounded_counts hC h2 h48 hw.1 hi)
        (fun e he => hes e (List.mem_cons_of_mem _ he)) hrest hr

end Draugr
