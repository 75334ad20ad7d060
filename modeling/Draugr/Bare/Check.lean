import Draugr.Bare.Books
import Draugr.Bare.Find

/-!
# `ht_bare_check_invariants`

The checker of the bare table, with the numbers of its messages. Of a table with right books
(`Books`, as every reachable table is) it accepts exactly those whose entries are seated and
reached: `htBareCheckInvariants_iff` says that this is `Sound` without the probe limit, which the
checker does not look at (`HtBare.unlimited`).
-/

namespace Draugr
open Lib

/-- The messages of `ht_bare_check_invariants`, with the numbers they print. -/
inductive CheckError where
  /-- `slot[…]: probe_dist=… but expected … (hash=… ideal=…)` -/
  | probeDist (slot pd expected hash ideal : ℕ)
  /-- `size=… but found … live (… main + … spill + … overflow)` -/
  | size (size found main spill overflow : ℕ)
  /-- `overflow_len=… exceeds HT_OVERFLOW_STASH_CAP=…` -/
  | overflowLen (len cap : ℕ)
  /-- `tombstone_cnt=… but found … tombs` -/
  | tombstoneCnt (cnt found : ℕ)
  /-- `slot[…] (hash=… ideal=… dist=…) unreachable: hit EMPTY at […] while probing from ideal` -/
  | hitEmpty (slot hash ideal pd pos : ℕ)
  /-- `slot[…] (hash=… ideal=… dist=…) unreachable: early termination at […] (dist=… < …)` -/
  | earlyTermination (slot hash ideal pd pos scanPd dist : ℕ)
  deriving DecidableEq, Repr

/-- `expected_dist`. -/
def expectedDist (capacity i ideal : ℕ) : ℕ := if ideal ≤ i then i - ideal else capacity - ideal + i

/-- The check of one slot in the first loop. -/
def checkSlot (t : HtBare) (i : ℕ) : Option CheckError :=
  let s := t.slot i
  let ideal := s.hash % t.capacity
  let expected := expectedDist t.capacity i ideal
  if s.Live ∧ s.pd ≠ expected then some (.probeDist i s.pd expected s.hash ideal) else none

/-- The inner loop of the second loop: the probe from the ideal slot of the entry at `i`. -/
def probeTo (t : HtBare) (i : ℕ) : ℕ → ℕ → Option CheckError
  | 0, _ => none
  | n + 1, dist =>
    let s := t.slot i
    let ideal := s.hash % t.capacity
    let pos := (ideal + dist) % t.capacity
    let scan := t.slot pos
    if pos = i then none
    else if scan.Empty then some (.hitEmpty i s.hash ideal s.pd pos)
    else if scan.Tomb then probeTo t i n ((dist + 1) % 2 ^ 16)
    else if scan.pd < dist then some (.earlyTermination i s.hash ideal s.pd pos scan.pd dist)
    else probeTo t i n ((dist + 1) % 2 ^ 16)

/-- `ht_bare_check_invariants`; `none` is the `NULL` of a table that passes. -/
def htBareCheckInvariants (t : HtBare) : Option CheckError :=
  match (List.range t.capacity).findSome? (checkSlot t) with
  | some e => some e
  | none =>
    let spillLive := t.spill.countP fun e => decide (e.2 ≠ valNone)
    let found := liveCount t + spillLive + t.overflow.length
    if t.size ≠ found then some (.size t.size found (liveCount t) spillLive t.overflow.length)
    else if t.overflow.length > overflowStashCap then
      some (.overflowLen t.overflow.length overflowStashCap)
    else if t.tombstoneCnt ≠ tombCount t then some (.tombstoneCnt t.tombstoneCnt (tombCount t))
    else
      (List.range t.capacity).findSome? fun i =>
        if (t.slot i).Live then probeTo t i (t.capacity + 1) 0 else none

/-- The table with the probe limit given up. -/
def HtBare.unlimited (t : HtBare) : HtBare := { t with overflowViolated := true }

variable {n i : ℕ} {t : HtBare}

/-! ## Seats -/

/-- The expected distance is the displacement. -/
lemma expectedDist_eq {h : ℕ} (hpos : 0 < n) (hi : i < n) {d : ℕ} (hd : d < n) :
    d = expectedDist n i (h % n) ↔ (h + d) % n = i := by
  have hm := Nat.mod_lt h hpos
  rw [← Nat.mod_add_mod]
  generalize h % n = a at hm
  unfold expectedDist
  rcases Nat.lt_or_ge (a + d) n with hlt | hge
  · rw [Nat.mod_eq_of_lt hlt]
    split <;> omega
  · rw [Nat.mod_eq_sub_mod hge, Nat.mod_eq_of_lt (by omega)]
    split <;> omega

/-- An expected distance stays below the capacity. -/
lemma expectedDist_lt {a : ℕ} (hi : i < n) (ha : a < n) : expectedDist n i a < n := by
  unfold expectedDist
  split <;> omega

/-- The first loop finds nothing exactly when every live slot is seated. -/
lemma checkSlot_none (hF : Formed t) (hi : i < t.capacity) :
    checkSlot t i = none ↔ ((t.slot i).Live → Seated t.capacity i (t.slot i)) := by
  have hideal := Nat.mod_lt (t.slot i).hash hF.capacity_pos
  unfold checkSlot
  simp only
  rw [ite_eq_right_iff]
  constructor
  · intro h hl
    have hpd : (t.slot i).pd = expectedDist t.capacity i ((t.slot i).hash % t.capacity) := by
      by_contra hne
      exact Option.some_ne_none _ (h ⟨hl, hne⟩)
    have hlt : (t.slot i).pd < t.capacity := hpd ▸ expectedDist_lt hi hideal
    have hform := hF.slots i hl
    exact ⟨(expectedDist_eq hF.capacity_pos hi hlt).mp hpd, hlt, hform.pd16, hform.hash48⟩
  · rintro h ⟨hl, hne⟩
    have hseat := h hl
    exact absurd ((expectedDist_eq hF.capacity_pos hi hseat.pd_lt).mpr hseat.ideal) hne

/-! ## Probes -/

/-- The slots on the way from the ideal slot of the entry at `i` let it through. -/
def Passable (t : HtBare) (i : ℕ) : Prop :=
  ∀ d, d < (t.slot i).pd → ¬ (t.at t.capacity (t.slot i).hash d).Empty ∧
    ((t.at t.capacity (t.slot i).hash d).Live → d ≤ (t.at t.capacity (t.slot i).hash d).pd)

/-- The probe to a seated entry finds nothing exactly when the slots on its way let it through. -/
lemma probeTo_none {m k : ℕ} (hs : Seated t.capacity i (t.slot i)) (hk : k ≤ (t.slot i).pd)
    (hm : (t.slot i).pd < k + m) :
    probeTo t i m k = none ↔ ∀ d, k ≤ d → d < (t.slot i).pd →
      ¬ (t.at t.capacity (t.slot i).hash d).Empty ∧
      ((t.at t.capacity (t.slot i).hash d).Live → d ≤ (t.at t.capacity (t.slot i).hash d).pd) := by
  induction m generalizing k with
  | zero => omega
  | succ m ih =>
    have hpos : ((t.slot i).hash % t.capacity + k) % t.capacity =
        ((t.slot i).hash + k) % t.capacity := Nat.mod_add_mod _ _ _
    have hscan : t.slot (((t.slot i).hash + k) % t.capacity) = t.at t.capacity (t.slot i).hash k :=
      rfl
    rw [probeTo]
    simp only [hpos, hscan]
    rcases Nat.eq_or_lt_of_le hk with heq | hlt
    · -- the probe has arrived
      rw [heq, if_pos hs.ideal]
      refine ⟨fun _ d h1 h2 => by omega, fun _ => rfl⟩
    have hne : ((t.slot i).hash + k) % t.capacity ≠ i := by
      intro he
      have hkn : k < t.capacity := hlt.trans hs.pd_lt
      exact offset_ne hkn hs.pd_lt hlt.ne (he.trans hs.ideal.symm)
    have h16 : (k + 1) % 2 ^ 16 = k + 1 := Nat.mod_eq_of_lt (by have := hs.pd16; omega)
    rw [if_neg hne, h16]
    have hih := ih (k := k + 1) hlt (by omega)
    have hsplit : (∀ d, k ≤ d → d < (t.slot i).pd →
        ¬ (t.at t.capacity (t.slot i).hash d).Empty ∧
        ((t.at t.capacity (t.slot i).hash d).Live → d ≤ (t.at t.capacity (t.slot i).hash d).pd)) ↔
        (¬ (t.at t.capacity (t.slot i).hash k).Empty ∧
        ((t.at t.capacity (t.slot i).hash k).Live → k ≤ (t.at t.capacity (t.slot i).hash k).pd)) ∧
        (∀ d, k + 1 ≤ d → d < (t.slot i).pd →
        ¬ (t.at t.capacity (t.slot i).hash d).Empty ∧
        ((t.at t.capacity (t.slot i).hash d).Live →
          d ≤ (t.at t.capacity (t.slot i).hash d).pd)) := by
      constructor
      · exact fun h => ⟨h k le_rfl hlt, fun d h1 h2 => h d (by omega) h2⟩
      · rintro ⟨h0, h⟩ d h1 h2
        rcases Nat.eq_or_lt_of_le h1 with rfl | h1
        · exact h0
        · exact h d h1 h2
    rw [hsplit]
    rcases Slot.trichotomy (t.at t.capacity (t.slot i).hash k) with he | ht | hl
    · rw [if_pos he]
      exact ⟨nofun, fun h => absurd he h.1.1⟩
    · rw [if_neg ht.not_empty, if_pos ht, hih]
      exact ⟨fun h => ⟨⟨ht.not_empty, fun hl => absurd ht hl.not_tomb⟩, h⟩, fun h => h.2⟩
    · rw [if_neg hl.not_empty, if_neg hl.not_tomb]
      split
      · rename_i hpd
        exact ⟨nofun, fun h => absurd (h.1.2 hl) (by omega)⟩
      · rename_i hpd
        rw [hih]
        exact ⟨fun h => ⟨⟨hl.not_empty, fun _ => not_lt.mp hpd⟩, h⟩, fun h => h.2⟩

/-- Entries that are let through are reached. -/
lemma reach_of_passable (hpos : 0 < t.capacity)
    (hseat : ∀ i, i < t.capacity → (t.slot i).Live → Seated t.capacity i (t.slot i))
    (hpass : ∀ i, i < t.capacity → (t.slot i).Live → Passable t i) :
    Reach (t.layout t.capacity) := by
  have : NeZero t.capacity := ⟨hpos.ne'⟩
  intro p d hp k h1 hk
  have hi : p.val < t.capacity := ZMod.val_lt p
  obtain ⟨hl, hpd⟩ := Slot.live_of_cell (s := t.slot p.val) hp
  have hs := hseat _ hi hl
  obtain ⟨hne, hle⟩ := hpass _ hi hl (d - k) (by omega)
  have hring : p - (k : ZMod t.capacity) = ((t.slot p.val).hash : ZMod t.capacity) +
      ((d - k : ℕ) : ZMod t.capacity) := by
    have h := congrArg (fun x : ℕ => (x : ZMod t.capacity)) hs.ideal
    simp only [ZMod.natCast_mod, hpd, ZMod.natCast_val, ZMod.cast_id', id_eq] at h
    push_cast at h
    rw [Nat.cast_sub hk]
    linear_combination -h
  rw [hring, HtBare.layout_offset]
  rcases Slot.trichotomy (t.at t.capacity (t.slot p.val).hash (d - k)) with he | ht | hl'
  · exact absurd he hne
  · rw [Slot.cell_tomb ht]
    trivial
  · rw [Slot.cell_live hl']
    exact hle hl'

/-- Entries of a table that is sound but for the probe limit are let through. -/
lemma Sound.passable (hS : Sound t.capacity t) (hi : i < t.capacity) (hl : (t.slot i).Live) :
    Passable t i := by
  have hseat := hS.slots i hi hl
  have hat : t.at t.capacity (t.slot i).hash (t.slot i).pd = t.slot i := by
    unfold HtBare.at
    rw [hseat.ideal]
  intro d hd
  exact hS.passes (j := (t.slot i).pd) hseat.pd_lt (by rw [hat]; exact hl) (by rw [hat]) hd.le

/-! ## The checker -/

/-- What a table with right books must satisfy to pass. -/
lemma htBareCheckInvariants_none (hB : Books t) : htBareCheckInvariants t = none ↔
    (∀ i, i < t.capacity → checkSlot t i = none) ∧
    (∀ i, i < t.capacity → (t.slot i).Live → probeTo t i (t.capacity + 1) 0 = none) := by
  have hspill : (t.spill.countP fun e => decide (e.2 ≠ valNone)) = t.spill.length := by
    rw [List.countP_eq_length]
    exact fun e he => decide_eq_true (hB.spill e he).2
  unfold htBareCheckInvariants
  cases h : (List.range t.capacity).findSome? (checkSlot t) with
  | some e =>
    constructor
    · nofun
    · rintro ⟨h1, -⟩
      obtain ⟨i, hi, he⟩ := List.exists_of_findSome?_eq_some h
      rw [h1 i (List.mem_range.mp hi)] at he
      cases he
  | none =>
    rw [List.findSome?_eq_none_iff] at h
    simp only [hspill]
    rw [if_neg (not_not.mpr hB.size), if_neg (not_lt.mpr hB.overflowLen),
      if_neg (not_not.mpr hB.tombs), List.findSome?_eq_none_iff]
    constructor
    · intro hp
      refine ⟨fun i hi => h i (List.mem_range.mpr hi), fun i hi hl => ?_⟩
      have := hp i (List.mem_range.mpr hi)
      rwa [if_pos hl] at this
    · rintro ⟨-, hp⟩ i hi
      rw [ite_eq_right_iff]
      exact hp i (List.mem_range.mp hi)

/-- The values stored in a formed table. -/
lemma Formed.vals (hF : Formed t) : ∀ e ∈ t.contents, e.2 ≠ valNone := by
  intro e he
  rcases Multiset.mem_add.mp he with h | h
  · rcases Multiset.mem_add.mp h with h | h
    · exact (hF.live (Multiset.mem_coe.mp h)).val
    · exact (hF.spill e (Multiset.mem_coe.mp h)).2
  · exact (hF.overflow e (Multiset.mem_coe.mp h)).val

/-- A table with right books passes exactly when it is sound but for the probe limit. -/
lemma htBareCheckInvariants_iff (hB : Books t) :
    htBareCheckInvariants t = none ↔ Sound t.capacity t.unlimited := by
  rw [htBareCheckInvariants_none hB]
  constructor
  · rintro ⟨hslots, hprobes⟩
    have hseat : ∀ i, i < t.capacity → (t.slot i).Live → Seated t.capacity i (t.slot i) :=
      fun i hi => (checkSlot_none hB.toFormed hi).mp (hslots i hi)
    have hpass : ∀ i, i < t.capacity → (t.slot i).Live → Passable t i := by
      intro i hi hl d hd
      have hs := hseat i hi hl
      exact (probeTo_none hs (Nat.zero_le _) (by have := hs.pd_lt; omega)).mp (hprobes i hi hl) d
        (Nat.zero_le d) hd
    exact ⟨hB.capacity_pos, rfl, reach_of_passable hB.capacity_pos hseat hpass, hseat, nofun,
      fun e he => (hB.spill e he).1,
      fun e he => ⟨(hB.overflow e he).hash2, (hB.overflow e he).hash48⟩, hB.toFormed.vals⟩
  · intro hS
    refine ⟨fun i hi => (checkSlot_none hB.toFormed hi).mpr (hS.slots i hi), fun i hi hl => ?_⟩
    have hs : Seated t.capacity i (t.slot i) := hS.slots i hi hl
    rw [probeTo_none hs (Nat.zero_le _) (by have := hs.pd_lt; omega)]
    intro d _ hd
    exact Sound.passable (t := t.unlimited) hS hi hl d hd

end Draugr
