import Draugr.Bare.Load
import Draugr.Bare.Seen

/-!
# `ht_bare_remove_val` on a table that passes the check

A deletion moves entries back, so no entry is seen less after it (`seenCount_deleteAt`), and the
searches that lap the array go on lapping. `htBareRemoveVal_one_iff` says when the call does what it
is meant to do: unless the search for the hash laps an array whose ideal slot holds the entry, which
is then reported twice and removed once, and unless the entry is stored where the probe limit hides
it from `ht_bare_find_all`.
-/

namespace Draugr
open Lib

variable {n h v : ℕ} {t t' : HtBare}

/-! ## The probe limit plays no part in a removal -/

/-- The scan of a chain does not read the limit. -/
lemma chainScan_unlimited (t : HtBare) (m scan chain live : ℕ) :
    chainScan t.unlimited m scan chain live = chainScan t m scan chain live := by
  induction m generalizing scan chain live with
  | zero => rfl
  | succ m ih =>
    rw [chainScan, chainScan, ih, ih]
    rfl

/-- The test of the slots does not read the limit. -/
lemma verifyFrom_unlimited (t : HtBare) (idx m i w : ℕ) :
    verifyFrom t.unlimited idx m i w = verifyFrom t idx m i w := by
  induction m generalizing i w with
  | zero => rfl
  | succ m ih =>
    rw [verifyFrom, verifyFrom, ih, ih]
    rfl

/-- The commit of a deletion does not read the limit. -/
lemma commitFrom_unlimited (idx m i w : ℕ) (t : HtBare) :
    commitFrom idx m i w t.unlimited = (commitFrom idx m i w t).unlimited := by
  induction m generalizing i w t with
  | zero => rfl
  | succ m ih =>
    rw [commitFrom, commitFrom]
    split
    · rename_i hl
      rw [if_pos (show (t.slot ((idx + 1 + i) % t.capacity)).Live from hl), ← ih]
      rfl
    · rename_i hl
      rw [if_neg (show ¬ (t.slot ((idx + 1 + i) % t.capacity)).Live from hl), ← ih]
      rfl

/-- `bare_delete_compact` does not read the limit. -/
lemma bareDeleteCompact_unlimited (t : HtBare) (idx : ℕ) :
    bareDeleteCompact t.unlimited idx = (bareDeleteCompact t idx).unlimited := by
  have hcap : t.unlimited.capacity = t.capacity := rfl
  unfold bareDeleteCompact bareVerifyIdealSafe bareCommitBackwardShift
  rw [hcap, chainScan_unlimited]
  rcases chainScan t bshiftCap ((idx + 1) % t.capacity) 0 0 with ⟨len, l, e⟩
  simp only [verifyFrom_unlimited, commitFrom_unlimited]
  split
  · rfl
  · rfl

/-- A deletion does not read the limit. -/
lemma deleteAt_unlimited (t : HtBare) (idx : ℕ) :
    deleteAt t.unlimited idx = (deleteAt t idx).unlimited :=
  bareDeleteCompact_unlimited { t.setSlot idx Slot.tombSlot with
    size := sizeDec t.size, tombstoneCnt := t.tombstoneCnt + 1 } idx

/-- The scan of `ht_bare_remove_val` does not read the limit. -/
lemma removeValFrom_unlimited (t : HtBare) (h v m idx dist : ℕ) :
    removeValFrom t.unlimited h v m idx dist =
      (removeValFrom t h v m idx dist).map HtBare.unlimited := by
  induction m generalizing idx dist with
  | zero => rfl
  | succ m ih =>
    have hcap : t.unlimited.capacity = t.capacity := rfl
    have hslot : t.unlimited.slot idx = t.slot idx := rfl
    rw [removeValFrom, removeValFrom, ih, hcap, hslot, deleteAt_unlimited]
    split_ifs <;> rfl

/-- `ht_bare_remove_val` does not read the limit. -/
lemma htBareRemoveVal_unlimited (t : HtBare) (hash v : ℕ) :
    htBareRemoveVal t.unlimited hash v =
      ((htBareRemoveVal t hash v).1, (htBareRemoveVal t hash v).2.unlimited) := by
  have hcap : t.unlimited.capacity = t.capacity := rfl
  unfold htBareRemoveVal
  split
  · unfold bareSpillRemoveVal
    have hspill : t.unlimited.spill = t.spill := rfl
    rw [hspill]
    split <;> rfl
  · rw [hcap, removeValFrom_unlimited]
    cases removeValFrom t (h48 hash) v (t.capacity + 1) (h48 hash % t.capacity) 0 with
    | some t₁ => rfl
    | none =>
      simp only [Option.map_none]
      unfold overflowStashRemoveVal
      have hov : t.unlimited.overflow = t.overflow := rfl
      rw [hov]
      split <;> rfl

/-! ## What a deletion does to the other slots -/

/-- A write changes a count by the difference. -/
lemma countP_put {p : Slot → Bool} {i idx : ℕ} {s : Slot} (hpos : 0 < n) (hc : t.capacity = n) :
    (t.put n idx i s).main.countP p + (if p (t.at n idx i) then 1 else 0) =
      t.main.countP p + (if p s then 1 else 0) :=
  countP_set_add p t.main _ s Slot.emptySlot (by
    show (idx + i) % n < t.capacity
    rw [hc]
    exact Nat.mod_lt _ hpos)

/-- A deletion does not make fewer the slots with a property that survives a move back. -/
lemma deleteAt_countP {p : Slot → Bool} {idx : ℕ} (hF : Formed t) (hi : idx < t.capacity)
    (htomb : ∀ s : Slot, s.Tomb → p s = false)
    (hmove : ∀ {s : Slot} {g : ℕ}, s.Live → SlotFormed s → p s = true →
      p (hpdPack s.hash (s.pd - g) s.val) = true) :
    t.main.countP p ≤ (deleteAt t idx).main.countP p + (if p (t.slot idx) then 1 else 0) := by
  have hpos := hF.capacity_pos
  have hset := countP_set_add p t.main idx Slot.tombSlot Slot.emptySlot hi
  rw [htomb _ Slot.tombSlot_tomb, if_neg Bool.false_ne_true] at hset
  have hslot : t.main.getD idx Slot.emptySlot = t.slot idx := rfl
  rw [hslot] at hset
  let t₁ : HtBare := { t.setSlot idx Slot.tombSlot with
    size := sizeDec t.size, tombstoneCnt := t.tombstoneCnt + 1 }
  have hF₁ : Formed t₁ := (hF.drop (i := idx) Slot.tombSlot_tomb.not_live).congr rfl rfl rfl
  have htomb₁ : (t₁.slot idx).Tomb := by
    show ((t.setSlot idx Slot.tombSlot).slot idx).Tomb
    rw [HtBare.slot_setSlot _ hi, if_pos rfl]
    exact Slot.tombSlot_tomb
  have hmain : (t.main.set idx Slot.tombSlot).countP p ≤ (deleteAt t idx).main.countP p := by
    refine (bareDeleteCompact_rule (t := t₁) (n := t.capacity)
      (Q := fun t' => (t'.capacity = t.capacity ∧ Formed t') ∧
        (t.main.set idx Slot.tombSlot).countP p ≤ t'.main.countP p) (fun h => h.1.1) ?_ ?_
      ⟨⟨HtBare.capacity_setSlot t idx _, hF₁⟩, le_rfl⟩ hi htomb₁).2
    · -- an entry moves back
      rintro t' i w s ⟨⟨hc', hF'⟩, hle⟩ hwi hin hs hlive - hgap
      have hform : SlotFormed s := hs ▸ hF'.slots _ (by
        show (t'.at t.capacity idx (i + 1)).Live
        rw [hs]
        exact hlive)
      have h1 := (@countP_put _ _ p (i + 1) idx Slot.tombSlot) hpos hc'
      have hc₁ : (t'.put t.capacity idx (i + 1) Slot.tombSlot).capacity = t.capacity := by
        rw [HtBare.capacity_put, hc']
      have h2 := (@countP_put _ (t'.put t.capacity idx (i + 1) Slot.tombSlot) p w idx
        (hpdPack s.hash (s.pd - (i + 1 - w)) s.val)) hpos hc₁
      have hat : (t'.put t.capacity idx (i + 1) Slot.tombSlot).at t.capacity idx w =
          t'.at t.capacity idx w := by
        have hwn : w < t.capacity := by omega
        have hne : ¬ w = i + 1 := by omega
        rw [HtBare.at_put hc' hin hwn, if_neg hne]
      rw [hat, htomb _ (hgap w le_rfl hwi), if_neg Bool.false_ne_true] at h2
      rw [hs, htomb _ Slot.tombSlot_tomb, if_neg Bool.false_ne_true] at h1
      refine ⟨⟨?_, ?_⟩, ?_⟩
      · rw [HtBare.capacity_put, hc₁]
      · exact (hF'.drop Slot.tombSlot_tomb.not_live).write fun _ => .pack hform.val
      · by_cases hp : p s = true
        · rw [if_pos (hmove hlive hform hp)] at h2
          rw [if_pos hp] at h1
          omega
        · rw [if_neg hp] at h1
          omega
    · -- a tombstone is emptied
      rintro t' i ⟨⟨hc', hF'⟩, hle⟩ hi' ht'
      have h1 := countP_set_add p t'.main i Slot.emptySlot Slot.emptySlot (by
        show i < t'.capacity
        rw [hc']
        exact hi')
      have hslot' : t'.main.getD i Slot.emptySlot = t'.slot i := rfl
      rw [hslot', htomb _ ht', if_neg Bool.false_ne_true] at h1
      refine ⟨⟨(HtBare.capacity_setSlot t' i _).trans hc', ?_⟩, ?_⟩
      · exact (hF'.drop (i := i) Slot.emptySlot_empty.not_live).congr rfl rfl rfl
      · show _ ≤ (t'.main.set i Slot.emptySlot).countP p
        omega
  omega

/-- The fields of a table that a deletion leaves alone. -/
lemma deleteAt_fields (t : HtBare) (idx : ℕ) : (deleteAt t idx).spill = t.spill ∧
    (deleteAt t idx).overflow = t.overflow ∧
    (deleteAt t idx).overflowViolated = t.overflowViolated ∧
    (deleteAt t idx).maxProbeDist = t.maxProbeDist := by
  unfold deleteAt bareDeleteCompact bareCommitBackwardShift
  dsimp only
  split
  · rw [commitFrom_fields]
    exact ⟨rfl, rfl, rfl, rfl⟩
  · exact ⟨rfl, rfl, rfl, rfl⟩

/-- An entry moved back is not less visible. -/
lemma deleteAt_seenCount {idx : ℕ} (hF : Formed t) (hi : idx < t.capacity) (h v : ℕ) :
    seenCount t h v ≤ seenCount (deleteAt t idx) h v +
      (if (t.slot idx).Holds h v then 1 else 0) := by
  obtain ⟨-, -, hvi, hmp⟩ := deleteAt_fields t idx
  have hvis : ∀ pd, Visible (deleteAt t idx) pd ↔ Visible t pd := fun pd => by
    unfold Visible
    rw [hvi, hmp]
  have hcount := deleteAt_countP (p := fun s => decide (s.Holds h v ∧ Visible t s.pd)) hF hi
    (fun s hs => decide_eq_false fun hc => hc.1.1.not_tomb hs) (by
      intro s g hl hform hp
      rw [decide_eq_true_eq] at hp ⊢
      obtain ⟨⟨-, hh, hv⟩, hpd⟩ := hp
      have hpack : hpdPack s.hash (s.pd - g) s.val = ⟨s.hash, s.pd - g, s.val⟩ :=
        hpdPack_eq hform.hash48 (by have := hform.pd16; omega)
      rw [hpack]
      refine ⟨⟨hl, hh, hv⟩, ?_⟩
      rintro ⟨h1, h2, h3⟩
      exact hpd ⟨h1, h2, h3.trans_le (Nat.sub_le _ _)⟩)
  unfold seenCount
  simp only [hvis]
  refine hcount.trans (Nat.add_le_add_left ?_ _)
  by_cases hp : (t.slot idx).Holds h v
  · rw [if_pos hp]
    split <;> omega
  · rw [if_neg hp, if_neg]
    rw [decide_eq_true_eq]
    exact fun hc => hp hc.1

/-! ## Arrays without an empty slot -/

/-- The scan of a chain does not end at an empty slot if there is none. -/
lemma chainScan_full (hne : ∀ i, i < t.capacity → ¬ (t.slot i).Empty) (hpos : 0 < t.capacity)
    (m : ℕ) {scan chain live : ℕ} (hs : scan < t.capacity) :
    (chainScan t m scan chain live).2.2 = false := by
  induction m generalizing scan chain live with
  | zero => rfl
  | succ m ih =>
    have hnext := Nat.mod_lt (scan + 1) hpos
    rw [chainScan, if_neg (hne scan hs)]
    split
    · exact ih hnext
    split
    · rfl
    · exact ih hnext

/-- Without an empty slot, a deletion leaves a tombstone and nothing else. -/
lemma deleteAt_full {idx : ℕ} (hne : ∀ i, i < t.capacity → ¬ (t.slot i).Empty)
    (hi : idx < t.capacity) : deleteAt t idx = { t.setSlot idx Slot.tombSlot with
      size := sizeDec t.size, tombstoneCnt := t.tombstoneCnt + 1 } := by
  have hpos : 0 < t.capacity := by omega
  have hcap : ({ t.setSlot idx Slot.tombSlot with
      size := sizeDec t.size, tombstoneCnt := t.tombstoneCnt + 1 } : HtBare).capacity =
        t.capacity :=
    HtBare.capacity_setSlot t idx _
  have hne' : ∀ i, i < ({ t.setSlot idx Slot.tombSlot with
      size := sizeDec t.size, tombstoneCnt := t.tombstoneCnt + 1 } : HtBare).capacity →
      ¬ (({ t.setSlot idx Slot.tombSlot with
        size := sizeDec t.size, tombstoneCnt := t.tombstoneCnt + 1 } : HtBare).slot i).Empty := by
    intro i hi'
    show ¬ ((t.setSlot idx Slot.tombSlot).slot i).Empty
    rw [HtBare.slot_setSlot _ hi]
    split
    · exact Slot.tombSlot_tomb.not_empty
    · exact hne i (hcap ▸ hi')
  have hscan := (@chainScan_full _ hne' (hcap.symm ▸ hpos) bshiftCap ((idx + 1) % t.capacity) 0 0)
    (hcap.symm ▸ Nat.mod_lt _ hpos)
  unfold deleteAt bareDeleteCompact
  rw [hcap]
  rcases hr : chainScan { t.setSlot idx Slot.tombSlot with
      size := sizeDec t.size, tombstoneCnt := t.tombstoneCnt + 1 } bshiftCap
      ((idx + 1) % t.capacity) 0 0 with ⟨len, l, e⟩
  rw [hr] at hscan
  simp only at hscan ⊢
  rw [hscan, if_neg fun hc => Bool.false_ne_true hc.1]

/-- A search that laps finds no empty slot. -/
lemma Laps.no_empty {hash i : ℕ} (hL : Laps t hash) (hi : i < t.capacity) : ¬ (t.slot i).Empty := by
  obtain ⟨j, hj, hoff⟩ := exists_offset (h48 hash) hi
  have h := (hL.2 j hj).1
  unfold HtBare.at at h
  rwa [hoff] at h

/-- A search that laps goes on lapping when a slot becomes a tombstone. -/
lemma Laps.bury {hash idx : ℕ} (hL : Laps t hash) (hi : idx < t.capacity)
    (hm : t'.main = t.main.set idx Slot.tombSlot)
    (hv : t'.overflowViolated = t.overflowViolated) (hp : t'.maxProbeDist = t.maxProbeDist) :
    Laps t' hash := by
  have hcap : t'.capacity = t.capacity := by
    unfold HtBare.capacity
    rw [hm, List.length_set]
  have hslot : ∀ i, t'.slot i = if i = idx then Slot.tombSlot else t.slot i := fun i => by
    rw [← HtBare.slot_setSlot (j := i) Slot.tombSlot hi]
    unfold HtBare.slot HtBare.setSlot
    rw [hm]
  refine ⟨hcap ▸ hL.1, fun j hj => ?_⟩
  have hgo := hL.2 j (hcap ▸ hj)
  unfold goesOn searchStops HtBare.at at hgo ⊢
  rw [hcap, hslot, hv, hp]
  split
  · exact ⟨Slot.tombSlot_tomb.not_empty, fun hl => absurd hl Slot.tombSlot_tomb.not_live⟩
  · exact hgo

/-- Lapping only reads the main array and the probe limit. -/
lemma Laps.congr {hash : ℕ} (hL : Laps t hash) (hm : t'.main = t.main)
    (hv : t'.overflowViolated = t.overflowViolated) (hp : t'.maxProbeDist = t.maxProbeDist) :
    Laps t' hash := by
  unfold Laps goesOn searchStops HtBare.at HtBare.slot HtBare.capacity at hL ⊢
  rwa [hm, hv, hp]

/-! ## `ht_bare_remove_val` -/

/-- A removal that fails leaves the table. -/
lemma htBareRemoveVal_false {hash : ℕ} (hr : (htBareRemoveVal t hash v).1 = false) :
    htBareRemoveVal t hash v = (false, t) := by
  unfold htBareRemoveVal bareSpillRemoveVal overflowStashRemoveVal at hr ⊢
  split
  · rename_i hs
    rw [if_pos hs] at hr
    split
    · rename_i hm
      rw [if_pos hm] at hr
      cases hr
    · rfl
  · rename_i hs
    rw [if_neg hs] at hr
    cases hf : removeValFrom t (h48 hash) v (t.capacity + 1) (h48 hash % t.capacity) 0 with
    | some t₁ =>
      rw [hf] at hr
      cases hr
    | none =>
      rw [hf] at hr
      simp only at hr ⊢
      cases hx : t.overflow.findIdx? (· = (h48 hash, v)) with
      | some i =>
        rw [hx] at hr
        cases hr
      | none => rfl

/-- A removal that succeeds deletes in the main array or leaves it alone. -/
lemma htBareRemoveVal_true {hash : ℕ} (hB : Books t) (hr : htBareRemoveVal t hash v = (true, t')) :
    (∃ i, i < t.capacity ∧ (t.slot i).Holds (h48 hash) v ∧ t' = deleteAt t i) ∨
    (t'.main = t.main ∧ t'.overflowViolated = t.overflowViolated ∧
      t'.maxProbeDist = t.maxProbeDist) := by
  unfold htBareRemoveVal bareSpillRemoveVal overflowStashRemoveVal at hr
  split at hr
  · right
    split at hr
    · cases hr
      exact ⟨rfl, rfl, rfl⟩
    · cases hr
  · cases hf : removeValFrom t (h48 hash) v (t.capacity + 1) (h48 hash % t.capacity) 0 with
    | some t₁ =>
      rw [hf] at hr
      cases hr
      obtain ⟨i, hi, hl, hh, hv, he⟩ := removeValFrom_some rfl (Nat.mod_lt _ hB.capacity_pos) hf
      exact .inl ⟨i, hi, ⟨hl, hh, hv⟩, he⟩
    | none =>
      right
      rw [hf] at hr
      simp only at hr
      split at hr
      · cases hr
      · cases hr
        exact ⟨rfl, rfl, rfl⟩

/-- In a table that passes the check, a removal drops one entry if there is one. -/
lemma htBareRemoveVal_checked (hB : Books t) (hchk : htBareCheckInvariants t = none) (hash v : ℕ) :
    (htBareRemoveVal t hash v = (false, t) ∧ (h48 hash, v) ∉ t.contents) ∨
    ∃ t', htBareRemoveVal t hash v = (true, t') ∧ (h48 hash, v) ::ₘ t'.contents = t.contents ∧
      Books t' ∧ htBareCheckInvariants t' = none := by
  have hS := (htBareCheckInvariants_iff hB).mp hchk
  have hB' := htBareRemoveVal_books hB hash v
  rcases htBareRemoveVal_spec hS hash v with ⟨he, hno⟩ | ⟨tu, he, hD⟩
  · rw [htBareRemoveVal_unlimited] at he
    exact .inl ⟨htBareRemoveVal_false (congrArg Prod.fst he), hno⟩
  · right
    rw [htBareRemoveVal_unlimited] at he
    cases he' : htBareRemoveVal t hash v with
    | mk ok t' =>
      rw [he'] at he hB'
      cases he
      refine ⟨t', rfl, hD.contents, hB', (htBareCheckInvariants_iff hB').mpr ?_⟩
      have hcap : t'.capacity = t.capacity := hD.sound.cap
      rw [hcap]
      exact hD.sound

/-- `t'` is `t` with one occurrence of `(h, v)` less: the stored entries lose it, whatever else was
reported still is, and the table passes the check. -/
structure RemovedOne (t t' : HtBare) (h v : ℕ) : Prop where
  stored : (h, v) ::ₘ t'.contents = t.contents
  others : ∀ hash' v', (h48 hash', v') ≠ (h, v) →
    (htBareFindAll t hash').count v' ≤ (htBareFindAll t' hash').count v'
  one : ∀ hash',
    h48 hash' = h → (htBareFindAll t hash').count v ≤ (htBareFindAll t' hash').count v + 1
  check : htBareCheckInvariants t' = none

/-- `ht_bare_remove_val` removes one occurrence of what `ht_bare_find_all` reports, and nothing when
it does not report the value. -/
def RemovesVal (t : HtBare) (hash v : ℕ) : Prop :=
  (v ∈ htBareFindAll t hash →
    ∃ t', htBareRemoveVal t hash v = (true, t') ∧ RemovedOne t t' (h48 hash) v) ∧
  (v ∉ htBareFindAll t hash → htBareRemoveVal t hash v = (false, t))

/-- The search for the hash laps the array, and the ideal slot holds the entry. -/
def SeenTwice (t : HtBare) (hash v : ℕ) : Prop :=
  2 ≤ h48 hash ∧ Laps t hash ∧ (t.slot (h48 hash % t.capacity)).Holds (h48 hash) v

/-- The entry is stored, but `ht_bare_find_all` does not report it. -/
def Unseen (t : HtBare) (hash v : ℕ) : Prop :=
  (h48 hash, v) ∈ t.contents ∧ v ∉ htBareFindAll t hash

/-- What is reported is stored, each occurrence of it. -/
lemma count_htBareFindAll_le {hash : ℕ} (hF : Formed t) (hS : Sound n t.unlimited) (v : ℕ)
    (h2 : ¬ SeenTwice t hash v) :
    (htBareFindAll t hash).count v ≤ t.contents.count (h48 hash, v) := by
  by_cases hh : h48 hash < 2
  · rw [count_htBareFindAll_spill hh, hF.count_small hh]
  · have hlap : ¬ (Laps t hash ∧ (t.slot (h48 hash % t.capacity)).Holds (h48 hash) v) := by
      intro hc
      exact h2 ⟨not_lt.mp hh, hc⟩
    have := seenCount_le t (h48 hash) v
    rw [count_htBareFindAll hS hh, if_neg hlap, count_contents, hF.count_spill hh]
    omega

/-- A value that is seen twice is stored. -/
lemma SeenTwice.stored {hash : ℕ} (h2 : SeenTwice t hash v) (hpos : 0 < t.capacity) :
    (h48 hash, v) ∈ t.contents := by
  have hi : h48 hash % t.capacity < t.capacity := Nat.mod_lt _ hpos
  have hmain : 0 < t.main.countP fun s => decide (s.Holds (h48 hash) v) := by
    rw [List.countP_pos_iff]
    refine ⟨t.slot (h48 hash % t.capacity), ?_, decide_eq_true h2.2.2⟩
    unfold HtBare.slot
    rw [List.getD_eq_getElem?_getD, List.getElem?_eq_getElem hi]
    exact List.getElem_mem hi
  rw [← Multiset.count_pos, count_contents]
  omega

/-- What is reported is stored, be it seen twice or not. -/
lemma mem_contents_of_seen {hash : ℕ} (hF : Formed t) (hS : Sound n t.unlimited)
    (hm : v ∈ htBareFindAll t hash) : (h48 hash, v) ∈ t.contents := by
  by_cases h2 : SeenTwice t hash v
  · exact h2.stored hF.capacity_pos
  · have hle := count_htBareFindAll_le hF hS v h2
    have hpos := List.count_pos_iff.mpr hm
    exact Multiset.count_pos.mp (by omega)

/-- How the reports change with a removal: only those of the entry itself become fewer, by one,
unless it was seen twice. -/
lemma count_htBareRemoveVal {hash : ℕ} (hB : Books t) (hchk : htBareCheckInvariants t = none)
    (hr : htBareRemoveVal t hash v = (true, t')) (hash' v' : ℕ)
    (h2 : (h48 hash', v') = (h48 hash, v) → ¬ SeenTwice t hash' v') :
    (htBareFindAll t hash').count v' ≤
      (htBareFindAll t' hash').count v' + if (h48 hash', v') = (h48 hash, v) then 1 else 0 := by
  obtain ⟨hcon, hB', hchk'⟩ : (h48 hash, v) ::ₘ t'.contents = t.contents ∧ Books t' ∧
      htBareCheckInvariants t' = none := by
    rcases htBareRemoveVal_checked hB hchk hash v with ⟨he, -⟩ | ⟨t₁, he, h⟩
    · rw [he] at hr
      cases hr
    · rw [he] at hr
      cases hr
      exact h
  have hstored : t.contents.count (h48 hash', v') = t'.contents.count (h48 hash', v') +
      if (h48 hash', v') = (h48 hash, v) then 1 else 0 := by
    rw [← hcon, Multiset.count_cons]
  by_cases hh : h48 hash' < 2
  · -- a hash of the spill lane: what is stored is reported
    rw [count_htBareFindAll_spill hh, count_htBareFindAll_spill hh, ← hB.toFormed.count_small hh,
      ← hB'.toFormed.count_small hh, hstored]
  have hS := (htBareCheckInvariants_iff hB).mp hchk
  have hS' := (htBareCheckInvariants_iff hB').mp hchk'
  rw [count_htBareFindAll hS hh, count_htBareFindAll hS' hh]
  rcases htBareRemoveVal_true hB hr with ⟨i, hi, hholds, rfl⟩ | ⟨hm, hv, hp⟩
  · -- the entry leaves the main array
    obtain ⟨-, hov, hvi, hmp⟩ := deleteAt_fields t i
    have hseen := deleteAt_seenCount hB.toFormed hi (h48 hash') v'
    have heq : (if (t.slot i).Holds (h48 hash') v' then 1 else 0) ≤
        if (h48 hash', v') = (h48 hash, v) then 1 else 0 := by
      by_cases hc : (t.slot i).Holds (h48 hash') v'
      · have hsame : (h48 hash', v') = (h48 hash, v) := by
          rw [← hc.2.1, ← hc.2.2, hholds.2.1, hholds.2.2]
        rw [if_pos hc, if_pos hsame]
      · rw [if_neg hc]
        exact Nat.zero_le _
    -- a lookup that laps sees the slot of its hash twice, before and after
    have hlap : (if Laps t hash' ∧ (t.slot (h48 hash' % t.capacity)).Holds (h48 hash') v'
        then 1 else 0) ≤ if Laps (deleteAt t i) hash' ∧
          ((deleteAt t i).slot (h48 hash' % (deleteAt t i).capacity)).Holds (h48 hash') v'
        then 1 else 0 := by
      by_cases hc : Laps t hash' ∧ (t.slot (h48 hash' % t.capacity)).Holds (h48 hash') v'
      · have hne : (h48 hash', v') ≠ (h48 hash, v) := fun he => h2 he ⟨not_lt.mp hh, hc⟩
        have hfull := deleteAt_full (fun i hi => hc.1.no_empty hi) hi
        have hideal : h48 hash' % t.capacity ≠ i := by
          rintro rfl
          apply hne
          rw [← hc.2.2.1, ← hc.2.2.2, hholds.2.1, hholds.2.2]
        have hcap : (deleteAt t i).capacity = t.capacity := (deleteAt_books hB hi hholds.1).2
        have hslot :
            (deleteAt t i).slot (h48 hash' % t.capacity) = t.slot (h48 hash' % t.capacity) := by
          rw [hfull]
          show (t.setSlot i Slot.tombSlot).slot _ = _
          rw [HtBare.slot_setSlot _ hi, if_neg hideal]
        have hL' : Laps (deleteAt t i) hash' := hc.1.bury hi (by rw [hfull]; rfl) hvi hmp
        rw [if_pos hc, if_pos]
        rw [hcap, hslot]
        exact ⟨hL', hc.2⟩
      · rw [if_neg hc]
        exact Nat.zero_le _
    rw [hov]
    omega
  · -- the entry leaves a lane
    have hvis : ∀ pd, Visible t' pd ↔ Visible t pd := fun pd => by
      unfold Visible
      rw [hv, hp]
    have hseen : seenCount t' (h48 hash') v' = seenCount t (h48 hash') v' := by
      unfold seenCount
      simp only [hvis, hm]
    have hlap : (if Laps t hash' ∧ (t.slot (h48 hash' % t.capacity)).Holds (h48 hash') v'
        then 1 else 0) ≤ if Laps t' hash' ∧
          (t'.slot (h48 hash' % t'.capacity)).Holds (h48 hash') v' then 1 else 0 := by
      by_cases hc : Laps t hash' ∧ (t.slot (h48 hash' % t.capacity)).Holds (h48 hash') v'
      · have hL' : Laps t' hash' := hc.1.congr hm hv hp
        have hcap : t'.capacity = t.capacity := congrArg List.length hm
        have hslot : t'.slot (h48 hash' % t.capacity) = t.slot (h48 hash' % t.capacity) := by
          unfold HtBare.slot
          rw [hm]
        rw [if_pos hc, if_pos]
        rw [hcap, hslot]
        exact ⟨hL', hc.2⟩
      · rw [if_neg hc]
        exact Nat.zero_le _
    rw [count_contents, count_contents, hm, hB.toFormed.count_spill hh,
      hB'.toFormed.count_spill hh] at hstored
    rw [hseen]
    omega

/-- A removal of an entry that is seen twice takes both reports away. -/
lemma count_of_seenTwice {hash : ℕ} (hB : Books t) (hchk : htBareCheckInvariants t = none)
    (h2 : SeenTwice t hash v) (hr : htBareRemoveVal t hash v = (true, t')) :
    (htBareFindAll t' hash).count v + 1 < (htBareFindAll t hash).count v := by
  have hS := (htBareCheckInvariants_iff hB).mp hchk
  obtain ⟨hbig, hL, hholds⟩ := h2
  have hh : ¬ h48 hash < 2 := not_lt.mpr hbig
  have hi : h48 hash % t.capacity < t.capacity := Nat.mod_lt _ hB.capacity_pos
  -- the loop deletes at the ideal slot
  have ht' : t' = deleteAt t (h48 hash % t.capacity) := by
    have hfrom : removeValFrom t (h48 hash) v (t.capacity + 1) (h48 hash % t.capacity) 0 =
        some (deleteAt t (h48 hash % t.capacity)) := by
      rw [removeValFrom, if_neg hholds.1.not_empty, if_neg hholds.1.not_tomb,
        if_neg (Nat.not_lt_zero _), if_pos hholds.2]
    unfold htBareRemoveVal at hr
    rw [if_neg hh, hfrom] at hr
    cases hr
    rfl
  obtain ⟨hcon, hB', hchk'⟩ : (h48 hash, v) ::ₘ t'.contents = t.contents ∧ Books t' ∧
      htBareCheckInvariants t' = none := by
    rcases htBareRemoveVal_checked hB hchk hash v with ⟨he, -⟩ | ⟨t₁, he, h⟩
    · rw [he] at hr
      cases hr
    · rw [he] at hr
      cases hr
      exact h
  have hS' := (htBareCheckInvariants_iff hB').mp hchk'
  have hfull := deleteAt_full (fun i hi => hL.no_empty hi) hi
  have hcap : t'.capacity = t.capacity := by
    rw [ht']
    exact (deleteAt_books hB hi hholds.1).2
  -- afterwards the ideal slot is a tombstone
  have htomb : ¬ SeenTwice t' hash v := by
    rintro ⟨-, -, hc⟩
    rw [hcap, ht', hfull] at hc
    have hl : ((t.setSlot (h48 hash % t.capacity) Slot.tombSlot).slot
        (h48 hash % t.capacity)).Live :=
      hc.1
    rw [HtBare.slot_setSlot _ hi, if_pos rfl] at hl
    exact Slot.tombSlot_tomb.not_live hl
  have hle := count_htBareFindAll_le hB'.toFormed hS' v htomb
  have hstored : t.contents.count (h48 hash, v) = t'.contents.count (h48 hash, v) + 1 := by
    rw [← hcon, Multiset.count_cons, if_pos rfl]
  -- before, every stored entry was seen
  have hseen : seenCount t (h48 hash) v = t.main.countP fun s => decide (s.Holds (h48 hash) v) := by
    unfold seenCount
    refine List.countP_congr fun s hs => ?_
    rw [decide_eq_true_eq, decide_eq_true_eq]
    refine ⟨fun hc => hc.1, fun hc => ⟨hc, ?_⟩⟩
    obtain ⟨p, hp, rfl⟩ := List.getElem_of_mem hs
    have hslot : t.slot p = t.main[p] := by
      unfold HtBare.slot
      rw [List.getD_eq_getElem?_getD, List.getElem?_eq_getElem hp]
      rfl
    obtain ⟨j, hj, hoff⟩ := exists_offset (h48 hash) (show p < t.capacity from hp)
    have hat : t.at t.capacity (h48 hash) j = t.main[p] := by
      unfold HtBare.at
      rw [hoff, hslot]
    rw [← hat] at hc ⊢
    exact visible_of_goesOn hS hj hc.1 hc.2.1 (hL.2 j hj)
  rw [count_htBareFindAll hS hh, if_pos ⟨hL, hholds⟩, hseen]
  rw [count_contents, hB.toFormed.count_spill hh] at hstored
  omega

/-- A removal of a value that is not seen twice, and is reported if it is stored. -/
lemma htBareRemoveVal_one {hash : ℕ} (hB : Books t) (hchk : htBareCheckInvariants t = none)
    (h2 : ¬ SeenTwice t hash v) (hun : ¬ Unseen t hash v) : RemovesVal t hash v := by
  have hS := (htBareCheckInvariants_iff hB).mp hchk
  constructor
  · intro hm
    have hstored := mem_contents_of_seen hB.toFormed hS hm
    rcases htBareRemoveVal_checked hB hchk hash v with ⟨-, hno⟩ | ⟨t', hr, hcon, hB', hchk'⟩
    · exact absurd hstored hno
    have htwice : ∀ hash', h48 hash' = h48 hash → ¬ SeenTwice t hash' v := by
      intro hash' he
      unfold SeenTwice Laps at h2 ⊢
      rwa [he]
    refine ⟨t', hr, hcon, ?_, ?_, hchk'⟩
    · intro hash' v' hne
      have h := count_htBareRemoveVal hB hchk hr hash' v' fun he => absurd he hne
      rwa [if_neg hne] at h
    · intro hash' he
      have h := count_htBareRemoveVal hB hchk hr hash' v fun _ => htwice hash' he
      rwa [if_pos (by rw [he])] at h
  · intro hm
    rcases htBareRemoveVal_checked hB hchk hash v with ⟨he, -⟩ | ⟨t', -, hcon, -, -⟩
    · exact he
    · exact absurd ⟨hcon ▸ Multiset.mem_cons_self _ _, hm⟩ hun

/-- When a removal does what it is meant to do. -/
lemma removesVal_iff {hash : ℕ} (hB : Books t) (hchk : htBareCheckInvariants t = none) :
    RemovesVal t hash v ↔ ¬ SeenTwice t hash v ∧ ¬ Unseen t hash v := by
  constructor
  · rintro ⟨hin, hout⟩
    have hun : ¬ Unseen t hash v := by
      rintro ⟨hstored, hm⟩
      rcases htBareRemoveVal_checked hB hchk hash v with ⟨-, hno⟩ | ⟨t', he, -⟩
      · exact hno hstored
      · rw [hout hm] at he
        cases he
    refine ⟨fun h2 => ?_, hun⟩
    have hstored := h2.stored hB.capacity_pos
    have hm : v ∈ htBareFindAll t hash := by
      by_contra hno
      exact hun ⟨hstored, hno⟩
    obtain ⟨t', he, hone⟩ := hin hm
    have hlt := count_of_seenTwice hB hchk h2 he
    have hle := hone.one hash rfl
    omega
  · rintro ⟨h2, hun⟩
    exact htBareRemoveVal_one hB hchk h2 hun

/-- `ht_bare_remove_val` on a reachable table that passes the check: it removes one occurrence of a
reported value, and nothing when the value is not reported, exactly when the value is not seen twice
by a search that laps the array and not stored out of sight of the searches. -/
theorem htBareRemoveVal_one_iff (cfg : HtConfig) (mem : List Bool) (fuel : ℕ)
    (calls : List BareCall) (t₀ t : HtBare) (hash v : ℕ) (hc : htBareCreate cfg mem fuel = some t₀)
    (hr : runCalls calls t₀ = some t) (hchk : htBareCheckInvariants t = none) :
    RemovesVal t hash v ↔ ¬ SeenTwice t hash v ∧ ¬ Unseen t hash v :=
  removesVal_iff (runCalls_books (htBareCreate_books hc) hr) hchk

/-- Two values of one hash, and another hash in the same slot. -/
def pairCalls : List BareCall := [.op (.insert 5 10), .op (.insert 5 11), .op (.insert 69 12)]

/-- The table after `pairCalls`. -/
theorem htBareRemoveVal_one_pair : ∃ t, runCalls pairCalls defaultTable = some t ∧
    htBareFindAll t 5 = [10, 11] ∧ RemovesVal t 5 10 := by
  have h : (runCalls pairCalls defaultTable).map (fun t =>
      (htBareCheckInvariants t, htBareFindAll t 5, decide (Laps t 5))) =
      some (none, [10, 11], false) := by
    decide +kernel
  obtain ⟨t, hr, h⟩ := Option.map_eq_some_iff.mp h
  simp only [Prod.mk.injEq, decide_eq_false_iff_not] at h
  obtain ⟨hchk, hfind, hlap⟩ := h
  have hc : htBareCreate defaultCfg [] 0 = some defaultTable := by decide +kernel
  refine ⟨t, hr, hfind, (htBareRemoveVal_one_iff defaultCfg [] 0 pairCalls defaultTable t 5 10 hc hr
    hchk).mpr ⟨fun h2 => hlap h2.2.1, fun hun => hun.2 ?_⟩⟩
  rw [hfind]
  exact List.mem_cons_self

/-! ## A search that laps -/

/-- A table of capacity `n` whose first `k` slots are tombstones and whose other slots are empty. -/
def tombed (n k : ℕ) : HtBare :=
  { emptyTable defaultCfg n 255 [] 0 with
    main := List.replicate k Slot.tombSlot ++ List.replicate (n - k) Slot.emptySlot
    tombstoneCnt := k }

/-- The calls that leave a tombstone in every slot: an insertion and a removal for each. -/
def buryCalls (n k : ℕ) : List BareCall :=
  (List.range k).flatMap fun i => [.op (.insert (n + i) 0), .op (.removeVal (n + i) 0)]

/-- The capacity of a table that begins with tombstones. -/
lemma tombed_capacity {k : ℕ} (hk : k ≤ n) : (tombed n k).capacity = n := by
  unfold HtBare.capacity tombed
  rw [List.length_append, List.length_replicate, List.length_replicate]
  omega

/-- The slots of a table that begins with tombstones. -/
lemma tombed_slot (n k i : ℕ) :
    (tombed n k).slot i = if i < k then Slot.tombSlot else Slot.emptySlot := by
  unfold HtBare.slot tombed
  simp only
  rw [List.getD_eq_getElem?_getD]
  split
  · rename_i hi
    rw [List.getElem?_append_left (by rw [List.length_replicate]; exact hi),
      List.getElem?_replicate_of_lt hi]
    rfl
  · rename_i hi
    rw [List.getElem?_append_right (by rw [List.length_replicate]; omega), List.getElem?_replicate]
    split <;> rfl

/-- No slot of a table that begins with tombstones is live. -/
lemma tombed_dead (n k i : ℕ) : ¬ ((tombed n k).slot i).Live := by
  rw [tombed_slot]
  split
  · exact Slot.tombSlot_tomb.not_live
  · exact Slot.emptySlot_empty.not_live

/-- Without live slots nothing blocks. -/
lemma blockedFrom_dead (hd : ∀ i, ¬ (t.slot i).Live) (idx dist m k : ℕ) :
    blockedFrom t idx dist m k = false := by
  induction m generalizing k with
  | zero => rfl
  | succ m ih =>
    rw [blockedFrom]
    rcases Slot.trichotomy (t.slot ((idx + k) % t.capacity)) with he | ht | hl
    · rw [if_pos he]
    · rw [if_neg ht.not_empty, if_pos ht]
      exact ih _
    · exact absurd hl (hd _)

/-- Without live slots a chain has none. -/
lemma chainScan_dead (hd : ∀ i, ¬ (t.slot i).Live) (m scan chain live : ℕ) :
    (chainScan t m scan chain live).2.1 = live := by
  induction m generalizing scan chain with
  | zero => rfl
  | succ m ih =>
    rw [chainScan]
    rcases Slot.trichotomy (t.slot scan) with he | ht | hl
    · rw [if_pos he]
    · rw [if_neg ht.not_empty, if_pos ht]
      exact ih _ _
    · exact absurd hl (hd _)

/-- An insertion into a table without entries. -/
lemma htBareInsert_tombed {k hash : ℕ} (hn : 4 ≤ n) (hk : k ≤ n) (hh : ¬ h48 hash < 2)
    (hv : v ≠ valNone) : htBareInsert (tombed n k) hash v = some (true,
      { (tombed n k).setSlot (h48 hash % n) ⟨h48 hash, 0, v⟩ with
        size := 1, tombstoneCnt := if h48 hash % n < k then sizeDec k else k }) := by
  have hcap := tombed_capacity hk
  have hload : ¬ overLoaded (tombed n k) := by
    rintro ⟨-, h⟩
    have hfactor : (tombed n k).maxLoadFactor = 3 / 4 := by
      show clampLoadFactor (3 / 4) = 3 / 4
      unfold clampLoadFactor
      rw [if_neg (by norm_num), if_neg (by norm_num)]
    have hmain : (tombed n k).mainLive = 0 := rfl
    have hq : (4 : ℚ) ≤ n := by exact_mod_cast hn
    rw [hfactor, hmain, hcap, gt_iff_lt, lt_div_iff₀ (by linarith)] at h
    push_cast at h
    linarith
  have hpack : hpdPack (h48 hash) 0 v = ⟨h48 hash, 0, v⟩ :=
    hpdPack_eq (Nat.mod_lt _ (Nat.two_pow_pos 48)) (Nat.two_pow_pos 16)
  have hstart : Carrier.start (tombed n k) (h48 hash) v = ⟨h48 hash, v, h48 hash % n, 0⟩ := by
    unfold Carrier.start
    rw [hcap]
  have hstep : rhStep true (tombed n k) ⟨h48 hash, v, h48 hash % n, 0⟩ = .ret true
      { (tombed n k).setSlot (h48 hash % n) ⟨h48 hash, 0, v⟩ with
        size := 1, tombstoneCnt := if h48 hash % n < k then sizeDec k else k } := by
    have hno : ∀ t' : HtBare, ¬ overLimit true t' ⟨h48 hash, v, h48 hash % n, 0⟩ :=
      fun t' h => absurd h.2.2 (Nat.not_lt_zero _)
    have hblk : ¬ (((tombed n k).slot (h48 hash % n)).Tomb ∧
        blocked (tombed n k) (h48 hash % n) 0 = true) := by
      rintro ⟨-, h⟩
      rw [blocked, blockedFrom_dead (tombed_dead n k)] at h
      cases h
    unfold rhStep
    simp only
    rw [if_neg (tombed_dead n k _), if_neg hblk, if_neg (hno _), hpack, tombed_slot]
    split
    · rw [if_pos Slot.tombSlot_tomb]
      rfl
    · rw [if_neg (by decide)]
      rfl
  obtain ⟨f, hf⟩ : ∃ f, rhFuel (tombed n k) = f + 1 := by
    refine Nat.exists_eq_succ_of_ne_zero ?_
    unfold rhFuel
    positivity
  rw [htBareInsert_calm hv hh hload rfl, bareRhInsertBounded, hcap, if_neg (by omega), hf, hstart,
    rhLoop, hstep]

/-- A tombstone for one more slot. -/
lemma tombed_succ {k : ℕ} (hk : k < n) :
    (tombed n k).main.set k Slot.tombSlot = (tombed n (k + 1)).main := by
  apply List.ext_getElem
  · rw [List.length_set]
    exact (tombed_capacity hk.le).trans (tombed_capacity hk).symm
  · intro i h1 h2
    have hi : i < n := (tombed_capacity hk) ▸ h2
    have hget : ∀ k (h : i < (tombed n k).main.length),
        (tombed n k).main[i] = (tombed n k).slot i := fun k h => by
      unfold HtBare.slot
      rw [List.getD_eq_getElem?_getD, List.getElem?_eq_getElem h]
      rfl
    rw [hget (k + 1) h2, tombed_slot, List.getElem_set]
    split
    · rw [if_pos (by omega)]
    · rw [hget k (by rw [List.length_set] at h1; exact h1), tombed_slot]
      split
      · rw [if_pos (by omega)]
      · rw [if_neg (by omega)]

/-- An insertion and a removal leave a tombstone. -/
lemma bury_step {k : ℕ} (hn : 4 ≤ n) (hn' : n ≤ 2 ^ 47) (hk : k < n) :
    runCalls [.op (.insert (n + k) 0), .op (.removeVal (n + k) 0)] (tombed n k) =
      some (tombed n (k + 1)) := by
  have hh48 : h48 (n + k) = n + k := Nat.mod_eq_of_lt (by omega)
  have hidx : (n + k) % n = k := by
    rw [Nat.add_mod_left, Nat.mod_eq_of_lt hk]
  have hbig : ¬ h48 (n + k) < 2 := by omega
  have hins := htBareInsert_tombed hn hk.le hbig (show (0 : ℕ) ≠ valNone by decide)
  rw [hh48, hidx, if_neg (lt_irrefl k)] at hins
  -- the table with the one entry
  let t₁ : HtBare := { (tombed n k).setSlot k ⟨n + k, 0, 0⟩ with size := 1, tombstoneCnt := k }
  have hcap₁ : t₁.capacity = n := (HtBare.capacity_setSlot _ _ _).trans (tombed_capacity hk.le)
  have hslot₁ : t₁.slot k = ⟨n + k, 0, 0⟩ := by
    show ((tombed n k).setSlot k _).slot k = _
    rw [HtBare.slot_setSlot _ (by rw [tombed_capacity hk.le]; exact hk), if_pos rfl]
  have hlive₁ : (t₁.slot k).Live := by
    rw [hslot₁]
    show 2 ≤ n + k
    omega
  have hmain : (t₁.setSlot k Slot.tombSlot).main = (tombed n (k + 1)).main := by
    rw [← tombed_succ hk]
    show ((tombed n k).main.set k _).set k Slot.tombSlot = _
    rw [List.set_set]
  have hdel : deleteAt t₁ k = tombed n (k + 1) := by
    have htab : ({ t₁.setSlot k Slot.tombSlot with
        size := sizeDec t₁.size, tombstoneCnt := t₁.tombstoneCnt + 1 } : HtBare) =
        tombed n (k + 1) := by
      show ({ t₁ with main := (t₁.setSlot k Slot.tombSlot).main,
                      size := 0, tombstoneCnt := k + 1 } : HtBare) = _
      rw [hmain]
      rfl
    unfold deleteAt
    rw [htab]
    unfold bareDeleteCompact
    have hscan := chainScan_dead (tombed_dead n (k + 1)) bshiftCap
      ((k + 1) % (tombed n (k + 1)).capacity) 0 0
    rcases hr : chainScan (tombed n (k + 1)) bshiftCap ((k + 1) % (tombed n (k + 1)).capacity) 0 0
      with ⟨len, l, e⟩
    rw [hr] at hscan
    simp only at hscan ⊢
    rw [if_neg fun hc => absurd hscan hc.2.1.ne']
  have hrem : htBareRemoveVal t₁ (n + k) 0 = (true, tombed n (k + 1)) := by
    have hfrom : removeValFrom t₁ (n + k) 0 (n + 1) k 0 = some (tombed n (k + 1)) := by
      rw [removeValFrom, if_neg hlive₁.not_empty, if_neg hlive₁.not_tomb,
        if_neg (Nat.not_lt_zero _), if_pos (by rw [hslot₁]; exact ⟨rfl, rfl⟩), hdel]
    unfold htBareRemoveVal
    rw [if_neg hbig, hh48, hcap₁, hidx, hfrom]
  rw [runCalls, BareCall.run, BareOp.run, hins]
  simp only [Option.map_some]
  have hcall : BareCall.run (.op (.removeVal (n + k) 0)) t₁ = some (tombed n (k + 1)) :=
    congrArg (fun x : Bool × HtBare => some x.2) hrem
  rw [runCalls, show BareCall.run (.op (.removeVal (n + k) 0)) _ = _ from hcall]
  rfl

/-- One run of calls after another. -/
lemma runCalls_append (calls calls' : List BareCall) (t : HtBare) :
    runCalls (calls ++ calls') t = (runCalls calls t).bind (runCalls calls') := by
  induction calls generalizing t with
  | nil => rfl
  | cons call calls ih =>
    rw [List.cons_append, runCalls, runCalls]
    cases call.run t with
    | none => rfl
    | some t₁ => exact ih t₁

/-- Tombstones in the first `k` slots. -/
lemma runCalls_bury {k : ℕ} (hn : 4 ≤ n) (hn' : n ≤ 2 ^ 47) (hk : k ≤ n) :
    runCalls (buryCalls n k) (tombed n 0) = some (tombed n k) := by
  induction k with
  | zero => rfl
  | succ k ih =>
    unfold buryCalls at ih ⊢
    rw [List.range_succ, List.flatMap_append, runCalls_append, ih (by omega), Option.bind_some]
    exact bury_step hn hn' (by omega)

/-- The table without an empty slot, with one entry at slot 0. -/
def lapTable (n : ℕ) : HtBare :=
  { (tombed n n).setSlot 0 ⟨n, 0, 7⟩ with size := 1, tombstoneCnt := sizeDec n }

/-- The slots of a table that one lap fills with tombstones. -/
lemma lapTable_slot (hn : 0 < n) (i : ℕ) (hi : i < n) :
    (lapTable n).slot i = if i = 0 then ⟨n, 0, 7⟩ else Slot.tombSlot := by
  show ((tombed n n).setSlot 0 _).slot i = _
  rw [HtBare.slot_setSlot _ (by rw [tombed_capacity le_rfl]; exact hn), tombed_slot, if_pos hi]

/-- The calls that lead to `lapTable`. -/
lemma runCalls_lapTable (hn : 4 ≤ n) (hn' : n ≤ 2 ^ 47) :
    runCalls (buryCalls n n ++ [.op (.insert n 7)]) (tombed n 0) = some (lapTable n) := by
  have hh48 : h48 n = n := Nat.mod_eq_of_lt (by omega)
  have hins := htBareInsert_tombed (v := 7) hn le_rfl (show ¬ h48 n < 2 by omega) (by decide)
  rw [hh48, Nat.mod_self, if_pos (by omega)] at hins
  rw [runCalls_append, runCalls_bury hn hn' le_rfl, Option.bind_some, runCalls, BareCall.run,
    BareOp.run, hins]
  rfl

/-- The table passes the check. -/
lemma lapTable_checked (hn : 4 ≤ n) (hn' : n ≤ 2 ^ 47) (hB : Books (lapTable n)) :
    htBareCheckInvariants (lapTable n) = none := by
  have hcap : (lapTable n).capacity = n :=
    (HtBare.capacity_setSlot _ _ _).trans (tombed_capacity le_rfl)
  rw [htBareCheckInvariants_none hB, hcap]
  have hzero : ∀ i, i < n → ((lapTable n).slot i).Live → i = 0 := by
    intro i hi hl
    rw [lapTable_slot (by omega) i hi] at hl
    by_contra hne
    rw [if_neg hne] at hl
    exact Slot.tombSlot_tomb.not_live hl
  have hslot := lapTable_slot (n := n) (by omega) 0 (by omega)
  rw [if_pos rfl] at hslot
  have hseat : Seated n 0 ((lapTable n).slot 0) := by
    rw [hslot]
    exact ⟨by show (n + 0) % n = 0; rw [Nat.add_zero, Nat.mod_self], by show 0 < n; omega,
      Nat.two_pow_pos 16, by show n < 2 ^ 48; omega⟩
  constructor
  · intro i hi
    rw [checkSlot_none hB.toFormed (hcap.symm ▸ hi), hcap]
    intro hl
    rw [hzero i hi hl]
    exact hseat
  · intro i hi hl
    rw [hzero i hi hl]
    have hseat' : Seated (lapTable n).capacity 0 ((lapTable n).slot 0) := hcap.symm ▸ hseat
    rw [probeTo_none hseat' (Nat.zero_le _) (by rw [hslot]; show 0 < 0 + (n + 1); omega)]
    intro d _ hd
    rw [hslot] at hd
    exact absurd hd (Nat.not_lt_zero d)

/-- With `n` a multiple of 2^16 the search for the entry laps the table. -/
lemma lapTable_seenTwice (hn : 4 ≤ n) (hn' : n ≤ 2 ^ 47) (h16 : n % 2 ^ 16 = 0) :
    SeenTwice (lapTable n) n 7 := by
  have hcap : (lapTable n).capacity = n :=
    (HtBare.capacity_setSlot _ _ _).trans (tombed_capacity le_rfl)
  have hh48 : h48 n = n := Nat.mod_eq_of_lt (by omega)
  unfold SeenTwice Laps
  rw [hh48, hcap, Nat.mod_self, lapTable_slot (by omega) 0 (by omega), if_pos rfl]
  refine ⟨by omega, ⟨h16, fun j hj => ?_⟩, show 2 ≤ n by omega, rfl, rfl⟩
  have hat : (lapTable n).at n n j = if j = 0 then ⟨n, 0, 7⟩ else Slot.tombSlot := by
    unfold HtBare.at
    rw [Nat.add_mod_left, Nat.mod_eq_of_lt hj]
    exact lapTable_slot (by omega) j hj
  unfold goesOn searchStops
  rw [hcap, hat]
  split
  · rename_i h0
    have hl : (⟨n, 0, 7⟩ : Slot).Live := show 2 ≤ n by omega
    refine ⟨hl.not_empty, fun _ => ?_⟩
    rw [h0]
    rintro (h | h)
    · exact absurd h (lt_irrefl 0)
    · exact absurd h.2.2 (Nat.not_lt_zero _)
  · exact ⟨Slot.tombSlot_tomb.not_empty, fun hl => absurd hl Slot.tombSlot_tomb.not_live⟩

/-- With a tombstone in each of 65536 slots, the entry of the hash 65536 is reported twice, and one
removal takes both reports away. -/
theorem htBareRemoveVal_one_fails : ∃ cfg t₀ t, htBareCreate cfg [] 0 = some t₀ ∧
    runCalls (buryCalls (2 ^ 16) (2 ^ 16) ++ [.op (.insert (2 ^ 16) 7)]) t₀ = some t ∧
    htBareCheckInvariants t = none ∧ ¬ RemovesVal t (2 ^ 16) 7 := by
  have hc : htBareCreate { defaultCfg with initialCapacity := 2 ^ 16 } [] 0 =
      some (tombed (2 ^ 16) 0) := by
    have hcap : nextPow2 (max (2 ^ 16) 4) = 2 ^ 16 := by decide
    show (if nextPow2 (max (2 ^ 16) 4) > sizeMax / 12 then none else
      some (emptyTable { defaultCfg with initialCapacity := 2 ^ 16 } (nextPow2 (max (2 ^ 16) 4))
        255 [] 0)) = _
    rw [hcap, if_neg (by decide)]
    rfl
  have hr := runCalls_lapTable (n := 2 ^ 16) (by decide) (by decide)
  have hB : Books (lapTable (2 ^ 16)) := runCalls_books (htBareCreate_books hc) hr
  have hchk := lapTable_checked (n := 2 ^ 16) (by decide) (by decide) hB
  refine ⟨_, _, _, hc, hr, hchk, fun hrem => ?_⟩
  exact ((removesVal_iff hB hchk).mp hrem).1
    (lapTable_seenTwice (by decide) (by decide) (by decide))

end Draugr
