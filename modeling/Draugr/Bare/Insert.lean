import Draugr.Bare.Sound

/-!
# Robin-Hood insertion keeps the index sound

`bare_rh_insert_bounded`/`bare_rh_insert_unbounded` carry one entry along the probe sequence.
`Carrying n b t c` is the loop invariant: the table is sound and the carried entry would be reached
where it stands. `HeadSafe` is the test under which one iteration keeps it: the carrier has not
walked the whole ring, its 16-bit distance does not wrap, and a tombstone that is about to be reused
is not passed by an entry beyond the 16-slot look-ahead. `rhStep_inserts` is the step lemma and
`rhLoop_inserts` the run lemma: every loop head being safe, the loop ends, returns true and adds
exactly the inserted entry.

The loop ends because `rank` falls: a displacement raises the sum of the stored distances, any other
iteration the distance of the carrier, and both are below the capacity.
-/

namespace Draugr
open Lib

/-- The test at one loop head of an insertion. -/
def HeadSafe (t : HtBare) (c : Carrier) : Prop :=
  c.dist < t.capacity ∧
  ((t.slot c.idx).Live → c.dist ≤ (t.slot c.idx).pd → c.dist + 1 < 2 ^ 16) ∧
  ((t.slot c.idx).Tomb → blocked t c.idx c.dist = false →
    blockedFrom t c.idx c.dist t.capacity 1 = false)

instance (t : HtBare) (c : Carrier) : Decidable (HeadSafe t c) :=
  inferInstanceAs (Decidable (_ ∧ _ ∧ _))

/-- `HeadSafe` as a test. -/
def headSafe (t : HtBare) (c : Carrier) : Bool := decide (HeadSafe t c)

/-- The loop invariant of an insertion. -/
structure Carrying (n : ℕ) (b : Bool) (t : HtBare) (c : Carrier) : Prop where
  sound : Sound n t
  idx : c.idx < n
  hash2 : 2 ≤ c.hash
  hash48 : c.hash < 2 ^ 48
  val : c.val ≠ valNone
  ideal : (c.hash + c.dist) % n = c.idx
  dist16 : c.dist < 2 ^ 16
  arrives : Arrives (t.layout n) (c.idx : ZMod n) c.dist
  limit : t.overflowViolated = false → 0 < t.maxProbeDist → c.dist ≤ t.maxProbeDist
  mode : b = false → t.overflowViolated = true

/-- `t'` is `t` with the entry `(h, v)` added. -/
structure Inserted (n : ℕ) (t : HtBare) (h v : ℕ) (t' : HtBare) : Prop where
  sound : Sound n t'
  contents : t'.contents = (h, v) ::ₘ t.contents
  size : t'.size = t.size + 1
  frame : Frame t t'

/-- The sum of the stored probe distances. -/
def pdSum (t : HtBare) : ℕ := (t.main.map fun s => if s.Live then s.pd else 0).sum

/-- What falls with every iteration. -/
def rank (n : ℕ) (t : HtBare) (c : Carrier) : ℕ := n * (n * n - pdSum t) + (n - c.dist)

variable {n : ℕ} {b : Bool} {t t' : HtBare} {c c' : Carrier}

/-! ## The look-ahead -/

/-- A look-ahead that is blocked has seen an entry that travels past at a greater distance, and no
empty slot before it. -/
lemma blockedFrom_true {idx dist m k : ℕ} (h : blockedFrom t idx dist m k = true) :
    ∃ j, k ≤ j ∧ j < k + m ∧ (t.slot ((idx + j) % t.capacity)).Live ∧
      dist + j < (t.slot ((idx + j) % t.capacity)).pd ∧
      ∀ l, k ≤ l → l < j → ¬ (t.slot ((idx + l) % t.capacity)).Empty := by
  induction m generalizing k with
  | zero => cases h
  | succ m ih =>
    rw [blockedFrom] at h
    split at h
    · cases h
    rename_i hne
    have extend : blockedFrom t idx dist m (k + 1) = true → ∃ j, k ≤ j ∧ j < k + (m + 1) ∧
        (t.slot ((idx + j) % t.capacity)).Live ∧
        dist + j < (t.slot ((idx + j) % t.capacity)).pd ∧
        ∀ l, k ≤ l → l < j → ¬ (t.slot ((idx + l) % t.capacity)).Empty := by
      intro h
      obtain ⟨j, h1, h2, h3, h4, h5⟩ := ih h
      refine ⟨j, by omega, by omega, h3, h4, fun l hl1 hl2 => ?_⟩
      rcases Nat.eq_or_lt_of_le hl1 with rfl | hlt
      · exact hne
      · exact h5 l hlt hl2
    split at h
    · exact extend h
    · rename_i hnt
      split at h
      · rename_i hpd
        have hlive : (t.slot ((idx + k) % t.capacity)).Live :=
          ((Slot.trichotomy _).resolve_left hne).resolve_left hnt
        exact ⟨k, le_refl _, by omega, hlive, hpd, fun l h1 h2 => by omega⟩
      · exact extend h

/-- A look-ahead that is not blocked has seen every entry within its range that travels past, at no
greater distance. -/
lemma blockedFrom_false {idx dist m k : ℕ} (hS : Sound n t)
    (h : blockedFrom t idx dist m k = false) (j e : ℕ) (hkj : k ≤ j) (hjm : j < k + m)
    (hlive : t.layout n ((idx + j : ℕ) : ZMod n) = .live e) (hje : j ≤ e) : e ≤ dist + j := by
  induction m generalizing k with
  | zero => omega
  | succ m ih =>
    rw [blockedFrom] at h
    have hk : t.layout n ((idx + k : ℕ) : ZMod n) = (t.slot ((idx + k) % t.capacity)).cell := by
      rw [HtBare.layout_natCast, hS.cap]
    split at h
    · -- an empty slot: nobody beyond it travels past `idx`
      rename_i hempty
      rw [Slot.cell_empty hempty] at hk
      rcases Nat.eq_or_lt_of_le hkj with rfl | hlt
      · rw [hk] at hlive
        cases hlive
      · have h2 := hS.reach _ e hlive (j - k) (by omega) (by omega)
        have e1 : ((idx + j : ℕ) : ZMod n) - ((j - k : ℕ) : ZMod n) = ((idx + k : ℕ) : ZMod n) := by
          have : idx + j = (idx + k) + (j - k) := by omega
          rw [this]
          push_cast
          ring
        rw [e1, hk] at h2
        exact h2.elim
    · rename_i hne
      rcases Nat.eq_or_lt_of_le hkj with rfl | hlt
      · have hlv := Slot.live_of_cell (hk ▸ hlive)
        rw [if_neg hlv.1.not_tomb] at h
        split at h
        · cases h
        · rename_i hpd
          rw [hlv.2] at hpd
          omega
      · have h' : blockedFrom t idx dist m (k + 1) = false := by
          split at h
          · exact h
          · split at h
            · cases h
            · exact h
        exact ih h' hlt (by omega)

/-- A tombstone that the full look-ahead does not block admits the carrier. -/
lemma Admits.of_not_blocked {idx dist : ℕ} (hS : Sound n t)
    (h : blockedFrom t idx dist n 1 = false) : Admits (t.layout n) (idx : ZMod n) dist := by
  intro k e h1 hlive hke
  have hlive' : t.layout n ((idx + k : ℕ) : ZMod n) = .live e := by
    push_cast
    exact hlive
  have hlv := hlive'
  rw [HtBare.layout_natCast] at hlv
  obtain ⟨hl, hpd⟩ := Slot.live_of_cell hlv
  have hlt : e < n := by
    rw [← hpd]
    exact (hS.slots _ (Nat.mod_lt _ hS.pos) hl).pd_lt
  have := blockedFrom_false hS h k e h1 (by omega) hlive' hke
  omega

/-! ## Single steps of the carrier -/

/-- The carrier goes one slot further. -/
lemma Carrying.advance [NeZero n] (hC : Carrying n b t c) (hp : (t.layout n c.idx).Passes c.dist)
    (h16 : c.dist + 1 < 2 ^ 16)
    (hl : t.overflowViolated = false → 0 < t.maxProbeDist → c.dist + 1 ≤ t.maxProbeDist) :
    Carrying n b t (c.advance t) := by
  have hd : (c.advance t).dist = c.dist + 1 := Nat.mod_eq_of_lt h16
  have hi : (c.advance t).idx = (c.idx + 1) % n := by
    unfold Carrier.advance
    rw [hC.sound.cap]
  constructor
  · exact hC.sound
  · rw [hi]
    exact Nat.mod_lt _ (NeZero.pos n)
  · exact hC.hash2
  · exact hC.hash48
  · exact hC.val
  · rw [hd, hi, ← hC.ideal, Nat.mod_add_mod]
    rfl
  · rw [hd]
    exact h16
  · rw [hd, hi, natCast_succ_mod]
    exact hC.arrives.succ hp
  · intro h1 h2
    rw [hd]
    exact hl h1 h2
  · exact hC.mode

/-- The carried entry as a slot. -/
lemma Carrying.pack (hC : Carrying n b t c) :
    hpdPack c.hash c.dist c.val = ⟨c.hash, c.dist, c.val⟩ := hpdPack_eq hC.hash48 hC.dist16

/-- Writing the carried entry into an admitting slot keeps the table sound. -/
lemma Carrying.write [NeZero n] (hC : Carrying n b t c) (hd : c.dist < n)
    (hA : Admits (t.layout n) (c.idx : ZMod n) c.dist) :
    Sound n (t.setSlot c.idx (hpdPack c.hash c.dist c.val)) := by
  rw [hC.pack]
  have hlive : (⟨c.hash, c.dist, c.val⟩ : Slot).Live := hC.hash2
  refine hC.sound.write hC.idx ?_ ?_ ?_ ?_
  · rw [Slot.cell_live hlive]
    exact hC.sound.reach.place hC.arrives hA hd
  · exact fun _ => ⟨hC.ideal, hd, hC.dist16, hC.hash48⟩
  · exact fun _ => hC.limit
  · exact fun _ => hC.val

/-- The carried entry takes the slot of an entry at a smaller distance, which is carried on. -/
lemma Carrying.displace [NeZero n] (hC : Carrying n b t c) (hd : c.dist < n)
    (hlive : (t.slot c.idx).Live) (hpd : (t.slot c.idx).pd < c.dist)
    (hl : t.overflowViolated = false → 0 < t.maxProbeDist →
      (t.slot c.idx).pd + 1 ≤ t.maxProbeDist) :
    Carrying n b (t.setSlot c.idx (hpdPack c.hash c.dist c.val))
      ⟨(t.slot c.idx).hash, (t.slot c.idx).val, (c.idx + 1) % n, (t.slot c.idx).pd + 1⟩ := by
  have hcell : t.layout n (c.idx : ZMod n) = .live (t.slot c.idx).pd := by
    rw [HtBare.layout_slot t hC.idx, Slot.cell_live hlive]
  have hseat := hC.sound.slots _ hC.idx hlive
  have hS := hC.write hd (Admits.of_live hC.sound.reach hcell hpd.le)
  have hold := hC.sound.reach _ _ hcell
  constructor
  · exact hS
  · exact Nat.mod_lt _ (NeZero.pos n)
  · exact hlive
  · exact hseat.hash48
  · -- the displaced entry was stored, so its value is a real one
    apply hC.sound.vals ((t.slot c.idx).hash, (t.slot c.idx).val)
    rw [← HtBare.contents_drop (t := t) (s := Slot.tombSlot) (by rw [hC.sound.cap]; exact hC.idx)
      hlive Slot.tombSlot_tomb.not_live]
    exact Multiset.mem_cons_self _ _
  · calc ((t.slot c.idx).hash + ((t.slot c.idx).pd + 1)) % n
        = (((t.slot c.idx).hash + (t.slot c.idx).pd) % n + 1) % n := by rw [Nat.mod_add_mod]; rfl
      _ = (c.idx + 1) % n := by rw [hseat.ideal]
  · have := hC.dist16
    simp only
    omega
  · simp only
    rw [natCast_succ_mod, HtBare.layout_setSlot hC.sound.cap hC.idx, hC.pack,
      Slot.cell_live (s := ⟨c.hash, c.dist, c.val⟩) hC.hash2]
    apply Arrives.succ
    · refine hold.congr fun k h1 h2 hk => ?_
      rw [Function.update_of_ne (sub_natCast_ne _ h1 (by omega))]
      exact hk
    · rw [Function.update_self]
      exact hpd.le
  · exact hl
  · exact hC.mode

/-! ## One iteration -/

/-- What one iteration from a safe loop head does. -/
def StepInserts (n : ℕ) (b : Bool) (t : HtBare) (c : Carrier) : RhStep → Prop
  | .ret ok t' => ok = true ∧ Inserted n t c.hash c.val t'
  | .go t' c' => Carrying n b t' c' ∧
      (c'.hash, c'.val) ::ₘ t'.contents = (c.hash, c.val) ::ₘ t.contents ∧ t'.size = t.size ∧
      Frame t t' ∧ rank n t' c' < rank n t c
  | .unbounded t' c' => b = true ∧ Sound n t' ∧ t'.overflowViolated = true ∧
      (2 ≤ c'.hash ∧ c'.hash < 2 ^ 48 ∧ c'.val ≠ valNone) ∧
      (c'.hash, c'.val) ::ₘ t'.contents = (c.hash, c.val) ::ₘ t.contents ∧ t'.size = t.size ∧
      Frame t t'
  | .resize _ _ => False

/-- Appending to the overflow stash adds an entry to the contents. -/
lemma contents_overflow_append (t : HtBare) (e : ℕ × ℕ) (k : ℕ) :
    ({ t with overflow := t.overflow ++ [e], size := k } : HtBare).contents = e ::ₘ t.contents := by
  unfold HtBare.contents
  simp only [← Multiset.coe_add, Multiset.coe_singleton, ← Multiset.singleton_add]
  abel

/-- The carried entry goes to the overflow stash, or the limit is given up. -/
lemma stashCarrier_inserts {c₀ : Carrier} {t₀ : HtBare} (hb : b = true) (hS : Sound n t)
    (hF : Frame t₀ t) (hz : t.size = t₀.size) (hc : 2 ≤ c.hash ∧ c.hash < 2 ^ 48 ∧ c.val ≠ valNone)
    (hcon : (c.hash, c.val) ::ₘ t.contents = (c₀.hash, c₀.val) ::ₘ t₀.contents) :
    StepInserts n b t₀ c₀ (stashCarrier t c) := by
  unfold stashCarrier overflowStashInsert
  split
  · -- room in the stash
    rename_i t' h
    split at h
    · cases h
    · cases h
      have h48 : h48 c.hash = c.hash := Nat.mod_eq_of_lt hc.2.1
      rw [h48]
      have hcon' := contents_overflow_append t (c.hash, c.val) (t.size + 1)
      refine ⟨rfl, ⟨⟨hS.pos, hS.cap, hS.reach, hS.slots, hS.limit, hS.spill, ?_, ?_⟩,
        ?_, ?_, ?_⟩⟩
      · intro e he
        rcases List.mem_append.mp he with h | h
        · exact hS.overflow e h
        · rw [List.mem_singleton] at h
          rw [h]
          exact ⟨hc.1, hc.2.1⟩
      · intro e he
        rw [hcon', Multiset.mem_cons] at he
        rcases he with rfl | h
        · exact hc.2.2
        · exact hS.vals e h
      · rw [hcon', hcon]
      · exact congrArg (· + 1) hz
      · exact hF.trans ⟨rfl, rfl, rfl, rfl, rfl, rfl, rfl⟩
  · -- the stash is full
    refine ⟨hb, ⟨hS.pos, hS.cap, hS.reach, hS.slots, ?_, hS.spill, hS.overflow, hS.vals⟩, rfl, hc,
      hcon, hz, hF.trans ⟨rfl, rfl, rfl, rfl, rfl, rfl, rfl⟩⟩
    intro h
    cases h

/-- A write changes the sum of the distances by the difference. -/
lemma pdSum_setSlot {i : ℕ} {s : Slot} (hi : i < t.capacity) :
    pdSum (t.setSlot i s) + (if (t.slot i).Live then (t.slot i).pd else 0) =
      pdSum t + (if s.Live then s.pd else 0) :=
  sum_map_set_add (fun s => if s.Live then s.pd else 0) t.main i s Slot.emptySlot hi

/-- The stored distances are below the capacity, so their sum is below its square. -/
lemma Sound.pdSum_le (hS : Sound n t) : pdSum t ≤ n * n := by
  have h : ∀ x ∈ t.main.map (fun s => if s.Live then s.pd else 0), x ≤ n := by
    intro x hx
    obtain ⟨s, hs, rfl⟩ := List.mem_map.mp hx
    split
    · rename_i hl
      obtain ⟨i, hi, rfl⟩ := List.getElem_of_mem hs
      have he : t.slot i = t.main[i] := by
        unfold HtBare.slot
        rw [List.getD_eq_getElem?_getD, List.getElem?_eq_getElem hi]
        rfl
      have hlt : i < n := hS.cap ▸ hi
      exact (he ▸ (hS.slots i hlt (he ▸ hl)).pd_lt).le
    · exact Nat.zero_le n
  have hlen : (t.main.map (fun s => if s.Live then s.pd else 0)).length = n := by
    rw [List.length_map]
    exact hS.cap
  have := List.sum_le_card_nsmul _ n h
  rw [hlen, smul_eq_mul] at this
  exact this

/-- A displacement lowers the rank. -/
lemma rank_displace {A B d e n : ℕ} (hd : d < n) (he : e < d) (hB : B + e = A + d)
    (hBn : B ≤ n * n) : n * (n * n - B) + (n - (e + 1)) < n * (n * n - A) + (n - d) := by
  obtain ⟨δ, rfl⟩ : ∃ δ, d = e + 1 + δ := ⟨d - e - 1, by omega⟩
  have h1 : n * n - A = (n * n - B) + (1 + δ) := by omega
  rw [h1, Nat.mul_add, Nat.mul_add]
  have h2 : δ ≤ n * δ := Nat.le_mul_of_pos_left δ (by omega)
  omega

/-- The probe limit after an iteration that did not exceed it. -/
lemma Carrying.within (hC : Carrying n b t c) (c' : Carrier) (hno : ¬ overLimit b t c')
    (hv : t.overflowViolated = false) (hm : 0 < t.maxProbeDist) : c'.dist ≤ t.maxProbeDist := by
  cases b with
  | false =>
    rw [hC.mode rfl] at hv
    cases hv
  | true => exact not_lt.mp fun h => hno ⟨rfl, hm, h⟩

/-- A displacement. -/
lemma Carrying.displace_inserts [NeZero n] (hC : Carrying n b t c) (hd : c.dist < n)
    (hlive : (t.slot c.idx).Live) (hpd : (t.slot c.idx).pd < c.dist) {t₁ : HtBare}
    (ht : t₁ = t.setSlot c.idx (hpdPack c.hash c.dist c.val)) {c₁ : Carrier} (hc : c₁ = { c with
      hash := (t.slot c.idx).hash, val := (t.slot c.idx).val,
        dist := ((t.slot c.idx).pd + 1) % 2 ^ 16 }) :
    StepInserts n b t c (if overLimit b t₁ c₁ then stashCarrier t₁ c₁
      else .go t₁ { c₁ with idx := (c₁.idx + 1) % t₁.capacity }) := by
  have hi : c.idx < t.capacity := by
    rw [hC.sound.cap]
    exact hC.idx
  have hnew : (hpdPack c.hash c.dist c.val).Live := hpdPack_live hC.hash2 hC.hash48
  have hcell := HtBare.layout_slot t hC.idx
  rw [Slot.cell_live hlive] at hcell
  have hseat := hC.sound.slots _ hC.idx hlive
  have hpd16 : ((t.slot c.idx).pd + 1) % 2 ^ 16 = (t.slot c.idx).pd + 1 :=
    Nat.mod_eq_of_lt (by have := hC.dist16; omega)
  rw [hpd16] at hc
  subst ht hc
  rw [HtBare.capacity_setSlot, hC.sound.cap]
  have hS := hC.write hd (Admits.of_live hC.sound.reach hcell hpd.le)
  have hcon := HtBare.contents_overwrite (t := t) hi hlive hnew
  rw [hC.pack] at hcon
  have hval : (t.slot c.idx).val ≠ valNone := by
    have := (hC.displace hd hlive hpd fun _ _ => ?_).val
    · exact this
    · have h1 := hC.limit ‹_› ‹_›
      omega
  split
  · rename_i hover
    rw [← hC.pack] at hcon
    refine stashCarrier_inserts hover.1 hS (Frame.setSlot _ _ _) rfl ⟨hlive, hseat.hash48, hval⟩ ?_
    rw [hC.pack] at hcon ⊢
    exact hcon
  · rename_i hover
    refine ⟨hC.displace hd hlive hpd fun hv hm => hC.within ⟨_, _, c.idx, _⟩ hover hv hm, ?_,
      rfl, Frame.setSlot _ _ _, ?_⟩
    · rw [hC.pack]
      exact hcon
    · have hsum := pdSum_setSlot (t := t) (s := hpdPack c.hash c.dist c.val) hi
      rw [if_pos hlive, if_pos hnew, hC.pack] at hsum
      have hle := hS.pdSum_le
      rw [hC.pack] at hle ⊢
      exact rank_displace hd hpd hsum hle

/-- The carrier passes a live slot. -/
lemma Carrying.pass_inserts [NeZero n] (hC : Carrying n b t c) (hd : c.dist < n)
    (hlive : (t.slot c.idx).Live) (hpd : c.dist ≤ (t.slot c.idx).pd) (h16 : c.dist + 1 < 2 ^ 16) :
    StepInserts n b t c (if overLimit b t (c.advance t) then stashCarrier t (c.advance t)
      else if (c.advance t).dist > t.capacity then .resize t (c.advance t)
        else .go t (c.advance t)) := by
  have hcap := hC.sound.cap
  have hadv : (c.advance t).dist = c.dist + 1 := Nat.mod_eq_of_lt h16
  split
  · rename_i hover
    exact stashCarrier_inserts hover.1 hC.sound (Frame.refl t) rfl ⟨hC.hash2, hC.hash48, hC.val⟩ rfl
  · rename_i hover
    split
    · rename_i hgt
      omega
    · refine ⟨hC.advance ?_ h16 ?_, rfl, rfl, Frame.refl t, ?_⟩
      · rw [HtBare.layout_slot t hC.idx, Slot.cell_live hlive]
        exact hpd
      · intro hv hm
        rw [← hadv]
        exact hC.within _ hover hv hm
      · unfold rank
        rw [hadv]
        omega

/-- The carrier passes a blocked tombstone. -/
lemma Carrying.skip_inserts [NeZero n] (hC : Carrying n b t c) (hd : c.dist < n)
    (htomb : (t.slot c.idx).Tomb)
    (hblk : blocked t c.idx c.dist = true) : StepInserts n b t c (.go t (c.advance t)) := by
  obtain ⟨k, hk1, _, hkl, hkpd, _⟩ := blockedFrom_true hblk
  rw [hC.sound.cap] at hkl hkpd
  have hki := Nat.mod_lt (c.idx + k) (NeZero.pos n)
  have h16 : c.dist + 1 < 2 ^ 16 := by
    have := (hC.sound.slots _ hki hkl).pd16
    omega
  refine ⟨hC.advance ?_ h16 ?_, rfl, rfl, Frame.refl t, ?_⟩
  · rw [HtBare.layout_slot t hC.idx, Slot.cell_tomb htomb]
    trivial
  · intro hv hm
    have := hC.sound.limit hv hm _ hki hkl
    omega
  · have hadv : (c.advance t).dist = c.dist + 1 := Nat.mod_eq_of_lt h16
    unfold rank
    rw [hadv]
    omega

/-- A slot that the carrier does not pass admits the carried entry. -/
lemma Carrying.admits [NeZero n] (hC : Carrying n b t c) (hH : HeadSafe t c)
    (hdead : ¬ (t.slot c.idx).Live)
    (hblk : ¬ ((t.slot c.idx).Tomb ∧ blocked t c.idx c.dist = true)) :
    Admits (t.layout n) (c.idx : ZMod n) c.dist := by
  by_cases htomb : (t.slot c.idx).Tomb
  · have hnb : blocked t c.idx c.dist = false := by
      rw [← Bool.not_eq_true]
      exact fun h => hblk ⟨htomb, h⟩
    have hfull := hH.2.2 htomb hnb
    rw [hC.sound.cap] at hfull
    exact Admits.of_not_blocked hC.sound hfull
  · have hempty : (t.slot c.idx).Empty := by
      rcases Slot.trichotomy (t.slot c.idx) with h | h | h
      · exact h
      · exact absurd h htomb
      · exact absurd h hdead
    have hcell := HtBare.layout_slot t hC.idx
    rw [Slot.cell_empty hempty] at hcell
    exact Admits.of_empty hC.sound.reach hcell _

/-- The carried entry comes to rest. -/
lemma Carrying.rest_inserts [NeZero n] (hC : Carrying n b t c) (hd : c.dist < n)
    (hdead : ¬ (t.slot c.idx).Live) (hA : Admits (t.layout n) (c.idx : ZMod n) c.dist) {t₁ : HtBare}
    (ht₁ : (if (t.slot c.idx).Tomb then
      ({ t with tombstoneCnt := sizeDec t.tombstoneCnt } : HtBare) else t) = t₁) :
    StepInserts n b t c (if overLimit b t₁ c then stashCarrier t₁ c
      else .ret true
        { t₁.setSlot c.idx (hpdPack c.hash c.dist c.val) with size := t₁.size + 1 }) := by
  have hi : c.idx < t.capacity := by
    rw [hC.sound.cap]
    exact hC.idx
  have hm : t₁.main = t.main ∧ t₁.spill = t.spill ∧ t₁.overflow = t.overflow ∧
      t₁.overflowViolated = t.overflowViolated ∧ t₁.maxProbeDist = t.maxProbeDist ∧
      t₁.size = t.size ∧ Frame t t₁ := by
    rw [← ht₁]
    split <;> exact ⟨rfl, rfl, rfl, rfl, rfl, rfl, ⟨rfl, rfl, rfl, rfl, rfl, rfl, rfl⟩⟩
  obtain ⟨hmain, hsp, hov, hvi, hmp, hsz, hF⟩ := hm
  split
  · rename_i hover
    have hS₁ := hC.sound.congr hmain hsp hov hvi hmp
    refine stashCarrier_inserts hover.1 hS₁ hF hsz ⟨hC.hash2, hC.hash48, hC.val⟩ ?_
    unfold HtBare.contents
    rw [hmain, hsp, hov]
  · have hS := hC.write hd hA
    refine ⟨rfl, ?_, ?_, congrArg (· + 1) hsz, ?_⟩
    · refine hS.congr ?_ hsp hov hvi hmp
      simp only [HtBare.setSlot, hmain]
    · have hnew : (hpdPack c.hash c.dist c.val).Live := hpdPack_live hC.hash2 hC.hash48
      have hcon := HtBare.contents_write (t := t) hi hdead hnew
      rw [hC.pack] at hcon ⊢
      rw [← hcon]
      unfold HtBare.contents HtBare.setSlot
      simp only [hmain, hsp, hov]
    · exact hF.trans ⟨rfl, rfl, rfl, rfl, rfl, rfl, rfl⟩

/-- One iteration from a safe loop head. -/
lemma rhStep_inserts [NeZero n] (hC : Carrying n b t c) (hH : HeadSafe t c) :
    StepInserts n b t c (rhStep b t c) := by
  have hd : c.dist < n := hC.sound.cap ▸ hH.1
  unfold rhStep
  simp only
  split
  · rename_i hlive
    split
    · rename_i hpd
      exact hC.displace_inserts hd hlive hpd rfl rfl
    · rename_i hpd
      have hpd' : c.dist ≤ (t.slot c.idx).pd := not_lt.mp hpd
      exact hC.pass_inserts hd hlive hpd' (hH.2.1 hlive hpd')
  · rename_i hdead
    split
    · rename_i hblk
      exact hC.skip_inserts hd hblk.1 hblk.2
    · rename_i hblk
      exact hC.rest_inserts hd hdead (hC.admits hH hdead hblk) rfl

/-! ## The whole loop -/

/-- A fresh carrier. -/
lemma Carrying.start {h v : ℕ} (hS : Sound n t) (h2 : 2 ≤ h) (h48 : h < 2 ^ 48)
    (hv : v ≠ valNone) (hb : b = false → t.overflowViolated = true) :
    Carrying n b t (.start t h v) := by
  have hidx : (Carrier.start t h v).idx = h % n := by
    unfold Carrier.start
    rw [hS.cap]
  refine ⟨hS, ?_, h2, h48, hv, ?_, Nat.two_pow_pos 16, Arrives.zero _ _,
    fun _ _ => Nat.zero_le _, hb⟩
  · rw [hidx]
    exact Nat.mod_lt _ hS.pos
  · rw [hidx]
    rfl

/-- Every rank is at most that of an empty table. -/
lemma rank_le (n : ℕ) (t : HtBare) (c : Carrier) : rank n t c ≤ n * n * n + n := by
  unfold rank
  have h1 : n * (n * n - pdSum t) ≤ n * (n * n) := Nat.mul_le_mul_left n (Nat.sub_le _ _)
  have h2 : n * (n * n) = n * n * n := (Nat.mul_assoc n n n).symm
  omega

/-- From a carrier with safe loop heads ahead, the loop ends and adds the carried entry. -/
lemma rhLoop_inserts [NeZero n] {rz : HtBare → Option (Bool × HtBare)} {fuel : ℕ}
    (hC : Carrying n b t c) (hw : rhWalk headSafe rz fuel b t c = true)
    (hf : rank n t c + (if b then n * n * n + n + 1 else 0) < fuel) :
    ∃ t', rhLoop rz fuel b t c = some (true, t') ∧ Inserted n t c.hash c.val t' := by
  induction fuel generalizing b t c with
  | zero => omega
  | succ fuel ih =>
    rw [rhWalk, Bool.and_eq_true] at hw
    have hH : HeadSafe t c := of_decide_eq_true hw.1
    have hstep := rhStep_inserts hC hH
    have hrest := hw.2
    rw [rhLoop]
    cases hr : rhStep b t c with
    | ret ok t' =>
      rw [hr] at hstep
      obtain ⟨rfl, hI⟩ := hstep
      exact ⟨t', rfl, hI⟩
    | go t' c' =>
      rw [hr] at hstep hrest
      obtain ⟨hC', hcon, hsz, hF, hlt⟩ := hstep
      obtain ⟨t'', hrun, hI⟩ := ih hC' hrest (by omega)
      refine ⟨t'', hrun, hI.sound, ?_, ?_, hF.trans hI.frame⟩
      · rw [hI.contents, hcon]
      · rw [hI.size, hsz]
    | unbounded t' c' =>
      rw [hr] at hstep hrest
      obtain ⟨rfl, hS', hvio, ⟨h2, h48, hv⟩, hcon, hsz, hF⟩ := hstep
      have hle := rank_le n t' (.start t' c'.hash c'.val)
      rw [if_pos rfl] at hf
      obtain ⟨t'', hrun, hI⟩ :=
        ih (Carrying.start hS' h2 h48 hv fun _ => hvio) hrest (by simp; omega)
      refine ⟨t'', hrun, hI.sound, ?_, ?_, hF.trans hI.frame⟩
      · exact hI.contents.trans hcon
      · rw [hI.size, hsz]
    | resize t' c' =>
      rw [hr] at hstep
      exact hstep.elim

/-- `bare_rh_insert_bounded` adds exactly the inserted entry when all its loop heads are safe. -/
lemma bareRhInsertBounded_inserts {rz : HtBare → Option (Bool × HtBare)} {h v : ℕ}
    (hS : Sound n t) (h2 : 2 ≤ h) (h48 : h < 2 ^ 48) (hv : v ≠ valNone)
    (hw : insertWalk headSafe rz t h v = true) :
    ∃ t', bareRhInsertBounded rz t h v = some (true, t') ∧ Inserted n t h v t' := by
  have : NeZero n := ⟨hS.pos.ne'⟩
  unfold bareRhInsertBounded
  rw [if_neg (by rw [hS.cap]; exact hS.pos.ne')]
  refine rhLoop_inserts (Carrying.start hS h2 h48 hv (by simp)) hw ?_
  have hle := rank_le n t (.start t h v)
  have hfuel : rhFuel t = 2 * (n * n * n) + 6 * (n * n) + 6 * n + 2 + t.fuel := by
    unfold rhFuel
    rw [hS.cap]
    ring
  rw [hfuel, if_pos rfl]
  omega

/-- A list of insertions adds exactly the inserted entries. -/
lemma reinsert_inserts {rz : HtBare → Option (Bool × HtBare)} {es : List (ℕ × ℕ)}
    (hS : Sound n t) (hes : ∀ e ∈ es, 2 ≤ e.1 ∧ e.1 < 2 ^ 48 ∧ e.2 ≠ valNone)
    (hw : reinsertWalk headSafe rz t es = true) :
    ∃ t', reinsert rz t es = some t' ∧ Sound n t' ∧ Frame t t' ∧
      t'.contents = (es : Multiset (ℕ × ℕ)) + t.contents ∧ t'.size = t.size + es.length := by
  induction es generalizing t with
  | nil => exact ⟨t, rfl, hS, Frame.refl t, by simp, rfl⟩
  | cons e es ih =>
    obtain ⟨h, v⟩ := e
    rw [reinsertWalk, Bool.and_eq_true] at hw
    obtain ⟨h2, h48, hv⟩ := hes (h, v) List.mem_cons_self
    obtain ⟨t₁, hrun, hI⟩ := bareRhInsertBounded_inserts hS h2 h48 hv hw.1
    have hrest := hw.2
    rw [hrun] at hrest
    obtain ⟨t', hrun', hS', hF', hcon', hsz'⟩ :=
      ih hI.sound (fun e he => hes e (List.mem_cons_of_mem _ he)) hrest
    refine ⟨t', ?_, hS', hI.frame.trans hF', ?_, ?_⟩
    · rw [reinsert, hrun]
      exact hrun'
    · rw [hcon', hI.contents, ← Multiset.cons_coe, Multiset.cons_add, Multiset.add_cons]
    · rw [hsz', hI.size, List.length_cons]
      omega

end Draugr
