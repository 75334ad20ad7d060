import Draugr.Bare.Layout

/-!
# The invariant of the bare index

`Sound n t` holds of a table of capacity `n` all of whose entries a search finds: the layout of the
main array is reached (`Reach`), every live slot stores its cyclic displacement as its probe
distance (`Seated`), no distance exceeds the probe limit unless the overflow stash was overrun, and
the lanes hold the hashes they are meant for. Operations change a table one slot at a time;
`Sound.write` is the rule for one such write, and `Sound.congr` the one for fields the invariant
does not read.

The walk predicates at the end (`rhWalk`, `rebuildWalk`, `opWalk`, …) say that a given test holds at
every loop head of every insertion an operation makes, the insertions of a rebuild included.
-/

namespace Draugr
open Lib

/-- A live slot at `i` stores the displacement from its ideal slot. -/
structure Seated (n i : ℕ) (s : Slot) : Prop where
  ideal : (s.hash + s.pd) % n = i
  pd_lt : s.pd < n
  pd16 : s.pd < 2 ^ 16
  hash48 : s.hash < 2 ^ 48

/-- The invariant of a table of capacity `n`. -/
structure Sound (n : ℕ) (t : HtBare) : Prop where
  pos : 0 < n
  cap : t.capacity = n
  reach : Reach (t.layout n)
  slots : ∀ i, i < n → (t.slot i).Live → Seated n i (t.slot i)
  limit : t.overflowViolated = false → 0 < t.maxProbeDist →
    ∀ i, i < n → (t.slot i).Live → (t.slot i).pd ≤ t.maxProbeDist
  spill : ∀ e ∈ t.spill, e.1 < 2
  overflow : ∀ e ∈ t.overflow, 2 ≤ e.1 ∧ e.1 < 2 ^ 48
  vals : ∀ e ∈ t.contents, e.2 ≠ valNone

/-- The fields an insertion leaves alone. -/
structure Frame (t t' : HtBare) : Prop where
  spill : t'.spill = t.spill
  spillCap : t'.spillCap = t.spillCap
  resizing : t'.resizing = t.resizing
  maxLoadFactor : t'.maxLoadFactor = t.maxLoadFactor
  minLoadFactor : t'.minLoadFactor = t.minLoadFactor
  maxProbeDist : t'.maxProbeDist = t.maxProbeDist
  mem : t'.mem = t.mem

variable {n i : ℕ} {t t' t'' : HtBare} {s : Slot}

/-- A table frames itself. -/
lemma Frame.refl (t : HtBare) : Frame t t := ⟨rfl, rfl, rfl, rfl, rfl, rfl, rfl⟩

/-- Frames compose. -/
lemma Frame.trans (h : Frame t t') (h' : Frame t' t'') : Frame t t'' where
  spill := h'.spill.trans h.spill
  spillCap := h'.spillCap.trans h.spillCap
  resizing := h'.resizing.trans h.resizing
  maxLoadFactor := h'.maxLoadFactor.trans h.maxLoadFactor
  minLoadFactor := h'.minLoadFactor.trans h.minLoadFactor
  maxProbeDist := h'.maxProbeDist.trans h.maxProbeDist
  mem := h'.mem.trans h.mem

/-- A written slot is framed. -/
lemma Frame.setSlot (t : HtBare) (i : ℕ) (s : Slot) : Frame t (t.setSlot i s) :=
  ⟨rfl, rfl, rfl, rfl, rfl, rfl, rfl⟩

/-- A write adds at most the entry it writes. -/
lemma mem_contents_setSlot {e : ℕ × ℕ} (hi : i < t.capacity)
    (he : e ∈ (t.setSlot i s).contents) : (s.Live ∧ e = (s.hash, s.val)) ∨ e ∈ t.contents := by
  by_cases hs : (t.slot i).Live
  · by_cases hl : s.Live
    · have h : e ∈ ((t.slot i).hash, (t.slot i).val) ::ₘ (t.setSlot i s).contents :=
        Multiset.mem_cons_of_mem he
      rw [HtBare.contents_overwrite hi hs hl, Multiset.mem_cons] at h
      exact h.imp (fun h => ⟨hl, h⟩) id
    · right
      rw [← HtBare.contents_drop hi hs hl]
      exact Multiset.mem_cons_of_mem he
  · by_cases hl : s.Live
    · rw [HtBare.contents_write hi hs hl, Multiset.mem_cons] at he
      exact he.imp (fun h => ⟨hl, h⟩) id
    · rw [HtBare.contents_dead hi hs hl] at he
      exact .inr he

/-- The invariant only reads the main array, the lanes and the probe limit. -/
lemma Sound.congr (hS : Sound n t) (hm : t'.main = t.main) (hs : t'.spill = t.spill)
    (ho : t'.overflow = t.overflow) (hv : t'.overflowViolated = t.overflowViolated)
    (hp : t'.maxProbeDist = t.maxProbeDist) : Sound n t' := by
  cases t
  cases t'
  simp only at hm hs ho hv hp
  subst hm hs ho hv hp
  exact ⟨hS.pos, hS.cap, hS.reach, hS.slots, hS.limit, hS.spill, hS.overflow, hS.vals⟩

/-- Writing one slot keeps the invariant when the new layout is reached and the new entry, if the
slot is live, is seated. -/
lemma Sound.write [NeZero n] (hS : Sound n t) (hi : i < n)
    (hR : Reach (Function.update (t.layout n) (i : ZMod n) s.cell))
    (hs : s.Live → Seated n i s)
    (hl : s.Live → t.overflowViolated = false → 0 < t.maxProbeDist → s.pd ≤ t.maxProbeDist)
    (hv : s.Live → s.val ≠ valNone) :
    Sound n (t.setSlot i s) := by
  have hi' : i < t.capacity := by rw [hS.cap]; exact hi
  constructor
  · exact hS.pos
  · rw [HtBare.capacity_setSlot, hS.cap]
  · rw [HtBare.layout_setSlot hS.cap hi]
    exact hR
  · intro j hj
    rw [HtBare.slot_setSlot s hi']
    split
    · rename_i e
      rw [e]
      exact hs
    · exact hS.slots j hj
  · intro h1 h2 j hj
    rw [HtBare.slot_setSlot s hi']
    split
    · exact fun hlv => hl hlv h1 h2
    · exact hS.limit h1 h2 j hj
  · exact hS.spill
  · exact hS.overflow
  · intro e he
    rcases mem_contents_setSlot hi' he with ⟨hlv, rfl⟩ | h
    · exact hv hlv
    · exact hS.vals e h

/-- A table with an all-empty main array and empty lanes has no entries. -/
lemma contents_fresh (hm : t.main = List.replicate n Slot.emptySlot) (hs : t.spill = [])
    (ho : t.overflow = []) : t.contents = 0 := by
  unfold HtBare.contents liveEntries
  rw [hm, hs, ho, List.filterMap_replicate]
  rfl

/-- A table with an all-empty main array and empty lanes is sound. -/
lemma Sound.of_fresh (hn : 0 < n) (hm : t.main = List.replicate n Slot.emptySlot)
    (hs : t.spill = []) (ho : t.overflow = []) : Sound n t := by
  have hslot : ∀ i, t.slot i = Slot.emptySlot := by
    intro i
    unfold HtBare.slot
    rw [hm, List.getD_eq_getElem?_getD, List.getElem?_replicate]
    split <;> rfl
  have hdead : ∀ i, ¬ (t.slot i).Live := fun i => by
    rw [hslot]
    exact Slot.emptySlot_empty.not_live
  constructor
  · exact hn
  · rw [HtBare.capacity, hm, List.length_replicate]
  · apply Reach.of_not_live
    intro p e hp
    exact hdead _ (Slot.live_of_cell hp).1
  · exact fun i _ h => absurd h (hdead i)
  · exact fun _ _ i _ h => absurd h (hdead i)
  · rw [hs]
    simp
  · rw [ho]
    simp
  · intro e he
    rw [contents_fresh hm hs ho] at he
    exact absurd he (Multiset.notMem_zero e)

/-! ## Walks -/

/-- `P` holds at every loop head of one insertion. -/
def rhWalk (P : HtBare → Carrier → Bool) (rz : HtBare → Option (Bool × HtBare)) :
    ℕ → Bool → HtBare → Carrier → Bool
  | 0, _, _, _ => true
  | n + 1, bounded, t, c =>
    P t c &&
      match rhStep bounded t c with
      | .ret _ _ => true
      | .go t c => rhWalk P rz n bounded t c
      | .unbounded t c => rhWalk P rz n false t (.start t c.hash c.val)
      | .resize t c =>
        match rz t with
        | some (true, t) => rhWalk P rz n bounded t (.start t c.hash c.val)
        | _ => true

/-- `P` holds at every loop head of `bare_rh_insert_bounded`. -/
def insertWalk (P : HtBare → Carrier → Bool) (rz : HtBare → Option (Bool × HtBare)) (t : HtBare)
    (h val : ℕ) : Bool :=
  rhWalk P rz (rhFuel t) true t (.start t h val)

/-- `P` holds at every loop head of a list of insertions. -/
def reinsertWalk (P : HtBare → Carrier → Bool) (rz : HtBare → Option (Bool × HtBare)) :
    HtBare → List (ℕ × ℕ) → Bool
  | _, [] => true
  | t, (h, v) :: es =>
    insertWalk P rz t h v &&
      match bareRhInsertBounded rz t h v with
      | none => true
      | some (_, t) => reinsertWalk P rz t es

/-- `P` holds at every loop head of a rebuild. -/
def rebuildWalk (P : HtBare → Carrier → Bool) (rz : HtBare → Option (Bool × HtBare)) (t : HtBare)
    (capacity : ℕ) : Bool :=
  reinsertWalk P rz (freshBlocks t capacity) (liveEntries t.main) &&
    match bareReinsertMain rz (freshBlocks t capacity) t.main with
    | none => true
    | some t₁ => reinsertWalk P rz (bareReinsertSpill t₁ t.spill) t.overflow

/-- `next_pow2` does not round down. -/
lemma le_nextPow2 (n : ℕ) : n ≤ nextPow2 n := by
  unfold nextPow2
  split
  · assumption
  · split
    · have h := Nat.lt_log2_self (n := n - 1)
      omega
    · exact le_rfl

/-- A capacity that can be allocated is a power of two. -/
lemma nextPow2_pow2 {x : ℕ} (h : nextPow2 x ≤ sizeMax / 12) : ∃ k, nextPow2 x = 2 ^ k := by
  unfold nextPow2 at h ⊢
  split
  · exact ⟨0, rfl⟩
  · rename_i h1
    rw [if_neg h1] at h
    split
    · exact ⟨_, rfl⟩
    · rename_i h2
      rw [if_neg h2] at h
      unfold sizeMax at h
      omega

/-- The capacity `bare_resize_table` asks for. -/
def resizeCapacity (t : HtBare) : ℕ := max (nextPow2 (t.size * 2)) 4

/-- `P` holds at every loop head of `bare_resize_table`. -/
def resizeWalk (P : HtBare → Carrier → Bool) (t : HtBare) : Bool :=
  t.resizing ||
    match bareAllocMainBlock t (resizeCapacity t) with
    | (false, _) => true
    | (true, t₁) =>
      match malloc t₁ with
      | (false, _) => true
      | (true, t₂) => rebuildWalk P nestedResize { t₂ with resizing := true } (resizeCapacity t)

/-- `P` holds at every loop head of `ht_bare_compact`. -/
def compactWalk (P : HtBare → Carrier → Bool) (t : HtBare) : Bool :=
  match bareAllocMainBlock t t.capacity with
  | (false, _) => true
  | (true, t₁) =>
    match malloc t₁ with
    | (false, _) => true
    | (true, t₂) => rebuildWalk P bareResizeTable t₂ t₂.capacity

/-- `W` holds at every resize at the start of `ht_bare_insert`. -/
def prepareWalk (W : HtBare → Bool) (t : HtBare) : Bool :=
  (!decide (overLoaded t) || W t) &&
    match loadResize t with
    | some (true, t) => !decide (t.overflow.length = overflowStashCap) || W t
    | _ => true

end Draugr
