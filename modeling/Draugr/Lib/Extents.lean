import Mathlib.Data.List.Perm.Basic
import Mathlib.Data.List.Flatten
import Mathlib.Order.Interval.Finset.Nat
import Mathlib.Tactic.Common

/-!
# Extents of memory

An extent is a run of cells of one block of memory. `Apart` extents share no cell, and a list of
extents is `AllApart` when every two are apart. `Filled` and `Vacant` relate the extents of one
block to a bitmap of its free cells: a vacant extent is apart from every filled one, so that it can
be handed out, and the cells of a filled extent can be freed without touching another.
-/

namespace Draugr.Lib

/-- `len` cells of a block from `start` on. -/
structure Extent where
  block : ℕ
  start : ℕ
  len : ℕ
  deriving DecidableEq

/-- No common cell. -/
def Extent.Apart (a b : Extent) : Prop :=
  a.block ≠ b.block ∨ a.start + a.len ≤ b.start ∨ b.start + b.len ≤ a.start

instance (a b : Extent) : Decidable (a.Apart b) := inferInstanceAs (Decidable (_ ∨ _ ∨ _))

/-- Every cell of the first is a cell of the second. -/
structure Extent.Within (a b : Extent) : Prop where
  block : a.block = b.block
  start : b.start ≤ a.start
  stop : a.start + a.len ≤ b.start + b.len

/-- No two extents of the list share a cell. -/
def AllApart (l : List Extent) : Prop := l.Pairwise Extent.Apart

/-- All cells of the run are free. -/
def Vacant (free : ℕ → Bool) (start len : ℕ) : Prop :=
  ∀ i, start ≤ i → i < start + len → free i = true

/-- All cells of the run are taken. -/
def Filled (free : ℕ → Bool) (start len : ℕ) : Prop :=
  ∀ i, start ≤ i → i < start + len → free i = false

/-- The bitmap with a run set to one value. -/
def setRun (free : ℕ → Bool) (start len : ℕ) (b : Bool) (i : ℕ) : Bool :=
  if start ≤ i ∧ i < start + len then b else free i

variable {a b a' b' : Extent} {l l' : List Extent} {free : ℕ → Bool} {s n s' n' : ℕ}

/-- Apart is symmetric. -/
lemma Extent.Apart.symm (h : a.Apart b) : b.Apart a := by
  unfold Extent.Apart at *
  rcases h with h | h | h
  · exact .inl (Ne.symm h)
  · exact .inr (.inr h)
  · exact .inr (.inl h)

/-- Parts of extents that are apart are apart. -/
lemma Extent.Apart.within (h : a.Apart b) (ha : a'.Within a) (hb : b'.Within b) : a'.Apart b' := by
  have h1 := ha.block
  have h2 := ha.start
  have h3 := ha.stop
  have h4 := hb.block
  have h5 := hb.start
  have h6 := hb.stop
  unfold Extent.Apart at *
  rcases h with h | h | h
  · exact .inl (by rwa [h1, h4])
  · exact .inr (.inl (by omega))
  · exact .inr (.inr (by omega))

/-- The order of areas does not matter. -/
lemma AllApart.perm (h : AllApart l) (hp : l.Perm l') : AllApart l' :=
  (hp.pairwise_iff fun h => Extent.Apart.symm h).mp h

/-! ## Bitmaps -/

/-- A vacant run meets no filled run. -/
lemma Vacant.apart (hv : Vacant free s n) (hf : Filled free s' n') (hn : 0 < n) (hn' : 0 < n') :
    s + n ≤ s' ∨ s' + n' ≤ s := by
  by_contra hcon
  push Not at hcon
  have h1 := hv (max s s') (Nat.le_max_left ..) (by omega)
  have h2 := hf (max s s') (Nat.le_max_right ..) (by omega)
  rw [h1] at h2
  cases h2

/-- Taking cells keeps a filled run. -/
lemma Filled.take (hf : Filled free s n) : Filled (setRun free s' n' false) s n := by
  intro i h1 h2
  unfold setRun
  split
  · rfl
  · exact hf i h1 h2

/-- The cells that were taken are filled. -/
lemma filled_setRun : Filled (setRun free s n false) s n := by
  intro i h1 h2
  rw [setRun, if_pos ⟨h1, h2⟩]

/-- Freeing a run keeps a filled run that it does not meet. -/
lemma Filled.give (hf : Filled free s n) (h : s + n ≤ s' ∨ s' + n' ≤ s) :
    Filled (setRun free s' n' true) s n := by
  intro i h1 h2
  rw [setRun, if_neg (by omega)]
  exact hf i h1 h2

/-- The number of taken cells among the first `m`. -/
def taken (free : ℕ → Bool) (m : ℕ) : ℕ := ((Finset.range m).filter fun i => free i = false).card

/-- No more than what was asked for is taken. -/
lemma taken_le (free : ℕ → Bool) (m : ℕ) : taken free m ≤ m := by
  unfold taken
  calc _ ≤ (Finset.range m).card := Finset.card_filter_le ..
    _ = m := Finset.card_range m

/-- Where the run is taken in one bitmap and free in the other, and they agree elsewhere, the run is
the difference of the counts. -/
lemma taken_run {full : ℕ → Bool} {m : ℕ} (hv : Vacant free s n) (hf : Filled full s n)
    (hm : s + n ≤ m) (hsame : ∀ i, i < s ∨ s + n ≤ i → free i = full i) :
    taken full m = taken free m + n := by
  have hsplit : (Finset.range m).filter (fun i => full i = false) =
      (Finset.range m).filter (fun i => free i = false) ∪ Finset.Ico s (s + n) := by
    ext i
    simp only [Finset.mem_filter, Finset.mem_range, Finset.mem_union, Finset.mem_Ico]
    by_cases hi : s ≤ i ∧ i < s + n
    · exact ⟨fun _ => .inr hi, fun _ => ⟨by omega, hf i hi.1 hi.2⟩⟩
    · rw [hsame i (by omega)]
      exact ⟨.inl, fun h => h.resolve_right hi⟩
  have hdisj :
      Disjoint ((Finset.range m).filter fun i => free i = false) (Finset.Ico s (s + n)) := by
    refine Finset.disjoint_left.mpr fun i h1 h2 => ?_
    rw [Finset.mem_filter] at h1
    rw [Finset.mem_Ico] at h2
    rw [hv i h2.1 h2.2] at h1
    cases h1.2
  unfold taken
  rw [hsplit, Finset.card_union_of_disjoint hdisj, Nat.card_Ico, Nat.add_sub_cancel_left]

/-- A run leaves the bits outside of it. -/
lemma setRun_other {c : Bool} {i : ℕ} (hi : i < s ∨ s + n ≤ i) : setRun free s n c i = free i := by
  rw [setRun, if_neg (by omega)]

/-- The cells that were freed are vacant. -/
lemma vacant_setRun : Vacant (setRun free s n true) s n := by
  intro i h1 h2
  rw [setRun, if_pos ⟨h1, h2⟩]

/-- Taking a vacant run. -/
lemma taken_take {m : ℕ} (hv : Vacant free s n) (hm : s + n ≤ m) :
    taken (setRun free s n false) m = taken free m + n :=
  taken_run hv filled_setRun hm fun _ hi => (setRun_other hi).symm

/-- Freeing a filled run. -/
lemma taken_give {m : ℕ} (hf : Filled free s n) (hm : s + n ≤ m) :
    taken free m = taken (setRun free s n true) m + n :=
  taken_run vacant_setRun hf hm fun _ hi => setRun_other hi

/-! ## Families of lists -/

/-- In the concatenation of a family of lists, the list at one index stands for itself. -/
lemma range_flatMap_split {α : Type*} (f : ℕ → List α) {m i : ℕ} (hi : i < m) :
    ∃ rest, ∀ g : ℕ → List α, (∀ j, j ≠ i → g j = f j) →
      ((List.range m).flatMap g).Perm (g i ++ rest) := by
  induction m with
  | zero => exact absurd hi (Nat.not_lt_zero _)
  | succ m ih =>
    by_cases hm : i = m
    · subst hm
      refine ⟨(List.range i).flatMap f, fun g hg => ?_⟩
      have hsame : (List.range i).flatMap g = (List.range i).flatMap f :=
        List.flatMap_congr fun j hj => hg j (Nat.ne_of_lt (List.mem_range.mp hj))
      rw [List.range_succ, List.flatMap_append, hsame, List.flatMap_singleton]
      exact List.perm_append_comm
    · obtain ⟨rest, hrest⟩ := ih (by omega)
      refine ⟨rest ++ f m, fun g hg => ?_⟩
      rw [List.range_succ, List.flatMap_append, List.flatMap_singleton, hg m (Ne.symm hm),
        ← List.append_assoc]
      exact (hrest g hg).append_right _

end Draugr.Lib
