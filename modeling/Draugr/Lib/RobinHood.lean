import Mathlib.Data.ZMod.Basic
import Mathlib.Tactic

/-!
# Robin-Hood layouts on a ring of cells

The reachability theory of linear probing with Robin-Hood displacement and tombstones, on a ring
`ZMod n` of cells and with everything but the probe distances forgotten. A cell is empty, a
tombstone or live at a probe distance `d`. A searcher that reaches a cell at distance `d` goes on
(`Cell.Passes`) unless the cell is empty or holds an entry at a smaller distance; `Arrives L p d` is
that a searcher which has travelled `d` cells reaches `p`, and `Reach L` is that every live cell is
reached from its own ideal cell.

Each lemma below is one elementary change of a layout and the condition under which it keeps
`Reach`: placing an entry (`Reach.place`), burying one (`Reach.bury`), moving one back over a run of
tombstones (`Reach.moveBack`), emptying a tombstone before an empty cell (`Reach.exhume`) and
putting a tombstone in an empty cell (`Reach.plant`). Insertion, deletion with backward shift and
rebuilding are sequences of these.
-/

namespace Draugr.Lib

/-- What the search sees of one cell. -/
inductive Cell where
  | empty
  | tomb
  | live (d : ℕ)
  deriving DecidableEq, Repr

/-- A searcher at distance `d` goes past the cell. -/
def Cell.Passes : Cell → ℕ → Prop
  | .empty, _ => False
  | .tomb, _ => True
  | .live e, d => d ≤ e

/-- A layout of the ring. -/
abbrev Layout (n : ℕ) := ZMod n → Cell

/-- A searcher that starts `d` cells before `p` reaches `p`. -/
def Arrives {n} (L : Layout n) (p : ZMod n) (d : ℕ) : Prop :=
  ∀ k, 1 ≤ k → k ≤ d → (L (p - (k : ZMod n))).Passes (d - k)

/-- Every live cell is reached from its ideal cell. -/
def Reach {n} (L : Layout n) : Prop :=
  ∀ p d, L p = .live d → Arrives L p d

/-- No entry travels past `p` at a distance above `d`. -/
def Admits {n} (L : Layout n) (p : ZMod n) (d : ℕ) : Prop :=
  ∀ k e : ℕ, 1 ≤ k → L (p + (k : ZMod n)) = .live e → k ≤ e → e - k ≤ d

variable {n : ℕ} {L : Layout n} {p : ZMod n} {d : ℕ}

/-- A positive step below the length of the ring leaves the cell. -/
lemma sub_natCast_ne (p : ZMod n) {k : ℕ} (h1 : 1 ≤ k) (hn : k < n) :
    p - (k : ZMod n) ≠ p := by
  intro h
  have h0 : (k : ZMod n) = 0 := sub_eq_self.mp h
  rw [ZMod.natCast_eq_zero_iff] at h0
  exact absurd (Nat.le_of_dvd h1 h0) (by omega)

/-- A searcher at distance zero has arrived. -/
lemma Arrives.zero (L : Layout n) (p : ZMod n) : Arrives L p 0 := by
  intro k h1 h2
  omega

/-- A searcher that passes `p` arrives at the next cell, one further. -/
lemma Arrives.succ (h : Arrives L p d) (hp : (L p).Passes d) : Arrives L (p + 1) (d + 1) := by
  intro k h1 h2
  obtain ⟨j, rfl⟩ : ∃ j, k = j + 1 := ⟨k - 1, by omega⟩
  have e : p + 1 - ((j + 1 : ℕ) : ZMod n) = p - (j : ZMod n) := by push_cast; ring
  rw [e, Nat.add_sub_add_right]
  cases j with
  | zero => simpa using hp
  | succ j => exact h (j + 1) (by omega) (by omega)

/-- Arrival only looks at the cells behind. -/
lemma Arrives.congr {L' : Layout n} (h : Arrives L p d)
    (hL : ∀ k, 1 ≤ k → k ≤ d → (L (p - (k : ZMod n))).Passes (d - k) →
      (L' (p - (k : ZMod n))).Passes (d - k)) :
    Arrives L' p d := fun k h1 h2 => hL k h1 h2 (h k h1 h2)

/-- Nobody travels past an empty cell. -/
lemma Admits.of_empty (hR : Reach L) (hp : L p = .empty) (d : ℕ) : Admits L p d := by
  intro k e h1 he hk
  have h := hR _ e he k h1 hk
  rw [add_sub_cancel_right, hp] at h
  exact h.elim

/-- Whoever travels past a live cell does so at no greater distance. -/
lemma Admits.of_live {e : ℕ} (hR : Reach L) (hp : L p = .live e) (hd : e ≤ d) : Admits L p d := by
  intro k f h1 he hk
  have h := hR _ f he k h1 hk
  rw [add_sub_cancel_right, hp] at h
  exact le_trans h hd

/-- Placing an entry that arrives at an admitting cell keeps every cell reached. -/
lemma Reach.place (hR : Reach L) (ha : Arrives L p d) (hA : Admits L p d) (hd : d < n) :
    Reach (Function.update L p (.live d)) := by
  intro r e he k h1 hk
  by_cases hr : r = p
  · -- the entry just placed: the cells behind it are untouched
    subst hr
    rw [Function.update_self] at he
    cases he
    rw [Function.update_of_ne (sub_natCast_ne r h1 (by omega))]
    exact ha k h1 hk
  · rw [Function.update_of_ne hr] at he
    by_cases hq : r - (k : ZMod n) = p
    · -- an entry that travels past the placed one
      rw [hq, Function.update_self]
      have hr' : r = p + (k : ZMod n) := by rw [← hq]; ring
      rw [hr'] at he
      exact hA k e h1 he hk
    · rw [Function.update_of_ne hq]
      exact hR r e he k h1 hk

/-- Turning a cell into a tombstone keeps every cell reached. -/
lemma Reach.bury (hR : Reach L) (p : ZMod n) : Reach (Function.update L p .tomb) := by
  intro r e he k h1 hk
  by_cases hr : r = p
  · rw [hr, Function.update_self] at he
    cases he
  · rw [Function.update_of_ne hr] at he
    by_cases hq : r - (k : ZMod n) = p
    · rw [hq, Function.update_self]
      trivial
    · rw [Function.update_of_ne hq]
      exact hR r e he k h1 hk

/-- A tombstone before an empty cell can be emptied. -/
lemma Reach.exhume (hR : Reach L) (hn : L (p + 1) = .empty) :
    Reach (Function.update L p .empty) := by
  intro r e he k h1 hk
  by_cases hr : r = p
  · rw [hr, Function.update_self] at he
    cases he
  rw [Function.update_of_ne hr] at he
  by_cases hq : r - (k : ZMod n) = p
  · -- `r` travels over `p`, hence over the empty cell after it
    exfalso
    have hr' : r = p + (k : ZMod n) := by rw [← hq]; ring
    obtain ⟨j, rfl⟩ : ∃ j, k = j + 1 := ⟨k - 1, by omega⟩
    cases j with
    | zero =>
      rw [hr'] at he
      simp only [Nat.zero_add, Nat.cast_one] at he
      rw [hn] at he
      cases he
    | succ j =>
      have h := hR r e he (j + 1) (by omega) (by omega)
      have e1 : r - ((j + 1 : ℕ) : ZMod n) = p + 1 := by rw [hr']; push_cast; ring
      rw [e1, hn] at h
      exact h
  · rw [Function.update_of_ne hq]
    exact hR r e he k h1 hk

/-- An entry moves back over a run of `g` tombstones, its distance shrinking by `g`. -/
lemma Reach.moveBack {g : ℕ} (hR : Reach L) (hp : L (p + (g : ZMod n)) = .live d) (hg1 : 1 ≤ g)
    (hgd : g ≤ d) (hd : d < n)
    (ht : ∀ k, k < g → L (p + (k : ZMod n)) = .tomb) :
    Reach (Function.update (Function.update L (p + (g : ZMod n)) .tomb) p (.live (d - g))) := by
  have hR' := hR.bury (p + (g : ZMod n))
  refine hR'.place ?_ ?_ (by omega)
  · -- the moved entry arrives where its own search came past
    intro k h1 hk
    have h := hR _ d hp (g + k) (by omega) (by omega)
    have e1 : p + (g : ZMod n) - ((g + k : ℕ) : ZMod n) = p - (k : ZMod n) := by push_cast; ring
    rw [e1, show d - (g + k) = d - g - k by omega] at h
    by_cases hq : p - (k : ZMod n) = p + (g : ZMod n)
    · rw [hq, Function.update_self]
      trivial
    · rw [Function.update_of_ne hq]
      exact h
  · -- whoever travels past the new place came past the old one
    intro k e h1 he hk
    by_cases hr : p + (k : ZMod n) = p + (g : ZMod n)
    · rw [hr, Function.update_self] at he
      cases he
    · rw [Function.update_of_ne hr] at he
      by_cases hkg : k < g
      · rw [ht k hkg] at he
        cases he
      · obtain ⟨j, rfl⟩ : ∃ j, k = g + j := ⟨k - g, by omega⟩
        cases j with
        | zero => exact absurd rfl hr
        | succ j =>
          have h := hR _ e he (j + 1) (by omega) (by omega)
          have e1 : p + ((g + (j + 1) : ℕ) : ZMod n) - ((j + 1 : ℕ) : ZMod n) =
              p + (g : ZMod n) := by
            push_cast; ring
          rw [e1, hp] at h
          have h' : e - (j + 1) ≤ d := h
          omega

/-- A ring without live cells is trivially reached. -/
lemma Reach.of_not_live (h : ∀ p e, L p ≠ .live e) : Reach L :=
  fun p d hp => absurd hp (h p d)

end Draugr.Lib
