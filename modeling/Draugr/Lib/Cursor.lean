import Mathlib.Data.List.Basic

/-!
# Cursors

An iterator is a state `σ` with a step `next : σ → Option α × σ`. `Yields next rest` says that the
step hands out the list `rest` element by element: as long as something is left it returns the first
of it, and at the end it returns `none` and stays at the end. `Yields.calls` is what any number of
calls then returns. A cursor into an array with holes steps from cell to cell; `ahead cells k` is
what it still has in front of it at position `k`.
-/

namespace Draugr.Lib

variable {σ α : Type*}

/-- The step hands out what is left, element by element, and stays at the end. -/
def Yields (next : σ → Option α × σ) (rest : σ → List α) : Prop :=
  ∀ s, (next s).1 = (rest s).head? ∧ rest (next s).2 = (rest s).tail

/-- What `n` calls return. -/
def calls (next : σ → Option α × σ) : ℕ → σ → List (Option α)
  | 0, _ => []
  | n + 1, s => (next s).1 :: calls next n (next s).2

/-- Any number of calls returns the elements in order, then `none` for ever. -/
lemma Yields.calls {next : σ → Option α × σ} {rest : σ → List α} (h : Yields next rest) (n : ℕ)
    (s : σ) : calls next n s = (List.range n).map fun i => (rest s)[i]? := by
  induction n generalizing s with
  | zero => rfl
  | succ n ih =>
    obtain ⟨hhead, htail⟩ := h s
    rw [Lib.calls, ih, hhead, htail, List.range_succ_eq_map, List.map_cons, List.map_map,
      List.head?_eq_getElem?]
    congr 1
    refine List.map_congr_left fun i _ => ?_
    show (rest s).tail[i]? = (rest s)[i + 1]?
    rw [List.getElem?_tail]

/-- What a cursor at position `k` of an array with holes has in front of it. -/
def ahead (cells : List (Option α)) (k : ℕ) : List α := (cells.drop k).filterMap id

/-- Behind the end there is nothing. -/
lemma ahead_of_le {cells : List (Option α)} {k : ℕ} (h : cells.length ≤ k) :
    ahead cells k = [] := by
  unfold ahead
  rw [List.drop_of_length_le h]
  rfl

/-- A hole is passed over. -/
lemma ahead_hole {cells : List (Option α)} {k : ℕ} (h : cells[k]? = some none) :
    ahead cells k = ahead cells (k + 1) := by
  obtain ⟨hk, hget⟩ := List.getElem?_eq_some_iff.mp h
  unfold ahead
  rw [List.drop_eq_getElem_cons hk, hget]
  rfl

/-- An element is the next one. -/
lemma ahead_cell {cells : List (Option α)} {k : ℕ} {a : α} (h : cells[k]? = some (some a)) :
    ahead cells k = a :: ahead cells (k + 1) := by
  obtain ⟨hk, hget⟩ := List.getElem?_eq_some_iff.mp h
  unfold ahead
  rw [List.drop_eq_getElem_cons hk, hget]
  rfl

end Draugr.Lib
