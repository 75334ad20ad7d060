import Mathlib.Data.List.Perm.Basic
import Mathlib.Tactic

/-!
# Writing one cell of an array

An array is a list and a write is `List.set`. Up to permutation a write exchanges the old element
for the new one (`set_append_perm`), so every quantity that is read off the elements in any
order changes by the difference of the two: counts, sums and filtered contents.
-/

namespace Draugr.Lib

variable {α β : Type*}

/-- A write exchanges the old element for the new one. -/
lemma set_append_perm (l : List α) (i : ℕ) (a d : α) (hi : i < l.length) :
    (l.set i a ++ [l.getD i d]).Perm (l ++ [a]) := by
  induction l generalizing i with
  | nil => simp at hi
  | cons x l ih =>
    cases i with
    | zero =>
      simp only [List.set_cons_zero, List.getD_cons_zero, List.cons_append]
      have h1 : (a :: (l ++ [x])).Perm (a :: x :: l) := (List.perm_append_singleton x l).cons a
      have h2 : (x :: a :: l).Perm (x :: (l ++ [a])) :=
        (List.perm_append_singleton a l).symm.cons x
      exact h1.trans ((List.Perm.swap x a l).trans h2)
    | succ i =>
      simp only [List.set_cons_succ, List.getD_cons_succ, List.cons_append]
      exact (ih i (by simpa using hi)).cons x

/-- Counts change by the difference of the two elements. -/
lemma countP_set_add (p : α → Bool) (l : List α) (i : ℕ) (a d : α) (hi : i < l.length) :
    (l.set i a).countP p + (if p (l.getD i d) then 1 else 0) =
      l.countP p + (if p a then 1 else 0) := by
  have h := (set_append_perm l i a d hi).countP_eq p
  simpa [List.countP_append, List.countP_cons] using h

/-- Sums change by the difference of the two elements. -/
lemma sum_map_set_add (f : α → ℕ) (l : List α) (i : ℕ) (a d : α) (hi : i < l.length) :
    ((l.set i a).map f).sum + f (l.getD i d) = (l.map f).sum + f a := by
  have h := ((set_append_perm l i a d hi).map f).sum_eq
  simpa using h

/-- Filtered contents change by the difference of the two elements. -/
lemma filterMap_set_perm (f : α → Option β) (l : List α) (i : ℕ) (a d : α) (hi : i < l.length) :
    ((l.set i a).filterMap f ++ (f (l.getD i d)).toList).Perm (l.filterMap f ++ (f a).toList) := by
  have h := (set_append_perm l i a d hi).filterMap f
  simp only [List.filterMap_append] at h
  have e (x : α) : List.filterMap f [x] = (f x).toList := by
    cases hx : f x <;> simp [hx]
  rwa [e, e] at h

/-- A read of a written array. -/
lemma getD_set (l : List α) (i j : ℕ) (a d : α) (hi : i < l.length) :
    (l.set i a).getD j d = if j = i then a else l.getD j d := by
  by_cases h : j = i
  · subst h
    rw [if_pos rfl, List.getD_eq_getElem?_getD, List.getElem?_set_self hi]
    rfl
  · rw [if_neg h, List.getD_eq_getElem?_getD, List.getD_eq_getElem?_getD,
      List.getElem?_set_ne (Ne.symm h)]

/-- Overwriting an element with the last one and dropping that removes the element. -/
lemma set_last_dropLast_perm (l : List α) (i : ℕ) (d : α) {a : α} (hi : i < l.length)
    (ha : l.getD i d = a) : (a :: (l.set i (l.getLastD d)).dropLast).Perm l := by
  rcases List.eq_nil_or_concat l with rfl | ⟨init, z, rfl⟩
  · simp at hi
  rw [List.concat_eq_append] at hi ha ⊢
  have hlast : (init ++ [z]).getLastD d = z := by simp
  rw [hlast]
  rw [List.length_append, List.length_singleton] at hi
  rcases Nat.lt_or_ge i init.length with hlt | hge
  · -- an element before the last one
    have hget : init.getD i d = a := by
      rw [← ha, List.getD_eq_getElem?_getD, List.getD_eq_getElem?_getD,
        List.getElem?_append_left hlt]
    have h := set_append_perm init i z d hlt
    rw [hget] at h
    rw [List.set_append_left _ _ hlt, List.dropLast_concat]
    exact (List.perm_append_singleton a _).symm.trans h
  · -- the last element itself
    have hi' : i = init.length := by omega
    subst hi'
    have hz : z = a := by simpa using ha
    rw [List.set_append_right _ _ (le_refl _), Nat.sub_self, List.set_cons_zero,
      List.dropLast_concat, hz]
    exact (List.perm_append_singleton a init).symm

end Draugr.Lib
