import Mathlib.Logic.Function.Basic
import Mathlib.Tactic

/-!
# Spin locks

Locks `L` taken by threads `T`. A lock is one word, `flag`; taking it tests and sets the word,
giving it back clears the word, whoever does it. `held` is not in the memory of a program: it
records which thread has taken a lock and not given it back. As long as every lock is given back by
a thread that holds it, no lock is held by two threads.
-/

namespace Draugr.Lib

/-- The words of the locks, and who holds them. -/
structure Locks (T L : Type*) where
  flag : L → Bool
  held : T → L → Bool

namespace Locks

variable {T L : Type*} [DecidableEq T] [DecidableEq L] {k k' : Locks T L} {i j : T} {x y : L}

/-- All locks are free. -/
def free : Locks T L := ⟨fun _ => false, fun _ _ => false⟩

/-- One try of thread `i` to take the lock `x`. -/
def take (k : Locks T L) (i : T) (x : L) : Option (Locks T L) :=
  if k.flag x then none
  else some ⟨Function.update k.flag x true,
    Function.update k.held i (Function.update (k.held i) x true)⟩

/-- Thread `i` gives the lock `x` back. -/
def give (k : Locks T L) (i : T) (x : L) : Locks T L :=
  ⟨Function.update k.flag x false, Function.update k.held i (Function.update (k.held i) x false)⟩

/-- A lock that is held is taken, and by one thread only. -/
structure Exclusive (k : Locks T L) : Prop where
  flag : ∀ {i x}, k.held i x = true → k.flag x = true
  one : ∀ {i j x}, k.held i x = true → k.held j x = true → i = j

omit [DecidableEq T] [DecidableEq L] in

/-- At first nobody holds a lock. -/
lemma Exclusive.free : (free : Locks T L).Exclusive := ⟨nofun, nofun⟩

/-- Who holds what after a lock was taken. -/
lemma held_take (h : k.take i x = some k') : k'.held j y = true ↔
    k.held j y = true ∨ (j = i ∧ y = x) := by
  unfold take at h
  split at h
  · cases h
  · cases h
    by_cases hj : j = i
    · subst hj
      by_cases hy : y = x <;> simp [hy]
    · simp [hj]

/-- Who holds what after a lock was given back. -/
lemma held_give : (k.give i x).held j y = true ↔ k.held j y = true ∧ ¬ (j = i ∧ y = x) := by
  unfold give
  by_cases hj : j = i
  · subst hj
    by_cases hy : y = x <;> simp [hy]
  · simp [hj]

/-- Taking a lock keeps the locks exclusive. -/
lemma Exclusive.take (hk : k.Exclusive) (h : k.take i x = some k') : k'.Exclusive := by
  have hheld := fun j y => held_take (j := j) (y := y) h
  have hfree : k.flag x ≠ true := by
    intro hx
    rw [Locks.take, if_pos hx] at h
    cases h
  have hflag : k'.flag = Function.update k.flag x true := by
    rw [Locks.take, if_neg hfree] at h
    cases h
    rfl
  -- nobody else holds the lock that was free
  have hno : ∀ j, k.held j x ≠ true := fun j hj => hfree (hk.flag hj)
  constructor
  · intro j y hj
    rw [hflag]
    by_cases hy : y = x
    · rw [hy, Function.update_self]
    · rw [Function.update_of_ne hy]
      exact hk.flag (((hheld j y).mp hj).resolve_right fun he => hy he.2)
  · intro j j' y hj hj'
    rcases (hheld j y).mp hj with hj | ⟨rfl, rfl⟩
    · rcases (hheld j' y).mp hj' with hj' | ⟨rfl, rfl⟩
      · exact hk.one hj hj'
      · exact absurd hj (hno j)
    · rcases (hheld j' y).mp hj' with hj' | ⟨rfl, -⟩
      · exact absurd hj' (hno j')
      · rfl

/-- A holder who gives a lock back keeps the locks exclusive. -/
lemma Exclusive.give (hk : k.Exclusive) (h : k.held i x = true) : (k.give i x).Exclusive := by
  constructor
  · intro j y hj
    obtain ⟨hold, hne⟩ := held_give.mp hj
    have hy : y ≠ x := by
      rintro rfl
      exact hne ⟨hk.one hold h, rfl⟩
    exact (Function.update_of_ne hy ..).trans (hk.flag hold)
  · intro j j' y hj hj'
    exact hk.one (held_give.mp hj).1 (held_give.mp hj').1

end Locks

end Draugr.Lib
