import Mathlib.Algebra.BigOperators.Group.List.Basic
import Mathlib.Data.List.Pairwise
import Mathlib.Order.Defs.LinearOrder
import Mathlib.Tactic

/-!
# Bags as ordered lists

A bag is a list of keys with their counts, the keys strictly increasing. `add` and `remove` change
the count of one key by one. A key cuts a bag in two, with its entry between the parts or without
one (`cut`), and both operations change the list between the parts only.
-/

namespace Draugr.Lib.Bag

variable {α : Type*} [LinearOrder α] {x y : α} {b b' b₁ b₂ : List (α × ℕ)} {n : ℕ}

/-- The keys are strictly increasing. -/
def Ordered (b : List (α × ℕ)) : Prop := b.Pairwise fun p q => p.1 < q.1

instance (b : List (α × ℕ)) : Decidable (Ordered b) :=
  inferInstanceAs (Decidable (List.Pairwise _ _))

/-- One more of a key. -/
def add (x : α) : List (α × ℕ) → List (α × ℕ)
  | [] => [(x, 1)]
  | p :: b => if p.1 = x then (x, p.2 + 1) :: b else if x < p.1 then (x, 1) :: p :: b
    else p :: add x b

/-- One less of a key. -/
def remove (x : α) : List (α × ℕ) → List (α × ℕ)
  | [] => []
  | p :: b => if p.1 = x then if p.2 = 1 then b else (x, p.2 - 1) :: b else p :: remove x b

/-- The count of a key. -/
def mult (x : α) : List (α × ℕ) → ℕ
  | [] => 0
  | p :: b => if p.1 = x then p.2 else mult x b

/-- The sum of the counts. -/
def size (b : List (α × ℕ)) : ℕ := (b.map Prod.snd).sum

/-- The parts before and behind a key. -/
structure Around (x : α) (b₁ b₂ : List (α × ℕ)) : Prop where
  below : ∀ p ∈ b₁, p.1 < x
  above : ∀ p ∈ b₂, x < p.1

/-- A key cuts an ordered bag, with its entry between the parts or without one. -/
lemma cut (hb : Ordered b) (x : α) :
    (∃ b₁ n b₂, b = b₁ ++ (x, n) :: b₂ ∧ Around x b₁ b₂) ∨ ∃ b₁ b₂,
      b = b₁ ++ b₂ ∧ Around x b₁ b₂ := by
  induction b with
  | nil => exact .inr ⟨[], [], rfl, ⟨nofun, nofun⟩⟩
  | cons p b ih =>
    obtain ⟨hp, hb⟩ := List.pairwise_cons.mp hb
    rcases lt_trichotomy p.1 x with hlt | rfl | hgt
    · have hcons : ∀ b₁ : List (α × ℕ), (∀ q ∈ b₁, q.1 < x) → ∀ q ∈ p :: b₁, q.1 < x := by
        intro b₁ h q hq
        rcases List.mem_cons.mp hq with rfl | hq
        · exact hlt
        · exact h q hq
      rcases ih hb with ⟨b₁, n, b₂, rfl, h⟩ | ⟨b₁, b₂, rfl, h⟩
      · exact .inl ⟨p :: b₁, n, b₂, rfl, hcons b₁ h.below, h.above⟩
      · exact .inr ⟨p :: b₁, b₂, rfl, hcons b₁ h.below, h.above⟩
    · exact .inl ⟨[], p.2, b, rfl, nofun, hp⟩
    · refine .inr ⟨[], p :: b, rfl, nofun, fun q hq => ?_⟩
      rcases List.mem_cons.mp hq with rfl | hq
      · exact hgt
      · exact hgt.trans (hp q hq)

/-- Other keys are counted in the two parts. -/
lemma mult_of_ne (hyx : y ≠ x) (n : ℕ) : mult y (b₁ ++ (x, n) :: b₂) = mult y (b₁ ++ b₂) := by
  induction b₁ with
  | nil => rw [List.nil_append, mult, if_neg hyx.symm, List.nil_append]
  | cons p b₁ ih => rw [List.cons_append, List.cons_append, mult, mult, ih]

namespace Around

variable (h : Around x b₁ b₂)
include h

/-- A key that is there gets one more. -/
lemma add_found (n : ℕ) : add x (b₁ ++ (x, n) :: b₂) = b₁ ++ (x, n + 1) :: b₂ := by
  obtain ⟨hbelow, -⟩ := h
  induction b₁ with
  | nil => rw [List.nil_append, add, if_pos rfl, List.nil_append]
  | cons p b₁ ih =>
    have hp := hbelow p (List.mem_cons_self ..)
    rw [List.cons_append, add, if_neg hp.ne, if_neg hp.not_gt,
      ih fun q hq => hbelow q (List.mem_cons_of_mem _ hq), List.cons_append]

/-- A key that is not there is entered between the parts. -/
lemma add_missing : add x (b₁ ++ b₂) = b₁ ++ (x, 1) :: b₂ := by
  obtain ⟨hbelow, habove⟩ := h
  induction b₁ with
  | nil =>
    cases b₂ with
    | nil => rfl
    | cons p b₂ =>
      have hp := habove p (List.mem_cons_self ..)
      rw [List.nil_append, add, if_neg hp.ne', if_pos hp, List.nil_append]
  | cons p b₁ ih =>
    have hp := hbelow p (List.mem_cons_self ..)
    rw [List.cons_append, add, if_neg hp.ne, if_neg hp.not_gt,
      ih fun q hq => hbelow q (List.mem_cons_of_mem _ hq), List.cons_append]

/-- A key that is there loses one, and is taken out with its last. -/
lemma remove_found (n : ℕ) :
    remove x (b₁ ++ (x, n) :: b₂) = if n = 1 then b₁ ++ b₂ else b₁ ++ (x, n - 1) :: b₂ := by
  obtain ⟨hbelow, -⟩ := h
  induction b₁ with
  | nil => rw [List.nil_append, remove, if_pos rfl, List.nil_append, List.nil_append]
  | cons p b₁ ih =>
    rw [List.cons_append, remove, if_neg (hbelow p (List.mem_cons_self ..)).ne,
      ih fun q hq => hbelow q (List.mem_cons_of_mem _ hq)]
    split_ifs <;> rfl

/-- The count of a key that is there. -/
lemma mult_found (n : ℕ) : mult x (b₁ ++ (x, n) :: b₂) = n := by
  obtain ⟨hbelow, -⟩ := h
  induction b₁ with
  | nil => rw [List.nil_append, mult, if_pos rfl]
  | cons p b₁ ih =>
    rw [List.cons_append, mult, if_neg (hbelow p (List.mem_cons_self ..)).ne,
      ih fun q hq => hbelow q (List.mem_cons_of_mem _ hq)]

/-- The count of a key that is not there. -/
lemma mult_missing : mult x (b₁ ++ b₂) = 0 := by
  obtain ⟨hbelow, habove⟩ := h
  induction b₁ with
  | nil =>
    rw [List.nil_append]
    induction b₂ with
    | nil => rfl
    | cons p b₂ ih =>
      rw [mult, if_neg (habove p (List.mem_cons_self ..)).ne',
        ih fun q hq => habove q (List.mem_cons_of_mem _ hq)]
  | cons p b₁ ih =>
    rw [List.cons_append, mult, if_neg (hbelow p (List.mem_cons_self ..)).ne,
      ih fun q hq => hbelow q (List.mem_cons_of_mem _ hq)]

end Around

omit [LinearOrder α] in

/-- The size of two parts. -/
lemma size_append (b₁ b₂ : List (α × ℕ)) : size (b₁ ++ b₂) = size b₁ + size b₂ := by
  rw [size, List.map_append, List.sum_append]
  rfl

omit [LinearOrder α] in

/-- The size from the first pair on. -/
lemma size_cons (p : α × ℕ) (b : List (α × ℕ)) : size (p :: b) = p.2 + size b := List.sum_cons

/-- A key is not counted more often than all together. -/
lemma mult_le_size (x : α) (b : List (α × ℕ)) : mult x b ≤ size b := by
  induction b with
  | nil => exact Nat.zero_le _
  | cons p b ih =>
    rw [mult, size_cons]
    split_ifs <;> omega

/-- Adding a key adds one to its count. -/
lemma mult_add (hb : Ordered b) (x y : α) :
    mult y (add x b) = mult y b + if x = y then 1 else 0 := by
  rcases cut hb x with ⟨b₁, n, b₂, rfl, h⟩ | ⟨b₁, b₂, rfl, h⟩
  · rw [h.add_found]
    split_ifs with hxy
    · subst hxy
      rw [h.mult_found, h.mult_found]
    · rw [mult_of_ne (Ne.symm hxy), mult_of_ne (Ne.symm hxy), Nat.add_zero]
  · rw [h.add_missing]
    split_ifs with hxy
    · subst hxy
      rw [h.mult_found, h.mult_missing]
    · rw [mult_of_ne (Ne.symm hxy), Nat.add_zero]

/-- Removing a key that is there takes one from its count. -/
lemma mult_remove (hb : Ordered b) (hx : 0 < mult x b) (y : α) :
    mult y (remove x b) + (if x = y then 1 else 0) = mult y b := by
  rcases cut hb x with ⟨b₁, n, b₂, rfl, h⟩ | ⟨b₁, b₂, rfl, h⟩
  · rw [h.mult_found] at hx
    rw [h.remove_found]
    split_ifs with h1 hxy hxy
    · subst hxy
      rw [h.mult_found, h.mult_missing, h1]
    · rw [mult_of_ne (Ne.symm hxy), Nat.add_zero]
    · subst hxy
      rw [h.mult_found, h.mult_found]
      omega
    · rw [mult_of_ne (Ne.symm hxy), mult_of_ne (Ne.symm hxy), Nat.add_zero]
  · rw [h.mult_missing] at hx
    cases hx

/-- One more occurrence. -/
lemma size_add (hb : Ordered b) (x : α) : size (add x b) = size b + 1 := by
  rcases cut hb x with ⟨b₁, n, b₂, rfl, h⟩ | ⟨b₁, b₂, rfl, h⟩
  · rw [h.add_found, size_append, size_append, size_cons, size_cons]
    dsimp only
    omega
  · rw [h.add_missing, size_append, size_append, size_cons]
    dsimp only
    omega

/-- One occurrence less. -/
lemma size_remove (hb : Ordered b) (hx : 0 < mult x b) : size (remove x b) + 1 = size b := by
  rcases cut hb x with ⟨b₁, n, b₂, rfl, h⟩ | ⟨b₁, b₂, rfl, h⟩
  · rw [h.mult_found] at hx
    rw [h.remove_found]
    split_ifs with h1
    · rw [size_append, size_append, size_cons, h1]
      omega
    · rw [size_append, size_append, size_cons, size_cons]
      dsimp only
      omega
  · rw [h.mult_missing] at hx
    cases hx

/-- The entries of a bag are the keys that are there, with their counts. -/
lemma mem_iff_mult (hb : Ordered b) (hpos : ∀ p ∈ b, 0 < p.2) : (x, n) ∈ b ↔
    0 < n ∧ mult x b = n := by
  rcases cut hb x with ⟨b₁, m, b₂, rfl, h⟩ | ⟨b₁, b₂, rfl, h⟩
  · rw [h.mult_found]
    constructor
    · intro hmem
      refine ⟨hpos _ hmem, ?_⟩
      rcases List.mem_append.mp hmem with h₁ | h₂
      · exact absurd (h.below _ h₁) (lt_irrefl x)
      rcases List.mem_cons.mp h₂ with he | h₂
      · exact (congrArg Prod.snd he).symm
      · exact absurd (h.above _ h₂) (lt_irrefl x)
    · rintro ⟨-, rfl⟩
      exact List.mem_append_right _ (List.mem_cons_self ..)
  · rw [h.mult_missing]
    constructor
    · intro hmem
      rcases List.mem_append.mp hmem with h₁ | h₂
      · exact absurd (h.below _ h₁) (lt_irrefl x)
      · exact absurd (h.above _ h₂) (lt_irrefl x)
    · rintro ⟨hn, rfl⟩
      exact absurd hn (lt_irrefl 0)

/-- Adding a key keeps the order. -/
lemma Ordered.add (hb : Ordered b) (x : α) : Ordered (Bag.add x b) := by
  rcases cut hb x with ⟨b₁, n, b₂, rfl, h⟩ | ⟨b₁, b₂, rfl, h⟩
  · rw [h.add_found]
    obtain ⟨h₁, h₂, h₁₂⟩ := List.pairwise_append.mp hb
    obtain ⟨hx, h₂⟩ := List.pairwise_cons.mp h₂
    refine List.pairwise_append.mpr ⟨h₁, List.pairwise_cons.mpr ⟨hx, h₂⟩, fun p hp q hq => ?_⟩
    rcases List.mem_cons.mp hq with rfl | hq
    · exact h.below p hp
    · exact h₁₂ p hp q (List.mem_cons_of_mem _ hq)
  · rw [h.add_missing]
    obtain ⟨h₁, h₂, h₁₂⟩ := List.pairwise_append.mp hb
    refine List.pairwise_append.mpr ⟨h₁, List.pairwise_cons.mpr ⟨h.above, h₂⟩, fun p hp q hq => ?_⟩
    rcases List.mem_cons.mp hq with rfl | hq
    · exact h.below p hp
    · exact h₁₂ p hp q hq

/-- Adding a key keeps the counts positive. -/
lemma pos_add (hb : ∀ p ∈ b, 0 < p.2) (x : α) : ∀ p ∈ add x b, 0 < p.2 := by
  induction b with
  | nil =>
    intro p hp
    rw [List.mem_singleton.mp hp]
    exact Nat.one_pos
  | cons r b ih =>
    have htail : ∀ p ∈ b, 0 < p.2 := fun p hp => hb p (List.mem_cons_of_mem _ hp)
    intro p hp
    rw [add] at hp
    split_ifs at hp
    · rcases List.mem_cons.mp hp with rfl | hp
      · exact Nat.succ_pos _
      · exact htail p hp
    · rcases List.mem_cons.mp hp with rfl | hp
      · exact Nat.one_pos
      · exact hb p hp
    · rcases List.mem_cons.mp hp with rfl | hp
      · exact hb p (List.mem_cons_self ..)
      · exact ih htail p hp

/-- A bag is given by its counts. -/
lemma Ordered.ext (hb : Ordered b) (hb' : Ordered b') (hpos : ∀ p ∈ b, 0 < p.2)
    (hpos' : ∀ p ∈ b', 0 < p.2) (h : ∀ x, mult x b = mult x b') : b = b' := by
  have : Std.Irrefl fun p q : α × ℕ => p.1 < q.1 := ⟨fun p => lt_irrefl _⟩
  have : Std.Antisymm fun p q : α × ℕ => p.1 < q.1 :=
    ⟨fun p q h₁ h₂ => absurd (h₁.trans h₂) (lt_irrefl _)⟩
  refine List.Pairwise.eq_of_mem_iff hb hb' fun p => ?_
  rw [show p = (p.1, p.2) from rfl, mem_iff_mult hb hpos, mem_iff_mult hb' hpos', h]

end Draugr.Lib.Bag
