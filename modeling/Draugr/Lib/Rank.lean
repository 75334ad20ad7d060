import Mathlib.Data.Nat.Count
import Mathlib.Logic.Function.Basic

/-!
# Rank and select on bit arrays

`cnt b n` is the number of set bits of `b` below `n`, and `IsSelect b k e` says that the set bit
number `k`, counted from 0, is at `e`. The lemmas say what these become when a bit is changed and
when a place is opened in the array (`openAt`), so that the bits up to the next free place move up
by one. `lowerBound` is the binary search for the first place of a monotone test.
-/

namespace Draugr.Lib

/-- An array of bits. -/
abbrev Bits := ℕ → Bool

/-- The number of set bits below `n`. -/
def cnt (b : Bits) (n : ℕ) : ℕ := Nat.count (fun i => b i = true) n

/-- The set bit number `k` is at `e`. -/
def IsSelect (b : Bits) (k e : ℕ) : Prop := b e = true ∧ cnt b e = k

variable {b b' : Bits} {i j k m n p q s e e' : ℕ}

/-- No bit is below place 0. -/
lemma cnt_zero : cnt b 0 = 0 := Nat.count_zero _

/-- The rank after one more place. -/
lemma cnt_succ (n : ℕ) : cnt b (n + 1) = cnt b n + if b n = true then 1 else 0 := Nat.count_succ ..

/-- The rank after a set bit. -/
lemma cnt_succ_of_set (h : b n = true) : cnt b (n + 1) = cnt b n + 1 := by rw [cnt_succ, if_pos h]

/-- The rank after a clear bit. -/
lemma cnt_succ_of_clear (h : b n = false) : cnt b (n + 1) = cnt b n := by
  rw [cnt_succ, if_neg (by simp [h]), Nat.add_zero]

/-- The rank grows with the place. -/
lemma cnt_mono (h : m ≤ n) : cnt b m ≤ cnt b n := Nat.count_monotone _ h

/-- The rank grows behind a set bit. -/
lemma cnt_lt_of_set (h : b i = true) (hij : i < j) : cnt b i < cnt b j := by
  have := cnt_mono (b := b) hij
  rw [Nat.succ_eq_add_one, cnt_succ_of_set h] at this
  omega

/-- The count of a prefix depends on its bits. -/
lemma cnt_congr (h : ∀ i < n, b' i = b i) : cnt b' n = cnt b n := by
  induction n with
  | zero => rfl
  | succ n ih =>
    rw [cnt_succ, cnt_succ, ih fun i hi => h i (by omega), h n (by omega)]

/-- No bit is set among clear ones. -/
lemma cnt_false (n : ℕ) : cnt (fun _ => false) n = 0 := by
  induction n with
  | zero => exact cnt_zero
  | succ n ih => rw [cnt_succ_of_clear rfl, ih]

/-- Equal counts mean that no bit between is set. -/
lemma clear_of_cnt_eq (h : cnt b m = cnt b n) (hm : m ≤ i) (hn : i < n) : b i = false := by
  refine Bool.eq_false_iff.mpr fun hi => ?_
  have h1 := cnt_mono (b := b) hm
  have h2 := cnt_lt_of_set hi hn
  omega

/-- No set bit between means equal counts. -/
lemma cnt_eq_of_clear (hmn : m ≤ n) (h : ∀ i, m ≤ i → i < n → b i = false) : cnt b n = cnt b m := by
  induction n, hmn using Nat.le_induction with
  | base => rfl
  | succ n hmn ih =>
    rw [cnt_succ_of_clear (h n hmn (by omega)), ih fun i hi hin => h i hi (by omega)]

/-- There is a set bit of every number below the count. -/
lemma exists_isSelect (h : k < cnt b n) : ∃ e < n, IsSelect b k e := by
  induction n with
  | zero => simp [cnt_zero] at h
  | succ n ih =>
    by_cases hn : k < cnt b n
    · obtain ⟨e, he, hs⟩ := ih hn
      exact ⟨e, by omega, hs⟩
    · cases hb : b n with
      | true =>
        rw [cnt_succ_of_set hb] at h
        exact ⟨n, by omega, hb, by omega⟩
      | false =>
        rw [cnt_succ_of_clear hb] at h
        exact absurd h hn

/-- There is one set bit of each number. -/
lemma IsSelect.unique (h : IsSelect b k e) (h' : IsSelect b k e') : e = e' := by
  rcases Nat.lt_trichotomy e e' with hlt | heq | hgt
  · have := cnt_lt_of_set h.1 hlt
    rw [h.2, h'.2] at this
    omega
  · exact heq
  · have := cnt_lt_of_set h'.1 hgt
    rw [h.2, h'.2] at this
    omega

/-- The count at a place tells which set bits lie before it. -/
lemma IsSelect.lt_iff (h : IsSelect b k e) : e < p ↔ k < cnt b p := by
  constructor
  · intro hep
    have := cnt_lt_of_set h.1 hep
    rwa [h.2] at this
  · intro hk
    by_contra hep
    have := cnt_mono (b := b) (not_lt.mp hep)
    rw [h.2] at this
    omega

/-- Setting a bit. -/
lemma cnt_set (h : b q = false) (n : ℕ) :
    cnt (Function.update b q true) n = cnt b n + if q < n then 1 else 0 := by
  induction n with
  | zero => rfl
  | succ n ih =>
    rw [cnt_succ, ih, cnt_succ]
    by_cases hq : n = q
    · subst hq
      simp [h]
    · rw [Function.update_of_ne hq]
      by_cases hlt : q < n
      · simp [hlt, show q < n + 1 by omega]
        omega
      · simp [hlt, show ¬ q < n + 1 by omega]

/-- Clearing a bit. -/
lemma cnt_clear (h : b q = true) (n : ℕ) :
    cnt (Function.update b q false) n + (if q < n then 1 else 0) = cnt b n := by
  have hset := cnt_set (b := Function.update b q false) (q := q) (Function.update_self ..) n
  rw [Function.update_idem, Function.update_eq_self_iff.mpr h.symm] at hset
  exact hset.symm

/-- An array with a place opened at `s`: what was from there up to `n` moves up by one, over what
was at `n`. -/
def openAt {α : Type*} (x : ℕ → α) (s n : ℕ) (v : α) : ℕ → α := fun p =>
  if p < s then x p else if p = s then v else if p ≤ n then x (p - 1) else x p

section OpenAt

variable {α : Type*} {x : ℕ → α} {v : α}

/-- Below the opened place nothing changes. -/
lemma openAt_of_lt (h : p < s) : openAt x s n v p = x p := if_pos h

/-- The opened place holds the new value. -/
lemma openAt_self : openAt x s n v s = v := by simp [openAt]

/-- Up to the gap the values move up by one place. -/
lemma openAt_succ (h : s ≤ p) (hp : p < n) : openAt x s n v (p + 1) = x p := by
  simp [openAt, show ¬ p + 1 < s by omega, show p + 1 ≠ s by omega, show p + 1 ≤ n by omega]

/-- Behind the gap nothing changes. -/
lemma openAt_of_gt (hs : s ≤ n) (h : n < p) : openAt x s n v p = x p := by
  simp [openAt, show ¬ p < s by omega, show p ≠ s by omega, show ¬ p ≤ n by omega]

/-- The places of an array that was opened at `s`. -/
lemma openAt_cases (s n p : ℕ) : p < s ∨ p = s ∨ (∃ p', p = p' + 1 ∧ s ≤ p' ∧ p' < n) ∨
    (s < p ∧ n < p) := by
  rcases Nat.lt_trichotomy p s with h | h | h
  · exact .inl h
  · exact .inr (.inl h)
  · by_cases hn : p ≤ n
    · exact .inr (.inr (.inl ⟨p - 1, by omega, by omega, by omega⟩))
    · exact .inr (.inr (.inr ⟨h, by omega⟩))

/-- Opening a place without moving anything. -/
lemma openAt_eq_self (h : x s = v) : openAt x s s v = x := by
  funext p
  rcases openAt_cases s s p with hps | rfl | ⟨p, rfl, h1, h2⟩ | ⟨h1, h2⟩
  · exact openAt_of_lt hps
  · rw [openAt_self, h]
  · omega
  · exact openAt_of_gt le_rfl h2

/-- Opening an array in two steps. -/
lemma openAt_update {u : α} (k : ℕ) :
    openAt (Function.update (Function.update x (s + k + 1) (x (s + k))) (s + k) u) s (s + k) v =
      openAt x s (s + k + 1) v := by
  funext p
  rcases openAt_cases s (s + k) p with hps | rfl | ⟨p, rfl, h1, h2⟩ | ⟨h1, h2⟩
  · rw [openAt_of_lt hps, openAt_of_lt hps, Function.update_of_ne (by omega),
      Function.update_of_ne (by omega)]
  · rw [openAt_self, openAt_self]
  · rw [openAt_succ h1 h2, openAt_succ h1 (by omega), Function.update_of_ne (by omega),
      Function.update_of_ne (by omega)]
  · rw [openAt_of_gt (by omega) h2, Function.update_of_ne (by omega)]
    by_cases hp : p = s + k + 1
    · subst hp
      rw [Function.update_self, openAt_succ (by omega) (by omega)]
    · rw [Function.update_of_ne hp, openAt_of_gt (by omega) (by omega)]

/-- Opening with another value at the opened place. -/
lemma update_openAt {u : α} :
    Function.update (openAt x s n u) s v = openAt x s n v := by
  funext p
  by_cases hp : p = s
  · rw [hp, Function.update_self, openAt_self]
  · rw [Function.update_of_ne hp]
    simp [openAt, hp]

end OpenAt

/-- The counts below an opened place. -/
lemma cnt_openAt_of_le {v : Bool} (h : p ≤ s) : cnt (openAt b s n v) p = cnt b p :=
  cnt_congr fun _ hi => openAt_of_lt (by omega)

/-- The counts in the part that moved up. -/
lemma cnt_openAt_succ {v : Bool} (h : s ≤ p) (hp : p ≤ n) :
    cnt (openAt b s n v) (p + 1) = cnt b p + if v = true then 1 else 0 := by
  induction p, h using Nat.le_induction with
  | base => rw [cnt_succ, cnt_openAt_of_le le_rfl, openAt_self]
  | succ p h ih =>
    rw [cnt_succ, ih (by omega), openAt_succ h (by omega), cnt_succ]
    omega

/-- The counts behind the place that was filled, if it was clear. -/
lemma cnt_openAt_of_gt {v : Bool} (hs : s ≤ n) (hn : b n = false) (h : n < p) :
    cnt (openAt b s n v) p = cnt b p + if v = true then 1 else 0 := by
  induction p, (show n + 1 ≤ p from h) using Nat.le_induction with
  | base => rw [cnt_openAt_succ hs le_rfl, cnt_succ_of_clear hn]
  | succ p h ih =>
    rw [cnt_succ, ih (by omega), openAt_of_gt hs (by omega), cnt_succ]
    omega

/-- An array with the place `s` closed: what was behind it up to `n` moves down by one, over what
was at `s`. -/
def closeAt {α : Type*} (x : ℕ → α) (s n : ℕ) (v : α) : ℕ → α := fun p =>
  if p < s then x p else if p < n then x (p + 1) else if p = n then v else x p

/-- The counts behind a place that was closed. -/
lemma cnt_closeAt_of_gt (hs : s ≤ n) (h : n < p) :
    cnt (closeAt b s n false) p + (if b s = true then 1 else 0) = cnt b p := by
  have hback : openAt (closeAt b s n false) s n (b s) = b := by
    funext i
    unfold openAt closeAt
    by_cases h1 : i < s
    · simp [h1]
    · by_cases h2 : i = s
      · simp [h2]
      · by_cases h3 : i ≤ n
        · simp [h1, h2, h3, show ¬ i - 1 < s by omega, show i - 1 < n by omega,
            show i - 1 + 1 = i by omega]
        · simp [h1, h2, h3, show ¬ i < n by omega, show i ≠ n by omega]
  have hn : closeAt b s n false n = false := by
    simp [closeAt, show ¬ n < s by omega]
  have := cnt_openAt_of_gt (v := b s) hs hn h
  rw [hback] at this
  exact this.symm

/-! ## Binary search -/

/-- `while (lo < hi) { mid = lo + (hi - lo) / 2; if (test) hi = mid; else lo = mid + 1; }`, at most
`fuel` times. -/
def lowerBound (test : ℕ → Bool) : ℕ → ℕ → ℕ → ℕ
  | 0, lo, _ => lo
  | fuel + 1, lo, hi =>
    if lo < hi then
      if test (lo + (hi - lo) / 2) then lowerBound test fuel lo (lo + (hi - lo) / 2)
      else lowerBound test fuel (lo + (hi - lo) / 2 + 1) hi
    else lo

/-- The search finds the first place at which a monotone test holds, if there is one. -/
lemma lowerBound_eq {test : ℕ → Bool} {r : ℕ} (hlow : ∀ i < r, test i = false) : ∀ {fuel lo hi : ℕ},
    (∀ i, r ≤ i → i < hi → test i = true) → lo ≤ r → r ≤ hi → hi ≤ lo + fuel →
    lowerBound test fuel lo hi = r
  | 0, lo, hi, _, h1, h2, h3 => by
    rw [lowerBound]
    omega
  | fuel + 1, lo, hi, hhigh, h1, h2, h3 => by
    rw [lowerBound]
    split_ifs with hlt hmid
    · refine lowerBound_eq hlow (fun i h h' => hhigh i h (by omega)) h1 ?_ (by omega)
      by_contra hr
      rw [hlow _ (not_le.mp hr)] at hmid
      cases hmid
    · refine lowerBound_eq hlow hhigh ?_ h2 (by omega)
      by_contra hr
      exact hmid (hhigh _ (by omega) (by omega))
    · omega

end Draugr.Lib
