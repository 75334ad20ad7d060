import Mathlib.Data.Nat.Bitwise
import Mathlib.Tactic.IntervalCases

/-!
# The bytes of a word

A 64-bit word is the number that its eight bytes stand for. Taking one from every byte is one
subtraction of words: a byte that cannot pay borrows from the next one (`borrow`), and
`byteAt_sub_ones` says what becomes of each byte.
-/

namespace Draugr.Lib

/-- The byte `i` of a word. -/
def byteAt (x : BitVec 64) (i : ℕ) : ℕ := x.toNat / 2 ^ (8 * i) % 2 ^ 8

/-- The number with the bytes `d 0, .., d (n - 1)`. -/
def ofBytes (d : ℕ → ℕ) : ℕ → ℕ
  | 0 => 0
  | n + 1 => ofBytes d n + d n * 2 ^ (8 * n)

/-- What byte `i` owes to the bytes before it when each of them pays one. -/
def borrow (d : ℕ → ℕ) : ℕ → ℕ
  | 0 => 0
  | i + 1 => if d i < 1 + borrow d i then 1 else 0

variable {d e : ℕ → ℕ} {x y : BitVec 64} {n i : ℕ}

/-- A byte is below 256. -/
lemma byteAt_lt (x : BitVec 64) (i : ℕ) : byteAt x i < 2 ^ 8 := Nat.mod_lt _ (by decide)

/-- The weight of the next byte. -/
lemma pow_byte (n : ℕ) : 2 ^ (8 * (n + 1)) = 256 * 2 ^ (8 * n) := by
  rw [Nat.mul_succ, Nat.pow_add, Nat.mul_comm]

/-! ## Numbers and their bytes -/

/-- `n` bytes are a number below `256 ^ n`. -/
lemma ofBytes_lt (hd : ∀ i, d i < 2 ^ 8) (n : ℕ) : ofBytes d n < 2 ^ (8 * n) := by
  induction n with
  | zero => exact Nat.one_pos
  | succ n ih =>
    have hle := Nat.mul_le_mul_right (2 ^ (8 * n)) (Nat.le_of_lt_succ (hd n))
    rw [ofBytes, pow_byte]
    omega

/-- The bytes of a number are those that it is made of. -/
lemma ofBytes_byte (hd : ∀ i, d i < 2 ^ 8) (hi : i < n) :
    ofBytes d n / 2 ^ (8 * i) % 2 ^ 8 = d i := by
  induction n with
  | zero => cases hi
  | succ n ih =>
    rw [ofBytes]
    rcases Nat.lt_succ_iff_lt_or_eq.mp hi with hlt | rfl
    · have hpow : d n * 2 ^ (8 * n) = 2 ^ (8 * i) * (2 ^ 8 * (d n * 2 ^ (8 * (n - i - 1)))) := by
        rw [show 8 * n = 8 * i + (8 + 8 * (n - i - 1)) by omega, Nat.pow_add, Nat.pow_add]
        ac_rfl
      rw [hpow, Nat.add_mul_div_left _ _ (Nat.two_pow_pos _), Nat.add_mul_mod_self_left]
      exact ih hlt
    · rw [Nat.add_mul_div_right _ _ (Nat.two_pow_pos _), Nat.div_eq_of_lt (ofBytes_lt hd i),
        Nat.zero_add, Nat.mod_eq_of_lt (hd i)]

/-- A number is made of its bytes. -/
lemma ofBytes_digits (x n : ℕ) :
    ofBytes (fun i => x / 2 ^ (8 * i) % 2 ^ 8) n = x % 2 ^ (8 * n) := by
  induction n with
  | zero => rw [ofBytes, Nat.mul_zero, Nat.pow_zero, Nat.mod_one]
  | succ n ih =>
    rw [ofBytes, ih, Nat.mul_succ, Nat.pow_add, Nat.mod_mul, Nat.mul_comm (2 ^ (8 * n))]

/-- A word is the number of its bytes. -/
lemma ofBytes_byteAt (x : BitVec 64) : ofBytes (byteAt x) 8 = x.toNat :=
  (ofBytes_digits x.toNat 8).trans (Nat.mod_eq_of_lt x.isLt)

/-- The bytes of a word that is given by its number. -/
lemma byteAt_of_toNat (hd : ∀ i, d i < 2 ^ 8) (hx : x.toNat = ofBytes d 8) (hi : i < 8) :
    byteAt x i = d i := by
  rw [byteAt, hx]
  exact ofBytes_byte hd hi

/-- The bits of a byte. -/
lemma getLsbD_byte (x : BitVec 64) (i : ℕ) {j : ℕ} (hj : j < 8) :
    x.getLsbD (8 * i + j) = (byteAt x i).testBit j := by
  rw [byteAt, Nat.testBit_mod_two_pow, Nat.testBit_div_two_pow, decide_eq_true hj, Bool.true_and,
    Nat.add_comm]
  rfl

/-- The bytes of an exclusive or. -/
lemma byteAt_xor (x y : BitVec 64) (i : ℕ) : byteAt (x ^^^ y) i = byteAt x i ^^^ byteAt y i := by
  rw [byteAt, BitVec.toNat_xor, Nat.xor_div_two_pow, Nat.xor_mod_two_pow]
  rfl

/-! ## The same byte everywhere -/

/-- Multiplying the ones by a byte puts it everywhere. -/
lemma toNat_ones_mul (p : BitVec 8) :
    (0x0101010101010101#64 * p.setWidth 64).toNat = ofBytes (fun _ => p.toNat) 8 := by
  have hp := p.isLt
  rw [BitVec.toNat_mul, BitVec.toNat_setWidth, Nat.mod_eq_of_lt (by omega : p.toNat < 2 ^ 64),
    show (0x0101010101010101#64).toNat = 72340172838076673 from rfl]
  simp only [ofBytes]
  omega

/-- A byte that is repeated. -/
lemma byteAt_ones_mul (p : BitVec 8) (hi : i < 8) :
    byteAt (0x0101010101010101#64 * p.setWidth 64) i = p.toNat :=
  byteAt_of_toNat (fun _ => p.isLt) (toNat_ones_mul p) hi

/-! ## Taking one from every byte -/

/-- A borrow is 0 or 1. -/
lemma borrow_le (d : ℕ → ℕ) (i : ℕ) : borrow d i ≤ 1 := by
  cases i with
  | zero => exact Nat.zero_le 1
  | succ i =>
    rw [borrow]
    split <;> omega

/-- Nothing is borrowed from a byte when all before it can pay. -/
lemma borrow_eq_zero (h : ∀ j < i, d j ≠ 0) : borrow d i = 0 := by
  induction i with
  | zero => rfl
  | succ i ih =>
    have hpos := Nat.pos_of_ne_zero (h i (Nat.lt_succ_self i))
    rw [borrow, ih fun j hj => h j (hj.trans (Nat.lt_succ_self i)), if_neg (not_lt.mpr hpos)]

/-- A borrow depends on the bytes below only. -/
lemma borrow_congr (h : ∀ j < i, d j = e j) : borrow d i = borrow e i := by
  induction i with
  | zero => rfl
  | succ i ih =>
    rw [borrow, borrow, h i (Nat.lt_succ_self i),
      ih fun j hj => h j (hj.trans (Nat.lt_succ_self i))]

/-- What becomes of a byte. -/
def paid (d : ℕ → ℕ) (i : ℕ) : ℕ := (d i + 255 - borrow d i) % 2 ^ 8

/-- A byte after its borrow was paid. -/
lemma paid_lt (d : ℕ → ℕ) (i : ℕ) : paid d i < 2 ^ 8 := Nat.mod_lt _ (by decide)

/-- The subtraction, carried out from byte to byte. -/
lemma ofBytes_sub_ones (hd : ∀ i, d i < 2 ^ 8) (n : ℕ) :
    ofBytes d n + borrow d n * 2 ^ (8 * n) = ofBytes (fun _ => 1) n + ofBytes (paid d) n := by
  induction n with
  | zero => rfl
  | succ n ih =>
    have hb := borrow_le d n
    have hlt := hd n
    have hbyte : d n + borrow d (n + 1) * 256 = 1 + borrow d n + paid d n := by
      rw [borrow, paid]
      split <;> omega
    have hscaled := congrArg (· * 2 ^ (8 * n)) hbyte
    simp only [Nat.add_mul, Nat.mul_assoc] at hscaled
    rw [ofBytes, ofBytes, ofBytes, pow_byte]
    omega

/-- Taking the ones from a word takes one from every byte. -/
lemma byteAt_sub_ones (x : BitVec 64) (hi : i < 8) :
    byteAt (x - 0x0101010101010101#64) i = paid (byteAt x) i := by
  refine byteAt_of_toNat (paid_lt _) ?_ hi
  have hsub := ofBytes_sub_ones (byteAt_lt x) 8
  have hlt := ofBytes_lt (paid_lt (byteAt x)) 8
  have hb := borrow_le (byteAt x) 8
  have hx := x.isLt
  rw [ofBytes_byteAt, show ofBytes (fun _ => 1) 8 = 72340172838076673 from rfl] at hsub
  rw [BitVec.toNat_sub, show (0x0101010101010101#64).toNat = 72340172838076673 from rfl]
  omega

end Draugr.Lib
