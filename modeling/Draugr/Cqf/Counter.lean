import Mathlib.Data.Nat.Digits.Lemmas
import Mathlib.Tactic.Ring
import Draugr.Cqf.Defs

/-!
# Encoding a count

The symbols that `cqf_encode` writes for a count `C` of a remainder `x`: the digits of `C - 3` in
base `2 ^ rbits - 2` (in base `2 ^ rbits - 1` for the remainder `0`), shifted past `0` and `x`.
`decode_count` recovers the count from them if every digit is an `int`, which is so for every count
of a width below 32 (`Countable`). A greater count never has fewer symbols (`cqfEncSlots_le_succ`).
-/

namespace Draugr.Cqf

/-- The digits of a number, the least significant first; `0` has one digit. -/
def valDigits (base v : ℕ) : List ℕ := if v = 0 then [0] else Nat.digits base v

variable {rbits x d v C base n : ℕ} {ds : List ℕ}

/-! ## Digits -/

/-- A number as an `int`: a great one is negative. -/
lemma toInt_eq (h : d < 2 ^ 32) : toInt d = if d < 2 ^ 31 then (d : ℤ) else (d : ℤ) - 2 ^ 32 := by
  unfold toInt
  generalize hm : 2 ^ 32 = m at h ⊢
  have hd : (d : ℤ) % m = d := Int.emod_eq_of_lt (by omega) (by omega)
  rw [Int.bmod_def, hd]
  split_ifs <;> omega

/-- A number as an `int`, and back as a `uint64_t`. -/
lemma ofInt_toInt (h : d < 2 ^ 32) :
    ofInt (toInt d) = if d < 2 ^ 31 then d else 2 ^ 64 - 2 ^ 32 + d := by
  rw [toInt_eq h, ofInt]
  split_ifs <;> omega

/-- A sum of `int`s is the sum as an `int`. -/
lemma addInt_toInt (d k : ℕ) : addInt (toInt d) k = toInt (d + k) := by
  unfold addInt toInt
  generalize 2 ^ 32 = m
  rw [Int.bmod_add_bmod, Nat.cast_add]

/-- The symbol of a digit of the remainder `0` is the next number as an `int`. -/
lemma zeroSymbol_toInt (d : ℕ) : zeroSymbol d = ofInt (toInt (d + 1)) := by
  rw [zeroSymbol, ← addInt_toInt]
  rfl

/-- The symbol of a digit of a remainder `x > 0` is one of the next two numbers as an `int`. -/
lemma symbol_toInt (x d : ℕ) :
    symbol x d = if ofInt (toInt d) < x - 1 then ofInt (toInt (d + 1))
      else ofInt (toInt (d + 2)) := by
  rw [symbol, ← addInt_toInt, ← addInt_toInt]
  rfl

/-- The symbol of a digit of the remainder `0`, where the sum is an `int`. -/
lemma zeroSymbol_eq (h : d + 1 < 2 ^ 31) : zeroSymbol d = d + 1 := by
  rw [zeroSymbol_toInt, ofInt_toInt (by omega), if_pos h]

/-- The symbol of a digit of a remainder `x > 0`, where the sum is an `int`. -/
lemma symbol_eq (h : d + (if d < x - 1 then 1 else 2) < 2 ^ 31) :
    symbol x d = if d < x - 1 then d + 1 else d + 2 := by
  have hd : ofInt (toInt d) = d := by
    rw [ofInt_toInt (by omega), if_pos (by omega)]
  rw [symbol_toInt, hd]
  split_ifs at h ⊢
  · rw [ofInt_toInt (by omega), if_pos h]
  · rw [ofInt_toInt (by omega), if_pos h]

/-- The loop of the encoder writes the digits. -/
lemma encDigits_eq (hb : 2 ≤ base) : ∀ {n v : ℕ}, v < 2 ^ n → encDigits base n v = Nat.digits base v
  | 0, v, h => by
    rw [pow_zero, Nat.lt_one_iff] at h
    subst h
    rw [Nat.digits_zero]
    rfl
  | n + 1, v, h => by
    rw [encDigits]
    split
    · next h0 =>
      subst h0
      rw [Nat.digits_zero]
    · next h0 =>
      rw [Nat.digits_def' hb (Nat.pos_of_ne_zero h0), encDigits_eq hb]
      rw [Nat.div_lt_iff_lt_mul (by omega)]
      calc v < 2 ^ n * 2 := by rw [← pow_succ]; exact h
        _ ≤ 2 ^ n * base := Nat.mul_le_mul_left _ hb

/-- There is a digit. -/
lemma valDigits_ne_nil (base v : ℕ) : valDigits base v ≠ [] := by
  rw [valDigits]
  split
  · exact List.cons_ne_nil _ _
  · next h0 => exact Nat.digits_ne_nil_iff_ne_zero.mpr h0

/-- The digits are below the base. -/
lemma valDigits_lt (hb : 2 ≤ base) (hd : d ∈ valDigits base v) : d < base := by
  rw [valDigits] at hd
  split at hd
  · rw [List.mem_singleton] at hd
    omega
  · exact Nat.digits_lt_base hb hd

/-- The digits denote the number. -/
lemma ofDigits_valDigits (base v : ℕ) : Nat.ofDigits base (valDigits base v) = v := by
  rw [valDigits]
  split
  · next h0 =>
    subst h0
    rw [Nat.ofDigits_singleton]
  · exact Nat.ofDigits_digits _ _

/-- A 64-bit number has at most 64 digits. -/
lemma length_valDigits_le (hb : 2 ≤ base) (hv : v < 2 ^ 64) : (valDigits base v).length ≤ 64 := by
  rw [valDigits]
  split
  · norm_num
  · rw [Nat.digits_length_le_iff hb]
    exact hv.trans_le (Nat.pow_le_pow_left hb 64)

/-- The evaluation of digits, with and without the cut to 64 bits. -/
lemma foldl_mod (base : ℕ) : ∀ (ds : List ℕ) (a : ℕ),
    ds.foldl (fun val d => (val * base + d) % 2 ^ 64) (a % 2 ^ 64) =
    ds.foldl (fun val d => val * base + d) a % 2 ^ 64
  | [], a => rfl
  | d :: ds, a => by
    rw [List.foldl_cons, List.foldl_cons, ← foldl_mod base ds]
    rw [Nat.add_mod, Nat.mod_mul_mod, ← Nat.add_mod]

/-- The value of digits. -/
lemma evalDigits_eq (base : ℕ) (ds : List ℕ) :
    evalDigits base ds = Nat.ofDigits base ds.reverse % 2 ^ 64 := by
  have h := foldl_mod base ds 0
  rw [Nat.zero_mod] at h
  rw [evalDigits, h, Nat.ofDigits_eq_foldr, List.foldr_reverse]
  congr 2
  funext val d
  rw [Nat.cast_id, Nat.mul_comm, Nat.add_comm]

/-- Leading zeros do not count. -/
lemma evalDigits_zero_cons (base : ℕ) (ds : List ℕ) :
    evalDigits base (0 :: ds) = evalDigits base ds := by
  rw [evalDigits, List.foldl_cons, Nat.zero_mul, Nat.zero_add, Nat.zero_mod, evalDigits]

/-! ## The symbols of a remainder above zero -/

/-- The symbols without a zero before them. -/
def coreSymbols (rbits x C : ℕ) : List ℕ :=
  ((valDigits (2 ^ rbits - 2) (C - 3)).map fun d => if d < x - 1 then d + 1 else d + 2).reverse

/-- The widths of this development. -/
structure Width (rbits : ℕ) : Prop where
  two_le : 2 ≤ rbits
  le : rbits ≤ 32

/-- What is added to a digit for its symbol. -/
def shift (x d : ℕ) : ℕ := if x = 0 ∨ d < x - 1 then 1 else 2

/-- A count of this development: the symbols of its digits are `int`s. -/
structure Countable (rbits x C : ℕ) : Prop where
  lt : C < 2 ^ 64
  digits : ∀ d ∈ valDigits (2 ^ rbits - if x = 0 then 1 else 2) (C - 3), d + shift x d < 2 ^ 31

instance (rbits x C : ℕ) : Decidable (Countable rbits x C) :=
  decidable_of_iff (C < 2 ^ 64 ∧
      ∀ d ∈ valDigits (2 ^ rbits - if x = 0 then 1 else 2) (C - 3), d + shift x d < 2 ^ 31)
    ⟨fun h => ⟨h.1, h.2⟩, fun h => ⟨h.lt, h.digits⟩⟩

/-- The shift of a digit of a remainder `x > 0`. -/
lemma shift_of_ne (hx : x ≠ 0) (d : ℕ) : shift x d = if d < x - 1 then 1 else 2 :=
  if_congr (or_iff_right hx) rfl rfl

/-- There are at most `2 ^ 32` remainders. -/
lemma Width.pow_le (hw : Width rbits) : 2 ^ rbits ≤ 2 ^ 32 := Nat.pow_le_pow_right Nat.two_pos hw.le

/-- There are at least four remainders. -/
lemma Width.four_le (hw : Width rbits) : 4 ≤ 2 ^ rbits := Nat.pow_le_pow_right Nat.two_pos hw.two_le

/-- Below width 32 every count is one. -/
lemma Countable.of_le (h : 2 ≤ rbits) (h' : rbits ≤ 31) (hC : C < 2 ^ 64) :
    Countable rbits x C := by
  refine ⟨hC, fun d hd => ?_⟩
  have h4 : 4 ≤ 2 ^ rbits := Nat.pow_le_pow_right Nat.two_pos h
  have hle : 2 ^ rbits ≤ 2 ^ 31 := Nat.pow_le_pow_right Nat.two_pos h'
  have hlt := valDigits_lt (by split_ifs <;> omega) hd
  rw [shift]
  split_ifs at hlt ⊢ <;> omega

/-- A count has fewer digits than the buffer has places. -/
lemma sub_lt_encBuf (hC : C < 2 ^ 64) : C - 3 < 2 ^ encBuf :=
  (Nat.sub_le _ _).trans_lt (hC.trans_le (Nat.pow_le_pow_right Nat.two_pos (by decide)))

/-- The symbols are those of the digits. -/
lemma encodeDigits_eq (hw : Width rbits) (hx : x ≠ 0) (hC : Countable rbits x C) :
    encodeDigits C x rbits encBuf = coreSymbols rbits x C := by
  have h4 := hw.four_le
  have hd := hC.digits
  rw [if_neg hx, valDigits] at hd
  rw [encodeDigits, coreSymbols, valDigits]
  split
  · rfl
  · next h0 =>
    have he : encDigits (2 ^ rbits - 2) encBuf (C - 3) = Nat.digits (2 ^ rbits - 2) (C - 3) :=
      encDigits_eq (by omega) (sub_lt_encBuf hC.lt)
    rw [if_neg h0] at hd
    rw [he]
    refine congrArg List.reverse (List.map_congr_left fun d hmem => symbol_eq ?_)
    rw [← shift_of_ne hx]
    exact hd d hmem

/-- What the symbols of a remainder are not. -/
lemma mem_coreSymbols (hw : Width rbits) {s : ℕ} (hs : s ∈ coreSymbols rbits x C) :
    s ≠ 0 ∧ s ≠ x ∧ s < 2 ^ rbits := by
  have h4 := hw.four_le
  rw [coreSymbols, List.mem_reverse, List.mem_map] at hs
  obtain ⟨d, hd, rfl⟩ := hs
  have hlt := valDigits_lt (by omega) hd
  split <;> omega

/-- A smaller remainder is a symbol when its digit occurs. -/
lemma mem_coreSymbols_iff {y : ℕ} (hx : x ≠ 0) (hxy : x < y) :
    x ∈ coreSymbols rbits y C ↔ x - 1 ∈ valDigits (2 ^ rbits - 2) (C - 3) := by
  rw [coreSymbols, List.mem_reverse, List.mem_map]
  constructor
  · rintro ⟨d, hd, he⟩
    split at he
    · rw [← he]
      exact hd
    · omega
  · intro hd
    refine ⟨x - 1, hd, ?_⟩
    rw [if_pos (by omega)]
    omega

/-- There is a symbol. -/
lemma coreSymbols_ne_nil (rbits x C : ℕ) : coreSymbols rbits x C ≠ [] := by
  rw [coreSymbols, Ne, List.reverse_eq_nil_iff, List.map_eq_nil_iff]
  exact valDigits_ne_nil _ _

/-- There are at most 64 symbols. -/
lemma length_coreSymbols_le (hw : Width rbits) (hC : C < 2 ^ 64) (x : ℕ) :
    (coreSymbols rbits x C).length ≤ 64 := by
  have h4 := hw.four_le
  rw [coreSymbols, List.length_reverse, List.length_map]
  exact length_valDigits_le (by omega) ((Nat.sub_le _ _).trans_lt hC)

/-- The symbols of a remainder above zero: those of the digits, perhaps after a zero. -/
lemma cqfEncode_eq (hw : Width rbits) (hx : x ≠ 0) (hC : 3 ≤ C) (hC' : Countable rbits x C) :
    cqfEncode C x rbits = coreSymbols rbits x C ∨
      cqfEncode C x rbits = 0 :: coreSymbols rbits x C := by
  have hlen := length_coreSymbols_le hw hC'.lt x
  rw [cqfEncode, if_neg (by omega), if_neg hx, encodeDigits_eq hw hx hC']
  cases hs : coreSymbols rbits x C with
  | nil => exact absurd hs (coreSymbols_ne_nil rbits x C)
  | cons s rest =>
    rw [hs] at hlen
    simp only [prependZero]
    rw [if_neg (by rw [encBuf]; omega : ¬ encBuf ≤ (s :: rest).length)]
    split
    · exact .inr rfl
    · exact .inl rfl

/-- The digit of a symbol. -/
lemma digitOf_symbol (x d : ℕ) : digitOf x (if d < x - 1 then d + 1 else d + 2) = d := by
  by_cases h : d < x - 1
  · rw [if_pos h, digitOf, if_neg (Nat.succ_ne_zero d), if_pos (by omega)]
    rfl
  · rw [if_neg h, digitOf, if_neg (Nat.succ_ne_zero _), if_neg (by omega)]
    rfl

/-- The digits of the symbols. -/
lemma map_digitOf_coreSymbols (rbits x C : ℕ) :
    (coreSymbols rbits x C).map (digitOf x) = (valDigits (2 ^ rbits - 2) (C - 3)).reverse := by
  rw [coreSymbols, ← List.map_reverse, List.map_map]
  refine (List.map_congr_left fun d _ => ?_).trans (List.map_id _)
  exact digitOf_symbol x d

/-- The count is recovered from its symbols. -/
lemma decodeCount_cqfEncode (hw : Width rbits) (hx : x ≠ 0) (hC : 3 ≤ C)
    (hC' : Countable rbits x C) :
    decodeCount ((cqfEncode C x rbits).take encBuf) x rbits = C := by
  have hlen := length_coreSymbols_le hw hC'.lt x
  have heval : evalDigits (2 ^ rbits - 2) ((cqfEncode C x rbits).map (digitOf x)) = C - 3 := by
    have hcore : evalDigits (2 ^ rbits - 2) ((coreSymbols rbits x C).map (digitOf x)) = C - 3 := by
      rw [map_digitOf_coreSymbols, evalDigits_eq, List.reverse_reverse, ofDigits_valDigits]
      exact Nat.mod_eq_of_lt ((Nat.sub_le _ _).trans_lt hC'.lt)
    rcases cqfEncode_eq hw hx hC hC' with he | he
    · rw [he, hcore]
    · rw [he, List.map_cons]
      exact (evalDigits_zero_cons _ _).trans hcore
  have hne : cqfEncode C x rbits ≠ [] := by
    rcases cqfEncode_eq hw hx hC hC' with he | he
    · rw [he]
      exact coreSymbols_ne_nil rbits x C
    · rw [he]
      exact List.cons_ne_nil _ _
  have htake : (cqfEncode C x rbits).take encBuf = cqfEncode C x rbits := by
    refine List.take_of_length_le ?_
    rcases cqfEncode_eq hw hx hC hC' with he | he
    · rw [he, encBuf]
      omega
    · rw [he, List.length_cons, encBuf]
      omega
  rw [htake, decodeCount, if_neg (by rwa [List.length_eq_zero_iff]), if_neg hx, heval]
  rw [Nat.sub_add_cancel hC]
  exact Nat.mod_eq_of_lt hC'.lt

/-! ## The symbols of the remainder zero -/

/-- The symbols of the remainder `0`. -/
lemma cqfEncode_zero_eq (hw : Width rbits) (hC : 3 ≤ C) (hC' : Countable rbits 0 C) :
    cqfEncode C 0 rbits = ((valDigits (2 ^ rbits - 1) (C - 3)).map (· + 1)).reverse := by
  have h4 := hw.four_le
  have hd := hC'.digits
  rw [if_pos rfl, valDigits] at hd
  rw [cqfEncode, if_neg (by omega), if_pos rfl, encodeZero, valDigits]
  split
  · rfl
  · next h0 =>
    have he : encDigits (2 ^ rbits - 1) encBuf (C - 3) = Nat.digits (2 ^ rbits - 1) (C - 3) :=
      encDigits_eq (by omega) (sub_lt_encBuf hC'.lt)
    rw [if_neg h0] at hd
    rw [he]
    exact congrArg List.reverse (List.map_congr_left fun d hmem => zeroSymbol_eq (hd d hmem))

/-- What the symbols of the remainder `0` are not. -/
lemma mem_cqfEncode_zero (hw : Width rbits) (hC : 3 ≤ C) (hC' : Countable rbits 0 C) {s : ℕ}
    (hs : s ∈ cqfEncode C 0 rbits) :
    s ≠ 0 ∧ s < 2 ^ rbits := by
  have h4 := hw.four_le
  rw [cqfEncode_zero_eq hw hC hC', List.mem_reverse, List.mem_map] at hs
  obtain ⟨d, hd, rfl⟩ := hs
  have hlt := valDigits_lt (by omega) hd
  omega

/-- There is a symbol. -/
lemma cqfEncode_zero_ne_nil (hw : Width rbits) (hC : 3 ≤ C) (hC' : Countable rbits 0 C) :
    cqfEncode C 0 rbits ≠ [] := by
  rw [cqfEncode_zero_eq hw hC hC', Ne, List.reverse_eq_nil_iff, List.map_eq_nil_iff]
  exact valDigits_ne_nil _ _

/-- The symbol of a digit minus one, in 64 bits. -/
lemma wrap_pred (h : d < 2 ^ 63) : (d + 1 + (2 ^ 64 - 1)) % 2 ^ 64 = d := by
  have he : d + 1 + (2 ^ 64 - 1) = d + 2 ^ 64 := by omega
  rw [he, Nat.add_mod_right]
  exact Nat.mod_eq_of_lt (h.trans (by norm_num))

/-- The digits of the symbols of the remainder `0`. -/
lemma map_pred_cqfEncode_zero (hw : Width rbits) (hC : 3 ≤ C) (hC' : Countable rbits 0 C) :
    ((cqfEncode C 0 rbits).map fun s => (s + (2 ^ 64 - 1)) % 2 ^ 64) =
      (valDigits (2 ^ rbits - 1) (C - 3)).reverse := by
  have h4 := hw.four_le
  have hd : ∀ d ∈ (valDigits (2 ^ rbits - 1) (C - 3)).reverse,
      (d + 1 + (2 ^ 64 - 1)) % 2 ^ 64 = d := by
    intro d hd
    have hlt := valDigits_lt (by omega) (List.mem_reverse.mp hd)
    exact wrap_pred ((hlt.trans_le (Nat.sub_le _ _)).trans_le (hw.pow_le.trans (by norm_num)))
  rw [cqfEncode_zero_eq hw hC hC', ← List.map_reverse, List.map_map]
  generalize (valDigits (2 ^ rbits - 1) (C - 3)).reverse = ds at hd
  induction ds with
  | nil => rfl
  | cons d ds ih =>
    rw [List.map_cons, ih fun e he => hd e (List.mem_cons_of_mem _ he), Function.comp_apply,
      hd d (List.mem_cons_self ..)]

/-- The count of the remainder `0` is recovered from its symbols. -/
lemma decodeCount_cqfEncode_zero (hw : Width rbits) (hC : 3 ≤ C) (hC' : Countable rbits 0 C) :
    decodeCount ((cqfEncode C 0 rbits).take encBuf) 0 rbits = C := by
  have h4 := hw.four_le
  have hlen : (cqfEncode C 0 rbits).length ≤ 64 := by
    rw [cqfEncode_zero_eq hw hC hC', List.length_reverse, List.length_map]
    exact length_valDigits_le (by omega) ((Nat.sub_le _ _).trans_lt hC'.lt)
  have hne : ¬ (cqfEncode C 0 rbits).length = 0 := by
    rw [List.length_eq_zero_iff]
    exact cqfEncode_zero_ne_nil hw hC hC'
  have heval : evalDigits (2 ^ rbits - 1) (valDigits (2 ^ rbits - 1) (C - 3)).reverse = C - 3 := by
    rw [evalDigits_eq, List.reverse_reverse, ofDigits_valDigits]
    exact Nat.mod_eq_of_lt ((Nat.sub_le _ _).trans_lt hC'.lt)
  rw [List.take_of_length_le (by rw [encBuf]; omega), decodeCount, if_neg hne, if_pos rfl,
    map_pred_cqfEncode_zero hw hC hC', heval, Nat.sub_add_cancel hC]
  exact Nat.mod_eq_of_lt hC'.lt

/-! ## The number of symbols -/

/-- The first of the digits of a number: the most significant one. -/
def topDigit (base v : ℕ) : ℕ := (valDigits base v).getLastD 0

/-- A value below the base is its only digit. -/
lemma valDigits_of_lt (h : v < base) : valDigits base v = [v] := by
  rw [valDigits]
  split_ifs with h0
  · rw [h0]
  · exact Nat.digits_of_lt base v h0 h

/-- The digits of a larger value. -/
lemma valDigits_of_le (hb : 2 ≤ base) (h : base ≤ v) :
    valDigits base v = v % base :: valDigits base (v / base) := by
  have hdiv : v / base ≠ 0 := (Nat.div_pos h (by omega)).ne'
  rw [valDigits, valDigits, if_neg (by omega), if_neg hdiv, Nat.digits_def' hb (by omega)]

/-- The top digit of a larger value is that of its quotient. -/
lemma topDigit_of_le (hb : 2 ≤ base) (h : base ≤ v) :
    topDigit base v = topDigit base (v / base) := by
  obtain ⟨d, ds, hds⟩ := List.exists_cons_of_ne_nil (valDigits_ne_nil base (v / base))
  rw [topDigit, topDigit, valDigits_of_le hb h, hds, List.getLastD_cons, List.getLastD_cons,
    List.getLastD_cons]

/-- A greater number has more digits, or as many with a first digit that is not smaller. -/
lemma valDigits_mono (hb : 2 ≤ base) : ∀ {v w : ℕ}, v ≤ w →
    (valDigits base v).length < (valDigits base w).length ∨
      (valDigits base v).length = (valDigits base w).length ∧
      topDigit base v ≤ topDigit base w := by
  intro v w
  induction w using Nat.strong_induction_on generalizing v with
  | _ w ih =>
    intro hvw
    by_cases hw : w < base
    · rw [topDigit, topDigit, valDigits_of_lt hw, valDigits_of_lt (by omega)]
      exact .inr ⟨rfl, hvw⟩
    · have hw' : base ≤ w := not_lt.mp hw
      rw [valDigits_of_le hb hw', topDigit_of_le hb hw']
      by_cases hv : v < base
      · refine .inl ?_
        rw [valDigits_of_lt hv, List.length_singleton, List.length_cons]
        exact Nat.succ_lt_succ (List.length_pos_of_ne_nil (valDigits_ne_nil _ _))
      · have hv' : base ≤ v := not_lt.mp hv
        rw [valDigits_of_le hb hv', topDigit_of_le hb hv', List.length_cons, List.length_cons]
        rcases ih (w / base) (Nat.div_lt_self (by omega) hb) (Nat.div_le_div_right hvw) with
          h | ⟨h1, h2⟩
        · exact .inl (Nat.succ_lt_succ h)
        · exact .inr ⟨congrArg Nat.succ h1, h2⟩

/-- When a zero is put before a first digit. A sum that is no `int` becomes a symbol of 64 bits. -/
lemma le_symbol_iff (hx : x < 2 ^ 32) (hd : d < 2 ^ 32 - 2) :
    x ≤ symbol x d ↔ x - 1 ≤ d ∨ 2 ^ 31 ≤ d + 1 := by
  rw [symbol_toInt, ofInt_toInt (by omega), ofInt_toInt (by omega), ofInt_toInt (by omega)]
  split_ifs <;> omega

/-- The symbol of the digit `0`. -/
lemma symbol_digit_zero (x : ℕ) : symbol x 0 = if 0 < x - 1 then 0 + 1 else 0 + 2 :=
  symbol_eq (by split_ifs <;> omega)

/-- The number of symbols of a remainder above zero. -/
lemma length_cqfEncode (hw : Width rbits) (hx : x ≠ 0) (hC : 3 ≤ C) (hC' : C < 2 ^ 64) :
    (cqfEncode C x rbits).length = (valDigits (2 ^ rbits - 2) (C - 3)).length +
      if x ≤ symbol x (topDigit (2 ^ rbits - 2) (C - 3)) then 1 else 0 := by
  have h4 := hw.four_le
  have henc :
      encodeDigits C x rbits encBuf =
        ((valDigits (2 ^ rbits - 2) (C - 3)).map (symbol x)).reverse := by
    rw [encodeDigits, valDigits]
    split_ifs with h0
    · rw [List.map_singleton, symbol_digit_zero x, List.reverse_singleton, if_pos ‹_›]
    · rw [List.map_singleton, symbol_digit_zero x, List.reverse_singleton, if_neg ‹_›]
    · rw [encDigits_eq (by omega) (sub_lt_encBuf hC')]
  have hlen := length_valDigits_le (v := C - 3) (show 2 ≤ 2 ^ rbits - 2 by omega) (by omega)
  rw [cqfEncode, if_neg (by omega), if_neg hx, henc, topDigit]
  obtain ⟨ds, d, hds⟩ :=
    List.eq_nil_or_concat (valDigits (2 ^ rbits - 2) (C - 3)) |>.resolve_left (valDigits_ne_nil _ _)
  rw [hds] at hlen ⊢
  simp only [List.concat_eq_append, List.length_append, List.length_singleton] at hlen
  simp only [List.concat_eq_append, List.map_append, List.map_singleton, List.reverse_append,
    List.reverse_singleton,
    List.singleton_append, prependZero, List.getLastD_concat, List.length_cons, List.length_reverse,
    List.length_map, List.length_append, List.length_nil]
  rw [if_neg (show ¬ encBuf ≤ ds.length + 1 by rw [encBuf]; omega)]
  split_ifs <;> simp

/-- The number of symbols of the remainder zero. -/
lemma length_cqfEncode_zero (hw : Width rbits) (hC : 3 ≤ C) (hC' : C < 2 ^ 64) :
    (cqfEncode C 0 rbits).length = (valDigits (2 ^ rbits - 1) (C - 3)).length := by
  have h4 := hw.four_le
  rw [cqfEncode, if_neg (by omega), if_pos rfl, encodeZero, valDigits]
  split_ifs with h0
  · rfl
  · rw [encDigits_eq (by omega) (sub_lt_encBuf hC'), List.length_reverse, List.length_map]

/-- One more occurrence never takes fewer slots. -/
lemma cqfEncSlots_le_succ (hw : Width rbits) (hx : x < 2 ^ rbits) (hC : C + 1 < 2 ^ 64) :
    cqfEncSlots C x rbits ≤ cqfEncSlots (C + 1) x rbits := by
  have h4 := hw.four_le
  have hpow := hw.pow_le
  rw [cqfEncSlots, cqfEncSlots]
  by_cases h1 : C ≤ 1
  · rw [if_pos h1]
    split_ifs <;> omega
  by_cases h2 : C = 2
  · rw [if_neg h1, if_pos h2, if_neg (show ¬ C + 1 ≤ 1 by omega),
      if_neg (show ¬ C + 1 = 2 by omega)]
    split_ifs <;> omega
  rw [if_neg h1, if_neg h2, if_neg (show ¬ C + 1 ≤ 1 by omega), if_neg (show ¬ C + 1 = 2 by omega)]
  by_cases hx0 : x = 0
  · subst hx0
    rw [if_pos rfl, if_pos rfl, length_cqfEncode_zero hw (by omega) (by omega),
      length_cqfEncode_zero hw (by omega) hC]
    have := (@valDigits_mono (2 ^ rbits - 1)) (by omega) (show C - 3 ≤ C + 1 - 3 by omega)
    omega
  · rw [if_neg hx0, if_neg hx0, length_cqfEncode hw hx0 (by omega) (by omega),
      length_cqfEncode hw hx0 (by omega) hC]
    have htop : ∀ v, topDigit (2 ^ rbits - 2) v < 2 ^ 32 - 2 := by
      intro v
      have hmem : topDigit (2 ^ rbits - 2) v ∈ valDigits (2 ^ rbits - 2) v := by
        rw [topDigit, List.getLastD_eq_getLast?,
          List.getLast?_eq_some_getLast (valDigits_ne_nil _ _)]
        exact List.getLast_mem _
      have := valDigits_lt (by omega) hmem
      omega
    simp only [le_symbol_iff (show x < 2 ^ 32 by omega) (htop _)]
    rcases (@valDigits_mono (2 ^ rbits - 2)) (by omega) (show C - 3 ≤ C + 1 - 3 by omega) with
      h | ⟨h, h'⟩
    · split_ifs <;> omega
    · split_ifs <;> omega

/-- The next number has at most one digit more. -/
lemma length_valDigits_succ_le (hb : 2 ≤ base) (v : ℕ) :
    (valDigits base (v + 1)).length ≤ (valDigits base v).length + 1 := by
  induction v using Nat.strong_induction_on with
  | _ v ih =>
    by_cases hv : v + 1 < base
    · rw [valDigits_of_lt hv, List.length_singleton]
      exact Nat.le_add_left ..
    · have hv' : base ≤ v + 1 := not_lt.mp hv
      rw [valDigits_of_le hb hv', List.length_cons, Nat.add_le_add_iff_right]
      by_cases hlt : v < base
      · rw [show v + 1 = base by omega, Nat.div_self (by omega), valDigits_of_lt (by omega),
          List.length_singleton]
        exact List.length_pos_of_ne_nil (valDigits_ne_nil _ _)
      · rw [valDigits_of_le hb (not_lt.mp hlt), List.length_cons]
        rw [Nat.succ_div]
        split
        · exact ih _ (Nat.div_lt_self (by omega) hb)
        · exact Nat.le_succ _

/-- One more occurrence takes at most four slots more. -/
lemma cqfEncSlots_succ_le (hw : Width rbits) (hC : C + 1 < 2 ^ 64) :
    cqfEncSlots (C + 1) x rbits ≤ cqfEncSlots C x rbits + 4 := by
  have h4 := hw.four_le
  rw [cqfEncSlots, cqfEncSlots]
  by_cases h1 : C ≤ 1
  · rw [if_pos h1]
    split_ifs <;> omega
  rw [if_neg h1, if_neg (show ¬ C + 1 ≤ 1 by omega), if_neg (show ¬ C + 1 = 2 by omega)]
  by_cases h2 : C = 2
  · subst h2
    have hone : ∀ base, (valDigits base (2 + 1 - 3)).length = 1 := fun _ => rfl
    rw [if_pos rfl]
    by_cases hx0 : x = 0
    · subst hx0
      rw [if_pos rfl, length_cqfEncode_zero hw le_rfl (by omega), hone]
      omega
    · rw [if_neg hx0, length_cqfEncode hw hx0 le_rfl (by omega), hone]
      split_ifs <;> omega
  rw [if_neg h2]
  have hC3 : C + 1 - 3 = C - 3 + 1 := by omega
  by_cases hx0 : x = 0
  · subst hx0
    have := @length_valDigits_succ_le (2 ^ rbits - 1) (by omega) (C - 3)
    rw [if_pos rfl, if_pos rfl, length_cqfEncode_zero hw (show 3 ≤ C by omega) (by omega),
      length_cqfEncode_zero hw (show 3 ≤ C + 1 by omega) hC, hC3]
    omega
  · have := @length_valDigits_succ_le (2 ^ rbits - 2) (by omega) (C - 3)
    rw [if_neg hx0, if_neg hx0, length_cqfEncode hw hx0 (show 3 ≤ C by omega) (by omega),
      length_cqfEncode hw hx0 (show 3 ≤ C + 1 by omega) hC, hC3]
    split_ifs <;> omega

end Draugr.Cqf
