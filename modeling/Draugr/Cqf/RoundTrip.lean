import Draugr.Cqf.Counter

/-!
# The symbols of a count in their slots

`cqf_encode` holds a digit and the sum that becomes its symbol in an `int`. At width 32 the sum
wraps around from `2 ^ 31` on, and converted to `uint64_t` it is a symbol of 64 bits
(`counter_roundTrips_iff`). A slot keeps `rbits` bits of a symbol, so what is read back suffers
less: a digit that is negative as an `int` is never below `x - 1` and gets the symbol of the digits
beyond the gap at `x`. So a digit is misread, or `x` itself is written as a symbol, when it lies
between `2 ^ 31` and `x - 1`; no other count is affected (`counter_recovers_iff`).
-/

namespace Draugr.Cqf

/-- The symbols of a count as the slots keep them. -/
def keptSymbols (rbits x C : ℕ) : List ℕ := (cqfEncode C x rbits).map (· % 2 ^ rbits)

/-- The slots of the symbols decode to the count, and none of them is the remainder. -/
structure Recovers (rbits x C : ℕ) : Prop where
  decode : decodeCount (keptSymbols rbits x C) x rbits = C
  differ : ∀ s ∈ keptSymbols rbits x C, s ≠ x

/-- The symbols fit their slots and the buffer, and the slots decode to the count. -/
structure RoundTrips (rbits x C : ℕ) : Prop extends Recovers rbits x C where
  lt : ∀ s ∈ cqfEncode C x rbits, s < 2 ^ rbits
  length : (cqfEncode C x rbits).length ≤ encBuf

/-- The digit is negative as an `int`, and below the gap that the symbols have at `x`. -/
def Misplaced (x d : ℕ) : Prop := 2 ^ 31 ≤ d ∧ d < x - 1

instance (x d : ℕ) : Decidable (Misplaced x d) := inferInstanceAs (Decidable (_ ∧ _))

variable {rbits x d C base : ℕ} {ds : List ℕ}

/-! ## Symbols in slots -/

/-- Only width 32 has digits from `2 ^ 31` on. -/
lemma Width.eq_of_digit (hw : Width rbits) (h : 2 ^ 31 ≤ d) (hd : d < 2 ^ rbits) : rbits = 32 := by
  have hlt : 31 < rbits := (Nat.pow_lt_pow_iff_right (a := 2) (by decide)).mp (h.trans_lt hd)
  exact Nat.le_antisymm hw.le hlt

/-- The slot of a number as an `int`. -/
lemma kept_toInt (hw : Width rbits) (hd : d < 2 ^ rbits) : ofInt (toInt d) % 2 ^ rbits = d := by
  have hpow := hw.pow_le
  rw [ofInt_toInt (by omega)]
  split
  · exact Nat.mod_eq_of_lt hd
  · next h31 =>
    -- only width 32 has such digits
    have hr := hw.eq_of_digit (Nat.le_of_not_lt h31) hd
    subst hr
    omega

/-- The slot of a symbol of the remainder `0`. -/
lemma kept_zeroSymbol (hw : Width rbits) (hd : d < 2 ^ rbits - 1) :
    zeroSymbol d % 2 ^ rbits = d + 1 := by
  rw [zeroSymbol_toInt]
  exact kept_toInt hw (by omega)

/-- A digit is below the gap at `x` as an `int` unless it is misplaced. -/
lemma below_gap_iff (hx : x < 2 ^ 32) (hd : d < 2 ^ 32) :
    ofInt (toInt d) < x - 1 ↔ d < x - 1 ∧ ¬ Misplaced x d := by
  rw [ofInt_toInt hd, Misplaced]
  split <;> omega

/-- The slot of a symbol of a remainder above zero. -/
lemma kept_symbol (hw : Width rbits) (hx : x < 2 ^ rbits) (hd : d < 2 ^ rbits - 2) :
    symbol x d % 2 ^ rbits = if d < x - 1 ∧ ¬ Misplaced x d then d + 1 else d + 2 := by
  have hpow := hw.pow_le
  rw [symbol_toInt]
  simp only [below_gap_iff (show x < 2 ^ 32 by omega) (show d < 2 ^ 32 by omega)]
  split
  · exact kept_toInt hw (by omega)
  · exact kept_toInt hw (by omega)

/-- The slots of the digits of a remainder above zero. -/
def keptCore (rbits x C : ℕ) : List ℕ :=
  ((valDigits (2 ^ rbits - 2) (C - 3)).map fun d =>
    if d < x - 1 ∧ ¬ Misplaced x d then d + 1 else d + 2).reverse

/-- The symbols before they are cut to the width. -/
lemma encodeDigits_map (hw : Width rbits) (hC : C < 2 ^ 64) (x : ℕ) :
    encodeDigits C x rbits encBuf =
    ((valDigits (2 ^ rbits - 2) (C - 3)).map (symbol x)).reverse := by
  have h4 := hw.four_le
  rw [encodeDigits, valDigits]
  split
  · rw [List.map_singleton, List.reverse_singleton, symbol_digit_zero]
  · rw [encDigits_eq (by omega) (sub_lt_encBuf hC)]

/-- The slots of a count: those of its digits, perhaps after a zero. -/
lemma keptSymbols_eq (hw : Width rbits) (hx : x ≠ 0) (hx' : x < 2 ^ rbits) (hC : 3 ≤ C)
    (hC' : C < 2 ^ 64) :
    keptSymbols rbits x C = keptCore rbits x C ∨
      keptSymbols rbits x C = 0 :: keptCore rbits x C := by
  have h4 := hw.four_le
  have hkept : (encodeDigits C x rbits encBuf).map (· % 2 ^ rbits) = keptCore rbits x C := by
    rw [encodeDigits_map hw hC', keptCore, List.map_reverse, List.map_map]
    refine congrArg List.reverse (List.map_congr_left fun d hd => ?_)
    rw [Function.comp_apply]
    exact kept_symbol hw hx' (valDigits_lt (by omega) hd)
  have hlen : (encodeDigits C x rbits encBuf).length ≤ 64 := by
    rw [encodeDigits_map hw hC', List.length_reverse, List.length_map]
    exact length_valDigits_le (by omega) ((Nat.sub_le _ _).trans_lt hC')
  have hzero : 0 % 2 ^ rbits = 0 := Nat.zero_mod _
  unfold keptSymbols
  rw [cqfEncode, if_neg (by omega), if_neg hx, ← hkept]
  cases hs : encodeDigits C x rbits encBuf with
  | nil => exact .inl rfl
  | cons s rest =>
    rw [hs] at hlen
    simp only [prependZero]
    rw [if_neg (by rw [encBuf]; omega : ¬ encBuf ≤ (s :: rest).length)]
    split
    · refine .inr ?_
      rw [List.map_cons, hzero]
    · exact .inl rfl

/-- The slots of the remainder `0`. -/
lemma keptSymbols_zero (hw : Width rbits) (hC : 3 ≤ C) (hC' : C < 2 ^ 64) :
    keptSymbols rbits 0 C = ((valDigits (2 ^ rbits - 1) (C - 3)).map (· + 1)).reverse := by
  have h4 := hw.four_le
  unfold keptSymbols
  rw [cqfEncode, if_neg (by omega), if_pos rfl, encodeZero, valDigits]
  split
  · rw [List.map_singleton, List.map_singleton, Nat.mod_eq_of_lt (by omega)]
    rfl
  · rw [encDigits_eq (by omega) (sub_lt_encBuf hC'), List.map_reverse, List.map_map]
    refine congrArg List.reverse (List.map_congr_left fun d hd => ?_)
    rw [Function.comp_apply]
    exact kept_zeroSymbol hw (Nat.digits_lt_base (by omega) hd)

/-! ## The remainder zero -/

/-- A count of the remainder `0` is recovered from its slots. -/
lemma recovers_zero (hw : Width rbits) (hC : 3 ≤ C) (hC' : C < 2 ^ 64) : Recovers rbits 0 C := by
  have h4 := hw.four_le
  have heq := keptSymbols_zero hw hC hC'
  have hdigits : ∀ d ∈ valDigits (2 ^ rbits - 1) (C - 3), d < 2 ^ rbits - 1 :=
    fun d hd => valDigits_lt (by omega) hd
  have hne : ¬ (keptSymbols rbits 0 C).length = 0 := by
    rw [heq, List.length_reverse, List.length_map, List.length_eq_zero_iff]
    exact valDigits_ne_nil _ _
  have hpred : (keptSymbols rbits 0 C).map (fun s => (s + (2 ^ 64 - 1)) % 2 ^ 64) =
      (valDigits (2 ^ rbits - 1) (C - 3)).reverse := by
    rw [heq, List.map_reverse, List.map_map]
    refine congrArg List.reverse ((List.map_congr_left fun d hd => ?_).trans (List.map_id _))
    have hd := hdigits d hd
    rw [Function.comp_apply]
    exact wrap_pred ((hd.trans_le (Nat.sub_le _ _)).trans_le (hw.pow_le.trans (by norm_num)))
  have hmem : ∀ s ∈ keptSymbols rbits 0 C, s ≠ 0 := by
    intro s hs
    rw [heq, List.mem_reverse, List.mem_map] at hs
    obtain ⟨d, -, rfl⟩ := hs
    exact Nat.succ_ne_zero d
  refine ⟨?_, hmem⟩
  rw [decodeCount, if_neg hne, if_pos rfl, hpred, evalDigits_eq, List.reverse_reverse,
    ofDigits_valDigits, Nat.mod_eq_of_lt ((Nat.sub_le _ _).trans_lt hC'), Nat.sub_add_cancel hC]
  exact Nat.mod_eq_of_lt hC'

/-! ## Remainders above zero -/

/-- The digit that is read from the slot of a digit. -/
lemma digitOf_kept (x d : ℕ) : digitOf x (if d < x - 1 ∧ ¬ Misplaced x d then d + 1 else d + 2) =
    d + if Misplaced x d ∧ d + 2 ≠ x then 1 else 0 := by
  unfold Misplaced
  by_cases h31 : d < 2 ^ 31
  · have hiff : (d < x - 1 ∧ ¬ (2 ^ 31 ≤ d ∧ d < x - 1)) ↔ d < x - 1 := by omega
    rw [if_neg (by omega : ¬ ((2 ^ 31 ≤ d ∧ d < x - 1) ∧ d + 2 ≠ x)), Nat.add_zero]
    simp only [hiff]
    exact digitOf_symbol x d
  · rw [if_neg (by omega : ¬ (d < x - 1 ∧ ¬ (2 ^ 31 ≤ d ∧ d < x - 1))), digitOf,
      if_neg (Nat.succ_ne_zero _)]
    split <;> split <;> omega

/-- The digits that are read, and the error of their value. -/
lemma ofDigits_map_add (base : ℕ) (f : ℕ → ℕ) (ds : List ℕ) :
    Nat.ofDigits base (ds.map fun d => d + f d) =
      Nat.ofDigits base ds + Nat.ofDigits base (ds.map f) := by
  induction ds with
  | nil => rfl
  | cons d ds ih =>
    rw [List.map_cons, List.map_cons, Nat.ofDigits_cons, Nat.ofDigits_cons, Nat.ofDigits_cons, ih]
    ring

/-- The value that is read. -/
lemma evalDigits_keptCore (rbits x C : ℕ) :
    evalDigits (2 ^ rbits - 2) ((keptCore rbits x C).map (digitOf x)) =
      (C - 3 + Nat.ofDigits (2 ^ rbits - 2) ((valDigits (2 ^ rbits - 2) (C - 3)).map fun d =>
        if Misplaced x d ∧ d + 2 ≠ x then 1 else 0)) % 2 ^ 64 := by
  have hmap : (keptCore rbits x C).map (digitOf x) =
      ((valDigits (2 ^ rbits - 2) (C - 3)).map fun d =>
        d + if Misplaced x d ∧ d + 2 ≠ x then 1 else 0).reverse := by
    rw [keptCore, List.map_reverse, List.map_map]
    exact congrArg List.reverse (List.map_congr_left fun d _ => digitOf_kept x d)
  rw [hmap, evalDigits_eq, List.reverse_reverse, ofDigits_map_add, ofDigits_valDigits]

/-- The count that is read. -/
lemma decodeCount_kept (hw : Width rbits) (hx : x ≠ 0) (hx' : x < 2 ^ rbits) (hC : 3 ≤ C)
    (hC' : C < 2 ^ 64) : decodeCount (keptSymbols rbits x C) x rbits =
      (C + Nat.ofDigits (2 ^ rbits - 2) ((valDigits (2 ^ rbits - 2) (C - 3)).map fun d =>
        if Misplaced x d ∧ d + 2 ≠ x then 1 else 0)) % 2 ^ 64 := by
  have hne : keptCore rbits x C ≠ [] := by
    rw [keptCore, Ne, List.reverse_eq_nil_iff, List.map_eq_nil_iff]
    exact valDigits_ne_nil _ _
  have heval : evalDigits (2 ^ rbits - 2) ((keptSymbols rbits x C).map (digitOf x)) =
      evalDigits (2 ^ rbits - 2) ((keptCore rbits x C).map (digitOf x)) := by
    rcases keptSymbols_eq hw hx hx' hC hC' with he | he
    · rw [he]
    · rw [he, List.map_cons]
      exact evalDigits_zero_cons _ _
  have hlen : ¬ (keptSymbols rbits x C).length = 0 := by
    rcases keptSymbols_eq hw hx hx' hC hC' with he | he
    · rwa [he, List.length_eq_zero_iff]
    · rw [he, List.length_cons]
      exact Nat.succ_ne_zero _
  rw [decodeCount, if_neg hlen, if_neg hx, heval, evalDigits_keptCore, Nat.mod_add_mod]
  congr 1
  omega

/-- Without a misplaced digit a count is recovered. -/
lemma recovers_of_placed (hw : Width rbits) (hx : x ≠ 0) (hx' : x < 2 ^ rbits) (hC : 3 ≤ C)
    (hC' : C < 2 ^ 64) (hd : ∀ d ∈ valDigits (2 ^ rbits - 2) (C - 3), ¬ Misplaced x d) :
    Recovers rbits x C := by
  have h4 := hw.four_le
  have hzero : ∀ base, Nat.ofDigits base ((valDigits (2 ^ rbits - 2) (C - 3)).map fun d =>
      if Misplaced x d ∧ d + 2 ≠ x then 1 else 0) = 0 := by
    intro base
    generalize valDigits (2 ^ rbits - 2) (C - 3) = ds at hd
    induction ds with
    | nil => rfl
    | cons d ds ih =>
      rw [List.map_cons, Nat.ofDigits_cons, ih fun e he => hd e (List.mem_cons_of_mem _ he),
        if_neg fun h => hd d List.mem_cons_self h.1, Nat.mul_zero]
  have hcore : ∀ s ∈ keptCore rbits x C, s ≠ x := by
    intro s hs
    rw [keptCore, List.mem_reverse, List.mem_map] at hs
    obtain ⟨d, hmem, rfl⟩ := hs
    have hplaced := hd d hmem
    simp only [hplaced, not_false_eq_true, and_true]
    split <;> omega
  refine ⟨?_, fun s hs => ?_⟩
  · rw [decodeCount_kept hw hx hx' hC hC', hzero, Nat.add_zero]
    exact Nat.mod_eq_of_lt hC'
  · rcases keptSymbols_eq hw hx hx' hC hC' with he | he
    · exact hcore s (he ▸ hs)
    · rw [he] at hs
      rcases List.mem_cons.mp hs with rfl | hs
      · exact Ne.symm hx
      · exact hcore s hs

/-- The error of a few digits is smaller than the counter. -/
lemma ofDigits_bits_lt (hds : ∀ d ∈ ds, d ≤ 1) (hlen : ds.length ≤ 3) :
    Nat.ofDigits (2 ^ 32 - 2) ds < 2 ^ 64 := by
  match ds, hlen with
  | [], _ => rw [Nat.ofDigits_nil]; exact Nat.two_pow_pos 64
  | [a], _ =>
    have ha := hds a List.mem_cons_self
    rw [Nat.ofDigits_singleton]
    omega
  | [a, b], _ =>
    have ha := hds a (by simp)
    have hb := hds b (by simp)
    rw [Nat.ofDigits_cons, Nat.ofDigits_singleton]
    norm_num
    omega
  | [a, b, c], _ =>
    have ha := hds a (by simp)
    have hb := hds b (by simp)
    have hc := hds c (by simp)
    rw [Nat.ofDigits_cons, Nat.ofDigits_cons, Nat.ofDigits_singleton]
    norm_num
    omega

/-- With a misplaced digit a count is not recovered, or the remainder is one of its symbols. -/
lemma not_recovers (hw : Width rbits) (hx : x ≠ 0) (hx' : x < 2 ^ rbits) (hC : 3 ≤ C)
    (hC' : C < 2 ^ 64)
    (hd : d ∈ valDigits (2 ^ rbits - 2) (C - 3)) (hmis : Misplaced x d) : ¬ Recovers rbits x C := by
  have h4 := hw.four_le
  have hpow := hw.pow_le
  have hlt := valDigits_lt (by omega) hd
  intro hrt
  by_cases hgap : d + 2 = x
  · -- the digit before the gap gets the remainder as its symbol
    have hcore : x ∈ keptCore rbits x C := by
      rw [keptCore, List.mem_reverse, List.mem_map]
      exact ⟨d, hd, by rw [if_neg fun h => h.2 hmis, hgap]⟩
    rcases keptSymbols_eq hw hx hx' hC hC' with he | he
    · exact hrt.differ x (he ▸ hcore) rfl
    · exact hrt.differ x (he ▸ List.mem_cons_of_mem _ hcore) rfl
  · have hr := hw.eq_of_digit hmis.1 (by omega)
    subst hr
    have hdecode := hrt.decode
    rw [decodeCount_kept hw hx hx' hC hC'] at hdecode
    have hlen : (valDigits (2 ^ 32 - 2) (C - 3)).length ≤ 3 := by
      rw [valDigits]
      split
      · norm_num
      · rw [Nat.digits_length_le_iff (by norm_num)]
        exact (Nat.sub_le _ _).trans_lt (hC'.trans_le (by norm_num))
    have hsmall : Nat.ofDigits (2 ^ 32 - 2) ((valDigits (2 ^ 32 - 2) (C - 3)).map fun d =>
        if Misplaced x d ∧ d + 2 ≠ x then 1 else 0) < 2 ^ 64 := by
      refine ofDigits_bits_lt (fun e he => ?_) (by rwa [List.length_map])
      obtain ⟨d', -, rfl⟩ := List.mem_map.mp he
      split <;> omega
    have hpos : Nat.ofDigits (2 ^ 32 - 2) ((valDigits (2 ^ 32 - 2) (C - 3)).map fun d =>
        if Misplaced x d ∧ d + 2 ≠ x then 1 else 0) ≠ 0 := by
      intro h0
      have hall := Nat.digits_zero_of_eq_zero (by norm_num) h0 1
        (List.mem_map.mpr ⟨d, hd, if_pos ⟨hmis, hgap⟩⟩)
      exact absurd hall one_ne_zero
    generalize Nat.ofDigits (2 ^ 32 - 2) _ = err at hdecode hsmall hpos
    omega

/-- For every width, remainder and count: the slots of the count decode to it and differ from the
remainder, unless the width is 32 and a digit of the count lies between `2 ^ 31` and `x - 1`. -/
lemma counter_recovers_iff (hw : Width rbits) (hx : x < 2 ^ rbits) (hC : 3 ≤ C) (hC' : C < 2 ^ 64) :
    Recovers rbits x C ↔
      (rbits = 32 → x = 0 ∨ ∀ d ∈ Nat.digits (2 ^ 32 - 2) (C - 3), ¬ (2 ^ 31 ≤ d ∧ d < x - 1)) := by
  have h4 := hw.four_le
  by_cases hx0 : x = 0
  · subst hx0
    exact ⟨fun _ _ => .inl rfl, fun _ => recovers_zero hw hC hC'⟩
  constructor
  · rintro hrt rfl
    refine .inr fun d hd hmis => ?_
    refine not_recovers hw hx0 hx hC hC' ?_ hmis hrt
    rw [valDigits]
    split
    · next h0 =>
      rw [h0, Nat.digits_zero] at hd
      exact absurd hd List.not_mem_nil
    · exact hd
  · refine fun h => recovers_of_placed hw hx0 hx hC hC' fun d hd hmis => ?_
    have hlt := valDigits_lt (by omega) hd
    have hge := hmis.1
    have hr := hw.eq_of_digit hge (by omega)
    subst hr
    refine (h rfl).resolve_left hx0 d ?_ hmis
    rw [valDigits] at hd
    split at hd
    · rw [List.mem_singleton] at hd
      omega
    · exact hd

/-! ## Symbols of 64 bits -/

/-- A symbol of the remainder `0` fits 32 bits when the sum is an `int`. -/
lemma zeroSymbol_lt_iff (hd : d < 2 ^ 32 - 1) : zeroSymbol d < 2 ^ 32 ↔ d + shift 0 d < 2 ^ 31 := by
  have hs : shift 0 d = 1 := if_pos (Or.inl rfl)
  rw [zeroSymbol_toInt, ofInt_toInt (by omega), hs]
  split <;> omega

/-- A symbol of a remainder above zero fits 32 bits when the sum is an `int`. -/
lemma symbol_lt_iff (hx : x ≠ 0) (hd : d < 2 ^ 32 - 2) :
    symbol x d < 2 ^ 32 ↔ d + shift x d < 2 ^ 31 := by
  rw [symbol_toInt, ofInt_toInt (by omega), ofInt_toInt (by omega), ofInt_toInt (by omega),
    shift_of_ne hx]
  split_ifs <;> omega

/-- A zero is put before the symbols, and all of them stay. -/
lemma mem_prependZero {maxBuf s : ℕ} {syms : List ℕ} (hlen : syms.length < maxBuf) (hs : s ∈ syms) :
    s ∈ prependZero x maxBuf syms := by
  cases syms with
  | nil => exact hs
  | cons s' rest =>
    rw [prependZero, if_neg (not_le.mpr hlen)]
    split
    · exact List.mem_cons_of_mem _ hs
    · exact hs

/-- Every digit of a count has its symbol. -/
lemma symbol_mem (hw : Width rbits) (hC : 3 ≤ C) (hC' : C < 2 ^ 64)
    (hd : d ∈ Nat.digits (2 ^ rbits - if x = 0 then 1 else 2) (C - 3)) :
    (if x = 0 then zeroSymbol d else symbol x d) ∈ cqfEncode C x rbits := by
  have h4 := hw.four_le
  have hne : C - 3 ≠ 0 := by
    intro h0
    rw [h0, Nat.digits_zero] at hd
    exact List.not_mem_nil hd
  rw [cqfEncode, if_neg (by omega)]
  by_cases hx : x = 0
  · rw [if_pos hx] at hd
    rw [if_pos hx, if_pos hx, encodeZero, if_neg hne, encDigits_eq (by omega) (sub_lt_encBuf hC')]
    exact List.mem_reverse.mpr (List.mem_map_of_mem hd)
  · rw [if_neg hx] at hd
    rw [if_neg hx, if_neg hx]
    have hmem : symbol x d ∈ encodeDigits C x rbits encBuf := by
      rw [encodeDigits_map hw hC', valDigits, if_neg hne]
      exact List.mem_reverse.mpr (List.mem_map_of_mem hd)
    refine mem_prependZero ?_ hmem
    rw [encodeDigits_map hw hC', List.length_reverse, List.length_map]
    exact (length_valDigits_le (by omega) ((Nat.sub_le _ _).trans_lt hC')).trans_lt (by decide)

/-- The symbols of a count fit their slots and the buffer when the sums are `int`s. -/
lemma Countable.fits (hw : Width rbits) (hC : 3 ≤ C) (hC' : Countable rbits x C) :
    (∀ s ∈ cqfEncode C x rbits, s < 2 ^ rbits) ∧ (cqfEncode C x rbits).length ≤ encBuf := by
  have h4 := hw.four_le
  by_cases hx : x = 0
  · subst hx
    refine ⟨fun s hs => (mem_cqfEncode_zero hw hC hC' hs).2, ?_⟩
    rw [cqfEncode_zero_eq hw hC hC', List.length_reverse, List.length_map]
    exact (length_valDigits_le (by omega) ((Nat.sub_le _ _).trans_lt hC'.lt)).trans (by decide)
  · have hlen := length_coreSymbols_le hw hC'.lt x
    rcases cqfEncode_eq hw hx hC hC' with he | he
    · rw [he]
      exact ⟨fun s hs => (mem_coreSymbols hw hs).2.2, hlen.trans (by decide)⟩
    · rw [he]
      refine ⟨fun s hs => ?_, ?_⟩
      · rcases List.mem_cons.mp hs with rfl | hs
        · omega
        · exact (mem_coreSymbols hw hs).2.2
      · rw [List.length_cons, encBuf]
        omega

/-- The digits of a count, also of one without digits. -/
lemma Countable.of_digits (hC' : C < 2 ^ 64)
    (hd : ∀ d ∈ Nat.digits (2 ^ rbits - if x = 0 then 1 else 2) (C - 3), d + shift x d < 2 ^ 31) :
    Countable rbits x C := by
  refine ⟨hC', fun d hmem => ?_⟩
  rw [valDigits] at hmem
  split at hmem
  · rw [List.mem_singleton] at hmem
    rw [hmem, shift]
    split <;> omega
  · exact hd d hmem

/-- For every width, remainder and count: the symbols fit the width and the buffer, and their slots
decode to the count and differ from the remainder, unless the width is 32 and the symbol of a digit,
one or two above it, is no `int`. Of these counts the slots still hold all but those with a digit
between `2 ^ 31` and `x - 1`. -/
theorem counter_roundTrips_iff (hw : Width rbits) (hx : x < 2 ^ rbits) (hC : 3 ≤ C)
    (hC' : C < 2 ^ 64) :
    (RoundTrips rbits x C ↔ (rbits = 32 →
      ∀ d ∈ Nat.digits (2 ^ 32 - if x = 0 then 1 else 2) (C - 3), d + shift x d < 2 ^ 31)) ∧
    (Recovers rbits x C ↔
      (rbits = 32 → x = 0 ∨ ∀ d ∈ Nat.digits (2 ^ 32 - 2) (C - 3),
        ¬ (2 ^ 31 ≤ d ∧ d < x - 1))) := by
  refine ⟨⟨?_, fun hd => ?_⟩, counter_recovers_iff hw hx hC hC'⟩
  · rintro hrt rfl d hd
    have hlt := hrt.lt _ (symbol_mem hw hC hC' hd)
    by_cases hx0 : x = 0
    · subst hx0
      rw [if_pos rfl] at hlt hd
      exact (zeroSymbol_lt_iff (Nat.digits_lt_base (by norm_num) hd)).mp hlt
    · rw [if_neg hx0] at hlt hd
      exact (symbol_lt_iff hx0 (Nat.digits_lt_base (by norm_num) hd)).mp hlt
  · have hcount : Countable rbits x C := by
      by_cases hr : rbits = 32
      · subst hr
        exact .of_digits hC' (hd rfl)
      · have hle := hw.le
        exact .of_le hw.two_le (by omega) hC'
    obtain ⟨hlt, hlen⟩ := hcount.fits hw hC
    refine ⟨(counter_recovers_iff hw hx hC hC').mpr ?_, hlt, hlen⟩
    rintro rfl
    by_cases hx0 : x = 0
    · exact .inl hx0
    · refine .inr fun d hmem hmis => ?_
      have hfit := hd rfl d (by rwa [if_neg hx0])
      omega

/-- The greatest count and remainder of width 2. -/
theorem counter_roundTrips_sample : RoundTrips 2 3 (2 ^ 64 - 1) := by
  refine (counter_roundTrips_iff ⟨le_rfl, by decide⟩ (by decide) (by decide) (by decide)).1.mpr
    fun h => ?_
  cases h

/-- A count whose only digit is `2 ^ 31`, for the greatest remainder of width 32 and for the
remainder `0`: the first is not recovered, and the symbol of the second does not fit the width. -/
theorem counter_roundTrips_fails : ¬ RoundTrips 32 (2 ^ 32 - 1) (2 ^ 31 + 3) ∧
    ¬ RoundTrips 32 0 (2 ^ 31 + 3) := by
  constructor
  · intro h
    exact absurd h.decode (by decide +kernel)
  · intro h
    exact absurd h.lt (by decide +kernel)

end Draugr.Cqf
