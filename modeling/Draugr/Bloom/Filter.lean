import Draugr.Amq.Storage

/-!
# The Bloom filter

The `k` probe positions of an item are `h1 + i * h2` modulo the number of bits, where `h1` and `h2`
are two FNV-1a hashes of its bytes. An insertion sets the bits of the item, a lookup tests them and
stops at the first that is not set. Words and positions are those of the source, in 64 bits, and the
array is a block with a size.

The bits that are set are the probe positions of the items inserted since the filter was last reset
(`Holds`), so that a lookup tells whether these cover the positions of its item.
-/

namespace Draugr.Bloom
open Draugr.Lib Draugr.Amq

/-- `bloom_filter_t`. -/
structure BloomFilter where
  bits : Block
  numBits : UInt64
  count : UInt64
  numHashes : UInt8

/-- `double_hash`. -/
def doubleHash (data : List UInt8) : UInt64 × UInt64 :=
  (data.foldl (fun h b => (h ^^^ b.toUInt64) * 16777619) 2166136261,
    data.foldl (fun h b => (h ^^^ b.toUInt64) * 0x00000100000001B3)
    (0xcbf29ce484222325 ^^^ 0xdeadbeef))

/-- The position of probe `i`. -/
def position (h : UInt64 × UInt64) (numBits : UInt64) (i : ℕ) : ℕ :=
  ((h.1 + UInt64.ofNat i * h.2) % numBits).toNat

/-- `bloom_filter_hashes`. -/
def bloomFilterHashes (data : List UInt8) (numBits : UInt64) (numHashes : UInt8) : List ℕ :=
  (List.range numHashes.toNat).map (position (doubleHash data) numBits)

/-- The number of words of the array. -/
def numWords (numBits : UInt64) : ℕ := ((numBits + 63) / 64).toNat

/-- `bloom_filter_create_raw`. `header` and `array` tell whether the two allocations succeed. -/
def bloomFilterCreateRaw (header array : Bool) (numBits : UInt64) (numHashes : UInt8) :
    Option BloomFilter :=
  if numBits = 0 ∨ numHashes = 0 then none
  else if header && array then some ⟨⟨numWords numBits, fun _ => 0⟩, numBits, 0, numHashes⟩
  else none

/-- `bloom_filter_reset`. -/
def bloomFilterReset (bf : BloomFilter) : Except Fault BloomFilter :=
  if numWords bf.numBits ≤ bf.bits.size then
    .ok { bf with
      bits := { bf.bits with
          words := fun i => if i < numWords bf.numBits then 0 else bf.bits.words i }
      count := 0 }
  else .error .bounds

/-- Sets the bit at a position. -/
def setBit (m : Block) (pos : ℕ) : Except Fault Block := do
  let w ← m.load (pos / 64)
  m.store (pos / 64) (w ||| 1#64 <<< (pos % 64))

/-- `bloom_filter_insert`. -/
def bloomFilterInsert (bf : BloomFilter) (data : List UInt8) : Except Fault BloomFilter :=
  if data = [] then .ok bf
  else do
    let h := doubleHash data
    let bits ← (List.range bf.numHashes.toNat).foldlM
      (fun m i => setBit m (position h bf.numBits i)) bf.bits
    return { bf with bits, count := bf.count + 1 }

/-- The loop of `bloom_filter_lookup` over the probes that are left. -/
def lookupLoop (m : Block) (h : UInt64 × UInt64) (numBits : UInt64) : List ℕ → Except Fault Bool
  | [] => .ok true
  | i :: is => do
    let pos := position h numBits i
    let w ← m.load (pos / 64)
    if w &&& 1#64 <<< (pos % 64) = 0 then return false else lookupLoop m h numBits is

/-- `bloom_filter_lookup`. -/
def bloomFilterLookup (bf : BloomFilter) (data : List UInt8) : Except Fault Bool :=
  if data = [] then .ok false else lookupLoop bf.bits (doubleHash data) bf.numBits
    (List.range bf.numHashes.toNat)

/-- A call that changes the filter. -/
inductive BloomOp where
  | insert (data : List UInt8)
  | reset

/-- The filter after a call. -/
def BloomOp.run : BloomOp → BloomFilter → Except Fault BloomFilter
  | .insert data, bf => bloomFilterInsert bf data
  | .reset, bf => bloomFilterReset bf

/-- The filter after a list of calls. -/
def runOps (ops : List BloomOp) (bf : BloomFilter) : Except Fault BloomFilter :=
  ops.foldlM (fun bf op => op.run bf) bf

/-- The items after a call; an item without bytes is not entered. -/
def BloomOp.enter (l : List (List UInt8)) : BloomOp → List (List UInt8)
  | .insert data => if data = [] then l else data :: l
  | .reset => []

/-- The items inserted since the last reset. -/
def inserted (ops : List BloomOp) : List (List UInt8) := ops.foldl BloomOp.enter []

/-- A position is one of those of an item in the list. -/
def Covered (l : List (List UInt8)) (numBits : UInt64) (numHashes : UInt8) (p : ℕ) : Prop :=
  ∃ d ∈ l, p ∈ bloomFilterHashes d numBits numHashes

instance (l : List (List UInt8)) (numBits : UInt64) (numHashes : UInt8) (p : ℕ) :
    Decidable (Covered l numBits numHashes p) :=
  inferInstanceAs (Decidable (∃ d ∈ l, _))

/-- The filter holds the items of a list. -/
structure Holds (bf : BloomFilter) (nb : UInt64) (k : UInt8) (l : List (List UInt8)) : Prop where
  numBits : bf.numBits = nb
  numHashes : bf.numHashes = k
  size : bf.bits.size = numWords nb
  count : bf.count = UInt64.ofNat l.length
  bits : ∀ p, bitAt bf.bits.words p = decide (Covered l nb k p)

variable {bf : BloomFilter} {nb : UInt64} {k : UInt8} {l : List (List UInt8)} {m : Block} {pos : ℕ}

/-! ## Positions -/

/-- A position is below the number of bits. -/
lemma position_lt (h0 : nb ≠ 0) (h : UInt64 × UInt64) (i : ℕ) : position h nb i < nb.toNat := by
  have hpos : 0 < nb.toNat := Nat.pos_of_ne_zero fun h => h0 (UInt64.toNat_inj.mp h)
  rw [position, UInt64.toNat_mod]
  exact Nat.mod_lt _ hpos

/-- The words of the array when the sum does not overflow. -/
lemma numWords_eq (hb : nb.toNat ≤ 2 ^ 64 - 64) : numWords nb = (nb.toNat + 63) / 64 := by
  rw [numWords, UInt64.toNat_div, UInt64.toNat_add]
  change (nb.toNat + 63) % 2 ^ 64 / 64 = _
  rw [Nat.mod_eq_of_lt (by omega)]

/-- The array has no words when the sum overflows. -/
lemma numWords_zero (hb : 2 ^ 64 - 64 < nb.toNat) : numWords nb = 0 := by
  have := nb.toNat_lt
  rw [numWords, UInt64.toNat_div, UInt64.toNat_add]
  change (nb.toNat + 63) % 2 ^ 64 / 64 = _
  omega

/-- A position is in the array. -/
lemma position_in (hb : nb.toNat ≤ 2 ^ 64 - 64) (h0 : nb ≠ 0) (h : UInt64 × UInt64) (i : ℕ) :
    position h nb i / 64 < numWords nb := by
  have := position_lt h0 h i
  rw [numWords_eq hb]
  omega

/-! ## Bits -/

/-- The bits of the word with one bit. -/
lemma getLsbD_one_shift {s : ℕ} (hs : s < 64) (j : ℕ) :
    (1#64 <<< s).getLsbD j = decide (j = s) := by
  rw [BitVec.getLsbD_shiftLeft, BitVec.getLsbD_one]
  by_cases hj : j = s
  · simp [hj, hs]
  · have : j < s ∨ j - s ≠ 0 := by omega
    rcases this with h | h <;> simp [hj, h]

/-- A bit is tested with the word that has this bit. -/
lemma and_one_shift (w : BitVec 64) {s : ℕ} (hs : s < 64) : w &&& 1#64 <<< s = 0 ↔
    w.getLsbD s = false := by
  constructor
  · intro h
    have := congrArg (fun x : BitVec 64 => x.getLsbD s) h
    simpa [getLsbD_one_shift hs] using this
  · intro h
    refine BitVec.eq_of_getLsbD_eq fun j hj => ?_
    rw [BitVec.getLsbD_and, getLsbD_one_shift hs]
    by_cases hjs : j = s
    · simp [hjs, h]
    · simp [hjs]

/-- Setting a bit of the array. -/
lemma setBit_ok (h : pos / 64 < m.size) : ∃ m', setBit m pos = .ok m' ∧ m'.size = m.size ∧
    ∀ p, bitAt m'.words p = (bitAt m.words p || decide (p = pos)) := by
  refine ⟨{ m with
    words := Function.update m.words (pos / 64) (m.words (pos / 64) ||| 1#64 <<< (pos % 64)) },
    ?_, rfl, fun p => ?_⟩
  · rw [setBit, Block.load_eq h]
    exact Block.store_eq h _
  unfold bitAt
  dsimp only
  by_cases hp : p / 64 = pos / 64
  · have hiff : p % 64 = pos % 64 ↔ p = pos := by omega
    rw [hp, Function.update_self, BitVec.getLsbD_or, getLsbD_one_shift (Nat.mod_lt _ (by decide)),
      decide_eq_decide.mpr hiff]
  · rw [Function.update_of_ne hp, decide_eq_false fun he => hp (by rw [he]), Bool.or_false]

/-- Setting the bits of some probes. -/
lemma setBits_ok {h : UInt64 × UInt64} (hin : ∀ i, position h nb i / 64 < m.size) (is : List ℕ) :
    ∃ m', is.foldlM (fun m i => setBit m (position h nb i)) m = .ok m' ∧ m'.size = m.size ∧
      ∀ p, bitAt m'.words p = (bitAt m.words p || decide (p ∈ is.map (position h nb))) := by
  induction is generalizing m with
  | nil => exact ⟨m, rfl, rfl, fun p => by simp⟩
  | cons i is ih =>
    obtain ⟨m₁, he, hs, hb⟩ := setBit_ok (hin i)
    obtain ⟨m₂, he', hs', hb'⟩ := ih (m := m₁) fun j => hs.symm ▸ hin j
    refine ⟨m₂, by rw [List.foldlM_cons, he]; exact he', hs'.trans hs, fun p => ?_⟩
    rw [hb', hb, Bool.or_assoc, List.map_cons]
    simp [List.mem_cons, Bool.decide_or]

/-- A lookup tests whether all positions are set. -/
lemma lookupLoop_eq {h : UInt64 × UInt64} (hin : ∀ i, position h nb i / 64 < m.size) (is : List ℕ) :
    lookupLoop m h nb is = .ok (is.all fun i => bitAt m.words (position h nb i)) := by
  induction is with
  | nil => rfl
  | cons i is ih =>
    rw [lookupLoop, Block.load_eq (hin i), List.all_cons]
    have htest :=
      and_one_shift (m.words (position h nb i / 64))
      (Nat.mod_lt (position h nb i) (by decide : 0 < 64))
    by_cases hbit : bitAt m.words (position h nb i) = true
    · rw [hbit, Bool.true_and, ← ih]
      refine if_neg fun h0 => ?_
      rw [bitAt, htest.mp h0] at hbit
      cases hbit
    · rw [Bool.not_eq_true] at hbit
      rw [hbit, Bool.false_and]
      exact if_pos (htest.mpr hbit)

/-! ## Calls -/

/-- The hashes of the source are the positions in order. -/
lemma bloomFilterHashes_range (data : List UInt8) (nb : UInt64) (k : UInt8) :
    bloomFilterHashes data nb k = (List.range k.toNat).map (position (doubleHash data) nb) := rfl

/-- Nothing is covered by no insertions. -/
lemma not_covered_nil (p : ℕ) : ¬ Covered [] nb k p := by
  rintro ⟨d, hd, -⟩
  cases hd

/-- A new filter holds nothing. -/
lemma holds_create {header array : Bool} (hc : bloomFilterCreateRaw header array nb k = some bf) :
    Holds bf nb k [] ∧ nb ≠ 0 ∧ k ≠ 0 := by
  rw [bloomFilterCreateRaw] at hc
  split at hc
  · cases hc
  · next h =>
    split at hc
    · cases hc
      refine ⟨⟨rfl, rfl, rfl, rfl, fun p => ?_⟩, fun h0 => h (.inl h0), fun h0 => h (.inr h0)⟩
      rw [decide_eq_false (not_covered_nil p)]
      exact BitVec.getLsbD_zero
    · cases hc

/-- An insertion sets the bits of its item. -/
lemma Holds.insert (hh : Holds bf nb k l) (hb : nb.toNat ≤ 2 ^ 64 - 64) (h0 : nb ≠ 0)
    (data : List UInt8) :
    ∃ bf', bloomFilterInsert bf data = .ok bf' ∧
      Holds bf' nb k (BloomOp.enter l (.insert data)) := by
  by_cases hd : data = []
  · refine ⟨bf, if_pos hd, ?_⟩
    rw [BloomOp.enter, if_pos hd]
    exact hh
  · obtain ⟨m', he, hs, hbits⟩ := setBits_ok (m := bf.bits) (h := doubleHash data)
      (fun i => hh.size ▸ position_in hb h0 (doubleHash data) i) (List.range k.toNat)
    refine ⟨{ bf with bits := m', count := bf.count + 1 }, ?_, ?_⟩
    · rw [bloomFilterInsert, if_neg hd, hh.numBits, hh.numHashes]
      simp only [he]
      rfl
    · rw [BloomOp.enter, if_neg hd]
      refine ⟨hh.numBits, hh.numHashes, hs.trans hh.size, ?_, fun p => ?_⟩
      · rw [List.length_cons, UInt64.ofNat_add, ← hh.count]
        rfl
      · change bitAt m'.words p = _
        rw [hbits, hh.bits, ← bloomFilterHashes_range, ← Bool.decide_or]
        refine decide_eq_decide.mpr ?_
        unfold Covered
        rw [List.exists_mem_cons_iff]
        exact or_comm

/-- No position is outside of the array. -/
lemma Covered.in_array (hb : nb.toNat ≤ 2 ^ 64 - 64) (h0 : nb ≠ 0) (h : Covered l nb k pos) :
    pos / 64 < numWords nb := by
  obtain ⟨d, -, hp⟩ := h
  obtain ⟨i, -, rfl⟩ := List.mem_map.mp hp
  exact position_in hb h0 _ i

/-- A reset empties the filter. -/
lemma Holds.reset (hh : Holds bf nb k l) (hb : nb.toNat ≤ 2 ^ 64 - 64) (h0 : nb ≠ 0) :
    ∃ bf', bloomFilterReset bf = .ok bf' ∧ Holds bf' nb k [] := by
  refine ⟨_, if_pos (by rw [hh.numBits, hh.size]), hh.numBits, hh.numHashes, hh.size, rfl,
    fun p => ?_⟩
  rw [decide_eq_false (not_covered_nil p)]
  by_cases hp : p / 64 < numWords nb
  · unfold bitAt
    rw [hh.numBits]
    simp only [if_pos hp]
    exact BitVec.getLsbD_zero
  · have hold := hh.bits p
    rw [decide_eq_false fun hc => hp (Covered.in_array hb h0 hc)] at hold
    unfold bitAt at hold ⊢
    rw [hh.numBits]
    simp only [if_neg hp]
    exact hold

/-- A lookup tells whether the items of the filter cover the positions of its item. -/
lemma Holds.lookup (hh : Holds bf nb k l) (hb : nb.toNat ≤ 2 ^ 64 - 64) (h0 : nb ≠ 0)
    (data : List UInt8) :
    bloomFilterLookup bf data =
      .ok (decide (data ≠ [] ∧ ∀ p ∈ bloomFilterHashes data nb k, Covered l nb k p)) := by
  by_cases hd : data = []
  · rw [bloomFilterLookup, if_pos hd, decide_eq_false fun h => h.1 hd]
  · rw [bloomFilterLookup, if_neg hd, hh.numBits, hh.numHashes,
      lookupLoop_eq fun i => hh.size ▸ position_in hb h0 (doubleHash data) i]
    refine congrArg Except.ok (Bool.eq_iff_iff.mpr ?_)
    rw [List.all_eq_true, decide_eq_true_iff, bloomFilterHashes_range, List.forall_mem_map]
    simp only [hh.bits, decide_eq_true_iff, ne_eq, hd, not_false_eq_true, true_and]

/-- A run keeps what the filter holds. -/
lemma Holds.run (hb : nb.toNat ≤ 2 ^ 64 - 64) (h0 : nb ≠ 0) (ops : List BloomOp)
    (hh : Holds bf nb k l) :
    ∃ bf', runOps ops bf = .ok bf' ∧ Holds bf' nb k (ops.foldl BloomOp.enter l) := by
  induction ops generalizing bf l with
  | nil => exact ⟨bf, rfl, hh⟩
  | cons op ops ih =>
    have hstep : ∃ bf', op.run bf = .ok bf' ∧ Holds bf' nb k (op.enter l) := by
      cases op with
      | insert data => exact hh.insert hb h0 data
      | reset => exact hh.reset hb h0
    obtain ⟨bf₁, he, hh₁⟩ := hstep
    obtain ⟨bf₂, he', hh₂⟩ := ih hh₁
    exact ⟨bf₂, by rw [runOps, List.foldlM_cons, he]; exact he', hh₂⟩

/-- No item without bytes is entered. -/
lemma ne_nil_of_inserted {ops : List BloomOp} {data : List UInt8} (h : data ∈ inserted ops) :
    data ≠ [] := by
  have hfold : ∀ (ops : List BloomOp) l, (∀ d ∈ l, d ≠ []) → ∀ d ∈ ops.foldl BloomOp.enter l,
      d ≠ [] := by
    intro ops
    induction ops with
    | nil => exact fun _ hl => hl
    | cons op ops ih =>
      refine fun l hl => ih _ fun d hd => ?_
      cases op with
      | insert data =>
        rw [BloomOp.enter] at hd
        split at hd
        · exact hl d hd
        · next hne => exact (List.mem_cons.mp hd).elim (fun he => he ▸ hne) (hl d)
      | reset => cases hd
  exact hfold ops [] (fun _ hd => by cases hd) data h

/-- In every run of a created filter of at most `2 ^ 64 - 64` bits, no access leaves the array, the
count is the number of items inserted since the last reset, a lookup says yes exactly when these
items cover all positions of the item it looks for, and so it finds each of them. -/
theorem bloom_exact (header array : Bool) (nb : UInt64) (k : UInt8) {bf₀ : BloomFilter}
    (hc : bloomFilterCreateRaw header array nb k = some bf₀) (hb : nb.toNat ≤ 2 ^ 64 - 64)
    (ops : List BloomOp) :
    ∃ bf, runOps ops bf₀ = .ok bf ∧ bf.count = UInt64.ofNat (inserted ops).length ∧
      (∀ data, bloomFilterLookup bf data =
        .ok (decide (data ≠ [] ∧ ∀ p ∈ bloomFilterHashes data nb k,
          Covered (inserted ops) nb k p))) ∧
      ∀ data ∈ inserted ops, bloomFilterLookup bf data = .ok true := by
  obtain ⟨hh₀, h0, -⟩ := holds_create hc
  obtain ⟨bf, he, hh⟩ := hh₀.run hb h0 ops
  refine ⟨bf, he, hh.count, hh.lookup hb h0, fun data hd => ?_⟩
  rw [hh.lookup hb h0]
  exact congrArg Except.ok (decide_eq_true ⟨ne_nil_of_inserted hd, fun p hp => ⟨data, hd, hp⟩⟩)

/-- Two items, a reset and an item, in a filter of 100 bits. -/
theorem bloom_exact_three : ∃ bf₀ bf, bloomFilterCreateRaw true true 100 3 = some bf₀ ∧
    runOps [.insert [1, 2], .insert [], .reset, .insert [3]] bf₀ = .ok bf ∧
    bloomFilterLookup bf [3] = .ok true := by
  obtain ⟨bf, he, -, -, hl⟩ :=
    bloom_exact true true 100 3 rfl (by decide) [.insert [1, 2], .insert [], .reset, .insert [3]]
  exact ⟨_, bf, rfl, he, hl [3] (by decide)⟩

/-- Every access of every run of a created filter is in its array if and only if the filter has at
most `2 ^ 64 - 64` bits: for more, the sum that `bloom_filter_create_raw` divides by the word size
overflows and the array has no words. -/
theorem bloom_in_bounds_iff (header array : Bool) (nb : UInt64) (k : UInt8) {bf₀ : BloomFilter}
    (hc : bloomFilterCreateRaw header array nb k = some bf₀) :
    (∀ ops data, ∃ bf found, runOps ops bf₀ = .ok bf ∧ bloomFilterLookup bf data = .ok found) ↔
      nb.toNat ≤ 2 ^ 64 - 64 := by
  obtain ⟨hh₀, h0, hk⟩ := holds_create hc
  constructor
  · intro hall
    by_contra hlt
    obtain ⟨bf, found, he, hl⟩ := hall [] [0]
    cases he
    -- the lookup of any item reads a word, and there is none
    have hsize : bf₀.bits.size = 0 := hh₀.size.trans (numWords_zero (by omega))
    have hkpos : 0 < k.toNat := Nat.pos_of_ne_zero fun h => hk (UInt8.toNat_inj.mp h)
    obtain ⟨j, hj⟩ := Nat.exists_eq_succ_of_ne_zero hkpos.ne'
    rw [bloomFilterLookup, if_neg (by simp), hh₀.numHashes, hj, List.range_succ_eq_map, lookupLoop,
      Block.load, if_neg (by rw [hsize]; exact Nat.not_lt_zero _)] at hl
    cases hl
  · intro hb ops data
    obtain ⟨bf, he, hh⟩ := hh₀.run hb h0 ops
    exact ⟨bf, _, he, hh.lookup hb h0 data⟩

/-- A filter of `2 ^ 64 - 1` bits. -/
theorem bloom_in_bounds_max :
    ∃ bf₀, bloomFilterCreateRaw true true 0xFFFFFFFFFFFFFFFF 1 = some bf₀ ∧
    ¬ ∀ ops data, ∃ bf found, runOps ops bf₀ = .ok bf ∧ bloomFilterLookup bf data = .ok found :=
  ⟨_, rfl, fun h => absurd ((bloom_in_bounds_iff true true 0xFFFFFFFFFFFFFFFF 1 rfl).mp h)
    (by decide)⟩

end Draugr.Bloom
