import Draugr.Amq.Vacuum
import Draugr.Cqf.InsertOnly
import Draugr.Rsqf.Defs

/-!
# Bit-packed storage

The accessors of the packed tables of the four filters, on blocks of memory that have a size: a read
or a write outside of the block is an error, and so is an assertion that fails. The positions are
computed in 64 bits, as the source does.

`ArrayLaws` is what the filters rely on. The counting filter refuses quotients and remainders that
do not fit into 64 bits together, so that the number of remainder bits never overflows;
`rsqf_filter_create` does not, and `storage_laws_iff` says when its table is big enough. The entries
of the other two filters are packed into sets, and no entry leaves its set.

The models of the filters have tables without a size. On a block that is big enough the accessors
here are theirs.
-/

namespace Draugr.Amq
open Draugr.Lib

/-- How an access fails. -/
inductive Fault where
  | bounds
  | assertion
  deriving DecidableEq, Repr

/-- A block of 64-bit words. -/
structure Block where
  size : ℕ
  words : Words

/-- Reads a word. -/
def Block.load (m : Block) (i : ℕ) : Except Fault (BitVec 64) :=
  if i < m.size then .ok (m.words i) else .error .bounds

/-- Writes a word. -/
def Block.store (m : Block) (i : ℕ) (w : BitVec 64) : Except Fault Block :=
  if i < m.size then .ok { m with words := Function.update m.words i w } else .error .bounds

/-- `rem_get`; `maskBits rbits` is `remainder_mask`. -/
def remGet (rbits : ℕ) (tbl : Block) (idx : ℕ) : Except Fault ℕ := do
  let bp := idx * rbits % 2 ^ 64
  let wi := bp / 64
  let bo := bp % 64
  let w ← tbl.load wi
  let v := w >>> bo
  if 64 < bo + rbits then
    let w ← tbl.load (wi + 1)
    return ((v ||| w <<< (64 - bo)) &&& maskBits rbits).toNat
  else return (v &&& maskBits rbits).toNat

/-- `rem_set`. -/
def remSet (rbits : ℕ) (tbl : Block) (idx v : ℕ) : Except Fault Block := do
  let mask := maskBits rbits
  let v := BitVec.ofNat 64 v
  let bp := idx * rbits % 2 ^ 64
  let wi := bp / 64
  let bo := bp % 64
  let m := mask <<< bo
  let w ← tbl.load wi
  let tbl ← tbl.store wi (w &&& ~~~m ||| (v &&& mask) <<< bo)
  if 64 < bo + rbits then
    let totalBits := (idx * rbits + rbits) % 2 ^ 64
    if wi + 1 < (totalBits + 63) % 2 ^ 64 / 64 then
      let m2 := mask >>> (64 - bo)
      let w ← tbl.load (wi + 1)
      tbl.store (wi + 1) (w &&& ~~~m2 ||| (v &&& mask) >>> (64 - bo))
    else throw .assertion
  else return tbl

/-- `remainder_words` of `cqf_filter_create` and `rsqf_filter_create`. -/
def remainderWords (numSlots rbits : ℕ) : ℕ := (numSlots * rbits % 2 ^ 64 + 63) % 2 ^ 64 / 64

/-- `set_get` on the set that begins at the word `set`. -/
def setGetIn (tbl : Block) (set off fpBits : ℕ) : Except Fault ℕ := do
  let bp := off * fpBits
  let wi := bp / 64
  let bo := bp % 64
  let w ← tbl.load (set + wi)
  let val := w >>> bo
  if wi + 1 < setWords ∧ 64 < bo + fpBits then
    let w ← tbl.load (set + wi + 1)
    return ((val ||| w <<< (64 - bo)) &&& maskBits fpBits).toNat
  else return (val &&& maskBits fpBits).toNat

/-- `set_set`. -/
def setSetIn (tbl : Block) (set off fpBits v : ℕ) : Except Fault Block := do
  let bp := off * fpBits
  let wi := bp / 64
  let bo := bp % 64
  let mask := maskBits fpBits <<< bo
  let w ← tbl.load (set + wi)
  let tbl ← tbl.store (set + wi) (w &&& ~~~mask ||| BitVec.ofNat 64 v <<< bo)
  if wi + 1 < setWords ∧ 64 < bo + fpBits then
    let mask2 := maskBits fpBits >>> (64 - bo)
    let w ← tbl.load (set + wi + 1)
    tbl.store (set + wi + 1) (w &&& ~~~mask2 ||| BitVec.ofNat 64 v >>> (64 - bo))
  else return tbl

/-- `cf_get` and `vf_get`. -/
def entryGet (entriesPerSet fpBits : ℕ) (tbl : Block) (idx : ℕ) : Except Fault ℕ :=
  setGetIn tbl (idx / entriesPerSet * setWords) (idx % entriesPerSet) fpBits

/-- `cf_set_entry` and `vf_set_entry`. -/
def entrySet (entriesPerSet fpBits : ℕ) (tbl : Block) (idx v : ℕ) : Except Fault Block :=
  setSetIn tbl (idx / entriesPerSet * setWords) (idx % entriesPerSet) fpBits v

/-- A block is an array of `n` values of `bits` bits: every access succeeds, a read gives the value
last written, cut to its width, and a write leaves the other values. -/
structure ArrayLaws (get : Block → ℕ → Except Fault ℕ) (set : Block → ℕ → ℕ → Except Fault Block)
    (bits n bound : ℕ) (tbl : Block) : Prop where
  reads : ∀ i < n, ∃ v, get tbl i = .ok v
  writes : ∀ i < n, ∀ v < bound, ∃ tbl', set tbl i v = .ok tbl' ∧ tbl'.size = tbl.size ∧
    get tbl' i = .ok (v % 2 ^ bits) ∧ ∀ j < n, j ≠ i → get tbl' j = get tbl j

variable {tbl : Block} {i w p f rbits n v idx : ℕ}

/-! ## Accesses in a block -/

/-- A load in bounds. -/
lemma Block.load_eq (h : i < tbl.size) : tbl.load i = .ok (tbl.words i) := if_pos h

/-- A store in bounds. -/
lemma Block.store_eq (h : i < tbl.size) (w : BitVec 64) :
    tbl.store i w = .ok { tbl with words := Function.update tbl.words i w } := if_pos h

/-- The words of a field are in a block that has its bits. -/
lemma field_in (h : p + f ≤ 64 * tbl.size) (hf : 0 < f) :
    p / 64 < tbl.size ∧ (64 < p % 64 + f → p / 64 + 1 < tbl.size) := by
  omega

/-- Cutting a value to its width is masking it. -/
lemma ofNat_and_maskBits (hf : f ≤ 64) (v : ℕ) :
    BitVec.ofNat 64 v &&& maskBits f = BitVec.ofNat 64 (v % 2 ^ f) := by
  refine BitVec.eq_of_getLsbD_eq fun j hj => ?_
  rw [BitVec.getLsbD_and, getLsbD_maskBits hf, BitVec.getLsbD_ofNat, BitVec.getLsbD_ofNat,
    Nat.testBit_mod_two_pow, decide_eq_true hj, Bool.true_and, Bool.true_and, Bool.and_comm]

/-- `rem_get` of an index whose bits are in the block. -/
lemma remGet_eq (h : idx * rbits + rbits ≤ 64 * tbl.size) (h64 : idx * rbits < 2 ^ 64)
    (hr : 0 < rbits) :
    remGet rbits tbl idx = .ok (getBits tbl.words (idx * rbits) rbits) := by
  obtain ⟨hlow, hhigh⟩ := field_in h hr
  unfold remGet getBits
  simp only [Nat.mod_eq_of_lt h64, Block.load_eq hlow, bind, Except.bind, pure, Except.pure]
  split_ifs with hc
  · simp only [Block.load_eq (hhigh hc)]
  · rfl

/-- `rem_set` of an index whose bits are in the block: the assertion holds when the bits up to the
end of the table are counted without overflow. -/
lemma remSet_eq (h : idx * rbits + rbits ≤ 64 * tbl.size) (h64 : idx * rbits + rbits + 63 < 2 ^ 64)
    (hr : 0 < rbits) (hr64 : rbits ≤ 64) (v : ℕ) :
    remSet rbits tbl idx v =
      .ok { tbl with words := setBits tbl.words (idx * rbits) rbits (v % 2 ^ rbits) } := by
  obtain ⟨hlow, hhigh⟩ := field_in h hr
  have hp : idx * rbits < 2 ^ 64 := by omega
  have htotal : idx * rbits + rbits < 2 ^ 64 := by omega
  unfold remSet setBits
  simp only [Nat.mod_eq_of_lt hp, Nat.mod_eq_of_lt htotal, Nat.mod_eq_of_lt h64, Block.load_eq hlow,
    Block.store_eq hlow, ofNat_and_maskBits hr64, bind, Except.bind, pure, Except.pure]
  by_cases hc : 64 < idx * rbits % 64 + rbits
  · have hassert : idx * rbits / 64 + 1 < (idx * rbits + rbits + 63) / 64 := by omega
    rw [if_pos hc, if_pos hassert, if_pos hc]
    simp only [Block.load, Block.store, if_pos (hhigh hc)]
  · rw [if_neg hc, if_neg hc]

/-- The bits of two indices do not overlap. -/
lemma index_disjoint {j : ℕ} (h : j ≠ i) (f : ℕ) : j * f + f ≤ i * f ∨ i * f + f ≤ j * f := by
  rcases Nat.lt_or_gt_of_ne h with hlt | hgt
  · left
    rw [← Nat.succ_mul]
    exact Nat.mul_le_mul_right f hlt
  · right
    rw [← Nat.succ_mul]
    exact Nat.mul_le_mul_right f hgt

/-! ## The remainder tables -/

/-- The words of a table whose bits are counted without overflow hold its bits. -/
lemma remainderWords_eq (hdvd : 64 ∣ n) (h64 : n * rbits < 2 ^ 64) :
    n * rbits + 63 < 2 ^ 64 ∧ 64 * remainderWords n rbits = n * rbits := by
  obtain ⟨b, rfl⟩ := hdvd
  unfold remainderWords
  rw [Nat.mul_assoc] at h64 ⊢
  generalize b * rbits = m at *
  omega

/-- A table of remainders whose bits are counted without overflow is an array. -/
lemma remTable_laws (hr : 0 < rbits) (hr64 : rbits ≤ 64) (hdvd : 64 ∣ n) (h64 : n * rbits < 2 ^ 64)
    (hsize : tbl.size = remainderWords n rbits) (bound : ℕ) :
    ArrayLaws (remGet rbits) (remSet rbits) rbits n bound tbl := by
  obtain ⟨hlt, hwords⟩ := remainderWords_eq hdvd h64
  rw [← hsize] at hwords
  have hfit : ∀ i < n, i * rbits + rbits ≤ n * rbits := fun i hi => by
    rw [← Nat.succ_mul]
    exact Nat.mul_le_mul_right rbits hi
  -- a read of any table of this size
  have hget : ∀ {m : Block} {i : ℕ}, m.size = tbl.size → i < n →
      remGet rbits m i = .ok (getBits m.words (i * rbits) rbits) := by
    intro m i hm hi
    have := hfit i hi
    exact remGet_eq (by omega) (by omega) hr
  refine ⟨fun i hi => ⟨_, hget rfl hi⟩, fun i hi v _ => ?_⟩
  have hi' := hfit i hi
  have hv : v % 2 ^ rbits < 2 ^ rbits := Nat.mod_lt _ (Nat.two_pow_pos rbits)
  refine ⟨_, remSet_eq (by omega) (by omega) hr hr64 v, rfl, ?_, fun j hj hne => ?_⟩
  · rw [hget (by rfl) hi]
    exact congrArg _ (getBits_setBits hr64 hv)
  · rw [hget (by rfl) hj, hget rfl hj]
    exact congrArg _ (getBits_setBits_of_disjoint hr64 hr64 hv (index_disjoint hne rbits))

/-- A table whose bits are not counted without overflow is not an array: the last index whose first
bit has a number is behind its last word. -/
lemma remTable_not_laws {bound : ℕ} (hr : 0 < rbits) (hr64 : rbits ≤ 64) (h64 : 2 ^ 64 ≤ n * rbits)
    (hsize : tbl.size = remainderWords n rbits) :
    ¬ ArrayLaws (remGet rbits) (remSet rbits) rbits n bound tbl := by
  intro h
  have hdiv := Nat.div_add_mod (2 ^ 64 - 1) rbits
  have hmod := Nat.mod_lt (2 ^ 64 - 1) hr
  rw [Nat.mul_comm] at hdiv
  have hidx : (2 ^ 64 - 1) / rbits < n := by
    refine Nat.div_lt_of_lt_mul ?_
    rw [Nat.mul_comm]
    omega
  have hword : (2 ^ 64 - 1) / rbits * rbits % 2 ^ 64 / 64 = 2 ^ 58 - 1 := by
    generalize (2 ^ 64 - 1) / rbits * rbits = p at *
    omega
  have hout : ¬ 2 ^ 58 - 1 < tbl.size := by
    rw [hsize, remainderWords]
    omega
  obtain ⟨v, hv⟩ := h.reads _ hidx
  unfold remGet at hv
  simp only [hword, Block.load, if_neg hout, bind, Except.bind, reduceCtorEq] at hv

/-! ## The sets of entries -/

variable {set off : ℕ}

/-- `set_get` in a block that has the set. -/
lemma setGetIn_eq (h : set + setWords ≤ tbl.size) (hoff : off * f + f ≤ 512) (hf : 0 < f) :
    setGetIn tbl set off f = .ok (setGet tbl.words set off f) := by
  unfold setWords at h
  have hlow : set + off * f / 64 < tbl.size := by omega
  unfold setGetIn setGet
  simp only [Block.load_eq hlow, bind, Except.bind, pure, Except.pure]
  split_ifs with hc
  · unfold setWords at hc
    simp only [Block.load_eq (show set + off * f / 64 + 1 < tbl.size by omega)]
  · rfl

/-- `set_set` in a block that has the set. -/
lemma setSetIn_eq (h : set + setWords ≤ tbl.size) (hoff : off * f + f ≤ 512) (hf : 0 < f) (v : ℕ) :
    setSetIn tbl set off f v = .ok { tbl with words := setSet tbl.words set off f v } := by
  unfold setWords at h
  have hlow : set + off * f / 64 < tbl.size := by omega
  unfold setSetIn setSet
  simp only [Block.load_eq hlow, Block.store_eq hlow, bind, Except.bind, pure, Except.pure]
  by_cases hc : off * f / 64 + 1 < setWords ∧ 64 < off * f % 64 + f
  · rw [if_pos hc, if_pos hc]
    unfold setWords at hc
    simp only [Block.load, Block.store, if_pos (show set + off * f / 64 + 1 < tbl.size by omega)]
  · rw [if_neg hc, if_neg hc]

variable {t : FpTable}

/-- The set of an entry is in a block that has the sets of all entries. -/
lemma set_in (heps : 0 < f) (hidx : idx < n) (hsize : tbl.size = (n + f - 1) / f * setWords) :
    idx / f * setWords + setWords ≤ tbl.size := by
  have hlt : idx / f < (n + f - 1) / f := by
    rw [Nat.lt_iff_add_one_le, Nat.le_div_iff_mul_le heps, Nat.succ_mul]
    have := Nat.div_mul_le_self idx f
    omega
  rw [hsize, ← Nat.succ_mul]
  exact Nat.mul_le_mul_right _ hlt

/-- `cf_get` and `vf_get` are those of the filters. -/
lemma entryGet_eq (ht : t.Wf) (hw : tbl.words = t.words)
    (h : idx / t.entriesPerSet * setWords + setWords ≤ tbl.size) :
    entryGet t.entriesPerSet t.fingerprintBits tbl idx = .ok (t.get idx) := by
  rw [entryGet, setGetIn_eq h (ht.fits idx) ht.bits_pos, hw]
  rfl

/-- `cf_set_entry` and `vf_set_entry` are those of the filters. -/
lemma entrySet_eq (ht : t.Wf) (hw : tbl.words = t.words)
    (h : idx / t.entriesPerSet * setWords + setWords ≤ tbl.size) (v : ℕ) :
    entrySet t.entriesPerSet t.fingerprintBits tbl idx v =
      .ok { tbl with words := (t.setEntry idx v).words } := by
  rw [entrySet, setSetIn_eq h (ht.fits idx) ht.bits_pos, hw]
  rfl

/-- A table of entries is an array, and no entry leaves its set. -/
structure EntryLaws (entriesPerSet fpBits n : ℕ) (tbl : Block) : Prop where
  array : ArrayLaws (entryGet entriesPerSet fpBits) (entrySet entriesPerSet fpBits) fpBits n
    (2 ^ fpBits) tbl
  inSet : ∀ i < n, i % entriesPerSet * fpBits + fpBits ≤ 64 * setWords

/-- A table that has the sets of all entries is an array. -/
lemma entryTable_laws (ht : t.Wf)
    (hsize : tbl.size = (n + t.entriesPerSet - 1) / t.entriesPerSet * setWords) :
    EntryLaws t.entriesPerSet t.fingerprintBits n tbl := by
  have hin : ∀ i < n, i / t.entriesPerSet * setWords + setWords ≤ tbl.size := fun i hi =>
    set_in ht.perSet_pos hi hsize
  -- the table of the filter that has the words of the block
  obtain ⟨u, hu, huw, hue, huf⟩ : ∃ u : FpTable, u.Wf ∧ u.words = tbl.words ∧
      u.entriesPerSet = t.entriesPerSet ∧ u.fingerprintBits = t.fingerprintBits :=
    ⟨{ t with words := tbl.words }, ⟨ht.bits_pos, ht.bits_le, ht.perSet, ht.bucket⟩, rfl, rfl, rfl⟩
  rw [← hue] at hin
  rw [← hue, ← huf]
  refine ⟨⟨fun i hi => ⟨_, entryGet_eq hu huw.symm (hin i hi)⟩, fun i hi v hv => ?_⟩,
    fun i _ => hu.fits i⟩
  have hread :
    ∀ j < n, entryGet u.entriesPerSet u.fingerprintBits ⟨tbl.size, (u.setEntry i v).words⟩ j =
      .ok ((u.setEntry i v).get j) := fun j hj => entryGet_eq (hu.setEntry i v) rfl (hin j hj)
  refine ⟨_, entrySet_eq hu huw.symm (hin i hi) v, rfl, ?_, fun j hj hne => ?_⟩
  · rw [hread i hi, hu.get_setEntry hv, Nat.mod_eq_of_lt hv]
  · rw [hread j hj, hu.get_setEntry_ne hv hne, entryGet_eq hu huw.symm (hin j hj)]

/-! ## The created filters -/

/-- What `rsqf_filter_create` gives. -/
lemma rsqf_create {capacity fpBits : ℕ} {rf : Rsqf.RsqfFilter}
    (hc : Rsqf.rsqfFilterCreate capacity fpBits = some rf) :
    0 < rf.remainderBits ∧ rf.remainderBits ≤ 32 ∧ 64 ∣ rf.numSlots := by
  unfold Rsqf.rsqfFilterCreate at hc
  extract_lets f0 f1 f2 nb at hc
  split_ifs at hc with h0
  cases hc
  have hwidth : 0 < f2 ∧ f2 ≤ 32 := by
    unfold f2 f1
    split_ifs <;> omega
  exact ⟨hwidth.1, hwidth.2, Dvd.intro_left nb rfl⟩

/-- The number of sets of a cuckoo filter. -/
lemma cuckoo_sets {capacity bucketSize fpBits maxKicks : ℕ} {cf : CuckooFilter}
    (hc : cuckooFilterCreate capacity bucketSize fpBits maxKicks = some cf) :
    cf.numSets = (cf.numEntries + cf.entriesPerSet - 1) / cf.entriesPerSet := by
  unfold cuckooFilterCreate at hc
  extract_lets bs fb mk at hc
  split_ifs at hc with h
  cases hc
  rfl

/-- The number of sets of a vacuum filter. -/
lemma vacuum_sets {rangeSelection : ℕ → ℕ → ℕ → ℕ} {bucketsFor : ℕ → ℕ → ℕ}
    {capacity bucketSize fpBits maxEvicts : ℕ} {vf : VacuumFilter}
    (hc : vacuumFilterCreate rangeSelection bucketsFor capacity bucketSize fpBits maxEvicts =
      some vf) :
    vf.numSets = (vf.numEntries + vf.entriesPerSet - 1) / vf.entriesPerSet := by
  unfold vacuumFilterCreate at hc
  extract_lets bs fb me at hc
  split_ifs at hc with h h'
  cases hc
  rfl

/-- The remainder tables of all counting filters are arrays, whatever is written; those of the other
quotient filter are if and only if the number of their bits fits into 64 bits. The entries of all
cuckoo filters and vacuum filters are arrays of the values of their width, and no entry leaves its
set. -/
theorem storage_laws_iff (malloc : Bool) (rangeSelection : ℕ → ℕ → ℕ → ℕ) (bucketsFor : ℕ → ℕ → ℕ)
    (capacity bucketSize fpBits limit : ℕ) :
    (∀ cf : Cqf.CqfFilter, Cqf.cqfFilterCreate malloc capacity fpBits = some (some cf) →
      ∀ tbl : Block, tbl.size = remainderWords cf.numSlots cf.remainderBits →
        ArrayLaws (remGet cf.remainderBits) (remSet cf.remainderBits) cf.remainderBits cf.numSlots
        (2 ^ 64) tbl) ∧
    (∀ rf : Rsqf.RsqfFilter, Rsqf.rsqfFilterCreate capacity fpBits = some rf →
      ((∀ tbl : Block, tbl.size = remainderWords rf.numSlots rf.remainderBits →
        ArrayLaws (remGet rf.remainderBits) (remSet rf.remainderBits) rf.remainderBits rf.numSlots
        (2 ^ 64) tbl) ↔
        rf.numSlots * rf.remainderBits < 2 ^ 64)) ∧
    (∀ cf : CuckooFilter, cuckooFilterCreate capacity bucketSize fpBits limit = some cf →
      ∀ tbl : Block, tbl.size = cf.numSets * setWords →
        EntryLaws cf.entriesPerSet cf.fingerprintBits cf.numEntries tbl) ∧
    ∀ vf : VacuumFilter,
      vacuumFilterCreate rangeSelection bucketsFor capacity bucketSize fpBits limit = some vf →
      ∀ tbl : Block, tbl.size = vf.numSets * setWords →
        EntryLaws vf.entriesPerSet vf.fingerprintBits vf.numEntries tbl := by
  refine ⟨fun cf hc tbl hsize => ?cqf, fun rf hc => ?rsqf, fun cf hc tbl hsize => ?cuckoo,
    fun vf hc tbl hsize => ?vacuum⟩
  case cqf =>
    obtain ⟨hf, -, -, hsum⟩ := Cqf.create_eq_some hc
    have hw := Cqf.width_clampBits fpBits
    rw [hf.remainderBits, hf.numSlots] at *
    refine remTable_laws (by have := hw.1; omega) (by have := hw.2; omega) ?_ ?_ hsize _
    · exact pow_dvd_pow 2 (le_max_left 6 _)
    · -- the remainder bits are fewer than `2 ^ r`
      calc _ < 2 ^ Cqf.quotientBits capacity * 2 ^ Cqf.clampBits fpBits :=
            Nat.mul_lt_mul_of_pos_left Nat.lt_two_pow_self (Nat.two_pow_pos _)
        _ = 2 ^ (Cqf.quotientBits capacity + Cqf.clampBits fpBits) := (pow_add ..).symm
        _ ≤ 2 ^ 64 := Nat.pow_le_pow_right Nat.two_pos hsum
  case rsqf =>
    obtain ⟨hpos, h32, hdvd⟩ := rsqf_create hc
    refine ⟨fun h => ?_, fun h64 tbl hsize => remTable_laws hpos (by omega) hdvd h64 hsize _⟩
    by_contra h64
    exact remTable_not_laws hpos (by omega) (Nat.not_lt.mp h64) rfl (h ⟨_, fun _ => 0⟩ rfl)
  case cuckoo =>
    obtain ⟨_, _, _, hgood, -, -⟩ := cuckoo_create hc
    rw [cuckoo_sets hc] at hsize
    exact entryTable_laws hgood.wf hsize
  case vacuum =>
    obtain ⟨-, -, hwf, -, -⟩ := vacuum_create hc
    rw [vacuum_sets hc] at hsize
    exact entryTable_laws hwf hsize

/-- The table of a filter with 64 slots of 5 bits, some of which run over the end of a word, is an
array. -/
theorem storage_laws_five :
    ∃ rf, Rsqf.rsqfFilterCreate 64 5 = some rf ∧ rf.numSlots * rf.remainderBits < 2 ^ 64 ∧
    ∀ tbl : Block, tbl.size = remainderWords rf.numSlots rf.remainderBits →
      ArrayLaws (remGet rf.remainderBits) (remSet rf.remainderBits) rf.remainderBits rf.numSlots
      (2 ^ 64) tbl := by
  obtain ⟨rf, hc, h64⟩ : ∃ rf,
      Rsqf.rsqfFilterCreate 64 5 = some rf ∧ rf.numSlots * rf.remainderBits < 2 ^ 64 :=
    ⟨_, rfl, by decide +kernel⟩
  exact ⟨rf, hc, h64,
    ((storage_laws_iff true (fun _ _ _ => 1) (fun _ _ => 4) 64 4 5 2).2.1 rf hc).mpr h64⟩

/-- With `2 ^ 59` slots of 32 bits the number of bits wraps to 0. The table has no words, and
`rem_set` writes behind its end. -/
theorem storage_overflow :
    ∃ rf, Rsqf.rsqfFilterCreate (2 ^ 59) 32 = some rf ∧ rf.numSlots = 2 ^ 59 ∧
    rf.remainderBits = 32 ∧ ∃ tbl : Block, tbl.size = remainderWords rf.numSlots rf.remainderBits ∧
      remSet rf.remainderBits tbl 0 1 = .error .bounds ∧
      ¬ ArrayLaws (remGet rf.remainderBits) (remSet rf.remainderBits) rf.remainderBits rf.numSlots
      (2 ^ 64) tbl := by
  obtain ⟨rf, hc, hn, hr⟩ : ∃ rf,
    Rsqf.rsqfFilterCreate (2 ^ 59) 32 = some rf ∧ rf.numSlots = 2 ^ 59 ∧
      rf.remainderBits = 32 := ⟨_, rfl, by decide +kernel, rfl⟩
  have hwords : remainderWords rf.numSlots rf.remainderBits = 0 := by
    rw [hn, hr]
    decide
  refine ⟨rf, hc, hn, hr, ⟨0, fun _ => 0⟩, hwords.symm, ?_, ?_⟩
  · rw [hr]
    rfl
  · rw [hr, hn]
    exact remTable_not_laws (by decide) (by decide) (by decide) (by decide)

end Draugr.Amq
