import Draugr.Lib.Packed
import Draugr.Lib.Tally
import Mathlib.Data.List.Range

/-!
# The fingerprint table

The parts that `src/cuckoo_filter.c` and `src/vacuum_filter.c` have in common, word for word:
fingerprints packed into sets of eight words, buckets of consecutive entries, the search of a
bucket, the mixer and the fingerprint of a hash. Entry value 0 is an empty entry.

A test of a bucket and a fingerprint is `Closed` under a map of alternate buckets when it does not
tell a bucket from the alternate one. What an insertion does to a closed test is the whole account
of a filter: a fingerprint may move between its two buckets, and each move leaves the tally of the
test as it was.
-/

namespace Draugr.Amq
open Draugr.Lib

/-- `cuckoo_err_t` and `vacuum_err_t`, as far as the functions below return them. -/
inductive AmqErr where
  | ok
  | full
  | notFound
  deriving DecidableEq, Repr

/-- `mix32`. -/
def mix32 (x : ℕ) : ℕ :=
  let x := x ^^^ x >>> 16
  let x := x * 0x85ebca6b % 2 ^ 32
  let x := x ^^^ x >>> 13
  let x := x * 0xc2b2ae35 % 2 ^ 32
  x ^^^ x >>> 16

/-- `CUCKOO_SET_WORDS` and `VACUUM_SET_WORDS`. -/
def setWords : ℕ := 8

/-- `set_get`, where `set` is the number of the first word of the set; `maskBits f` is `(1ULL << f)
- 1`. -/
def setGet (w : Words) (set off fpBits : ℕ) : ℕ :=
  let bp := off * fpBits
  let wi := bp / 64
  let bo := bp % 64
  let val := w (set + wi) >>> bo
  let val := if wi + 1 < setWords ∧ 64 < bo + fpBits then val ||| w (set + wi + 1) <<< (64 - bo)
    else val
  (val &&& maskBits fpBits).toNat

/-- `set_set`. -/
def setSet (w : Words) (set off fpBits v : ℕ) : Words :=
  let bp := off * fpBits
  let wi := bp / 64
  let bo := bp % 64
  let mask := maskBits fpBits <<< bo
  let u := Function.update w (set + wi) (w (set + wi) &&& ~~~mask ||| BitVec.ofNat 64 v <<< bo)
  if wi + 1 < setWords ∧ 64 < bo + fpBits then
    let mask2 := maskBits fpBits >>> (64 - bo)
    Function.update u (set + wi + 1)
      (u (set + wi + 1) &&& ~~~mask2 ||| BitVec.ofNat 64 v >>> (64 - bo))
  else u

/-- The table after the header, with the fields of the header that say how it is laid out. -/
structure FpTable where
  words : Words
  entriesPerSet : ℕ
  fingerprintBits : ℕ
  bucketSize : ℕ

/-- `cf_get` and `vf_get`. -/
def FpTable.get (t : FpTable) (idx : ℕ) : ℕ :=
  setGet t.words (idx / t.entriesPerSet * setWords) (idx % t.entriesPerSet) t.fingerprintBits

/-- `cf_set_entry` and `vf_set_entry`. -/
def FpTable.setEntry (t : FpTable) (idx v : ℕ) : FpTable :=
  { t with
    words := setSet t.words (idx / t.entriesPerSet * setWords) (idx % t.entriesPerSet)
      t.fingerprintBits v }

/-- `find_fingerprint`. -/
def FpTable.findFingerprint (t : FpTable) (bucketIdx fp : ℕ) : Option ℕ :=
  (List.range t.bucketSize).find? fun i => t.get (bucketIdx * t.bucketSize + i) == fp

/-- `find_empty_slot`. -/
def FpTable.findEmptySlot (t : FpTable) (bucketIdx : ℕ) : Option ℕ := t.findFingerprint bucketIdx 0

/-- `cuckoo_fingerprint` and `vacuum_fingerprint`. -/
def fingerprint (hash : UInt64) (fpBits : ℕ) : ℕ :=
  let fp := (hash.toNat &&& (2 ^ fpBits - 1)) % 2 ^ 32
  if fp = 0 then 1 else fp

/-- The body of `cuckoo_filter_lookup` and `vacuum_filter_lookup`. -/
def FpTable.lookupIn (t : FpTable) (i1 i2 fp : ℕ) : Bool :=
  (t.findFingerprint i1 fp).isSome || (t.findFingerprint i2 fp).isSome

/-- The body of `cuckoo_filter_delete` and `vacuum_filter_delete`; `none` if no entry is found. -/
def FpTable.deleteIn (t : FpTable) (i1 i2 fp : ℕ) : Option FpTable :=
  match t.findFingerprint i1 fp with
  | some slot => some (t.setEntry (i1 * t.bucketSize + slot) 0)
  | none =>
    match t.findFingerprint i2 fp with
    | some slot => some (t.setEntry (i2 * t.bucketSize + slot) 0)
    | none => none

/-- The fast path of `cuckoo_filter_insert` and `vacuum_filter_insert`; `none` if both buckets are
full. -/
def FpTable.insertIn (t : FpTable) (i1 i2 fp : ℕ) : Option FpTable :=
  match t.findEmptySlot i1 with
  | some slot => some (t.setEntry (i1 * t.bucketSize + slot) fp)
  | none =>
    match t.findEmptySlot i2 with
    | some slot => some (t.setEntry (i2 * t.bucketSize + slot) fp)
    | none => none

/-- The entry that an eviction takes out of a bucket. -/
def evictSlot (n fp bucketSize : ℕ) : ℕ := (mix32 (n ^^^ fp) * bucketSize) >>> 32

/-- The roll-back of an eviction chain: the entries are written back, the last one first. -/
def rollback (t : FpTable) : List (ℕ × ℕ) → FpTable
  | [] => t
  | (idx, orig) :: evicted => rollback (t.setEntry idx orig) evicted

/-! ## The entries -/

/-- A table whose layout is that of the source. -/
structure FpTable.Wf (t : FpTable) : Prop where
  bits_pos : 0 < t.fingerprintBits
  bits_le : t.fingerprintBits ≤ 32
  perSet : t.entriesPerSet = 512 / t.fingerprintBits
  bucket : 0 < t.bucketSize

/-- The layout of two tables is the same. -/
def SameLayout (t t' : FpTable) : Prop :=
  t'.entriesPerSet = t.entriesPerSet ∧ t'.fingerprintBits = t.fingerprintBits ∧
  t'.bucketSize = t.bucketSize

variable {t t' : FpTable} {idx jdx v b fp n : ℕ}

/-- The first bit of an entry. -/
def FpTable.pos (t : FpTable) (idx : ℕ) : ℕ :=
  idx / t.entriesPerSet * 512 + idx % t.entriesPerSet * t.fingerprintBits

/-- There is room for an entry in a set. -/
lemma FpTable.Wf.perSet_pos (h : t.Wf) : 0 < t.entriesPerSet := by
  rw [h.perSet]
  exact Nat.div_pos (h.bits_le.trans (by decide)) h.bits_pos

/-- No entry crosses the end of its set. -/
lemma FpTable.Wf.fits (h : t.Wf) (idx : ℕ) :
    idx % t.entriesPerSet * t.fingerprintBits + t.fingerprintBits ≤ 512 := by
  have hlt := Nat.mod_lt idx h.perSet_pos
  have hle : (idx % t.entriesPerSet + 1) * t.fingerprintBits ≤
      t.entriesPerSet * t.fingerprintBits :=
    Nat.mul_le_mul_right _ hlt
  have h512 : t.entriesPerSet * t.fingerprintBits ≤ 512 := by
    rw [h.perSet]
    exact Nat.div_mul_le_self ..
  rw [Nat.succ_mul] at hle
  exact hle.trans h512

/-- An entry is read as a field of the array of words. -/
lemma FpTable.Wf.get_eq (h : t.Wf) (idx : ℕ) :
    t.get idx = getBits t.words (t.pos idx) t.fingerprintBits := by
  have hfit := h.fits idx
  unfold FpTable.get setGet FpTable.pos getBits setWords
  generalize idx % t.entriesPerSet * t.fingerprintBits = p at *
  generalize idx / t.entriesPerSet = si
  rw [show (si * 512 + p) / 64 = si * 8 + p / 64 by omega,
    show (si * 512 + p) % 64 = p % 64 by omega]
  have hiff : (p / 64 + 1 < 8 ∧ 64 < p % 64 + t.fingerprintBits) ↔
      64 < p % 64 + t.fingerprintBits :=
    ⟨fun h => h.2, fun h => ⟨by omega, h⟩⟩
  simp only [hiff]

/-- An entry is written as a field of the array of words. -/
lemma FpTable.Wf.setEntry_eq (h : t.Wf) (idx v : ℕ) :
    t.setEntry idx v = { t with words := setBits t.words (t.pos idx) t.fingerprintBits v } := by
  have hfit := h.fits idx
  unfold FpTable.setEntry setSet FpTable.pos setBits setWords
  generalize idx % t.entriesPerSet * t.fingerprintBits = p at *
  generalize idx / t.entriesPerSet = si
  rw [show (si * 512 + p) / 64 = si * 8 + p / 64 by omega,
    show (si * 512 + p) % 64 = p % 64 by omega]
  have hiff : (p / 64 + 1 < 8 ∧ 64 < p % 64 + t.fingerprintBits) ↔
      64 < p % 64 + t.fingerprintBits :=
    ⟨fun h => h.2, fun h => ⟨by omega, h⟩⟩
  simp only [hiff]

/-- Two entries do not overlap. -/
lemma FpTable.Wf.pos_disjoint (h : t.Wf) (hne : idx ≠ jdx) :
    t.pos idx + t.fingerprintBits ≤ t.pos jdx ∨ t.pos jdx + t.fingerprintBits ≤ t.pos idx := by
  have hi := h.fits idx
  have hj := h.fits jdx
  have hidx := Nat.div_add_mod idx t.entriesPerSet
  have hjdx := Nat.div_add_mod jdx t.entriesPerSet
  unfold FpTable.pos
  rcases Nat.lt_trichotomy (idx / t.entriesPerSet) (jdx / t.entriesPerSet) with hlt | heq | hgt
  · omega
  · rw [heq] at hidx ⊢
    rcases Nat.lt_or_gt_of_ne (show idx % t.entriesPerSet ≠ jdx % t.entriesPerSet by omega) with
      hlt | hgt
    · have := Nat.mul_le_mul_right t.fingerprintBits (Nat.succ_le_of_lt hlt)
      rw [Nat.succ_mul] at this
      omega
    · have := Nat.mul_le_mul_right t.fingerprintBits (Nat.succ_le_of_lt hgt)
      rw [Nat.succ_mul] at this
      omega
  · omega

/-- A written table keeps its format. -/
lemma FpTable.Wf.setEntry (h : t.Wf) (idx v : ℕ) : (t.setEntry idx v).Wf :=
  ⟨h.bits_pos, h.bits_le, h.perSet, h.bucket⟩

/-- An entry has `fingerprintBits` bits. -/
lemma FpTable.Wf.get_lt (h : t.Wf) (idx : ℕ) : t.get idx < 2 ^ t.fingerprintBits := by
  rw [h.get_eq]
  exact getBits_lt (h.bits_le.trans (by decide))

/-- A read of the entry that was written. -/
lemma FpTable.Wf.get_setEntry (h : t.Wf) (hv : v < 2 ^ t.fingerprintBits) :
    (t.setEntry idx v).get idx = v := by
  rw [(h.setEntry idx v).get_eq, h.setEntry_eq]
  exact getBits_setBits (h.bits_le.trans (by decide)) hv

/-- A read of another entry. -/
lemma FpTable.Wf.get_setEntry_ne (h : t.Wf) (hv : v < 2 ^ t.fingerprintBits) (hne : jdx ≠ idx) :
    (t.setEntry idx v).get jdx = t.get jdx := by
  have hf := h.bits_le.trans (by decide : 32 ≤ 64)
  rw [(h.setEntry idx v).get_eq, h.setEntry_eq, h.get_eq]
  exact getBits_setBits_of_disjoint hf hf hv (h.pos_disjoint hne)

/-- Writing an entry back undoes a write. -/
lemma FpTable.Wf.setEntry_get (h : t.Wf) (hv : v < 2 ^ t.fingerprintBits) :
    (t.setEntry idx v).setEntry idx (t.get idx) = t := by
  rw [(h.setEntry idx v).setEntry_eq, h.setEntry_eq, h.get_eq]
  change ({ t with words := _ } : FpTable) = t
  rw [show setBits (setBits t.words (t.pos idx) t.fingerprintBits v)
    (FpTable.pos { t with words := setBits t.words (t.pos idx) t.fingerprintBits v } idx)
      t.fingerprintBits
    (getBits t.words (t.pos idx) t.fingerprintBits) = t.words from
      setBits_getBits (h.bits_le.trans (by decide)) hv]

/-- What a search of a bucket finds. -/
lemma FpTable.findFingerprint_some {i : ℕ} (h : t.findFingerprint b fp = some i) :
    i < t.bucketSize ∧ t.get (b * t.bucketSize + i) = fp :=
  ⟨List.mem_range.mp (List.mem_of_find?_eq_some h), by simpa using List.find?_some h⟩

/-- Where `find_fingerprint` finds nothing, no entry of the bucket is the fingerprint. -/
lemma FpTable.findFingerprint_none (h : t.findFingerprint b fp = none) {i : ℕ}
    (hi : i < t.bucketSize) :
    t.get (b * t.bucketSize + i) ≠ fp := by
  simpa using List.find?_eq_none.mp h i (List.mem_range.mpr hi)

/-- A bucket without an empty entry. -/
def FpTable.FullBucket (t : FpTable) (b : ℕ) : Prop :=
  ∀ i < t.bucketSize, t.get (b * t.bucketSize + i) ≠ 0

/-- A bucket without an empty slot is full. -/
lemma FpTable.fullBucket (h : t.findEmptySlot b = none) : t.FullBucket b :=
  fun _ hi => t.findFingerprint_none h hi

/-- A fingerprint is not 0. -/
lemma fingerprint_ne_zero (hash : UInt64) (f : ℕ) : fingerprint hash f ≠ 0 := by
  unfold fingerprint
  extract_lets fp
  split_ifs with h
  · exact one_ne_zero
  · exact h

/-- A fingerprint fits its entry. -/
lemma fingerprint_lt (hash : UInt64) {f : ℕ} (hf : 0 < f) : fingerprint hash f < 2 ^ f := by
  unfold fingerprint
  extract_lets fp
  split_ifs with h
  · exact Nat.one_lt_two_pow hf.ne'
  · refine (Nat.mod_le ..).trans_lt ?_
    rw [Nat.and_two_pow_sub_one_eq_mod]
    exact Nat.mod_lt _ (Nat.two_pow_pos f)

/-- The mixing step of a hash keeps its bits. -/
lemma xor_shiftRight_lt {x k m : ℕ} (h : x < 2 ^ k) : x ^^^ x >>> m < 2 ^ k :=
  Nat.xor_lt_two_pow h ((Nat.shiftRight_le x m).trans_lt h)

/-- The mixer gives 32 bits. -/
lemma mix32_lt (x : ℕ) : mix32 x < 2 ^ 32 := by
  unfold mix32
  exact xor_shiftRight_lt (Nat.mod_lt _ (Nat.two_pow_pos 32))

/-- The evicted entry is one of the bucket. -/
lemma evictSlot_lt (n fp : ℕ) {bs : ℕ} (h : 0 < bs) : evictSlot n fp bs < bs := by
  unfold evictSlot
  rw [Nat.shiftRight_eq_div_pow]
  refine Nat.div_lt_of_lt_mul ?_
  exact Nat.mul_lt_mul_of_pos_right (mix32_lt _) h

/-! ## Tests of a bucket and a fingerprint -/

/-- The number of entries in the buckets below `nb` that pass a test of their bucket and value. -/
def FpTable.number (t : FpTable) (nb : ℕ) (Q : ℕ → ℕ → Bool) : ℕ :=
  tally (nb * t.bucketSize) (fun idx v => Q (idx / t.bucketSize) v) t.get

/-- The alternate bucket of a fingerprint: it is a bucket, and the alternate of the alternate is the
first. -/
structure AltLaws (nb f : ℕ) (alt : ℕ → ℕ → ℕ) : Prop where
  lt : ∀ b < nb, ∀ v < 2 ^ f, v ≠ 0 → alt b v < nb
  invol : ∀ b < nb, ∀ v < 2 ^ f, v ≠ 0 → alt (alt b v) v = b

/-- A test that does not tell the two buckets of a fingerprint apart, and fails for empty
entries. -/
structure Closed (nb f : ℕ) (alt : ℕ → ℕ → ℕ) (Q : ℕ → ℕ → Bool) : Prop where
  empty : ∀ b, Q b 0 = false
  alt : ∀ b < nb, ∀ v < 2 ^ f, v ≠ 0 → Q (alt b v) v = Q b v

/-- The test for an entry that is not empty. -/
def isEntry (_ v : ℕ) : Bool := v != 0

/-- The test for the class of the bucket `i` and the fingerprint `fp`. -/
def inClass (alt : ℕ → ℕ → ℕ) (i fp b v : ℕ) : Bool := v == fp && (b == i || b == alt i fp)

variable {nb f : ℕ} {alt : ℕ → ℕ → ℕ} {Q : ℕ → ℕ → Bool}

/-- Not being empty does not tell the two buckets of a fingerprint apart. -/
lemma closed_isEntry : Closed nb f alt isEntry := ⟨fun _ => rfl, fun _ _ _ _ _ => rfl⟩

/-- Being in a class does not tell its two buckets apart. -/
lemma closed_inClass (h : AltLaws nb f alt) {i : ℕ} (hi : i < nb) (hfp : fp ≠ 0) :
    Closed nb f alt (inClass alt i fp) := by
  refine ⟨fun b => by simp [inClass, Ne.symm hfp], fun b hb v hv hv0 => ?_⟩
  unfold inClass
  by_cases hvf : v = fp
  swap
  · rw [beq_false_of_ne hvf, Bool.false_and, Bool.false_and]
  subst hvf
  have hinj : ∀ c < nb, ∀ d < nb, (alt c v = d ↔ c = alt d v) := by
    intro c hc d hd
    constructor
    · rintro rfl
      exact (h.invol c hc v hv hv0).symm
    · rintro rfl
      exact h.invol d hd v hv hv0
  rw [Bool.eq_iff_iff]
  simp only [beq_self_eq_true, Bool.true_and, Bool.or_eq_true, beq_iff_eq]
  rw [hinj b hb i hi, hinj b hb _ (h.lt i hi v hv hv0), h.invol i hi v hv hv0, or_comm]

/-- The bucket of an entry number. -/
lemma bucket_of_entry {bs i : ℕ} (hi : i < bs) : (b * bs + i) / bs = b := by
  rw [Nat.mul_comm, Nat.mul_add_div (by omega), Nat.div_eq_of_lt hi, Nat.add_zero]

/-- An entry of a bucket of the table is in the table. -/
lemma entry_lt {bs i : ℕ} (hb : b < nb) (hi : i < bs) : b * bs + i < nb * bs := by
  have := Nat.mul_le_mul_right bs (Nat.succ_le_of_lt hb)
  rw [Nat.succ_mul] at this
  omega

/-- What a write does to a count. -/
lemma FpTable.Wf.number_setEntry (h : t.Wf) (hb : b < nb) {i : ℕ} (hi : i < t.bucketSize)
    (hv : v < 2 ^ t.fingerprintBits) :
    (t.setEntry (b * t.bucketSize + i) v).number nb Q + (Q b (t.get (b * t.bucketSize + i))).toNat =
      t.number nb Q + (Q b v).toNat := by
  have hw := tally_write (Q := fun idx v => Q (idx / t.bucketSize) v) (entry_lt hb hi)
    fun j _ hj => h.get_setEntry_ne (v := v) hv hj
  simp only [bucket_of_entry hi, h.get_setEntry hv] at hw
  exact hw

/-- An entry written into an empty slot adds its own test. -/
lemma FpTable.Wf.number_place (h : t.Wf) (hQ : Closed nb t.fingerprintBits alt Q)
    (hb : b < nb) {i : ℕ} (hi : t.findEmptySlot b = some i) (hv : v < 2 ^ t.fingerprintBits) :
    (t.setEntry (b * t.bucketSize + i) v).number nb Q = t.number nb Q + (Q b v).toNat := by
  obtain ⟨hlt, h0⟩ := t.findFingerprint_some hi
  have := h.number_setEntry (Q := Q) hb hlt hv
  rwa [h0, hQ.empty] at this

/-! ## Insertions and eviction chains -/

/-- A table is another one with the fingerprint `fp` added in one of its buckets `b` and the
alternate, and fingerprints moved between their buckets. -/
structure Inserted (nb : ℕ) (alt : ℕ → ℕ → ℕ) (t : FpTable) (b fp : ℕ) (t' : FpTable) : Prop where
  wf : t'.Wf
  layout : SameLayout t t'
  count : ∀ Q, Closed nb t.fingerprintBits alt Q → t'.number nb Q = t.number nb Q + (Q b fp).toNat

/-- An eviction chain in `t₀` for `fp₀` in `b₀` has come to the table `t`, with `fp` to be placed in
`b`: the roll-back leads back, and the counts are right once `fp` has a place. -/
structure Chain (nb : ℕ) (alt : ℕ → ℕ → ℕ) (t₀ : FpTable) (b₀ fp₀ : ℕ) (t : FpTable) (b fp : ℕ)
    (evicted : List (ℕ × ℕ)) : Prop where
  wf : t.Wf
  layout : SameLayout t₀ t
  back : rollback t evicted = t₀
  bucket : b < nb
  ne_zero : fp ≠ 0
  fits : fp < 2 ^ t.fingerprintBits
  count : ∀ Q,
    Closed nb t.fingerprintBits alt Q →
    t.number nb Q + (Q b fp).toNat = t₀.number nb Q + (Q b₀ fp₀).toNat

variable {t₀ : FpTable} {b₀ fp₀ : ℕ} {evicted : List (ℕ × ℕ)}

/-- A table has its own layout. -/
lemma SameLayout.refl (t : FpTable) : SameLayout t t := ⟨rfl, rfl, rfl⟩

/-- Layouts compose. -/
lemma SameLayout.trans {t₁ t₂ t₃ : FpTable} (h : SameLayout t₁ t₂) (h' : SameLayout t₂ t₃) :
    SameLayout t₁ t₃ :=
  ⟨h'.1.trans h.1, h'.2.1.trans h.2.1, h'.2.2.trans h.2.2⟩

/-- The empty chain, for either bucket of a fingerprint. -/
lemma Chain.nil (h : t.Wf) (hb : b < nb) (hfp : fp ≠ 0) (hf : fp < 2 ^ t.fingerprintBits) :
    Chain nb alt t b fp t b fp [] := ⟨h, .refl t, rfl, hb, hfp, hf, fun _ _ => rfl⟩

/-- The fingerprint to be placed may go to its alternate bucket. -/
lemma Chain.swap (hc : Chain nb alt t₀ b₀ fp₀ t b fp evicted)
    (ha : AltLaws nb t.fingerprintBits alt) :
    Chain nb alt t₀ b₀ fp₀ t (alt b fp) fp evicted :=
  ⟨hc.wf, hc.layout, hc.back, ha.lt b hc.bucket fp hc.fits hc.ne_zero, hc.ne_zero, hc.fits,
    fun Q hQ => by
    rw [hQ.alt b hc.bucket fp hc.fits hc.ne_zero]
    exact hc.count Q hQ⟩

/-- An empty slot ends a chain. -/
lemma Chain.place (hc : Chain nb alt t₀ b₀ fp₀ t b fp evicted) {i : ℕ}
    (hi : t.findEmptySlot b = some i) :
    Inserted nb alt t₀ b₀ fp₀ (t.setEntry (b * t.bucketSize + i) fp) := by
  refine ⟨hc.wf.setEntry _ _, hc.layout.trans ⟨rfl, rfl, rfl⟩, fun Q hQ => ?_⟩
  rw [← hc.layout.2.1] at hQ
  rw [hc.wf.number_place hQ hc.bucket hi hc.fits, hc.count Q hQ]

/-- A step of a chain: an entry of a full bucket is replaced, and its fingerprint goes to the
alternate bucket. -/
lemma Chain.evict (hc : Chain nb alt t₀ b₀ fp₀ t b fp evicted)
    (ha : AltLaws nb t.fingerprintBits alt)
    (hfull : t.FullBucket b) {i : ℕ} (hi : i < t.bucketSize) :
    Chain nb alt t₀ b₀ fp₀ (t.setEntry (b * t.bucketSize + i) fp)
      (alt b (t.get (b * t.bucketSize + i)))
      (t.get (b * t.bucketSize + i))
      ((b * t.bucketSize + i, t.get (b * t.bucketSize + i)) :: evicted) := by
  have hlt := hc.wf.get_lt (b * t.bucketSize + i)
  have h0 := hfull i hi
  refine ⟨hc.wf.setEntry _ _, hc.layout.trans ⟨rfl, rfl, rfl⟩, ?_, ha.lt b hc.bucket _ hlt h0, h0,
    hlt, fun Q hQ => ?_⟩
  · rw [rollback, hc.wf.setEntry_get hc.fits]
    exact hc.back
  · rw [hQ.alt b hc.bucket _ hlt h0, hc.wf.number_setEntry hc.bucket hi hc.fits]
    exact hc.count Q hQ

/-- The fast path adds the fingerprint, or both buckets are full. -/
lemma FpTable.Wf.insertIn (h : t.Wf) (ha : AltLaws nb t.fingerprintBits alt) (hb : b < nb)
    (hfp : fp ≠ 0) (hf : fp < 2 ^ t.fingerprintBits) :
    (∃ t', t.insertIn b (alt b fp) fp = some t' ∧ Inserted nb alt t b fp t') ∨
      (t.insertIn b (alt b fp) fp = none ∧ t.FullBucket b ∧ t.FullBucket (alt b fp)) := by
  have hc : Chain nb alt t b fp t b fp [] := .nil h hb hfp hf
  unfold FpTable.insertIn
  rcases h1 : t.findEmptySlot b with _ | i
  · rcases h2 : t.findEmptySlot (alt b fp) with _ | i
    · exact .inr ⟨rfl, t.fullBucket h1, t.fullBucket h2⟩
    · exact .inl ⟨_, rfl, (hc.swap ha).place h2⟩
  · exact .inl ⟨_, rfl, hc.place h1⟩

/-! ## Lookup and deletion -/

/-- The entries of the class of a bucket and a fingerprint lie in its two buckets. -/
lemma FpTable.number_inClass_pos (ha : AltLaws nb f alt) (hb : b < nb) (hfp : fp ≠ 0)
    (hf : fp < 2 ^ f) :
    0 < t.number nb (inClass alt b fp) ↔
      (t.findFingerprint b fp).isSome = true ∨ (t.findFingerprint (alt b fp) fp).isSome = true := by
  have hfind : ∀ c, (t.findFingerprint c fp).isSome = true ↔ ∃ i < t.bucketSize,
      t.get (c * t.bucketSize + i) = fp := by
    intro c
    unfold FpTable.findFingerprint
    rw [List.find?_isSome]
    simp
  rw [FpTable.number, tally_pos, hfind, hfind]
  constructor
  · rintro ⟨idx, hlt, hin⟩
    simp only [inClass, Bool.and_eq_true, Bool.or_eq_true, beq_iff_eq] at hin
    have hbs : 0 < t.bucketSize := by
      rcases Nat.eq_zero_or_pos t.bucketSize with h0 | h0
      · rw [h0, Nat.mul_zero] at hlt
        omega
      · exact h0
    have hdiv := Nat.div_add_mod' idx t.bucketSize
    have hmod := Nat.mod_lt idx hbs
    rcases hin.2 with he | he
    · rw [he] at hdiv
      exact .inl ⟨_, hmod, by rw [hdiv]; exact hin.1⟩
    · rw [he] at hdiv
      exact .inr ⟨_, hmod, by rw [hdiv]; exact hin.1⟩
  · rintro (⟨i, hi, he⟩ | ⟨i, hi, he⟩)
    · refine ⟨_, entry_lt hb hi, ?_⟩
      simp [inClass, bucket_of_entry hi, he]
    · refine ⟨_, entry_lt (ha.lt b hb fp hf hfp) hi, ?_⟩
      simp [inClass, bucket_of_entry hi, he]

/-- A deletion takes the fingerprint out of one of its buckets, or it is in none. -/
lemma FpTable.Wf.deleteIn (h : t.Wf) (ha : AltLaws nb t.fingerprintBits alt) (hb : b < nb)
    (hfp : fp ≠ 0) (hf : fp < 2 ^ t.fingerprintBits) :
    (∃ t', t.deleteIn b (alt b fp) fp = some t' ∧ t'.Wf ∧ SameLayout t t' ∧
        ∀ Q, Closed nb t.fingerprintBits alt Q → t'.number nb Q + (Q b fp).toNat = t.number nb Q) ∨
      (t.deleteIn b (alt b fp) fp = none ∧ t.number nb (inClass alt b fp) = 0) := by
  -- the entry may be in either bucket, which a closed test does not tell apart
  have herase : ∀ c < nb, (∀ Q, Closed nb t.fingerprintBits alt Q → Q c fp = Q b fp) → ∀ i,
      t.findFingerprint c fp = some i → ∀ Q, Closed nb t.fingerprintBits alt Q →
        (t.setEntry (c * t.bucketSize + i) 0).number nb Q + (Q b fp).toNat = t.number nb Q := by
    intro c hc hsame i hi Q hQ
    obtain ⟨hlt, he⟩ := t.findFingerprint_some hi
    have hw := h.number_setEntry (Q := Q) hc hlt (Nat.two_pow_pos _)
    rwa [he, hQ.empty, hsame Q hQ] at hw
  have hpos := t.number_inClass_pos ha hb hfp hf
  unfold FpTable.deleteIn
  rcases h1 : t.findFingerprint b fp with _ | i
  · rcases h2 : t.findFingerprint (alt b fp) fp with _ | i
    · refine .inr ⟨rfl, ?_⟩
      rw [h1, h2] at hpos
      simpa using hpos
    · exact .inl ⟨_, rfl, h.setEntry _ _, ⟨rfl, rfl, rfl⟩, herase _ (ha.lt b hb fp hf hfp)
        (fun Q hQ => hQ.alt b hb fp hf hfp) i h2⟩
  · exact .inl ⟨_, rfl, h.setEntry _ _, ⟨rfl, rfl, rfl⟩, herase b hb (fun _ _ => rfl) i h1⟩

/-! ## The account of a filter -/

section Account

variable {σ : Type}

/-- A call of a filter: whether it returned the OK code, and the filter after it. -/
def filterStep (insert delete : σ → UInt64 → AmqErr × σ) (s : σ) : CountOp UInt64 → Bool × σ
  | .insert hash => ((insert s hash).1 = .ok, (insert s hash).2)
  | .delete hash => ((delete s hash).1 = .ok, (delete s hash).2)

/-- What a filter over a fingerprint table owes: an insertion adds the fingerprint or leaves the
filter as it is, and a deletion takes it out or finds no entry of its class. -/
structure FilterLaws (insert delete : σ → UInt64 → AmqErr × σ) (table : σ → FpTable) (cnt : σ → ℕ)
    (Inv : σ → Prop) (nb f : ℕ) (alt : ℕ → ℕ → ℕ) (home : UInt64 → ℕ) : Prop where
  altLaws : AltLaws nb f alt
  bits : 0 < f
  home_lt : ∀ hash, home hash < nb
  layout : ∀ s, Inv s → (table s).fingerprintBits = f
  inserts : ∀ s hash, Inv s →
    ((insert s hash).1 = .ok ∧ Inv (insert s hash).2 ∧
        Inserted nb alt (table s) (home hash) (fingerprint hash f) (table (insert s hash).2) ∧
        cnt (insert s hash).2 = cnt s + 1) ∨
      ((insert s hash).1 = .full ∧ (insert s hash).2 = s)
  deletes : ∀ s hash, Inv s →
    ((delete s hash).1 = .ok ∧ Inv (delete s hash).2 ∧
        (∀ Q, Closed nb f alt Q →
          (table (delete s hash).2).number nb Q + (Q (home hash) (fingerprint hash f)).toNat =
            (table s).number nb Q) ∧
        cnt (delete s hash).2 = cnt s - 1) ∨
      ((delete s hash).1 = .notFound ∧ (delete s hash).2 = s ∧
        (table s).number nb (inClass alt (home hash) (fingerprint hash f)) = 0)

variable {insert delete : σ → UInt64 → AmqErr × σ} {table : σ → FpTable} {cnt : σ → ℕ}
  {Inv : σ → Prop}
  {home : UInt64 → ℕ}

/-- A filter counts the closed tests of its entries. -/
lemma FilterLaws.counts (h : FilterLaws insert delete table cnt Inv nb f alt home) :
    Counts (filterStep insert delete) (fun s => Inv s ∧ cnt s = (table s).number nb isEntry)
      (fun (Q : { Q // Closed nb f alt Q }) hash => Q.1 (home hash) (fingerprint hash f))
      fun Q s => (table s).number nb Q.1 := by
  have hentry : ∀ hash, isEntry (home hash) (fingerprint hash f) = true := fun hash => by
    simpa [isEntry] using fingerprint_ne_zero hash f
  refine ⟨fun s op hs => ?_, fun s hash Q hs => ?_, fun s hash Q hs => ?_, fun s hash hs hpos => ?_⟩
  · cases op with
    | insert hash =>
      obtain ⟨-, hinv, hins, hcnt⟩ | ⟨-, heq⟩ := h.inserts s hash hs.1
      · refine ⟨hinv, ?_⟩
        have hn := hins.count isEntry (by rw [h.layout s hs.1]; exact closed_isEntry)
        rw [hentry] at hn
        change cnt (insert s hash).2 = (table (insert s hash).2).number nb isEntry
        rw [hcnt, hn, hs.2]
        rfl
      · change Inv (insert s hash).2 ∧
          cnt (insert s hash).2 = (table (insert s hash).2).number nb isEntry
        rw [heq]
        exact hs
    | delete hash =>
      obtain ⟨-, hinv, hdel, hcnt⟩ | ⟨-, heq, -⟩ := h.deletes s hash hs.1
      · refine ⟨hinv, ?_⟩
        have hn := hdel isEntry closed_isEntry
        rw [hentry] at hn
        change cnt (delete s hash).2 = (table (delete s hash).2).number nb isEntry
        rw [hcnt, hs.2, ← hn]
        rfl
      · change Inv (delete s hash).2 ∧
          cnt (delete s hash).2 = (table (delete s hash).2).number nb isEntry
        rw [heq]
        exact hs
  · obtain ⟨hok, -, hins, -⟩ | ⟨hfull, heq⟩ := h.inserts s hash hs.1
    · have hn := hins.count Q.1 (by rw [h.layout s hs.1]; exact Q.2)
      simpa [filterStep, hok] using hn
    · simp [filterStep, hfull, heq]
  · obtain ⟨hok, -, hdel, -⟩ | ⟨hnf, heq, -⟩ := h.deletes s hash hs.1
    · simpa [filterStep, hok] using hdel Q.1 Q.2
    · simp [filterStep, hnf, heq]
  · obtain ⟨hok, -⟩ | ⟨-, -, h0⟩ := h.deletes s hash hs.1
    · simp [filterStep, hok]
    · have := hpos ⟨_, closed_inClass h.altLaws (h.home_lt hash) (fingerprint_ne_zero hash f)⟩
        (by simp [inClass])
      exact absurd h0 this.ne'

/-- The account of a run from an empty filter that deletes only hashes inserted more often than
deleted: every class has as many entries as it was inserted less the deletions, a hash inserted more
often than deleted has an entry in one of its buckets, every deletion succeeds and the count is that
of the entries. -/
lemma FilterLaws.account (h : FilterLaws insert delete table cnt Inv nb f alt home) {s : σ}
    (hs : Inv s) (h0 : ∀ Q, Closed nb f alt Q → (table s).number nb Q = 0) (hcnt : cnt s = 0)
    {ops : List (CountOp UInt64)} (hcov : Covered (filterStep insert delete) s [] ops) :
    let r := countRun (filterStep insert delete) s ops
    Inv r.2 ∧
      (∀ i < nb, ∀ fp ≠ 0, (table r.2).number nb (inClass alt i fp) +
          removed (fun hash => inClass alt i fp (home hash) (fingerprint hash f)) r.1 =
        added (fun hash => inClass alt i fp (home hash) (fingerprint hash f)) r.1) ∧
      (∀ hash, removed (· = hash) r.1 < added (· = hash) r.1 →
        (table r.2).lookupIn (home hash) (alt (home hash) (fingerprint hash f))
        (fingerprint hash f) = true) ∧
      (∀ ev ∈ r.1, ∀ hash, ev.op = .delete hash → ev.ok = true) ∧
      cnt r.2 = (table r.2).number nb isEntry := by
  obtain ⟨hinv, htal⟩ :=
    h.counts.run ⟨hs, by rw [hcnt, h0 _ closed_isEntry]⟩ (fun Q => h0 Q.1 Q.2) hcov
  refine ⟨hinv.1, fun i hi fp hfp => htal.eq ⟨_, closed_inClass h.altLaws hi hfp⟩,
    fun hash hlt => ?_, htal.deletes, hinv.2⟩
  have hfp := fingerprint_ne_zero hash f
  have hpos :=
    htal.pos hlt (c := ⟨_, closed_inClass h.altLaws (h.home_lt hash) hfp⟩) (by simp [inClass])
  have := (FpTable.number_inClass_pos h.altLaws (h.home_lt hash) hfp
    (fingerprint_lt hash h.bits)).mp hpos
  unfold FpTable.lookupIn
  rwa [Bool.or_eq_true]

end Account

end Draugr.Amq
