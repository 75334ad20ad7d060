import Draugr.Htc.Hints
import Draugr.Lib.Bytes

/-!
# The scan of a bucket, word by word

A bucket as `src/htc.c` has it: eight slot words and one word of control bytes. `htc_match8`
compares the control bytes with a byte in one subtraction. A byte that agrees is always flagged. A
byte that does not may be flagged when it is asked to pay for one that agrees before it, so the
lowest flag is always right, and the scans look at the slot of every flag.

* The portable variant of `htc_match8`.
* The loop over the flags goes from the lowest to the highest, in at most as many rounds as there
  are flags.
-/

namespace Draugr.Htc
open Lib

/-- `__builtin_ctzll`; the word is not zero. -/
def ctzll (x : BitVec 64) : ℕ := ((List.range 64).find? fun i => x.getLsbD i).getD 64

/-- `htc_match8`. -/
def htcMatch8 (ctrl : BitVec 64) (p : BitVec 8) : BitVec 64 :=
  let rep := 0x0101010101010101#64 * p.setWidth 64
  let x := ctrl ^^^ rep
  (x - 0x0101010101010101#64) &&& ~~~x &&& 0x8080808080808080#64

/-- `htc_ctz_candidate`. -/
def htcCtzCandidate (mask : BitVec 64) : ℕ := ctzll mask >>> 3

/-- `htc_clear_candidate`. -/
def htcClearCandidate (mask : BitVec 64) (i : ℕ) : BitVec 64 := mask &&& ~~~(0x80#64 <<< (i * 8))

/-- `htc_partial8`. -/
def htcPartial8 (tag : BitVec 16) : BitVec 8 :=
  let p := (tag ^^^ tag >>> 8).setWidth 8
  if p = 0 then 1 else p

/-- `htc_slot_pack`. -/
def htcSlotPack (idx : BitVec 64) (tag : BitVec 16) (state : BitVec 32) (inSec : Bool) :
    BitVec 64 :=
  idx &&& 0x000000FFFFFFFFFF#64 ||| tag.setWidth 64 <<< 40 ||| state.setWidth 64 <<< 56 |||
    if inSec then 0x0800000000000000#64 else 0

/-- `htc_slot_index`. -/
def htcSlotIndex (w : BitVec 64) : BitVec 64 := w &&& 0x000000FFFFFFFFFF#64

/-- `htc_slot_tag`. -/
def htcSlotTag (w : BitVec 64) : BitVec 16 := (w >>> 40 &&& 0xFFFF#64).setWidth 16

/-- `htc_slot_state`. -/
def htcSlotState (w : BitVec 64) : BitVec 32 := (w >>> 56 &&& 0x7#64).setWidth 32

/-- `htc_slot_in_secondary`. -/
def htcSlotInSecondary (w : BitVec 64) : Bool := w &&& 0x0800000000000000#64 != 0

/-- `htc_slot_live`. -/
def htcSlotLive (w : BitVec 64) : Bool := htcSlotState w == 1

/-- `htc_slot_empty`. -/
def htcSlotEmpty (w : BitVec 64) : Bool := htcSlotState w == 0

/-- `htc_slot_empty_word`. -/
def htcSlotEmptyWord : BitVec 64 := htcSlotPack 0 0 0 false

/-- `htc_bucket_t` with the control bytes of its `htc_bucket_meta_t`. -/
structure Bucket where
  slot : ℕ → BitVec 64
  ctrlTags : BitVec 64

/-- `while (mask) { i = ctz; if (test) return i; clear; }` in at most `n` rounds; `none` when these
do not suffice. -/
def candidateLoop (test : ℕ → Bool) : ℕ → BitVec 64 → Option (Option ℕ)
  | 0, mask => if mask = 0 then some none else none
  | n + 1, mask =>
    if mask = 0 then some none
    else
      let i := htcCtzCandidate mask
      if test i then some (some i) else candidateLoop test n (htcClearCandidate mask i)

/-- The conditions of `htc_bucket_scan` on a slot. -/
def Bucket.matchesAt (b : Bucket) (recs : BitVec 64 → HtcRecord) (identityHash : ℕ)
    (tag : BitVec 16) (secondary : Bool) (i : ℕ) : Bool :=
  let w := b.slot i
  let rec' := recs (htcSlotIndex w)
  htcSlotLive w && htcSlotInSecondary w == secondary && htcSlotTag w == tag &&
    rec'.identityHash == identityHash && rec'.flags == 0

/-- `htc_bucket_scan`; the inner `none` is -1. -/
def Bucket.htcBucketScan (b : Bucket) (recs : BitVec 64 → HtcRecord) (identityHash : ℕ)
    (tag : BitVec 16) (secondary : Bool) : Option (Option ℕ) :=
  candidateLoop (b.matchesAt recs identityHash tag secondary) bucketSlots
    (htcMatch8 b.ctrlTags (htcPartial8 tag))

/-- The CAS loop over the free slots of a bucket: the slot that it claims. -/
def Bucket.claim (b : Bucket) : Option (Option ℕ) :=
  candidateLoop (fun i => b.slot i == htcSlotEmptyWord) bucketSlots (htcMatch8 b.ctrlTags 0)

/-- The control bytes are 0 for the empty slots and the partial tags of the live ones. -/
def Bucket.Marked (b : Bucket) : Prop :=
  ∀ i < bucketSlots, (htcSlotEmpty (b.slot i) = true → byteAt b.ctrlTags i = 0) ∧
    (htcSlotLive (b.slot i) = true →
      byteAt b.ctrlTags i = (htcPartial8 (htcSlotTag (b.slot i))).toNat)

variable {ctrl mask : BitVec 64} {p : BitVec 8} {l : List ℕ} {test : ℕ → Bool} {i n : ℕ}

/-! ## The flags -/

/-- The borrow of the source is that of the subtraction. -/
lemma match8Borrow_eq (x : ℕ → ℕ) (i : ℕ) : match8Borrow x i = borrow x i := by
  induction i with
  | zero => rfl
  | succ i ih => rw [match8Borrow, borrow, ih]

/-- The flag of a byte. -/
lemma getLsbD_htcMatch8 (ctrl : BitVec 64) (p : BitVec 8) (hi : i < 8) :
    (htcMatch8 ctrl p).getLsbD (8 * i + 7) = match8Hit (byteAt ctrl) p.toNat i := by
  have hx : ∀ j < 8,
      byteAt (ctrl ^^^ 0x0101010101010101#64 * p.setWidth 64) j = byteAt ctrl j ^^^ p.toNat :=
    fun j hj => by rw [byteAt_xor, byteAt_ones_mul p hj]
  have hones : (0x8080808080808080#64).getLsbD (8 * i + 7) = true := by
    interval_cases i <;> rfl
  have hborrow : borrow (byteAt (ctrl ^^^ 0x0101010101010101#64 * p.setWidth 64)) i =
      match8Borrow (fun j => byteAt ctrl j ^^^ p.toNat) i := by
    rw [match8Borrow_eq]
    exact borrow_congr fun j hj => hx j (hj.trans hi)
  rw [htcMatch8, BitVec.getLsbD_and, BitVec.getLsbD_and, BitVec.getLsbD_not, hones, Bool.and_true,
    getLsbD_byte _ i (by decide), getLsbD_byte _ i (by decide), byteAt_sub_ones _ hi, paid, hborrow,
    hx i hi, Nat.testBit_mod_two_pow, match8Hit]
  simp [show 8 * i + 7 < 64 by omega]

/-- There are no other flags. -/
lemma htcMatch8_flag {k : ℕ} (h : (htcMatch8 ctrl p).getLsbD k = true) :
    ∃ i < 8, k = 8 * i + 7 := by
  have hk := BitVec.lt_of_getLsbD h
  rw [htcMatch8, BitVec.getLsbD_and, Bool.and_eq_true] at h
  have hflag := h.2
  clear h
  refine ⟨k / 8, by omega, ?_⟩
  interval_cases k <;> first | rfl | exact absurd hflag (by decide)

/-- A byte that can pay for itself is not flagged. -/
lemma not_flagged : ∀ b < 2 ^ 8, b ≠ 0 → ((b + 255 - 0).testBit 7 && !b.testBit 7) = false := by
  decide +kernel

/-- If no byte up to `i` agrees, byte `i` is not flagged. -/
lemma match8Hit_of_ne {d : ℕ → ℕ} {v : ℕ} (hd : ∀ j, d j < 2 ^ 8) (hv : v < 2 ^ 8)
    (h : ∀ j ≤ i, d j ≠ v) :
    match8Hit d v i = false := by
  have hx : ∀ j ≤ i, d j ^^^ v ≠ 0 := fun j hj he => h j hj (Nat.xor_eq_zero_iff.mp he)
  have hlt : d i ^^^ v < 2 ^ 8 := Nat.xor_lt_two_pow (hd i) hv
  rw [match8Hit, match8Borrow_eq, borrow_eq_zero fun j hj => hx j hj.le]
  exact not_flagged _ hlt (hx i le_rfl)

/-! ## The loop over the flags -/

/-- The flags of a mask, from the lowest to the highest. -/
structure Flags (mask : BitVec 64) (l : List ℕ) : Prop where
  sorted : l.Pairwise (· < ·)
  lt : ∀ i ∈ l, i < 8
  bit : ∀ k, mask.getLsbD k = true ↔ ∃ i ∈ l, k = 8 * i + 7

/-- The flags of a match are at the bytes that are hit. -/
lemma htcMatch8_flags (ctrl : BitVec 64) (p : BitVec 8) :
    Flags (htcMatch8 ctrl p) ((List.range 8).filter (match8Hit (byteAt ctrl) p.toNat)) where
  sorted := List.pairwise_lt_range.filter _
  lt i hi := List.mem_range.mp (List.mem_filter.mp hi).1
  bit k := by
    constructor
    · intro hk
      obtain ⟨i, hi, rfl⟩ := htcMatch8_flag hk
      rw [getLsbD_htcMatch8 ctrl p hi] at hk
      exact ⟨i, List.mem_filter.mpr ⟨List.mem_range.mpr hi, hk⟩, rfl⟩
    · rintro ⟨i, hi, rfl⟩
      obtain ⟨hr, hhit⟩ := List.mem_filter.mp hi
      rwa [getLsbD_htcMatch8 ctrl p (List.mem_range.mp hr)]

/-- No flag is set when nothing is hit. -/
lemma Flags.eq_zero_iff (h : Flags mask l) : mask = 0 ↔ l = [] := by
  constructor
  · rintro rfl
    cases l with
    | nil => rfl
    | cons i l =>
      have hbit := (h.bit (8 * i + 7)).mpr ⟨i, List.mem_cons_self .., rfl⟩
      rw [BitVec.ofNat_eq_ofNat, BitVec.getLsbD_zero] at hbit
      cases hbit
  · rintro rfl
    refine BitVec.eq_of_getLsbD_eq fun k _ => ?_
    rw [BitVec.ofNat_eq_ofNat, BitVec.getLsbD_zero]
    by_contra hne
    obtain ⟨i, hi, -⟩ := (h.bit k).mp (eq_true_of_ne_false hne)
    cases hi

/-- The candidate is the lowest flag. -/
lemma Flags.ctz (h : Flags mask (i :: l)) : htcCtzCandidate mask = i := by
  have hi := h.lt i (List.mem_cons_self ..)
  have hfind : ((List.range 64).find? fun k => mask.getLsbD k) = some (8 * i + 7) := by
    refine List.find?_range_eq_some.mpr ⟨(h.bit _).mpr ⟨i, List.mem_cons_self .., rfl⟩,
      List.mem_range.mpr (by omega), fun k hk => ?_⟩
    rw [Bool.not_eq_true', Bool.eq_false_iff]
    intro hb
    obtain ⟨j, hj, rfl⟩ := (h.bit k).mp hb
    rcases List.mem_cons.mp hj with rfl | hj
    · exact lt_irrefl _ hk
    · have := (List.pairwise_cons.mp h.sorted).1 j hj
      omega
  rw [htcCtzCandidate, ctzll, hfind, Option.getD_some, Nat.shiftRight_eq_div_pow]
  omega

/-- Clearing the candidate leaves the others. -/
lemma Flags.clear (h : Flags mask (i :: l)) : Flags (htcClearCandidate mask i) l where
  sorted := (List.pairwise_cons.mp h.sorted).2
  lt j hj := h.lt j (List.mem_cons_of_mem i hj)
  bit k := by
    have hi := h.lt i (List.mem_cons_self ..)
    have hmask : (0x80#64 <<< (i * 8)).getLsbD k = decide (k = 8 * i + 7) := by
      rw [BitVec.getLsbD_shiftLeft, BitVec.getLsbD_ofNat, show 0x80 = 2 ^ 7 from rfl,
        Nat.testBit_two_pow, Bool.eq_iff_iff]
      simp only [Bool.and_eq_true, Bool.not_eq_true', decide_eq_true_eq, decide_eq_false_iff_not]
      omega
    rw [htcClearCandidate, BitVec.getLsbD_and, BitVec.getLsbD_not, hmask, Bool.and_eq_true, h.bit k]
    constructor
    · rintro ⟨⟨j, hj, rfl⟩, hne⟩
      rcases List.mem_cons.mp hj with rfl | hj
      · simp at hne
      · exact ⟨j, hj, rfl⟩
    · rintro ⟨j, hj, rfl⟩
      have hlt := (List.pairwise_cons.mp h.sorted).1 j hj
      have hj8 := h.lt j (List.mem_cons_of_mem i hj)
      refine ⟨⟨j, List.mem_cons_of_mem i hj, rfl⟩, ?_⟩
      simp [show 8 * j + 7 < 64 by omega, show j ≠ i by omega]

/-- The loop tests the flags one after the other. -/
lemma candidateLoop_eq (h : Flags mask l) (hn : l.length ≤ n) :
    candidateLoop test n mask = some (l.find? test) := by
  induction l generalizing mask n with
  | nil =>
    have h0 := h.eq_zero_iff.mpr rfl
    cases n <;> rw [candidateLoop, if_pos h0] <;> rfl
  | cons i l ih =>
    have hne : ¬ mask = 0 := fun h0 => List.cons_ne_nil i l (h.eq_zero_iff.mp h0)
    cases n with
    | zero => exact absurd hn (Nat.not_succ_le_zero _)
    | succ n =>
      rw [candidateLoop, if_neg hne, List.find?_cons]
      simp only [h.ctz]
      cases test i with
      | true => rfl
      | false => exact ih h.clear (Nat.le_of_succ_le_succ hn)

/-! ## The scans -/

/-- `htc_match8` is zero if and only if no byte agrees. -/
lemma htcMatch8_ne_zero_iff : htcMatch8 ctrl p ≠ 0 ↔ ∃ i < 8, byteAt ctrl i = p.toNat := by
  rw [Ne, (htcMatch8_flags ctrl p).eq_zero_iff, List.filter_eq_nil_iff]
  constructor
  · intro h
    by_contra hne
    push Not at hne
    refine h fun i hi => ?_
    rw [match8Hit_of_ne (byteAt_lt ctrl) p.isLt fun j hj =>
      hne j (hj.trans_lt (List.mem_range.mp hi))]
    exact Bool.false_ne_true
  · rintro ⟨i, hi, he⟩ h
    exact h i (List.mem_range.mpr hi) (match8Hit_self he)

/-- The loop over the flags of a byte. -/
lemma candidateLoop_htcMatch8 : candidateLoop test bucketSlots (htcMatch8 ctrl p) =
    some (((List.range 8).filter (match8Hit (byteAt ctrl) p.toNat)).find? test) :=
  candidateLoop_eq (htcMatch8_flags ctrl p) ((List.length_filter_le ..).trans_eq List.length_range)

/-- The loop over the flags of a byte finds a slot that passes the test, if every slot that does
carries the byte. -/
lemma candidateLoop_match8 (h : ∀ i < 8, test i = true → byteAt ctrl i = p.toNat) :
    ∃ r, candidateLoop test bucketSlots (htcMatch8 ctrl p) = some r ∧
      (∀ i, r = some i → i < bucketSlots ∧ test i = true) ∧
      (r = none → ∀ i < bucketSlots, test i = false) := by
  refine ⟨_, candidateLoop_htcMatch8, ?_, ?_⟩
  · intro i hi
    exact ⟨List.mem_range.mp (List.mem_filter.mp (List.mem_of_find?_eq_some hi)).1,
      List.find?_some hi⟩
  · intro hnone i hi
    by_contra hne
    have ht := eq_true_of_ne_false hne
    have hmem := List.mem_filter.mpr ⟨List.mem_range.mpr hi, match8Hit_self (h i hi ht)⟩
    exact List.find?_eq_none.mp hnone i hmem ht

/-- `htc_match8` flags every byte that agrees, and flags some byte if and only if one agrees. In a
bucket with the right control bytes `htc_bucket_scan` returns a slot that is asked for, or -1 if
there is none, and the search for 0 claims a free slot if there is one. -/
theorem bucket_scan_exact (ctrl : BitVec 64) (p : BitVec 8) (b : Bucket) (hb : b.Marked)
    (recs : BitVec 64 → HtcRecord) (identityHash : ℕ) (tag : BitVec 16) (secondary : Bool) :
    ((∀ i < 8, byteAt ctrl i = p.toNat → (htcMatch8 ctrl p).getLsbD (8 * i + 7) = true) ∧
      (htcMatch8 ctrl p ≠ 0 ↔ ∃ i < 8, byteAt ctrl i = p.toNat)) ∧
    (∃ r, b.htcBucketScan recs identityHash tag secondary = some r ∧
      (∀ i, r = some i → i < bucketSlots ∧ b.matchesAt recs identityHash tag secondary i = true) ∧
      (r = none → ∀ i < bucketSlots, b.matchesAt recs identityHash tag secondary i = false)) ∧
    (∃ r, b.claim = some r ∧ (∀ i, r = some i → i < bucketSlots ∧ b.slot i = htcSlotEmptyWord) ∧
      (r = none → ∀ i < bucketSlots, b.slot i ≠ htcSlotEmptyWord)) := by
  refine ⟨⟨fun i hi he => ?_, htcMatch8_ne_zero_iff⟩, candidateLoop_match8 fun i hi hm => ?_, ?_⟩
  · rw [getLsbD_htcMatch8 ctrl p hi]
    exact match8Hit_self he
  · simp only [Bucket.matchesAt, Bool.and_eq_true, beq_iff_eq] at hm
    obtain ⟨⟨⟨⟨hlive, -⟩, htag⟩, -⟩, -⟩ := hm
    rw [(hb i hi).2 hlive, htag]
  · have hfree :
        ∀ i < 8, (b.slot i == htcSlotEmptyWord) = true →
          byteAt b.ctrlTags i = (0 : BitVec 8).toNat :=
      fun i hi hm => (hb i hi).1 (by rw [beq_iff_eq.mp hm]; decide)
    obtain ⟨r, hr, hsome, hnone⟩ := candidateLoop_match8 hfree
    refine ⟨r, hr, fun i hi => ?_, fun hi i hlt => beq_eq_false_iff_ne.mp (hnone hi i hlt)⟩
    obtain ⟨hlt, ht⟩ := hsome i hi
    exact ⟨hlt, beq_iff_eq.mp ht⟩

/-- A bucket with one live slot. -/
def bucketTwo : Bucket :=
  ⟨fun i => if i = 2 then htcSlotPack 5 7 1 false else htcSlotEmptyWord, 0x0000000000070000⟩

instance (b : Bucket) : Decidable b.Marked :=
  inferInstanceAs
  (Decidable (∀ i < bucketSlots, (htcSlotEmpty (b.slot i) = true → byteAt b.ctrlTags i = 0) ∧
    (htcSlotLive (b.slot i) = true →
      byteAt b.ctrlTags i = (htcPartial8 (htcSlotTag (b.slot i))).toNat)))

/-- The live slot is found. -/
theorem bucket_scan_exact_two :
    bucketTwo.htcBucketScan (fun _ => ⟨9, 0, 0, 0, 0⟩) 9 7 false ≠ some none := by
  obtain ⟨-, ⟨r, hr, -, hnone⟩, -⟩ :=
    bucket_scan_exact 0 0 bucketTwo (by decide +kernel) (fun _ => ⟨9, 0, 0, 0, 0⟩) 9 7 false
  rw [hr]
  rintro ⟨⟩
  exact absurd (hnone rfl 2 (by decide)) (by decide +kernel)

/-! ## The bucket of a generation -/

/-- A slot in memory. -/
def Gen.slotWord (g : Gen) (x : ℕ × ℕ) : BitVec 64 :=
  match g.slots x with
  | none => htcSlotEmptyWord
  | some w => htcSlotPack (BitVec.ofNat 64 w.idx) (BitVec.ofNat 16 w.tag) 1 w.inSec

/-- A bucket of a generation in memory. -/
def Gen.bucket (g : Gen) (b : ℕ) : Bucket :=
  ⟨fun i => g.slotWord (b, i), BitVec.ofNat 64 (ofBytes (fun i => g.ctrl (b, i)) 8)⟩

/-- The fields of the words of a bucket fit in their places. -/
structure Gen.Fits (g : Gen) (b : ℕ) : Prop where
  ctrl : ∀ i, g.ctrl (b, i) < 2 ^ 8
  word : ∀ i w, g.slots (b, i) = some w → w.idx < 2 ^ 40 ∧ w.tag < 2 ^ 16

/-- The bits of a mask. -/
lemma getLsbD_ones {n : ℕ} (hn : n ≤ 64) (k : ℕ) :
    (BitVec.ofNat 64 (2 ^ n - 1)).getLsbD k = decide (k < n) := by
  rw [BitVec.getLsbD_ofNat, Nat.testBit_two_pow_sub_one]
  by_cases hk : k < n
  · simp [hk, hk.trans_le hn]
  · simp [hk]

/-- The bits of a word of a live slot. -/
lemma getLsbD_htcSlotPack (idx : BitVec 64) (tag : BitVec 16) (sec : Bool) {k : ℕ} (hk : k < 64) :
    (htcSlotPack idx tag 1 sec).getLsbD k = (idx.getLsbD k && decide (k < 40) ||
      decide (40 ≤ k) && tag.getLsbD (k - 40) || decide (k = 56) || sec && decide (k = 59)) := by
  have hsec :
      (if sec = true then 0x0800000000000000#64 else 0).getLsbD k = (sec && decide (k = 59)) := by
    cases sec
    · exact BitVec.getLsbD_zero
    · rw [if_pos rfl, BitVec.getLsbD_ofNat, show 0x0800000000000000 = 2 ^ 59 from rfl,
        Nat.testBit_two_pow, decide_eq_true hk, Bool.true_and, Bool.true_and]
      exact decide_eq_decide.mpr eq_comm
  have hstate : ((1 : BitVec 32).setWidth 64 <<< 56).getLsbD k = decide (k = 56) := by
    interval_cases k <;> rfl
  rw [htcSlotPack, BitVec.getLsbD_or, BitVec.getLsbD_or, BitVec.getLsbD_or, hsec, hstate,
    BitVec.getLsbD_and,
    show (0x000000FFFFFFFFFF#64) = BitVec.ofNat 64 (2 ^ 40 - 1) from rfl, getLsbD_ones (by decide),
    BitVec.getLsbD_shiftLeft, BitVec.getLsbD_setWidth, decide_eq_true hk,
    decide_eq_true (show k - 40 < 64 by omega), Bool.true_and, Bool.true_and, ← decide_not]
  simp only [not_lt]

/-- The index of a packed word. -/
lemma htcSlotIndex_pack (idx : BitVec 64) (tag : BitVec 16) (sec : Bool) (h : idx.toNat < 2 ^ 40) :
    htcSlotIndex (htcSlotPack idx tag 1 sec) = idx := by
  refine BitVec.eq_of_getLsbD_eq fun k hk => ?_
  have hi : 40 ≤ k → idx.getLsbD k = false := fun h40 =>
    Nat.testBit_lt_two_pow (h.trans_le (Nat.pow_le_pow_right (by decide) h40))
  rw [htcSlotIndex, BitVec.getLsbD_and, getLsbD_htcSlotPack idx tag sec hk,
    show (0x000000FFFFFFFFFF#64) = BitVec.ofNat 64 (2 ^ 40 - 1) from rfl, getLsbD_ones (by decide)]
  by_cases h40 : k < 40
  · simp [h40, show ¬ 40 ≤ k by omega, show k ≠ 56 by omega, show k ≠ 59 by omega]
  · simp [h40, hi (by omega)]

/-- The tag of a packed word. -/
lemma htcSlotTag_pack (idx : BitVec 64) (tag : BitVec 16) (sec : Bool) :
    htcSlotTag (htcSlotPack idx tag 1 sec) = tag := by
  refine BitVec.eq_of_getLsbD_eq fun k hk => ?_
  rw [htcSlotTag, BitVec.getLsbD_setWidth, BitVec.getLsbD_and, BitVec.getLsbD_ushiftRight,
    getLsbD_htcSlotPack idx tag sec (by omega),
    show (0xFFFF#64) = BitVec.ofNat 64 (2 ^ 16 - 1) from rfl, getLsbD_ones (by decide)]
  simp [hk, show 40 + k ≠ 56 by omega, show 40 + k ≠ 59 by omega]

/-- A packed word is live. -/
lemma htcSlotLive_pack (idx : BitVec 64) (tag : BitVec 16) (sec : Bool) :
    htcSlotLive (htcSlotPack idx tag 1 sec) = true := by
  have hbit : ∀ k < 3, (htcSlotPack idx tag 1 sec).getLsbD (56 + k) = decide (k = 0) := by
    intro k hk
    have h16 : tag.getLsbD (56 + k - 40) = false := BitVec.getLsbD_of_ge _ _ (by omega)
    rw [getLsbD_htcSlotPack idx tag sec (by omega), h16]
    simp [show ¬ 56 + k < 40 by omega, show 56 + k ≠ 59 by omega]
  refine beq_iff_eq.mpr (BitVec.eq_of_getLsbD_eq fun k hk => ?_)
  rw [htcSlotState, BitVec.getLsbD_setWidth, BitVec.getLsbD_and, BitVec.getLsbD_ushiftRight,
    show (0x7#64) = BitVec.ofNat 64 (2 ^ 3 - 1) from rfl, getLsbD_ones (by decide)]
  by_cases h3 : k < 3
  · rw [hbit k h3]
    interval_cases k <;> rfl
  · have h0 : k ≠ 0 := by omega
    simp [h3, h0]

/-- The half of a packed word. -/
lemma htcSlotInSecondary_pack (idx : BitVec 64) (tag : BitVec 16) (sec : Bool) :
    htcSlotInSecondary (htcSlotPack idx tag 1 sec) = sec := by
  have hbit : (htcSlotPack idx tag 1 sec).getLsbD 59 = sec := by
    rw [getLsbD_htcSlotPack idx tag sec (by decide), BitVec.getLsbD_of_ge tag _ (by decide)]
    simp
  have hmask : ∀ k, (0x0800000000000000#64).getLsbD k = decide (k = 59) := fun k => by
    rw [BitVec.getLsbD_ofNat, show 0x0800000000000000 = 2 ^ 59 from rfl, Nat.testBit_two_pow]
    by_cases hk : k = 59
    · rw [hk]
      rfl
    · simp [hk, Ne.symm hk]
  cases sec with
  | true =>
    refine bne_iff_ne.mpr fun h0 => ?_
    have h59 : (htcSlotPack idx tag 1 true &&& 0x0800000000000000#64).getLsbD 59 = false := by
      rw [h0]; rfl
    rw [BitVec.getLsbD_and, hbit, hmask] at h59
    cases h59
  | false =>
    rw [htcSlotInSecondary, bne_eq_false_iff_eq]
    refine BitVec.eq_of_getLsbD_eq fun k _ => ?_
    rw [BitVec.getLsbD_and, hmask]
    by_cases hk : k = 59
    · rw [hk, hbit]
      rfl
    · simp [hk]
/-- The flags depend on the bytes up to theirs. -/
lemma match8Hit_congr {d e : ℕ → ℕ} {v : ℕ} (h : ∀ j ≤ i, d j = e j) :
    match8Hit d v i = match8Hit e v i := by
  have hb : borrow (fun j => d j ^^^ v) i = borrow (fun j => e j ^^^ v) i :=
    borrow_congr fun j hj => congrArg (· ^^^ v) (h j hj.le)
  have hi := h i le_rfl
  simp only [match8Hit, match8Borrow_eq, hb, hi]

/-- The partial tag as a number. -/
lemma htcPartial8_ofNat {tag : ℕ} (h : tag < 2 ^ 16) :
    (htcPartial8 (BitVec.ofNat 16 tag)).toNat = partial8 tag := by
  have hp : ((BitVec.ofNat 16 tag ^^^ BitVec.ofNat 16 tag >>> 8).setWidth 8).toNat =
      (tag ^^^ tag >>> 8) % 2 ^ 8 := by
    rw [BitVec.toNat_setWidth, BitVec.toNat_xor, BitVec.toNat_ushiftRight, BitVec.toNat_ofNat,
      Nat.mod_eq_of_lt h]
  rw [htcPartial8, partial8, ← hp]
  by_cases h0 : (BitVec.ofNat 16 tag ^^^ BitVec.ofNat 16 tag >>> 8).setWidth 8 = 0
  · rw [h0]
    rfl
  · rw [if_neg h0]
    exact (if_neg fun hz => h0 (BitVec.eq_of_toNat_eq hz)).symm

/-- The scan of a bucket of a generation is the scan of the words in memory. -/
lemma Gen.htcBucketScan_bucket {g : Gen} {b : ℕ} (hf : g.Fits b) (recs : ℕ → HtcRecord)
    (identityHash : ℕ) {tag : ℕ} (ht : tag < 2 ^ 16) (secondary : Bool) :
    (g.bucket b).htcBucketScan (fun idx => recs idx.toNat) identityHash
      (BitVec.ofNat 16 tag) secondary =
      some (htcBucketScan g recs b identityHash tag secondary) := by
  have hbyte : ∀ i < 8, byteAt (g.bucket b).ctrlTags i = g.ctrl (b, i) := fun i hi => by
    refine byteAt_of_toNat (d := fun i => g.ctrl (b, i)) hf.ctrl ?_ hi
    rw [Gen.bucket, BitVec.toNat_ofNat, Nat.mod_eq_of_lt (ofBytes_lt hf.ctrl 8)]
  have htest :
    ∀ i, (g.bucket b).matchesAt (fun idx => recs idx.toNat) identityHash
      (BitVec.ofNat 16 tag) secondary i =
      (g.slots (b, i)).any fun w => w.inSec == secondary && w.isFor recs identityHash tag := by
    intro i
    have hslot : (g.bucket b).slot i = g.slotWord (b, i) := rfl
    cases hw : g.slots (b, i) with
    | none =>
      rw [Bucket.matchesAt, hslot, Gen.slotWord, hw]
      rfl
    | some w =>
      obtain ⟨hidx, htag⟩ := hf.word i w hw
      have hlt : w.idx < 2 ^ 64 := hidx.trans (by decide)
      have hnat : (BitVec.ofNat 64 w.idx).toNat = w.idx := by
        rw [BitVec.toNat_ofNat, Nat.mod_eq_of_lt hlt]
      have heq : (BitVec.ofNat 16 w.tag == BitVec.ofNat 16 tag) = (w.tag == tag) := by
        rw [Bool.eq_iff_iff, beq_iff_eq, beq_iff_eq]
        constructor
        · intro he
          have := congrArg BitVec.toNat he
          rwa [BitVec.toNat_ofNat, BitVec.toNat_ofNat, Nat.mod_eq_of_lt htag,
            Nat.mod_eq_of_lt ht] at this
        · intro he
          rw [he]
      rw [Bucket.matchesAt, hslot, Gen.slotWord, hw]
      dsimp only
      rw [htcSlotLive_pack, htcSlotInSecondary_pack, htcSlotTag_pack,
        htcSlotIndex_pack _ _ _ (by rw [hnat]; exact hidx), hnat, heq, Option.any_some, Word.isFor]
      simp only [Bool.true_and, Bool.and_assoc]
  have hflags : (List.range 8).filter (match8Hit (byteAt (g.bucket b).ctrlTags) (partial8 tag)) =
      match8 g b (partial8 tag) :=
    List.filter_congr fun i hi => match8Hit_congr fun j hj =>
      hbyte j (hj.trans_lt (List.mem_range.mp hi))
  rw [Bucket.htcBucketScan, candidateLoop_htcMatch8, htcPartial8_ofNat ht, hflags,
    Htc.htcBucketScan]
  exact congrArg some (congrArg (List.find? · _) (funext htest))

end Draugr.Htc
