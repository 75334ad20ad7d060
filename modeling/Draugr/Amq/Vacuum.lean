import Draugr.Amq.Cuckoo

/-!
# The vacuum filter

Model of `src/vacuum_filter.c`: the alternate bucket lies in the same chunk of the table, and the
length of the chunk depends on the fingerprint, so that the number of buckets need not be a power of
two. Before an entry is evicted, the entries of its bucket are looked at for one that can go to its
own alternate bucket at once.

The lengths of the chunks come from logarithms and square roots of doubles: `rangeSelection` is a
parameter, and so is the double quotient for the number of buckets. The allocation of
`vacuum_filter_create` succeeds.
-/

namespace Draugr.Amq
open Draugr.Lib

/-- `vacuum_filter_t`. -/
structure VacuumFilter extends FpTable where
  numEntries : ℕ
  count : ℕ
  numBuckets : ℕ
  numSets : ℕ
  maxEvicts : ℕ
  ar : ℕ → ℕ

/-- `vacuum_hash_index`. -/
def vacuumHashIndex (hash : UInt64) (numBuckets : ℕ) : ℕ :=
  ((hash.toNat >>> 32) * numBuckets % 2 ^ 64) >>> 32

/-- `vacuum_alt_index`. -/
def vacuumAltIndex (ar : ℕ → ℕ) (currentIndex fp : ℕ) : ℕ :=
  let l := ar (fp % 4)
  if l ≤ 1 then currentIndex
  else
    let delta := mix32 fp % (l - 1) + 1
    let chunkStart := currentIndex / l * l
    let offset := currentIndex - chunkStart
    chunkStart + (offset ^^^ delta)

/-- `compute_ar_sizes`. -/
def computeArSizes (rangeSelection : ℕ → ℕ → ℕ → ℕ) (numItems bucketSize i : ℕ) : ℕ :=
  if rangeSelection numItems bucketSize i < 2 then 2 else rangeSelection numItems bucketSize i

/-- The largest power of two that is not above `n`. -/
def arCap (n : ℕ) : ℕ :=
  let c := n ||| n >>> 1
  let c := c ||| c >>> 2
  let c := c ||| c >>> 4
  let c := c ||| c >>> 8
  let c := c ||| c >>> 16
  let c := c ||| c >>> 32
  c - c >>> 1

/-- The loop of `vacuum_filter_create` that halves the number of buckets until the derived values
fit their fields; it runs at most `fuel` times, and `num_buckets` times are enough. -/
def halveBuckets (bucketSize : ℕ) : ℕ → ℕ → ℕ
  | 0, numBuckets => numBuckets
  | fuel + 1, numBuckets =>
    if 2 ^ 32 - 1 < numBuckets ∨ 2 ^ 32 - 1 < numBuckets * bucketSize
      then halveBuckets bucketSize fuel (numBuckets / 2)
    else numBuckets

/-- `vacuum_filter_create`. -/
def vacuumFilterCreate (rangeSelection : ℕ → ℕ → ℕ → ℕ) (bucketsFor : ℕ → ℕ → ℕ)
    (capacity bucketSize fpBits maxEvicts : ℕ) : Option VacuumFilter :=
  let bucketSize := if bucketSize = 0 then 4 else bucketSize
  let fpBits := if fpBits = 0 then 10 else fpBits
  let maxEvicts := if maxEvicts = 0 then 200 else maxEvicts
  if capacity = 0 ∨ fpBits < 2 ∨ 32 < fpBits ∨ 2 ^ 32 - 1 < capacity then none
  else
    let numBuckets := max (bucketsFor capacity bucketSize) 1
    let entriesPerSet := 512 / fpBits
    let cap := arCap numBuckets
    -- each range is at least 2 and at most the largest power of two within the buckets
    let ar := fun i => max (min (computeArSizes rangeSelection capacity bucketSize i) cap) 2
    let largestAr := max (max (ar 0) (ar 1)) (max (ar 2) (ar 3))
    -- a multiple of the largest range, so that no block of it is cut
    let numBuckets := (numBuckets + largestAr - 1) / largestAr * largestAr
    let numBuckets := halveBuckets bucketSize numBuckets numBuckets
    if numBuckets < 1 then none
    else
      let numEntries := numBuckets * bucketSize
      let numSets := (numEntries + entriesPerSet - 1) / entriesPerSet
      some
        { words := fun _ => 0
          entriesPerSet := entriesPerSet
          fingerprintBits := fpBits
          bucketSize := bucketSize
          numEntries := numEntries
          count := 0
          numBuckets := numBuckets
          numSets := numSets
          maxEvicts := maxEvicts
          ar := ar }

/-- The look-ahead in the bucket `b`: the first entry with an empty slot in its alternate bucket
goes there, and `fp` takes its place. -/
def lookahead (ar : ℕ → ℕ) (t : FpTable) (b fp : ℕ) : Option FpTable :=
  (List.range t.bucketSize).findSome? fun i =>
    let fpInSlot := t.get (b * t.bucketSize + i)
    if fpInSlot = 0 then none
    else
      let alt := vacuumAltIndex ar b fpInSlot
      match t.findEmptySlot alt with
      | some altSlot =>
        some ((t.setEntry (alt * t.bucketSize + altSlot) fpInSlot).setEntry
          (b * t.bucketSize + i) fp)
      | none => none

/-- The eviction loop of `vacuum_filter_insert` with `evicts` rounds left, and the roll-back after
it. -/
def evictLoop (ar : ℕ → ℕ) : ℕ → ℕ → FpTable → ℕ → ℕ → List (ℕ × ℕ) → Bool × FpTable
  | 0, _, t, _, _, evicted => (false, rollback t evicted)
  | evicts + 1, n, t, b, fp, evicted =>
    match lookahead ar t b fp with
    | some t => (true, t)
    | none =>
      let idx := b * t.bucketSize + evictSlot n fp t.bucketSize
      let temp := t.get idx
      let t := t.setEntry idx fp
      let b := vacuumAltIndex ar b temp
      match t.findEmptySlot b with
      | some slot => (true, t.setEntry (b * t.bucketSize + slot) temp)
      | none => evictLoop ar evicts (n + 1) t b temp ((idx, temp) :: evicted)

/-- The slow path of `vacuum_filter_insert`: the look-ahead in both buckets, then evictions from one
of them. -/
def insertSlow (ar : ℕ → ℕ) (maxEvicts : ℕ) (t : FpTable) (b1 b2 fp : ℕ) : Bool × FpTable :=
  match lookahead ar t b1 fp with
  | some t => (true, t)
  | none =>
    match lookahead ar t b2 fp with
    | some t => (true, t)
    | none => evictLoop ar maxEvicts 0 t (if (b1 + b2) % 2 = 1 then b1 else b2) fp []

/-- `vacuum_filter_insert`. -/
def vacuumFilterInsert (vf : VacuumFilter) (hash : UInt64) : AmqErr × VacuumFilter :=
  let fp := fingerprint hash vf.fingerprintBits
  let b1 := vacuumHashIndex hash vf.numBuckets
  let b2 := vacuumAltIndex vf.ar b1 fp
  match vf.insertIn b1 b2 fp with
  | some t => (.ok, { vf with toFpTable := t, count := vf.count + 1 })
  | none =>
    match insertSlow vf.ar vf.maxEvicts vf.toFpTable b1 b2 fp with
    | (true, t) => (.ok, { vf with toFpTable := t, count := vf.count + 1 })
    | (false, t) => (.full, { vf with toFpTable := t })

/-- `vacuum_filter_lookup`. -/
def vacuumFilterLookup (vf : VacuumFilter) (hash : UInt64) : Bool :=
  let fp := fingerprint hash vf.fingerprintBits
  let b1 := vacuumHashIndex hash vf.numBuckets
  let b2 := vacuumAltIndex vf.ar b1 fp
  vf.lookupIn b1 b2 fp

/-- `vacuum_filter_delete`. -/
def vacuumFilterDelete (vf : VacuumFilter) (hash : UInt64) : AmqErr × VacuumFilter :=
  let fp := fingerprint hash vf.fingerprintBits
  let b1 := vacuumHashIndex hash vf.numBuckets
  let b2 := vacuumAltIndex vf.ar b1 fp
  match vf.deleteIn b1 b2 fp with
  | some t => (.ok, { vf with toFpTable := t, count := vf.count - 1 })
  | none => (.notFound, vf)

/-! ## The buckets -/

/-- The four alternate ranges are powers of two, at least 2, that divide the number of buckets. -/
def RangesOk (ar : ℕ → ℕ) (nb : ℕ) : Prop := ∀ i < 4, ∃ j, 1 ≤ j ∧ ar i = 2 ^ j ∧ ar i ∣ nb

variable {vf : VacuumFilter} {ar : ℕ → ℕ} {nb f : ℕ} {t₀ t : FpTable} {b₀ fp₀ b fp : ℕ}
  {evicted : List (ℕ × ℕ)}

/-- `delta` for a range. -/
def altDelta (l fp : ℕ) : ℕ := mix32 fp % (l - 1) + 1

/-- The displacement stays below the length of the range. -/
lemma altDelta_lt {l : ℕ} (h : 2 ≤ l) (fp : ℕ) : altDelta l fp < l := by
  have hlt := Nat.mod_lt (mix32 fp) (show 0 < l - 1 by omega)
  unfold altDelta
  omega

/-- In a chunk, the alternate bucket lies at the distance `delta`, by exclusive or. -/
lemma vacuumAltIndex_chunk {j q r v : ℕ} (hj : 1 ≤ j) (hl : ar (v % 4) = 2 ^ j) (hr : r < 2 ^ j) :
    vacuumAltIndex ar (q * 2 ^ j + r) v = q * 2 ^ j + (r ^^^ altDelta (2 ^ j) v) := by
  have hpos := Nat.two_pow_pos j
  have hl2 : 2 ≤ 2 ^ j := by
    calc 2 = 2 ^ 1 := rfl
      _ ≤ 2 ^ j := Nat.pow_le_pow_right (by decide) hj
  have hdiv : (q * 2 ^ j + r) / 2 ^ j = q := by
    rw [Nat.mul_comm, Nat.mul_add_div hpos, Nat.div_eq_of_lt hr, Nat.add_zero]
  unfold vacuumAltIndex altDelta
  simp only [hl, hdiv, if_neg (show ¬ 2 ^ j ≤ 1 by omega), Nat.add_sub_cancel_left]

/-- The alternate bucket lies at a fixed distance, by exclusive or, in the same chunk, and the same
distance leads back. -/
lemma vacuum_chunk (h : RangesOk ar nb) (hb : b < nb) (v : ℕ) :
    ∃ l q r d, vacuumAltIndex ar b v = q * l + (r ^^^ d) ∧ b = q * l + r ∧ r < l ∧
      r ^^^ d < l ∧ d ≠ 0 ∧
      q * l + l ≤ nb ∧ ∀ r' < l, vacuumAltIndex ar (q * l + r') v = q * l + (r' ^^^ d) := by
  obtain ⟨j, hj, hl, hdvd⟩ := h (v % 4) (Nat.mod_lt _ (by decide))
  have hpos := Nat.two_pow_pos j
  have hl2 : 2 ≤ 2 ^ j := by
    calc 2 = 2 ^ 1 := rfl
      _ ≤ 2 ^ j := Nat.pow_le_pow_right (by decide) hj
  have hr := Nat.mod_lt b hpos
  have hb' := Nat.div_add_mod' b (2 ^ j)
  refine ⟨2 ^ j, b / 2 ^ j, b % 2 ^ j, altDelta (2 ^ j) v, ?_, hb'.symm, hr,
    Nat.xor_lt_two_pow hr (altDelta_lt hl2 v), Nat.succ_ne_zero _, ?_,
    fun r' hr' => vacuumAltIndex_chunk hj hl hr'⟩
  · have hat := vacuumAltIndex_chunk (q := b / 2 ^ j) hj hl hr
    rwa [hb'] at hat
  · rw [hl] at hdvd
    obtain ⟨c, hc⟩ := hdvd
    have hlt : b / 2 ^ j < c := Nat.div_lt_of_lt_mul (hc ▸ hb)
    have := Nat.mul_le_mul_right (2 ^ j) (Nat.succ_le_of_lt hlt)
    rw [Nat.succ_mul] at this
    rw [hc, Nat.mul_comm (2 ^ j) c]
    exact this

/-- The alternate index is an involution without fixed points, and stays in the table. -/
lemma vacuum_alt (h : RangesOk ar nb) (hb : b < nb) (v : ℕ) : vacuumAltIndex ar b v < nb ∧
    vacuumAltIndex ar b v ≠ b ∧ vacuumAltIndex ar (vacuumAltIndex ar b v) v = b := by
  obtain ⟨l, q, r, d, he, hb', hr, hlt, hd, hle, halt⟩ := vacuum_chunk h hb v
  refine ⟨by omega, fun heq => hd ?_, ?_⟩
  · have hsame : r ^^^ d = r := by omega
    calc d = r ^^^ (r ^^^ d) := by rw [← Nat.xor_assoc, Nat.xor_self, Nat.zero_xor]
      _ = 0 := by rw [hsame, Nat.xor_self]
  · rw [he, halt _ hlt, Nat.xor_assoc, Nat.xor_self, Nat.xor_zero, hb']

/-- Inside power-of-two ranges the alternate bucket is an involution. -/
lemma vacuum_altLaws (h : RangesOk ar nb) (f : ℕ) : AltLaws nb f (vacuumAltIndex ar) :=
  ⟨fun _ hb v _ _ => (vacuum_alt h hb v).1, fun _ hb v _ _ => (vacuum_alt h hb v).2.2⟩

/-- The look-ahead adds the fingerprint. -/
lemma Chain.lookahead {t' : FpTable} (hc : Chain nb (vacuumAltIndex ar) t₀ b₀ fp₀ t b fp evicted)
    (ha : AltLaws nb t.fingerprintBits (vacuumAltIndex ar))
    (h : Amq.lookahead ar t b fp = some t') :
    Inserted nb (vacuumAltIndex ar) t₀ b₀ fp₀ t' := by
  obtain ⟨i, hi, hs⟩ := List.exists_of_findSome?_eq_some h
  rw [List.mem_range] at hi
  simp only at hs
  split_ifs at hs with h0
  split at hs
  swap
  · cases hs
  rename_i s hslot
  cases hs
  have hv := hc.wf.get_lt (b * t.bucketSize + i)
  generalize hvf : t.get (b * t.bucketSize + i) = v at *
  obtain ⟨-, hempty⟩ := t.findFingerprint_some hslot
  -- the entry moves to an empty slot, which is not its own
  have hne : b * t.bucketSize + i ≠ vacuumAltIndex ar b v * t.bucketSize + s := by
    intro heq
    rw [← heq, hvf] at hempty
    exact h0 hempty
  have hwf := hc.wf.setEntry (vacuumAltIndex ar b v * t.bucketSize + s) v
  refine ⟨hwf.setEntry _ _, hc.layout.trans ⟨rfl, rfl, rfl⟩, fun Q hQ => ?_⟩
  rw [← hc.layout.2.1] at hQ
  have h1 := hc.wf.number_place hQ (ha.lt b hc.bucket v hv h0) hslot hv
  have h2 := hwf.number_setEntry (Q := Q) hc.bucket hi hc.fits
  rw [hQ.alt b hc.bucket v hv h0] at h1
  change _ + (Q b ((t.setEntry _ v).get (b * t.bucketSize + i))).toNat = _ at h2
  rw [hc.wf.get_setEntry_ne hv hne, hvf, h1] at h2
  have := hc.count Q hQ
  change ((t.setEntry _ v).setEntry (b * t.bucketSize + i) fp).number nb Q + _ = _ at h2
  omega

/-- A chain of evictions adds the fingerprint, or is rolled back. -/
lemma Chain.evictLoop (hr : RangesOk ar nb) :
    ∀ (evicts n : ℕ) {t : FpTable} {b fp : ℕ} {evicted : List (ℕ × ℕ)},
    Chain nb (vacuumAltIndex ar) t₀ b₀ fp₀ t b fp evicted → t.FullBucket b →
    (∃ t', Amq.evictLoop ar evicts n t b fp evicted = (true, t') ∧
      Inserted nb (vacuumAltIndex ar) t₀ b₀ fp₀ t') ∨
      Amq.evictLoop ar evicts n t b fp evicted = (false, t₀)
  | 0, n, t, b, fp, evicted, hc, _ => .inr (by rw [Amq.evictLoop, hc.back])
  | evicts + 1, n, t, b, fp, evicted, hc, hfull => by
    have halt := vacuum_altLaws hr t.fingerprintBits
    have hc' := hc.evict halt hfull (evictSlot_lt n fp hc.wf.bucket)
    rw [Amq.evictLoop]
    rcases hl : Amq.lookahead ar t b fp with _ | t'
    · simp only
      split
      · rename_i slot hs
        exact .inl ⟨_, rfl, hc'.place hs⟩
      · rename_i hs
        exact Chain.evictLoop hr evicts (n + 1) hc' (FpTable.fullBucket hs)
    · exact .inl ⟨t', rfl, hc.lookahead halt hl⟩

/-- The slow path adds the fingerprint, or leaves the table as it is. -/
lemma FpTable.Wf.insertSlow (h : t.Wf) (hr : RangesOk ar nb) (maxEvicts : ℕ) (hb : b < nb)
    (hfp : fp ≠ 0) (hf : fp < 2 ^ t.fingerprintBits) (hfull1 : t.FullBucket b)
    (hfull2 : t.FullBucket (vacuumAltIndex ar b fp)) :
    (∃ t', Amq.insertSlow ar maxEvicts t b (vacuumAltIndex ar b fp) fp = (true, t') ∧
        Inserted nb (vacuumAltIndex ar) t b fp t') ∨
      Amq.insertSlow ar maxEvicts t b (vacuumAltIndex ar b fp) fp = (false, t) := by
  have halt := vacuum_altLaws hr t.fingerprintBits
  have hc : Chain nb (vacuumAltIndex ar) t b fp t b fp [] := .nil h hb hfp hf
  unfold Amq.insertSlow
  rcases h1 : lookahead ar t b fp with _ | t'
  · rcases h2 : lookahead ar t (vacuumAltIndex ar b fp) fp with _ | t'
    · -- both buckets are full, and the fingerprint may go to either
      simp only
      split_ifs
      · exact hc.evictLoop hr maxEvicts 0 hfull1
      · exact (hc.swap halt).evictLoop hr maxEvicts 0 hfull2
    · exact .inl ⟨t', rfl, (hc.swap halt).lookahead halt h2⟩
  · exact .inl ⟨t', rfl, hc.lookahead halt h1⟩

/-- The header of a filter agrees with itself. -/
structure VacuumFilter.Good (vf : VacuumFilter) (ar : ℕ → ℕ) (nb f : ℕ) : Prop where
  wf : vf.Wf
  bits : vf.fingerprintBits = f
  buckets : vf.numBuckets = nb
  ranges : vf.ar = ar

/-- The bucket of a hash is in the table. -/
lemma vacuumHashIndex_lt (hash : UInt64) (h : 0 < nb) : vacuumHashIndex hash nb < nb := by
  unfold vacuumHashIndex
  have hx : hash.toNat >>> 32 < 2 ^ 32 := by
    rw [Nat.shiftRight_eq_div_pow]
    exact Nat.div_lt_of_lt_mul hash.toNat_lt
  rw [Nat.shiftRight_eq_div_pow]
  refine Nat.div_lt_of_lt_mul ((Nat.mod_le ..).trans_lt ?_)
  exact Nat.mul_lt_mul_of_pos_right hx h

/-- What `vacuum_filter_insert` does. -/
lemma VacuumFilter.Good.insert (h : vf.Good ar nb f) (hr : RangesOk ar nb) (hnb : 0 < nb)
    (hash : UInt64) :
    (∃ t', vacuumFilterInsert vf hash = (.ok, { vf with toFpTable := t', count := vf.count + 1 }) ∧
        Inserted nb (vacuumAltIndex ar) vf.toFpTable (vacuumHashIndex hash nb)
        (fingerprint hash f) t') ∨
      vacuumFilterInsert vf hash = (.full, vf) := by
  have hf0 := fingerprint_ne_zero hash f
  have hflt : fingerprint hash f < 2 ^ vf.fingerprintBits := by
    rw [h.bits]
    exact fingerprint_lt hash (h.bits ▸ h.wf.bits_pos)
  have hhome := vacuumHashIndex_lt hash hnb
  unfold vacuumFilterInsert
  rw [h.bits, h.buckets, h.ranges]
  generalize fingerprint hash f = fp at *
  generalize vacuumHashIndex hash nb = b1 at *
  simp only
  obtain ⟨t', he, hins⟩ | ⟨he, hfull1, hfull2⟩ := h.wf.insertIn (vacuum_altLaws hr _) hhome hf0 hflt
  · rw [he]
    exact .inl ⟨t', rfl, hins⟩
  · rw [he]
    obtain ⟨t', he', hins⟩ | he' := h.wf.insertSlow hr vf.maxEvicts hhome hf0 hflt hfull1 hfull2
    · rw [he']
      exact .inl ⟨t', rfl, hins⟩
    · rw [he', ← h.buckets, ← h.ranges]
      exact .inr rfl

/-- The vacuum filter keeps the laws of a filter. -/
lemma vacuum_laws (hr : RangesOk ar nb) (hnb : 0 < nb) {f : ℕ} (hf : 0 < f) :
    FilterLaws vacuumFilterInsert vacuumFilterDelete VacuumFilter.toFpTable VacuumFilter.count
      (fun vf => vf.Good ar nb f) nb f (vacuumAltIndex ar) fun hash => vacuumHashIndex hash nb := by
  refine ⟨vacuum_altLaws hr f, hf, fun hash => vacuumHashIndex_lt hash hnb, fun vf h => h.bits,
    fun vf hash h => ?_, fun vf hash h => ?_⟩
  · obtain ⟨t', he, hins⟩ | he := h.insert hr hnb hash
    · rw [he]
      exact .inl ⟨rfl, ⟨hins.wf, hins.layout.2.1.trans h.bits, h.buckets, h.ranges⟩, hins, rfl⟩
    · rw [he]
      exact .inr ⟨rfl, rfl⟩
  · have hflt : fingerprint hash f < 2 ^ vf.fingerprintBits := by
      rw [h.bits]
      exact fingerprint_lt hash hf
    have hdel := h.wf.deleteIn (vacuum_altLaws hr vf.fingerprintBits) (vacuumHashIndex_lt hash hnb)
      (fingerprint_ne_zero hash f) hflt
    rw [h.bits] at hdel
    unfold vacuumFilterDelete
    simp only [h.bits, h.buckets, h.ranges]
    obtain ⟨t', he, hwf, hlay, hnum⟩ | ⟨he, h0⟩ := hdel
    · rw [he]
      exact .inl ⟨rfl, ⟨hwf, hlay.2.1.trans h.bits, rfl, rfl⟩, hnum, rfl⟩
    · rw [he]
      exact .inr ⟨rfl, rfl, h0⟩

/-- A created filter is empty, and its header agrees with itself. -/
lemma vacuum_create {rangeSelection : ℕ → ℕ → ℕ → ℕ} {bucketsFor : ℕ → ℕ → ℕ}
    {capacity bucketSize fpBits maxEvicts : ℕ}
    (hc : vacuumFilterCreate rangeSelection bucketsFor capacity bucketSize fpBits maxEvicts =
      some vf) :
    0 < vf.fingerprintBits ∧ 0 < vf.numBuckets ∧ vf.Wf ∧ vf.count = 0 ∧ vf.words = fun _ => 0 := by
  unfold vacuumFilterCreate at hc
  extract_lets bs fb me at hc
  split_ifs at hc with h h'
  rename_i nb eps cap ar largest nb' nb'' ne ns
  cases hc
  have hbs : 0 < bs := by
    change 0 < if bucketSize = 0 then 4 else bucketSize
    split_ifs <;> omega
  exact ⟨show 0 < fb by omega, Nat.not_lt.mp h',
    ⟨show 0 < fb by omega, show fb ≤ 32 by omega, rfl, hbs⟩, rfl, rfl⟩

/-- The calls of a vacuum filter. -/
abbrev vacuumStep : VacuumFilter → CountOp UInt64 → Bool × VacuumFilter :=
  filterStep vacuumFilterInsert vacuumFilterDelete

/-- Whether a hash is in the class of the bucket `b` and the fingerprint `fp`. -/
def VacuumFilter.ofClass (vf : VacuumFilter) (b fp : ℕ) (hash : UInt64) : Bool :=
  inClass (vacuumAltIndex vf.ar) b fp (vacuumHashIndex hash vf.numBuckets)
  (fingerprint hash vf.fingerprintBits)

/-- The number of slots in the buckets `b` and `alt(b, fp)` that hold `fp`. -/
def VacuumFilter.classCount (vf : VacuumFilter) (b fp : ℕ) : ℕ :=
  vf.number vf.numBuckets (inClass (vacuumAltIndex vf.ar) b fp)

/-- In every run of a created filter whose ranges are powers of two that divide the number of
buckets, and that deletes only hashes inserted more often than deleted, every class has as many
entries as successful insertions less deletions, a hash still present is found, every deletion
succeeds, the count is that of the entries, and an insertion that finds the filter full leaves the
table as it is. -/
theorem vacuum_exact (rangeSelection : ℕ → ℕ → ℕ → ℕ) (bucketsFor : ℕ → ℕ → ℕ)
    (capacity bucketSize fpBits maxEvicts : ℕ) (vf₀ : VacuumFilter) (ops : List (CountOp UInt64))
    (hc : vacuumFilterCreate rangeSelection bucketsFor capacity bucketSize fpBits maxEvicts =
      some vf₀)
    (hr : RangesOk vf₀.ar vf₀.numBuckets) (hcov : Covered vacuumStep vf₀ [] ops) :
    let evs := (countRun vacuumStep vf₀ ops).1
    let vf := (countRun vacuumStep vf₀ ops).2
    (∀ b < vf.numBuckets, ∀ fp ≠ 0,
        vf.classCount b fp + removed (vf.ofClass b fp) evs = added (vf.ofClass b fp) evs) ∧
      (∀ hash, removed (· = hash) evs < added (· = hash) evs → vacuumFilterLookup vf hash = true) ∧
      (∀ ev ∈ evs, ∀ hash, ev.op = .delete hash → ev.ok = true) ∧
      vf.count = vf.number vf.numBuckets isEntry ∧
      ∀ hash, (vacuumFilterInsert vf hash).1 = .full → (vacuumFilterInsert vf hash).2 = vf := by
  obtain ⟨hf, hnb, hwf, hcnt, hwords⟩ := vacuum_create hc
  have hgood : vf₀.Good vf₀.ar vf₀.numBuckets vf₀.fingerprintBits := ⟨hwf, rfl, rfl, rfl⟩
  obtain ⟨hend, hclass, hlookup, hdel, hcount⟩ := (vacuum_laws hr hnb hf).account hgood
    (fun Q hQ => hwf.number_zero hwords hQ) hcnt hcov
  refine ⟨?_, ?_, hdel, ?_, fun hash hfull => ?_⟩
  · unfold VacuumFilter.classCount VacuumFilter.ofClass
    rw [hend.buckets, hend.ranges, hend.bits]
    exact hclass
  · unfold vacuumFilterLookup
    simp only [hend.buckets, hend.ranges, hend.bits]
    exact hlookup
  · rw [hend.buckets]
    exact hcount
  · obtain ⟨t', he, -⟩ | he := hend.insert hr hnb hash
    · rw [he] at hfull
      cases hfull
    · rw [he]

/-- Two copies of a hash and one of another, one copy deleted, in four buckets of one entry with
ranges of two. -/
theorem vacuum_exact_two :
    ∃ vf₀, vacuumFilterCreate (fun _ _ _ => 1) (fun _ _ => 4) 3 1 8 2 = some vf₀ ∧
      vacuumFilterLookup
      (countRun vacuumStep vf₀ [.insert 5, .insert 5, .insert 7, .delete 5]).2 5 = true :=
  ⟨_, rfl, (vacuum_exact (fun _ _ _ => 1) (fun _ _ => 4) 3 1 8 2 _
    [.insert 5, .insert 5, .insert 7, .delete 5] rfl
    (fun _ _ => ⟨1, le_rfl, rfl, 2, rfl⟩) ⟨trivial, trivial, trivial, by decide +kernel,
      trivial⟩).2.1 5
    (by decide +kernel)⟩

end Draugr.Amq
