import Draugr.Amq.Table

/-!
# The cuckoo filter

Model of `src/cuckoo_filter.c`: partial-key cuckoo hashing over the fingerprint table. The number of
buckets is a power of two, so that the alternate bucket is an exclusive or, and that is its own
inverse. An insertion that finds both buckets full evicts entries along a chain and writes them all
back if the chain comes to no end.

The double quotient `capacity / 0.95` and its ceiling are exact for 32-bit capacities, and the
allocation of `cuckoo_filter_create` succeeds.
-/

namespace Draugr.Amq
open Draugr.Lib

/-- `next_power_of_2`. -/
def nextPowerOf2 (n : ℕ) : ℕ :=
  if n = 0 then 1
  else
    let n := n - 1
    let n := n ||| n >>> 1
    let n := n ||| n >>> 2
    let n := n ||| n >>> 4
    let n := n ||| n >>> 8
    let n := n ||| n >>> 16
    let n := n ||| n >>> 32
    n + 1

/-- `cuckoo_filter_t`. -/
structure CuckooFilter extends FpTable where
  numEntries : ℕ
  count : ℕ
  numBuckets : ℕ
  numSets : ℕ
  maxKicks : ℕ
  bucketMask : ℕ

/-- `cuckoo_hash_index`. -/
def cuckooHashIndex (hash : UInt64) (bucketMask : ℕ) : ℕ := (hash.toNat >>> 32) &&& bucketMask

/-- `cuckoo_alt_index`. -/
def cuckooAltIndex (currentIndex fp bucketMask : ℕ) : ℕ :=
  (currentIndex ^^^ mix32 fp) &&& bucketMask

/-- The loop of `cuckoo_filter_create` that halves the number of buckets until the derived values
fit their fields; it runs at most `fuel` times, and `num_buckets` times are enough. -/
def capBuckets (bucketSize : ℕ) : ℕ → ℕ → ℕ
  | 0, numBuckets => numBuckets
  | fuel + 1, numBuckets =>
    if (2 ^ 32 - 1) / 2 + 1 < numBuckets ∨ 2 ^ 32 - 1 < numBuckets * bucketSize then
      capBuckets bucketSize fuel (numBuckets / 2)
    else numBuckets

/-- `cuckoo_filter_create`. -/
def cuckooFilterCreate (capacity bucketSize fpBits maxKicks : ℕ) : Option CuckooFilter :=
  let bucketSize := if bucketSize = 0 then 4 else bucketSize
  let fpBits := if fpBits = 0 then 10 else fpBits
  let maxKicks := if maxKicks = 0 then 200 else maxKicks
  if capacity = 0 ∨ bucketSize < 1 ∨ 16 < bucketSize ∨ fpBits < 1 ∨ 32 < fpBits ∨
      2 ^ 32 - 1 < capacity then none
  else
    -- `ceil((double)capacity / 0.95)`
    let totalEntries := (20 * capacity + 18) / 19
    let entriesPerSet := 512 / fpBits
    let numBuckets := nextPowerOf2 ((totalEntries + bucketSize - 1) / bucketSize)
    let numBuckets := capBuckets bucketSize numBuckets numBuckets
    let numEntries := numBuckets * bucketSize
    let numSets := (numEntries + entriesPerSet - 1) / entriesPerSet
    some
      { words := fun _ => 0
        entriesPerSet := entriesPerSet
        fingerprintBits := fpBits
        bucketSize := bucketSize
        numEntries := numEntries
        count := 0
        numBuckets := numBuckets
        numSets := numSets
        maxKicks := maxKicks
        bucketMask := numBuckets - 1 }

/-- The eviction loop of `cuckoo_filter_insert` with `kicks` rounds left, and the roll-back after
it. -/
def kickLoop (bucketMask : ℕ) : ℕ → ℕ → FpTable → ℕ → ℕ → List (ℕ × ℕ) → Bool × FpTable
  | 0, _, t, _, _, evicted => (false, rollback t evicted)
  | kicks + 1, n, t, i, fp, evicted =>
    let idx := i * t.bucketSize + evictSlot n fp t.bucketSize
    let temp := t.get idx
    let t := t.setEntry idx fp
    let i := cuckooAltIndex i temp bucketMask
    match t.findEmptySlot i with
    | some slot => (true, t.setEntry (i * t.bucketSize + slot) temp)
    | none => kickLoop bucketMask kicks (n + 1) t i temp ((idx, temp) :: evicted)

/-- `cuckoo_filter_insert`. -/
def cuckooFilterInsert (cf : CuckooFilter) (hash : UInt64) : AmqErr × CuckooFilter :=
  let fp := fingerprint hash cf.fingerprintBits
  let i1 := cuckooHashIndex hash cf.bucketMask
  let i2 := cuckooAltIndex i1 fp cf.bucketMask
  match cf.insertIn i1 i2 fp with
  | some t => (.ok, { cf with toFpTable := t, count := cf.count + 1 })
  | none =>
    let i := if (i1 + i2) % 2 = 1 then i1 else i2
    match kickLoop cf.bucketMask cf.maxKicks 0 cf.toFpTable i fp [] with
    | (true, t) => (.ok, { cf with toFpTable := t, count := cf.count + 1 })
    | (false, t) => (.full, { cf with toFpTable := t })

/-- `cuckoo_filter_lookup`. -/
def cuckooFilterLookup (cf : CuckooFilter) (hash : UInt64) : Bool :=
  let fp := fingerprint hash cf.fingerprintBits
  let i1 := cuckooHashIndex hash cf.bucketMask
  let i2 := cuckooAltIndex i1 fp cf.bucketMask
  cf.lookupIn i1 i2 fp

/-- `cuckoo_filter_delete`. -/
def cuckooFilterDelete (cf : CuckooFilter) (hash : UInt64) : AmqErr × CuckooFilter :=
  let fp := fingerprint hash cf.fingerprintBits
  let i1 := cuckooHashIndex hash cf.bucketMask
  let i2 := cuckooAltIndex i1 fp cf.bucketMask
  match cf.deleteIn i1 i2 fp with
  | some t => (.ok, { cf with toFpTable := t, count := cf.count - 1 })
  | none => (.notFound, cf)

/-! ## The buckets -/

/-- A number below `2 ^ 64` is rounded up to a power of two. -/
lemma nextPowerOf2_eq {n : ℕ} (hn : n ≤ 2 ^ 64) : ∃ k ≤ 64, nextPowerOf2 n = 2 ^ k ∧ n ≤ 2 ^ k := by
  unfold nextPowerOf2
  split_ifs with h0
  · exact ⟨0, by omega, rfl, by omega⟩
  · have hs := (smeared_one (n - 1)).double.double.double.double.double.double
    obtain ⟨k, hk, he, hlt, -⟩ := hs.eq (show n - 1 < 2 ^ 64 by omega)
    exact ⟨k, hk, he, by omega⟩

/-- The halving loop gives a power of two whose derived values fit their fields. -/
lemma capBuckets_eq {bs : ℕ} (hbs : bs ≤ 16) : ∀ (k fuel : ℕ), 2 ^ k ≤ fuel →
    ∃ j, capBuckets bs fuel (2 ^ k) = 2 ^ j ∧ 2 ^ j ≤ 2 ^ 31 ∧ 2 ^ j * bs ≤ 2 ^ 32 - 1
  | k, 0, hf => absurd hf (Nat.not_le.mpr (Nat.two_pow_pos k))
  | 0, fuel + 1, _ => by
    refine ⟨0, ?_, by decide, by omega⟩
    rw [capBuckets, if_neg (by omega)]
  | k + 1, fuel + 1, hf => by
    rw [capBuckets]
    split_ifs with h
    · rw [show 2 ^ (k + 1) / 2 = 2 ^ k by rw [Nat.pow_succ]; omega]
      refine capBuckets_eq hbs k fuel ?_
      rw [Nat.pow_succ] at hf
      have := Nat.two_pow_pos k
      omega
    · exact ⟨k + 1, rfl, by omega, by omega⟩

/-- The alternate bucket of a table with `2 ^ k` buckets. -/
lemma cuckoo_altLaws (k f : ℕ) : AltLaws (2 ^ k) f fun b v => cuckooAltIndex b v (2 ^ k - 1) := by
  refine ⟨fun b _ v _ _ => ?_, fun b hb v _ _ => ?_⟩
  · rw [cuckooAltIndex, Nat.and_two_pow_sub_one_eq_mod]
    exact Nat.mod_lt _ (Nat.two_pow_pos k)
  · unfold cuckooAltIndex
    generalize mix32 v = m
    rw [Nat.and_two_pow_sub_one_eq_mod, Nat.and_two_pow_sub_one_eq_mod, Nat.xor_mod_two_pow,
      Nat.mod_mod,
      ← Nat.xor_mod_two_pow, Nat.xor_assoc, Nat.xor_self, Nat.xor_zero, Nat.mod_eq_of_lt hb]

/-- The header of a filter agrees with itself. -/
structure CuckooFilter.Good (cf : CuckooFilter) (k f : ℕ) : Prop where
  wf : cf.Wf
  bits : cf.fingerprintBits = f
  buckets : cf.numBuckets = 2 ^ k
  mask : cf.bucketMask = 2 ^ k - 1

variable {cf : CuckooFilter} {k f : ℕ} {t₀ t : FpTable} {b₀ fp₀ i fp : ℕ} {evicted : List (ℕ × ℕ)}

/-- A chain of evictions adds the fingerprint, or is rolled back. -/
lemma Chain.kickLoop {mask : ℕ} (hmask : mask = 2 ^ k - 1) :
    ∀ (kicks n : ℕ) {t : FpTable} {i fp : ℕ}
    {evicted : List (ℕ × ℕ)},
    Chain (2 ^ k) (fun b v => cuckooAltIndex b v mask) t₀ b₀ fp₀ t i fp evicted → t.FullBucket i →
    (∃ t', Amq.kickLoop mask kicks n t i fp evicted = (true, t') ∧
        Inserted (2 ^ k) (fun b v => cuckooAltIndex b v mask) t₀ b₀ fp₀ t') ∨
      Amq.kickLoop mask kicks n t i fp evicted = (false, t₀)
  | 0, n, t, i, fp, evicted, hc, _ => .inr (by rw [Amq.kickLoop, hc.back])
  | kicks + 1, n, t, i, fp, evicted, hc, hfull => by
    have hslot := evictSlot_lt n fp hc.wf.bucket
    have halt : AltLaws (2 ^ k) t.fingerprintBits fun b v => cuckooAltIndex b v mask := by
      rw [hmask]
      exact cuckoo_altLaws k _
    have hc' := hc.evict halt hfull hslot
    rw [Amq.kickLoop]
    split
    · rename_i slot hs
      exact .inl ⟨_, rfl, hc'.place hs⟩
    · rename_i hs
      exact Chain.kickLoop hmask kicks (n + 1) hc' (FpTable.fullBucket hs)

/-- What `cuckoo_filter_insert` does. -/
lemma CuckooFilter.Good.insert (h : cf.Good k f) (hash : UInt64) :
    (∃ t', cuckooFilterInsert cf hash = (.ok, { cf with toFpTable := t', count := cf.count + 1 }) ∧
        Inserted (2 ^ k) (fun b v => cuckooAltIndex b v (2 ^ k - 1)) cf.toFpTable
          (cuckooHashIndex hash (2 ^ k - 1)) (fingerprint hash f) t') ∨
      cuckooFilterInsert cf hash = (.full, cf) := by
  have hf0 := fingerprint_ne_zero hash f
  have hflt : fingerprint hash f < 2 ^ cf.fingerprintBits := by
    rw [h.bits]
    exact fingerprint_lt hash (h.bits ▸ h.wf.bits_pos)
  have halt := cuckoo_altLaws k cf.fingerprintBits
  have hhome : cuckooHashIndex hash (2 ^ k - 1) < 2 ^ k := by
    rw [cuckooHashIndex, Nat.and_two_pow_sub_one_eq_mod]
    exact Nat.mod_lt _ (Nat.two_pow_pos k)
  unfold cuckooFilterInsert
  simp only [h.bits, h.mask]
  generalize fingerprint hash f = fp at *
  generalize cuckooHashIndex hash (2 ^ k - 1) = i1 at *
  obtain ⟨t', he, hins⟩ | ⟨he, hfull1, hfull2⟩ := h.wf.insertIn halt hhome hf0 hflt
  · rw [he]
    exact .inl ⟨t', rfl, hins⟩
  · rw [he]
    have hc : Chain (2 ^ k)
        (fun b v => cuckooAltIndex b v (2 ^ k - 1)) cf.toFpTable i1 fp cf.toFpTable i1 fp [] :=
      .nil h.wf hhome hf0 hflt
    -- both buckets are full, and the fingerprint may go to either
    generalize hi : (if (i1 + cuckooAltIndex i1 fp (2 ^ k - 1)) % 2 = 1 then i1
      else cuckooAltIndex i1 fp (2 ^ k - 1)) = i
    have hstart :
      Chain (2 ^ k) (fun b v => cuckooAltIndex b v (2 ^ k - 1)) cf.toFpTable i1 fp cf.toFpTable i fp
        [] ∧
        cf.FullBucket i := by
      split_ifs at hi <;> subst hi
      · exact ⟨hc, hfull1⟩
      · exact ⟨hc.swap halt, hfull2⟩
    obtain ⟨t', he', hins⟩ | he' := Chain.kickLoop rfl cf.maxKicks 0 hstart.1 hstart.2
    · simp only [he']
      exact .inl ⟨t', rfl, hins⟩
    · simp only [he']
      exact .inr (by rw [← h.mask])

/-- What `cuckoo_filter_delete` does. -/
lemma CuckooFilter.Good.delete (h : cf.Good k f) (hash : UInt64) :
    (∃ t' : FpTable,
      cuckooFilterDelete cf hash = (.ok, { cf with toFpTable := t', count := cf.count - 1 }) ∧
        t'.Wf ∧ SameLayout cf.toFpTable t' ∧
        ∀ Q, Closed (2 ^ k) f (fun b v => cuckooAltIndex b v (2 ^ k - 1)) Q →
          t'.number (2 ^ k) Q + (Q (cuckooHashIndex hash (2 ^ k - 1)) (fingerprint hash f)).toNat =
            cf.number (2 ^ k) Q) ∨
      (cuckooFilterDelete cf hash = (.notFound, cf) ∧
        cf.number (2 ^ k) (inClass (fun b v => cuckooAltIndex b v (2 ^ k - 1))
          (cuckooHashIndex hash (2 ^ k - 1)) (fingerprint hash f)) = 0) := by
  have hflt : fingerprint hash f < 2 ^ cf.fingerprintBits := by
    rw [h.bits]
    exact fingerprint_lt hash (h.bits ▸ h.wf.bits_pos)
  have hhome : cuckooHashIndex hash (2 ^ k - 1) < 2 ^ k := by
    rw [cuckooHashIndex, Nat.and_two_pow_sub_one_eq_mod]
    exact Nat.mod_lt _ (Nat.two_pow_pos k)
  have hdel :=
    h.wf.deleteIn (cuckoo_altLaws k cf.fingerprintBits) hhome (fingerprint_ne_zero hash f) hflt
  unfold cuckooFilterDelete
  simp only [h.bits, h.mask]
  rw [h.bits] at hdel
  obtain ⟨t', he, hwf, hlay, hnum⟩ | ⟨he, h0⟩ := hdel
  · rw [he]
    exact .inl ⟨t', rfl, hwf, hlay, hnum⟩
  · rw [he]
    exact .inr ⟨rfl, h0⟩

/-- The cuckoo filter keeps the laws of a filter. -/
lemma cuckoo_laws (k : ℕ) {f : ℕ} (hf : 0 < f) :
    FilterLaws cuckooFilterInsert cuckooFilterDelete CuckooFilter.toFpTable CuckooFilter.count
      (fun cf => cf.Good k f) (2 ^ k) f (fun b v => cuckooAltIndex b v (2 ^ k - 1))
      fun hash => cuckooHashIndex hash (2 ^ k - 1) := by
  refine ⟨cuckoo_altLaws k f, hf, fun hash => ?_, fun cf h => h.bits, fun cf hash h => ?_,
    fun cf hash h => ?_⟩
  · rw [cuckooHashIndex, Nat.and_two_pow_sub_one_eq_mod]
    exact Nat.mod_lt _ (Nat.two_pow_pos k)
  · obtain ⟨t', he, hins⟩ | he := h.insert hash
    · rw [he]
      exact .inl ⟨rfl, ⟨hins.wf, hins.layout.2.1.trans h.bits, h.buckets, h.mask⟩, hins, rfl⟩
    · rw [he]
      exact .inr ⟨rfl, rfl⟩
  · obtain ⟨t', he, hwf, hlay, hnum⟩ | ⟨he, h0⟩ := h.delete hash
    · rw [he]
      exact .inl ⟨rfl, ⟨hwf, hlay.2.1.trans h.bits, h.buckets, h.mask⟩, hnum, rfl⟩
    · rw [he]
      exact .inr ⟨rfl, rfl, h0⟩

/-- A created filter is empty, and its header agrees with itself. -/
lemma cuckoo_create {capacity bucketSize fpBits maxKicks : ℕ}
    (hc : cuckooFilterCreate capacity bucketSize fpBits maxKicks = some cf) :
    ∃ k f, 0 < f ∧ cf.Good k f ∧ cf.count = 0 ∧ cf.words = fun _ => 0 := by
  unfold cuckooFilterCreate at hc
  extract_lets bs fb mk at hc
  split_ifs at hc with h
  rename_i te eps nb nb' ne ns
  cases hc
  have hbs : 0 < bs ∧ bs ≤ 16 := by omega
  obtain ⟨k, -, hk, -⟩ := nextPowerOf2_eq (n := (te + bs - 1) / bs) (by
    refine (Nat.div_le_self ..).trans ?_
    omega)
  obtain ⟨j, hj, -, -⟩ := capBuckets_eq hbs.2 k (2 ^ k) le_rfl
  have hnb : nb' = 2 ^ j := by
    rw [show nb' = capBuckets bs nb nb from rfl, show nb = 2 ^ k from hk, hj]
  exact ⟨j, fb, by omega,
    ⟨⟨show 0 < fb by omega, show fb ≤ 32 by omega, rfl, hbs.1⟩, rfl, hnb, by rw [hnb]⟩, rfl, rfl⟩

/-- The entries of an empty table are empty. -/
lemma FpTable.Wf.get_zero (h : t.Wf) (hw : t.words = fun _ => 0) (idx : ℕ) : t.get idx = 0 := by
  rw [h.get_eq, hw]
  refine Nat.eq_of_testBit_eq fun j => ?_
  rw [testBit_getBits (h.bits_le.trans (by decide))]
  simp [bitAt]

/-- An empty table has no entry of any kind. -/
lemma FpTable.Wf.number_zero {nb f : ℕ} {alt : ℕ → ℕ → ℕ} {Q : ℕ → ℕ → Bool} (h : t.Wf)
    (hw : t.words = fun _ => 0) (hQ : Closed nb f alt Q) : t.number nb Q = 0 := by
  refine Nat.eq_zero_of_not_pos fun hpos => ?_
  obtain ⟨idx, -, hq⟩ := tally_pos.mp hpos
  rw [h.get_zero hw, hQ.empty] at hq
  cases hq

/-- The calls of a cuckoo filter. -/
abbrev cuckooStep : CuckooFilter → CountOp UInt64 → Bool × CuckooFilter :=
  filterStep cuckooFilterInsert cuckooFilterDelete

/-- Whether a hash is in the class of the bucket `i` and the fingerprint `fp`. -/
def CuckooFilter.ofClass (cf : CuckooFilter) (i fp : ℕ) (hash : UInt64) : Bool :=
  inClass (fun b v => cuckooAltIndex b v cf.bucketMask) i fp (cuckooHashIndex hash cf.bucketMask)
    (fingerprint hash cf.fingerprintBits)

/-- The number of slots in the buckets `i` and `alt(i, fp)` that hold `fp`. -/
def CuckooFilter.classCount (cf : CuckooFilter) (i fp : ℕ) : ℕ :=
  cf.number cf.numBuckets (inClass (fun b v => cuckooAltIndex b v cf.bucketMask) i fp)

/-- In every run of a created filter that deletes only hashes inserted more often than deleted,
every class has as many entries as successful insertions less deletions, a hash still present is
found, every deletion succeeds, the count is that of the entries, and an insertion that finds the
filter full leaves the table as it is. -/
theorem cuckoo_exact (capacity bucketSize fpBits maxKicks : ℕ) (cf₀ : CuckooFilter)
    (ops : List (CountOp UInt64))
    (hc : cuckooFilterCreate capacity bucketSize fpBits maxKicks = some cf₀)
    (hcov : Covered cuckooStep cf₀ [] ops) :
    let evs := (countRun cuckooStep cf₀ ops).1
    let cf := (countRun cuckooStep cf₀ ops).2
    (∀ i < cf.numBuckets, ∀ fp ≠ 0,
        cf.classCount i fp + removed (cf.ofClass i fp) evs = added (cf.ofClass i fp) evs) ∧
      (∀ hash, removed (· = hash) evs < added (· = hash) evs → cuckooFilterLookup cf hash = true) ∧
      (∀ ev ∈ evs, ∀ hash, ev.op = .delete hash → ev.ok = true) ∧
      cf.count = cf.number cf.numBuckets isEntry ∧
      ∀ hash, (cuckooFilterInsert cf hash).1 = .full → (cuckooFilterInsert cf hash).2 = cf := by
  obtain ⟨k, f, hf, hgood, hcnt, hwords⟩ := cuckoo_create hc
  obtain ⟨hend, hclass, hlookup, hdel, hcount⟩ := (cuckoo_laws k hf).account hgood
    (fun Q hQ => hgood.wf.number_zero hwords hQ) hcnt hcov
  refine ⟨?_, ?_, hdel, ?_, fun hash hfull => ?_⟩
  · unfold CuckooFilter.classCount CuckooFilter.ofClass
    rw [hend.buckets, hend.mask, hend.bits]
    exact hclass
  · unfold cuckooFilterLookup
    simp only [hend.mask, hend.bits]
    exact hlookup
  · rw [hend.buckets]
    exact hcount
  · obtain ⟨t', he, -⟩ | he := hend.insert hash
    · rw [he] at hfull
      cases hfull
    · rw [he]

/-- Two copies of a hash and one of another, one copy deleted, in a filter with buckets of one
entry. -/
theorem cuckoo_exact_two :
    ∃ cf₀, cuckooFilterCreate 3 1 8 2 = some cf₀ ∧
      cuckooFilterLookup
      (countRun cuckooStep cf₀ [.insert 5, .insert 5, .insert 7, .delete 5]).2 5 = true :=
  ⟨_, rfl, (cuckoo_exact 3 1 8 2 _ [.insert 5, .insert 5, .insert 7, .delete 5] rfl
    ⟨trivial, trivial, trivial, by decide +kernel, trivial⟩).2.1 5 (by decide +kernel)⟩

end Draugr.Amq
