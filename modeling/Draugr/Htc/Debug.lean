import Mathlib.Data.List.ProdSigma
import Draugr.Htc.Clear
import Draugr.Htc.Loss

/-!
# The debug functions

`htc_debug_verify_all` runs the checkers of `src/htc.c` on a table that no thread is in, and
`htc_debug_live_count` counts the live words. In every run in which no entry gets lost the checkers
accept the table (`verify_all_quiet`). `htc_debug_recompute_remap`, which `htc_debug_verify_all`
skips, never finds a wrong count, but it asks for the hint bit of every entry where the calls set
the bits of the entries that left their primary bucket (`recompute_remap_counts`).

`htc_debug_rebuild` enters the records in use into a new table. A record with the key `0` looks like
one that is not in use, to it and to the checkers.

* The arrays of the debug functions are allocated, those of no length too, and the number of words
  fits in 32 bits.
* `t->num_buckets` is the number of buckets of the current generation, as it is outside of a lazy
  resize.
* The faults of `htc_debug_verify_all` are bits of one number, in any order.
-/

namespace Draugr.Htc
open Draugr.Lib

/-! ## The scans -/

/-- The slots of the buckets in the order of the scans. -/
def Gen.places (g : Gen) : List (ℕ × ℕ) := List.range g.numBuckets ×ˢ List.range bucketSlots

/-- The slots of the buckets, the stashes of the shards and the global stash, in the order of the
scans. -/
def Core.places (c : Core) : List Place :=
  c.gen.places.map .slot ++
  ((List.range c.shardCount ×ˢ List.range stashMax).map (fun x => .shard x.1 x.2) ++
    (List.range stashMax).map .global)

/-- The live words in the order of the scans. -/
def Core.words (c : Core) : List Word := c.places.filterMap c.wordAt

/-- `htc_debug_live_count`. -/
def htcDebugLiveCount (c : Core) : ℕ := c.words.length

/-- A control byte of the bucket `bi` is wrong for `htc_debug_check_ctrl`, which lets a zero byte of
a live slot pass. -/
def ctrlFault (g : Gen) (bi : ℕ) : Bool :=
  (List.range bucketSlots).any fun si =>
    match g.slots (bi, si) with
    | some w => g.ctrl (bi, si) != partial8 w.tag && g.ctrl (bi, si) != 0
    | none => g.ctrl (bi, si) != 0

/-- `htc_debug_check_ctrl`: the first bucket with a fault. The answer `0` is also the one without a
fault. -/
def htcDebugCheckCtrl (g : Gen) : ℕ := ((List.range g.numBuckets).find? (ctrlFault g)).getD 0

/-- The loops of `htc_debug_check_duplicate_hash`, with the hashes collected so far. -/
def firstDuplicate : List ℕ → List ℕ → ℕ
  | _, [] => 0
  | hashes, h :: hs => if h ∈ hashes then h else firstDuplicate (h :: hashes) hs

/-- `htc_debug_check_duplicate_hash`. -/
def htcDebugCheckDuplicateHash (c : Core) : ℕ :=
  firstDuplicate [] (c.words.map fun w => c.keyOf w.idx)

/-- The faults of a word at a slot of a bucket whose record has the placement hash `ph`. -/
def wordFaults (g : Gen) (ph : ℕ) (x : ℕ × ℕ) (w : Word) : ℕ :=
  if ph = 0 then 0
  else
    (if x.1 ≠ g.primary ph ∧ x.1 ≠ g.secondary ph then 8 else 0) |||
      ((if (x.1 != g.primary ph) ≠ w.inSec then 16 else 0) ||| (if w.tag ≠ tag16 ph then 32 else 0))

/-- The faults of a slot of a bucket. -/
def slotFaults (c : Core) (x : ℕ × ℕ) : ℕ :=
  ((c.gen.slots x).map fun w => wordFaults c.gen (c.recs w.idx).placementHash x w).getD 0

/-- `refcount`, which has 8 bits. -/
def refcount (c : Core) (i : ℕ) : ℕ := c.words.countP (fun w => w.idx == i) % 2 ^ 8

/-- The faults of a record. -/
def recordFaults (c : Core) (i : ℕ) : ℕ :=
  if c.keyOf i ≠ 0 ∧ (c.recs i).flags = 0 then
    (if refcount c i = 0 then 128 else 0) ||| (if 1 < refcount c i then 256 else 0)
  else 0

/-- All faults of a list. -/
def allFaults (fs : List ℕ) : ℕ := fs.foldr (· ||| ·) 0

/-- `htc_debug_verify_all`. -/
def htcDebugVerifyAll (c : Core) : ℕ :=
  (if htcDebugCheckCtrl c.gen ≠ 0 then 1 else 0) |||
  ((if htcDebugCheckDuplicateHash c ≠ 0 then 4 else 0) |||
    (allFaults (c.gen.places.map (slotFaults c)) ||| allFaults
      ((List.range c.count).map (recordFaults c))))

/-- The entry of a slot counts as one that left the primary bucket `b`. -/
def recounts (c : Core) (b : ℕ) (x : ℕ × ℕ) : Bool :=
  (c.gen.slots x).any fun w =>
    let primary := c.gen.primary (c.recs w.idx).placementHash
    primary == b && (x.1 != primary || w.inSec)

/-- `recomputed[b]`. -/
def recomputed (c : Core) (b : ℕ) : ℕ := c.gen.places.countP (recounts c b)

/-- `recomputed_filter[b]`. -/
def recomputedFilter (c : Core) (b : ℕ) : ℕ :=
  allFaults (c.gen.places.map fun x => ((c.gen.slots x).map fun w =>
    if c.gen.primary (c.recs w.idx).placementHash = b then 1 <<< (w.tag % 16) else 0).getD 0)

/-- The mismatches at the bucket `b`. -/
def mismatches (c : Core) (b : ℕ) : ℕ :=
  (if c.gen.remapCount b ≠ remapSaturated ∧ c.gen.remapCount b ≠ recomputed c b then 1 else 0) +
    (if c.gen.remapCount b ≠ remapSaturated ∧
      c.gen.remapFilter b &&& recomputedFilter c b ≠ recomputedFilter c b then 1 else 0)

/-- `htc_debug_recompute_remap`. -/
def htcDebugRecomputeRemap (c : Core) : ℕ := ((List.range c.gen.numBuckets).map (mismatches c)).sum

/-- The snapshot of `htc_debug_rebuild`: keys and values. -/
def snapshot (c : Core) : List (ℕ × ℕ) :=
  ((List.range c.count).filter fun i => c.keyOf i ≠ 0 ∧ (c.recs i).flags = 0).map fun i =>
    (c.keyOf i, (c.recs i).userValue)

/-- The insertions of `htc_debug_rebuild`; `none` is `NULL`. -/
def rebuildInsert : List (ℕ × ℕ) → Table → Option Table
  | [], t => some t
  | (h, v) :: entries, t =>
    match htcInsert h v t with
    | (.ok, t) => rebuildInsert entries t
    | _ => none

/-- The configuration of the table of `htc_debug_rebuild`. -/
def rebuildConfig (t : Table) (disableFrontCache : Bool) : HtcConfig :=
  ⟨t.gen.numBuckets, t.maxLoadFactor, 0, disableFrontCache⟩

/-- `htc_debug_rebuild`, with the counter of `htc_seed` and the outcomes of the allocations to
come. -/
def htcDebugRebuild (t : Table) (disableFrontCache : Bool) (seedCtr : ℕ) (mem : List Bool) :
    Option Table :=
  rebuildInsert (snapshot t.toCore)
    (htcCreate (some (rebuildConfig t disableFrontCache)) seedCtr mem)

variable {c : Core} {t t' : Table} {g : Gen} {x : ℕ × ℕ} {w : Word} {p : Place} {b h i v ph : ℕ}
  {ops : List HtcOp}

/-! ## What the scans visit -/

/-- The places of a generation. -/
lemma mem_genPlaces : x ∈ g.places ↔ x.1 < g.numBuckets ∧ x.2 < bucketSlots := by
  rw [Gen.places, List.mem_product, List.mem_range, List.mem_range]

/-- No place of a generation is visited twice. -/
lemma genPlaces_nodup (g : Gen) : g.places.Nodup := List.nodup_range.product List.nodup_range

/-- No place is visited twice. -/
lemma places_nodup (c : Core) : c.places.Nodup := by
  refine List.Nodup.append ((genPlaces_nodup _).map fun x y h => by cases h; rfl) (List.Nodup.append
    ((List.nodup_range.product List.nodup_range).map fun x y h => ?_)
      (List.nodup_range.map fun x y h => by cases h; rfl)
    ?_) ?_
  · obtain ⟨h₁, h₂⟩ := Place.shard.inj h
    exact Prod.ext h₁ h₂
  · intro p hp hp'
    obtain ⟨x, -, rfl⟩ := List.mem_map.mp hp
    obtain ⟨y, -, hy⟩ := List.mem_map.mp hp'
    cases hy
  · intro p hp hp'
    obtain ⟨x, -, rfl⟩ := List.mem_map.mp hp
    rcases List.mem_append.mp hp' with hm | hm
    · obtain ⟨y, -, hy⟩ := List.mem_map.mp hm
      cases hy
    · obtain ⟨y, -, hy⟩ := List.mem_map.mp hm
      cases hy

/-- A seat of the buckets is visited. -/
lemma mem_genPlaces_of_seat (hn : 0 < c.gen.numBuckets) (hs : c.Seat ph w (.slot x)) :
    x ∈ c.gen.places := by
  obtain ⟨h8, hb⟩ := hs
  refine mem_genPlaces.mpr ⟨?_, h8⟩
  split at hb
  · rw [hb.1]
    exact Nat.mod_lt _ hn
  · rw [hb]
    exact Nat.mod_lt _ hn

/-- Every seat is visited. -/
lemma mem_places_of_seat (hn : 0 < c.gen.numBuckets) (hc : 0 < c.shardCount) (hs : c.Seat ph w p) :
    p ∈ c.places := by
  rw [Core.places, List.mem_append, List.mem_append]
  cases p with
  | slot x => exact .inl (List.mem_map_of_mem (mem_genPlaces_of_seat hn hs))
  | shard s j =>
    obtain ⟨hj, rfl⟩ := hs
    refine .inr (.inl (List.mem_map.mpr ⟨(c.shardAt ph, j), ?_, rfl⟩))
    exact List.mem_product.mpr ⟨List.mem_range.mpr (Nat.mod_lt _ hc), List.mem_range.mpr hj⟩
  | global j => exact .inr (.inr (List.mem_map_of_mem (List.mem_range.mpr hs)))

/-- The invariant of the runs in which no entry gets lost, with what the scans need. -/
structure Watched (t : Table) : Prop extends Sound t where
  flagged : Flagged t.toCore
  shards : 0 < t.shardCount

/-- Every live word is visited. -/
lemma Watched.mem_places (hw : Watched t) (p : Place) (w : Word) (hp : t.wordAt p = some w) :
    p ∈ t.places :=
  mem_places_of_seat hw.buckets hw.shards (hw.settled.seat p w hp)

/-- The live records are those of the words that the scans visit. -/
lemma Watched.mem_live_iff (hw : Watched t) (i : ℕ) : i ∈ t.live ↔ i ∈ t.words.map Word.idx :=
  mem_held_iff hw.mem_places i

/-- No record is visited twice. -/
lemma Watched.idx_nodup (hw : Watched t) : (t.words.map Word.idx).Nodup :=
  hw.settled.separate.nodup_keys (places_nodup t.toCore)

/-! ## The checkers accept the table -/

/-- `htc_debug_live_count` is `htc_size`. -/
lemma Watched.liveCount (hw : Watched t) : htcDebugLiveCount t.toCore = t.size := by
  have hlen := encard_eq_length hw.idx_nodup hw.mem_live_iff
  rw [← hw.size, List.length_map] at hlen
  exact (Nat.cast_inj.mp hlen).symm

/-- The control bytes are right. -/
lemma Hinted.ctrlFault {H : ℕ → ℕ} (hh : Hinted g H) (b : ℕ) : ctrlFault g b = false := by
  rw [Htc.ctrlFault, List.any_eq_false]
  intro si _
  rw [hh.ctrl]
  cases g.slots (b, si) with
  | none => simp [ctrlByte]
  | some w => simp [ctrlByte]

/-- Where the metadata agrees with the slots, the check of the control bytes passes. -/
lemma Hinted.checkCtrl {H : ℕ → ℕ} (hh : Hinted g H) : htcDebugCheckCtrl g = 0 := by
  rw [htcDebugCheckCtrl,
    List.find?_eq_none.mpr fun b _ => by rw [hh.ctrlFault]; exact Bool.false_ne_true]
  rfl

/-- Different hashes have no duplicate. -/
lemma firstDuplicate_eq_zero : ∀ {hs hashes : List ℕ},
    hs.Nodup → (∀ h ∈ hs, h ∉ hashes) → firstDuplicate hashes hs = 0
  | [], _, _, _ => rfl
  | h :: hs, hashes, hn, hd => by
    obtain ⟨hh, hn⟩ := List.nodup_cons.mp hn
    rw [firstDuplicate, if_neg (hd h (List.mem_cons_self ..))]
    refine firstDuplicate_eq_zero hn fun k hk hm => ?_
    rcases List.mem_cons.mp hm with rfl | hm
    · exact hh hk
    · exact hd k (List.mem_cons_of_mem _ hk) hm

/-- No key is there twice. -/
lemma Watched.checkDuplicate (hw : Watched t) : htcDebugCheckDuplicateHash t.toCore = 0 := by
  refine firstDuplicate_eq_zero ?_ fun h _ => List.not_mem_nil
  have hkeys : ((t.words.map Word.idx).map t.keyOf).Nodup :=
    hw.idx_nodup.map_on fun i hi j hj he =>
      hw.settled.keys ((hw.mem_live_iff i).mpr hi) ((hw.mem_live_iff j).mpr hj) he
  rw [List.map_map] at hkeys
  exact hkeys

/-- Without a fault nothing is reported. -/
lemma allFaults_eq_zero {fs : List ℕ} (h : ∀ f ∈ fs, f = 0) : allFaults fs = 0 := by
  induction fs with
  | nil => rfl
  | cons f fs ih =>
    rw [allFaults, List.foldr_cons, h f (List.mem_cons_self ..), Nat.zero_or]
    exact ih fun f' hf => h f' (List.mem_cons_of_mem _ hf)

/-- A word on a seat has no fault. -/
lemma wordFaults_eq_zero (htag : w.tag = tag16 ph) (hs : c.Seat ph w (.slot x)) :
    wordFaults c.gen ph x w = 0 := by
  obtain ⟨-, hb⟩ := hs
  rw [wordFaults]
  split
  · rfl
  rw [if_neg (not_not.mpr htag), Nat.or_zero]
  cases hsec : w.inSec with
  | true =>
    rw [hsec, if_pos rfl] at hb
    rw [if_neg fun h => h.2 hb.1, if_neg fun h => h (bne_iff_ne.mpr hb.2)]
    rfl
  | false =>
    rw [hsec, if_neg Bool.false_ne_true] at hb
    rw [if_neg fun h => h.1 hb, if_neg fun h => h (by rw [hb]; exact bne_self_eq_false _)]
    rfl

/-- No slot of a watched table has a fault. -/
lemma Watched.slotFaults (hw : Watched t) (x : ℕ × ℕ) : slotFaults t.toCore x = 0 := by
  rw [Htc.slotFaults]
  cases hx : t.gen.slots x with
  | none => rfl
  | some w =>
    have hp : t.wordAt (.slot x) = some w := hx
    rw [Option.map_some, Option.getD_some, hw.settled.keyed w.idx (mem_live hp)]
    exact wordFaults_eq_zero (hw.settled.tag _ w hp) (hw.settled.seat _ w hp)

/-- A live record is referenced once. -/
lemma Watched.refcount (hw : Watched t) (hi : i ∈ t.live) : refcount t.toCore i = 1 := by
  have hcount : (t.words.map Word.idx).count i = 1 :=
    List.count_eq_one_of_mem hw.idx_nodup ((hw.mem_live_iff i).mp hi)
  rw [List.count, List.countP_map] at hcount
  have hfun : ((fun j => j == i) ∘ Word.idx) = fun w : Word => w.idx == i := rfl
  rw [Htc.refcount, ← hfun, hcount]
  rfl

/-- No record of a watched table has a fault. -/
lemma Watched.recordFaults (hw : Watched t) (hi : i < t.count) : recordFaults t.toCore i = 0 := by
  rw [Htc.recordFaults]
  split
  · next h =>
    rw [hw.refcount (hw.flagged i hi h.2)]
    rfl
  · rfl

/-- `htc_debug_verify_all` finds no fault. -/
lemma Watched.verifyAll (hw : Watched t) : htcDebugVerifyAll t.toCore = 0 := by
  have hslots : allFaults (t.gen.places.map (Htc.slotFaults t.toCore)) = 0 := by
    refine allFaults_eq_zero fun f hf => ?_
    obtain ⟨x, -, rfl⟩ := List.mem_map.mp hf
    exact hw.slotFaults x
  have hrecs : allFaults ((List.range t.count).map (Htc.recordFaults t.toCore)) = 0 := by
    refine allFaults_eq_zero fun f hf => ?_
    obtain ⟨i, hi, rfl⟩ := List.mem_map.mp hf
    exact hw.recordFaults (List.mem_range.mp hi)
  rw [htcDebugVerifyAll, hw.settled.hinted.checkCtrl, hw.checkDuplicate, hslots, hrecs]
  rfl

/-! ## The hints -/

/-- A fault is reported when one of the checks finds it. -/
lemma testBit_allFaults (fs : List ℕ) (j : ℕ) :
    (allFaults fs).testBit j = fs.any fun f => f.testBit j := by
  induction fs with
  | nil => exact Nat.zero_testBit j
  | cons f fs ih =>
    rw [List.any_cons, ← ih]
    exact Nat.testBit_or ..

/-- A mask does not cover a number when one of its bits is missing. -/
lemma land_ne_iff (a r : ℕ) : a &&& r ≠ r ↔ ∃ j, r.testBit j = true ∧ a.testBit j = false := by
  constructor
  · intro h
    by_contra hn
    refine h (Nat.eq_of_testBit_eq fun j => ?_)
    rw [Nat.testBit_and]
    cases hr : r.testBit j with
    | false => exact Bool.and_false _
    | true =>
      cases ha : a.testBit j with
      | true => rfl
      | false => exact absurd ⟨j, hr, ha⟩ hn
  · rintro ⟨j, hr, ha⟩ he
    have hj := congrArg (Nat.testBit · j) he
    simp only [Nat.testBit_and, hr, ha] at hj
    cases hj

/-- The record of a word carries the placement hash of its key. -/
lemma Watched.placementHash (hw : Watched t) (hx : t.gen.slots x = some w) :
    (t.recs w.idx).placementHash = t.hashOf w.idx :=
  hw.settled.keyed w.idx (@mem_live t.toCore (.slot x) w hx)

/-- The words outside of their primary bucket are those with the secondary bit. -/
lemma Watched.recounts_iff (hw : Watched t) (b : ℕ) (x : ℕ × ℕ) :
    recounts t.toCore b x = true ↔ ∃ w, t.gen.slots x = some w ∧ t.gen.Strayed t.hashOf b w := by
  rw [recounts]
  cases hx : t.gen.slots x with
  | none =>
    constructor
    · intro h
      cases h
    · rintro ⟨w, h, -⟩
      cases h
  | some w =>
    have hseat := (hw.settled.seat (.slot x) w hx).2
    obtain ⟨ph, hph⟩ : ∃ ph, t.hashOf w.idx = ph := ⟨_, rfl⟩
    have hstray : (x.1 != t.gen.primary ph || w.inSec) = w.inSec := by
      rw [hph] at hseat
      cases hsec : w.inSec with
      | true => exact Bool.or_true _
      | false =>
        rw [hsec, if_neg Bool.false_ne_true] at hseat
        rw [hseat, bne_self_eq_false]
        rfl
    rw [Option.any_some, hw.placementHash hx, hph]
    dsimp only
    rw [hstray, Bool.and_eq_true, beq_iff_eq]
    constructor
    · rintro ⟨hp, hsec⟩
      exact ⟨w, rfl, hsec, (congrArg t.gen.primary hph).trans hp⟩
    · rintro ⟨w', hw', hsec, hp⟩
      obtain rfl := Option.some.inj hw'
      exact ⟨(congrArg t.gen.primary hph).symm.trans hp, hsec⟩

/-- A count that is not saturated is right. -/
lemma Watched.remapCount (hw : Watched t) (b : ℕ) (hb : t.gen.remapCount b ≠ remapSaturated) :
    t.gen.remapCount b = recomputed t.toCore b := by
  have hcount := (hw.settled.hinted.count b).resolve_left hb
  rw [encard_hits_eq_countP (genPlaces_nodup t.gen) (hw.recounts_iff b) fun x w hx _ =>
    mem_genPlaces_of_seat hw.buckets (hw.settled.seat (.slot x) w hx)] at hcount
  exact Nat.cast_inj.mp hcount

/-- The bits of `recomputed_filter`. -/
lemma Watched.testBit_recomputedFilter (hw : Watched t) (b j : ℕ) :
    (recomputedFilter t.toCore b).testBit j = true ↔
    ∃ w ∈ t.gen.words, t.gen.primary (t.hashOf w.idx) = b ∧ w.tag % 16 = j := by
  rw [recomputedFilter, testBit_allFaults, List.any_map, List.any_eq_true]
  constructor
  · rintro ⟨x, hx, hbit⟩
    rw [Function.comp_apply] at hbit
    cases hs : t.gen.slots x with
    | none =>
      rw [hs, Option.map_none, Option.getD_none, Nat.zero_testBit] at hbit
      cases hbit
    | some w =>
      rw [hs, Option.map_some, Option.getD_some, hw.placementHash hs] at hbit
      obtain ⟨hb, h8⟩ := mem_genPlaces.mp hx
      split at hbit
      · next hp =>
        rw [Nat.one_shiftLeft, Nat.testBit_two_pow, decide_eq_true_eq] at hbit
        exact ⟨w, mem_words.mpr ⟨x.1, x.2, hb, h8, hs⟩, hp, hbit⟩
      · rw [Nat.zero_testBit] at hbit
        cases hbit
  · rintro ⟨w, hm, hp, hj⟩
    obtain ⟨b', j', hb', hj', hx⟩ := mem_words.mp hm
    refine ⟨(b', j'), mem_genPlaces.mpr ⟨hb', hj'⟩, ?_⟩
    rw [Function.comp_apply, hx, Option.map_some, Option.getD_some, hw.placementHash hx, if_pos hp,
      Nat.one_shiftLeft, hj, Nat.testBit_two_pow_self]

/-- An entry of the bucket `b` is in this bucket and its hint bit is not set, although the hints are
not saturated. -/
def unhinted (c : Core) (b : ℕ) : Bool :=
  c.gen.remapCount b != remapSaturated && c.gen.words.any fun w =>
    !w.inSec && (c.gen.primary (c.hashOf w.idx) == b && !(c.gen.remapFilter b).testBit (w.tag % 16))

/-- A mismatch is an entry at home whose hint bit is not set. -/
lemma Watched.mismatches (hw : Watched t) (b : ℕ) :
    mismatches t.toCore b = if unhinted t.toCore b = true then 1 else 0 := by
  have hcount :
      ¬ (t.gen.remapCount b ≠ remapSaturated ∧ t.gen.remapCount b ≠ recomputed t.toCore b) :=
    fun h => h.2 (hw.remapCount b h.1)
  rw [Htc.mismatches, if_neg hcount, Nat.zero_add]
  refine if_congr ?_ rfl rfl
  rw [unhinted, Bool.and_eq_true, bne_iff_ne, land_ne_iff, List.any_eq_true]
  refine and_congr_right fun _ => ?_
  constructor
  · rintro ⟨j, hr, hf⟩
    obtain ⟨w, hm, hp, rfl⟩ := (hw.testBit_recomputedFilter b j).mp hr
    refine ⟨w, hm, ?_⟩
    cases hsec : w.inSec with
    | true =>
      obtain ⟨b', j', -, -, hx⟩ := mem_words.mp hm
      have hset := hw.settled.hinted.filter (b', j') w hx hsec
      rw [hp, hf] at hset
      cases hset
    | false =>
      rw [hf, hp, beq_self_eq_true]
      rfl
  · rintro ⟨w, hm, hbits⟩
    rw [Bool.and_eq_true, Bool.and_eq_true, beq_iff_eq, Bool.not_eq_true'] at hbits
    obtain ⟨-, hp, hf⟩ := hbits
    rw [Bool.not_eq_true'] at hf
    exact ⟨w.tag % 16, (hw.testBit_recomputedFilter b _).mpr ⟨w, hm, hp, rfl⟩, hf⟩

/-- A sum of truth values counts. -/
lemma sum_map_ite_eq_countP (p : ℕ → Bool) (l : List ℕ) :
    (l.map fun b => if p b = true then 1 else 0).sum = l.countP p := by
  induction l with
  | nil => rfl
  | cons b l ih =>
    rw [List.map_cons, List.sum_cons, ih, List.countP_cons, Nat.add_comm]

/-- `htc_debug_recompute_remap` counts the buckets with such an entry. -/
lemma Watched.recomputeRemap (hw : Watched t) :
    htcDebugRecomputeRemap t.toCore = (List.range t.gen.numBuckets).countP (unhinted t.toCore) := by
  rw [htcDebugRecomputeRemap, ← sum_map_ite_eq_countP]
  exact congrArg List.sum (List.map_congr_left fun b _ => hw.mismatches b)

/-! ## Runs -/

/-- `htc_insert` keeps the number of shards. -/
lemma Sound.insert_shardCount (hs : Sound t) (hsafe : InsertSafe h v t) :
    (htcInsert h v t).2.shardCount = t.shardCount := by
  obtain ⟨-, hsafe⟩ := hsafe
  have hst := insertAttempt_stored hs.settled.toStored h v
  rw [htcInsert, insertLoop]
  generalize insertAttempt h v t = a at hst hsafe
  rcases a with ⟨e, t'⟩ | t' | t'
  · exact hst.2.2.2.shardCount
  · obtain ⟨-, -, -, hk⟩ := hst
    dsimp only
    rcases insertDone_cases t' with ⟨-, hd⟩ | ⟨-, hd⟩
    · rw [hd]
      exact (htcGrow_grown false { t' with size := t'.size + 1 }).store.2.2.2.trans hk.shardCount
    · rw [hd]
      exact hk.shardCount
  · exact hsafe.elim

/-- Every call keeps the number of shards. -/
lemma Sound.shardCount {op : HtcOp} {e : HtcError} {out : Option ℕ} (hs : Sound t)
    (hsafe : op.Safe t) (hr : op.run t = some (e, out, t')) : t'.shardCount = t.shardCount := by
  cases op with
  | insert key value =>
    cases hr
    exact hs.insert_shardCount hsafe
  | upsert key value =>
    cases hr
    rw [htcUpsert, upsertLoop]
    cases hf : htcSearch t.toCore key.toNat true with
    | some p => rfl
    | none =>
      have hsh := hs.insert_shardCount (hsafe hf)
      obtain ⟨e, t', he, -, hi⟩ := hs.insert key.toNat_lt (hsafe hf)
      rw [he] at hsh
      dsimp only
      rw [he]
      cases hi with
      | duplicate same present => exact absurd (hs.settled.search_eq_none.mp hf) present
      | oom same absent fails => exact hsh
      | ok entered absent => exact hsh
  | update key value =>
    cases hr
    rcases htcUpdate_settled hs.settled key.toNat value.toNat with ⟨j, he, -, -⟩ | ⟨he, -⟩
    · rw [he]
      rfl
    · rw [he]
  | remove key =>
    rw [HtcOp.run] at hr
    rcases htcRemove_placed hs.settled.placed key.toNat with ⟨t₁, he, hd⟩ | ⟨he, -⟩
    · rw [he] at hr
      cases hr
      exact hd.shardCount
    · rw [he] at hr
      cases hr
      rfl
  | find key want =>
    rw [HtcOp.run] at hr
    rcases htcFind_settled hs.settled hs.cache key.toNat want with
      ⟨u, t₁, he, -, -, hrest⟩ | ⟨he, -⟩
    · rw [he] at hr
      cases hr
      rw [hrest]
    · rw [he] at hr
      cases hr
      rfl
  | grow reseed =>
    cases hr
    exact (htcGrow_grown reseed t).store.2.2.2

/-- A run whose calls meet their conditions keeps the table in the shape that the scans need. -/
lemma Watched.run : ∀ {ops : List HtcOp} {t : Table}, Watched t → SafeRun ops t →
    ∃ t', runOps ops t = some t' ∧ Watched t'
  | [], t, hw, _ => ⟨t, rfl, hw⟩
  | op :: ops, t, hw, hsafe => by
    obtain ⟨e, out, t', he, hs'⟩ := hw.toSound.step hsafe.1
    have hsh := hw.toSound.shardCount hsafe.1 he
    have hw' : Watched t' := ⟨hs', hw.flagged.step hw.toSound hsafe.1 he, hsh ▸ hw.shards⟩
    obtain ⟨t'', hr, hw''⟩ := hw'.run (hsafe.2 e out t' he)
    refine ⟨t'', ?_, hw''⟩
    rw [runOps, he]
    exact hr

/-- A new table. -/
lemma htcCreate_watched (cfg : Option HtcConfig) (seedCtr : ℕ) (mem : List Bool) :
    Watched (htcCreate cfg seedCtr mem) where
  toSound := htcCreate_sound cfg seedCtr mem
  flagged j hj := absurd hj (Nat.not_lt_zero j)
  shards := by
    refine lt_min ?_ (le_doubleUntil _ 31 1)
    split
    · exact Nat.succ_pos _
    · next h => exact Nat.pos_of_ne_zero h

/-- After every run of calls in which no entry gets lost, `htc_debug_verify_all` accepts the table
and `htc_debug_live_count` agrees with `htc_size`. -/
theorem verify_all_quiet (cfg : Option HtcConfig) (seedCtr : ℕ) (mem : List Bool) (ops : List HtcOp)
    (hsafe : SafeRun ops (htcCreate cfg seedCtr mem)) :
    ∃ t, runOps ops (htcCreate cfg seedCtr mem) = some t ∧ htcDebugVerifyAll t.toCore = 0 ∧
      htcDebugLiveCount t.toCore = t.size := by
  obtain ⟨t, hr, hw⟩ := (htcCreate_watched cfg seedCtr mem).run hsafe
  exact ⟨t, hr, hw.verifyAll, hw.liveCount⟩

/-- A crowded table gets the key `0`, is grown, and loses two entries. -/
def mixedOps : List HtcOp :=
  crowdedOps ++ [.insert 0 9, .grow false, .remove 295, .update 23 99, .remove 2844]

/-- The calls meet their conditions. -/
lemma mixedOps_safe : SafeRun mixedOps crowdedNew :=
  .of_calm (htcCreate_sound ..) (by decide +kernel)

/-- A table of eleven entries, of which one is in a stash. -/
theorem verify_all_quiet_mixed :
    ∃ t, runOps mixedOps crowdedNew = some t ∧ htcDebugVerifyAll t.toCore = 0 ∧
      htcDebugLiveCount t.toCore = t.size :=
  verify_all_quiet (some ⟨16, 1, 4, false⟩) 0 [] mixedOps mixedOps_safe

/-- After every run of calls in which no entry gets lost, `htc_debug_recompute_remap` finds no wrong
count. It returns the number of buckets with an entry at home whose hint bit is not set, where the
hints of the bucket are not saturated. -/
theorem recompute_remap_counts (cfg : Option HtcConfig) (seedCtr : ℕ) (mem : List Bool)
    (ops : List HtcOp) (hsafe : SafeRun ops (htcCreate cfg seedCtr mem)) :
    ∃ t, runOps ops (htcCreate cfg seedCtr mem) = some t ∧
      (∀ b, t.gen.remapCount b = remapSaturated ∨ t.gen.remapCount b = recomputed t.toCore b) ∧
      htcDebugRecomputeRemap t.toCore = (List.range t.gen.numBuckets).countP
      (unhinted t.toCore) := by
  obtain ⟨t, hr, hw⟩ := (htcCreate_watched cfg seedCtr mem).run hsafe
  exact ⟨t, hr, fun b => or_iff_not_imp_left.mpr (hw.remapCount b), hw.recomputeRemap⟩

/-- The counts of that table. -/
theorem recompute_remap_counts_mixed :
    ∃ t, runOps mixedOps crowdedNew = some t ∧
      (∀ b, t.gen.remapCount b = remapSaturated ∨ t.gen.remapCount b = recomputed t.toCore b) ∧
      htcDebugRecomputeRemap t.toCore = (List.range t.gen.numBuckets).countP (unhinted t.toCore) :=
  recompute_remap_counts (some ⟨16, 1, 4, false⟩) 0 [] mixedOps mixedOps_safe

/-- A table with one entry, which is in its primary bucket, has one mismatch. -/
example : (runOps [.insert 5 50] (htcCreate none 0 [])).map
    (fun t => htcDebugRecomputeRemap t.toCore) = some 1 := by
  decide +kernel

/-! ## Rebuilding -/

/-- The condition on the insertions of a rebuild. -/
def RebuildSafe : List (ℕ × ℕ) → Table → Prop
  | [], _ => True
  | (h, v) :: entries, t => InsertSafe h v t ∧ ∀ t',
    htcInsert h v t = (.ok, t') → RebuildSafe entries t'

/-- The insertions of a rebuild are calm and find the global stash empty. -/
def rebuildCalm : List (ℕ × ℕ) → Table → Bool
  | [], _ => true
  | (h, v) :: entries, t =>
    decide (h < 2 ^ 64) && t.stash.liveCount == 0 && (insertAttempt h v t).calm &&
    rebuildCalm entries (htcInsert h v t).2

/-- Calm insertions meet the condition. -/
lemma Sound.rebuildSafe_of_calm : ∀ {entries : List (ℕ × ℕ)} {t : Table},
    Sound t → rebuildCalm entries t = true →
    RebuildSafe entries t
  | [], _, _, _ => trivial
  | (h, v) :: entries, t, hs, hc => by
    rw [rebuildCalm, Bool.and_eq_true, Bool.and_eq_true, Bool.and_eq_true, decide_eq_true_eq,
      beq_iff_eq] at hc
    obtain ⟨⟨⟨hlt, h0⟩, hop⟩, hrest⟩ := hc
    have hsafe := hs.insertSafe_of_calm (hs.settled.placed.stash.slots_none h0) hop
    obtain ⟨e, t₁, he, hs₁, -⟩ := hs.insert hlt hsafe
    rw [he] at hrest
    refine ⟨hsafe, fun t' he' => ?_⟩
    obtain rfl : t₁ = t' := (Prod.mk.inj (he.symm.trans he')).2
    exact hs₁.rebuildSafe_of_calm hrest

/-- The snapshot has the entries with a key other than `0`. -/
lemma Watched.mem_snapshot (hw : Watched t) (k u : ℕ) : (k, u) ∈ snapshot t.toCore ↔
    k ≠ 0 ∧ t.Has k u := by
  rw [snapshot, List.mem_map]
  constructor
  · rintro ⟨i, hi, he⟩
    obtain ⟨rfl, rfl⟩ := Prod.mk.inj he
    obtain ⟨hlt, hcond⟩ := List.mem_filter.mp hi
    obtain ⟨hk, hf⟩ := of_decide_eq_true hcond
    exact ⟨hk, i, hw.flagged i (List.mem_range.mp hlt) hf, rfl, rfl⟩
  · rintro ⟨hk, i, hi, rfl, rfl⟩
    have hlt := hw.settled.lt i hi
    exact ⟨i, List.mem_filter.mpr
      ⟨List.mem_range.mpr hlt, decide_eq_true ⟨hk, hw.settled.flags i hi⟩⟩, rfl⟩

/-- No key is in the snapshot twice. -/
lemma Watched.snapshot_nodup (hw : Watched t) : ((snapshot t.toCore).map Prod.fst).Nodup := by
  rw [snapshot, List.map_map]
  refine (List.nodup_range.filter _).map_on fun i hi j hj he => ?_
  have hlive : ∀ {i : ℕ}, i ∈ (List.range t.count).filter
      (fun i => decide (t.keyOf i ≠ 0 ∧ (t.recs i).flags = 0)) → i ∈ t.live := by
    intro i hi
    obtain ⟨hlt, hcond⟩ := List.mem_filter.mp hi
    exact hw.flagged i (List.mem_range.mp hlt) (of_decide_eq_true hcond).2
  exact hw.settled.keys (hlive hi) (hlive hj) he

/-- The insertions of a rebuild enter everything, or one of them finds that an allocation is to
fail. -/
lemma Watched.rebuildInsert : ∀ {entries : List (ℕ × ℕ)} {t : Table},
    Watched t → (entries.map Prod.fst).Nodup →
    (∀ e ∈ entries, e.1 < 2 ^ 64 ∧ ∀ u, ¬ t.Has e.1 u) → RebuildSafe entries t →
    (∃ t', rebuildInsert entries t = some t' ∧ Watched t' ∧ ∀ k u,
      t'.Has k u ↔ t.Has k u ∨ (k, u) ∈ entries) ∨
      Htc.rebuildInsert entries t = none ∧ ∃ n t',
      Htc.rebuildInsert (entries.take n) t = some t' ∧ false ∈ t'.mem
  | [], t, hw, _, _, _ => .inl ⟨t, rfl, hw, fun k u => (or_iff_left List.not_mem_nil).symm⟩
  | (h, v) :: entries, t, hw, hn, he, hsafe => by
    obtain ⟨hh, hn⟩ := List.nodup_cons.mp hn
    obtain ⟨hlt, hnew⟩ := he (h, v) (List.mem_cons_self ..)
    obtain ⟨e, t₁, hins, hs₁, hi⟩ := hw.toSound.insert hlt hsafe.1
    have hflag := hw.flagged.insert hw.toSound hsafe.1
    have hshards := hw.toSound.insert_shardCount hsafe.1
    rw [hins] at hflag hshards
    rw [Htc.rebuildInsert, hins]
    cases hi with
    | duplicate same present =>
      refine absurd (fun i hi hk => ?_) present
      exact hnew _ ⟨i, hi, hk, rfl⟩
    | oom same absent fails => exact .inr ⟨rfl, 0, t, rfl, fails⟩
    | ok entered absent =>
      have hw₁ : Watched t₁ := ⟨hs₁, hflag, hshards ▸ hw.shards⟩
      have hrest : ∀ e ∈ entries, e.1 < 2 ^ 64 ∧ ∀ u, ¬ t₁.Has e.1 u := by
        intro e hm
        obtain ⟨hlt', hnew'⟩ := he e (List.mem_cons_of_mem _ hm)
        refine ⟨hlt', fun u hu => ?_⟩
        rcases (entered.has _ _).mp hu with ⟨hk, -⟩ | hu
        · exact hh (hk ▸ List.mem_map_of_mem hm)
        · exact hnew' u hu
      dsimp only
      rcases hw₁.rebuildInsert hn hrest (hsafe.2 t₁ hins) with
        ⟨t', hr, hw', hhas⟩ | ⟨hr, n, t', hr', hf⟩
      · refine .inl ⟨t', hr, hw', fun k u => ?_⟩
        rw [hhas, entered.has, List.mem_cons, Prod.mk.injEq, or_comm (a := k = h ∧ u = v), or_assoc]
      · refine .inr ⟨hr, n + 1, t', ?_, hf⟩
        rw [List.take_succ_cons, Htc.rebuildInsert, hins]
        exact hr'

/-- After every run of calls in which no entry gets lost, `htc_debug_rebuild`, whose own insertions
lose none, returns a table with the same entries but for the one of the key `0`, which it drops, and
`htc_debug_verify_all` accepts that table; or it returns `NULL` because an allocation of an
insertion fails. -/
theorem rebuild_keeps_map (cfg : Option HtcConfig) (seedCtr : ℕ) (mem : List Bool)
    (ops : List HtcOp) (t : Table) (hsafe : SafeRun ops (htcCreate cfg seedCtr mem))
    (hr : runOps ops (htcCreate cfg seedCtr mem) = some t)
    (disableFrontCache : Bool) (seedCtr' : ℕ) (mem' : List Bool)
    (hrebuild : RebuildSafe (snapshot t.toCore)
      (htcCreate (some (rebuildConfig t disableFrontCache)) seedCtr' mem')) :
    (∃ t₂, htcDebugRebuild t disableFrontCache seedCtr' mem' = some t₂ ∧
      (∀ k u, t₂.Has k u ↔ k ≠ 0 ∧ t.Has k u) ∧ htcDebugVerifyAll t₂.toCore = 0) ∨
      htcDebugRebuild t disableFrontCache seedCtr' mem' = none ∧
        ∃ n t', rebuildInsert ((snapshot t.toCore).take n)
          (htcCreate (some (rebuildConfig t disableFrontCache)) seedCtr' mem') = some t' ∧
            false ∈ t'.mem := by
  obtain ⟨t', hr', hw⟩ := (htcCreate_watched cfg seedCtr mem).run hsafe
  rw [hr] at hr'
  obtain rfl := Option.some.inj hr'
  have hempty :
      ∀ k u, ¬ (htcCreate (some (rebuildConfig t disableFrontCache)) seedCtr' mem').Has k u := by
    rintro k u ⟨i, hi, -⟩
    rw [htcCreate_live] at hi
    exact hi
  have hkeys : ∀ e ∈ snapshot t.toCore, e.1 < 2 ^ 64 ∧
      ∀ u, ¬ (htcCreate (some (rebuildConfig t disableFrontCache)) seedCtr' mem').Has e.1 u := by
    rintro ⟨k, u⟩ he
    obtain ⟨-, i, hi, hk, -⟩ := (hw.mem_snapshot k u).mp he
    exact ⟨hk ▸ hw.keys i hi, hempty k⟩
  rcases (htcCreate_watched _ seedCtr' mem').rebuildInsert hw.snapshot_nodup hkeys hrebuild with
    ⟨t₂, he, hw₂, hhas⟩ | hnone
  · refine .inl ⟨t₂, he, fun k u => ?_, hw₂.verifyAll⟩
    rw [hhas, or_iff_right (hempty k u), hw.mem_snapshot]
  · exact .inr hnone

/-- The table is built again with another seed, without the entry of the key `0`. -/
theorem rebuild_keeps_map_mixed :
    ∃ t t₂, runOps mixedOps crowdedNew = some t ∧ htcDebugRebuild t false 1 [] = some t₂ ∧
      t.size = 11 ∧ t₂.size = 10 ∧
      (∀ k u, t₂.Has k u ↔ k ≠ 0 ∧ t.Has k u) ∧ htcDebugVerifyAll t₂.toCore = 0 := by
  have hcomp :
      ((runOps mixedOps crowdedNew).bind fun t => (htcDebugRebuild t false 1 []).map fun t₂ =>
      (t.size, t₂.size)) = some (11, 10) := by decide +kernel
  have hcalm : (runOps mixedOps crowdedNew).map (fun t => rebuildCalm (snapshot t.toCore)
      (htcCreate (some (rebuildConfig t false)) 1 [])) = some true := by decide +kernel
  obtain ⟨t, ht, hcomp⟩ := Option.bind_eq_some_iff.mp hcomp
  obtain ⟨t₂, ht₂, hcomp⟩ := Option.map_eq_some_iff.mp hcomp
  obtain ⟨hsize, hsize₂⟩ := Prod.mk.inj hcomp
  rw [ht, Option.map_some, Option.some_inj] at hcalm
  rcases rebuild_keeps_map (some ⟨16, 1, 4, false⟩) 0 [] mixedOps t mixedOps_safe ht false 1 []
    ((htcCreate_sound _ 1 []).rebuildSafe_of_calm hcalm) with ⟨t₃, ht₃, hhas, hverify⟩ | ⟨hnone, -⟩
  · obtain rfl := Option.some.inj (ht₂.symm.trans ht₃)
    exact ⟨t, t₂, ht, ht₂, hsize, hsize₂, hhas, hverify⟩
  · rw [ht₂] at hnone
    cases hnone

end Draugr.Htc
