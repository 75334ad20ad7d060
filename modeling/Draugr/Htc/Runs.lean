import Draugr.Htc.Grow

/-!
# Runs of one thread

A run is a list of calls on a table of `htc_create`. `Sound t` is the invariant of the runs in which
no entry gets lost: the table is settled, the front cache is in step with it and `htc_size` counts
the live records. `HtcOp.Safe` is the condition on a single call under which the invariant is kept:
a key is not inserted while the global stash holds it, and a grow, whether called or started by an
insertion, loses nothing (`GrowSafe`).
-/

namespace Draugr.Htc
open Draugr.Lib

/-- A call. -/
inductive HtcOp where
  | insert (key value : UInt64)
  | upsert (key value : UInt64)
  | update (key value : UInt64)
  | remove (key : UInt64)
  | find (key : UInt64) (want : Bool)
  | grow (reseed : Bool)
  deriving DecidableEq, Repr

/-- The reply of a call without an `out_value`. -/
def noValue (r : HtcError × Table) : HtcError × Option ℕ × Table := (r.1, none, r.2)

/-- The reply of a call, the value it stores and the table; `none` is a call that does not
return. -/
def HtcOp.run : HtcOp → Table → Option (HtcError × Option ℕ × Table)
  | .insert key value, t => some (noValue (htcInsert key.toNat value.toNat t))
  | .upsert key value, t => some (noValue (htcUpsert key.toNat value.toNat t))
  | .update key value, t => some (noValue (htcUpdate key.toNat value.toNat t))
  | .remove key, t => (htcRemove key.toNat t).map noValue
  | .find key want, t => some (htcFind key.toNat want t)
  | .grow reseed, t => some (noValue (htcGrow reseed t))

/-- The table after a list of calls. -/
def runOps : List HtcOp → Table → Option Table
  | [], t => some t
  | op :: ops, t => (op.run t).bind fun r => runOps ops r.2.2

/-- The invariant of the runs in which no entry gets lost. -/
structure Sound (t : Table) : Prop where
  settled : Settled t.toCore
  cache : CacheOk t
  buckets : 0 < t.gen.numBuckets
  size : (t.size : ℕ∞) = t.live.encard
  seed : ∃ k < t.seedCtr, t.gen.seed = htcSeed k
  keys : ∀ i ∈ t.live, t.keyOf i < 2 ^ 64

variable {c c' : Core} {t t' t'' : Table} {h v i : ℕ}

/-! ## The conditions -/

/-- `insert_done` starts a grow. -/
def LoadExceeded (t : Table) : Prop := ((t.size + 1 : ℕ) : ℚ) / t.gen.numBuckets > t.maxLoadFactor

/-- What the end of an attempt needs. -/
def AttemptSafe : Attempt → Prop
  | .stop _ _ => True
  | .entered t => LoadExceeded t → GrowSafe false t.toCore
  | .overflow _ => False

/-- The condition on `htc_insert`: the key is not in the global stash, the stash of the shard does
not overflow, and a grow for the load loses nothing. -/
def InsertSafe (h v : ℕ) (t : Table) : Prop := ¬ t.Hidden h ∧ AttemptSafe (insertAttempt h v t)

/-- The condition on a call. -/
def HtcOp.Safe : HtcOp → Table → Prop
  | .insert key value, t => InsertSafe key.toNat value.toNat t
  | .upsert key value, t => htcSearch t.toCore key.toNat true = none →
    InsertSafe key.toNat value.toNat t
  | .grow reseed, t => GrowSafe reseed t.toCore
  | _, _ => True

/-! ## Live records -/

/-- The values while the live records are the same. -/
lemma Same.has (hs : Same c c') (h v : ℕ) : c'.Has h v ↔ c.Has h v := by
  constructor
  · rintro ⟨j, hj, hk, hv⟩
    rw [hs.live] at hj
    rw [Core.keyOf, hs.recs j hj] at hk
    rw [hs.recs j hj] at hv
    exact ⟨j, hj, hk, hv⟩
  · rintro ⟨j, hj, hk, hv⟩
    refine ⟨j, hs.live ▸ hj, ?_, ?_⟩
    · rw [Core.keyOf, hs.recs j hj]
      exact hk
    · rw [hs.recs j hj]
      exact hv

/-- The values after a record was added. -/
lemma Entered.has (he : Entered c c' h v) (k u : ℕ) : c'.Has k u ↔ (k = h ∧ u = v) ∨ c.Has k u := by
  obtain ⟨i, hi, hl, hk, hv⟩ := he.live
  constructor
  · rintro ⟨j, hj, hkj, hvj⟩
    rw [hl] at hj
    rcases hj with rfl | hj
    · exact .inl ⟨hkj.symm.trans hk, hvj.symm.trans hv⟩
    · rw [Core.keyOf, he.recs j hj] at hkj
      rw [he.recs j hj] at hvj
      exact .inr ⟨j, hj, hkj, hvj⟩
  · rintro (⟨rfl, rfl⟩ | ⟨j, hj, hkj, hvj⟩)
    · exact ⟨i, hl ▸ Set.mem_insert _ _, hk, hv⟩
    · refine ⟨j, hl ▸ Set.mem_insert_of_mem _ hj, ?_, ?_⟩
      · rw [Core.keyOf, he.recs j hj]
        exact hkj
      · rw [he.recs j hj]
        exact hvj

/-- The values after a removal. -/
lemma Removed.has (hr : Removed c c' h) (hkeys : Set.InjOn c.keyOf c.live) (k u : ℕ) :
    c'.Has k u ↔ k ≠ h ∧ c.Has k u := by
  obtain ⟨i, hi, hk, hl⟩ := hr.live
  constructor
  · rintro ⟨j, hj, hkj, hvj⟩
    rw [Core.keyOf, hr.recs j hj] at hkj
    rw [hr.recs j hj] at hvj
    rw [hl] at hj
    refine ⟨?_, j, hj.1, hkj, hvj⟩
    rintro rfl
    exact hj.2 (hkeys hj.1 hi (hkj.trans hk.symm))
  · rintro ⟨hne, j, hj, hkj, hvj⟩
    have hj' : j ∈ c'.live := by
      rw [hl]
      refine ⟨hj, ?_⟩
      rintro rfl
      exact hne (hkj.symm.trans hk)
    refine ⟨j, hj', ?_, ?_⟩
    · rw [Core.keyOf, hr.recs j hj']
      exact hkj
    · rw [hr.recs j hj']
      exact hvj

/-- A record is added to live records that stay the same. -/
lemma Entered.trans_same {c'' : Core} (he : Entered c c' h v) (hs : Same c' c'') :
    Entered c c'' h v := by
  obtain ⟨i, hi, hl, hk, hv⟩ := he.live
  have hm : ∀ j, j ∈ insert i c.live → j ∈ c'.live := fun j hj => hl ▸ hj
  refine ⟨⟨i, hi, hs.live.trans hl, ?_, ?_⟩, fun j hj => ?_⟩
  · rw [Core.keyOf, hs.recs i (hm i (Set.mem_insert _ _))]
    exact hk
  · rw [hs.recs i (hm i (Set.mem_insert _ _))]
    exact hv
  · rw [hs.recs j (hm j (Set.mem_insert_of_mem _ hj))]
    exact he.recs j hj

/-! ## The front cache -/

/-- The front cache is kept while the live records are the same. -/
lemma CacheOk.same (hc : CacheOk t) (hcache : t'.cache = t.cache) (hs : Same t.toCore t'.toCore) :
    CacheOk t' :=
  hc.mono hcache hs.live.ge fun j hj => congrArg HtcRecord.identityHash (hs.recs j hj)

/-- The front cache is kept when a record is added. -/
lemma CacheOk.entered (hc : CacheOk t) (hcache : t'.cache = t.cache)
    (he : Entered t.toCore t'.toCore h v) :
    CacheOk t' := by
  obtain ⟨i, hi, hl, -, -⟩ := he.live
  refine hc.mono hcache ?_ fun j hj => congrArg HtcRecord.identityHash (he.recs j hj)
  rw [hl]
  exact Set.subset_insert _ _

/-- The front cache is kept by a removal, which drops the entries of the key. -/
lemma CacheOk.removed (hc : CacheOk t) (hcache : t'.cache = (htcFrontCacheRemove t h).cache)
    (hr : Removed t.toCore t'.toCore h) : CacheOk t' := by
  obtain ⟨i, hi, hk, hl⟩ := hr.live
  intro k e he
  rw [hcache] at he
  obtain ⟨he, hne⟩ := Option.filter_eq_some_iff.mp he
  obtain ⟨hel, hek⟩ := hc k e he
  have hne : e.hash ≠ h := by simpa using hne
  have hel' : e.idx ∈ t'.live := by
    rw [hl]
    refine ⟨hel, ?_⟩
    rintro heq
    rw [Set.mem_singleton_iff.mp heq, hk] at hek
    exact hne hek.symm
  exact ⟨hel', (congrArg HtcRecord.identityHash (hr.recs _ hel')).trans hek⟩

/-! ## The calls keep the invariant -/

/-- The number of buckets is the one of the frame or its double. -/
lemma Grown.buckets {reseed : Bool} {e : HtcError} (hg : Grown reseed t e t') (hs : Stored t.toCore)
    (hn : 0 < t.gen.numBuckets) : 0 < t'.gen.numBuckets := by
  rcases hg.core with ⟨-, -, g, s, he, hc⟩ | ⟨-, hc | hc⟩
  · have hf :=
      ((hs.emptied (t.gen.numBuckets * 2) (growSeed reseed t)).rehash (hs.remaining _ _) he).frame
    have hnum : g.numBuckets = t.gen.numBuckets * 2 := hf.numBuckets
    rw [hc]
    change 0 < g.numBuckets
    rw [hnum]
    exact Nat.mul_pos hn Nat.two_pos
  · rw [hc]
    exact hn
  · rw [hc]
    exact hn

/-- The seed of the new generation was drawn. -/
lemma Grown.seed {reseed : Bool} {e : HtcError} (hg : Grown reseed t e t') (hs : Stored t.toCore)
    (hd : ∃ k < t.seedCtr, t.gen.seed = htcSeed k) : ∃ k < t'.seedCtr, t'.gen.seed = htcSeed k := by
  obtain ⟨k, hk, hseed⟩ := hd
  rcases hg.core with ⟨-, hctr, g, s, he, hc⟩ | ⟨-, hc | hc⟩
  · have hf :=
      ((hs.emptied (t.gen.numBuckets * 2) (growSeed reseed t)).rehash (hs.remaining _ _) he).frame
    have hg' : g.seed = growSeed reseed t := hf.seed
    have hgen : t'.gen = g := congrArg Core.gen hc
    rw [hgen, hg', hctr]
    cases reseed with
    | true => exact ⟨t.seedCtr, Nat.lt_succ_self _, if_pos rfl⟩
    | false => exact ⟨k, hk, (if_neg Bool.false_ne_true).trans hseed⟩
  · rw [hc]
    exact ⟨k, hk.trans_le hg.seedLe, hseed⟩
  · rw [hc]
    exact ⟨k, hk.trans_le hg.seedLe, hseed⟩

/-- The keys of the same live records. -/
lemma Same.keys (hs : Same c c') (h : ∀ i ∈ c.live, c.keyOf i < 2 ^ 64) :
    ∀ i ∈ c'.live, c'.keyOf i < 2 ^ 64 := by
  intro i hi
  rw [hs.live] at hi
  rw [Core.keyOf, hs.recs i hi]
  exact h i hi

/-- A grow that loses nothing. -/
lemma Sound.grown {reseed : Bool} {e : HtcError} (hs : Sound t) (hg : Grown reseed t e t')
    (hsafe : GrowSafe reseed t.toCore) : Sound t' ∧ Same t.toCore t'.toCore := by
  obtain ⟨hset, hsame⟩ := hg.settled hs.settled hs.buckets hsafe
  refine ⟨⟨hset, hs.cache.same ?_ hsame, hg.buckets hs.settled.toStored hs.buckets, ?_,
    hg.seed hs.settled.toStored hs.seed, hsame.keys hs.keys⟩, hsame⟩
  · rw [hg.rest]
  · rw [hsame.live, ← hs.size]
    rw [hg.rest]

/-- The rest of a table beside its core. -/
lemma Beside.rest (hb : Beside t t') : t'.cache = t.cache ∧ t'.size = t.size ∧
    t'.growStarted = t.growStarted := by
  rw [hb]
  exact ⟨rfl, rfl, rfl⟩

/-- The seed counter stays. -/
lemma Beside.seedCtr (hb : Beside t t') : t'.seedCtr = t.seedCtr := by
  rw [hb]

/-- How `htc_insert` leaves the live records. -/
inductive Inserted (h v : ℕ) (t : Table) : HtcError → Table → Prop where
  /-- The key is present. -/
  | duplicate {t' : Table} (same : Same t.toCore t'.toCore) (present : ¬ t.Absent h) :
    Inserted h v t .duplicate t'
  /-- An allocation failed. -/
  | oom {t' : Table} (same : Same t.toCore t'.toCore) (absent : t.Absent h)
    (fails : false ∈ t.mem) :
    Inserted h v t .oom t'
  /-- The key got its entry. -/
  | ok {t' : Table} (entered : Entered t.toCore t'.toCore h v) (absent : t.Absent h) :
    Inserted h v t .ok t'

/-- The table after the entry was placed. -/
lemma Sound.entered (hs : Sound t) (hset : Settled t'.toCore) (he : Entered t.toCore t'.toCore h v)
    (hb : Beside t t') (hk : Kept t.toCore t'.toCore) (hh : h < 2 ^ 64) :
    Sound { t' with size := t'.size + 1 } := by
  obtain ⟨hcache, hsize, -⟩ := hb.rest
  refine ⟨hset, (@CacheOk.entered _ { t' with size := t'.size + 1 }) hs.cache hcache he, ?_,
    ?_, ?_, ?_⟩
  · change 0 < t'.gen.numBuckets
    rw [hk.numBuckets]
    exact hs.buckets
  · obtain ⟨i, hi, hl, -, -⟩ := he.live
    change ((t'.size + 1 : ℕ) : ℕ∞) = t'.live.encard
    rw [hl, Set.encard_insert_of_notMem hi, ← hs.size, hsize, Nat.cast_add, Nat.cast_one]
  · change ∃ k < t'.seedCtr, t'.gen.seed = htcSeed k
    rw [hk.seed, hb.seedCtr]
    exact hs.seed
  · obtain ⟨i, hi, hl, hki, -⟩ := he.live
    change ∀ j ∈ t'.live, t'.keyOf j < 2 ^ 64
    rw [hl]
    rintro j (rfl | hj)
    · rw [hki]
      exact hh
    · rw [Core.keyOf, he.recs j hj]
      exact hs.keys j hj

/-- What `insert_done` does. -/
lemma insertDone_cases (t : Table) :
    (LoadExceeded t ∧ insertDone t = (htcGrow false { t with size := t.size + 1 }).2) ∨
      ¬ LoadExceeded t ∧ insertDone t = { t with size := t.size + 1 } := by
  by_cases hl : LoadExceeded t
  · exact .inl ⟨hl, if_pos hl⟩
  · exact .inr ⟨hl, if_neg hl⟩

/-- `insert_done` on a table whose entry was placed. -/
lemma Sound.insertDone (hs : Sound t) (hset : Settled t'.toCore)
    (he : Entered t.toCore t'.toCore h v)
    (hb : Beside t t') (hk : Kept t.toCore t'.toCore) (hh : h < 2 ^ 64)
    (hsafe : LoadExceeded t' → GrowSafe false t'.toCore) :
    Sound (insertDone t') ∧ Entered t.toCore (insertDone t').toCore h v := by
  have hs' := hs.entered hset he hb hk hh
  rcases insertDone_cases t' with ⟨hload, hd⟩ | ⟨-, hd⟩
  · rw [hd]
    obtain ⟨hs'', hsame⟩ := hs'.grown (htcGrow_grown false _) (hsafe hload)
    exact ⟨hs'', he.trans_same hsame⟩
  · rw [hd]
    exact ⟨hs', he⟩

/-- `htc_insert` keeps the invariant. -/
lemma Sound.insert (hs : Sound t) (hlt : h < 2 ^ 64) (hsafe : InsertSafe h v t) :
    ∃ e t', htcInsert h v t = (e, t') ∧ Sound t' ∧ Inserted h v t e t' := by
  obtain ⟨hh, hsafe⟩ := hsafe
  have hset := insertAttempt_settled hs.settled hh v
  have hst := insertAttempt_stored hs.settled.toStored h v
  rw [htcInsert, insertLoop]
  generalize insertAttempt h v t = a at hset hst hsafe
  rcases a with ⟨e, t'⟩ | t' | t'
  · obtain ⟨hset, hsame, hb, he⟩ := hset
    obtain ⟨-, -, -, hk⟩ := hst
    obtain ⟨hcache, hsize, -⟩ := hb.rest
    refine ⟨e, t', rfl, ⟨hset, hs.cache.same hcache hsame, ?_, ?_, ?_, hsame.keys hs.keys⟩, ?_⟩
    · rw [hk.numBuckets]
      exact hs.buckets
    · rw [hsize, hsame.live, hs.size]
    · rw [hk.seed, hb.seedCtr]
      exact hs.seed
    · rcases he with ⟨rfl, hp⟩ | ⟨rfl, ha, hm⟩
      · exact .duplicate hsame hp
      · exact .oom hsame ha hm
  · obtain ⟨hset, he, hb, ha⟩ := hset
    obtain ⟨-, -, -, hk⟩ := hst
    obtain ⟨hs', he'⟩ := hs.insertDone hset he hb hk hlt hsafe
    exact ⟨.ok, _, rfl, hs', .ok he' ha⟩
  · exact hsafe.elim

/-- Writing the value of a record keeps the invariant. -/
lemma Sound.setValue (hs : Sound t) (i v : ℕ) : Sound { t with toCore := t.setValue i v } where
  settled := hs.settled.setValue i v
  cache := (@CacheOk.mono _ { t with toCore := t.setValue i v }) hs.cache rfl (fun _ hj => hj)
    fun j _ => keyOf_setValue i v j
  buckets := hs.buckets
  size := hs.size
  seed := hs.seed
  keys j hj := by
    rw [keyOf_setValue]
    exact hs.keys j hj

/-- `htc_upsert` keeps the invariant. -/
lemma Sound.upsert (hs : Sound t) (hlt : h < 2 ^ 64)
    (hsafe : htcSearch t.toCore h true = none → InsertSafe h v t) :
    (∃ i ∈ t.live, t.keyOf i = h ∧ htcUpsert h v t = (.ok, { t with toCore := t.setValue i v })) ∨
    ∃ e t', htcUpsert h v t = (e, t') ∧ Sound t' ∧ t.Absent h ∧ Inserted h v t e t' := by
  rw [htcUpsert, upsertLoop]
  cases hf : htcSearch t.toCore h true with
  | some p =>
    obtain ⟨hl, hk⟩ := search_hit hf
    exact .inl ⟨_, hl, hk, rfl⟩
  | none =>
    right
    obtain ⟨e, t', he, hs', hi⟩ := hs.insert hlt (hsafe hf)
    have ha := hs.settled.search_eq_none.mp hf
    refine ⟨e, t', ?_, hs', ha, hi⟩
    dsimp only
    rw [he]
    cases hi with
    | duplicate same present => exact absurd ha present
    | oom same absent fails => rfl
    | ok entered absent => rfl

/-- `htc_update` keeps the invariant. -/
lemma Sound.update (hs : Sound t) (h v : ℕ) : Sound (htcUpdate h v t).2 := by
  rcases htcUpdate_settled hs.settled h v with ⟨j, he, -, -⟩ | ⟨he, -⟩
  · rw [he]
    exact hs.setValue j v
  · rw [he]
    exact hs

/-- A removal keeps the invariant. -/
lemma Sound.removed (hs : Sound t) (hr : RemoveOk t t' h) : Sound t' where
  settled := hr.settled
  cache := hs.cache.removed hr.cache hr.removed
  buckets := by
    rw [hr.buckets]
    exact hs.buckets
  size := by
    obtain ⟨i, hi, -, hl⟩ := hr.removed.live
    have hd := Set.encard_sdiff_singleton_add_one hi
    rw [← hs.size, ← hl] at hd
    rw [hr.size]
    exact cast_sub_one_of_add_one_eq hd
  seed := by
    rw [hr.seed, hr.rest]
    exact hs.seed
  keys j hj := by
    obtain ⟨i, -, -, hl⟩ := hr.removed.live
    rw [Core.keyOf, hr.removed.recs j hj]
    rw [hl] at hj
    exact hs.keys j hj.1

/-- `htc_find` keeps the invariant. -/
lemma Sound.found (hs : Sound t) (hc : CacheOk t')
    (hr : t' = { t with cache := t'.cache, cachePos := t'.cachePos }) :
    Sound t' := by
  rw [hr] at hc ⊢
  exact ⟨hs.settled, hc, hs.buckets, hs.size, hs.seed, hs.keys⟩

/-- A call that meets its condition returns and keeps the invariant. -/
lemma Sound.step (hs : Sound t) {op : HtcOp} (hsafe : op.Safe t) :
    ∃ e out t', op.run t = some (e, out, t') ∧ Sound t' := by
  cases op with
  | insert key value =>
    obtain ⟨e, t', he, hs', -⟩ := hs.insert key.toNat_lt hsafe
    exact ⟨_, _, _, rfl, by rw [he]; exact hs'⟩
  | upsert key value =>
    refine ⟨_, _, _, rfl, ?_⟩
    rcases hs.upsert key.toNat_lt hsafe with ⟨i, -, -, he⟩ | ⟨e, t', he, hs', -, -⟩
    · rw [he]
      exact hs.setValue i _
    · rw [he]
      exact hs'
  | update key value => exact ⟨_, _, _, rfl, hs.update _ _⟩
  | remove key =>
    rcases htcRemove_settled hs.settled key.toNat with ⟨t', he, hr⟩ | ⟨he, -⟩
    · exact ⟨.ok, none, t', congrArg (Option.map noValue) he, hs.removed hr⟩
    · exact ⟨.notFound, none, t, congrArg (Option.map noValue) he, hs⟩
  | find key want =>
    rcases htcFind_settled hs.settled hs.cache key.toNat want with ⟨u, t', he, -, hc, hr⟩ | ⟨he, -⟩
    · exact ⟨_, _, t', congrArg some he, hs.found hc hr⟩
    · exact ⟨_, _, t, congrArg some he, hs⟩
  | grow reseed => exact ⟨_, _, _, rfl, (hs.grown (htcGrow_grown reseed t) hsafe).1⟩

/-! ## Creating -/

/-- The doubling loop gives a power of two. -/
lemma doubleUntil_pow (n : ℕ) : ∀ k j, ∃ i, doubleUntil n k (2 ^ j) = 2 ^ i
  | 0, j => ⟨j, rfl⟩
  | k + 1, j => by
    rw [doubleUntil]
    split
    · rw [← Nat.pow_succ]
      exact doubleUntil_pow n k (j + 1)
    · exact ⟨j, rfl⟩

/-- The doubling loop never falls below its start. -/
lemma le_doubleUntil (n : ℕ) : ∀ k nb, nb ≤ doubleUntil n k nb
  | 0, nb => le_rfl
  | k + 1, nb => by
    rw [doubleUntil]
    split
    · exact le_trans (Nat.le_mul_of_pos_right nb Nat.two_pos) (le_doubleUntil n k (nb * 2))
    · exact le_rfl

/-- A new table has no live records. -/
lemma htcCreate_live (cfg : Option HtcConfig) (seedCtr : ℕ) (mem : List Bool) :
    (htcCreate cfg seedCtr mem).live = ∅ := by
  rw [Set.eq_empty_iff_forall_notMem]
  rintro j ⟨p, w, hw, -⟩
  cases p <;> cases hw

/-- A new table. -/
lemma htcCreate_stored (cfg : Option HtcConfig) (seedCtr : ℕ) (mem : List Bool) :
    Stored (htcCreate cfg seedCtr mem).toCore where
  separate p q w v hw := by
    cases p <;> cases hw
  lt i hi := absurd hi (by rw [htcCreate_live]; exact Set.notMem_empty i)
  notFree i _ := List.not_mem_nil
  flags i _ := rfl
  freeNodup := List.nodup_nil
  freeLt i hi := absurd hi List.not_mem_nil
  shards _ := .empty
  stash := .empty

/-- A new table meets the invariant. -/
lemma htcCreate_sound (cfg : Option HtcConfig) (seedCtr : ℕ) (mem : List Bool) :
    Sound (htcCreate cfg seedCtr mem) where
  settled := settled_of_live_empty (htcCreate_stored cfg seedCtr mem)
    (htcCreate_live cfg seedCtr mem) (.fresh _ _)
  cache k e he := by cases he
  buckets := le_doubleUntil _ 31 1
  size := by
    rw [htcCreate_live, Set.encard_empty]
    rfl
  seed := ⟨seedCtr, Nat.lt_succ_self _, rfl⟩
  keys i hi := absurd hi (by rw [htcCreate_live]; exact Set.notMem_empty i)

/-- Every call of a run meets its condition in the state in which it starts. -/
def SafeRun : List HtcOp → Table → Prop
  | [], _ => True
  | op :: ops, t => op.Safe t ∧ ∀ e out t', op.run t = some (e, out, t') → SafeRun ops t'

/-- A run whose calls meet their conditions returns and keeps the invariant. -/
lemma Sound.run : ∀ {ops : List HtcOp} {t : Table}, Sound t → SafeRun ops t → ∃ t',
    runOps ops t = some t' ∧ Sound t'
  | [], t, hs, _ => ⟨t, rfl, hs⟩
  | op :: ops, t, hs, hsafe => by
    obtain ⟨e, out, t', he, hs'⟩ := hs.step hsafe.1
    obtain ⟨t'', hr, hs''⟩ := hs'.run (hsafe.2 e out t' he)
    refine ⟨t'', ?_, hs''⟩
    rw [runOps, he]
    exact hr

end Draugr.Htc
