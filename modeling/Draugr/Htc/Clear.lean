import Draugr.Htc.Loss
import Draugr.Htc.Pending

/-!
# Clearing a table

`htc_clear` zeroes the arena, the buckets and the stashes. It leaves the retire list and the front
caches of the threads alone. A record that waits in the retire list is freed by the next call that
collects, when its index belongs to the arena that was cleared: the index is handed out a second
time, or a live record is zeroed (`clear_fails`).

Without such a record the cleared table does what a new table does (`clear_resets`). The two differ
in their front caches only. An entry left from before the clear can be hit when a record at its
index has the key again, and while the new table loses no entry (`SafeRun`) such a record is the one
of the key: a record that is not live is marked (`Flagged`).
-/

namespace Draugr.Htc
open Draugr.Lib

/-- `htc_clear`. -/
def EpochTable.htcClear (s : EpochTable) : EpochTable :=
  { s with
    gen := Gen.fresh s.gen.numBuckets s.gen.seed
    shards := fun _ => .empty
    stash := .empty
    recs := fun _ => HtcRecord.zero
    count := 0
    freeIdx := []
    size := 0 }

/-- A new table with the buckets of `s`. -/
def EpochTable.fresh (s : EpochTable) : EpochTable :=
  { gen := Gen.fresh s.gen.numBuckets s.gen.seed
    shards := fun _ => .empty
    stash := .empty
    shardCount := s.shardCount
    recs := fun _ => HtcRecord.zero
    count := 0
    freeIdx := []
    cache := fun _ => none
    cachePos := 0
    cacheOn := s.cacheOn
    size := 0
    maxLoadFactor := s.maxLoadFactor
    seedCtr := s.seedCtr
    growStarted := s.growStarted
    mem := s.mem
    globalEpoch := 1
    retireList := []
    nodeMem := s.nodeMem
    called := [] }

/-- `htc_create` with its control block of epochs. -/
def htcCreateEpoch (cfg : Option HtcConfig) (seedCtr : ℕ) (mem nodeMem : List Bool) : EpochTable :=
  { htcCreate cfg seedCtr mem with
    globalEpoch := 1, retireList := [], nodeMem := nodeMem, called := [] }

/-- The replies of a list of calls, and the table after them. `te` lists the epochs of the pinned
threads. -/
def epochRun (te : List ℕ) : List HtcOp → EpochTable →
    Option (List (HtcError × Option ℕ) × EpochTable)
  | [], s => some ([], s)
  | op :: ops, s => (op.runEpoch te s).bind fun r =>
    (epochRun te ops r.2.2).map fun q => ((r.1, r.2.1) :: q.1, q.2)

/-! ## Calls on tables that differ in their front caches -/

/-- The table with another front cache. -/
def Table.withCache (t : Table) (k : (ℕ → Option CacheEntry) × ℕ) : Table :=
  { t with cache := k.1, cachePos := k.2 }

/-- The first section on another table. -/
def Tried.onTable (f : Table → Table) : Tried → Tried
  | .duplicate => .duplicate
  | .oom t => .oom (f t)
  | .placed t => .placed (f t)
  | .path idx p t => .path idx p (f t)
  | .full idx t => .full idx (f t)

/-- An attempt on another table. -/
def Attempt.onTable (f : Table → Table) : Attempt → Attempt
  | .stop e t => .stop e (f t)
  | .entered t => .entered (f t)
  | .overflow t => .overflow (f t)

variable {t u : Table} {h v i : ℕ} (k : (ℕ → Option CacheEntry) × ℕ)

/-- The front cache is no part of the core. -/
@[simp]
lemma withCache_toCore (t : Table) : (t.withCache k).toCore = t.toCore := rfl

/-- The outcomes to come do not depend on the front cache. -/
@[simp]
lemma withCache_mem (t : Table) : (t.withCache k).mem = t.mem := rfl

/-- The free list does not depend on the front cache. -/
@[simp]
lemma withCache_freeIdx (t : Table) : (t.withCache k).freeIdx = t.freeIdx := rfl

/-- An allocation does not read the front cache. -/
lemma malloc_withCache (t : Table) :
    (t.withCache k).malloc = (t.malloc.1, t.malloc.2.withCache k) := by
  rw [Table.malloc, Table.malloc, withCache_mem]
  cases t.mem <;> rfl

/-- The allocation of a record does not read the front cache. -/
lemma arenaAlloc_withCache (t : Table) (h ph v : ℕ) :
    (t.withCache k).arenaAlloc h ph v =
      ((t.arenaAlloc h ph v).1, (t.arenaAlloc h ph v).2.withCache k) := by
  rw [Table.arenaAlloc, Table.arenaAlloc, withCache_freeIdx]
  cases t.freeIdx with
  | cons idx rest => rfl
  | nil =>
    dsimp only
    rw [malloc_withCache]
    rcases t.malloc with ⟨ok, t'⟩
    cases ok <;> rfl

/-- The search for a displacement does not read the front cache. -/
lemma insertSearch_withCache (ph i : ℕ) (t : Table) :
    insertSearch ph i (t.withCache k) = (insertSearch ph i t).onTable (·.withCache k) := by
  simp only [insertSearch, withCache_toCore]
  cases bfsFindPath t.gen t.recs (t.gen.primary ph) (t.gen.secondary ph) with
  | none => rfl
  | some p =>
    change (if pathFits t.shardCount (t.gen.primary ph) (t.gen.secondary ph) p = true then
      Tried.path i p (t.withCache k) else .full i (t.withCache k)) = _
    dsimp only
    rw [apply_ite (Tried.onTable (·.withCache k))]
    rfl

/-- One try of an insertion does not read the front cache. -/
lemma insertTry_withCache (h v : ℕ) (t : Table) :
    insertTry h v (t.withCache k) = (insertTry h v t).onTable (·.withCache k) := by
  simp only [insertTry, withCache_toCore, arenaAlloc_withCache]
  split
  · rfl
  · rcases t.arenaAlloc h (placementHash h t.gen.seed) v with ⟨idx, t₁⟩
    cases idx with
    | none => rfl
    | some idx =>
      dsimp only [withCache_toCore]
      rcases placeDirect t₁.gen (placementHash h t.gen.seed)
        ⟨idx, tag16 (placementHash h t.gen.seed), false⟩ with ⟨ok, g⟩
      cases ok with
      | true => rfl
      | false => exact insertSearch_withCache k _ idx { t₁ with gen := g }

/-- The insertion into a stash does not read the front cache. -/
lemma attemptStash_withCache (h i : ℕ) (t : Table) :
    attemptStash h i (t.withCache k) = (attemptStash h i t).onTable (·.withCache k) := by
  simp only [attemptStash, withCache_toCore]
  cases insertStash h i t.toCore <;> rfl

/-- One attempt of an insertion does not read the front cache. -/
lemma insertAttempt_withCache (h v : ℕ) (t : Table) :
    insertAttempt h v (t.withCache k) = (insertAttempt h v t).onTable (·.withCache k) := by
  rw [insertAttempt, insertAttempt, insertTry_withCache]
  cases insertTry h v t with
  | path idx p t₁ =>
    dsimp only [Tried.onTable, withCache_toCore]
    cases insertPath idx p t₁.toCore with
    | some c => rfl
    | none => exact attemptStash_withCache k h idx t₁
  | full idx t₁ => exact attemptStash_withCache k h idx t₁
  | _ => rfl

/-- The rehashing of a grow does not read the front cache. -/
lemma growRehash_withCache (reseed : Bool) (t : Table) :
    growRehash reseed (t.withCache k) =
      ((growRehash reseed t).1, (growRehash reseed t).2.withCache k) := by
  have hseed : growSeed reseed (t.withCache k) = growSeed reseed t := rfl
  simp only [growRehash, withCache_toCore, hseed]
  cases rehash t.recs (growSeed reseed t) t.gen.words
    (Gen.fresh (t.gen.numBuckets * 2) (growSeed reseed t)) .empty with
  | none => rfl
  | some gs =>
    dsimp only
    have hm := malloc_withCache k
        { t with seedCtr := if reseed = true then t.seedCtr + 1 else t.seedCtr }
    rw [Table.withCache] at hm ⊢
    rw [hm]
    rcases Table.malloc
        { t with seedCtr := if reseed = true then t.seedCtr + 1 else t.seedCtr } with ⟨ok, t₁⟩
    cases ok <;> rfl

/-- A `htc_grow` whose new bucket count fits. -/
lemma htcGrow_fits (reseed : Bool) (t : Table) (hb : ¬ 2 ^ 32 ≤ t.gen.numBuckets * 2) :
    htcGrow reseed t =
      (match Table.malloc { t with growStarted := t.growStarted + 1 } with
      | (buckets, t) => match t.malloc with
        | (metas, t) => if buckets && metas then growRehash reseed t else (.oom, t)) := if_neg hb

/-- `htc_grow` does not read the front cache. -/
lemma htcGrow_withCache (reseed : Bool) (t : Table) :
    htcGrow reseed (t.withCache k) = ((htcGrow reseed t).1, (htcGrow reseed t).2.withCache k) := by
  by_cases hb : 2 ^ 32 ≤ t.gen.numBuckets * 2
  · have hfull : ∀ t : Table, 2 ^ 32 ≤ t.gen.numBuckets * 2 →
        htcGrow reseed t = (.oom, { t with growStarted := t.growStarted + 1 }) :=
          fun t hb => if_pos hb
    rw [hfull t hb, hfull (t.withCache k) hb]
    rfl
  · have hm := malloc_withCache k { t with growStarted := t.growStarted + 1 }
    rw [htcGrow_fits reseed t hb, htcGrow_fits reseed (t.withCache k) hb]
    rw [Table.withCache] at hm ⊢
    rw [hm]
    rcases Table.malloc { t with growStarted := t.growStarted + 1 } with ⟨ok, t₁⟩
    dsimp only
    rw [malloc_withCache]
    rcases t₁.malloc with ⟨ok', t₂⟩
    dsimp only
    cases ok && ok' with
    | true => exact growRehash_withCache k reseed t₂
    | false => rfl

/-- The end of an insertion does not read the front cache. -/
lemma insertDone_withCache (t : Table) :
    insertDone (t.withCache k) = (insertDone t).withCache k := by
  rcases insertDone_cases t with ⟨hl, he⟩ | ⟨hl, he⟩
  · rw [he]
    exact (if_pos hl).trans
      (congrArg Prod.snd (htcGrow_withCache k false { t with size := t.size + 1 }))
  · rw [he]
    exact if_neg hl

/-- The attempts of `htc_insert` do not read the front cache. -/
lemma insertLoop_withCache (h v : ℕ) : ∀ (n : ℕ) (t : Table),
    insertLoop h v n (t.withCache k) = ((insertLoop h v n t).1, (insertLoop h v n t).2.withCache k)
  | 0, t => rfl
  | n + 1, t => by
    rw [insertLoop, insertLoop, insertAttempt_withCache]
    cases insertAttempt h v t with
    | stop e t' => rfl
    | entered t' => exact congrArg (Prod.mk _) (insertDone_withCache k t')
    | overflow t' =>
      dsimp only [Attempt.onTable]
      rw [htcGrow_withCache]
      rcases htcGrow true t' with ⟨e, t''⟩
      cases e with
      | ok => exact insertLoop_withCache h v n t''
      | _ => rfl

/-- The attempts of `htc_upsert` do not read the front cache. -/
lemma upsertLoop_withCache (h v : ℕ) : ∀ (n : ℕ) (t : Table),
    upsertLoop h v n (t.withCache k) = ((upsertLoop h v n t).1, (upsertLoop h v n t).2.withCache k)
  | 0, t => rfl
  | n + 1, t => by
    simp only [upsertLoop, withCache_toCore]
    cases htcSearch t.toCore h true with
    | some p => rfl
    | none =>
      dsimp only
      rw [htcInsert, htcInsert, insertLoop_withCache]
      rcases insertLoop h v 4 t with ⟨e, t'⟩
      cases e with
      | duplicate => exact upsertLoop_withCache h v n t'
      | _ => rfl

/-- `htc_update` does not read the front cache. -/
lemma htcUpdate_withCache (h v : ℕ) (t : Table) :
    htcUpdate h v (t.withCache k) = ((htcUpdate h v t).1, (htcUpdate h v t).2.withCache k) := by
  simp only [htcUpdate, withCache_toCore]
  cases htcSearch t.toCore h true <;> rfl

/-! ## Records that are not live are marked -/

/-- A record that is not live is marked as removed. -/
def Flagged (c : Core) : Prop := ∀ j < c.count, (c.recs j).flags = 0 → j ∈ c.live

variable {c c' : Core}

/-- A change that frees nothing and brings live records only into use. -/
lemma Flagged.of_used (hf : Flagged c) (hs : Stored c) (hk : FreeKept c c')
    (hu : c'.used ⊆ c'.live) : Flagged c' := by
  intro j hj hj0
  by_cases hfree : j ∈ c'.freeIdx
  · obtain ⟨hm, hr⟩ := hk j hfree
    rw [hr] at hj0
    exact absurd hm (hs.notFree j (hf j (hs.freeLt j hm) hj0))
  · exact hu ⟨hj, hfree, hj0⟩

/-- A record in use is live. -/
lemma Flagged.used_subset (hf : Flagged c) : c.used ⊆ c.live := fun j hj => hf j hj.1 hj.2.2

/-- The same store and the same live records. -/
lemma Flagged.same (hf : Flagged c) (hr : c'.recs = c.recs) (hc : c'.count = c.count)
    (hl : c'.live = c.live) :
    Flagged c' := by
  intro j hj hj0
  rw [hl]
  rw [hr] at hj0
  rw [hc] at hj
  exact hf j hj hj0

/-- A grow that loses nothing. -/
lemma Flagged.grown {reseed : Bool} {e : HtcError} {t' : Table} (hf : Flagged t.toCore)
    (hg : Grown reseed t e t') (hs : Same t.toCore t'.toCore) : Flagged t'.toCore := by
  obtain ⟨hr, hc, -, -⟩ := hg.store
  exact hf.same hr hc hs.live

/-- `htc_insert` keeps the marks. -/
lemma Flagged.insert (hs : Sound t) (hf : Flagged t.toCore) (hsafe : InsertSafe h v t) :
    Flagged (htcInsert h v t).2.toCore := by
  obtain ⟨hh, hsafe⟩ := hsafe
  have hok := insertAttempt_settled hs.settled hh v
  have hst := insertAttempt_stored hs.settled.toStored h v
  have ht := (@insertAttempt_tidy _ [])
    ⟨hs.settled.toStored, fun j hj => absurd hj List.not_mem_nil, List.nodup_nil⟩ h v
  rw [htcInsert, insertLoop]
  generalize insertAttempt h v t = a at hok hst ht hsafe
  rcases a with ⟨e, t'⟩ | t' | t'
  · obtain ⟨-, hsame, -, -⟩ := hok
    obtain ⟨-, -, hu, hk⟩ := ht
    refine hf.of_used hs.settled.toStored hk ?_
    rw [hu.used, hsame.live]
    exact hf.used_subset
  · obtain ⟨hset, hent, hb, -⟩ := hok
    obtain ⟨-, -, -, hkept⟩ := hst
    obtain ⟨-, hk, i, hl, hi⟩ := ht
    have hf' : Flagged t'.toCore := by
      refine hf.of_used hs.settled.toStored hk ?_
      rw [hl.used]
      rintro j (rfl | hj)
      · exact hi
      · obtain ⟨i', -, hl', -, -⟩ := hent.live
        rw [hl']
        exact Set.mem_insert_of_mem _ (hf.used_subset hj)
    rcases insertDone_cases t' with ⟨hload, hd⟩ | ⟨-, hd⟩
    · dsimp only
      rw [hd]
      have hn : 0 < t'.gen.numBuckets := by
        rw [hkept.numBuckets]
        exact hs.buckets
      have hg := htcGrow_grown false { t' with size := t'.size + 1 }
      exact Flagged.grown (t := { t' with size := t'.size + 1 }) hf' hg
        (hg.settled hset hn (hsafe hload)).2
    · dsimp only
      rw [hd]
      exact hf'
  · exact hsafe.elim

/-- Writing a value keeps the marks. -/
lemma Flagged.setValue (hf : Flagged c) (i v : ℕ) : Flagged (c.setValue i v) := by
  intro j hj hj0
  refine hf j hj ?_
  by_cases hji : j = i
  · subst hji
    simp only [Core.setValue, Function.update_self] at hj0
    exact hj0
  · simp only [Core.setValue, Function.update_of_ne hji] at hj0
    exact hj0

/-- `htc_remove` marks the record that leaves the table. -/
lemma Flagged.remove {t' : Table} (hs : Settled t.toCore) (hf : Flagged t.toCore)
    (he : htcRemove h t = some (.ok, t')) (hr : RemoveOk t t' h) : Flagged t'.toCore := by
  obtain ⟨i, hi, hk, hl⟩ := hr.removed.live
  rw [htcRemove_eq] at he
  rcases htcUnlink_cases hs.toStored h with hu | hu | ⟨i', c, hu, hi', hk', hfr, -, -⟩
  · rw [hu] at he
    cases he
  · rw [hu] at he
    cases he
  · rw [hu] at he
    cases he
    have hii : i' = i := hs.keys hi' hi (hk'.trans hk.symm)
    subst hii
    rw [removeDone_core] at hl ⊢
    intro j hj hj0
    rw [hl]
    by_cases hji : j = i'
    · subst hji
      change (Function.update c.recs j _ j).flags = 0 at hj0
      rw [Function.update_self] at hj0
      cases hj0
    · refine ⟨hf j ?_ ?_, hji⟩
      · rw [← hfr.count]
        exact hj
      · change (Function.update c.recs i' _ j).flags = 0 at hj0
        rw [Function.update_of_ne hji, hfr.recs] at hj0
        exact hj0

/-- A call that meets its condition keeps the marks. -/
lemma Flagged.step {op : HtcOp} {e : HtcError} {out : Option ℕ} {t' : Table} (hs : Sound t)
    (hf : Flagged t.toCore)
    (hsafe : op.Safe t) (hr : op.run t = some (e, out, t')) : Flagged t'.toCore := by
  cases op with
  | insert key value =>
    cases hr
    exact hf.insert hs hsafe
  | upsert key value =>
    cases hr
    rcases hs.upsert key.toNat_lt hsafe with ⟨i, -, -, he⟩ | ⟨e, t', he, -, ha, hi⟩
    · rw [he]
      exact hf.setValue i _
    · have hnone := hs.settled.search_eq_none.mpr ha
      have hf' := hf.insert hs (hsafe hnone)
      -- an upsert of an absent key is an insertion
      have hins :
          (htcUpsert key.toNat value.toNat t).2 = (htcInsert key.toNat value.toNat t).2 := by
        obtain ⟨e', t'', he', -, hi'⟩ := hs.insert key.toNat_lt (hsafe hnone)
        rw [htcUpsert, upsertLoop, hnone]
        dsimp only
        rw [he']
        cases hi' with
        | duplicate same present => exact absurd ha present
        | oom same absent fails => rfl
        | ok entered absent => rfl
      rw [hins]
      exact hf'
  | update key value =>
    cases hr
    rcases htcUpdate_settled hs.settled key.toNat value.toNat with ⟨j, he, -, -⟩ | ⟨he, -⟩
    · rw [he]
      exact hf.setValue j _
    · rw [he]
      exact hf
  | remove key =>
    rw [HtcOp.run] at hr
    rcases htcRemove_settled hs.settled key.toNat with ⟨t₁, he, hrem⟩ | ⟨he, -⟩
    · rw [he] at hr
      cases hr
      exact hf.remove hs.settled he hrem
    · rw [he] at hr
      cases hr
      exact hf
  | find key want =>
    rw [HtcOp.run] at hr
    rcases htcFind_settled hs.settled hs.cache key.toNat want with
      ⟨u, t₁, he, -, -, hrest⟩ | ⟨he, -⟩
    · rw [he] at hr
      cases hr
      rw [hrest]
      exact hf
    · rw [he] at hr
      cases hr
      exact hf
  | grow reseed =>
    cases hr
    have hg := htcGrow_grown reseed t
    exact hf.grown hg (hg.settled hs.settled hs.buckets hsafe).2

/-! ## The two tables -/

/-- What the front cache of any thread returns is the value of the key. -/
lemma Flagged.lookup {c : ℕ → Option CacheEntry} {p : ℕ} (hf : Flagged u.toCore)
    (hl : htcFrontCacheLookup (u.withCache (c, p)) h = some v) : u.Has h v := by
  obtain ⟨j, hj⟩ := List.exists_of_findSome?_eq_some hl
  obtain ⟨-, hj⟩ := hj
  split at hj
  · cases hj
  · next e he =>
    dsimp only at hj
    split at hj
    · next hcond =>
      cases hj
      obtain ⟨-, hlt, -, hkey, hflags⟩ := hcond
      exact ⟨e.idx, hf e.idx hlt hflags, hkey, rfl⟩
    · cases hj

/-- The tables differ in their front caches only. -/
def Twin (t u : Table) : Prop := ∃ k, t = u.withCache k

/-- A call replies the same on both tables and keeps them twins. -/
def Matches (r r' : Option (HtcError × Option ℕ × Table)) : Prop :=
  (r = none ∧ r' = none) ∨ ∃ e out t u, r = some (e, out, t) ∧ r' = some (e, out, u) ∧ Twin t u

/-- The search behind the front cache replies the same whatever the cache. -/
lemma findTable_twin (h : ℕ) (want : Bool) (u : Table) : ∃ k',
    findTable h want (u.withCache k) =
      ((findTable h want u).1, (findTable h want u).2.1,
        (findTable h want u).2.2.withCache k') := by
  simp only [findTable, withCache_toCore]
  cases htcSearch u.toCore h true with
  | none => exact ⟨k, rfl⟩
  | some p => exact ⟨(Function.update k.1 (k.2 % frontCacheEntries) _, k.2 + 1), rfl⟩

/-- `htc_find` when the hits of the front cache are right. -/
lemma htcFind_reply (hs : Settled u.toCore) (want : Bool)
    (hright : ∀ v, htcFrontCacheLookup (u.withCache k) h = some v → u.Has h v) :
    (∃ v k', u.Has h v ∧ htcFind h want (u.withCache k) = (.ok, if want then some v else none,
      u.withCache k')) ∨
      u.Absent h ∧
      htcFind h want (u.withCache k) =
      (.notFound, if want then some 0 else none, u.withCache k) := by
  have htable : (∃ v k', u.Has h v ∧
      findTable h want (u.withCache k) = (.ok, if want then some v else none, u.withCache k')) ∨
      u.Absent h ∧
      findTable h want (u.withCache k) =
      (.notFound, if want then some 0 else none, u.withCache k) := by
    simp only [findTable, withCache_toCore]
    cases hf : htcSearch u.toCore h true with
    | none => exact .inr ⟨hs.search_eq_none.mp hf, rfl⟩
    | some p =>
      obtain ⟨hl, hk⟩ := search_hit hf
      exact .inl ⟨_, (Function.update k.1 (k.2 % frontCacheEntries) _, k.2 + 1),
        ⟨_, hl, hk, rfl⟩, rfl⟩
  rw [htcFind]
  cases hf : (if (want && (u.withCache k).cacheOn) = true then htcFrontCacheLookup (u.withCache k) h
    else none) with
  | none => exact htable
  | some v =>
    split at hf
    · next hw =>
      rw [Bool.and_eq_true] at hw
      rw [hw.1]
      exact .inl ⟨v, k, hright v hf, rfl⟩
    · cases hf

/-- `htc_find` replies the same on both tables: with the front cache turned off it searches both,
and where the marks are right a hit in either cache is the value of the key. -/
lemma htcFind_twin (h : ℕ) (want : Bool) (u : Table)
    (hc : u.cacheOn = false ∨ Sound u ∧ Flagged u.toCore) :
    Matches (some (htcFind h want (u.withCache k))) (some (htcFind h want u)) := by
  rcases hc with hoff | ⟨hs, hf⟩
  · obtain ⟨k', hk'⟩ := findTable_twin k h want u
    have hno : ∀ t : Table, t.cacheOn = false → htcFind h want t = findTable h want t := by
      intro t ht
      rw [htcFind, ht, Bool.and_false, if_neg Bool.false_ne_true]
    rw [hno u hoff, hno (u.withCache k) hoff, hk']
    exact .inr ⟨_, _, _, _, rfl, rfl, k', rfl⟩
  · have hfun : ∀ {v v'}, u.Has h v → u.Has h v' → v = v' := by
      rintro v v' ⟨i, hi, hki, hv⟩ hv'
      rw [(hs.settled.has_iff hi hki).mp hv', hv]
    have ht := htcFind_reply (h := h) k hs.settled want fun v hl =>
      hf.lookup (c := k.1) (p := k.2) hl
    have hu := htcFind_reply (h := h) (u.cache, u.cachePos) hs.settled want fun v hl =>
      hs.cache.lookup hl
    change (∃ v k', u.Has h v ∧ htcFind h want u = _) ∨ u.Absent h ∧ htcFind h want u = _ at hu
    rcases ht with ⟨v, k₁, hv, he⟩ | ⟨ha, he⟩ <;> rcases hu with ⟨v', k₂, hv', he'⟩ | ⟨ha', he'⟩
    · rw [he, he', hfun hv hv']
      exact .inr ⟨_, _, _, _, rfl, rfl, k₁, rfl⟩
    · exact absurd hv (ha'.not_has v)
    · exact absurd hv' (ha.not_has v')
    · rw [he, he']
      exact .inr ⟨_, _, _, _, rfl, rfl, k, rfl⟩

/-- A call on tables that differ in their front caches. -/
lemma Twin.step (hw : Twin t u) (op : HtcOp) (hc : u.cacheOn = false ∨ Sound u ∧ Flagged u.toCore) :
    Matches (op.run t) (op.run u) := by
  obtain ⟨k, rfl⟩ := hw
  have hsame : ∀ r : HtcError × Table,
      Matches (some (noValue (r.1, r.2.withCache k))) (some (noValue r)) :=
    fun r => .inr ⟨_, _, _, _, rfl, rfl, k, rfl⟩
  cases op with
  | insert key value =>
    rw [HtcOp.run, HtcOp.run, htcInsert, htcInsert, insertLoop_withCache]
    exact hsame _
  | upsert key value =>
    rw [HtcOp.run, HtcOp.run, htcUpsert, htcUpsert, upsertLoop_withCache]
    exact hsame _
  | update key value =>
    rw [HtcOp.run, HtcOp.run, htcUpdate_withCache]
    exact hsame _
  | remove key =>
    rw [HtcOp.run, HtcOp.run, htcRemove_eq, htcRemove_eq, withCache_toCore]
    rcases htcUnlink key.toNat u.toCore with _ | _ | ⟨idx, c⟩
    · exact .inl ⟨rfl, rfl⟩
    · exact .inr ⟨_, none, _, _, rfl, rfl, k, rfl⟩
    · exact .inr
        ⟨_, none, _, _, rfl, rfl, (fun i => (k.1 i).filter fun e => e.hash != key.toNat, k.2), rfl⟩
  | find key want => exact htcFind_twin k key.toNat want u hc
  | grow reseed =>
    rw [HtcOp.run, HtcOp.run, htcGrow_withCache]
    exact hsame _

/-! ## Runs after a clear -/

/-- What `htc_create` and every grow give a table: buckets, and a seed that was drawn. -/
structure EpochTable.Made (s : EpochTable) : Prop where
  buckets : 0 < s.gen.numBuckets
  seed : ∃ k < s.seedCtr, s.gen.seed = htcSeed k

/-- A new table has no live records. -/
lemma fresh_live (s : EpochTable) : s.fresh.live = ∅ := by
  rw [Set.eq_empty_iff_forall_notMem]
  rintro j ⟨p, w, hw, -⟩
  cases p <;> cases hw

/-- A new table. -/
lemma fresh_stored (s : EpochTable) : Stored s.fresh.toCore where
  separate p q w v hw := by
    cases p <;> cases hw
  lt i hi := absurd hi (by rw [fresh_live]; exact Set.notMem_empty i)
  notFree i _ := List.not_mem_nil
  flags i _ := rfl
  freeNodup := List.nodup_nil
  freeLt i hi := absurd hi List.not_mem_nil
  shards _ := .empty
  stash := .empty

/-- A new table meets the invariant. -/
lemma EpochTable.Made.sound {s : EpochTable} (hm : s.Made) : Sound s.fresh.toTable where
  settled := settled_of_live_empty (fresh_stored s) (fresh_live s) (.fresh _ _)
  cache k e he := by cases he
  buckets := hm.buckets
  size := by
    rw [fresh_live, Set.encard_empty]
    rfl
  seed := hm.seed
  keys i hi := absurd hi (by rw [fresh_live]; exact Set.notMem_empty i)

/-- A table without words whose retire list holds objects only. -/
lemma tidy_of_objectsOnly {s s' : EpochTable} (hs : Stored s.toCore)
    (hl : ObjectsOnly s'.retireList) (hc : s'.toCore = s.toCore) : s'.Tidy := by
  have hnil : recordsOf s'.retireList = [] := by
    rw [recordsOf, List.filterMap_eq_nil_iff]
    rintro ⟨what, e⟩ hn
    cases what with
    | record i => exact absurd rfl (hl _ hn i)
    | custom ctx => rfl
  rw [EpochTable.Tidy, hnil, hc]
  exact ⟨hs, fun j hj => absurd hj List.not_mem_nil, List.nodup_nil⟩

/-- Runs on quiet tables that differ in their front caches reply the same. -/
lemma epochRun_twin : ∀ (ops : List HtcOp) {s s' : EpochTable} {t u : Table},
    Quiet s t → Quiet s' u → Twin t u →
    s'.Tidy → (u.cacheOn = false ∨ Sound u ∧ Flagged u.toCore ∧ SafeRun ops u) →
    (epochRun [] ops s).map Prod.fst = (epochRun [] ops s').map Prod.fst
  | [], _, _, _, _, _, _, _, _, _ => rfl
  | op :: ops, s, s', t, u, hq, hq', hw, ht, hc => by
    have hm := hw.step op (hc.imp_right fun h => ⟨h.1, h.2.1⟩)
    rw [epochRun, epochRun]
    rcases op.runEpoch_quiet hq with ⟨hs, hr⟩ | ⟨e, out, s₁, t₁, hs, hr, hq₁⟩
    · rcases hm with ⟨-, hr'⟩ | ⟨e, out, t₁, u₁, hr₁, -, -⟩
      · rcases op.runEpoch_quiet hq' with ⟨hs', -⟩ | ⟨e, out, s₁, u₁, -, hr₁, -⟩
        · rw [hs, hs']
        · exact absurd (hr₁.symm.trans hr') (Option.some_ne_none _)
      · exact absurd (hr₁.symm.trans hr) (Option.some_ne_none _)
    · rcases hm with ⟨hr₁, -⟩ | ⟨e', out', t', u₁, hr₁, hr', hw₁⟩
      · exact absurd (hr.symm.trans hr₁) (Option.some_ne_none _)
      · rw [hr] at hr₁
        cases hr₁
        rcases op.runEpoch_quiet hq' with ⟨-, hr₂⟩ | ⟨e'', out'', s₂, u₂, hs', hr₂, hq₂⟩
        · exact absurd (hr'.symm.trans hr₂) (Option.some_ne_none _)
        · rw [hr'] at hr₂
          cases hr₂
          obtain ⟨ht₂, hon⟩ := HtcOp.runEpoch_tidy ht hs'
          have hc₁ : u₁.cacheOn = false ∨ Sound u₁ ∧ Flagged u₁.toCore ∧ SafeRun ops u₁ := by
            rcases hc with hoff | ⟨hsound, hf, hsafe⟩
            · left
              rw [← hq₂.table, hon, hq'.table]
              exact hoff
            · right
              obtain ⟨e₁, out₁, u₂, he₁, hsound₁⟩ := hsound.step hsafe.1
              rw [hr'] at he₁
              cases he₁
              exact ⟨hsound₁, hf.step hsound hsafe.1 hr', hsafe.2 _ _ _ hr'⟩
          have ih := epochRun_twin ops hq₁ hq₂ hw₁ ht₂ hc₁
          rw [hs, hs']
          change ((epochRun [] ops s₁).map fun q => ((e, out) :: q.1, q.2)).map Prod.fst =
            ((epochRun [] ops s₂).map fun q => ((e, out) :: q.1, q.2)).map Prod.fst
          rw [Option.map_map, Option.map_map]
          have hcons := congrArg (Option.map ((e, out) :: ·)) ih
          rw [Option.map_map, Option.map_map] at hcons
          exact hcons

/-- A run keeps the words of different records apart. -/
lemma epochRun_tidy {te : List ℕ} :
    ∀ (ops : List HtcOp) {s : EpochTable} {r : List (HtcError × Option ℕ) × EpochTable},
    s.Tidy → epochRun te ops s = some r → r.2.Tidy
  | [], s, r, hs, he => by
    cases he
    exact hs
  | op :: ops, s, r, hs, he => by
    obtain ⟨⟨e, out, s₁⟩, hr, he⟩ := Option.bind_eq_some_iff.mp he
    obtain ⟨q, hq, rfl⟩ := Option.map_eq_some_iff.mp he
    have h := epochRun_tidy ops (HtcOp.runEpoch_tidy hs hr).1 hq
    exact h

/-- A table that is cleared while none of its removed records waits to be freed replies to every
list of calls as a new table does, and hands no index out twice. The calls are any calls when the
front cache is turned off; otherwise they are calls in which the new table loses no entry. -/
theorem clear_resets (s : EpochTable) (hm : s.Made) (hp : ObjectsOnly s.retireList)
    (ops : List HtcOp) (h : s.cacheOn = false ∨ SafeRun ops s.fresh.toTable) :
    (epochRun [] ops s.htcClear).map Prod.fst = (epochRun [] ops s.fresh).map Prod.fst ∧
      ∀ r, epochRun [] ops s.htcClear = some r → Separate Word.idx r.2.wordAt := by
  have hnew : s.fresh.Tidy :=
    tidy_of_objectsOnly (fresh_stored s) (fun n hn => absurd hn List.not_mem_nil) rfl
  have hclear : s.htcClear.Tidy := tidy_of_objectsOnly (s := s.fresh) (fresh_stored s) hp rfl
  refine ⟨?_, fun r hr => (epochRun_tidy ops hclear hr).separate⟩
  refine epochRun_twin ops (t := s.htcClear.toTable) (u := s.fresh.toTable) ⟨rfl, hp⟩
    ⟨rfl, fun n hn => absurd hn List.not_mem_nil⟩ ⟨(s.cache, s.cachePos), rfl⟩ hnew ?_
  rcases h with hoff | hsafe
  · exact .inl hoff
  · exact .inr ⟨hm.sound, fun j hj => absurd hj (Nat.not_lt_zero j), hsafe⟩

/-- A table with three live and two removed records; the front cache has entries of three keys. -/
def usedTable : EpochTable :=
  ((epochRun [] [.insert 5 50, .insert 6 60, .insert 7 70, .remove 6, .insert 8 80, .insert 9 90,
    .remove 5,
    .find 7 true, .find 8 true, .find 9 true] (htcCreateEpoch none 0 [] [])).map Prod.snd).getD
      (htcCreateEpoch none 0 [] [])

/-- A table with entries, removed records and a front cache in use, cleared. -/
theorem clear_resets_used :
    (usedTable.size = 3 ∧ usedTable.count = 4 ∧ usedTable.freeIdx.length = 1 ∧
      usedTable.cacheOn = true ∧
      (htcFrontCacheLookup usedTable.toTable 7).isSome = true) ∧
    (epochRun [] [.insert 7 71, .find 7 true, .find 8 true, .remove 7, .insert 2 20, .find 2 true]
        usedTable.htcClear).map Prod.fst =
      (epochRun [] [.insert 7 71, .find 7 true, .find 8 true, .remove 7, .insert 2 20, .find 2 true]
        usedTable.fresh).map Prod.fst ∧
      ∀ r, epochRun [] [.insert 7 71, .find 7 true, .find 8 true, .remove 7, .insert 2 20,
        .find 2 true]
        usedTable.htcClear = some r → Separate Word.idx r.2.wordAt := by
  have hm : usedTable.Made := ⟨by decide +kernel, 0, by decide +kernel, by decide +kernel⟩
  have hp : usedTable.retireList = [] := by decide +kernel
  refine ⟨by decide +kernel, clear_resets usedTable hm ?_ _ (.inr ?_)⟩
  · rw [hp]
    exact fun n hn => absurd hn List.not_mem_nil
  · exact (SafeRun.of_noGrow hm.sound (fun _ => rfl) (by decide +kernel)).1

/-- The key `1` is removed while a thread is pinned, and the table is cleared. The record of the key
that is inserted next is freed with its insertion, and the key is not found. -/
theorem clear_fails :
    ((epochRun [1] [.insert 1 10, .remove 1] (htcCreateEpoch none 0 [] [])).map fun r =>
      ((epochRun [] [.insert 2 20, .find 2 true] r.2.htcClear).map Prod.fst,
        (epochRun [] [.insert 2 20, .find 2 true] r.2.fresh).map Prod.fst)) =
      some (some [(.ok, none), (.notFound, some 0)], some [(.ok, none), (.ok, some 20)]) := by
  decide +kernel

end Draugr.Htc
