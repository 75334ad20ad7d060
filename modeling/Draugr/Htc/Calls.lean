import Draugr.Htc.Insert

/-!
# The calls on a settled table

What `htc_update`, `htc_remove` and `htc_find` do with a settled table, said in terms of its live
records. `CacheOk` is the invariant of the front cache: a valid entry denotes a live record of its
key. A removal invalidates the entries of its key before the record is freed, so an index that is
used again has no valid entry left.
-/

namespace Draugr.Htc
open Draugr.Lib

variable {c c' : Core} {t t' : Table} {h v i : ℕ}

/-- Every valid entry of the front cache denotes a live record of its key. -/
def CacheOk (t : Table) : Prop :=
  ∀ k e, t.cache k = some e → e.idx ∈ t.live ∧ t.keyOf e.idx = e.hash

/-- The table holds the value `v` under the key `h`. -/
def Core.Has (c : Core) (h v : ℕ) : Prop := ∃ i ∈ c.live, c.keyOf i = h ∧ (c.recs i).userValue = v

/-- A key of a settled table has one record. -/
lemma Settled.has_iff (hs : Settled c) (hi : i ∈ c.live) (hk : c.keyOf i = h) :
    c.Has h v ↔ v = (c.recs i).userValue := by
  constructor
  · rintro ⟨j, hj, hkj, rfl⟩
    rw [hs.keys hj hi (hkj.trans hk.symm)]
  · rintro rfl
    exact ⟨i, hi, hk, rfl⟩

/-- A key that is absent has no value. -/
lemma Core.Absent.not_has (ha : c.Absent h) (v : ℕ) : ¬ c.Has h v :=
  fun ⟨i, hi, hk, _⟩ => ha i hi hk

/-- The front cache is kept while live records keep their keys. -/
lemma CacheOk.mono (hc : CacheOk t) (hcache : t'.cache = t.cache) (hlive : t.live ⊆ t'.live)
    (hkey : ∀ j ∈ t.live, t'.keyOf j = t.keyOf j) : CacheOk t' := by
  intro k e he
  rw [hcache] at he
  obtain ⟨hl, hk⟩ := hc k e he
  exact ⟨hlive hl, (hkey _ hl).trans hk⟩

/-- The index of a hit. -/
lemma idxAt_eq {p : Place} {w : Word} (hw : c.wordAt p = some w) : c.idxAt p = w.idx := by
  rw [Core.idxAt, hw]
  rfl

/-- A hit of the search is the live record of the key. -/
lemma search_hit {p : Place} {all : Bool} (hf : htcSearch c h all = some p) :
    c.idxAt p ∈ c.live ∧ c.keyOf (c.idxAt p) = h := by
  obtain ⟨w, hw, hk⟩ := htcSearch_key hf
  rw [idxAt_eq hw]
  exact ⟨mem_live hw, hk⟩

/-! ## Writing a value -/

/-- Writing a value keeps a table settled. -/
lemma Settled.setValue (hs : Settled c) (i v : ℕ) : Settled (c.setValue i v) :=
  hs.store (spared_setValue hs.toStored i v)

/-- Writing a value changes no key. -/
lemma keyOf_setValue (i v j : ℕ) : (c.setValue i v).keyOf j = c.keyOf j := by
  by_cases hj : j = i
  · subst hj
    simp only [Core.keyOf, Core.setValue, Function.update_self]
  · simp only [Core.keyOf, Core.setValue, Function.update_of_ne hj]

/-- The values after one was written under the key `h`. -/
lemma Settled.has_setValue (hs : Settled c) (hi : i ∈ c.live) (hk : c.keyOf i = h) (k u : ℕ) :
    (c.setValue i v).Has k u ↔ if k = h then u = v else c.Has k u := by
  by_cases hkh : k = h
  · rw [if_pos hkh, hkh, (hs.setValue i v).has_iff (i := i) hi (by rw [keyOf_setValue]; exact hk)]
    simp only [Core.setValue, Function.update_self]
  · rw [if_neg hkh]
    have hne : ∀ j, c.keyOf j = k → j ≠ i := by
      rintro j hj rfl
      exact hkh (hj.symm.trans hk)
    constructor
    · rintro ⟨j, hj, hkj, hv⟩
      rw [keyOf_setValue] at hkj
      simp only [Core.setValue, Function.update_of_ne (hne j hkj)] at hv
      exact ⟨j, hj, hkj, hv⟩
    · rintro ⟨j, hj, hkj, hv⟩
      refine ⟨j, hj, by rw [keyOf_setValue]; exact hkj, ?_⟩
      simp only [Core.setValue, Function.update_of_ne (hne j hkj)]
      exact hv

/-- `htc_update` on a settled table. -/
lemma htcUpdate_settled (hs : Settled t.toCore) (h v : ℕ) :
    (∃ j, htcUpdate h v t = (.ok, { t with toCore := t.setValue j v }) ∧ ¬ t.Absent h ∧
      (¬ t.Hidden h → j ∈ t.live ∧ t.keyOf j = h)) ∨
    htcUpdate h v t = (.notFound, t) ∧ t.Absent h := by
  rw [htcUpdate]
  cases hf : htcSearch t.toCore h true with
  | none => exact .inr ⟨rfl, hs.search_eq_none.mp hf⟩
  | some p =>
    obtain ⟨hl, hk⟩ := search_hit hf
    refine .inl ⟨_, rfl, fun ha => ha _ hl hk, fun hh => ?_⟩
    have hp : updatePlace t.toCore h p = p := by
      cases p with
      | slot x => rfl
      | shard s j => rfl
      | global j =>
        obtain ⟨w, hw, hkw⟩ := htcSearch_key hf
        exact absurd ⟨j, w, hw, hkw⟩ hh
    rw [hp]
    exact ⟨hl, hk⟩

/-! ## Removing -/

/-- The record of the key `h` left the table. -/
structure Removed (c c' : Core) (h : ℕ) : Prop where
  live : ∃ i ∈ c.live, c.keyOf i = h ∧ c'.live = c.live \ {i}
  recs : ∀ j ∈ c'.live, c'.recs j = c.recs j

/-- A record whose word was cleared is marked and freed. -/
lemma removeDone_core (h : ℕ) (t : Table) : (removeDone h i t).toCore =
    { t.toCore with
      recs := Function.update t.recs i (htcArenaRecZero { t.recs i with flags := 1 })
      freeIdx := i :: t.freeIdx } := by
  simp only [removeDone, Core.arenaFree, Function.update_idem, Function.update_self]

/-- The table after a word of the key was cleared and its record freed. -/
lemma removed_of_clear {p : Place} {w : Word} (hs : Stored c) (hf : Frame c c')
    (hw : c'.wordAt = Function.update c.wordAt p none) (hp : c.wordAt p = some w)
    (hk : c.keyOf w.idx = h) {c'' : Core} (hsame : Same c' c'') : Removed c c'' h where
  live := by
    refine ⟨w.idx, mem_live hp, hk, ?_⟩
    rw [hsame.live, live_clear hs hw hp]
  recs j hj := by
    rw [hsame.live] at hj
    rw [hsame.recs j hj, hf.recs]

/-- What a removal that finds a word of its key does with the table. -/
structure Dropped (t t' : Table) (h : ℕ) : Prop where
  placed : Placed t'.toCore
  removed : Removed t.toCore t'.toCore h
  ready : ∀ j, Ready t.toCore j → Ready t'.toCore j ∧ t'.recs j = t.recs j
  key : ∀ j ∈ t.live, j ∉ t'.live → t'.keyOf j = 0
  records : ∀ j, t'.recs j = t.recs j ∨ t'.keyOf j = 0
  words : ∀ p w, t.wordAt p = some w → w.idx ∈ t'.live → t'.wordAt p = some w
  buckets : t'.gen.numBuckets = t.gen.numBuckets
  seed : t'.gen.seed = t.gen.seed
  shardCount : t'.shardCount = t.shardCount
  cache : t'.cache = (htcFrontCacheRemove t h).cache
  size : t'.size = t.size - 1
  stash : ∀ i, t.stash.slots i = none → t'.stash.slots i = none
  rest : t' = { t with toCore := t'.toCore, cache := t'.cache, size := t'.size }

/-- The end of a removal, after a word of the key was cleared. -/
lemma removeDone_dropped {p : Place} {w : Word} {c₁ : Core} (hs : Placed t.toCore)
    (hf : Frame t.toCore c₁)
    (hw : c₁.wordAt = Function.update t.wordAt p none) (hp : t.wordAt p = some w)
    (hk : t.keyOf w.idx = h)
    (hs₁ : Placed c₁) : Dropped t (removeDone h w.idx { t with toCore := c₁ }) h := by
  have hr : Ready c₁ w.idx := hs.ready_of_clear hf hw hp
  have hcore := removeDone_core (i := w.idx) h { t with toCore := c₁ }
  have hsame : Same c₁ (removeDone h w.idx { t with toCore := c₁ }).toCore := by
    rw [hcore]
    refine ⟨rfl, fun j hj => Function.update_of_ne ?_ ..⟩
    rintro rfl
    exact hr.notLive hj
  have hrem := removed_of_clear hs.toStored hf hw hp hk hsame
  have hother :
      ∀ j, j ≠ w.idx → (removeDone h w.idx { t with toCore := c₁ }).recs j = t.recs j := by
    intro j hne
    rw [hcore]
    change Function.update c₁.recs w.idx _ j = _
    rw [Function.update_of_ne hne, hf.recs]
  have hzero : (removeDone h w.idx { t with toCore := c₁ }).keyOf w.idx = 0 := by
    rw [hcore]
    change (Function.update c₁.recs w.idx _ w.idx).identityHash = 0
    rw [Function.update_self]
    rfl
  -- the record of the word is zeroed, the others stay
  refine ⟨?_, hrem, fun j hj => ?_, fun j hj hn => ?_, fun j => ?_, fun q u hq hu => ?_,
    hf.numBuckets, hf.seed, hf.shardCount, rfl, rfl, fun i hi => ?_, rfl⟩
  · rw [hcore]
    exact hs₁.store (spared_free hs₁.toStored hr _)
  · have hne : j ≠ w.idx := by
      rintro rfl
      exact hj.notLive (mem_live hp)
    have hrec := hother j hne
    refine ⟨⟨?_, ?_, ?_, ?_⟩, hrec⟩
    · change j < c₁.count
      rw [hf.count]
      exact hj.lt
    · change j ∉ w.idx :: c₁.freeIdx
      rw [hf.freeIdx, List.mem_cons, not_or]
      exact ⟨hne, hj.notFree⟩
    · rw [hsame.live, live_clear hs.toStored hw hp]
      exact fun hm => hj.notLive hm.1
    · rw [hrec]
      exact hj.flags
  · rw [hsame.live, live_clear hs.toStored hw hp] at hn
    have he : j = w.idx := by
      by_contra hne
      exact hn ⟨hj, hne⟩
    rw [he]
    exact hzero
  · by_cases hne : j = w.idx
    · right
      rw [hne]
      exact hzero
    · exact .inl (hother j hne)
  · have hqp : q ≠ p := by
      rintro rfl
      rw [hp, Option.some_inj] at hq
      rw [hsame.live, live_clear hs.toStored hw hp, ← hq] at hu
      exact hu.2 rfl
    change c₁.wordAt q = some u
    rw [hw, Function.update_of_ne hqp]
    exact hq
  · have hg : c₁.wordAt (.global i) = none := by
      rw [hw]
      exact update_none_eq_none (.inr hi)
    exact hg

/-- `htc_remove` where the words are placed: it returns, and what it removes is a record of the
key. -/
lemma htcRemove_placed (hs : Placed t.toCore) (h : ℕ) :
    (∃ t', htcRemove h t = some (.ok, t') ∧ Dropped t t' h) ∨ htcRemove h t = some (.notFound, t) ∧
      t.Absent h := by
  rw [htcRemove]
  cases hf : htcSearch t.toCore h true with
  | none => exact .inr ⟨rfl, hs.search_eq_none.mp hf⟩
  | some p =>
    left
    obtain ⟨w, hw, hk⟩ := htcSearch_key hf
    cases p with
    | slot x =>
      -- a word in its secondary bucket is not in the primary one, so both counters can be taken
      have hwait : ¬ (w.inSec = true ∧ x.1 = t.gen.primary (placementHash h t.gen.seed)) := by
        rintro ⟨hsec, hx⟩
        obtain ⟨-, hseat⟩ : t.Seat (t.hashOf w.idx) w (.slot x) := hs.seat (.slot x) w hw
        rw [if_pos hsec, Core.hashOf, hk] at hseat
        exact hseat.2 hx
      have hs₁ : Placed { t.toCore with
          gen := t.gen.leave (t.gen.primary (placementHash h t.gen.seed)) x w } := by
        have hh := hs.hinted.leave (x := x) hw
        rw [Core.hashOf, hk] at hh
        exact hs.clear (p := .slot x) (.ofGen leave_numBuckets leave_seed)
          (wordAt_setSlot leave_slots) hw hs.shards
          hs.stash hh
      refine ⟨_, ?_, removeDone_dropped (p := .slot x) hs (.ofGen leave_numBuckets leave_seed)
        (wordAt_setSlot leave_slots) hw hk hs₁⟩
      dsimp only
      rw [hw]
      dsimp only
      rw [if_neg hwait]
      rfl
    | shard s j =>
      have hfr : Frame t.toCore (t.setShard s (htcStashRemoveAt (t.shards s) j)) :=
        ⟨rfl, rfl, rfl, rfl, rfl, rfl⟩
      have hwd : (t.setShard s (htcStashRemoveAt (t.shards s) j)).wordAt =
          Function.update t.wordAt (.shard s j) none :=
        wordAt_setShard rfl
      have hs₁ :=
        hs.clear hfr hwd hw
        (counted_update hs.shards ((hs.shards s).removeAt hw)) hs.stash hs.hinted
      refine ⟨_, ?_, removeDone_dropped hs hfr hwd hw hk hs₁⟩
      rw [← idxAt_eq hw]
    | global j =>
      have hfr : Frame t.toCore { t.toCore with stash := htcStashRemoveAt t.stash j } :=
        ⟨rfl, rfl, rfl, rfl, rfl, rfl⟩
      have hwd : Core.wordAt { t.toCore with stash := htcStashRemoveAt t.stash j } =
          Function.update t.wordAt (.global j) none := wordAt_setStash rfl
      have hs₁ := hs.clear hfr hwd hw hs.shards (hs.stash.removeAt hw) hs.hinted
      refine ⟨_, ?_, removeDone_dropped hs hfr hwd hw hk hs₁⟩
      rw [← idxAt_eq hw]

/-- What a successful removal does with a settled table. -/
structure RemoveOk (t t' : Table) (h : ℕ) : Prop where
  settled : Settled t'.toCore
  removed : Removed t.toCore t'.toCore h
  buckets : t'.gen.numBuckets = t.gen.numBuckets
  seed : t'.gen.seed = t.gen.seed
  cache : t'.cache = (htcFrontCacheRemove t h).cache
  size : t'.size = t.size - 1
  stash : ∀ i, t.stash.slots i = none → t'.stash.slots i = none
  rest : t' = { t with toCore := t'.toCore, cache := t'.cache, size := t'.size }

/-- The keys stay different when a record leaves the table. -/
lemma Removed.injOn (hr : Removed c c' h) (hk : Set.InjOn c.keyOf c.live) :
    Set.InjOn c'.keyOf c'.live := by
  obtain ⟨i, -, -, hl⟩ := hr.live
  have hsub : ∀ j ∈ c'.live, j ∈ c.live := by
    intro j hj
    rw [hl] at hj
    exact hj.1
  intro j hj k hk' he
  rw [Core.keyOf, hr.recs j hj, Core.keyOf, hr.recs k hk'] at he
  exact hk (hsub j hj) (hsub k hk') he

/-- `htc_remove` on a settled table: it returns, and what it removes is the record of the key. -/
lemma htcRemove_settled (hs : Settled t.toCore) (h : ℕ) :
    (∃ t', htcRemove h t = some (.ok, t') ∧ RemoveOk t t' h) ∨
      htcRemove h t = some (.notFound, t) ∧ t.Absent h := by
  rcases htcRemove_placed hs.placed h with ⟨t', he, hd⟩ | hn
  · exact .inl ⟨t', he, hd.placed.settled (hd.removed.injOn hs.keys), hd.removed, hd.buckets,
      hd.seed, hd.cache, hd.size, hd.stash, hd.rest⟩
  · exact .inr hn

/-! ## Finding -/

/-- What the front cache returns is the value of the key. -/
lemma CacheOk.lookup (hc : CacheOk t) (hf : htcFrontCacheLookup t h = some v) : t.Has h v := by
  obtain ⟨k, hk⟩ := List.exists_of_findSome?_eq_some hf
  obtain ⟨-, hk⟩ := hk
  split at hk
  · cases hk
  · next e he =>
    dsimp only at hk
    split at hk
    · next hcond =>
      cases hk
      obtain ⟨hl, hkey⟩ := hc k e he
      exact ⟨e.idx, hl, hkey.trans hcond.1, rfl⟩
    · cases hk

/-- A new entry of the front cache denotes a live record. -/
lemma CacheOk.insert (hc : CacheOk t) (hi : i ∈ t.live) (hk : t.keyOf i = h) :
    CacheOk (htcFrontCacheInsert t h i) := by
  intro k e he
  rcases update_some_cases he with ⟨-, rfl⟩ | ⟨-, he⟩
  · exact ⟨hi, hk⟩
  · exact hc k e he

/-- `htc_find` on a settled table. -/
lemma htcFind_settled (hs : Settled t.toCore) (hc : CacheOk t) (h : ℕ) (want : Bool) :
    (∃ u t', htcFind h want t = (.ok, if want then some u else none, t') ∧ t.Has h u ∧ CacheOk t' ∧
      t' = { t with cache := t'.cache, cachePos := t'.cachePos }) ∨
    htcFind h want t = (.notFound, if want then some 0 else none, t) ∧ t.Absent h := by
  have htable :
    (∃ u t', findTable h want t = (.ok, if want then some u else none, t') ∧ t.Has h u ∧
      CacheOk t' ∧
      t' = { t with cache := t'.cache, cachePos := t'.cachePos }) ∨
      findTable h want t = (.notFound, if want then some 0 else none, t) ∧ t.Absent h := by
    rw [findTable]
    cases hf : htcSearch t.toCore h true with
    | none => exact .inr ⟨rfl, hs.search_eq_none.mp hf⟩
    | some p =>
      obtain ⟨hl, hk⟩ := search_hit hf
      exact .inl ⟨_, _, rfl, ⟨_, hl, hk, rfl⟩, hc.insert hl hk, rfl⟩
  rw [htcFind]
  cases hf : (if (want && t.cacheOn) = true then htcFrontCacheLookup t h else none) with
  | none => exact htable
  | some u =>
    split at hf
    · next hw =>
      rw [Bool.and_eq_true] at hw
      rw [hw.1]
      exact .inl ⟨u, t, rfl, hc.lookup hf, hc, rfl⟩
    · cases hf

end Draugr.Htc
