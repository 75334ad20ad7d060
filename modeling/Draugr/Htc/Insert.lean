import Draugr.Htc.Search

/-!
# One attempt of `htc_insert`

`insertTry_cases` reads the first locked section off the code. The three sections then keep a table
settled when the key is absent, and an attempt as a whole (`insertAttempt_settled`) stops at a key
that is present, fails to allocate, brings the entry in, or finds the stash of the shard full.

The duplicate check does not look into the global stash: `Core.Hidden` is the key for which that
matters.
-/

namespace Draugr.Htc
open Draugr.Lib

variable {c c' : Core} {t t' : Table} {h v i : ℕ}

/-- A word of the key is in the global stash. -/
def Core.Hidden (c : Core) (h : ℕ) : Prop := ∃ i w, c.stash.slots i = some w ∧ c.keyOf w.idx = h

/-- The live records are the same. -/
structure Same (c c' : Core) : Prop where
  live : c'.live = c.live
  recs : ∀ j ∈ c.live, c'.recs j = c.recs j

/-- One record was added, with key `h` and value `v`. -/
structure Entered (c c' : Core) (h v : ℕ) : Prop where
  live : ∃ i, i ∉ c.live ∧ c'.live = insert i c.live ∧ c'.keyOf i = h ∧ (c'.recs i).userValue = v
  recs : ∀ j ∈ c.live, c'.recs j = c.recs j

/-- The geometry of the buckets and the global stash are the same. -/
structure Kept (c c' : Core) : Prop where
  numBuckets : c'.gen.numBuckets = c.gen.numBuckets
  seed : c'.gen.seed = c.gen.seed
  shardCount : c'.shardCount = c.shardCount
  stash : c'.stash = c.stash

/-- A core keeps its own geometry. -/
lemma Kept.refl (c : Core) : Kept c c := ⟨rfl, rfl, rfl, rfl⟩

/-- A change that leaves the frame and the global stash. -/
lemma Kept.frame {c'' : Core} (hk : Kept c c') (hf : Frame c' c'') (hst : c''.stash = c'.stash) :
    Kept c c'' :=
  ⟨hf.numBuckets.trans hk.numBuckets, hf.seed.trans hk.seed, hf.shardCount.trans hk.shardCount,
    hst.trans hk.stash⟩

/-- A core has its own live records. -/
lemma Same.refl (c : Core) : Same c c := ⟨rfl, fun _ _ => rfl⟩

/-- Two steps that keep the live records keep them. -/
lemma Same.trans {c'' : Core} (h : Same c c') (h' : Same c' c'') : Same c c'' :=
  ⟨h'.live.trans h.live, fun j hj => (h'.recs j (h.live ▸ hj)).trans (h.recs j hj)⟩

/-- The keys stay different while the live records are the same. -/
lemma Same.injOn (h : Same c c') (hk : Set.InjOn c.keyOf c.live) : Set.InjOn c'.keyOf c'.live := by
  rw [h.live]
  intro j hj k hk' he
  rw [Core.keyOf, h.recs j hj, Core.keyOf, h.recs k hk'] at he
  exact hk hj hk' he

/-- A key that is not hidden is found by a search without the global stash, or absent. -/
lemma Placed.absent_of_search (hs : Placed c) (hh : ¬ c.Hidden h)
    (hf : htcSearch c h false = none) :
    c.Absent h := by
  rintro j ⟨p, w, hw, rfl⟩ hk
  obtain ⟨-, i, rfl⟩ := hs.search_none hf hw hk
  exact hh ⟨i, w, hw, hk⟩

/-! ## The first section -/

/-- The search for a path gives a chain or nothing. -/
lemma insertSearch_cases (ph i : ℕ) (t : Table) :
    (∃ p d, insertSearch ph i t = .path i p t ∧ Chain (t.gen.primary ph) (t.gen.secondary ph) d p) ∨
      insertSearch ph i t = .full i t := by
  simp only [insertSearch]
  generalize t.gen.primary ph = b1
  generalize t.gen.secondary ph = b2
  cases hp : bfsFindPath t.gen t.recs b1 b2 with
  | none => exact .inr rfl
  | some p =>
    obtain ⟨d, hch⟩ := bfsFindPath_chain hp
    by_cases hfit : pathFits t.shardCount b1 b2 p = true
    · exact .inl ⟨p, d, if_pos hfit, hch⟩
    · exact .inr (if_neg hfit)

/-- What the first section does with a record that was allocated. -/
lemma insertTry_of_alloc {t₁ : Table} (hf : htcSearch t.toCore h false = none)
    (he : t.arenaAlloc h (placementHash h t.gen.seed) v = (some i, t₁)) :
    ∃ g, (insertTry h v t = .placed { t₁ with gen := g } ∧
        placeDirect t₁.gen (placementHash h t.gen.seed) ⟨i, tag16 (placementHash h t.gen.seed),
          false⟩ = (true, g)) ∨
      ∃ b tag, Bumped b tag t₁.gen g ∧
        ((∃ p d, insertTry h v t = .path i p { t₁ with gen := g } ∧
          Chain (g.primary (placementHash h t.gen.seed))
          (g.secondary (placementHash h t.gen.seed)) d p) ∨
        insertTry h v t = .full i { t₁ with gen := g }) := by
  have hd : ¬ (htcSearch t.toCore h false).isSome = true := by
    rw [hf]
    exact Bool.false_ne_true
  rw [insertTry, if_neg hd, he]
  dsimp only
  rcases hg : placeDirect t₁.gen (placementHash h t.gen.seed)
    ⟨i, tag16 (placementHash h t.gen.seed), false⟩ with
    ⟨ok, g⟩
  refine ⟨g, ?_⟩
  cases ok with
  | true => exact .inl ⟨rfl, rfl⟩
  | false =>
    obtain ⟨b, tag, hb⟩ := placeDirect_false (c := t₁.toCore) hg
    exact .inr ⟨b, tag, hb, insertSearch_cases _ i { t₁ with gen := g }⟩

/-- What the first locked section does. -/
lemma insertTry_cases (hs : Stored t.toCore) (h v : ℕ) :
    (insertTry h v t = .duplicate ∧ (htcSearch t.toCore h false).isSome = true) ∨
    htcSearch t.toCore h false = none ∧
      ((∃ m, insertTry h v t = .oom { t with mem := m } ∧ false ∈ t.mem) ∨
      ∃ i t₁ g, Alloced t t₁ i h (placementHash h t.gen.seed) v ∧
        ((insertTry h v t = .placed { t₁ with gen := g } ∧
          placeDirect t₁.gen (placementHash h t.gen.seed) ⟨i, tag16 (placementHash h t.gen.seed),
            false⟩ =
            (true, g)) ∨
        ∃ b tag, Bumped b tag t₁.gen g ∧
          ((∃ p d, insertTry h v t = .path i p { t₁ with gen := g } ∧
            Chain (g.primary (placementHash h t.gen.seed))
            (g.secondary (placementHash h t.gen.seed)) d p) ∨
          insertTry h v t = .full i { t₁ with gen := g }))) := by
  by_cases hd : (htcSearch t.toCore h false).isSome = true
  · exact .inl ⟨if_pos hd, hd⟩
  · rw [Bool.not_eq_true, Option.isSome_eq_false_iff, Option.isNone_iff_eq_none] at hd
    refine .inr ⟨hd, ?_⟩
    rcases arenaAlloc_cases hs h (placementHash h t.gen.seed) v with ⟨i, t₁, he, ha⟩ | ⟨m, he, hm⟩
    · obtain ⟨g, hg⟩ := insertTry_of_alloc hd he
      exact .inr ⟨i, t₁, g, ha, hg⟩
    · refine .inl ⟨m, ?_, hm⟩
      have hn : ¬ (htcSearch t.toCore h false).isSome = true := by
        rw [hd]
        exact Bool.false_ne_true
      rw [insertTry, if_neg hn, he]

/-- An allocation changes no live record. -/
lemma Alloced.same {ph : ℕ} (ha : Alloced t t' i h ph v) : Same t.toCore t'.toCore :=
  ⟨ha.live, fun _ hj => ha.recs_of_ne fun he => ha.notLive (he ▸ hj)⟩

/-- An allocation leaves the buckets and the global stash alone. -/
lemma Alloced.kept {ph : ℕ} (ha : Alloced t t' i h ph v) : Kept t.toCore t'.toCore := by
  rw [ha.core]
  exact ⟨rfl, rfl, rfl, rfl⟩

/-- The allocated record joins the table. -/
lemma Alloced.entered {ph : ℕ} (ha : Alloced t t' i h ph v) (hj : Joined t'.toCore c' i) :
    Entered t.toCore c' h v where
  live := by
    refine ⟨i, ha.notLive, ?_, ?_, ?_⟩
    · rw [hj.live, ha.live]
    · rw [hj.frame.keyOf, ha.keyOf_self]
    · obtain ⟨gen, hr⟩ := ha.rec_self
      rw [hj.frame.recs, hr]
  recs j hm := by
    rw [hj.frame.recs]
    exact ha.same.recs j hm

/-- The hash of the allocated record. -/
lemma Alloced.hashOf_self {ph : ℕ} (ha : Alloced t t' i h ph v) :
    t'.hashOf i = placementHash h t.gen.seed := by
  rw [Core.hashOf, ha.keyOf_self, ha.gen]

/-- The word of the allocated record. -/
lemma Alloced.wordOf_self {ph : ℕ} (ha : Alloced t t' i h ph v) :
    t'.wordOf i = ⟨i, tag16 (placementHash h t.gen.seed), false⟩ := by
  rw [Core.wordOf, ha.hashOf_self]

/-! ## The stash section -/

/-- What the stash section does with a ready record. -/
lemma insertStash_cases (hs : Stored c) (hr : Ready c i) (h : ℕ) :
    (insertStash h i c = .duplicate ∧ ∃ p, htcSearch c h false = some p) ∨
    (∃ c', insertStash h i c = .placed c' ∧ Joined c c' i ∧ c'.stash = c.stash) ∨
    insertStash h i c = .full (c.arenaFree i) := by
  simp only [insertStash]
  split
  · next hf =>
    refine .inl ⟨rfl, ?_⟩
    obtain ⟨j, hj⟩ := Option.isSome_iff_exists.mp hf
    rcases htcSearch_cases c h false with ⟨k, he, -⟩ | ⟨k, he, -⟩ | ⟨k, he, -⟩ | ⟨k, he, -⟩ |
      ⟨-, -, -, h3, -⟩
    · exact ⟨_, he⟩
    · exact ⟨_, he⟩
    · exact ⟨_, he⟩
    · exact ⟨_, he⟩
    · rw [hj] at h3
      cases h3
  · right
    split
    · next st hst =>
      obtain ⟨j, hj, rfl⟩ := Option.map_eq_some_iff.mp hst
      exact .inl ⟨_, rfl, hs.putShard (Stash.claim_some hj).2 hr, rfl⟩
    · exact .inr rfl

/-- The stash section places a record at a seat of its key. -/
lemma Placed.insertStash (hs : Placed c) (hw : Filed c i)
    (he : insertStash (c.keyOf i) i c = .placed c') :
    Placed c' := by
  simp only [Htc.insertStash] at he
  split at he
  · cases he
  · split at he
    · next st hst =>
      obtain ⟨j, hj, rfl⟩ := Option.map_eq_some_iff.mp hst
      obtain ⟨hlt, hn⟩ := Stash.claim_some hj
      cases he
      exact hs.putShard hw hlt hn
    · cases he

/-- The stash section keeps the other words. -/
lemma insertStash_keep {q : Place} {u : Word} (he : insertStash h i c = .placed c')
    (hq : c.wordAt q = some u) :
    c'.wordAt q = some u := by
  simp only [insertStash] at he
  split at he
  · cases he
  · split at he
    · next st hst =>
      obtain ⟨j, hj, rfl⟩ := Option.map_eq_some_iff.mp hst
      cases he
      exact wordAt_keep (p := .shard _ j) (wordAt_setShard rfl) (Stash.claim_some hj).2 hq
    · cases he

/-- A ready record can be freed again. -/
lemma Settled.arenaFree (hs : Settled c) (hr : Ready c i) : Settled (c.arenaFree i) :=
  hs.store (spared_free hs.toStored hr _)

/-- A ready record can be freed again. -/
lemma Stored.arenaFree (hs : Stored c) (hr : Ready c i) : Stored (c.arenaFree i) :=
  hs.store (spared_free hs hr _)

/-- Freeing a ready record changes no live record. -/
lemma same_arenaFree (hr : Ready c i) : Same c (c.arenaFree i) where
  live := rfl
  recs j hj := by
    refine Function.update_of_ne ?_ ..
    rintro rfl
    exact hr.notLive hj

/-! ## A whole attempt -/

/-- Only the core and the outcomes of allocations differ. -/
def Beside (t t' : Table) : Prop := t' = { t with toCore := t'.toCore, mem := t'.mem }

/-- What an attempt does with a settled table. -/
def AttemptOk (h v : ℕ) (t : Table) : Attempt → Prop
  | .stop e t' => Settled t'.toCore ∧ Same t.toCore t'.toCore ∧ Beside t t' ∧
      (e = .duplicate ∧ ¬ t.Absent h ∨ e = .oom ∧ t.Absent h ∧ false ∈ t.mem)
  | .entered t' => Settled t'.toCore ∧ Entered t.toCore t'.toCore h v ∧ Beside t t' ∧ t.Absent h
  | .overflow t' => Settled t'.toCore ∧ Same t.toCore t'.toCore ∧ Beside t t' ∧ t.Absent h

/-- The record `i` was allocated for `h` and `v` in a table that differs by hints only. -/
structure Held (t t₁ : Table) (i h v : ℕ) : Prop where
  stored : Stored t₁.toCore
  ready : Ready t₁.toCore i
  key : t₁.keyOf i = h
  value : (t₁.recs i).userValue = v
  notLive : i ∉ t.live
  same : Same t.toCore t₁.toCore
  beside : Beside t t₁
  kept : Kept t.toCore t₁.toCore

/-- Such a record in a settled table without its key. -/
structure Pending (t t₁ : Table) (i h v : ℕ) : Prop extends Held t t₁ i h v where
  settled : Settled t₁.toCore
  welcome : Welcome t₁.toCore i

/-- The first section leaves an allocated record when both buckets are full. -/
lemma Alloced.held {t₁ : Table} {g : Gen} {b tag : ℕ}
    (ha : Alloced t t₁ i h (placementHash h t.gen.seed) v)
    (hs : Stored t.toCore) (hb : Bumped b tag t₁.gen g) : Held t { t₁ with gen := g } i h v where
  stored := (ha.stored hs).sameSlots hb.slots
  ready := ha.ready.bumped hb
  key := ha.keyOf_self
  value := by
    obtain ⟨gen, hr⟩ := ha.rec_self
    exact congrArg HtcRecord.userValue hr
  notLive := ha.notLive
  same := ha.same.trans ⟨live_of_slots hb.slots, fun _ _ => rfl⟩
  beside := by
    rw [Beside, ha.rest]
  kept := ha.kept.frame (.ofGen hb.numBuckets hb.seed) rfl

/-- In a settled table without its key the record is pending. -/
lemma Alloced.pending {t₁ : Table} {g : Gen} {b tag : ℕ}
    (ha : Alloced t t₁ i h (placementHash h t.gen.seed) v)
    (hs : Settled t.toCore) (habs : t.Absent h) (hb : Bumped b tag t₁.gen g) :
    Pending t { t₁ with gen := g } i h v where
  toHeld := ha.held hs.toStored hb
  settled := (ha.settled hs).bumped hb
  welcome := (ha.welcome rfl habs).bumped hb

/-- An allocated record joins the table. -/
lemma Held.entered {t₁ : Table} (hp : Held t t₁ i h v) (hj : Joined t₁.toCore c' i) :
    Entered t.toCore c' h v where
  live := by
    refine ⟨i, hp.notLive, ?_, ?_, ?_⟩
    · rw [hj.live, hp.same.live]
    · rw [hj.frame.keyOf, hp.key]
    · rw [hj.frame.recs, hp.value]
  recs j hm := by
    rw [hj.frame.recs]
    exact hp.same.recs j hm

/-- A change of the core only. -/
lemma Beside.setCore {t₁ : Table} (hb : Beside t t₁) (c' : Core) :
    Beside t { t₁ with toCore := c' } := by
  rw [Beside, hb]

/-- A key that is absent is not found. -/
lemma Core.Absent.search {all : Bool} (ha : c.Absent h) : htcSearch c h all = none := by
  cases hf : htcSearch c h all with
  | none => rfl
  | some p =>
    obtain ⟨w, hw, hk⟩ := htcSearch_key hf
    exact absurd hk (ha _ (mem_live hw))

/-- A key stays absent while the live records are the same. -/
lemma Same.absent (hs : Same c c') : c'.Absent h ↔ c.Absent h := by
  have hk : ∀ j ∈ c.live,
      c'.keyOf j = c.keyOf j := fun j hj => congrArg HtcRecord.identityHash (hs.recs j hj)
  constructor
  · intro ha j hj
    rw [← hk j hj]
    exact ha j (hs.live ▸ hj)
  · intro ha j hj
    rw [hs.live] at hj
    rw [hk j hj]
    exact ha j hj

/-- The stash section as the end of an attempt. -/
lemma Pending.attemptStash {t₁ : Table} (hp : Pending t t₁ i h v) (habs : t.Absent h) :
    AttemptOk h v t (attemptStash h i t₁) := by
  rw [Htc.attemptStash]
  rcases insertStash_cases hp.stored hp.ready h with ⟨-, p, hf⟩ | ⟨c', he, hj, -⟩ | he
  · -- the key would have been found before
    rw [(hp.same.absent.mpr habs).search] at hf
    cases hf
  · rw [he]
    refine ⟨?_, hp.entered hj, hp.beside.setCore c', habs⟩
    rw [← hp.key] at he
    exact hp.settled.joined hp.welcome hj (hp.settled.placed.insertStash hp.welcome.filed he)
  · rw [he]
    exact ⟨hp.settled.arenaFree hp.ready, hp.same.trans (same_arenaFree hp.ready),
      hp.beside.setCore _, habs⟩

/-- An attempt on a settled table for a key that is not hidden. -/
lemma insertAttempt_settled (hs : Settled t.toCore) (hh : ¬ t.Hidden h) (v : ℕ) :
    AttemptOk h v t (insertAttempt h v t) := by
  rw [insertAttempt]
  rcases insertTry_cases hs.toStored h v with ⟨he, hf⟩ | ⟨hf, hrest⟩
  · rw [he]
    refine ⟨hs, .refl _, rfl, .inl ⟨rfl, fun habs => ?_⟩⟩
    rw [habs.search] at hf
    cases hf
  have habs := hs.placed.absent_of_search hh hf
  rcases hrest with ⟨m, he, hm⟩ | ⟨i, t₁, g, ha, ⟨he, hg⟩ | ⟨b, tag, hb, ⟨p, d, he, hch⟩ | he⟩⟩
  · rw [he]
    exact ⟨hs, .refl _, rfl, .inr ⟨rfl, habs, hm⟩⟩
  · rw [he]
    have hw := ha.welcome rfl habs
    rw [← ha.wordOf_self, ← ha.hashOf_self] at hg
    refine ⟨(ha.settled hs).placeDirect hw hg, ?_, ?_, habs⟩
    · exact ha.entered ((ha.stored hs.toStored).placeDirect hw.toReady hg)
    · rw [Beside, ha.rest]
  · rw [he]
    have hp := ha.pending hs habs hb
    dsimp only
    cases hpath : insertPath i p { t₁.toCore with gen := g } with
    | none => exact hp.attemptStash habs
    | some c' =>
      obtain ⟨src, hv, rfl⟩ := Option.map_eq_some_iff.mp hpath
      have hch' : Chain (Gen.primary g (Core.hashOf { t₁.toCore with gen := g } i))
          (Gen.secondary g (Core.hashOf { t₁.toCore with gen := g } i)) d p := by
        rw [Core.hashOf, show Core.keyOf { t₁.toCore with gen := g } i = h from hp.key,
          show g.seed = t.gen.seed by rw [hb.seed, ha.gen]]
        exact hch
      exact ⟨hp.settled.commit hp.welcome hch' hv, hp.entered (hp.stored.commit hp.ready hch hv),
        hp.beside.setCore _, habs⟩
  · rw [he]
    exact (ha.pending hs habs hb).attemptStash habs

/-! ## An attempt on any table -/

/-- What an attempt does with a table whose words denote different records. -/
def AttemptStored (h v : ℕ) (t : Table) : Attempt → Prop
  | .stop _ t' => Stored t'.toCore ∧ Same t.toCore t'.toCore ∧ Beside t t' ∧ Kept t.toCore t'.toCore
  | .entered t' => Stored t'.toCore ∧ Entered t.toCore t'.toCore h v ∧ Beside t t' ∧
    Kept t.toCore t'.toCore
  | .overflow t' => Stored t'.toCore ∧ Same t.toCore t'.toCore ∧ Beside t t' ∧
    Kept t.toCore t'.toCore

/-- The stash section as the end of an attempt. -/
lemma Held.attemptStash {t₁ : Table} (hp : Held t t₁ i h v) :
    AttemptStored h v t (attemptStash h i t₁) := by
  rw [Htc.attemptStash]
  rcases insertStash_cases hp.stored hp.ready h with ⟨he, -⟩ | ⟨c', he, hj, hst⟩ | he
  · rw [he]
    exact ⟨hp.stored, hp.same, hp.beside, hp.kept⟩
  · rw [he]
    exact ⟨hj.stored, hp.entered hj, hp.beside.setCore c', hp.kept.frame hj.frame hst⟩
  · rw [he]
    exact ⟨hp.stored.arenaFree hp.ready, hp.same.trans (same_arenaFree hp.ready),
      hp.beside.setCore _, ⟨hp.kept.1, hp.kept.2, hp.kept.3, hp.kept.4⟩⟩

/-- An attempt on any table. -/
lemma insertAttempt_stored (hs : Stored t.toCore) (h v : ℕ) :
    AttemptStored h v t (insertAttempt h v t) := by
  rw [insertAttempt]
  rcases insertTry_cases hs h v with
    ⟨he, -⟩ | ⟨-, ⟨m, he, -⟩ | ⟨i, t₁, g, ha, ⟨he, hg⟩ | ⟨b, tag, hb, ⟨p, d, he, hch⟩ | he⟩⟩⟩
  · rw [he]
    exact ⟨hs, .refl _, rfl, .refl _⟩
  · rw [he]
    exact ⟨hs, .refl _, rfl, .refl _⟩
  · rw [he]
    have hj := (ha.stored hs).placeDirect ha.ready hg
    refine ⟨hj.stored, ha.entered hj, ?_, ha.kept.frame hj.frame rfl⟩
    rw [Beside, ha.rest]
  · rw [he]
    have hp := ha.held hs hb
    dsimp only
    cases hpath : insertPath i p { t₁.toCore with gen := g } with
    | none => exact hp.attemptStash
    | some c' =>
      obtain ⟨src, hv, rfl⟩ := Option.map_eq_some_iff.mp hpath
      have hj := hp.stored.commit hp.ready hch hv
      exact ⟨hj.stored, hp.entered hj, hp.beside.setCore _, hp.kept.frame hj.frame rfl⟩
  · rw [he]
    exact (ha.held hs hb).attemptStash

end Draugr.Htc
