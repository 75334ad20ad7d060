import Draugr.Htc.Grow

/-!
# The record store of a table

A record is in use (`Core.used`) from the insertion that allocates it until it is removed, whether
or not a word still denotes it. What the parts of the calls do to the records in use is read off
here for any table whose words denote different records, also for one that has lost entries: an
insertion that succeeds brings one record into use, a grow none, and an attempt that fails gives its
record back.

`Tidy c pend` adds the records that were removed and have not been freed yet.
-/

namespace Draugr.Htc
open Draugr.Lib

variable {c c' c'' : Core} {t t' : Table} {h v i ph : ℕ} {pend : List ℕ}

/-- The records in use: handed out, not free and not removed. -/
def Core.used (c : Core) : Set ℕ := {i | i < c.count ∧ i ∉ c.freeIdx ∧ (c.recs i).flags = 0}

/-- The words denote different records, and the records of `pend` are marked and wait to be
freed. -/
structure Tidy (c : Core) (pend : List ℕ) : Prop extends Stored c where
  waiting : ∀ i ∈ pend, i < c.count ∧ i ∉ c.freeIdx ∧ (c.recs i).flags ≠ 0
  nodup : pend.Nodup

/-- The records in use are the same. -/
structure Untouched (c c' : Core) : Prop where
  used : c'.used = c.used
  recs : ∀ j ∈ c.used, c'.recs j = c.recs j

/-- The record `i` came into use, with key `h` and value `v`. -/
structure Lent (c c' : Core) (h v i : ℕ) : Prop where
  new : i ∉ c.used
  used : c'.used = insert i c.used
  key : c'.keyOf i = h
  value : (c'.recs i).userValue = v
  recs : ∀ j ∈ c.used, c'.recs j = c.recs j

/-- The record `i` is no longer in use. -/
structure Dismissed (c c' : Core) (i : ℕ) : Prop where
  old : i ∈ c.used
  used : c'.used = c.used \ {i}
  recs : ∀ j ∈ c'.used, c'.recs j = c.recs j

/-- A core touches none of its records. -/
lemma Untouched.refl (c : Core) : Untouched c c := ⟨rfl, fun _ _ => rfl⟩

/-- Two steps that touch no record touch none. -/
lemma Untouched.trans (h : Untouched c c') (h' : Untouched c' c'') : Untouched c c'' :=
  ⟨h'.used.trans h.used, fun j hj => (h'.recs j (h.used ▸ hj)).trans (h.recs j hj)⟩

/-- A record that is lent after a step that touches none. -/
lemma Untouched.lent (hu : Untouched c c') (hl : Lent c' c'' h v i) : Lent c c'' h v i where
  new := hu.used ▸ hl.new
  used := by rw [hl.used, hu.used]
  key := hl.key
  value := hl.value
  recs j hj := (hl.recs j (hu.used ▸ hj)).trans (hu.recs j hj)

/-- A record that is lent before a step that touches none. -/
lemma Lent.untouched (hl : Lent c c' h v i) (hu : Untouched c' c'') : Lent c c'' h v i := by
  have hi : i ∈ c'.used := hl.used ▸ Set.mem_insert _ _
  refine ⟨hl.new, hu.used.trans hl.used, ?_, ?_, fun j hj => ?_⟩
  · rw [Core.keyOf, hu.recs i hi]
    exact hl.key
  · rw [hu.recs i hi]
    exact hl.value
  · rw [hu.recs j (hl.used ▸ Set.mem_insert_of_mem _ hj)]
    exact hl.recs j hj

/-- A record that is dismissed before a step that touches none. -/
lemma Dismissed.untouched (hd : Dismissed c c' i) (hu : Untouched c' c'') : Dismissed c c'' i where
  old := hd.old
  used := hu.used.trans hd.used
  recs j hj := by
    rw [hu.used] at hj
    rw [hu.recs j hj, hd.recs j hj]

/-- A live record is in use. -/
lemma Stored.live_subset_used (hs : Stored c) : c.live ⊆ c.used :=
  fun i hi => ⟨hs.lt i hi, hs.notFree i hi, hs.flags i hi⟩

/-- The store is the same. -/
lemma Untouched.of_store (hr : c'.recs = c.recs) (hc : c'.count = c.count)
    (hf : c'.freeIdx = c.freeIdx) :
    Untouched c c' := by
  refine ⟨?_, fun j _ => congrFun hr j⟩
  rw [Core.used, hr, hc, hf, Core.used]

/-- Words and hints do not matter. -/
lemma Frame.untouched (hf : Frame c c') : Untouched c c' := .of_store hf.recs hf.count hf.freeIdx

/-- A table with the same store. -/
lemma Tidy.of_store (ht : Tidy c pend) (hs : Stored c') (hr : c'.recs = c.recs)
    (hc : c'.count = c.count) (hf : c'.freeIdx = c.freeIdx) : Tidy c' pend := by
  refine ⟨hs, ?_, ht.nodup⟩
  rw [hr, hc, hf]
  exact ht.waiting

/-- A record that waits is not live. -/
lemma Tidy.notLive (ht : Tidy c pend) (hi : i ∈ pend) : i ∉ c.live :=
  fun hl => (ht.waiting i hi).2.2 (ht.flags i hl)

/-! ## Freeing -/

/-- A record that is freed is not in use. -/
lemma used_arenaFree (c : Core) (i : ℕ) : (c.arenaFree i).used = c.used \ {i} := by
  ext j
  change j < c.count ∧ j ∉ i :: c.freeIdx ∧ (Function.update c.recs i _ j).flags = 0 ↔
    (j < c.count ∧ j ∉ c.freeIdx ∧ (c.recs j).flags = 0) ∧ j ≠ i
  by_cases hj : j = i
  · subst hj
    simp only [List.mem_cons, true_or, not_true_eq_false, false_and, and_false, ne_eq]
  · rw [List.mem_cons, Function.update_of_ne hj]
    tauto

/-- Freeing a record spares the others. -/
lemma recs_arenaFree {j : ℕ} (hj : j ≠ i) : (c.arenaFree i).recs j = c.recs j :=
  Function.update_of_ne hj ..

/-- Freeing a record keeps the others waiting. -/
lemma waiting_arenaFree (hw : ∀ j ∈ pend, j < c.count ∧ j ∉ c.freeIdx ∧ (c.recs j).flags ≠ 0)
    (hi : i ∉ pend) :
    ∀ j ∈ pend, j < (c.arenaFree i).count ∧ j ∉ (c.arenaFree i).freeIdx ∧
      ((c.arenaFree i).recs j).flags ≠ 0 := by
  intro j hj
  obtain ⟨hlt, hn, hf⟩ := hw j hj
  have hne : j ≠ i := by
    rintro rfl
    exact hi hj
  refine ⟨hlt, ?_, ?_⟩
  · change j ∉ i :: c.freeIdx
    rw [List.mem_cons, not_or]
    exact ⟨hne, hn⟩
  · rw [recs_arenaFree hne]
    exact hf

/-- A ready record does not wait. -/
lemma Tidy.notMem_of_ready (ht : Tidy c pend) (hr : Ready c i) : i ∉ pend :=
  fun hi => (ht.waiting i hi).2.2 hr.flags

/-- A ready record can be freed again. -/
lemma Tidy.arenaFree (ht : Tidy c pend) (hr : Ready c i) : Tidy (c.arenaFree i) pend where
  toStored := ht.toStored.arenaFree hr
  waiting := waiting_arenaFree ht.waiting (ht.notMem_of_ready hr)
  nodup := ht.nodup

/-- A record that waits is freed. -/
lemma Tidy.release (ht : Tidy c (i :: pend)) : Tidy (c.arenaFree i) pend := by
  obtain ⟨hlt, hn, -⟩ := ht.waiting i (List.mem_cons_self ..)
  obtain ⟨hi, hnd⟩ := List.nodup_cons.mp ht.nodup
  have hl : i ∉ c.live := ht.notLive (List.mem_cons_self ..)
  refine ⟨ht.toStored.store ⟨face_update_of_notLive hl, ht.lt, fun k hk => ?_,
    List.nodup_cons.mpr ⟨hn, ht.freeNodup⟩,
    fun k hk => ?_⟩, waiting_arenaFree (fun j hj => ht.waiting j (List.mem_cons_of_mem _ hj)) hi,
      hnd⟩
  · rw [List.mem_cons, not_or]
    refine ⟨?_, ht.notFree k hk⟩
    rintro rfl
    exact hl hk
  · rcases List.mem_cons.mp hk with rfl | hk
    · exact hlt
    · exact ht.freeLt k hk

/-- Freeing a record that waits does not touch the records in use. -/
lemma Tidy.release_untouched (ht : Tidy c (i :: pend)) : Untouched c (c.arenaFree i) := by
  have hi : i ∉ c.used := fun hu => (ht.waiting i (List.mem_cons_self ..)).2.2 hu.2.2
  refine ⟨?_, fun j hj => recs_arenaFree ?_⟩
  · rw [used_arenaFree, Set.sdiff_singleton_eq_self hi]
  · rintro rfl
    exact hi hj

/-- The order of the waiting records does not matter. -/
lemma Tidy.perm {pend' : List ℕ} (ht : Tidy c pend) (hp : pend.Perm pend') : Tidy c pend' :=
  ⟨ht.toStored, fun i hi => ht.waiting i (hp.mem_iff.mpr hi), hp.nodup_iff.mp ht.nodup⟩

/-! ## Allocating -/

/-- The allocated record was not in use and does not wait. -/
lemma Alloced.fresh (ha : Alloced t t' i h ph v) : ¬ (i < t.count ∧ i ∉ t.freeIdx) := by
  rintro ⟨hlt, hn⟩
  rcases ha.source with hs | hs
  · exact hn hs
  · exact absurd hlt (by rw [hs]; exact lt_irrefl _)

/-- An allocation brings a record into use. -/
lemma Alloced.lent (ha : Alloced t t' i h ph v) : Lent t.toCore t'.toCore h v i := by
  have hi : i ∉ t.used := fun hu => ha.fresh ⟨hu.1, hu.2.1⟩
  obtain ⟨gen, hrec⟩ := ha.rec_self
  refine ⟨hi, ?_, ha.keyOf_self, by rw [hrec], fun j hj => ha.recs_of_ne (fun he => hi (he ▸ hj))⟩
  ext j
  rw [Set.mem_insert_iff]
  by_cases hj : j = i
  · subst hj
    exact iff_of_true ⟨ha.lt, ha.notFree, by rw [hrec]⟩ (.inl rfl)
  · change j < t'.count ∧ j ∉ t'.freeIdx ∧ (t'.recs j).flags = 0 ↔ _
    rw [ha.recs_of_ne hj]
    constructor
    · rintro ⟨hlt, hn, hf⟩
      exact .inr ⟨ha.countLt j hlt hj, fun hm => hn (ha.freeKeep j hm hj), hf⟩
    · rintro (he | ⟨hlt, hn, hf⟩)
      · exact absurd he hj
      · exact ⟨hlt.trans_le ha.countLe, fun hm => hn (ha.freeSub hm), hf⟩

/-- An allocation leaves the waiting records alone. -/
lemma Alloced.tidy (ha : Alloced t t' i h ph v) (ht : Tidy t.toCore pend) :
    Tidy t'.toCore pend where
  toStored := ha.stored ht.toStored
  waiting j hj := by
    obtain ⟨hlt, hn, hf⟩ := ht.waiting j hj
    have hne : j ≠ i := by
      rintro rfl
      exact ha.fresh ⟨hlt, hn⟩
    refine ⟨hlt.trans_le ha.countLe, fun hm => hn (ha.freeSub hm), ?_⟩
    rw [ha.recs_of_ne hne]
    exact hf
  nodup := ht.nodup

/-! ## An attempt of `htc_insert` -/

/-- No record was freed. -/
def FreeKept (c c' : Core) : Prop := ∀ j ∈ c'.freeIdx, j ∈ c.freeIdx ∧ c'.recs j = c.recs j

/-- The records that were freed are zeroed. -/
def FreeZeroed (c c' : Core) : Prop :=
  ∀ j ∈ c'.freeIdx, c'.keyOf j = 0 ∨ j ∈ c.freeIdx ∧ c'.recs j = c.recs j

/-- Free records that are kept are zeroed or kept. -/
lemma FreeKept.zeroed (hk : FreeKept c c') : FreeZeroed c c' := fun j hj => .inr (hk j hj)

/-- A step that keeps the store keeps the free records. -/
lemma FreeKept.of_store (hr : c'.recs = c.recs) (hf : c'.freeIdx = c.freeIdx) : FreeKept c c' :=
  fun j hj => ⟨hf ▸ hj, congrFun hr j⟩

/-- The free records of a core are its own. -/
lemma FreeZeroed.refl (c : Core) : FreeZeroed c c := fun _ hj => .inr ⟨hj, rfl⟩

/-- Two steps that keep or zero the free records. -/
lemma FreeZeroed.trans (h : FreeZeroed c c') (h' : FreeZeroed c' c'') : FreeZeroed c c'' := by
  intro j hj
  rcases h' j hj with hz | ⟨hm, hr⟩
  · exact .inl hz
  · rcases h j hm with hz | ⟨hm', hr'⟩
    · left
      rw [Core.keyOf, hr]
      exact hz
    · exact .inr ⟨hm', hr.trans hr'⟩

/-- `htc_arena_free` zeroes the record. -/
lemma freeZeroed_arenaFree (c : Core) (i : ℕ) : FreeZeroed c (c.arenaFree i) := by
  intro j hj
  by_cases hji : j = i
  · subst hji
    left
    change (Function.update c.recs j _ j).identityHash = 0
    rw [Function.update_self]
    rfl
  · exact .inr ⟨(List.mem_cons.mp hj).resolve_left hji, recs_arenaFree hji⟩

/-- What an attempt does to the records in use. -/
def AttemptTidy (h v : ℕ) (pend : List ℕ) (t : Table) : Attempt → Prop
  | .stop e t' => e ≠ .ok ∧ Tidy t'.toCore pend ∧ Untouched t.toCore t'.toCore ∧
    FreeKept t.toCore t'.toCore
  | .entered t' => Tidy t'.toCore pend ∧ FreeKept t.toCore t'.toCore ∧
      ∃ i, Lent t.toCore t'.toCore h v i ∧ i ∈ t'.live
  | .overflow t' => Tidy t'.toCore pend ∧ Untouched t.toCore t'.toCore ∧
    FreeZeroed t.toCore t'.toCore

/-- An allocation frees nothing. -/
lemma Alloced.freeKept (ha : Alloced t t' i h ph v) (hf : Frame t'.toCore c) :
    FreeKept t.toCore c := by
  intro j hj
  rw [hf.freeIdx] at hj
  rw [hf.recs]
  refine ⟨ha.freeSub hj, ha.recs_of_ne ?_⟩
  rintro rfl
  exact ha.notFree hj

/-- The stash of the shard does not hold a key that the duplicate check did not find. -/
lemma Stored.stash_none {t₁ : Table} {g : Gen} {b tag : ℕ} (hs : Stored t.toCore)
    (hf : htcSearch t.toCore h false = none) (ha : Alloced t t₁ i h (placementHash h t.gen.seed) v)
    (hb : Bumped b tag t₁.gen g) :
    ¬ (htcStashFind
      (t₁.shards (Core.shardAt { t₁.toCore with gen := g } (placementHash h g.seed))) t₁.recs h
      (tag16 (placementHash h g.seed))).isSome = true := by
  have hseed : g.seed = t.gen.seed := by rw [hb.seed, ha.gen]
  have hshards : t₁.shards = t.shards := by rw [ha.core]
  have hat : Core.shardAt { t₁.toCore with gen := g } (placementHash h g.seed) =
      t.shardAt (placementHash h t.gen.seed) := by
    have hcount : t₁.shardCount = t.shardCount := by rw [ha.core]
    change shardOf (g.primary _) t₁.shardCount = shardOf (t.gen.primary _) t.shardCount
    rw [hseed, hb.primary, ha.gen, hcount]
  have hnone : htcStashFind (t.shards (t.shardAt (placementHash h t.gen.seed))) t.recs h
      (tag16 (placementHash h t.gen.seed)) = none := by
    rcases htcSearch_cases t.toCore h false with ⟨k, he, -⟩ | ⟨k, he, -⟩ | ⟨k, he, -⟩ | ⟨k, he, -⟩ |
      ⟨-, -, -, h3, -⟩
    · exact absurd (hf.symm.trans he) (Option.some_ne_none _).symm
    · exact absurd (hf.symm.trans he) (Option.some_ne_none _).symm
    · exact absurd (hf.symm.trans he) (Option.some_ne_none _).symm
    · exact absurd (hf.symm.trans he) (Option.some_ne_none _).symm
    · exact h3
  rw [hat, hshards, hseed]
  intro hsome
  obtain ⟨j, hj⟩ := Option.isSome_iff_exists.mp hsome
  obtain ⟨w, hlt, hw, hfor⟩ := htcStashFind_some (c := t₁.toCore) hj
  have hl : w.idx ∈ t.live := mem_live (p := .shard _ j) hw
  have hmiss := htcStashFind_none (hs.shards _) hnone hlt hw
  rw [Word.isFor, ha.same.recs _ hl] at hfor
  rw [Word.isFor, hfor] at hmiss
  cases hmiss

/-- The stash section as the end of an attempt. -/
lemma Alloced.attemptStash_tidy {t₁ : Table} {g : Gen} {b tag : ℕ}
    (ha : Alloced t t₁ i h (placementHash h t.gen.seed) v) (ht : Tidy t.toCore pend)
    (hf : htcSearch t.toCore h false = none) (hb : Bumped b tag t₁.gen g) :
    AttemptTidy h v pend t (attemptStash h i { t₁ with gen := g }) := by
  have hp := ha.held ht.toStored hb
  have hfr : Frame t₁.toCore { t₁.toCore with gen := g } := .ofGen hb.numBuckets hb.seed
  have ht' : Tidy { t₁.toCore with gen := g } pend := (ha.tidy ht).of_store hp.stored rfl rfl rfl
  have hl : Lent t.toCore { t₁.toCore with gen := g } h v i := ha.lent.untouched hfr.untouched
  rw [Htc.attemptStash]
  rcases insertStash_cases hp.stored hp.ready h with ⟨he, -⟩ | ⟨c', he, hj, -⟩ | he
  · exfalso
    simp only [insertStash] at he
    rw [if_neg (ht.toStored.stash_none hf ha hb)] at he
    split at he <;> cases he
  · rw [he]
    exact ⟨ht'.of_store hj.stored hj.frame.recs hj.frame.count hj.frame.freeIdx,
      ha.freeKept (hfr.trans hj.frame), i,
      hl.untouched hj.frame.untouched, hj.live ▸ Set.mem_insert _ _⟩
  · rw [he]
    refine ⟨ht'.arenaFree hp.ready, ⟨?_, fun j hj => ?_⟩,
      (ha.freeKept hfr).zeroed.trans (freeZeroed_arenaFree _ i)⟩
    · change (Core.arenaFree { t₁.toCore with gen := g } i).used = t.used
      rw [used_arenaFree, hl.used, Set.insert_sdiff_self_of_notMem hl.new]
    · have hne : j ≠ i := by
        rintro rfl
        exact hl.new hj
      exact (recs_arenaFree hne).trans (hl.recs j hj)

/-- An attempt of `htc_insert` and the records in use. -/
lemma insertAttempt_tidy (ht : Tidy t.toCore pend) (h v : ℕ) :
    AttemptTidy h v pend t (insertAttempt h v t) := by
  rw [insertAttempt]
  rcases insertTry_cases ht.toStored h v with
    ⟨he, -⟩ | ⟨hf, ⟨m, he, -⟩ | ⟨i, t₁, g, ha, ⟨he, hg⟩ | ⟨b, tag, hb, ⟨p, d, he, hch⟩ | he⟩⟩⟩
  · rw [he]
    exact ⟨HtcError.noConfusion, ht, .refl _, fun j hj => ⟨hj, rfl⟩⟩
  · rw [he]
    exact ⟨HtcError.noConfusion, ht, .refl _, fun j hj => ⟨hj, rfl⟩⟩
  · rw [he]
    have hj := (ha.stored ht.toStored).placeDirect ha.ready hg
    exact ⟨(ha.tidy ht).of_store hj.stored hj.frame.recs hj.frame.count hj.frame.freeIdx,
      ha.freeKept hj.frame, i, ha.lent.untouched hj.frame.untouched, hj.live ▸ Set.mem_insert _ _⟩
  · rw [he]
    have hp := ha.held ht.toStored hb
    dsimp only
    cases hpath : insertPath i p { t₁.toCore with gen := g } with
    | none => exact ha.attemptStash_tidy ht hf hb
    | some c' =>
      obtain ⟨src, hv, rfl⟩ := Option.map_eq_some_iff.mp hpath
      have hj := hp.stored.commit hp.ready hch hv
      have hfr : Frame t₁.toCore { t₁.toCore with gen := g } := .ofGen hb.numBuckets hb.seed
      have hfr' := hfr.trans hj.frame
      exact ⟨(ha.tidy ht).of_store hj.stored hfr'.recs hfr'.count hfr'.freeIdx, ha.freeKept hfr', i,
        ha.lent.untouched hfr'.untouched, hj.live ▸ Set.mem_insert _ _⟩
  · rw [he]
    exact ha.attemptStash_tidy ht hf hb

/-! ## Growing -/

/-- A grow and the records in use. -/
lemma Grown.tidy {reseed : Bool} {e : HtcError} (hg : Grown reseed t e t')
    (ht : Tidy t.toCore pend) :
    Tidy t'.toCore pend ∧ Untouched t.toCore t'.toCore := by
  obtain ⟨hr, hc, hf, -⟩ := hg.store
  exact ⟨ht.of_store (hg.stored ht.toStored) hr hc hf, .of_store hr hc hf⟩

end Draugr.Htc
