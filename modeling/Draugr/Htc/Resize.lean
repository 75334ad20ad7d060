import Draugr.Htc.Migrate
import Draugr.Htc.Refine

/-!
# Calls during a lazy resize

`Resizing.Ok` is the invariant of a table that may be under a lazy resize: the table is settled, at
most one generation waits behind the current one, and its words are in `Mid`. An entry is in the
current generation and its stashes or waits in the old generation, and never both.

Every call keeps the invariant. What it does to the entries is what it does without a resize, but
for the keys that wait: `htc_remove` and `htc_update` may miss them, and `htc_find` does so unless
the front cache still has them.
-/

namespace Draugr.Htc
open Draugr.Lib

variable {c c' : Core} {g o o' orig : Gen} {s s' : Resizing} {t t' : Table} {h v i : ℕ} {m : KeyMap}
  {key value : UInt64}

/-- The records whose words wait for their migration. -/
def Resizing.waiting (s : Resizing) : Set ℕ :=
  match s.old with
  | [] => ∅
  | o :: _ => o.waiting

/-- The records of the words of both generations and of the stashes. -/
def Resizing.held (s : Resizing) : Set ℕ := s.live ∪ s.waiting

/-- The invariant of the runs with lazy resizes. -/
structure Resizing.Ok (s : Resizing) : Prop where
  settled : Settled s.toCore
  chain : s.old = [] ∨ ∃ o, s.old = [o] ∧ Mid s.toCore o
  pow : ∃ j, s.gen.numBuckets = 2 ^ j
  cache : ∀ k e, s.cache k = some e → e.idx ∈ s.held ∧ s.keyOf e.idx = e.hash
  size : (s.size : ℕ∞) = s.held.encard

/-- Without an old generation no record waits. -/
lemma waiting_nil (ho : s.old = []) : s.waiting = ∅ := by
  rw [Resizing.waiting, ho]

/-- The records that wait are those of the old generation. -/
lemma waiting_cons {os : List Gen} (ho : s.old = o :: os) : s.waiting = o.waiting := by
  rw [Resizing.waiting, ho]

/-- Different records that are held have different keys. -/
lemma Resizing.Ok.keys (hs : s.Ok) : Set.InjOn s.keyOf s.held := by
  rcases hs.chain with ho | ⟨o, ho, hm⟩
  · rw [Resizing.held, waiting_nil ho, Set.union_empty]
    exact hs.settled.keys
  · rw [Resizing.held, waiting_cons ho]
    exact hm.keys

/-- A record that waits is ready to join the table. -/
lemma Resizing.Ok.ready (hs : s.Ok) (hi : i ∈ s.waiting) : Ready s.toCore i := by
  rcases hs.chain with ho | ⟨o, ho, hm⟩
  · rw [waiting_nil ho] at hi
    exact hi.elim
  · rw [waiting_cons ho] at hi
    exact (hm.welcome hi).toReady

/-! ## Migrations -/

/-- What migrations do to a table under a resize. -/
structure Shifted (s s' : Resizing) : Prop where
  core : s'.toCore = { s.toCore with gen := s'.gen }
  table : s'.toTable = { s.toTable with toCore := s'.toCore }
  buckets : s'.gen.numBuckets = s.gen.numBuckets
  seed : s'.gen.seed = s.gen.seed
  load : s'.tableBuckets = s.tableBuckets
  held : s'.held = s.held
  live : s.live ⊆ s'.live
  waiting : s'.waiting ⊆ s.waiting
  bits : ∀ k, s.migrated k = true → s'.migrated k = true
  empty : s.old = [] ↔ s'.old = []

/-- Nothing is shifted by doing nothing. -/
lemma Shifted.refl (s : Resizing) : Shifted s s :=
  ⟨rfl, rfl, rfl, rfl, rfl, rfl, subset_rfl, subset_rfl, fun _ h => h, Iff.rfl⟩

/-- Shifts compose. -/
lemma Shifted.trans {s'' : Resizing} (h : Shifted s s') (h' : Shifted s' s'') : Shifted s s'' where
  core := by rw [h'.core, h.core]
  table := by rw [h'.table, h.table]
  buckets := h'.buckets.trans h.buckets
  seed := h'.seed.trans h.seed
  load := h'.load.trans h.load
  held := h'.held.trans h.held
  live := h.live.trans h'.live
  waiting := h'.waiting.trans h.waiting
  bits k hk := h'.bits k (h.bits k hk)
  empty := h.empty.trans h'.empty

/-- `htc_migrate_chunk` keeps the invariant. -/
lemma Resizing.Ok.migrateChunk (hs : s.Ok) (chunk : ℕ) :
    (htcMigrateChunk chunk s).Ok ∧ Shifted s (htcMigrateChunk chunk s) := by
  rcases hs.chain with ho | ⟨o, ho, hm⟩
  · have he : htcMigrateChunk chunk s = s := by rw [htcMigrateChunk, ho]
    rw [he]
    exact ⟨hs, .refl s⟩
  · have h := hm.migrateSlots (l := chunkSlots chunk s.gen o)
    rw [htcMigrateChunk, ho]
    dsimp only
    generalize (chunkSlots chunk s.gen o).foldl (migrateSlot s.recs) (s.gen, o) = r at h
    have hheld : ∀ (s' : Resizing),
        s'.live = Core.live { s.toCore with gen := r.1 } → s'.old = [r.2] → s'.held = s.held := by
      intro s' hl hold
      rw [Resizing.held, Resizing.held, waiting_cons hold, waiting_cons ho, hl]
      exact h.all
    refine ⟨⟨h.mid.settled, .inr ⟨r.2, rfl, h.mid⟩, ?_, ?_, ?_⟩,
      ⟨rfl, rfl, h.frame.numBuckets, h.frame.seed, rfl, hheld _ rfl rfl, h.live, ?_, ?_, ?_⟩⟩
    · change ∃ j, r.1.numBuckets = 2 ^ j
      rw [show r.1.numBuckets = s.gen.numBuckets from h.frame.numBuckets]
      exact hs.pow
    · intro k e he
      rw [hheld _ rfl rfl]
      exact hs.cache k e he
    · rw [hheld _ rfl rfl]
      exact hs.size
    · rw [waiting_cons ho]
      rintro j ⟨x, w, hx, rfl⟩
      exact ⟨x, w, h.only x w hx, rfl⟩
    · intro k hk
      by_cases hc : k = chunk
      · subst hc
        exact Function.update_self ..
      · rw [← hk]
        exact Function.update_of_ne hc ..
    · rw [ho]
      exact iff_of_false (List.cons_ne_nil _ _) (List.cons_ne_nil _ _)

/-- `htc_ensure_chunk_migrated` keeps the invariant. -/
lemma Resizing.Ok.ensureChunk (hs : s.Ok) (bucket : ℕ) :
    (htcEnsureChunkMigrated bucket s).Ok ∧ Shifted s (htcEnsureChunkMigrated bucket s) := by
  rw [htcEnsureChunkMigrated]
  split
  · exact ⟨hs, .refl s⟩
  split
  · exact ⟨hs, .refl s⟩
  split
  · exact ⟨hs, .refl s⟩
  · exact hs.migrateChunk _

/-- The migrations at the start of a call keep the invariant. -/
lemma Resizing.Ok.ensure (hs : s.Ok) (h : ℕ) : (s.ensure h).Ok ∧ Shifted s (s.ensure h) := by
  have h1 := hs.ensureChunk (s.gen.primary (placementHash h s.gen.seed))
  rw [Resizing.ensure]
  split
  · have h2 := h1.1.ensureChunk (s.gen.secondary (placementHash h s.gen.seed))
    exact ⟨h2.1, h1.2.trans h2.2⟩
  · exact h1

/-- A bucket whose chunk needs no migration. -/
def Resizing.Ensured (s : Resizing) (bucket : ℕ) : Prop :=
  s.old = [] ∨ s.migrated (chunkOf bucket) = true

/-- A bucket whose chunk needs no migration is passed. -/
lemma Resizing.Ensured.eq {b : ℕ} (he : s.Ensured b) : htcEnsureChunkMigrated b s = s := by
  rw [htcEnsureChunkMigrated]
  rcases he with he | he
  · rw [if_pos (by rw [he]; rfl)]
  · split
    · rfl
    split
    · rfl
    · rfl

/-- Migrations leave ensured buckets ensured. -/
lemma Shifted.ensured {b : ℕ} (h : Shifted s s') (he : s.Ensured b) : s'.Ensured b := by
  rcases he with he | he
  · exact .inl (h.empty.mp he)
  · exact .inr (h.bits _ he)

/-- The chunk of a bucket of the table is one of its chunks. -/
lemma chunkOf_lt {b : ℕ} (hb : b < g.numBuckets) : chunkOf b < g.chunkCount := by
  rw [chunkOf, Gen.chunkCount, chunkSize]
  omega

/-- A bucket of the table is ensured by `htc_ensure_chunk_migrated`. -/
lemma ensured_ensureChunk {b : ℕ} (hb : b < s.gen.numBuckets) :
    (htcEnsureChunkMigrated b s).Ensured b := by
  rw [htcEnsureChunkMigrated]
  split
  · next he => exact .inl (List.isEmpty_iff.mp he)
  rw [if_neg (not_le.mpr (chunkOf_lt hb))]
  split
  · next hm => exact .inr hm
  · rw [htcMigrateChunk]
    split
    · next he => exact .inl he
    · exact .inr (Function.update_self ..)

/-- The migrations at the start of a call are not repeated. -/
lemma Resizing.Ok.ensure_ensure (hs : s.Ok) (h : ℕ) : (s.ensure h).ensure h = s.ensure h := by
  obtain ⟨j, hj⟩ := hs.pow
  have hpos : 0 < s.gen.numBuckets := by
    rw [hj]
    exact Nat.two_pow_pos j
  have hs1 := hs.ensureChunk (s.gen.primary (placementHash h s.gen.seed))
  have h1 := ensured_ensureChunk (s := s) (b := s.gen.primary (placementHash h s.gen.seed))
    (Nat.mod_lt _ hpos)
  have h' := (hs.ensure h).2
  have hp : ∀ ph, (s.ensure h).gen.primary ph = s.gen.primary ph := fun ph => by
    rw [Gen.primary, h'.buckets, Gen.primary]
  have hsec : ∀ ph, (s.ensure h).gen.secondary ph = s.gen.secondary ph := fun ph => by
    rw [Gen.secondary, hp, h'.buckets, Gen.secondary]
  rw [Resizing.ensure]
  rw [h'.seed, hp, hsec]
  generalize hb1 : s.gen.primary (placementHash h s.gen.seed) = b1 at *
  generalize hb2 : s.gen.secondary (placementHash h s.gen.seed) = b2 at *
  have he : s.ensure h = if b2 ≠ b1 then htcEnsureChunkMigrated b2 (htcEnsureChunkMigrated b1 s)
      else htcEnsureChunkMigrated b1 s := by
    rw [Resizing.ensure]
    rw [hb1, hb2]
  by_cases hne : b2 ≠ b1
  · rw [if_pos hne]
    rw [if_pos hne] at he
    have hlt : b2 < (htcEnsureChunkMigrated b1 s).gen.numBuckets := by
      rw [hs1.2.buckets, ← hb2]
      exact Nat.mod_lt _ hpos
    have h2 := ensured_ensureChunk hlt
    have h1' := (hs1.1.ensureChunk b2).2.ensured h1
    rw [he, h1'.eq, h2.eq]
  · rw [if_neg hne]
    rw [if_neg hne] at he
    rw [he, h1.eq]

/-! ## Entries -/

/-- A key and its value wait for their migration. -/
def Resizing.Waits (s : Resizing) (h v : ℕ) : Prop :=
  ∃ i ∈ s.waiting, s.keyOf i = h ∧ (s.recs i).userValue = v

/-- An entry of the table is in the current generation or waits. -/
def Resizing.Entry (s : Resizing) (h v : ℕ) : Prop := s.Has h v ∨ s.Waits h v

/-- The entries are those of the records that are held. -/
lemma entry_iff : s.Entry h v ↔ ∃ i ∈ s.held, s.keyOf i = h ∧ (s.recs i).userValue = v := by
  constructor
  · rintro (⟨i, hi, hk⟩ | ⟨i, hi, hk⟩)
    · exact ⟨i, .inl hi, hk⟩
    · exact ⟨i, .inr hi, hk⟩
  · rintro ⟨i, hi | hi, hk⟩
    · exact .inl ⟨i, hi, hk⟩
    · exact .inr ⟨i, hi, hk⟩

/-- Migrations change no record. -/
lemma Shifted.recs (h : Shifted s s') : s'.recs = s.recs := by rw [h.core]

/-- Migrations leave the global stash alone. -/
lemma Shifted.hidden (hsh : Shifted s s') : s'.Hidden h ↔ s.Hidden h := by rw [hsh.core]; rfl

/-- Migrations keep the entries. -/
lemma Shifted.entry (hsh : Shifted s s') : s'.Entry h v ↔ s.Entry h v := by
  rw [entry_iff, entry_iff, hsh.held]
  simp only [Core.keyOf, hsh.recs]

/-- A key that does not wait does not wait after migrations. -/
lemma Shifted.waits (hsh : Shifted s s') (hw : s'.Waits h v) : s.Waits h v := by
  obtain ⟨i, hi, hk⟩ := hw
  rw [Core.keyOf, hsh.recs] at hk
  exact ⟨i, hsh.waiting hi, hk⟩

/-- `htc_find_in_old_gen` finds what waits. -/
lemma Resizing.Ok.findInOldGen (hs : s.Ok) : htcFindInOldGen s.recs h s.old = some v ↔
    s.Waits h v := by
  rcases hs.chain with ho | ⟨o, ho, hm⟩
  · rw [Resizing.Waits, waiting_nil ho, ho]
    refine iff_of_false (fun hf => by cases hf) ?_
    rintro ⟨i, hi, -⟩
    exact hi
  · rw [Resizing.Waits, waiting_cons ho, ho]
    exact hm.findInOldGen

/-- A key that `htc_find_in_old_gen` does not find does not wait. -/
lemma Resizing.Ok.findInOldGen_none (hs : s.Ok) : htcFindInOldGen s.recs h s.old = none ↔
    ∀ v, ¬ s.Waits h v := by
  rw [Option.eq_none_iff_forall_ne_some]
  exact forall_congr' fun v => not_congr hs.findInOldGen

/-- The slow search finds the entries of the current generation and of the stashes. -/
lemma Settled.slowFind_iff (hs : Settled c) : htcDebugSlowFind h c = some v ↔ c.Has h v := by
  rw [htcDebugSlowFind, hs.slowSearch_eq]
  constructor
  · intro hf
    obtain ⟨p, hp, rfl⟩ := Option.map_eq_some_iff.mp hf
    obtain ⟨hl, hk⟩ := search_hit hp
    exact ⟨_, hl, hk, rfl⟩
  · rintro ⟨i, ⟨p, w, hp, rfl⟩, hk, rfl⟩
    rw [hs.search_eq_some.mpr ⟨w, hp, hk⟩, Option.map_some, idxAt_eq hp]

/-- A key is not both in the current generation and in the old one. -/
lemma Resizing.Ok.apart (hs : s.Ok) {u : ℕ} (hh : s.Has h v) : ¬ s.Waits h u := by
  rintro ⟨j, hj, hkj, -⟩
  obtain ⟨i, hi, hki, -⟩ := hh
  have he := hs.keys (.inl hi) (.inr hj) (hki.trans hkj.symm)
  subst he
  exact (hs.ready hj).notLive hi

/-! ## Partial maps -/

/-- The map has the entries `P`. -/
def Represents (P : ℕ → ℕ → Prop) (m : KeyMap) : Prop :=
  ∀ h v, P h v ↔ ∃ key value : UInt64, key.toNat = h ∧ value.toNat = v ∧ m key = some value

variable {P P' : ℕ → ℕ → Prop}

/-- The map of an equal relation. -/
lemma Represents.congr (hr : Represents P m) (he : ∀ h v, P' h v ↔ P h v) : Represents P' m :=
  fun h v => (he h v).trans (hr h v)

/-- A key is related to the value of the map. -/
lemma Represents.some_iff (hr : Represents P m) : P key.toNat v ↔
    ∃ value : UInt64, value.toNat = v ∧ m key = some value := by
  rw [hr]
  constructor
  · rintro ⟨k, u, hk, hu, hm⟩
    rw [UInt64.toNat_inj] at hk
    exact ⟨u, hu, hk ▸ hm⟩
  · rintro ⟨u, hu, hm⟩
    exact ⟨key, u, rfl, hu, hm⟩

/-- A key that the map does not have is related to nothing. -/
lemma Represents.none_iff (hr : Represents P m) : m key = none ↔ ∀ v, ¬ P key.toNat v := by
  rw [Option.eq_none_iff_forall_ne_some]
  constructor
  · intro hm v hv
    obtain ⟨u, -, hu⟩ := hr.some_iff.mp hv
    exact hm u hu
  · intro hn u hu
    exact hn _ (hr.some_iff.mpr ⟨u, rfl, hu⟩)

/-- The map after the value of a key was set. -/
lemma Represents.put (hr : Represents P m)
    (he : ∀ h v, P' h v ↔ if h = key.toNat then v = value.toNat else P h v) :
    Represents P' (Function.update m key (some value)) := by
  intro k u
  rw [he]
  split
  · next hk =>
    subst hk
    constructor
    · rintro rfl
      exact ⟨key, value, rfl, rfl, Function.update_self ..⟩
    · rintro ⟨k, w, hk, rfl, hm⟩
      rw [UInt64.toNat_inj] at hk
      rw [hk, Function.update_self] at hm
      cases hm
      rfl
  · next hk =>
    rw [hr]
    refine exists_congr fun k' => exists_congr fun w => and_congr_right fun hk' => and_congr_right
      fun _ => ?_
    rw [Function.update_of_ne]
    rintro rfl
    exact hk hk'.symm

/-- The map after a key was taken out. -/
lemma Represents.erase (hr : Represents P m) (he : ∀ h v, P' h v ↔ h ≠ key.toNat ∧ P h v) :
    Represents P' (Function.update m key none) := by
  intro k u
  rw [he, hr]
  constructor
  · rintro ⟨hne, k', w, rfl, rfl, hm⟩
    refine ⟨k', w, rfl, rfl, ?_⟩
    rw [Function.update_of_ne]
    · exact hm
    · rintro rfl
      exact hne rfl
  · rintro ⟨k', w, rfl, rfl, hm⟩
    obtain ⟨hne, hm⟩ := update_none_cases hm
    exact ⟨fun he => hne (UInt64.toNat_inj.mp he), k', w, rfl, rfl, hm⟩

/-- What the state of a run and the map have to do with each other: `htc_size` is the number of
keys, and each key is found by the slow search or by `htc_find_in_old_gen`, but not by both. -/
def LazyAgrees (m : KeyMap) (s : Resizing) : Prop :=
  (s.size : ℕ∞) = {key | m key ≠ none}.encard ∧ ∀ key : UInt64,
    (htcDebugSlowFind key.toNat s.toCore = (m key).map UInt64.toNat ∧
      htcFindInOldGen s.recs key.toNat s.old = none) ∨
    (htcDebugSlowFind key.toNat s.toCore = none ∧
      htcFindInOldGen s.recs key.toNat s.old = (m key).map UInt64.toNat)

/-- A state that meets the invariant agrees with the map of its entries. -/
lemma Resizing.Ok.agrees (hs : s.Ok) (hr : Represents s.Entry m) : LazyAgrees m s := by
  refine ⟨?_, fun key => ?_⟩
  · have himg : s.keyOf '' s.held = UInt64.toNat '' {key | m key ≠ none} := by
      ext k
      constructor
      · rintro ⟨i, hi, rfl⟩
        obtain ⟨key, value, hk, -, hm⟩ := (hr _ _).mp (entry_iff.mpr ⟨i, hi, rfl, rfl⟩)
        refine ⟨key, ?_, hk⟩
        rw [Set.mem_ofPred_eq, hm]
        exact Option.some_ne_none _
      · rintro ⟨key, hm, rfl⟩
        obtain ⟨value, hm⟩ := Option.ne_none_iff_exists'.mp hm
        obtain ⟨i, hi, hk, -⟩ := entry_iff.mp (hr.some_iff.mpr ⟨value, rfl, hm⟩)
        exact ⟨i, hi, hk⟩
    have hinj : Function.Injective UInt64.toNat := fun a b h => UInt64.toNat_inj.mp h
    rw [hs.size, ← hs.keys.encard_image, himg, hinj.encard_image]
  · cases hm : m key with
    | none =>
      have hn := hr.none_iff.mp hm
      refine .inl ⟨?_, hs.findInOldGen_none.mpr fun v hv => hn v (.inr hv)⟩
      rw [Option.map_none, Option.eq_none_iff_forall_ne_some]
      exact fun v hv => hn v (.inl (hs.settled.slowFind_iff.mp hv))
    | some u =>
      rw [Option.map_some]
      rcases hr.some_iff.mpr ⟨u, rfl, hm⟩ with hh | hw
      · exact .inl ⟨hs.settled.slowFind_iff.mpr hh, hs.findInOldGen_none.mpr fun v => hs.apart hh⟩
      · refine .inr ⟨?_, hs.findInOldGen.mpr hw⟩
        rw [Option.eq_none_iff_forall_ne_some]
        exact fun v hv => hs.apart (hs.settled.slowFind_iff.mp hv) hw

/-! ## Calls -/

/-- A call that leaves the records that wait alone. -/
lemma Resizing.Ok.client (hs : s.Ok) (t' : Table) (hset : Settled t'.toCore)
    (hn : t'.gen.numBuckets = s.gen.numBuckets) (hsd : t'.gen.seed = s.gen.seed)
    (hw : ∀ i ∈ s.waiting, Ready t'.toCore i ∧ t'.recs i = s.recs i)
    (hk : Set.InjOn t'.keyOf (t'.live ∪ s.waiting))
    (hc : ∀ k e, t'.cache k = some e → e.idx ∈ t'.live ∪ s.waiting ∧ t'.keyOf e.idx = e.hash)
    (hsz : (t'.size : ℕ∞) = (t'.live ∪ s.waiting).encard) :
    Resizing.Ok { s with toTable := t' } := by
  have hwait : Resizing.waiting { s with toTable := t' } = s.waiting := rfl
  refine ⟨hset, ?_, ?_, hc, hsz⟩
  · rcases hs.chain with ho | ⟨o, ho, hm⟩
    · exact .inl ho
    · rw [waiting_cons ho] at hw hk
      refine .inr ⟨o, ho, hset, hm.seed.trans hsd.symm, ?_, hm.separate, fun i hi => ?_,
        fun i hi => (hw i hi).1.notLive,
        fun i hi => ?_, fun x w hx => ?_, fun x w hx => ?_, fun x w hx => ?_, fun x w hx => ?_, hk⟩
      · obtain ⟨j, k, hj, hg⟩ := hm.grows
        exact ⟨j, k, hj, hn.trans hg⟩
      · exact ⟨(hw i hi).1.lt, (hw i hi).1.notFree, (hw i hi).1.flags⟩
      · rw [Core.hashOf, Core.keyOf, (hw i hi).2, hsd]
        exact hm.keyed i hi
      · rw [Core.hashOf, Core.keyOf, (hw _ (mem_waiting hx)).2, hsd]
        exact hm.tag x w hx
      · rw [Core.hashOf, Core.keyOf, (hw _ (mem_waiting hx)).2, hsd]
        exact hm.seat x w hx
      · rw [Core.hashOf, Core.keyOf, (hw _ (mem_waiting hx)).2, hsd]
        exact hm.apart x w hx
      · rw [Core.hashOf, Core.keyOf, (hw _ (mem_waiting hx)).2, hsd]
        exact hm.hint x w hx
  · obtain ⟨j, hj⟩ := hs.pow
    exact ⟨j, hn.trans hj⟩

/-- A record that is held is in use. -/
lemma Resizing.Ok.held_subset_used (hs : s.Ok) : s.held ⊆ s.used := by
  rintro i (hi | hi)
  · exact hs.settled.toStored.live_subset_used hi
  · exact ⟨(hs.ready hi).lt, (hs.ready hi).notFree, (hs.ready hi).flags⟩

/-- What waits while the records that wait stay the same. -/
lemma waits_of_recs (t' : Table) (hw : ∀ i ∈ s.waiting, t'.recs i = s.recs i) :
    Resizing.Waits { s with toTable := t' } h v ↔ s.Waits h v := by
  refine exists_congr fun i => and_congr_right fun hi => ?_
  have hi' : i ∈ s.waiting := hi
  change (t'.recs i).identityHash = h ∧ (t'.recs i).userValue = v ↔ _
  rw [hw i hi', Core.keyOf]

/-- A call that leaves the records in use, the live ones and the front cache alone. -/
lemma Resizing.Ok.untouched (hs : s.Ok) (hset : Settled t'.toCore) (hsame : Same s.toCore t'.toCore)
    (hu : Untouched s.toCore t'.toCore) (hk : Kept s.toCore t'.toCore) (hb : Beside s.toTable t') :
    Resizing.Ok { s with toTable := t' } ∧ ∀ k u, Resizing.Entry { s with toTable := t' } k u ↔
      s.Entry k u := by
  obtain ⟨hcache, hsize, -⟩ := hb.rest
  have hrec : ∀ i ∈ s.held, t'.recs i = s.recs i := fun i hi => hu.recs i (hs.held_subset_used hi)
  have hheld : t'.live ∪ s.waiting = s.held := by rw [hsame.live, Resizing.held]
  have hkey :
      ∀ i ∈ s.held,
        t'.keyOf i = s.keyOf i := fun i hi => congrArg HtcRecord.identityHash (hrec i hi)
  refine ⟨hs.client t' hset hk.numBuckets hk.seed (fun i hi => ⟨?_, hrec i (.inr hi)⟩) ?_
    (fun k e he => ?_) ?_,
    fun k u => or_congr (hsame.has k u) (waits_of_recs t' fun i hi => hrec i (.inr hi))⟩
  · have hiu : i ∈ t'.used := hu.used ▸ hs.held_subset_used (.inr hi)
    exact ⟨hiu.1, hiu.2.1, hsame.live ▸ (hs.ready hi).notLive, hiu.2.2⟩
  · rw [hheld]
    exact hs.keys.congr fun i hi => (hkey i hi).symm
  · rw [hcache] at he
    rw [hheld, hkey _ (hs.cache k e he).1]
    exact hs.cache k e he
  · rw [hheld, hsize]
    exact hs.size

/-- A call that brings an entry into the current generation. -/
lemma Resizing.Ok.entered (hs : s.Ok) (hset : Settled t'.toCore)
    (he : Entered s.toCore t'.toCore h v)
    (hl : Lent s.toCore t'.toCore h v i) (hi : i ∈ t'.live) (hk : Kept s.toCore t'.toCore)
    (hb : Beside s.toTable t') (hn : ∀ u, ¬ s.Entry h u) :
    Resizing.Ok { s with toTable := { t' with size := t'.size + 1 } } ∧
      ∀ k u, Resizing.Entry { s with toTable := { t' with size := t'.size + 1 } } k u ↔
      (k = h ∧ u = v) ∨ s.Entry k u := by
  obtain ⟨hcache, hsize, -⟩ := hb.rest
  have hrec : ∀ j ∈ s.held, t'.recs j = s.recs j := fun j hj => hl.recs j (hs.held_subset_used hj)
  have hkey :
      ∀ j ∈ s.held,
        t'.keyOf j = s.keyOf j := fun j hj => congrArg HtcRecord.identityHash (hrec j hj)
  have hnew : i ∉ s.held := fun hm => hl.new (hs.held_subset_used hm)
  have hlive : t'.live = insert i s.live := by
    obtain ⟨j, hj, hlive, -, -⟩ := he.live
    rw [hlive] at hi
    rcases hi with rfl | hi
    · exact hlive
    · exact absurd (.inl hi) hnew
  have hheld : t'.live ∪ s.waiting = insert i s.held := by
    rw [hlive, Set.insert_union, Resizing.held]
  refine ⟨hs.client { t' with size := t'.size + 1 } hset hk.numBuckets hk.seed
    (fun j hj => ⟨?_, hrec j (.inr hj)⟩) ?_ (fun k e he => ?_) ?_, fun k u => ?_⟩
  · have hju : j ∈ t'.used := hl.used ▸ Set.mem_insert_of_mem i (hs.held_subset_used (.inr hj))
    refine ⟨hju.1, hju.2.1, ?_, hju.2.2⟩
    change j ∉ t'.live
    rw [hlive]
    rintro (rfl | hm)
    · exact hnew (.inr hj)
    · exact (hs.ready hj).notLive hm
  · change Set.InjOn t'.keyOf (t'.live ∪ s.waiting)
    rw [hheld, Set.injOn_insert hnew]
    refine ⟨hs.keys.congr fun j hj => (hkey j hj).symm, ?_⟩
    rintro ⟨j, hj, hjk⟩
    rw [hl.key, hkey j hj] at hjk
    exact hn _ (entry_iff.mpr ⟨j, hj, hjk, rfl⟩)
  · change t'.cache k = some e at he
    rw [hcache] at he
    obtain ⟨hm, hek⟩ := hs.cache k e he
    change e.idx ∈ t'.live ∪ s.waiting ∧ t'.keyOf e.idx = e.hash
    rw [hheld, hkey _ hm]
    exact ⟨Set.mem_insert_of_mem i hm, hek⟩
  · change ((t'.size + 1 : ℕ) : ℕ∞) = (t'.live ∪ s.waiting).encard
    rw [hheld, Set.encard_insert_of_notMem hnew, ← hs.size, hsize, Nat.cast_add, Nat.cast_one]
  · rw [Resizing.Entry, Resizing.Entry, ← or_assoc]
    exact or_congr (he.has k u)
      (waits_of_recs { t' with size := t'.size + 1 } fun j hj => hrec j (.inr hj))

/-- How `htc_insert` leaves the entries. -/
inductive LazyInserted (h v : ℕ) (s : Resizing) : HtcError → Resizing → Prop where
  /-- The key is present. -/
  | duplicate {s' : Resizing} (same : ∀ k u, s'.Entry k u ↔ s.Entry k u)
    (present : ∃ u, s.Entry h u) :
    LazyInserted h v s .duplicate s'
  /-- An allocation failed. -/
  | oom {s' : Resizing} (same : ∀ k u, s'.Entry k u ↔ s.Entry k u) (absent : ∀ u, ¬ s.Entry h u)
    (fails : false ∈ s.mem) : LazyInserted h v s .oom s'
  /-- The key got its entry. -/
  | ok {s' : Resizing} (entered : ∀ k u, s'.Entry k u ↔ (k = h ∧ u = v) ∨ s.Entry k u)
    (absent : ∀ u, ¬ s.Entry h u) :
    LazyInserted h v s .ok s'

/-- `htc_insert` after its migrations, of a key that neither waits nor is in the global stash. -/
lemma Resizing.Ok.insertEnsured {e : HtcError} (hs : s.Ok) (hh : ¬ s.Hidden h)
    (hw : ∀ u, ¬ s.Waits h u) (he : Htc.insertEnsured h v s = some (e, s')) :
    s'.Ok ∧ LazyInserted h v s e s' := by
  have habs : s.Absent h → ∀ u, ¬ s.Entry h u := by
    rintro ha u (hh | hh)
    · exact ha.not_has u hh
    · exact hw u hh
  have hset := insertAttempt_settled hs.settled hh v
  have hst := insertAttempt_stored hs.settled.toStored h v
  have htd :=
    @insertAttempt_tidy s.toTable [] ⟨hs.settled.toStored, fun i hi => absurd hi List.not_mem_nil,
    List.nodup_nil⟩ h v
  rw [Htc.insertEnsured] at he
  generalize insertAttempt h v s.toTable = a at hset hst htd he
  rcases a with ⟨e', t'⟩ | t' | t'
  · cases he
    obtain ⟨hset, hsame, hb, hcase⟩ := hset
    obtain ⟨hok, hent⟩ := hs.untouched hset hsame htd.2.2.1 hst.2.2.2 hb
    refine ⟨hok, ?_⟩
    rcases hcase with ⟨rfl, hp⟩ | ⟨rfl, ha, hm⟩
    · refine .duplicate hent ?_
      by_contra hne
      exact hp fun j hj hk => hne ⟨_, .inl ⟨j, hj, hk, rfl⟩⟩
    · exact .oom hent (habs ha) hm
  · obtain ⟨s₂, hd, he⟩ := Option.map_eq_some_iff.mp he
    cases he
    obtain ⟨hset, hen, hb, ha⟩ := hset
    obtain ⟨i, hl, hi⟩ := htd.2.2
    obtain ⟨hok, hent⟩ := hs.entered hset hen hl hi hst.2.2.2 hb (habs ha)
    rw [insertDoneLazy] at hd
    dsimp only at hd
    split at hd
    · cases hd
    · cases hd
      exact ⟨hok, .ok hent (habs ha)⟩
  · cases he

/-- The outcome of an insertion is the same with migrations before it. -/
lemma Shifted.inserted {s₁ : Resizing} {e : HtcError} (hsh : Shifted s s₁)
    (hi : LazyInserted h v s₁ e s') :
    LazyInserted h v s e s' := by
  have hent : ∀ k u, s₁.Entry k u ↔ s.Entry k u := fun k u => hsh.entry
  cases hi with
  | duplicate same present =>
    obtain ⟨u, hu⟩ := present
    exact .duplicate (fun k u => (same k u).trans (hent k u)) ⟨u, (hent h u).mp hu⟩
  | oom same absent fails =>
    refine .oom (fun k u => (same k u).trans (hent k u))
      (fun u hu => absent u ((hent h u).mpr hu)) ?_
    rw [hsh.table] at fails
    exact fails
  | ok entered absent =>
    exact .ok (fun k u => (entered k u).trans (or_congr Iff.rfl (hent k u))) fun u hu =>
      absent u ((hent h u).mpr hu)

/-- `htc_insert` of a key that is not in the global stash and does not wait after the migrations of
the call. -/
lemma Resizing.Ok.insertLazy {e : HtcError} (hs : s.Ok) (hh : ¬ s.Hidden h)
    (hw : ∀ u, ¬ (s.ensure h).Waits h u) (he : Htc.insertLazy h v s = some (e, s')) :
    s'.Ok ∧ LazyInserted h v s e s' := by
  obtain ⟨hs₁, hsh⟩ := hs.ensure h
  rw [Htc.insertLazy] at he
  generalize s.ensure h = s₁ at hs₁ hsh hw he
  obtain ⟨hok, hi⟩ := hs₁.insertEnsured (hsh.hidden.not.mpr hh) hw he
  exact ⟨hok, hsh.inserted hi⟩

/-- A record leaves the current generation. -/
lemma Resizing.Ok.dropped (hs : s.Ok) (hd : Dropped s.toTable t' h) :
    Resizing.Ok { s with toTable := t' } ∧ ∀ k u, Resizing.Entry { s with toTable := t' } k u ↔
      k ≠ h ∧ s.Entry k u := by
  have hset := hd.placed.settled (hd.removed.injOn hs.settled.keys)
  obtain ⟨i, hi, hki, hlive⟩ := hd.removed.live
  have hnw : i ∉ s.waiting := fun hw => (hs.ready hw).notLive hi
  have hrec : ∀ j ∈ s.held, j ≠ i → t'.recs j = s.recs j := by
    rintro j (hj | hj) hne
    · exact hd.removed.recs j (hlive ▸ ⟨hj, hne⟩)
    · exact (hd.ready j (hs.ready hj)).2
  have hheld : t'.live ∪ s.waiting = s.held \ {i} := by
    rw [hlive, Resizing.held, Set.union_sdiff_distrib, Set.sdiff_singleton_eq_self hnw]
  have hkey : ∀ j ∈ s.held \ {i}, t'.keyOf j = s.keyOf j :=
    fun j hj => congrArg HtcRecord.identityHash (hrec j hj.1 hj.2)
  have hwrec : ∀ j ∈ s.waiting, t'.recs j = s.recs j := fun j hj => (hd.ready j (hs.ready hj)).2
  refine ⟨hs.client _ hset hd.buckets hd.seed (fun j hj => hd.ready j (hs.ready hj)) ?_
    (fun k e he => ?_)
    ?_, fun k u => ?_⟩
  · rw [hheld]
    exact (hs.keys.mono Set.sdiff_subset).congr fun j hj => (hkey j hj).symm
  · rw [hd.cache] at he
    obtain ⟨he, hne⟩ := Option.filter_eq_some_iff.mp he
    obtain ⟨hm, hek⟩ := hs.cache k e he
    have hei : e.idx ∈ s.held \ {i} := by
      refine ⟨hm, ?_⟩
      rintro (rfl : e.idx = i)
      rw [← hek, hki] at hne
      simp at hne
    rw [hheld, hkey _ hei]
    exact ⟨hei, hek⟩
  · rw [hheld, hd.size, ENat.natCast_sub, hs.size, Set.encard_sdiff_singleton_of_mem (.inl hi)]
    rfl
  · rw [Resizing.Entry, Resizing.Entry, and_or_left]
    refine or_congr (hd.removed.has hs.settled.keys k u) ((waits_of_recs _ hwrec).trans ?_)
    refine ⟨fun hw => ⟨?_, hw⟩, fun hw => hw.2⟩
    rintro rfl
    exact hs.apart ⟨i, hi, hki, rfl⟩ hw

/-- `htc_remove` after its migrations. -/
lemma Resizing.Ok.removeEnsured (hs : s.Ok) (hens : s.ensure h = s) :
    (∃ t', Htc.removeEnsured h s = some (.ok, { s with toTable := t' }) ∧ Dropped s.toTable t' h ∧
      ∃ u, s.Entry h u) ∨
    Htc.removeEnsured h s = some (.notFound, s) ∧ ∀ u, ¬ s.Has h u := by
  rw [Htc.removeEnsured]
  rcases htcRemove_placed hs.settled.placed h with ⟨t', he, hd⟩ | ⟨he, ha⟩
  · obtain ⟨i, hi, hki, -⟩ := hd.removed.live
    exact .inl ⟨t', congrArg (Option.map _) he, hd, _, .inl ⟨i, hi, hki, rfl⟩⟩
  · have hscan : htcBucketScan s.gen s.recs (s.gen.primary (placementHash h s.gen.seed)) h
        (tag16 (placementHash h s.gen.seed)) false = none := by
      rcases hf : htcBucketScan s.gen s.recs (s.gen.primary (placementHash h s.gen.seed)) h
        (tag16 (placementHash h s.gen.seed)) false with _ | k
      · rfl
      · obtain ⟨w, -, hw, -, hfor⟩ := htcBucketScan_some hf
        exact absurd (isFor_iff.mp hfor).2.1 (ha w.idx (mem_live (p := .slot (_, k)) hw))
    have hfall : removeFallback h s = (.notFound, s) := by
      rw [removeFallback]
      split
      · rw [hens, removePrimary]
        dsimp only
        rw [hscan]
      · rfl
    refine .inr ⟨?_, fun u => ha.not_has u⟩
    rw [he, Option.map_some]
    exact congrArg some hfall

/-- `htc_remove`. -/
lemma Resizing.Ok.removeLazy (hs : s.Ok) (h : ℕ) :
    ∃ e s', Htc.removeLazy h s = some (e, s') ∧ s'.Ok ∧
      ((e = .ok ∧ (∃ u, s.Entry h u) ∧ ∀ k u, s'.Entry k u ↔ k ≠ h ∧ s.Entry k u) ∨
      e = .notFound ∧ s' = s.ensure h ∧ ∀ u, ¬ s'.Has h u) := by
  obtain ⟨hs₁, hsh⟩ := hs.ensure h
  have hens := hs.ensure_ensure h
  rw [Htc.removeLazy]
  generalize s.ensure h = s₁ at hs₁ hsh hens
  rcases hs₁.removeEnsured hens with ⟨t', he, hd, u, hu⟩ | ⟨he, hn⟩
  · obtain ⟨hok, hent⟩ := hs₁.dropped hd
    exact ⟨_, _, he, hok,
      .inl ⟨rfl, ⟨u, hsh.entry.mp hu⟩, fun k u => (hent k u).trans (and_congr Iff.rfl hsh.entry)⟩⟩
  · exact ⟨_, s₁, he, hs₁, .inr ⟨rfl, rfl, hn⟩⟩

/-- The value of a live record is set. -/
lemma Resizing.Ok.setValue (hs : s.Ok) (hi : i ∈ s.live) (hk : s.keyOf i = h) :
    Resizing.Ok { s with toTable := { s.toTable with toCore := s.setValue i v } } ∧
      ∀ k u, Resizing.Entry { s with toTable := { s.toTable with toCore := s.setValue i v } } k u ↔
        if k = h then u = v else s.Entry k u := by
  have hwrec : ∀ j ∈ s.waiting, (s.setValue i v).recs j = s.recs j := by
    intro j hj
    refine Function.update_of_ne ?_ ..
    rintro rfl
    exact (hs.ready hj).notLive hi
  have hkey : (s.setValue i v).keyOf = s.keyOf := funext fun j => keyOf_setValue i v j
  refine ⟨hs.client { s.toTable with toCore := s.setValue i v } (hs.settled.setValue i v) rfl rfl
    (fun j hj => ⟨⟨(hs.ready hj).lt, (hs.ready hj).notFree, (hs.ready hj).notLive, ?_⟩, hwrec j hj⟩)
      ?_ (fun k e he => ?_)
    hs.size, fun k u => ?_⟩
  · change ((s.setValue i v).recs j).flags = 0
    rw [hwrec j hj]
    exact (hs.ready hj).flags
  · change Set.InjOn (s.setValue i v).keyOf s.held
    rw [hkey]
    exact hs.keys
  · change e.idx ∈ s.held ∧ (s.setValue i v).keyOf e.idx = e.hash
    rw [hkey]
    exact hs.cache k e he
  · have hhas := hs.settled.has_setValue (v := v) hi hk k u
    have hwt : _ ↔ s.Waits k u := waits_of_recs { s.toTable with toCore := s.setValue i v } hwrec
    rw [Resizing.Entry, hwt]
    change (s.setValue i v).Has k u ∨ _ ↔ _
    rw [hhas]
    by_cases hkh : k = h
    · rw [if_pos hkh, if_pos hkh]
      refine or_iff_left ?_
      rw [hkh]
      exact hs.apart ⟨i, hi, hk, rfl⟩
    · rw [if_neg hkh, if_neg hkh, Resizing.Entry]

/-- `htc_update` after its migrations, of a key that is not in the global stash. -/
lemma Resizing.Ok.updateEnsured (hs : s.Ok) (hh : ¬ s.Hidden h) (hens : s.ensure h = s) :
    (∃ j ∈ s.live, s.keyOf j = h ∧
      Htc.updateEnsured h v s =
      (.ok, { s with toTable := { s.toTable with toCore := s.setValue j v } })) ∨
    Htc.updateEnsured h v s = (.notFound, s) ∧ ∀ u, ¬ s.Has h u := by
  rw [Htc.updateEnsured]
  rcases htcUpdate_settled hs.settled h v with ⟨j, he, -, hl⟩ | ⟨he, ha⟩
  · obtain ⟨hj, hk⟩ := hl hh
    rw [he]
    exact .inl ⟨j, hj, hk, rfl⟩
  · rw [he]
    refine .inr ⟨?_, fun u => ha.not_has u⟩
    change (HtcError.notFound, if (htcFindInOldGen s.recs h s.old).isSome then s.ensure h else s) =
      _
    rw [hens, ite_self]

/-- `htc_update` of a key that is not in the global stash. -/
lemma Resizing.Ok.updateLazy (hs : s.Ok) (hh : ¬ s.Hidden h) (v : ℕ) :
    ∃ e s', Htc.updateLazy h v s = (e, s') ∧ s'.Ok ∧
      ((e = .ok ∧ (∃ u, s.Entry h u) ∧ ∀ k u, s'.Entry k u ↔ if k = h then u = v else s.Entry k u) ∨
      e = .notFound ∧ s' = s.ensure h ∧ ∀ u, ¬ s'.Has h u) := by
  obtain ⟨hs₁, hsh⟩ := hs.ensure h
  have hens := hs.ensure_ensure h
  rw [Htc.updateLazy]
  generalize s.ensure h = s₁ at hs₁ hsh hens
  rcases hs₁.updateEnsured (v := v) (hsh.hidden.not.mpr hh) hens with ⟨j, hj, hk, he⟩ | ⟨he, hn⟩
  · obtain ⟨hok, hent⟩ := hs₁.setValue (v := v) hj hk
    refine ⟨_, _, he, hok,
      .inl ⟨rfl, ⟨_, hsh.entry.mp (.inl ⟨j, hj, hk, rfl⟩)⟩, fun k u => (hent k u).trans ?_⟩⟩
    split
    · exact Iff.rfl
    · exact hsh.entry
  · exact ⟨_, s₁, he, hs₁, .inr ⟨rfl, rfl, hn⟩⟩

/-- What `htc_find` leaves behind: the front cache and its position. -/
lemma Resizing.Ok.cached (hs : s.Ok)
    (hc : ∀ k e, t'.cache k = some e → e.idx ∈ s.held ∧ s.keyOf e.idx = e.hash)
    (hr : t' = { s.toTable with cache := t'.cache, cachePos := t'.cachePos }) :
    Resizing.Ok { s with toTable := t' } ∧ ∀ k u, Resizing.Entry { s with toTable := t' } k u ↔
      s.Entry k u := by
  rw [hr]
  exact ⟨⟨hs.settled, hs.chain, hs.pow, hc, hs.size⟩, fun k u => Iff.rfl⟩

/-- `htc_find` answers with the value of an entry, which may come from the front cache; it misses
the keys that are not in the current generation. -/
lemma Resizing.Ok.find (hs : s.Ok) (h : ℕ) (want : Bool) :
    ∃ e out t', htcFind h want s.toTable = (e, out, t') ∧ t'.toCore = s.toCore ∧
      Resizing.Ok { s with toTable := t' } ∧
      (∀ k u, Resizing.Entry { s with toTable := t' } k u ↔ s.Entry k u) ∧
      ((∃ u, e = .ok ∧ out = (if want then some u else none) ∧ s.Entry h u) ∨
      e = .notFound ∧ out = (if want then some 0 else none) ∧ ∀ u, ¬ s.Has h u) := by
  rw [htcFind]
  cases hf : (if (want && s.cacheOn) = true then htcFrontCacheLookup s.toTable h else none) with
  | some u =>
    split at hf
    · next hw =>
      rw [Bool.and_eq_true] at hw
      obtain ⟨k, -, hk⟩ := List.exists_of_findSome?_eq_some hf
      split at hk
      · cases hk
      · next e he =>
        dsimp only at hk
        split at hk
        · next hcond =>
          cases hk
          obtain ⟨hm, hek⟩ := hs.cache k e he
          refine ⟨.ok, _, s.toTable, rfl, rfl, hs, fun k u => Iff.rfl,
            .inl ⟨(s.recs e.idx).userValue, rfl, ?_, ?_⟩⟩
          · rw [if_pos hw.1]
          · exact entry_iff.mpr ⟨e.idx, hm, hek.trans hcond.1, rfl⟩
        · cases hk
    · cases hf
  | none =>
    dsimp only
    rw [findTable]
    cases hp : htcSearch s.toCore h true with
    | none =>
      exact ⟨_, _, s.toTable, rfl, rfl, hs, fun k u => Iff.rfl,
        .inr ⟨rfl, rfl, (hs.settled.search_eq_none.mp hp).not_has⟩⟩
    | some p =>
      obtain ⟨hl, hk⟩ := search_hit hp
      have hc : ∀ k e, (htcFrontCacheInsert s.toTable h (s.idxAt p)).cache k = some e →
          e.idx ∈ s.held ∧ s.keyOf e.idx = e.hash := by
        intro k e he
        rcases update_some_cases he with ⟨-, rfl⟩ | ⟨-, he⟩
        · exact ⟨.inl hl, hk⟩
        · exact hs.cache k e he
      obtain ⟨hok, hent⟩ := hs.cached hc rfl
      exact ⟨.ok, _, _, rfl, rfl, hok, hent, .inl ⟨_, rfl, rfl, .inl ⟨_, hl, hk, rfl⟩⟩⟩

/-! ## The start and the end of a resize -/

/-- The doubling loop reaches its aim. -/
lemma le_doubleUntil_of_le (n : ℕ) : ∀ k j, n ≤ 2 ^ (j + k) → n ≤ doubleUntil n k (2 ^ j)
  | 0, j, hn => hn
  | k + 1, j, hn => by
    rw [doubleUntil]
    split
    · rw [← pow_succ]
      exact le_doubleUntil_of_le n k (j + 1) (by rw [Nat.add_right_comm]; exact hn)
    · next hlt => exact not_lt.mp hlt

/-- `htc_resize_start` does not make the table smaller. -/
lemma grows_resize {n : ℕ} (hp : ∃ j, g.numBuckets = 2 ^ j) (hle : g.numBuckets ≤ n)
    (hn : n ≤ 2 ^ 31) (seed : ℕ) :
    Grows g (Gen.fresh (resizeBuckets n) seed) := by
  obtain ⟨j, hj⟩ := hp
  obtain ⟨j', hj'⟩ := doubleUntil_pow (max 4 n) 31 0
  have hmax : max 4 n ≤ 2 ^ (0 + 31) := max_le (by norm_num) (by rw [Nat.zero_add]; exact hn)
  have hto := le_doubleUntil_of_le (max 4 n) 31 0 hmax
  rw [hj'] at hto
  have hjj : j ≤ j' := by
    have h := hle.trans ((le_max_right 4 n).trans hto)
    rw [hj] at h
    exact (Nat.pow_le_pow_iff_right (by norm_num)).mp h
  refine ⟨j, j' - j, hj, ?_⟩
  rw [Nat.add_sub_cancel' hjj]
  exact hj'

/-- An allocation that fails was foreseen. -/
lemma malloc_fails (t : Table) : ∃ ok mem, t.malloc = (ok, { t with mem := mem }) ∧
    (ok = false → false ∈ t.mem) ∧ (false ∈ mem → false ∈ t.mem) := by
  rw [Table.malloc]
  cases hm : t.mem with
  | nil =>
    refine ⟨true, t.mem, rfl, (fun h => by cases h), fun h => ?_⟩
    rw [hm] at h
    exact h
  | cons ok rest =>
    exact ⟨ok, rest, rfl, fun h => h ▸ List.mem_cons_self .., List.mem_cons_of_mem _⟩

/-- The table after `htc_resize_start`. -/
def Resizing.started (s : Resizing) (n : ℕ) (mem : List Bool) : Resizing :=
  { s with
    gen := Gen.fresh (resizeBuckets n) s.gen.seed
    mem := mem
    old := s.gen :: s.old
    migrated := fun _ => false }

/-- `htc_resize_start` publishes a new generation, or an allocation fails. -/
lemma htcResizeStart_cases (n : ℕ) (s : Resizing) :
    (∃ mem, htcResizeStart n s = (true, s.started n mem)) ∨
      ∃ mem, htcResizeStart n s = (false, { s with mem := mem }) ∧ false ∈ s.mem := by
  obtain ⟨ok₁, m₁, h₁, f₁, g₁⟩ := malloc_fails s.toTable
  obtain ⟨ok₂, m₂, h₂, f₂, g₂⟩ := malloc_fails { s.toTable with mem := m₁ }
  obtain ⟨ok₃, m₃, h₃, f₃, g₃⟩ := malloc_fails { s.toTable with mem := m₂ }
  obtain ⟨ok₄, m₄, h₄, f₄, -⟩ := malloc_fails { s.toTable with mem := m₃ }
  rw [htcResizeStart, h₁]
  dsimp only
  cases ok₁ with
  | false => exact .inr ⟨m₁, rfl, f₁ rfl⟩
  | true =>
    rw [h₂]
    dsimp only
    rw [h₃]
    dsimp only
    rw [if_neg (by decide)]
    cases ok₂ with
    | false => exact .inr ⟨m₃, rfl, g₁ (f₂ rfl)⟩
    | true =>
      cases ok₃ with
      | false => exact .inr ⟨m₃, rfl, g₁ (g₂ (f₃ rfl))⟩
      | true =>
        rw [if_neg (by decide), h₄]
        cases ok₄ with
        | false => exact .inr ⟨m₄, rfl, g₁ (g₂ (g₃ (f₄ rfl)))⟩
        | true => exact .inl ⟨m₄, rfl⟩

/-- The words of the stashes when the buckets are exchanged for empty ones. -/
lemma fresh_wordAt {n : ℕ} {p : Place} {w : Word}
    (hw : Core.wordAt { c with gen := Gen.fresh n c.gen.seed } p = some w) :
    c.wordAt p = some w ∧ ∀ x, p ≠ .slot x := by
  cases p with
  | slot x => cases hw
  | shard b j => exact ⟨hw, fun x he => by cases he⟩
  | global j => exact ⟨hw, fun x he => by cases he⟩

/-- The records of the stashes were live. -/
lemma fresh_live_subset (n : ℕ) : Core.live { c with gen := Gen.fresh n c.gen.seed } ⊆ c.live := by
  rintro i ⟨p, w, hw, rfl⟩
  exact mem_live (fresh_wordAt hw).1

/-- Every word of a shard stash keeps its shard number with `n` buckets. -/
def Core.ShardsKeep (c : Core) (n : ℕ) : Prop :=
  ∀ b j w, (c.shards b).slots j = some w → shardOf (c.hashOf w.idx % n) c.shardCount = b

/-- The shard numbers are kept if the number of shards divides the numbers of buckets, as it does
for powers of two. -/
lemma Settled.shardsKeep {n : ℕ} (hs : Settled c) (hd : c.shardCount ∣ c.gen.numBuckets)
    (hn : c.gen.numBuckets ∣ n) : c.ShardsKeep n := by
  intro b j w hw
  rw [(hs.seat (.shard b j) w hw).2, Core.shardAt, Gen.primary, shardOf, shardOf,
    Nat.mod_mod_of_dvd _ hd, Nat.mod_mod_of_dvd _ (hd.trans hn)]

/-- A table whose buckets are exchanged for empty ones keeps the words of its stashes. -/
lemma Settled.fresh {n : ℕ} (hs : Settled c) (hk : c.ShardsKeep n) :
    Settled { c with gen := Gen.fresh n c.gen.seed } := by
  have hlive := fresh_live_subset (c := c) n
  refine ⟨⟨fun p q w v hp hq => hs.separate p q w v (fresh_wordAt hp).1 (fresh_wordAt hq).1,
    fun i hi => hs.lt i (hlive hi), fun i hi => hs.notFree i (hlive hi),
    fun i hi => hs.flags i (hlive hi), hs.freeNodup, hs.freeLt, hs.shards, hs.stash⟩,
    fun p w hw => hs.tag p w (fresh_wordAt hw).1, fun p w hw => ?_,
    fun i hi => hs.keyed i (hlive hi), hs.keys.mono hlive, .fresh _ _⟩
  obtain ⟨hw, hne⟩ := fresh_wordAt hw
  have hseat := hs.seat p w hw
  cases p with
  | slot x => exact absurd rfl (hne x)
  | shard b j => exact ⟨hseat.1, (hk b j w hw).symm⟩
  | global j => exact hseat

/-- The words of the buckets wait for their migration. -/
lemma Settled.mid {n : ℕ} (hs : Settled c) (hg : Grows c.gen (Gen.fresh n c.gen.seed))
    (hk : c.ShardsKeep n) : Mid { c with gen := Gen.fresh n c.gen.seed } c.gen ∧
      Core.live { c with gen := Gen.fresh n c.gen.seed } ∪ c.gen.waiting = c.live := by
  have hwait : ∀ i ∈ c.gen.waiting, i ∈ c.live := by
    rintro i ⟨x, w, hx, rfl⟩
    exact mem_live (p := .slot x) hx
  -- what is not in a stash waits
  have hall : Core.live { c with gen := Gen.fresh n c.gen.seed } ∪ c.gen.waiting = c.live := by
    ext i
    constructor
    · rintro (hi | hi)
      · exact fresh_live_subset n hi
      · exact hwait i hi
    · rintro ⟨p, w, hp, rfl⟩
      cases p with
      | slot x => exact .inr (mem_waiting hp)
      | shard b j => exact .inl ⟨.shard b j, w, hp, rfl⟩
      | global j => exact .inl ⟨.global j, w, hp, rfl⟩
  refine ⟨⟨hs.fresh hk, rfl, hg, ?_, ?_, ?_, fun i hi => hs.keyed i (hwait i hi),
    fun x w hx => hs.tag (.slot x) w hx,
    fun x w hx => ?_, fun x w hx hsec => ?_, fun x w hx hsec => ?_, ?_⟩, hall⟩
  · intro x y w v hx hy he
    exact Place.slot.inj (hs.separate (.slot x) (.slot y) w v hx hy he)
  · exact fun i hi => hs.toStored.live_subset_used (hwait i hi)
  · rintro i ⟨x, w, hx, rfl⟩ ⟨p, v, hv, he⟩
    obtain ⟨hv, hne⟩ := fresh_wordAt hv
    exact hne x (hs.separate p (.slot x) v w hv hx he)
  · obtain ⟨hlt, hb⟩ := hs.seat (.slot x) w hx
    refine ⟨hlt, ?_⟩
    rw [Gen.home]
    split at hb
    · next hsec =>
      rw [if_pos hsec]
      exact hb.1
    · next hsec =>
      rw [if_neg hsec]
      exact hb
  · obtain ⟨-, hb⟩ := hs.seat (.slot x) w hx
    rw [if_pos hsec] at hb
    have hne : c.gen.secondary (c.hashOf w.idx) ≠ c.gen.primary (c.hashOf w.idx) := hb.1 ▸ hb.2
    exact hne
  · exact hs.hinted.mustCheckSecondary hx hsec
  · rw [hall]
    exact hs.keys

/-- `htc_resize_start` keeps the invariant and the entries. -/
lemma Resizing.Ok.started {n : ℕ} (hs : s.Ok) (ho : s.old = []) (hle : s.gen.numBuckets ≤ n)
    (hn : n ≤ 2 ^ 31) (hk : s.ShardsKeep (resizeBuckets n)) (mem : List Bool) :
    (s.started n mem).Ok ∧ Mid (s.started n mem).toCore s.gen ∧ ∀ k u, (s.started n mem).Entry k u ↔
      s.Entry k u := by
  have hg := grows_resize hs.pow hle hn s.gen.seed
  obtain ⟨hm, hall⟩ := hs.settled.mid hg hk
  have hheld : (s.started n mem).held = s.held := by
    rw [Resizing.held, Resizing.held, waiting_nil ho, Set.union_empty]
    exact hall
  refine ⟨⟨hm.settled, .inr ⟨s.gen, by rw [Resizing.started, ho], hm⟩, ?_, ?_, ?_⟩, hm,
    fun k u => ?_⟩
  · obtain ⟨j, k, -, hk⟩ := hg
    exact ⟨j + k, hk⟩
  · intro k e he
    rw [hheld]
    exact hs.cache k e he
  · rw [hheld]
    exact hs.size
  · rw [entry_iff, entry_iff, hheld]
    exact Iff.rfl

/-- An old generation without words. -/
lemma Mid.waiting_empty (hm : Mid c o) (hw : o.words = []) : o.waiting = ∅ := by
  rw [Set.eq_empty_iff_forall_notMem]
  rintro i ⟨x, w, hx, rfl⟩
  have hmem : w ∈ o.words := mem_words.mpr ⟨x.1, x.2, hm.lt_buckets hx, (hm.seat x w hx).1, hx⟩
  rw [hw] at hmem
  cases hmem

/-- `htc_resize_finish` keeps the invariant and the entries when the generation that it drops is
empty. -/
lemma Resizing.Ok.finish (hs : s.Ok) (hw : s.allDone = true → ∀ o ∈ s.old, o.words = []) :
    (htcResizeFinish s).Ok ∧ ∀ k u, (htcResizeFinish s).Entry k u ↔ s.Entry k u := by
  rw [htcResizeFinish]
  split
  · exact ⟨hs, fun k u => Iff.rfl⟩
  split
  · next hne hd =>
    rcases hs.chain with ho | ⟨o, ho, hm⟩
    · rw [ho] at hne
      exact absurd rfl hne
    · have hwait : s.waiting = ∅ := by
        rw [waiting_cons ho]
        exact hm.waiting_empty (hw hd o (by rw [ho]; exact List.mem_singleton_self o))
      have hheld : Resizing.held { s with old := [] } = s.held := by
        rw [Resizing.held, Resizing.held, hwait, waiting_nil rfl]
      refine ⟨⟨hs.settled, .inl rfl, hs.pow, ?_, ?_⟩, fun k u => ?_⟩
      · rw [hheld]
        exact hs.cache
      · rw [hheld]
        exact hs.size
      · rw [entry_iff, entry_iff, hheld]
  · exact ⟨hs, fun k u => Iff.rfl⟩

end Draugr.Htc
