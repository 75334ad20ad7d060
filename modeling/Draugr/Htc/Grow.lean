import Draugr.Htc.Calls

/-!
# Growing

`htc_grow` places the words of the buckets one by one in a fresh generation and a fresh global
stash; the stashes of the shards stay as they are, and the old global stash is dropped. `GrowSafe`
says when nothing is lost by this: the global stash is empty, every word of a shard stash keeps its
shard when the number of buckets doubles, and a new seed is taken only for a table without entries.
Under it a grow keeps a table settled and its live records as they are, whether it succeeds or
fails.
-/

namespace Draugr.Htc
open Draugr.Lib

variable {c c' : Core} {t t' : Table} {i seed : ℕ} {g : Gen} {s : Stash}

/-! ## The words of the buckets -/

/-- The words that `htc_grow` reads. -/
lemma mem_words {w : Word} : w ∈ g.words ↔
    ∃ b j, b < g.numBuckets ∧ j < bucketSlots ∧ g.slots (b, j) = some w := by
  rw [Gen.words, List.mem_filterMap]
  constructor
  · rintro ⟨⟨b, j⟩, hm, hw⟩
    rw [List.mem_product, List.mem_range, List.mem_range] at hm
    exact ⟨b, j, hm.1, hm.2, hw⟩
  · rintro ⟨b, j, hb, hj, hw⟩
    exact ⟨(b, j), List.mem_product.mpr ⟨List.mem_range.mpr hb, List.mem_range.mpr hj⟩, hw⟩

/-- The words of the buckets denote different records. -/
lemma Stored.words_nodup (hs : Stored c) : (c.gen.words.map Word.idx).Nodup := by
  rw [Gen.words, List.map_filterMap]
  refine List.Nodup.filterMap ?_ (List.nodup_range.product List.nodup_range)
  intro x y k hx hy
  obtain ⟨w, hw, rfl⟩ := Option.map_eq_some_iff.mp hx
  obtain ⟨v, hv, he⟩ := Option.map_eq_some_iff.mp hy
  exact Place.slot.inj (hs.separate (.slot x) (.slot y) w v hw hv he.symm)

/-! ## Placing one word -/

/-- A word of the rehash goes to a bucket or to the new global stash. -/
lemma htcPlaceEntry_cases {ph : ℕ} {w : Word} {g' : Gen} {s' : Stash}
    (he : htcPlaceEntry g s ph w = some (g', s')) :
    (placeDirect g ph w = (true, g') ∧ s' = s) ∨
      placeDirect g ph w = (false, g') ∧ ∃ j, s.claim = some j ∧ s' = s.put j w := by
  rw [htcPlaceEntry] at he
  rcases hp : placeDirect g ph w with ⟨ok, g₁⟩
  rw [hp] at he
  cases ok with
  | true =>
    cases he
    exact .inl ⟨rfl, rfl⟩
  | false =>
    obtain ⟨st, hst, he⟩ := Option.map_eq_some_iff.mp he
    obtain ⟨j, hj, rfl⟩ := Option.map_eq_some_iff.mp hst
    cases he
    exact .inr ⟨rfl, j, hj, rfl⟩

/-- A placed word brings its record into the table. -/
lemma Stored.placeEntry {ph : ℕ} {w : Word} {g' : Gen} {s' : Stash} (hs : Stored c)
    (hr : Ready c w.idx) (he : htcPlaceEntry c.gen c.stash ph w = some (g', s')) :
    Joined c { c with gen := g', stash := s' } w.idx := by
  rcases htcPlaceEntry_cases he with ⟨hp, rfl⟩ | ⟨hp, j, hj, rfl⟩
  · exact hs.placeDirect hr hp
  · obtain ⟨b, tag, hb⟩ := placeDirect_false hp
    have hf : Frame c { c with gen := g' } := .ofGen hb.numBuckets hb.seed
    have hj' := (hs.sameSlots hb.slots).putStash (Stash.claim_some hj).2 (hr.bumped hb)
    refine ⟨hf.trans hj'.frame, hj'.stored, hj'.live.trans ?_⟩
    rw [live_of_slots hb.slots]

/-- A word of a record that carries its hash keeps the words placed. -/
lemma Placed.placeEntry {g' : Gen} {s' : Stash} (hs : Placed c) (hw : Filed c i)
    (he : htcPlaceEntry c.gen c.stash (c.hashOf i) (c.wordOf i) = some (g', s')) :
    Placed { c with gen := g', stash := s' } := by
  rcases htcPlaceEntry_cases he with ⟨hp, rfl⟩ | ⟨hp, j, hj, rfl⟩
  · exact hs.placeDirect hw hp
  · obtain ⟨b, tag, hb⟩ := placeDirect_false hp
    have hf : Frame c { c with gen := g' } := .ofGen hb.numBuckets hb.seed
    obtain ⟨hlt, hn⟩ := Stash.claim_some hj
    have h := (hs.bumped hb).putStash (hw.bumped hb) hlt hn
    rw [hf.wordOf] at h
    exact h

/-! ## The rehash loop -/

/-- The words that are still to be placed denote different ready records. -/
structure Remaining (c : Core) (ws : List Word) : Prop where
  ready : ∀ w ∈ ws, Ready c w.idx
  nodup : (ws.map Word.idx).Nodup

/-- Placing the first word leaves the others to be placed. -/
lemma Remaining.tail {w : Word} {ws : List Word} (hr : Remaining c (w :: ws))
    (hj : Joined c c' w.idx) :
    Remaining c' ws where
  ready v hv := by
    have hrv := hr.ready v (List.mem_cons_of_mem _ hv)
    have hne : v.idx ≠ w.idx := by
      intro he
      refine (List.nodup_cons.mp hr.nodup).1 ?_
      rw [← he]
      exact List.mem_map_of_mem hv
    refine ⟨?_, ?_, ?_, ?_⟩
    · rw [hj.frame.count]
      exact hrv.lt
    · rw [hj.frame.freeIdx]
      exact hrv.notFree
    · rw [hj.live, Set.mem_insert_iff, not_or]
      exact ⟨hne, hrv.notLive⟩
    · rw [hj.frame.recs]
      exact hrv.flags
  nodup := (List.nodup_cons.mp hr.nodup).2

/-- The records of a rehash are in the table at its end. -/
structure Rehashed (c c' : Core) (ws : List Word) : Prop where
  frame : Frame c c'
  stored : Stored c'
  live : c'.live = c.live ∪ {j | j ∈ ws.map Word.idx}

/-- The rehash loop brings every word into the table. -/
lemma Stored.rehash : ∀ {ws : List Word} {c : Core} {g' : Gen} {s' : Stash},
    Stored c → Remaining c ws →
    rehash c.recs seed ws c.gen c.stash = some (g', s') →
    Rehashed c { c with gen := g', stash := s' } ws
  | [], c, g', s', hs, _, he => by
    cases he
    refine ⟨.refl c, hs, ?_⟩
    simp only [List.map_nil, List.not_mem_nil, Set.ofPred_false, Set.union_empty]
  | w :: ws, c, g', s', hs, hr, he => by
    simp only [Htc.rehash] at he
    split at he
    · cases he
    · next g₁ s₁ hp =>
      have hj : Joined c { c with gen := g₁, stash := s₁ } w.idx :=
        hs.placeEntry (w := ⟨w.idx, _, false⟩) (hr.ready w (List.mem_cons_self ..)) hp
      have ih := hj.stored.rehash (hr.tail hj) he
      refine ⟨hj.frame.trans ih.frame, ih.stored, ih.live.trans ?_⟩
      rw [hj.live]
      ext k
      simp only [List.map_cons, List.mem_cons, Set.mem_union, Set.mem_insert_iff, Set.mem_ofPred_eq]
      tauto

/-- The rehash loop keeps words placed. -/
lemma Placed.rehash : ∀ {ws : List Word} {c : Core} {g' : Gen} {s' : Stash},
    Placed c → Remaining c ws →
    (∀ w ∈ ws, (c.recs w.idx).placementHash = c.hashOf w.idx) →
    Htc.rehash c.recs c.gen.seed ws c.gen c.stash = some (g', s') →
    Placed { c with gen := g', stash := s' }
  | [], c, g', s', hs, _, _, he => by
    cases he
    exact hs
  | w :: ws, c, g', s', hs, hr, hf, he => by
    simp only [Htc.rehash] at he
    split at he
    · cases he
    · next g₁ s₁ hp =>
      have hw : Filed c w.idx := ⟨hr.ready w (List.mem_cons_self ..), hf w (List.mem_cons_self ..)⟩
      have hj : Joined c { c with gen := g₁, stash := s₁ } w.idx :=
        hs.toStored.placeEntry (w := ⟨w.idx, _, false⟩) hw.toReady hp
      have hs₁ : Placed { c with gen := g₁, stash := s₁ } := hs.placeEntry hw hp
      rw [← show g₁.seed = c.gen.seed from hj.frame.seed] at he
      refine hs₁.rehash (hr.tail hj) (fun v hv => ?_) he
      rw [hj.frame.recs, hj.frame.hashOf]
      exact hf v (List.mem_cons_of_mem _ hv)

/-! ## The table before the rehash -/

/-- The table with a fresh generation and an empty global stash. -/
def Core.emptied (c : Core) (n seed : ℕ) : Core :=
  { c with gen := Gen.fresh n seed, stash := .empty }

/-- The words of the emptied table are those of the shard stashes. -/
lemma emptied_wordAt {n : ℕ} {p : Place} {w : Word} (hw : (c.emptied n seed).wordAt p = some w) :
    ∃ s j, p = .shard s j ∧ c.wordAt p = some w := by
  cases p with
  | slot x => cases hw
  | shard s j => exact ⟨s, j, rfl, hw⟩
  | global j => cases hw

/-- The records of the emptied table were live. -/
lemma emptied_live_subset (n seed : ℕ) : (c.emptied n seed).live ⊆ c.live := by
  rintro j ⟨p, w, hw, rfl⟩
  obtain ⟨s, k, -, hw⟩ := emptied_wordAt hw
  exact mem_live hw

/-- The emptied table. -/
lemma Stored.emptied (hs : Stored c) (n seed : ℕ) : Stored (c.emptied n seed) where
  separate p q w v hw hv he := by
    obtain ⟨s, j, -, hw⟩ := emptied_wordAt hw
    obtain ⟨s', j', -, hv⟩ := emptied_wordAt hv
    exact hs.separate p q w v hw hv he
  lt j hj := hs.lt j (emptied_live_subset n seed hj)
  notFree j hj := hs.notFree j (emptied_live_subset n seed hj)
  flags j hj := hs.flags j (emptied_live_subset n seed hj)
  freeNodup := hs.freeNodup
  freeLt := hs.freeLt
  shards := hs.shards
  stash := .empty

/-- The table without its global stash. -/
lemma Stored.dropStash (hs : Stored c) : Stored { c with stash := .empty } := by
  have hw : ∀ {p : Place} {w : Word}, Core.wordAt { c with stash := .empty } p = some w →
      c.wordAt p = some w := by
    intro p w hw
    cases p with
    | slot x => exact hw
    | shard s j => exact hw
    | global j => cases hw
  have hl : Core.live { c with stash := .empty } ⊆ c.live :=
    fun j ⟨p, w, hp, he⟩ => ⟨p, w, hw hp, he⟩
  exact ⟨fun p q w v hp hq he => hs.separate p q w v (hw hp) (hw hq) he,
    fun j hj => hs.lt j (hl hj),
    fun j hj => hs.notFree j (hl hj), fun j hj => hs.flags j (hl hj), hs.freeNodup, hs.freeLt,
    hs.shards, .empty⟩

/-- The words of the buckets are to be placed in the emptied table. -/
lemma Stored.remaining (hs : Stored c) (n seed : ℕ) : Remaining (c.emptied n seed) c.gen.words where
  ready w hw := by
    obtain ⟨b, j, -, -, hw⟩ := mem_words.mp hw
    have hl : w.idx ∈ c.live := mem_live (p := .slot (b, j)) hw
    refine ⟨hs.lt _ hl, hs.notFree _ hl, ?_, hs.flags _ hl⟩
    rintro ⟨p, v, hv, he⟩
    obtain ⟨s, k, rfl, hv⟩ := emptied_wordAt hv
    cases hs.separate (.shard s k) (.slot (b, j)) v w hv hw he
  nodup := hs.words_nodup

/-- When a grow loses nothing. -/
structure GrowSafe (reseed : Bool) (c : Core) : Prop where
  stash : ∀ i, c.stash.slots i = none
  shards : ∀ s i w, (c.shards s).slots i = some w →
    shardOf (c.hashOf w.idx % (c.gen.numBuckets * 2)) c.shardCount = s
  seed : reseed = true → c.live = ∅

/-- The shards condition of a grow holds by itself when the number of shards divides the number of
buckets, as it does for powers of two. -/
lemma growSafe_of_dvd {c : Core} (hs : Placed c) (hst : ∀ i, c.stash.slots i = none)
    (hd : c.shardCount ∣ c.gen.numBuckets) : GrowSafe false c where
  stash := hst
  shards s i w hw := by
    have hseat := (hs.seat (.shard s i) w hw).2
    rw [hseat, Core.shardAt, Gen.primary, shardOf, shardOf, Nat.mod_mod_of_dvd _ hd,
      Nat.mod_mod_of_dvd _ (hd.mul_right 2)]
  seed h := by cases h

/-- Words that are placed are in the buckets of the table. -/
lemma Placed.slot_lt {x : ℕ × ℕ} {w : Word} (hs : Placed c) (hn : 0 < c.gen.numBuckets)
    (hw : c.wordAt (.slot x) = some w) : x.1 < c.gen.numBuckets := by
  obtain ⟨-, hx⟩ : c.Seat (c.hashOf w.idx) w (.slot x) := hs.seat (.slot x) w hw
  split at hx
  · rw [hx.1]
    exact Nat.mod_lt _ hn
  · rw [hx]
    exact Nat.mod_lt _ hn

/-- The live records of a table whose global stash is empty. -/
lemma Placed.live_eq (hs : Placed c) (hn : 0 < c.gen.numBuckets) (hg : ∀ i, c.stash.slots i = none)
    (n seed : ℕ) :
    (c.emptied n seed).live ∪ {j | j ∈ c.gen.words.map Word.idx} = c.live := by
  ext k
  constructor
  · rintro (hk | hk)
    · exact emptied_live_subset n seed hk
    · obtain ⟨w, hw, rfl⟩ := List.mem_map.mp hk
      obtain ⟨b, j, -, -, hw⟩ := mem_words.mp hw
      exact mem_live (p := .slot (b, j)) hw
  · rintro ⟨p, w, hw, rfl⟩
    cases p with
    | slot x =>
      right
      exact List.mem_map_of_mem
        (mem_words.mpr ⟨x.1, x.2, hs.slot_lt hn hw, (hs.seat (.slot x) w hw).1, hw⟩)
    | shard s j => exact .inl ⟨.shard s j, w, hw, rfl⟩
    | global j =>
      rw [show c.wordAt (.global j) = c.stash.slots j from rfl, hg] at hw
      cases hw

/-- The words of the emptied table are placed when the shard stashes keep them and the seed
stays. -/
lemma Placed.emptied (hs : Placed c) (hg : GrowSafe false c) :
    Placed (c.emptied (c.gen.numBuckets * 2) c.gen.seed) where
  toStored := hs.toStored.emptied _ _
  tag p w hw := by
    obtain ⟨s, j, -, hw⟩ := emptied_wordAt hw
    exact hs.tag p w hw
  seat p w hw := by
    obtain ⟨s, j, rfl, hw⟩ := emptied_wordAt hw
    exact ⟨(hs.seat (.shard s j) w hw).1, (hg.shards s j w hw).symm⟩
  keyed j hj := hs.keyed j (emptied_live_subset _ _ hj)
  hinted := .fresh _ _

/-- A table without words is settled. -/
lemma settled_of_live_empty (hs : Stored c) (hl : c.live = ∅) (hh : Hinted c.gen c.hashOf) :
    Settled c where
  toStored := hs
  tag p w hw := by
    have h := mem_live hw
    rw [hl] at h
    exact h.elim
  seat p w hw := by
    have h := mem_live hw
    rw [hl] at h
    exact h.elim
  keyed := by
    rw [hl]
    exact fun j hj => hj.elim
  keys := by
    rw [hl]
    exact Set.injOn_empty _
  hinted := hh

/-! ## `htc_grow` -/

/-- An allocation changes nothing but the outcomes to come. -/
lemma malloc_eq (t : Table) : ∃ ok m, t.malloc = (ok, { t with mem := m }) := by
  rw [Table.malloc]
  cases hm : t.mem with
  | nil =>
    refine ⟨true, t.mem, ?_⟩
    rfl
  | cons ok rest => exact ⟨ok, rest, rfl⟩

/-- What a grow changes: the core, the seed counter, the number of grows and the outcomes to
come. -/
structure Grown (reseed : Bool) (t : Table) (e : HtcError) (t' : Table) : Prop where
  rest : t' = { t with
    toCore := t'.toCore, seedCtr := t'.seedCtr, growStarted := t.growStarted + 1, mem := t'.mem }
  seedLe : t.seedCtr ≤ t'.seedCtr
  core : (e = .ok ∧ t'.seedCtr = (if reseed then t.seedCtr + 1 else t.seedCtr) ∧ ∃ g s,
    rehash t.recs (growSeed reseed t) t.gen.words
      (Gen.fresh (t.gen.numBuckets * 2) (growSeed reseed t)) .empty = some (g, s) ∧
      t'.toCore = { t.toCore with gen := g, stash := s }) ∨
    e = .oom ∧ (t'.toCore = t.toCore ∨ t'.toCore = { t.toCore with stash := .empty })

/-- The part of a grow after the allocation of the new buckets. -/
lemma growRehash_grown (reseed : Bool) (t : Table) (m : List Bool) :
    Grown reseed t (growRehash reseed { t with growStarted := t.growStarted + 1, mem := m }).1
      (growRehash reseed { t with growStarted := t.growStarted + 1, mem := m }).2 := by
  have hle : t.seedCtr ≤ if reseed = true then t.seedCtr + 1 else t.seedCtr := by
    split
    · exact Nat.le_succ _
    · exact le_rfl
  have hseed : growSeed reseed { t with growStarted := t.growStarted + 1, mem := m } =
      growSeed reseed t := rfl
  simp only [growRehash, hseed]
  cases hr : rehash t.recs (growSeed reseed t) t.gen.words
      (Gen.fresh (t.gen.numBuckets * 2) (growSeed reseed t)) .empty with
  | none => exact ⟨rfl, hle, .inr ⟨rfl, .inl rfl⟩⟩
  | some gs =>
    obtain ⟨ok, m', hm⟩ := malloc_eq { t with
      seedCtr := if reseed = true then t.seedCtr + 1 else t.seedCtr,
        growStarted := t.growStarted + 1, mem := m }
    dsimp only
    rw [hm]
    cases ok with
    | false => exact ⟨rfl, hle, .inr ⟨rfl, .inr rfl⟩⟩
    | true => exact ⟨rfl, hle, .inl ⟨rfl, rfl, gs.1, gs.2, hr, rfl⟩⟩

/-- What `htc_grow` does. -/
lemma htcGrow_grown (reseed : Bool) (t : Table) :
    Grown reseed t (htcGrow reseed t).1 (htcGrow reseed t).2 := by
  have hoom : ∀ m, Grown reseed t .oom { t with growStarted := t.growStarted + 1, mem := m } :=
    fun m => ⟨rfl, le_rfl, .inr ⟨rfl, .inl rfl⟩⟩
  rw [htcGrow]
  dsimp only
  split
  · exact hoom t.mem
  · obtain ⟨ok, m, hm⟩ := malloc_eq { t with growStarted := t.growStarted + 1 }
    obtain ⟨ok', m', hm'⟩ := malloc_eq { t with growStarted := t.growStarted + 1, mem := m }
    rw [hm]
    dsimp only
    rw [hm']
    dsimp only
    split
    · exact growRehash_grown reseed t m'
    · exact hoom m'

/-- A counted stash without words is the empty one. -/
lemma Stash.Counted.eq_empty (hs : s.Counted) (hn : ∀ i, s.slots i = none) : s = .empty := by
  have hh : hits s.slots (fun _ => True) = ∅ := by
    rw [Set.eq_empty_iff_forall_notMem]
    exact fun x => notMem_hits (hn x)
  rw [Stash.Counted, hh, Set.encard_empty, Nat.cast_eq_zero] at hs
  have hslots : s.slots = fun _ => none := funext hn
  cases s
  cases hs
  cases hslots
  rfl

/-- A rehash with the seed of the table keeps the words placed and the live records the same. -/
lemma Placed.regrow {g' : Gen} {s' : Stash} (hs : Placed c) (hn : 0 < c.gen.numBuckets)
    (hg : GrowSafe false c) (he : Htc.rehash c.recs c.gen.seed c.gen.words
      (Gen.fresh (c.gen.numBuckets * 2) c.gen.seed) .empty =
      some (g', s')) :
    Placed { c with gen := g', stash := s' } ∧ Same c { c with gen := g', stash := s' } := by
  have hst :=
    (hs.toStored.emptied (c.gen.numBuckets * 2) c.gen.seed).rehash (hs.toStored.remaining _ _) he
  refine ⟨(hs.emptied hg).rehash (hs.toStored.remaining _ _) (fun w hw => ?_) he, ?_,
    fun j _ => rfl⟩
  · obtain ⟨b, j, -, -, hw⟩ := mem_words.mp hw
    exact hs.keyed _ (mem_live (p := .slot (b, j)) hw)
  have hl := hst.live
  rw [hs.live_eq hn hg.stash] at hl
  exact hl

/-- A table without live records has no words to rehash. -/
lemma words_of_live_empty (hl : c.live = ∅) : c.gen.words = [] := by
  rw [List.eq_nil_iff_forall_not_mem]
  intro w hw
  obtain ⟨b, j, -, -, hw⟩ := mem_words.mp hw
  have h := mem_live (p := .slot (b, j)) hw
  rw [hl] at h
  exact h

/-- A grow that loses nothing keeps the words placed and the live records as they are. -/
lemma Grown.placed {reseed : Bool} {e : HtcError} (hgr : Grown reseed t e t') (hs : Placed t.toCore)
    (hn : 0 < t.gen.numBuckets) (hg : GrowSafe reseed t.toCore) :
    Placed t'.toCore ∧ Same t.toCore t'.toCore := by
  rcases hgr.core with ⟨-, -, g, s, he, hc⟩ | ⟨-, hc | hc⟩
  · rw [hc]
    cases reseed with
    | false => exact hs.regrow hn hg he
    | true =>
      have hl := hg.seed rfl
      rw [words_of_live_empty hl] at he
      cases he
      have hl' : (t.emptied (t.gen.numBuckets * 2) (growSeed true t)).live = ∅ :=
        Set.subset_eq_empty (emptied_live_subset _ _) hl
      exact ⟨(settled_of_live_empty (hs.toStored.emptied _ _) hl' (.fresh _ _)).placed,
        hl'.trans hl.symm, fun j _ => rfl⟩
  · rw [hc]
    exact ⟨hs, .refl _⟩
  · have he : t'.toCore = t.toCore := by
      rw [hc, ← hs.stash.eq_empty hg.stash]
    rw [he]
    exact ⟨hs, .refl _⟩

/-- A grow that loses nothing keeps a table settled and its live records as they are. -/
lemma Grown.settled {reseed : Bool} {e : HtcError} (hgr : Grown reseed t e t')
    (hs : Settled t.toCore) (hn : 0 < t.gen.numBuckets) (hg : GrowSafe reseed t.toCore) :
    Settled t'.toCore ∧ Same t.toCore t'.toCore := by
  obtain ⟨hp, hsame⟩ := hgr.placed hs.placed hn hg
  exact ⟨hp.settled (hsame.injOn hs.keys), hsame⟩

/-- A grow keeps the words denoting different records. -/
lemma Grown.stored {reseed : Bool} {e : HtcError} (hg : Grown reseed t e t')
    (hs : Stored t.toCore) :
    Stored t'.toCore := by
  rcases hg.core with ⟨-, -, g, s, he, hc⟩ | ⟨-, hc | hc⟩
  · rw [hc]
    exact ((hs.emptied (t.gen.numBuckets * 2) (growSeed reseed t)).rehash
      (hs.remaining _ _) he).stored
  · rw [hc]
    exact hs
  · rw [hc]
    exact hs.dropStash

/-- A grow leaves the record store alone. -/
lemma Grown.store {reseed : Bool} {e : HtcError} (hg : Grown reseed t e t') :
    t'.recs = t.recs ∧ t'.count = t.count ∧ t'.freeIdx = t.freeIdx ∧
      t'.shardCount = t.shardCount := by
  rcases hg.core with ⟨-, -, g, s, -, hc⟩ | ⟨-, hc | hc⟩ <;> rw [hc] <;> exact ⟨rfl, rfl, rfl, rfl⟩

end Draugr.Htc
