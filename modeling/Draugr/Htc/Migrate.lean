import Draugr.Htc.Records

/-!
# Lazy migration

`htc_resize_start` publishes an empty generation in front of the current one, `htc_migrate_chunk`
copies the words of 64 buckets from the old generation to the new one and clears them there, and
`htc_resize_finish` drops the old generation when the bitmap says that every chunk was migrated. The
calls migrate the chunks of their own two buckets first.

* `Resizing` is the table with the chain of `gen->old`, the newest first. The state of a generation
  behind the current one is `HTC_GEN_OLD`, so `htc_find` does not look into it.
* `tableBuckets` is `t->num_buckets`, which a lazy resize leaves alone.
* A call of `htc_insert` that starts `htc_grow` is left out: `htc_grow` rehashes `t->buckets`, which
  after `htc_resize_start` are no longer the buckets of the current generation.

`Mid c o` says that the words of the old generation `o` wait for their migration: they sit in a
bucket of their key there, their records are in use, and no key has a word in both generations. The
copy of one slot keeps it (`Mid.migrateSlot`), with a target that is full or takes the word.
-/

namespace Draugr.Htc
open Draugr.Lib

/-- `HTC_CHUNK_SIZE`. -/
def chunkSize : ℕ := 64

/-- `htc_chunk_of`. -/
def chunkOf (bucket : ℕ) : ℕ := bucket / chunkSize

/-- `chunk_count` of a generation. -/
def Gen.chunkCount (g : Gen) : ℕ := (g.numBuckets + chunkSize - 1) / chunkSize

/-- `htc_table_t` with the generations behind the current one and the `migrated_bitmap` of the
current one. -/
structure Resizing extends Table where
  old : List Gen
  migrated : ℕ → Bool
  tableBuckets : ℕ

/-- The number of buckets that `htc_resize_start` takes. -/
def resizeBuckets (newNumBuckets : ℕ) : ℕ := doubleUntil (max 4 newNumBuckets) 31 1

/-- `htc_resize_start`. -/
def htcResizeStart (newNumBuckets : ℕ) (s : Resizing) : Bool × Resizing :=
  let (gen, t) := s.toTable.malloc
  if !gen then (false, { s with toTable := t })
  else
    let (buckets, t) := t.malloc
    let (metas, t) := t.malloc
    if !(buckets && metas) then (false, { s with toTable := t })
    else
      let (bitmap, t) := t.malloc
      if !bitmap then (false, { s with toTable := t })
      else
        (true, { s with
          toTable := { t with gen := Gen.fresh (resizeBuckets newNumBuckets) t.gen.seed }
          old := t.gen :: s.old
          migrated := fun _ => false })

/-- The bucket of a word with its placement hash: the secondary one if its bit is set. -/
def Gen.home (g : Gen) (ph : ℕ) (inSec : Bool) : ℕ := if inSec then g.secondary ph else g.primary ph

/-- The CAS loop over a bucket: the slot it claims. -/
def Gen.firstEmpty (g : Gen) (b : ℕ) : Option ℕ :=
  (List.range bucketSlots).find? fun i => (g.slots (b, i)).isNone

/-- The copy of one slot by `htc_migrate_chunk`; the state is the new and the old generation. -/
def migrateSlot (recs : ℕ → HtcRecord) (s : Gen × Gen) (x : ℕ × ℕ) : Gen × Gen :=
  match s.2.slots x with
  | none => s
  | some w =>
    let idHash := (recs w.idx).identityHash
    let ph := placementHash idHash s.1.seed
    let tag := tag16 ph
    let b1 := s.1.primary ph
    let b2 := s.1.secondary ph
    let target := s.1.home ph w.inSec
    -- a key that the new generation has already is dropped from the old one
    if (htcBucketScan s.1 recs b1 idHash tag false).isSome then (s.1, s.2.clear x)
    else if s.1.mustCheckSecondary b1 tag && (htcBucketScan s.1 recs b2 idHash tag true).isSome then
      (s.1, s.2.clear x)
    else
      -- no displacement: a word without room in its bucket stays where it is
      match s.1.firstEmpty target with
      | none => s
      | some i =>
        let g := s.1.put (target, i) ⟨w.idx, tag, w.inSec⟩
        (if w.inSec then g.remapInc b1 tag else g, s.2.clear x)

/-- The slots of a chunk in the order in which `htc_migrate_chunk` reads them. -/
def chunkSlots (chunk : ℕ) (g o : Gen) : List (ℕ × ℕ) :=
  let start := chunk * chunkSize
  let stop := min (min (start + chunkSize) o.numBuckets) g.numBuckets
  List.range' start (stop - start) ×ˢ List.range bucketSlots

/-- `htc_migrate_chunk`. -/
def htcMigrateChunk (chunk : ℕ) (s : Resizing) : Resizing :=
  match s.old with
  | [] => s
  | o :: os =>
    let r := (chunkSlots chunk s.gen o).foldl (migrateSlot s.recs) (s.gen, o)
    { s with
      gen := r.1
      old := r.2 :: os
      migrated := Function.update s.migrated chunk true }

/-- `htc_ensure_chunk_migrated`. -/
def htcEnsureChunkMigrated (bucket : ℕ) (s : Resizing) : Resizing :=
  if s.old.isEmpty then s
  else if s.gen.chunkCount ≤ chunkOf bucket then s
  else if s.migrated (chunkOf bucket) then s
  else htcMigrateChunk (chunkOf bucket) s

/-- The chunks of the two buckets of a key are migrated before its call goes on. -/
def Resizing.ensure (hash : ℕ) (s : Resizing) : Resizing :=
  let ph := placementHash hash s.gen.seed
  let b1 := s.gen.primary ph
  let b2 := s.gen.secondary ph
  let s := htcEnsureChunkMigrated b1 s
  if b2 ≠ b1 then htcEnsureChunkMigrated b2 s else s

/-- Every bit of `migrated_bitmap` is set. -/
def Resizing.allDone (s : Resizing) : Bool := (List.range s.gen.chunkCount).all s.migrated

/-- `htc_resize_finish`. -/
def htcResizeFinish (s : Resizing) : Resizing :=
  if s.old.isEmpty then s
  else if s.allDone then { s with old := [] }
  else s

/-- `htc_find_in_old_gen`: the value it stores, or `none` for `false`. -/
def htcFindInOldGen (recs : ℕ → HtcRecord) (identityHash : ℕ) : List Gen → Option ℕ
  | [] => none
  | g :: gs =>
    let ph := placementHash identityHash g.seed
    let isFor := Word.isFor recs identityHash (tag16 ph)
    let b1 := g.primary ph
    let b2 := g.secondary ph
    let valueAt := fun x => (g.slots x).map fun w => (recs w.idx).userValue
    match slowScan bucketSlots (fun i => g.slots (b1, i)) fun w => isFor w && !w.inSec with
    | some i => valueAt (b1, i)
    | none =>
      match if g.mustCheckSecondary b1 (tag16 ph)
        then slowScan bucketSlots (fun i => g.slots (b2, i)) fun w => isFor w && w.inSec
          else none with
      | some i => valueAt (b2, i)
      | none => htcFindInOldGen recs identityHash gs

/-! ## The calls while a resize is under way -/

/-- `insert_done`; `none` is a call that starts `htc_grow`. -/
def insertDoneLazy (s : Resizing) : Option Resizing :=
  let s := { s with size := s.size + 1 }
  if (s.size : ℚ) / s.tableBuckets > s.maxLoadFactor then none else some s

/-- `htc_insert` after its migrations; `none` is a call that starts `htc_grow`. -/
def insertEnsured (hash value : ℕ) (s : Resizing) : Option (HtcError × Resizing) :=
  match insertAttempt hash value s.toTable with
  | .stop e t => some (e, { s with toTable := t })
  | .entered t => (insertDoneLazy { s with toTable := t }).map fun s => (.ok, s)
  | .overflow _ => none

/-- `htc_insert`. -/
def insertLazy (hash value : ℕ) (s : Resizing) : Option (HtcError × Resizing) :=
  insertEnsured hash value (s.ensure hash)

/-- `htc_update` after its migrations. -/
def updateEnsured (hash value : ℕ) (s : Resizing) : HtcError × Resizing :=
  match htcUpdate hash value s.toTable with
  | (.notFound, t) =>
    let s := { s with toTable := t }
    (.notFound, if (htcFindInOldGen s.recs hash s.old).isSome then s.ensure hash else s)
  | (e, t) => (e, { s with toTable := t })

/-- `htc_update`. -/
def updateLazy (hash value : ℕ) (s : Resizing) : HtcError × Resizing :=
  updateEnsured hash value (s.ensure hash)

/-- The primary bucket of a key is searched once more. -/
def removePrimary (hash : ℕ) (s : Resizing) : HtcError × Resizing :=
  let ph := placementHash hash s.gen.seed
  let b1 := s.gen.primary ph
  match htcBucketScan s.gen s.recs b1 hash (tag16 ph) false with
  | some i =>
    let idx := s.idxAt (.slot (b1, i))
    (.ok, { s with toTable := removeDone hash idx { s.toTable with gen := s.gen.clear (b1, i) } })
  | none => (.notFound, s)

/-- The end of `htc_remove` for a key that the search did not find: a hit in an old generation
migrates the chunks of the key once more and looks into its primary bucket. -/
def removeFallback (hash : ℕ) (s : Resizing) : HtcError × Resizing :=
  if (htcFindInOldGen s.recs hash s.old).isSome then removePrimary hash (s.ensure hash)
  else (.notFound, s)

/-- `htc_remove` after its migrations. -/
def removeEnsured (hash : ℕ) (s : Resizing) : Option (HtcError × Resizing) :=
  (htcRemove hash s.toTable).map fun r =>
    match r with
    | (.notFound, t) => removeFallback hash { s with toTable := t }
    | (e, t) => (e, { s with toTable := t })

/-- `htc_remove`. -/
def removeLazy (hash : ℕ) (s : Resizing) : Option (HtcError × Resizing) :=
  removeEnsured hash (s.ensure hash)

/-! ## Buckets of both generations -/

variable {c c' c'' : Core} {g o o' o'' : Gen} {w : Word} {i h ph : ℕ} {x : ℕ × ℕ}

/-- The numbers of buckets are powers of two, and the old one is not larger. -/
def Grows (o g : Gen) : Prop := ∃ j k, o.numBuckets = 2 ^ j ∧ g.numBuckets = 2 ^ (j + k)

/-- The primary bucket of the old generation. -/
lemma Grows.primary (hg : Grows o g) (ph : ℕ) : g.primary ph % o.numBuckets = o.primary ph := by
  obtain ⟨j, k, ho, hg⟩ := hg
  rw [Gen.primary, Gen.primary, ho, hg]
  exact Nat.mod_mod_of_dvd _ (pow_dvd_pow 2 (Nat.le_add_right j k))

/-- The secondary bucket of the old generation. -/
lemma Grows.secondary (hg : Grows o g) (ph : ℕ) :
    g.secondary ph % o.numBuckets = o.secondary ph := by
  have hp := hg.primary ph
  obtain ⟨j, k, ho, hg⟩ := hg
  rw [Gen.secondary, Gen.secondary, hg, ho,
    Nat.mod_mod_of_dvd _ (pow_dvd_pow 2 (Nat.le_add_right j k)), altBucket,
    altBucket, Nat.xor_mod_two_pow, Nat.xor_mod_two_pow (a := o.primary ph)]
  rw [ho] at hp
  rw [hp, ← hp, Nat.mod_mod]

/-- The bucket of a word in the old generation. -/
lemma Grows.home (hg : Grows o g) (ph : ℕ) (inSec : Bool) :
    g.home ph inSec % o.numBuckets = o.home ph inSec := by
  cases inSec with
  | true => exact hg.secondary ph
  | false => exact hg.primary ph

/-- Two buckets of a key that differ in the old generation differ in the new one. -/
lemma Grows.ne (hg : Grows o g) (hne : o.secondary ph ≠ o.primary ph) :
    g.secondary ph ≠ g.primary ph := by
  intro he
  rw [← hg.secondary, he, hg.primary] at hne
  exact hne rfl

/-! ## Words that wait for their migration -/

/-- The records of the words of an old generation. -/
def Gen.waiting (o : Gen) : Set ℕ := held Word.idx o.slots

/-- The words of the old generation `o` wait for their migration. -/
structure Mid (c : Core) (o : Gen) : Prop where
  settled : Settled c
  seed : o.seed = c.gen.seed
  grows : Grows o c.gen
  separate : Separate Word.idx o.slots
  used : o.waiting ⊆ c.used
  notLive : ∀ i ∈ o.waiting, i ∉ c.live
  keyed : ∀ i ∈ o.waiting, (c.recs i).placementHash = c.hashOf i
  tag : ∀ x w, o.slots x = some w → w.tag = tag16 (c.hashOf w.idx)
  seat : ∀ x w, o.slots x = some w → x.2 < bucketSlots ∧ x.1 = o.home (c.hashOf w.idx) w.inSec
  apart : ∀ x w, o.slots x = some w → w.inSec = true →
    o.secondary (c.hashOf w.idx) ≠ o.primary (c.hashOf w.idx)
  hint : ∀ x w, o.slots x = some w → w.inSec = true →
    o.mustCheckSecondary (o.primary (c.hashOf w.idx)) w.tag = true
  keys : Set.InjOn c.keyOf (c.live ∪ o.waiting)

/-- A word of the old generation waits. -/
lemma mem_waiting (hx : o.slots x = some w) : w.idx ∈ o.waiting := ⟨x, w, hx, rfl⟩

/-- A word of the old generation is in one of its buckets. -/
lemma Mid.lt_buckets (hm : Mid c o) (hx : o.slots x = some w) : x.1 < o.numBuckets := by
  obtain ⟨j, k, ho, -⟩ := hm.grows
  have hpos : 0 < o.numBuckets := by
    rw [ho]
    exact Nat.two_pow_pos j
  rw [(hm.seat x w hx).2, Gen.home]
  split
  · exact Nat.mod_lt _ hpos
  · exact Nat.mod_lt _ hpos

/-- A record that waits can join the table. -/
lemma Mid.welcome (hm : Mid c o) (hi : i ∈ o.waiting) : Welcome c i where
  lt := (hm.used hi).1
  notFree := (hm.used hi).2.1
  notLive := hm.notLive i hi
  flags := (hm.used hi).2.2
  keyed := hm.keyed i hi
  absent j hj he := by
    have h := hm.keys (.inl hj) (.inr hi) he
    subst h
    exact hm.notLive j hi hj

/-- The new generation has no word for a key that waits. -/
lemma Mid.scan_none (hm : Mid c o) (hi : i ∈ o.waiting) (b tag : ℕ) (sec : Bool) :
    htcBucketScan c.gen c.recs b (c.recs i).identityHash tag sec = none := by
  cases hs : htcBucketScan c.gen c.recs b (c.recs i).identityHash tag sec with
  | none => rfl
  | some k =>
    obtain ⟨v, -, hv, -, hfor⟩ := htcBucketScan_some hs
    exact absurd (isFor_iff.mp hfor).2.1
      ((hm.welcome hi).absent v.idx (mem_live (p := .slot (b, k)) hv))

/-- What the copy of a slot does: its word goes to an empty slot of its bucket, or its bucket is
full. -/
lemma Mid.migrateSlot_cases {tag : ℕ} {sec : Bool} (hm : Mid c o)
    (hx : o.slots x = some ⟨i, tag, sec⟩) :
    (∃ k, k < bucketSlots ∧ c.gen.slots (c.gen.home (c.hashOf i) sec, k) = none ∧
      migrateSlot c.recs (c.gen, o) x =
        (c.gen.enter (c.gen.primary (c.hashOf i)) (c.gen.home (c.hashOf i) sec, k)
          { c.wordOf i with inSec := sec }, o.clear x)) ∨
    (∀ k < bucketSlots, c.gen.slots (c.gen.home (c.hashOf i) sec, k) ≠ none) ∧
      migrateSlot c.recs (c.gen, o) x = (c.gen, o) := by
  have hi : i ∈ o.waiting := mem_waiting hx
  have hph : placementHash (c.recs i).identityHash c.gen.seed = c.hashOf i := rfl
  rw [migrateSlot, hx]
  dsimp only
  rw [hm.scan_none hi, hm.scan_none hi, if_neg (by exact Bool.false_ne_true), Option.isSome_none,
    Bool.and_false, if_neg Bool.false_ne_true, hph, Core.wordOf]
  clear hph
  generalize c.hashOf i = ph
  cases hf : c.gen.firstEmpty (c.gen.home ph sec) with
  | none =>
    refine .inr ⟨fun k hk he => ?_, rfl⟩
    have hn := List.find?_eq_none.mp hf k (List.mem_range.mpr hk)
    rw [he] at hn
    exact hn rfl
  | some k =>
    have hk := List.find?_some hf
    refine .inl ⟨k, List.mem_range.mp (List.mem_of_find?_eq_some hf), by simpa using hk, ?_⟩
    cases sec <;> rfl

/-- What the migration of the slots of a list does to both generations. -/
structure Migrated (l : List (ℕ × ℕ)) (c : Core) (o : Gen) (c' : Core) (o' : Gen) : Prop where
  core : c' = { c with gen := c'.gen }
  frame : Frame c c'
  mid : Mid c' o'
  all : c'.live ∪ o'.waiting = c.live ∪ o.waiting
  buckets : o'.numBuckets = o.numBuckets
  live : c.live ⊆ c'.live
  only : ∀ y v, o'.slots y = some v → o.slots y = some v
  rest : ∀ y ∉ l, o'.slots y = o.slots y
  origin : ∀ y v, c'.gen.slots y = some v →
    c.gen.slots y = some v ∨ ∃ z u, o.slots z = some u ∧ u.idx = v.idx ∧ z.1 = y.1 % o.numBuckets

/-- Nothing is moved. -/
lemma Migrated.refl (l : List (ℕ × ℕ)) (hm : Mid c o) : Migrated l c o c o :=
  ⟨rfl, .refl c, hm, rfl, rfl, subset_rfl, fun _ _ h => h, fun _ _ => rfl, fun _ _ h => .inl h⟩

/-- The migrations of two lists, one after the other. -/
lemma Migrated.trans {l l' : List (ℕ × ℕ)} (h : Migrated l c o c' o')
    (h' : Migrated l' c' o' c'' o'') :
    Migrated (l ++ l') c o c'' o'' where
  core := by rw [h'.core, h.core]
  frame := h.frame.trans h'.frame
  mid := h'.mid
  all := h'.all.trans h.all
  buckets := h'.buckets.trans h.buckets
  live := h.live.trans h'.live
  only y v hy := h.only y v (h'.only y v hy)
  rest y hy := by
    rw [List.mem_append, not_or] at hy
    rw [h'.rest y hy.2, h.rest y hy.1]
  origin y v hy := by
    rcases h'.origin y v hy with hy | ⟨z, u, hz, hu⟩
    · exact h.origin y v hy
    · rw [h.buckets] at hu
      exact .inr ⟨z, u, h.only z u hz, hu⟩

/-- The bucket of a word is a seat of its key. -/
lemma seat_home {k : ℕ} (hk : k < bucketSlots)
    (hne : w.inSec = true → c.gen.secondary ph ≠ c.gen.primary ph) :
    c.Seat ph w (.slot (c.gen.home ph w.inSec, k)) := by
  refine ⟨hk, ?_⟩
  cases hs : w.inSec with
  | true => exact ⟨rfl, hne hs⟩
  | false => rfl

/-- A word goes to an empty slot of its bucket in the new generation. -/
lemma Mid.move {k tag : ℕ} {sec : Bool} (hm : Mid c o) (hx : o.slots x = some ⟨i, tag, sec⟩)
    (hk : k < bucketSlots) (hn : c.gen.slots (c.gen.home (c.hashOf i) sec, k) = none) :
    Migrated [x] c o
      { c with
        gen := c.gen.enter (c.gen.primary (c.hashOf i)) (c.gen.home (c.hashOf i) sec, k)
          { c.wordOf i with inSec := sec } }
      (o.clear x) := by
  have hi : i ∈ o.waiting := mem_waiting hx
  have hw := hm.welcome hi
  have hseat :
      c.Seat (c.hashOf i) { c.wordOf i with inSec := sec }
        (.slot (c.gen.home (c.hashOf i) sec, k)) :=
    seat_home hk fun hs => hm.grows.ne (hm.apart x ⟨i, tag, sec⟩ hx hs)
  have hj : Joined c { c with
      gen := c.gen.enter (c.gen.primary (c.hashOf i)) (c.gen.home (c.hashOf i) sec, k)
        { c.wordOf i with inSec := sec } } i :=
    hm.settled.toStored.putSlot
      (w := { c.wordOf i with inSec := sec }) hn hw.toReady enter_slots enter_numBuckets
      enter_seed
  have hset := hm.settled.joined hw hj (hm.settled.placed.enter sec hw.filed hn hseat)
  have hwait : (o.clear x).waiting = o.waiting \ {i} := held_clear hm.separate hx
  generalize hg : c.gen.enter (c.gen.primary (c.hashOf i)) (c.gen.home (c.hashOf i) sec, k)
    { c.wordOf i with inSec := sec } = g at hj hset
  have hslots : g.slots = Function.update c.gen.slots (c.gen.home (c.hashOf i) sec, k)
      (some { c.wordOf i with inSec := sec }) := by rw [← hg, enter_slots]
  -- the record waits no longer, it is live
  have hall : Core.live { c with gen := g } ∪ (o.clear x).waiting = c.live ∪ o.waiting := by
    rw [hj.live, hwait, Set.insert_union, ← Set.union_insert, Set.insert_sdiff_singleton,
      Set.insert_eq_of_mem hi]
  have hold : ∀ y v, (o.clear x).slots y = some v → o.slots y = some v := fun y v hy =>
    (update_none_cases hy).2
  refine ⟨rfl, hj.frame,
    ⟨hset, hm.seed.trans hj.frame.seed.symm, ?_, hm.separate.clear, ?_, ?_, ?_, ?_, ?_, ?_, ?_, ?_⟩,
    hall, rfl, ?_, hold, ?_, ?_⟩
  · obtain ⟨j, n, ho, hn⟩ := hm.grows
    exact ⟨j, n, ho, hj.frame.numBuckets.trans hn⟩
  · rw [hj.frame.untouched.used, hwait]
    exact Set.sdiff_subset.trans hm.used
  · intro j hjw
    rw [hwait] at hjw
    rw [hj.live]
    rintro (rfl | hl)
    · exact hjw.2 rfl
    · exact hm.notLive j hjw.1 hl
  · intro j hjw
    rw [hwait] at hjw
    rw [hj.frame.hashOf]
    exact hm.keyed j hjw.1
  · rw [hj.frame.hashOf]
    exact fun y v hy => hm.tag y v (hold y v hy)
  · rw [hj.frame.hashOf]
    exact fun y v hy => hm.seat y v (hold y v hy)
  · rw [hj.frame.hashOf]
    exact fun y v hy => hm.apart y v (hold y v hy)
  · rw [hj.frame.hashOf]
    exact fun y v hy => hm.hint y v (hold y v hy)
  · rw [hall, hj.frame.keyOf]
    exact hm.keys
  · rw [hj.live]
    exact Set.subset_insert _ _
  · intro y hy
    exact Function.update_of_ne (List.mem_singleton.not.mp hy) ..
  · intro y v hy
    change g.slots y = some v at hy
    rw [hslots] at hy
    rcases update_some_cases hy with ⟨rfl, rfl⟩ | ⟨-, hy⟩
    · refine .inr ⟨x, ⟨i, tag, sec⟩, hx, rfl, ?_⟩
      rw [hm.grows.home]
      exact (hm.seat x ⟨i, tag, sec⟩ hx).2
    · exact .inl hy

/-- The copy of a slot. -/
lemma Mid.migrateSlot (hm : Mid c o) (x : ℕ × ℕ) :
    Migrated [x] c o { c with gen := (Htc.migrateSlot c.recs (c.gen, o) x).1 }
      (Htc.migrateSlot c.recs (c.gen, o) x).2 := by
  cases hx : o.slots x with
  | none =>
    have he : Htc.migrateSlot c.recs (c.gen, o) x = (c.gen, o) := by rw [Htc.migrateSlot, hx]
    rw [he]
    exact .refl _ hm
  | some w =>
    obtain ⟨i, tag, sec⟩ := w
    rcases hm.migrateSlot_cases hx with ⟨k, hk, hn, he⟩ | ⟨-, he⟩
    · rw [he]
      exact hm.move hx hk hn
    · rw [he]
      exact .refl _ hm

/-- The loops of `htc_migrate_chunk`. -/
lemma Mid.migrateSlots : ∀ {l : List (ℕ × ℕ)} {c : Core} {o : Gen}, Mid c o →
    Migrated l c o { c with gen := (l.foldl (Htc.migrateSlot c.recs) (c.gen, o)).1 }
      (l.foldl (Htc.migrateSlot c.recs) (c.gen, o)).2
  | [], c, o, hm => .refl [] hm
  | x :: l, c, o, hm => by
    have h := hm.migrateSlot x
    exact h.trans (h.mid.migrateSlots (l := l))

/-- `htc_find_in_old_gen` finds the keys that wait. -/
lemma Mid.findInOldGen (hm : Mid c o) {v : ℕ} :
    htcFindInOldGen c.recs h [o] = some v ↔
      ∃ i ∈ o.waiting, c.keyOf i = h ∧ (c.recs i).userValue = v := by
  obtain ⟨ph, hph⟩ : ∃ ph, ph = placementHash h o.seed := ⟨_, rfl⟩
  have hvalue : ∀ {y u}, o.slots y = some u →
      (o.slots y).map (fun w => (c.recs w.idx).userValue) = some (c.recs u.idx).userValue := by
    intro y u hy
    rw [hy, Option.map_some]
  have hmissed : ∀ {y u}, o.slots y = some u → c.keyOf u.idx = h →
      u.isFor c.recs h (tag16 ph) = true := by
    rintro y u hy rfl
    rw [hph, hm.seed]
    exact isFor_iff.mpr ⟨hm.tag y u hy, rfl, (hm.used (mem_waiting hy)).2.2⟩
  have hsound : ∀ {y u ok}, o.slots y = some u →
      (u.isFor c.recs h (tag16 ph) && ok) = true → c.keyOf u.idx = h := by
    intro y u ok hy hu
    exact (isFor_iff.mp (Bool.and_eq_true _ _ ▸ hu).1).2.1
  have hone : ∀ {y u}, o.slots y = some u → c.keyOf u.idx = h → ((c.recs u.idx).userValue = v ↔
      ∃ i ∈ o.waiting, c.keyOf i = h ∧ (c.recs i).userValue = v) := by
    intro y u hy hk
    refine ⟨fun hv => ⟨u.idx, mem_waiting hy, hk, hv⟩, ?_⟩
    rintro ⟨i, hi, hki, hv⟩
    rw [hm.keys (.inr (mem_waiting hy)) (.inr hi) (hk.trans hki.symm)]
    exact hv
  -- primary bucket first, then the secondary one if the hint asks for it
  simp only [htcFindInOldGen, ← hph]
  split
  · next k hk =>
    obtain ⟨u, -, hu, hok⟩ := slowScan_some hk
    rw [hvalue hu, Option.some_inj]
    exact hone hu (hsound hu hok)
  next h1 =>
  split
  · next k hk =>
    split at hk
    · obtain ⟨u, -, hu, hok⟩ := slowScan_some hk
      rw [hvalue hu, Option.some_inj]
      exact hone hu (hsound hu hok)
    · cases hk
  next h2 =>
  -- a word in its seat would have been met
  refine iff_of_false (fun hf => by cases hf) ?_
  rintro ⟨i, ⟨y, u, hu, rfl⟩, hk, -⟩
  have hfor := hmissed hu hk
  obtain ⟨hlt, hhome⟩ := hm.seat y u hu
  have hhash : c.hashOf u.idx = ph := by rw [Core.hashOf, hk, hph, hm.seed]
  rw [hhash] at hhome
  cases hs : u.inSec with
  | false =>
    rw [hs] at hhome
    have hmiss :=
      slowScan_none h1 hlt (w := u) (by rw [← show y.1 = o.primary _ from hhome]; exact hu)
    rw [hfor, hs] at hmiss
    cases hmiss
  | true =>
    rw [hs] at hhome
    have hint := hm.hint y u hu hs
    rw [hm.tag y u hu, hhash] at hint
    rw [if_pos hint] at h2
    have hmiss :=
      slowScan_none h2 hlt (w := u) (by rw [← show y.1 = o.secondary _ from hhome]; exact hu)
    rw [hfor, hs] at hmiss
    cases hmiss

/-! ## Room in the new generation

While nothing but migrations brings words into the new generation, each of its buckets holds words
of one bucket of the old generation only, so that there is a slot for every word that waits.
-/

/-- The words of both generations come from the buckets of `orig`. -/
structure Rooted (orig : Gen) (c : Core) (o : Gen) : Prop where
  buckets : o.numBuckets = orig.numBuckets
  lt : ∀ x w, orig.slots x = some w → x.2 < bucketSlots
  old : ∀ x w, o.slots x = some w → orig.slots x = some w
  new : ∀ y v, c.gen.slots y = some v →
    ∃ k u, orig.slots (y.1 % orig.numBuckets, k) = some u ∧ u.idx = v.idx

variable {orig : Gen}

/-- There is an empty slot for a word that waits. -/
lemma Rooted.room {tag : ℕ} {sec : Bool} (hr : Rooted orig c o) (hm : Mid c o)
    (hx : o.slots x = some ⟨i, tag, sec⟩) :
    ∃ k < bucketSlots, c.gen.slots (c.gen.home (c.hashOf i) sec, k) = none := by
  by_contra hfull
  have hword : ∀ k, k < bucketSlots → ∃ v,
      c.gen.slots (c.gen.home (c.hashOf i) sec, k) = some v := by
    intro k hk
    refine Option.ne_none_iff_exists'.mp fun hn => hfull ⟨k, hk, hn⟩
  have hb : c.gen.home (c.hashOf i) sec % orig.numBuckets = x.1 := by
    rw [← hr.buckets, hm.grows.home]
    exact (hm.seat x ⟨i, tag, sec⟩ hx).2.symm
  -- every word of the full bucket has a place of its own in the bucket of the word that waits
  have hplace : ∀ k, ∃ p, k < bucketSlots → p < bucketSlots ∧
      ∃ v u, c.gen.slots (c.gen.home (c.hashOf i) sec, k) = some v ∧ orig.slots (x.1, p) = some u ∧
      u.idx = v.idx := by
    intro k
    by_cases hk : k < bucketSlots
    · obtain ⟨v, hv⟩ := hword k hk
      obtain ⟨p, u, hu, he⟩ := hr.new _ v hv
      rw [hb] at hu
      exact ⟨p, fun _ => ⟨hr.lt (x.1, p) u hu, v, u, hv, hu, he⟩⟩
    · exact ⟨0, fun h => absurd h hk⟩
  choose pos hpos using hplace
  have hmaps : Set.MapsTo pos (Finset.range bucketSlots) (Finset.range bucketSlots) := by
    intro k hk
    rw [Finset.mem_coe, Finset.mem_range] at hk ⊢
    exact (hpos k hk).1
  have hinj : Set.InjOn pos (Finset.range bucketSlots) := by
    intro k hk k' hk' he
    rw [Finset.mem_coe, Finset.mem_range] at hk hk'
    obtain ⟨-, v, u, hv, hu, hvu⟩ := hpos k hk
    obtain ⟨-, v', u', hv', hu', hvu'⟩ := hpos k' hk'
    rw [he, hu'] at hu
    cases hu
    have hs := hm.settled.separate (.slot _) (.slot _) v v' hv hv' (hvu.symm.trans hvu')
    exact (Prod.mk.inj (Place.slot.inj hs)).2
  obtain ⟨k, hk, he⟩ := Finset.surjOn_of_injOn_of_card_le pos hmaps hinj le_rfl
    (Finset.mem_coe.mpr (Finset.mem_range.mpr (hr.lt x _ (hr.old x _ hx))))
  rw [Finset.mem_coe, Finset.mem_range] at hk
  obtain ⟨-, v, u, hv, hu, hvu⟩ := hpos k hk
  rw [he, hr.old x _ hx] at hu
  cases hu
  refine hm.notLive i (mem_waiting hx) ?_
  rw [show i = v.idx from hvu]
  exact mem_live (p := .slot _) hv

/-- Migrations keep the roots. -/
lemma Rooted.moved {l : List (ℕ × ℕ)} (hr : Rooted orig c o) (h : Migrated l c o c' o') :
    Rooted orig c' o' where
  buckets := h.buckets.trans hr.buckets
  lt := hr.lt
  old y v hy := hr.old y v (h.only y v hy)
  new y v hy := by
    rcases h.origin y v hy with hy | ⟨z, u, hz, hu, hzy⟩
    · exact hr.new y v hy
    · refine ⟨z.2, u, ?_, hu⟩
      rw [← hr.buckets, ← hzy]
      exact hr.old z u hz

/-- The copy of a slot clears it. -/
lemma Rooted.migrateSlot (hr : Rooted orig c o) (hm : Mid c o) (x : ℕ × ℕ) :
    (Htc.migrateSlot c.recs (c.gen, o) x).2.slots x = none := by
  cases hx : o.slots x with
  | none =>
    rw [Htc.migrateSlot, hx]
    exact hx
  | some w =>
    obtain ⟨i, tag, sec⟩ := w
    rcases hm.migrateSlot_cases hx with ⟨k, -, -, he⟩ | ⟨hfull, -⟩
    · rw [he]
      exact Function.update_self ..
    · obtain ⟨k, hk, hn⟩ := hr.room hm hx
      exact absurd hn (hfull k hk)

/-- The loops of `htc_migrate_chunk` clear the slots that they read. -/
lemma Rooted.migrateSlots : ∀ {l : List (ℕ × ℕ)} {c : Core} {o : Gen},
    Rooted orig c o → Mid c o → ∀ x ∈ l,
    (l.foldl (Htc.migrateSlot c.recs) (c.gen, o)).2.slots x = none
  | y :: l, c, o, hr, hm, x, hx => by
    have h := hm.migrateSlot y
    have hrest := h.mid.migrateSlots (l := l)
    rcases List.mem_cons.mp hx with rfl | hx
    · rw [← Option.not_isSome_iff_eq_none, Option.isSome_iff_exists]
      rintro ⟨v, hv⟩
      have hn := hr.migrateSlot hm x
      rw [hrest.only x v hv] at hn
      cases hn
    · exact (hr.moved h).migrateSlots h.mid x hx

/-! ## A chunk -/

/-- The slots of a chunk. -/
lemma mem_chunkSlots {chunk : ℕ} : x ∈ chunkSlots chunk g o ↔
    chunkOf x.1 = chunk ∧ x.1 < o.numBuckets ∧ x.1 < g.numBuckets ∧ x.2 < bucketSlots := by
  rw [chunkSlots, List.mem_product, List.mem_range'_1, List.mem_range, chunkOf, chunkSize]
  omega

end Draugr.Htc
