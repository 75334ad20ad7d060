import Mathlib.Data.Rat.Defs
import Mathlib.Data.List.Dedup
import Mathlib.Data.List.ProdSigma
import Mathlib.Logic.Function.Basic
import Draugr.Htc.Arena

/-!
# The concurrent cuckoo table

Model of `htc_table_t` of `src/htc.c` and `include/draugr/htc_internal.h`: buckets of eight slots
with control bytes and remap hints, per-shard stashes, the global stash, the record store, the
thread's front cache, and the calls `htc_insert`, `htc_upsert`, `htc_update`, `htc_remove`,
`htc_find`, `htc_grow`.

* A slot holds `some w` when its word is `LIVE` and `none` when it is `EMPTY`; no call writes
  another state, and none sets the hot bit.
* A place of a bucket is the pair of the bucket and the slot number. Arrays are functions on
  indices.
* `x & bucket_mask` is written `x % numBuckets`: the number of buckets is a power of two.
* The record store is ideal: an index denotes the record it was allocated for. `Htc/Arena` has the
  arena of the source, and `Htc/Store` says when the two agree. A retired record is freed at once,
  as it is when one thread runs.
* `mem` lists the outcomes of the allocations to come; an exhausted list stands for success.
* Sequence counters, epochs, statistics and the attached filter are left out, and so is `gen->old`,
  which is `NULL` from the moment a generation is published.

`htc_insert` is cut where it gives up its locks, so that `Htc/Concurrent` can interleave its parts.
-/

namespace Draugr.Htc

/-! ## Hashes, tags and buckets -/

/-- `htc_mix64`. -/
def mix64 (x : ℕ) : ℕ :=
  let x := x ^^^ (x >>> 30)
  let x := x * 0xbf58476d1ce4e5b9 % 2 ^ 64
  let x := x ^^^ (x >>> 27)
  let x := x * 0x94d049bb133111eb % 2 ^ 64
  x ^^^ (x >>> 31)

/-- `htc_mix32`. -/
def mix32 (x : ℕ) : ℕ :=
  let x := ((x >>> 16) ^^^ x) * 0x45d9f3b % 2 ^ 32
  let x := ((x >>> 16) ^^^ x) * 0x45d9f3b % 2 ^ 32
  (x >>> 16) ^^^ x

/-- `HTC_TAG_ZERO_REPLACEMENT`. -/
def tagZeroReplacement : ℕ := 1

/-- `htc_tag16`. -/
def tag16 (h : ℕ) : ℕ :=
  let t := ((h >>> 32) ^^^ (h >>> 48)) % 2 ^ 16
  if t = 0 then tagZeroReplacement else t

/-- `htc_partial8`. -/
def partial8 (tag : ℕ) : ℕ :=
  let p := (tag ^^^ (tag >>> 8)) % 2 ^ 8
  if p = 0 then tagZeroReplacement else p

/-- `htc_placement_hash`. -/
def placementHash (idHash seed : ℕ) : ℕ := mix64 (idHash ^^^ seed)

/-- `htc_alt_bucket`. -/
def altBucket (b1 h tag : ℕ) : ℕ := b1 ^^^ mix32 ((h >>> 32) % 2 ^ 32 ^^^ (tag <<< 16))

/-- `htc_seed`, as a function of the value of its counter. -/
def htcSeed (v : ℕ) : ℕ := mix64 (v * 0x9e3779b97f4a7c15 % 2 ^ 64)

/-- `htc_shard_of`. -/
def shardOf (bucket shardCount : ℕ) : ℕ := bucket % shardCount

/-- `HTC_BUCKET_SLOTS`. -/
def bucketSlots : ℕ := 8

/-- `HTC_STASH_MAX`. -/
def stashMax : ℕ := 32

/-- A live slot word: the index of its record, its tag and its secondary bit. -/
structure Word where
  idx : ℕ
  tag : ℕ
  inSec : Bool
  deriving DecidableEq, Repr

/-- `htc_table_gen_t` with the `htc_bucket_t` and `htc_bucket_meta_t` of its buckets. -/
structure Gen where
  slots : ℕ × ℕ → Option Word
  ctrl : ℕ × ℕ → ℕ
  remapFilter : ℕ → ℕ
  remapCount : ℕ → ℕ
  numBuckets : ℕ
  seed : ℕ

/-- A generation of zeroed buckets. -/
def Gen.fresh (numBuckets seed : ℕ) : Gen :=
  ⟨fun _ => none, fun _ => 0, fun _ => 0, fun _ => 0, numBuckets, seed⟩

/-- The primary bucket of a placement hash. -/
def Gen.primary (g : Gen) (ph : ℕ) : ℕ := ph % g.numBuckets

/-- The secondary bucket of a placement hash. -/
def Gen.secondary (g : Gen) (ph : ℕ) : ℕ :=
  altBucket (g.primary ph) ph (tag16 ph) % g.numBuckets

/-! ## Control bytes

`htc_match8` subtracts `0x01` from every byte of `x = ctrl ^ rep` in one 64-bit subtraction; the
borrow runs from byte to byte.
-/

/-- The borrow into byte `i` of `x - 0x0101010101010101`. -/
def match8Borrow (x : ℕ → ℕ) : ℕ → ℕ
  | 0 => 0
  | i + 1 => if x i < 1 + match8Borrow x i then 1 else 0

/-- Bit `7` of byte `i` of `htc_match8`. -/
def match8Hit (ctrl : ℕ → ℕ) (p i : ℕ) : Bool :=
  let x := fun j => ctrl j ^^^ p
  (x i + 255 - match8Borrow x i).testBit 7 && !(x i).testBit 7

/-- The candidates of `htc_match8` in the order of `htc_ctz_candidate`. -/
def match8 (g : Gen) (b p : ℕ) : List ℕ :=
  (List.range bucketSlots).filter (match8Hit (fun i => g.ctrl (b, i)) p)

/-- What a scan asks of a live word: its tag, its record's identity and flags. -/
def Word.isFor (recs : ℕ → HtcRecord) (identityHash tag : ℕ) (w : Word) : Bool :=
  w.tag == tag && (recs w.idx).identityHash == identityHash && (recs w.idx).flags == 0

/-- `htc_bucket_scan`, and `htc_bucket_scan_seq` while no writer is in the bucket. -/
def htcBucketScan (g : Gen) (recs : ℕ → HtcRecord) (b identityHash tag : ℕ) (secondary : Bool) :
    Option ℕ :=
  (match8 g b (partial8 tag)).find? fun i =>
    (g.slots (b, i)).any fun w => w.inSec == secondary && w.isFor recs identityHash tag

/-- Publishes a word in a slot and sets its control byte. -/
def Gen.put (g : Gen) (x : ℕ × ℕ) (w : Word) : Gen :=
  { g with
    slots := Function.update g.slots x (some w)
    ctrl := Function.update g.ctrl x (partial8 w.tag) }

/-- Empties a slot and clears its control byte. -/
def Gen.clear (g : Gen) (x : ℕ × ℕ) : Gen :=
  { g with slots := Function.update g.slots x none, ctrl := Function.update g.ctrl x 0 }

/-! ## Remap hints -/

/-- `HTC_REMAP_SATURATED`. -/
def remapSaturated : ℕ := 255

/-- `htc_remap_inc`. -/
def Gen.remapInc (g : Gen) (b tag : ℕ) : Gen :=
  { g with
    remapFilter := Function.update g.remapFilter b (g.remapFilter b ||| 1 <<< (tag % 16))
    remapCount := Function.update g.remapCount b
      (if g.remapCount b ≥ remapSaturated - 1 then remapSaturated else g.remapCount b + 1) }

/-- `htc_remap_dec`. -/
def Gen.remapDec (g : Gen) (b : ℕ) : Gen :=
  if g.remapCount b = 0 ∨ g.remapCount b = remapSaturated then g
  else { g with remapCount := Function.update g.remapCount b (g.remapCount b - 1) }

/-- `htc_must_check_secondary`. -/
def Gen.mustCheckSecondary (g : Gen) (b tag : ℕ) : Bool :=
  if g.remapCount b = 0 then false
  else if g.remapCount b = remapSaturated then true
  else (g.remapFilter b).testBit (tag % 16)

/-! ## Direct placement -/

/-- The CAS loop on the primary bucket: the slot it claims. -/
def Gen.claim (g : Gen) (b : ℕ) : Option ℕ :=
  (match8 g b 0).find? fun i => (g.slots (b, i)).isNone

/-- The CAS loop on the secondary bucket. The hint of the primary bucket `b1` is raised before each
CAS and lowered again when the CAS fails. -/
def placeSecondary (b1 b2 : ℕ) (w : Word) : List ℕ → Gen → Bool × Gen
  | [], g => (false, g)
  | i :: is, g =>
    let g := g.remapInc b1 w.tag
    if (g.slots (b2, i)).isNone then (true, g.put (b2, i) { w with inSec := true })
    else placeSecondary b1 b2 w is (g.remapDec b1)

/-- The direct part of `htc_insert` and of `htc_place_entry`: the primary bucket, then the
secondary. -/
def placeDirect (g : Gen) (ph : ℕ) (w : Word) : Bool × Gen :=
  let b1 := g.primary ph
  let b2 := g.secondary ph
  match g.claim b1 with
  | some i => (true, g.put (b1, i) { w with inSec := false })
  | none => placeSecondary b1 b2 w (match8 g b2 0) g

/-! ## Displacement -/

/-- `HTC_BFS_MAX_DEPTH`. -/
def bfsMaxDepth : ℕ := 5

/-- `HTC_BFS_BUCKET_BUDGET`. -/
def bfsBucketBudget : ℕ := 64

/-- `HTC_BFS_MAX_PATH`. -/
def bfsMaxPath : ℕ := 8

/-- `HTC_BFS_MAX_SHARDS`. -/
def bfsMaxShards : ℕ := 8

/-- `htc_bfs_node_t`; a node holds its parent in place of the parent's index. -/
inductive BfsNode where
  /-- A candidate bucket of the new key. -/
  | root (bucket : ℕ)
  /-- The bucket to which the occupant of `parentSlot` of the parent can move. -/
  | child (bucket : ℕ) (parent : BfsNode) (parentSlot : ℕ)

/-- `bucket`. -/
def BfsNode.bucket : BfsNode → ℕ
  | .root b => b
  | .child b _ _ => b

/-- `depth`. -/
def BfsNode.depth : BfsNode → ℕ
  | .root _ => 0
  | .child _ parent _ => parent.depth + 1

/-- `ht_move_t`. -/
structure Move where
  src : ℕ × ℕ
  dst : ℕ × ℕ
  deriving DecidableEq, Repr

/-- `ht_cuckoo_path_t`. -/
structure Path where
  moves : List Move
  ins : ℕ × ℕ
  deriving DecidableEq, Repr

/-- The walk of `build_path` from a node to its root. -/
def BfsNode.path : BfsNode → ℕ × ℕ → Path
  | .root _, dst => ⟨[], dst⟩
  | .child _ parent slot, dst =>
    let rest := parent.path (parent.bucket, slot)
    ⟨⟨(parent.bucket, slot), dst⟩ :: rest.moves, rest.ins⟩

/-- `build_path`. -/
def buildPath (n : BfsNode) (slot : ℕ) : Option Path :=
  let p := n.path (n.bucket, slot)
  if p.moves.length ≤ bfsMaxPath then some p else none

/-- The bucket to which the occupant of a slot of bucket `b` can move. -/
def bfsAlt (g : Gen) (recs : ℕ → HtcRecord) (b slot : ℕ) : Option ℕ :=
  match g.slots (b, slot) with
  | none => none
  | some w =>
    let vph := (recs w.idx).placementHash
    if b = g.primary vph then some (g.secondary vph)
    else if b = g.secondary vph then some (g.primary vph)
    else none

/-- Expands a node by one slot; the state is the queue and the buckets visited so far. -/
def bfsExpand (g : Gen) (recs : ℕ → HtcRecord) (n : BfsNode) (st : List BfsNode × List ℕ)
    (slot : ℕ) :
    List BfsNode × List ℕ :=
  if st.2.length < bfsBucketBudget then
    match bfsAlt g recs n.bucket slot with
    | none => st
    | some alt =>
      if alt = n.bucket ∨ alt ∈ st.2 then st
      else (st.1 ++ [.child alt n slot], st.2 ++ [alt])
  else st

/-- The loop of `bfs_find_path`. Every bucket visited has one node, and every round takes a node
from the queue, so there are at most `bfsBucketBudget` rounds. -/
def bfsLoop (g : Gen) (recs : ℕ → HtcRecord) : ℕ → List BfsNode × List ℕ → Option Path
  | 0, _ => none
  | _ + 1, ([], _) => none
  | k + 1, (n :: queue, visited) =>
    if visited.length < bfsBucketBudget then
      match (List.range bucketSlots).find? fun s => (g.slots (n.bucket, s)).isNone with
      | some s => buildPath n s
      | none =>
        if n.depth ≥ bfsMaxDepth then bfsLoop g recs k (queue, visited)
        else bfsLoop g recs k ((List.range bucketSlots).foldl (bfsExpand g recs n) (queue, visited))
    else none

/-- `bfs_find_path`. -/
def bfsFindPath (g : Gen) (recs : ℕ → HtcRecord) (b1 b2 : ℕ) : Option Path :=
  if b2 = b1 then bfsLoop g recs bfsBucketBudget ([.root b1], [b1])
  else bfsLoop g recs bfsBucketBudget ([.root b1, .root b2], [b1, b2])

/-- The shards of the buckets of a path fit in the number of shards a displacement may lock. -/
def pathFits (shardCount b1 b2 : ℕ) (p : Path) : Bool :=
  let buckets := b1 :: b2 :: p.moves.flatMap (fun m => [m.src.1, m.dst.1]) ++ [p.ins.1]
  let maxShards := if shardCount < bfsMaxShards * 2 then shardCount else bfsMaxShards
  decide ((buckets.map (shardOf · shardCount)).dedup.length ≤ maxShards)

/-- A move of `validate_path_locked`: the word it reads, when the move is legal. -/
def validateMove (g : Gen) (recs : ℕ → HtcRecord) (m : Move) : Option Word :=
  match g.slots m.src with
  | none => none
  | some w =>
    let ph := (recs w.idx).placementHash
    let p := g.primary ph
    let s := g.secondary ph
    if (m.src.1 = p ∨ m.src.1 = s) ∧ (m.dst.1 = p ∨ m.dst.1 = s) ∧ m.src.1 ≠ m.dst.1 then some w
    else none

/-- `validate_path_locked`: the words of `expected_src`. -/
def validatePathLocked (g : Gen) (recs : ℕ → HtcRecord) (p : Path) : Option (List Word) :=
  match p.moves with
  | [] => if (g.slots p.ins).isNone then some [] else none
  | m :: _ => if (g.slots m.dst).isNone then p.moves.mapM (validateMove g recs) else none

/-- The word that a commit writes for a record at a bucket. -/
def placedWord (g : Gen) (recs : ℕ → HtcRecord) (idx bucket : ℕ) : Word :=
  let ph := (recs idx).placementHash
  ⟨idx, tag16 ph, bucket != g.primary ph⟩

/-- Phase 1 of `commit_path_locked`: one move of the slot words. -/
def commitSlots (recs : ℕ → HtcRecord) (g : Gen) (mw : Move × Word) : Gen :=
  { g with
    slots := Function.update (Function.update g.slots mw.1.dst
      (some (placedWord g recs mw.2.idx mw.1.dst.1))) mw.1.src none }

/-- Phase 2 of `commit_path_locked`: one move of the control bytes. -/
def commitCtrl (recs : ℕ → HtcRecord) (g : Gen) (mw : Move × Word) : Gen :=
  { g with
    ctrl := Function.update (Function.update g.ctrl mw.1.dst
      (partial8 (tag16 (recs mw.2.idx).placementHash))) mw.1.src 0 }

/-- Phase 3 of `commit_path_locked`: the remap update of one move. -/
def commitRemap (recs : ℕ → HtcRecord) (g : Gen) (mw : Move × Word) : Gen :=
  let ph := (recs mw.2.idx).placementHash
  let inSec := mw.1.dst.1 != g.primary ph
  if mw.2.inSec && !inSec then g.remapDec (g.primary ph)
  else if !mw.2.inSec && inSec then g.remapInc (g.primary ph) (tag16 ph)
  else g

/-- `commit_path_locked` for a new entry with record `idx`. -/
def commitPathLocked (g : Gen) (recs : ℕ → HtcRecord) (p : Path) (src : List Word)
    (idx : ℕ) : Gen :=
  let ms := p.moves.zip src
  let w := placedWord g recs idx p.ins.1
  let g := ms.foldl (commitSlots recs) g
  let g := { g with slots := Function.update g.slots p.ins (some w) }
  let g := ms.foldl (commitCtrl recs) g
  let g := { g with ctrl := Function.update g.ctrl p.ins (partial8 w.tag) }
  let g := ms.foldl (commitRemap recs) g
  if w.inSec then g.remapInc (g.primary (recs idx).placementHash) w.tag else g

/-! ## Stashes -/

/-- `htc_stash_t`. -/
structure Stash where
  slots : ℕ → Option Word
  liveCount : ℕ

/-- A zeroed stash. -/
def Stash.empty : Stash := ⟨fun _ => none, 0⟩

/-- `htc_stash_find`. -/
def htcStashFind (s : Stash) (recs : ℕ → HtcRecord) (identityHash tag : ℕ) : Option ℕ :=
  if s.liveCount = 0 then none
  else (List.range stashMax).find? fun i => (s.slots i).any (Word.isFor recs identityHash tag)

/-- The slot that `htc_stash_insert` claims. -/
def Stash.claim (s : Stash) : Option ℕ :=
  (List.range stashMax).find? fun i => (s.slots i).isNone

/-- Publishes a word in a slot of a stash. -/
def Stash.put (s : Stash) (i : ℕ) (w : Word) : Stash :=
  ⟨Function.update s.slots i (some w), s.liveCount + 1⟩

/-- `htc_stash_insert`; `none` is a full stash. -/
def htcStashInsert (s : Stash) (w : Word) : Option Stash := s.claim.map fun i => s.put i w

/-- `htc_stash_remove_at`. -/
def htcStashRemoveAt (s : Stash) (i : ℕ) : Stash :=
  ⟨Function.update s.slots i none, s.liveCount - 1⟩

/-! ## The table -/

/-- `htc_front_cache_entry_t`; an invalid entry is `none` in the cache. -/
structure CacheEntry where
  hash : ℕ
  idx : ℕ
  generation : ℕ
  deriving DecidableEq, Repr

/-- `HTC_FRONT_CACHE_ENTRIES`. -/
def frontCacheEntries : ℕ := 128

/-- The part of `htc_table_t` that holds entries: the current generation, the stashes of the shards,
the global stash, and the record store with its free list. -/
structure Core where
  gen : Gen
  shards : ℕ → Stash
  stash : Stash
  shardCount : ℕ
  recs : ℕ → HtcRecord
  count : ℕ
  freeIdx : List ℕ

/-- `htc_table_t` with the front cache of the thread that uses it. `growStarted` counts the calls of
`htc_grow`, and `seedCtr` is the counter of `htc_seed`. -/
structure Table extends Core where
  cache : ℕ → Option CacheEntry
  cachePos : ℕ
  cacheOn : Bool
  size : ℕ
  maxLoadFactor : ℚ
  seedCtr : ℕ
  growStarted : ℕ
  mem : List Bool

/-- `htc_error_t`. -/
inductive HtcError where
  | ok
  | duplicate
  | notFound
  | oom
  | pathological
  | threadLimit
  | badConfig
  deriving DecidableEq, Repr

/-- The outcome of the next allocation. -/
def Table.malloc (t : Table) : Bool × Table :=
  match t.mem with
  | [] => (true, t)
  | ok :: rest => (ok, { t with mem := rest })

/-- `htc_arena_alloc` on the ideal store; `none` is `UINT32_MAX`. -/
def Table.arenaAlloc (t : Table) (identityHash ph value : ℕ) : Option ℕ × Table :=
  match t.freeIdx with
  | idx :: rest =>
    (some idx, { t with
      freeIdx := rest
      recs := Function.update t.recs idx
        ⟨identityHash, ph, ((t.recs idx).generation + 1) % 2 ^ 32, 0, value⟩ })
  | [] =>
    -- a record that was never in use may need a new block
    match t.malloc with
    | (false, t) => (none, t)
    | (true, t) =>
      (some t.count, { t with
        count := t.count + 1
        recs := Function.update t.recs t.count ⟨identityHash, ph, (t.recs t.count).generation, 0,
          value⟩ })

/-- `htc_arena_free` on the ideal store. -/
def Core.arenaFree (c : Core) (idx : ℕ) : Core :=
  { c with
    freeIdx := idx :: c.freeIdx
    recs := Function.update c.recs idx (htcArenaRecZero (c.recs idx)) }

/-- Replaces the stash of a shard. -/
def Core.setShard (c : Core) (s : ℕ) (st : Stash) : Core :=
  { c with shards := Function.update c.shards s st }

/-- The shard of a placement hash. -/
def Core.shardAt (c : Core) (ph : ℕ) : ℕ := shardOf (c.gen.primary ph) c.shardCount

/-- A place that can hold a slot word. -/
inductive Place where
  /-- A slot of a bucket of the generation. -/
  | slot (x : ℕ × ℕ)
  /-- A slot of the stash of shard `s`. -/
  | shard (s i : ℕ)
  /-- A slot of the global stash `t->stash`. -/
  | global (i : ℕ)
  deriving DecidableEq, Repr

/-- The word at a place. -/
def Core.wordAt (c : Core) : Place → Option Word
  | .slot x => c.gen.slots x
  | .shard s i => (c.shards s).slots i
  | .global i => c.stash.slots i

/-- The index in the word at a place; the empty word has index `0`. -/
def Core.idxAt (c : Core) (p : Place) : ℕ := ((c.wordAt p).map Word.idx).getD 0

/-- The search that the calls share: the primary bucket, the secondary bucket if the hint asks for
it, the stash of the shard and, where `all` is set, the global stash. `htc_insert` searches without
the last. -/
def htcSearch (c : Core) (hash : ℕ) (all : Bool) : Option Place :=
  let ph := placementHash hash c.gen.seed
  let tag := tag16 ph
  let b1 := c.gen.primary ph
  let b2 := c.gen.secondary ph
  match htcBucketScan c.gen c.recs b1 hash tag false with
  | some i => some (.slot (b1, i))
  | none =>
    match if c.gen.mustCheckSecondary b1 tag then htcBucketScan c.gen c.recs b2 hash tag true
      else none with
    | some i => some (.slot (b2, i))
    | none =>
      match htcStashFind (c.shards (c.shardAt ph)) c.recs hash tag with
      | some i => some (.shard (c.shardAt ph) i)
      | none => if all then (htcStashFind c.stash c.recs hash tag).map .global else none

/-! ## Growing -/

/-- The live words of the buckets in the order in which `htc_grow` reads them. -/
def Gen.words (g : Gen) : List Word :=
  (List.range g.numBuckets ×ˢ List.range bucketSlots).filterMap g.slots

/-- `htc_place_entry` for a word of the rehash; the stash is the new global stash. -/
def htcPlaceEntry (g : Gen) (s : Stash) (ph : ℕ) (w : Word) : Option (Gen × Stash) :=
  match placeDirect g ph w with
  | (true, g) => some (g, s)
  | (false, g) => (htcStashInsert s w).map fun s => (g, s)

/-- The rehash loop of `htc_grow`; `none` is a failed rehash. -/
def rehash (recs : ℕ → HtcRecord) (seed : ℕ) : List Word → Gen → Stash → Option (Gen × Stash)
  | [], g, s => some (g, s)
  | w :: ws, g, s =>
    let ph := placementHash (recs w.idx).identityHash seed
    match htcPlaceEntry g s ph ⟨w.idx, tag16 ph, false⟩ with
    | none => none
    | some (g, s) => rehash recs seed ws g s

/-- The seed of the new generation. -/
def growSeed (reseed : Bool) (t : Table) : ℕ := if reseed then htcSeed t.seedCtr else t.gen.seed

/-- The part of `htc_grow` after the allocation of the new buckets. The old global stash is not
rehashed, and it is destroyed before the allocation of the new generation. -/
def growRehash (reseed : Bool) (t : Table) : HtcError × Table :=
  let seed := growSeed reseed t
  let t := { t with seedCtr := if reseed then t.seedCtr + 1 else t.seedCtr }
  match rehash t.recs seed t.gen.words (Gen.fresh (t.gen.numBuckets * 2) seed) .empty with
  | none => (.oom, t)
  | some (g, s) =>
    match t.malloc with
    | (false, t) => (.oom, { t with stash := .empty })
    | (true, t) => (.ok, { t with gen := g, stash := s })

/-- `htc_grow`. -/
def htcGrow (reseed : Bool) (t : Table) : HtcError × Table :=
  let t := { t with growStarted := t.growStarted + 1 }
  if 2 ^ 32 ≤ t.gen.numBuckets * 2 then (.oom, t)
  else
    let (buckets, t) := t.malloc
    let (metas, t) := t.malloc
    if buckets && metas then growRehash reseed t else (.oom, t)

/-! ## Inserting -/

/-- Where the first locked section of `htc_insert` leaves the call. -/
inductive Tried where
  /-- The key was found. -/
  | duplicate
  /-- No record could be allocated. -/
  | oom (t : Table)
  /-- The entry went to one of its two buckets. -/
  | placed (t : Table)
  /-- Both buckets are full and there is a displacement path for the record `idx`. -/
  | path (idx : ℕ) (p : Path) (t : Table)
  /-- Both buckets are full and there is no path that fits. -/
  | full (idx : ℕ) (t : Table)

/-- The search for a displacement path when both buckets of the key are full. -/
def insertSearch (ph idx : ℕ) (t : Table) : Tried :=
  let b1 := t.gen.primary ph
  let b2 := t.gen.secondary ph
  match bfsFindPath t.gen t.recs b1 b2 with
  | some p => if pathFits t.shardCount b1 b2 p then .path idx p t else .full idx t
  | none => .full idx t

/-- The first locked section of `htc_insert`: the duplicate check, the allocation of the record, the
direct placement and the search for a path. -/
def insertTry (hash value : ℕ) (t : Table) : Tried :=
  let ph := placementHash hash t.gen.seed
  if (htcSearch t.toCore hash false).isSome then .duplicate
  else
    match t.arenaAlloc hash ph value with
    | (none, t) => .oom t
    | (some idx, t) =>
      match placeDirect t.gen ph ⟨idx, tag16 ph, false⟩ with
      | (true, g) => .placed { t with gen := g }
      | (false, g) => insertSearch ph idx { t with gen := g }

/-- The displacement section of `htc_insert`; `none` is a path that is no longer valid. -/
def insertPath (idx : ℕ) (p : Path) (c : Core) : Option Core :=
  (validatePathLocked c.gen c.recs p).map fun src =>
    { c with gen := commitPathLocked c.gen c.recs p src idx }

/-- Where the stash section of `htc_insert` leaves the call. -/
inductive Stashed where
  /-- The stash already holds the key; the new record stays allocated. -/
  | duplicate
  /-- The entry went to the stash. -/
  | placed (c : Core)
  /-- The stash is full and the new record is freed again. -/
  | full (c : Core)

/-- The stash section of `htc_insert`. -/
def insertStash (hash idx : ℕ) (c : Core) : Stashed :=
  let ph := placementHash hash c.gen.seed
  let s := c.shardAt ph
  if (htcStashFind (c.shards s) c.recs hash (tag16 ph)).isSome then .duplicate
  else
    match htcStashInsert (c.shards s) ⟨idx, tag16 ph, false⟩ with
    | some st => .placed (c.setShard s st)
    | none => .full (c.arenaFree idx)

/-- `insert_done`: the size, and a grow when the load factor is exceeded, whose result is
ignored. -/
def insertDone (t : Table) : Table :=
  let t := { t with size := t.size + 1 }
  if (t.size : ℚ) / t.gen.numBuckets > t.maxLoadFactor then (htcGrow false t).2 else t

/-- Where an attempt of `htc_insert` leaves the call. -/
inductive Attempt where
  /-- The call returns without an entry. -/
  | stop (e : HtcError) (t : Table)
  /-- The entry is in the table. -/
  | entered (t : Table)
  /-- The stash of the shard is full. -/
  | overflow (t : Table)

/-- The stash section as the end of an attempt. -/
def attemptStash (hash idx : ℕ) (t : Table) : Attempt :=
  match insertStash hash idx t.toCore with
  | .duplicate => .stop .duplicate t
  | .placed c => .entered { t with toCore := c }
  | .full c => .overflow { t with toCore := c }

/-- One attempt of `htc_insert`: the direct placement, a displacement, the stash. -/
def insertAttempt (hash value : ℕ) (t : Table) : Attempt :=
  match insertTry hash value t with
  | .duplicate => .stop .duplicate t
  | .oom t => .stop .oom t
  | .placed t => .entered t
  | .path idx p t =>
    match insertPath idx p t.toCore with
    | some c => .entered { t with toCore := c }
    | none => attemptStash hash idx t
  | .full idx t => attemptStash hash idx t

/-- The attempts of `htc_insert`; a full stash makes the table grow with a new seed. -/
def insertLoop (hash value : ℕ) : ℕ → Table → HtcError × Table
  | 0, t => (.pathological, t)
  | k + 1, t =>
    match insertAttempt hash value t with
    | .stop e t => (e, t)
    | .entered t => (.ok, insertDone t)
    | .overflow t =>
      match htcGrow true t with
      | (.ok, t) => insertLoop hash value k t
      | (e, t) => (e, t)

/-- `htc_insert`. -/
def htcInsert (hash value : ℕ) (t : Table) : HtcError × Table := insertLoop hash value 4 t

/-! ## The other calls -/

/-- Writes `user_value` of a record. -/
def Core.setValue (c : Core) (idx value : ℕ) : Core :=
  { c with recs := Function.update c.recs idx { c.recs idx with userValue := value } }

/-- The attempts of `htc_upsert`. -/
def upsertLoop (hash value : ℕ) : ℕ → Table → HtcError × Table
  | 0, t => (.pathological, t)
  | k + 1, t =>
    match htcSearch t.toCore hash true with
    | some p => (.ok, { t with toCore := t.setValue (t.idxAt p) value })
    | none =>
      match htcInsert hash value t with
      | (.duplicate, t) => upsertLoop hash value k t
      | r => r

/-- `htc_upsert`. -/
def htcUpsert (hash value : ℕ) (t : Table) : HtcError × Table := upsertLoop hash value 4 t

/-- The place from which `htc_update` reads the word of a hit: for a hit in the global stash it is
the same slot of the stash of the shard. -/
def updatePlace (c : Core) (hash : ℕ) : Place → Place
  | .global i => .shard (c.shardAt (placementHash hash c.gen.seed)) i
  | p => p

/-- `htc_update`. -/
def htcUpdate (hash value : ℕ) (t : Table) : HtcError × Table :=
  match htcSearch t.toCore hash true with
  | some p => (.ok, { t with toCore := t.setValue (t.idxAt (updatePlace t.toCore hash p)) value })
  | none => (.notFound, t)

/-- `htc_front_cache_lookup`. -/
def htcFrontCacheLookup (t : Table) (hash : ℕ) : Option ℕ :=
  (List.range frontCacheEntries).findSome? fun i =>
    match t.cache i with
    | none => none
    | some e =>
      let r := t.recs e.idx
      if e.hash = hash ∧ e.idx < t.count ∧ r.generation = e.generation ∧ r.identityHash = hash ∧
          r.flags = 0
      then some r.userValue else none

/-- `htc_front_cache_insert`. -/
def htcFrontCacheInsert (t : Table) (hash idx : ℕ) : Table :=
  { t with
    cache := Function.update t.cache (t.cachePos % frontCacheEntries)
      (some ⟨hash, idx, (t.recs idx).generation⟩)
    cachePos := t.cachePos + 1 }

/-- `htc_front_cache_remove`. -/
def htcFrontCacheRemove (t : Table) (hash : ℕ) : Table :=
  { t with cache := fun i => (t.cache i).filter fun e => e.hash != hash }

/-- The part of `htc_find` behind the front cache. -/
def findTable (hash : ℕ) (want : Bool) (t : Table) : HtcError × Option ℕ × Table :=
  match htcSearch t.toCore hash true with
  | some p =>
    let idx := t.idxAt p
    (.ok, if want then some (t.recs idx).userValue else none, htcFrontCacheInsert t hash idx)
  | none => (.notFound, if want then some 0 else none, t)

/-- `htc_find`: the reply, the value stored through `out_value`, and the table. `want` says that
`out_value` is not `NULL`. -/
def htcFind (hash : ℕ) (want : Bool) (t : Table) : HtcError × Option ℕ × Table :=
  match if want && t.cacheOn then htcFrontCacheLookup t hash else none with
  | some v => (.ok, some v, t)
  | none => findTable hash want t

/-- The slots that `htc_debug_slow_find` compares: the first of `n` with a word for the key. -/
def slowScan (n : ℕ) (slots : ℕ → Option Word) (ok : Word → Bool) : Option ℕ :=
  (List.range n).find? fun i => (slots i).any ok

/-- The search of `htc_debug_slow_find`, which reads neither control bytes nor hints nor
counters. -/
def slowSearch (c : Core) (hash : ℕ) : Option Place :=
  let ph := placementHash hash c.gen.seed
  let isFor := Word.isFor c.recs hash (tag16 ph)
  let b1 := c.gen.primary ph
  let b2 := c.gen.secondary ph
  let s := c.shardAt ph
  match slowScan bucketSlots (fun i => c.gen.slots (b1, i)) fun w => isFor w && !w.inSec with
  | some i => some (.slot (b1, i))
  | none =>
    match slowScan bucketSlots (fun i => c.gen.slots (b2, i)) fun w => isFor w && w.inSec with
    | some i => some (.slot (b2, i))
    | none =>
      match slowScan stashMax (c.shards s).slots isFor with
      | some i => some (.shard s i)
      | none => (slowScan stashMax c.stash.slots isFor).map .global

/-- `htc_debug_slow_find`: the value it stores, or `none` for `false`. -/
def htcDebugSlowFind (hash : ℕ) (c : Core) : Option ℕ :=
  (slowSearch c hash).map fun p => (c.recs (c.idxAt p)).userValue

/-- What `htc_remove` does with the record of the entry it removed: the front cache, the record and
the size. -/
def removeDone (hash idx : ℕ) (t : Table) : Table :=
  let c := { t.toCore with recs := Function.update t.recs idx { t.recs idx with flags := 1 } }
  { htcFrontCacheRemove t hash with toCore := c.arenaFree idx, size := t.size - 1 }

/-- `htc_remove`. `none` is a call that never returns: for an entry in the secondary bucket it takes
the sequence counters of both buckets, and waits for itself when they are the same bucket. -/
def htcRemove (hash : ℕ) (t : Table) : Option (HtcError × Table) :=
  let b1 := t.gen.primary (placementHash hash t.gen.seed)
  match htcSearch t.toCore hash true with
  | none => some (.notFound, t)
  | some (.slot x) =>
    match t.wordAt (.slot x) with
    | none => some (.notFound, t)
    | some w =>
      if w.inSec ∧ x.1 = b1 then none
      else
        let g := t.gen.clear x
        some (.ok, removeDone hash w.idx { t with gen := if w.inSec then g.remapDec b1 else g })
  | some (.shard s i) =>
    some (.ok, removeDone hash (t.idxAt (.shard s i))
      { t with toCore := t.setShard s (htcStashRemoveAt (t.shards s) i) })
  | some (.global i) =>
    some (.ok, removeDone hash (t.idxAt (.global i)) { t with stash := htcStashRemoveAt t.stash i })

/-! ## Creating -/

/-- `htc_config_t`. -/
structure HtcConfig where
  initialBuckets : ℕ
  maxLoadFactor : ℚ
  shardCount : ℕ
  disableFrontCache : Bool

/-- The configuration for `cfg == NULL`. -/
def HtcConfig.default : HtcConfig := ⟨4, 3 / 4, 0, false⟩

/-- `HTC_DEFAULT_SHARD_COUNT`. -/
def defaultShardCount : ℕ := 128

/-- The loop that doubles `nb` until it reaches `n`. -/
def doubleUntil (n : ℕ) : ℕ → ℕ → ℕ
  | 0, nb => nb
  | k + 1, nb => if nb < n then doubleUntil n k (nb * 2) else nb

/-- The number of buckets of a new table. -/
def HtcConfig.buckets (c : HtcConfig) : ℕ := doubleUntil (max 4 c.initialBuckets) 31 1

/-- The number of shards of a new table. -/
def HtcConfig.shards (c : HtcConfig) : ℕ :=
  min (if c.shardCount = 0 then defaultShardCount else c.shardCount) c.buckets

/-- `htc_create` when its allocations succeed, with the counter of `htc_seed` and the outcomes of
the allocations to come. -/
def htcCreate (cfg : Option HtcConfig) (seedCtr : ℕ) (mem : List Bool) : Table :=
  let c := cfg.getD .default
  { gen := Gen.fresh c.buckets (htcSeed seedCtr)
    shards := fun _ => .empty
    stash := .empty
    shardCount := c.shards
    recs := fun _ => HtcRecord.zero
    count := 0
    freeIdx := []
    cache := fun _ => none
    cachePos := 0
    cacheOn := !c.disableFrontCache
    size := 0
    maxLoadFactor := if c.maxLoadFactor ≤ 0 ∨ 1 < c.maxLoadFactor then 3 / 4 else c.maxLoadFactor
    seedCtr := seedCtr + 1
    growStarted := 0
    mem := mem }

end Draugr.Htc
