import Mathlib.Data.Multiset.Filter
import Mathlib.Data.List.Perm.Basic
import Mathlib.Logic.Function.Basic
import Mathlib.Tactic

/-!
# The LRU cache

Model of `src/ht_cache.c`: entries of a fixed size in an array of slots, with their hashes, a live
flag for each slot, a doubly linked list of the live slots in the order of their use, a stack of the
free slots and an index from hashes to slots. The index is a parameter: `Index` lists the calls that
the cache makes to it, with any answers.

A pointer to an entry is its distance in bytes from `c->entries`. The hash and equality functions of
the user are pure functions, and the user changes no entry behind the back of the cache.
-/

namespace Draugr.Cache

/-- A byte string. -/
abbrev Bytes := List UInt8

/-- `NONE`, which is `UINT32_MAX`. -/
def NONE : ℕ := 2 ^ 32 - 1

/-- The calls of the cache to the bare table: `ht_bare_insert`, `ht_bare_find_all` with the values
that it reports until the callback stops it, `ht_bare_remove_val` and `ht_bare_clear`. -/
structure Index (β : Type) where
  insert : β → UInt64 → ℕ → Bool × β
  findAll : β → UInt64 → List ℕ × β
  removeVal : β → UInt64 → ℕ → Bool × β
  clear : β → β

/-- `ht_cache_config_t`. -/
structure CacheConfig where
  capacity : ℕ
  entrySize : ℕ
  hashFn : Bytes → UInt64
  eqFn : Option (Bytes → Bytes → Bool)

/-- `struct ht_cache`. -/
structure HtCache (β : Type) extends CacheConfig where
  bare : β
  entries : ℕ → Bytes
  hashes : ℕ → UInt64
  live : ℕ → Bool
  lruPrev : ℕ → ℕ
  lruNext : ℕ → ℕ
  freeStack : ℕ → ℕ
  freeTop : ℕ
  lruHead : ℕ
  lruTail : ℕ
  size : ℕ

variable {β : Type}

/-- `lru_add_head`. -/
def lruAddHead (c : HtCache β) (idx : ℕ) : HtCache β :=
  let c := { c with lruPrev := Function.update c.lruPrev idx NONE,
                    lruNext := Function.update c.lruNext idx c.lruHead }
  let c := if c.lruHead ≠ NONE then { c with lruPrev := Function.update c.lruPrev c.lruHead idx }
    else c
  let c := { c with lruHead := idx }
  if c.lruTail = NONE then { c with lruTail := idx } else c

/-- `lru_remove`. -/
def lruRemove (c : HtCache β) (idx : ℕ) : HtCache β :=
  let prev := c.lruPrev idx
  let next := c.lruNext idx
  let c := if prev ≠ NONE then { c with lruNext := Function.update c.lruNext prev next }
    else { c with lruHead := next }
  let c := if next ≠ NONE then { c with lruPrev := Function.update c.lruPrev next prev }
    else { c with lruTail := prev }
  { c with
    lruPrev := Function.update c.lruPrev idx NONE
    lruNext := Function.update c.lruNext idx NONE }

/-- `lru_promote`. -/
def lruPromote (c : HtCache β) (idx : ℕ) : HtCache β :=
  if c.lruHead = idx then c else lruAddHead (lruRemove c idx) idx

/-- `entry_at`. -/
def entryAt (c : HtCache β) (idx : ℕ) : ℤ := idx * c.entrySize

/-- `entry_index`. -/
def entryIndex (c : HtCache β) (entry : ℤ) : ℕ :=
  if entry < 0 ∨ c.capacity * c.entrySize ≤ entry then NONE
  else if c.capacity ≤ entry.toNat / c.entrySize then NONE
  else entry.toNat / c.entrySize

/-- Whether an entry matches the key, as `get_scan_cb` and `remove_scan_cb` decide: without an
equality function every entry does. -/
def keyMatches (cfg : CacheConfig) (key entry : Bytes) : Bool :=
  match cfg.eqFn with
  | some eq => eq key entry
  | none => true

/-- The callback that `get_scan_cb` and `remove_scan_cb` are: whether to go on, and
`matched_idx`. -/
def matchScanCb (c : HtCache β) (key : Bytes) (val matched : ℕ) : Bool × ℕ :=
  if c.capacity ≤ val then (true, matched)
  else if !c.live val then (true, matched)
  else if keyMatches c.toCacheConfig key (c.entries val) then (false, val)
  else (true, matched)

/-- `get_scan_cb`. -/
def getScanCb (c : HtCache β) (key : Bytes) : ℕ → ℕ → Bool × ℕ := matchScanCb c key

/-- `remove_scan_cb`. -/
def removeScanCb (c : HtCache β) (key : Bytes) : ℕ → ℕ → Bool × ℕ := matchScanCb c key

/-- `find_scan_cb`: whether to go on, with `matched_idx` and `found`. -/
def findScanCb (c : HtCache β) (userScan : Bytes → Bool) (val : ℕ) (ctx : ℕ × Bool) :
    Bool × ℕ × Bool :=
  if c.capacity ≤ val then (true, ctx)
  else if !c.live val then (true, ctx)
  else if !userScan (c.entries val) then (false, val, true)
  else (true, ctx)

/-- A callback run over the values that the index reports. -/
def scanAll {σ : Type} (cb : ℕ → σ → Bool × σ) : List ℕ → σ → σ
  | [], ctx => ctx
  | val :: vals, ctx =>
    match cb val ctx with
    | (true, ctx) => scanAll cb vals ctx
    | (false, ctx) => ctx

/-- The loop of `ht_cache_create_with_arena` and `ht_cache_clear` over the free stack. -/
def fullStack (cap : ℕ) : ℕ → ℕ := fun i => cap - 1 - i

/-- `ht_cache_create_with_arena` over the new bare table `bare`; the memory is there. -/
def htCacheCreate (cfg : CacheConfig) (bare : β) : Option (HtCache β) :=
  if cfg.capacity = 0 ∨ cfg.entrySize = 0 then none
  else some
    { toCacheConfig := cfg
      bare := bare
      entries := fun _ => List.replicate cfg.entrySize 0
      hashes := fun _ => 0
      live := fun _ => false
      lruPrev := fun _ => NONE
      lruNext := fun _ => NONE
      freeStack := fullStack cfg.capacity
      freeTop := cfg.capacity
      lruHead := NONE
      lruTail := NONE
      size := 0 }

variable (ix : Index β)

/-- `ht_cache_clear`. -/
def htCacheClear (c : HtCache β) : HtCache β :=
  { c with
    bare := ix.clear c.bare
    live := fun _ => false
    hashes := fun _ => 0
    size := 0
    lruHead := NONE
    lruTail := NONE
    lruPrev := fun _ => NONE
    lruNext := fun _ => NONE
    freeStack := fullStack c.capacity
    freeTop := c.capacity }

/-- The end of `ht_cache_remove` and `ht_cache_evict`: the slot leaves the list and becomes free. -/
def releaseSlot (c : HtCache β) (slot : ℕ) : HtCache β :=
  let c := lruRemove c slot
  { c with
    live := Function.update c.live slot false
    freeStack := Function.update c.freeStack c.freeTop slot
    freeTop := c.freeTop + 1
    size := c.size - 1 }

/-- `ht_cache_evict`. -/
def htCacheEvict (c : HtCache β) : Bool × HtCache β :=
  if c.size = 0 then (false, c)
  else if c.lruTail = NONE then (false, c)
  else
    match ix.removeVal c.bare (c.hashes c.lruTail) c.lruTail with
    | (false, bare) => (false, { c with bare := bare })
    | (true, bare) => (true, releaseSlot { c with bare := bare } c.lruTail)

/-- `ht_cache_put` from the pop of the free stack on. -/
def putSlot (entryData : Bytes) (c : HtCache β) : Option ℤ × HtCache β :=
  let freeTop := c.freeTop - 1
  let slot := c.freeStack freeTop
  let hash := c.hashFn entryData
  let c := { c with
    freeTop := freeTop
    entries := Function.update c.entries slot entryData
    hashes := Function.update c.hashes slot hash }
  match ix.insert c.bare hash slot with
  -- the index has refused: the slot goes back onto the free stack
  | (false, bare) =>
    (none, { c with
      bare := bare
      hashes := Function.update c.hashes slot 0
      freeStack := Function.update c.freeStack c.freeTop slot
      freeTop := c.freeTop + 1 })
  | (true, bare) =>
    let c := lruAddHead { c with bare := bare, live := Function.update c.live slot true } slot
    (some (entryAt c slot), { c with size := c.size + 1 })

/-- `ht_cache_put`. -/
def htCachePut (entryData : Bytes) (c : HtCache β) : Option ℤ × HtCache β :=
  if entryData.length ≠ c.entrySize then (none, c)
  else if c.freeTop = 0 then
    match htCacheEvict ix c with
    | (false, c) => (none, c)
    | (true, c) => putSlot ix entryData c
  else putSlot ix entryData c

/-- `ht_cache_get`. -/
def htCacheGet (key : Bytes) (c : HtCache β) : Option ℤ × HtCache β :=
  let (vals, bare) := ix.findAll c.bare (c.hashFn key)
  let matched := scanAll (getScanCb c key) vals NONE
  let c := { c with bare := bare }
  if matched = NONE then (none, c) else (some (entryAt c matched), lruPromote c matched)

/-- `ht_cache_find`. -/
def htCacheFind (hash : UInt64) (scanFn : Bytes → Bool) (c : HtCache β) : Option ℤ × HtCache β :=
  let (vals, bare) := ix.findAll c.bare hash
  let ctx := scanAll (findScanCb c scanFn) vals (NONE, false)
  let c := { c with bare := bare }
  if !ctx.2 then (none, c) else (some (entryAt c ctx.1), c)

/-- `ht_cache_promote`. -/
def htCachePromote (entry : ℤ) (c : HtCache β) : HtCache β :=
  let idx := entryIndex c entry
  if c.capacity ≤ idx ∨ !c.live idx then c else lruPromote c idx

/-- `ht_cache_remove`. -/
def htCacheRemove (key : Bytes) (c : HtCache β) : Bool × HtCache β :=
  let hash := c.hashFn key
  let (vals, bare) := ix.findAll c.bare hash
  let matched := scanAll (removeScanCb c key) vals NONE
  let c := { c with bare := bare }
  if matched = NONE then (false, c)
  else
    let c := { c with live := Function.update c.live matched false }
    match ix.removeVal c.bare hash matched with
    | (false, bare) => (false, { c with bare := bare, live := Function.update c.live matched true })
    | (true, bare) => (true, releaseSlot { c with bare := bare } matched)

/-- `ht_cache_iter_t`. -/
structure CacheIter where
  idx : ℕ
  started : Bool

/-- `ht_cache_iter_begin`. -/
def htCacheIterBegin : CacheIter := ⟨0, false⟩

/-- `ht_cache_iter_next`: what it stores in `out_entry` if it returns true, and the iterator. The
loop ends at the first live slot, or past the last slot. -/
def htCacheIterNext (c : HtCache β) (iter : CacheIter) : Option ℤ × CacheIter :=
  let idx := if iter.started then iter.idx + 1 else 0
  match (List.range' idx (c.capacity - idx)).find? c.live with
  | some idx => (some (entryAt c idx), ⟨idx, true⟩)
  | none => (none, ⟨max idx c.capacity, true⟩)

/-- The entries that at most `fuel` calls of `ht_cache_iter_next` give. -/
def iterEntries (c : HtCache β) : ℕ → CacheIter → List ℤ
  | 0, _ => []
  | fuel + 1, iter =>
    match htCacheIterNext c iter with
    | (some entry, iter) => entry :: iterEntries c fuel iter
    | (none, _) => []

/-- A call. -/
inductive CacheOp where
  | put (entryData : Bytes)
  | get (key : Bytes)
  | find (hash : UInt64) (scanFn : Bytes → Bool)
  | promote (entry : ℤ)
  | remove (key : Bytes)
  | evict
  | clear

/-- What a call returns: a pointer, a truth value or nothing. -/
inductive CacheReply where
  | entry (p : Option ℤ)
  | flag (b : Bool)
  | void
  deriving DecidableEq, Repr

/-- A call: what it returns, and the cache after it. -/
def CacheOp.run : CacheOp → HtCache β → CacheReply × HtCache β
  | .put entryData, c => (.entry (htCachePut ix entryData c).1, (htCachePut ix entryData c).2)
  | .get key, c => (.entry (htCacheGet ix key c).1, (htCacheGet ix key c).2)
  | .find hash scanFn,
    c => (.entry (htCacheFind ix hash scanFn c).1, (htCacheFind ix hash scanFn c).2)
  | .promote entry, c => (.void, htCachePromote entry c)
  | .remove key, c => (.flag (htCacheRemove ix key c).1, (htCacheRemove ix key c).2)
  | .evict, c => (.flag (htCacheEvict ix c).1, (htCacheEvict ix c).2)
  | .clear, c => (.void, htCacheClear ix c)

/-- The cache after a sequence of calls. -/
def runOps (c : HtCache β) (ops : List CacheOp) : HtCache β :=
  ops.foldl (fun c op => (op.run ix c).2) c

end Draugr.Cache
