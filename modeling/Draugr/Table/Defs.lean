import Draugr.Bare.Defs

/-!
# The key/value table

Model of `ht_table_t` of `src/ht.c`: an array of entries that own copies of a key and a value, and a
bare index from 48-bit hashes to entry numbers. The table only uses the index through a few
functions, collected in `IndexOps`; the model is generic in them, so that the table can be studied
over the bare table of `Draugr.Bare` as well as over any exact multimap.

* `ht_entry_t` holds `key_len`, `hash_hi`, `val_len` and a pointer to one block with the key and the
  value; `kv` is that block, `none` after `kv_free`. A value is read back with its stored length
  `val_len`, which has 32 bits.
* `entry_count` is the length of `entries`. Of the blocks of the table only the outcome of the
  allocations matters here: the index draws it (`IndexOps.malloc`). `Table/Blocks` has the layout of
  the blocks; there `entryFailed` is the growth of the entry array before a copy that fails.
* A null key or value pointer is `none`. `hash_fn` and `eq_fn` are the parameter `fns`; a missing
  `eq_fn` is the equality of byte strings (`memcmp`).
* `none` as the result of an operation is a run of the index that does not end, or a rebuild with a
  capacity whose block size overflows: `ht_rebuild` does not test for it and writes out of bounds.
-/

namespace Draugr

/-- A byte string. -/
abbrev Bytes := List UInt8

/-- What the table uses of `ht_bare_t`. -/
structure IndexOps (B : Type) where
  /-- `ht_bare_find_all` with a callback that never stops -/
  findAll : B → ℕ → List ℕ
  /-- `bare_spill_insert` for a hash below 2, else `bare_rh_insert_bounded` -/
  insert : B → ℕ → ℕ → Option (Bool × B)
  /-- `bare_spill_insert` -/
  spillInsert : B → ℕ → ℕ → Bool × B
  /-- `ht_bare_remove_val` -/
  removeVal : B → ℕ → ℕ → Bool × B
  /-- the live slots of the main array, in order -/
  main : B → List (ℕ × ℕ)
  /-- the spill lane -/
  spill : B → List (ℕ × ℕ)
  /-- the overflow stash -/
  overflow : B → List (ℕ × ℕ)
  /-- `size` -/
  size : B → ℕ
  /-- `capacity` -/
  capacity : B → ℕ
  /-- `max_load_factor` -/
  maxLoadFactor : B → ℚ
  /-- `min_load_factor` -/
  minLoadFactor : B → ℚ
  /-- `resizing` -/
  resizing : B → Bool
  /-- sets `resizing` -/
  setResizing : Bool → B → B
  /-- the index `tmp_b` of `ht_rebuild`: empty, with the given capacity -/
  fresh : B → ℕ → B
  /-- `bare_place_prophylactic_tombstones`, then the new blocks are taken over -/
  placeTombs : B → B
  /-- `size = 0; tombstone_cnt = 0` -/
  resetCounters : B → B
  /-- `ht_bare_clear`, and a spill lane of its own goes back into the table's block -/
  clear : B → B
  /-- the outcome of the next allocation -/
  malloc : B → Bool × B
  /-- an `alloc_entry` that fails -/
  entryFailed : B → B
  /-- the first index, with the allocations that the second has drawn -/
  drawn : B → B → B

/-- `ht_entry_t`. -/
structure HtEntry where
  keyLen : ℕ
  hashHi : ℕ
  valLen : ℕ
  kv : Option (Bytes × Bytes)
  deriving DecidableEq

/-- A zeroed entry. -/
def HtEntry.zero : HtEntry := ⟨0, 0, 0, none⟩

/-- The key, `key_len` bytes at `ht_entry_key`. -/
def HtEntry.key (e : HtEntry) : Bytes := ((e.kv.getD ([], [])).1).take e.keyLen

/-- The value, `val_len` bytes at `ht_entry_val`. -/
def HtEntry.val (e : HtEntry) : Bytes := ((e.kv.getD ([], [])).2).take e.valLen

/-- `ht_table_t`. -/
structure HtTable (B : Type) where
  bare : B
  entries : List HtEntry
  deriving DecidableEq

/-- `hash_fn` and `eq_fn`. -/
structure HtFns where
  hash : Bytes → ℕ
  eq : Bytes → Bytes → Bool

/-- A simple hash of byte strings, with `memcmp` as equality. -/
def byteFns : HtFns := ⟨fun k => k.foldl (fun h b => 31 * h + b.toNat) 7, fun a b => a == b⟩

/-- `ht_insert_result_t`. -/
inductive HtInsertResult where
  | ok
  | update
  | failed
  deriving DecidableEq, Repr

/-- `INS_UPSERT`, `INS_ALWAYS`, `INS_UNIQUE`. -/
inductive InsertMode where
  | upsert
  | always
  | unique
  deriving DecidableEq, Repr

/-- `(uint16_t)(hash >> 48)`. -/
def hashHi (hash : ℕ) : ℕ := (hash >>> 48) % 2 ^ 16

section
variable {B : Type} (ix : IndexOps B) (fns : HtFns)

/-- `entries[i]`. -/
def HtTable.entry (t : HtTable B) (i : ℕ) : HtEntry := t.entries.getD i HtEntry.zero

/-- Writes `entries[i]`. -/
def HtTable.setEntry (t : HtTable B) (i : ℕ) (e : HtEntry) : HtTable B :=
  { t with entries := t.entries.set i e }

/-- `kv_free(&entries[i])`. -/
def HtTable.kvFree (t : HtTable B) (i : ℕ) : HtTable B :=
  t.setEntry i { t.entry i with kv := none }

/-- Draws the outcome of an allocation. -/
def HtTable.malloc (t : HtTable B) : Bool × HtTable B :=
  let (ok, b) := ix.malloc t.bare
  (ok, { t with bare := b })

/-- `alloc_entry`: the number of the new entry, or `VAL_NONE`. -/
def allocEntry (t : HtTable B) (hi : ℕ) (key value : Bytes) : ℕ × HtTable B :=
  if key.length > 2 ^ 16 - 1 then (valNone, t)
  else
    match t.malloc ix with
    | (false, t) => (valNone, { t with bare := ix.entryFailed t.bare })
    | (true, t) =>
      let eidx := t.entries.length % 2 ^ 32
      let e : HtEntry := ⟨key.length % 2 ^ 16, hi, value.length % 2 ^ 32, some (key, value)⟩
      (eidx, { t with entries := (t.entries ++ [HtEntry.zero]).set eidx e })

/-- `update_entry_value`. -/
def updateEntryValue (t : HtTable B) (i : ℕ) (key value : Bytes) : Bool × HtTable B :=
  let e := t.entry i
  if value.length = e.valLen then
    (true, t.setEntry i { e with kv := some ((e.kv.getD ([], [])).1, value) })
  else
    match t.malloc ix with
    | (false, t) => (false, t)
    | (true, t) =>
      (true, t.setEntry i { e with valLen := value.length % 2 ^ 32, kv := some (key, value) })

/-- `keys_match`. -/
def keysMatch (t : HtTable B) (i hi : ℕ) (key : Bytes) : Bool :=
  let e := t.entry i
  e.hashHi == hi && e.keyLen == key.length && fns.eq e.key key

/-- `vals_match`. -/
def valsMatch (t : HtTable B) (i : ℕ) (value : Bytes) : Bool :=
  let e := t.entry i
  e.valLen == value.length && e.val == value

/-- The scan with `hl_key_scan_cb` over the values `ht_bare_find_all` visits: the numbers of the
matching entries. When the array of matches (`cap` many) cannot grow, the scan stops. -/
def keyScan (hi : ℕ) (key : Bytes) : List ℕ → List ℕ → ℕ → HtTable B → List ℕ × HtTable B
  | [], ms, _, t => (ms, t)
  | i :: is, ms, cap, t =>
    if keysMatch fns t i hi key then
      if ms.length < cap then keyScan hi key is (ms ++ [i]) cap t
      else
        match t.malloc ix with
        | (false, t) => (ms, t)
        | (true, t) => keyScan hi key is (ms ++ [i]) (cap * 2) t
    else keyScan hi key is ms cap t

/-- The matches of a key. -/
def keyMatches (t : HtTable B) (hash : ℕ) (key : Bytes) : List ℕ × HtTable B :=
  keyScan ix fns (hashHi hash) key (ix.findAll t.bare hash) [] 64 t

/-- Frees the entries and removes them from the index. -/
def removeMatches (hash : ℕ) (ms : List ℕ) (t : HtTable B) : HtTable B :=
  ms.foldl (fun t i => { t.kvFree i with bare := (ix.removeVal t.bare hash i).2 }) t

/-! ## Rebuilding -/

/-- One entry of `ht_rebuild`: copied to the new entry array and inserted by `ins` into the new
index. An entry with an empty key is skipped. -/
def rebuildEntry (ins : B → ℕ → ℕ → Option (Bool × B)) (old : HtTable B) (t : HtTable B)
    (he : ℕ × ℕ) : Option (Bool × HtTable B) :=
  let e := old.entry he.2
  if e.keyLen = 0 then some (true, t)
  else
    match t.malloc ix with
    | (false, t) => some (false, t)
    | (true, t) =>
      let eidx := t.entries.length % 2 ^ 32
      match ins t.bare he.1 eidx with
      | none => none
      | some (ok, b) => some (ok, ⟨b, t.entries ++ [{ e with kv := some (e.key, e.val) }]⟩)

/-- One lane of `ht_rebuild`. -/
def rebuildLane (ins : B → ℕ → ℕ → Option (Bool × B)) (old : HtTable B) :
    List (ℕ × ℕ) → HtTable B → Option (Bool × HtTable B)
  | [], t => some (true, t)
  | he :: hes, t =>
    match rebuildEntry ix ins old t he with
    | none => none
    | some (false, t) => some (false, t)
    | some (true, t) => rebuildLane ins old hes t

/-- `ht_rebuild`. On failure the table is unchanged but for the allocations drawn. -/
def htRebuild (t : HtTable B) (newCapacity : ℕ) : Option (Bool × HtTable B) :=
  if newCapacity > sizeMax / 12 then none
  else
    match t.malloc ix with
    | (false, t) => some (false, t)
    | (true, t) =>
      let spillIns b h v := some (ix.spillInsert b h v)
      let fail (t' : HtTable B) : Option (Bool × HtTable B) :=
        some (false, { t with bare := ix.drawn t.bare t'.bare })
      -- main array, spill lane and stash, in this order
      match rebuildLane ix ix.insert t (ix.main t.bare) ⟨ix.fresh t.bare newCapacity, []⟩ with
      | none => none
      | some (false, t') => fail t'
      | some (true, t₁) =>
        match rebuildLane ix spillIns t ((ix.spill t.bare).filter (·.2 ≠ valNone)) t₁ with
        | none => none
        | some (false, t') => fail t'
        | some (true, t₂) =>
          match rebuildLane ix ix.insert t (ix.overflow t.bare) t₂ with
          | none => none
          | some (false, t') => fail t'
          | some (true, t₃) => some (true, { t₃ with bare := ix.placeTombs t₃.bare })

/-- `main_live`. -/
def HtTable.mainLive (t : HtTable B) : ℕ :=
  ix.size t.bare - (ix.spill t.bare).length - (ix.overflow t.bare).length

/-- `ht_resize`. -/
def htResize (t : HtTable B) (newCapacity : ℕ) : Option (Bool × HtTable B) :=
  if newCapacity < t.mainLive ix then some (false, t)
  else if ix.resizing t.bare then some (true, t)
  else if nextPow2 newCapacity = ix.capacity t.bare then some (true, t)
  else
    match htRebuild ix { t with bare := ix.setResizing true t.bare } (nextPow2 newCapacity) with
    | none => none
    | some (ok, t) => some (ok, { t with bare := ix.setResizing false t.bare })

/-- `ht_compact`. -/
def htCompact (t : HtTable B) : Option (Bool × HtTable B) := htRebuild ix t (ix.capacity t.bare)

/-- `ht_clear`. -/
def htClear (t : HtTable B) : HtTable B := ⟨ix.clear t.bare, []⟩

/-! ## Insertion -/

/-- The table has to grow before the next insertion. -/
def growNeeded (t : HtTable B) : Prop :=
  ix.resizing t.bare = false ∧
    ((t.mainLive ix + 1 : ℕ) : ℚ) / ix.capacity t.bare > ix.maxLoadFactor t.bare

instance (t : HtTable B) : Decidable (growNeeded ix t) := inferInstanceAs (Decidable (_ ∧ _))

/-- The growth before an insertion; `some (false, _)` is `return HT_INSERT_FAILED`. -/
def growForInsert (t : HtTable B) : Option (Bool × HtTable B) :=
  if growNeeded ix t then
    if ix.capacity t.bare > sizeMax / 2 then some (false, t)
    else
      match htResize ix t (ix.capacity t.bare * 2) with
      | none => none
      | some (false, t) => some (false, t)
      | some (true, t) =>
        if ix.size t.bare = 0 then
          some (false, { t with bare := ix.resetCounters (ix.setResizing false t.bare) })
        else some (true, t)
  else some (true, t)

/-- The second phase of `do_insert_with_hash`: a new entry. -/
def insertNew (t : HtTable B) (hash : ℕ) (key value : Bytes) :
    Option (HtInsertResult × HtTable B) :=
  match growForInsert ix t with
  | none => none
  | some (false, t) => some (.failed, t)
  | some (true, t) =>
    let (eidx, t) := allocEntry ix t (hashHi hash) key value
    if eidx = valNone then some (.failed, t)
    else
      match ix.insert t.bare (h48 hash) eidx with
      | none => none
      | some (ok, b) => some (if ok then .ok else .failed, { t with bare := b })

/-- `do_insert_with_hash`. -/
def doInsertWithHash (t : HtTable B) (hash : ℕ) (key value : Option Bytes) (mode : InsertMode) :
    Option (HtInsertResult × HtTable B) :=
  match key with
  | none => some (.failed, t)
  | some key =>
    let value := value.getD []
    match mode with
    | .upsert =>
      match keyMatches ix fns t hash key with
      | ([], t) => insertNew ix t hash key value
      -- the first match is overwritten, the others are removed
      | (m :: ms, t) =>
        match updateEntryValue ix t m key value with
        | (false, t) => some (.failed, t)
        | (true, t) => some (.update, removeMatches ix hash ms t)
    -- the pair has to be new, not its key
    | .unique =>
      if (ix.findAll t.bare hash).any fun i =>
          keysMatch fns t i (hashHi hash) key && valsMatch t i value then some (.update, t)
      else insertNew ix t hash key value
    | .always => insertNew ix t hash key value

/-- `ht_insert`, `ht_upsert` and `ht_unsert`: the hash of the key and the mode. -/
def insertKey (t : HtTable B) (key value : Option Bytes) (mode : InsertMode) :
    Option (HtInsertResult × HtTable B) :=
  doInsertWithHash ix fns t (fns.hash (key.getD [])) key value mode

/-- `ht_insert`. -/
def htInsert (t : HtTable B) (key value : Option Bytes) : Option (HtInsertResult × HtTable B) :=
  insertKey ix fns t key value .always

/-- `ht_upsert`. -/
def htUpsert (t : HtTable B) (key value : Option Bytes) : Option (HtInsertResult × HtTable B) :=
  insertKey ix fns t key value .upsert

/-- `ht_unsert`. -/
def htUnsert (t : HtTable B) (key value : Option Bytes) : Option (HtInsertResult × HtTable B) :=
  insertKey ix fns t key value .unique

/-! ## Removal -/

/-- The table may shrink after a removal. -/
def shrinkNeeded (t : HtTable B) : Prop :=
  ix.minLoadFactor t.bare > 0 ∧ ix.size t.bare > 0 ∧
    (ix.size t.bare : ℚ) / ix.capacity t.bare < ix.minLoadFactor t.bare ∧ ix.capacity t.bare > 64 ∧
    ix.capacity t.bare / 2 ≥ 64 ∧ ix.capacity t.bare / 2 ≥ ix.size t.bare * 2

instance (t : HtTable B) : Decidable (shrinkNeeded ix t) :=
  inferInstanceAs (Decidable (_ ∧ _ ∧ _ ∧ _ ∧ _ ∧ _))

/-- The shrinking after a removal; the result of `ht_resize` is ignored. -/
def shrinkAfter (t : HtTable B) : Option (HtTable B) :=
  if shrinkNeeded ix t then (htResize ix t (ix.capacity t.bare / 2)).map (·.2) else some t

/-- `ht_remove_with_hash` and `ht_remove`: the number of entries removed. -/
def htRemove (t : HtTable B) (key : Option Bytes) : Option (ℕ × HtTable B) :=
  match key with
  | none => some (0, t)
  | some key =>
    let hash := fns.hash key
    let (ms, t) := keyMatches ix fns t hash key
    let t := removeMatches ix hash ms t
    if ms.length > 0 then (shrinkAfter ix t).map fun t => (ms.length, t) else some (0, t)

/-- `ht_remove_kv_with_hash` and `ht_remove_kv`. The value of a match is tested when its turn comes;
freeing the others before does not change it. -/
def htRemoveKv (t : HtTable B) (key value : Option Bytes) : ℕ × HtTable B :=
  match key, value with
  | some key, some value =>
    let hash := fns.hash key
    let (ms, t) := keyMatches ix fns t hash key
    ms.foldl (fun (r : ℕ × HtTable B) i =>
      if valsMatch r.2 i value then (r.1 + 1, removeMatches ix hash [i] r.2) else r) (0, t)
  | _, _ => (0, t)

/-- `ht_remove_kv_one_with_hash` and `ht_remove_kv_one`. -/
def htRemoveKvOne (t : HtTable B) (key value : Option Bytes) : Option (Bool × HtTable B) :=
  match key, value with
  | some key, some value =>
    let hash := fns.hash key
    let (ms, t) := keyMatches ix fns t hash key
    match ms.find? fun i => valsMatch t i value with
    | none => some (false, t)
    | some i => (shrinkAfter ix (removeMatches ix hash [i] t)).map fun t => (true, t)
  | _, _ => some (false, t)

/-! ## Lookup and iteration -/

/-- The pair an entry holds. -/
def HtEntry.pair (e : HtEntry) : Bytes × Bytes := (e.key, e.val)

/-- `ht_find_key_all`: the pairs offered to the callback. -/
def htFindKeyAll (t : HtTable B) (key : Bytes) : List (Bytes × Bytes) :=
  let hash := fns.hash key
  ((ix.findAll t.bare hash).filter fun i => keysMatch fns t i (hashHi hash) key).map
    fun i => (t.entry i).pair

/-- `ht_find`: the value, if the key is present. -/
def htFind (t : HtTable B) (key : Bytes) : Option Bytes :=
  let hash := fns.hash key
  ((ix.findAll t.bare hash).find? fun i => keysMatch fns t i (hashHi hash) key).map
    fun i => (t.entry i).val

/-- The pairs that repeated calls of `ht_iter_next` return: main array, spill lane, overflow
stash. -/
def htIterAll (t : HtTable B) : List (Bytes × Bytes) :=
  ((ix.main t.bare ++ ix.spill t.bare ++ ix.overflow t.bare).filter (·.2 ≠ valNone)).map
    fun e => (t.entry e.2).pair

/-- `ht_size`. -/
def htSize (t : HtTable B) : ℕ := ix.size t.bare

end

end Draugr
