import Draugr.Htc.Clear
import Draugr.Kv.Store
import Draugr.Lib.Cursor

/-!
# Iterating over the byte-string store

`htc_kv_iter_next` does not go through the table. It walks the records of the arena and takes a
record for a present key unless its hash is zero, its flags are set or its value is zero. Here the
store of `src/htc_kv.c` stands on the concurrent table with its retire list, so that the records are
those the table leaves behind: in use, removed and waiting, freed, or used again.

* The arena is the ideal record store of the table, and the memory of entries hands out new
  addresses above zero. `allocs` says whether the allocations of `kv_entry_alloc` succeed.
* Every call carries the epochs of the pinned threads, its own included, while it collects.
* Callbacks run inside the calls of the table; their entries are freed when the call returns.

In every state `KvStore.Good` puts the present keys in step with the records in use. A freed record
has hash zero, and so has the record of a key whose hash is zero: the iterator passes over both.
-/

namespace Draugr.Kv
open Htc Lib

/-- `struct htc_kv` over the concurrent table, with the memory of its entries. -/
structure KvStore where
  table : EpochTable
  heap : ℕ → Option KvEntry
  brk : ℕ
  allEntries : List ℕ

/-- `htc_kv_create`. -/
def kvStoreCreate (cfg : Option HtcConfig) (seedCtr : ℕ) (mem nodeMem : List Bool) : KvStore :=
  ⟨htcCreateEpoch cfg seedCtr mem nodeMem, fun _ => none, 1, []⟩

/-- `kv_entry_alloc` when its allocations succeed. -/
def KvStore.kvEntryAlloc (kv : KvStore) (key val : Bytes) (copy : Bool) : ℕ × KvStore :=
  (kv.brk, { kv with
    heap := Function.update kv.heap kv.brk (some ⟨key, val, copy⟩), brk := kv.brk + 1 })

/-- Frees an entry and its copies. -/
def KvStore.kvEntryFree (kv : KvStore) (e : ℕ) : KvStore :=
  { kv with heap := Function.update kv.heap e none }

/-- The store after a call of the table. The callbacks that ran are `kv_entry_retire_cb`. -/
def KvStore.setTable (kv : KvStore) (t : EpochTable) : KvStore :=
  { kv with
    table := { t with called := [] }
    heap := fun p => if p ∈ t.called then none else kv.heap p }

/-- `list_push`. -/
def KvStore.listPush (kv : KvStore) (e : ℕ) : KvStore :=
  { kv with allEntries := e :: kv.allEntries }

/-- `list_remove`. -/
def KvStore.listRemove (kv : KvStore) (target : ℕ) : KvStore :=
  { kv with allEntries := kv.allEntries.erase target }

/-- The body that `htc_kv_insert` and `htc_kv_insert_copy` share. -/
def KvStore.insertWith (copy : Bool) (key val : Bytes) (te : List ℕ) (allocs : Bool)
    (kv : KvStore) : Bool × KvStore :=
  if allocs then
    let (e, kv) := kv.kvEntryAlloc key val copy
    match epochInsert te (kvHash key).toNat e kv.table with
    | (.ok, t) => (true, (kv.setTable t).listPush e)
    | (_, t) => (false, (kv.setTable t).kvEntryFree e)
  else (false, kv)

/-- The part of `htc_kv_remove` behind the comparison of the keys. -/
def KvStore.dismiss (hash e : ℕ) (te : List ℕ) (kv : KvStore) : Option (Bool × KvStore) :=
  (epochRemove te hash kv.table).map fun r =>
    match r with
    | (.ok, t) =>
      let kv := (kv.setTable t).listRemove e
      (true, kv.setTable (htcEpochRetire kv.table (.custom e)))
    | (_, t) => (false, kv.setTable t)

/-- `htc_kv_remove`; `none` is a read through a pointer to a freed entry, or a call that never
returns. -/
def KvStore.htcKvRemove (key : Bytes) (te : List ℕ) (kv : KvStore) : Option (Bool × KvStore) :=
  match htcFind (kvHash key).toNat true kv.table.toTable with
  | (.ok, some ptr, t) => (kv.heap ptr).bind fun e =>
    let kv := { kv with table := { kv.table with toTable := t } }
    if keysEqual key e.key then kv.dismiss (kvHash key).toNat ptr te else some (false, kv)
  | (_, _, t) => some (false, { kv with table := { kv.table with toTable := t } })

/-- A call, with the epochs of the pinned threads and the outcome of the allocations of its
entry. -/
inductive StoreOp where
  | insert (key val : Bytes) (te : List ℕ) (allocs : Bool)
  | insertCopy (key val : Bytes) (te : List ℕ) (allocs : Bool)
  | remove (key : Bytes) (te : List ℕ)

/-- A call: its reply and the store after it. -/
def StoreOp.run : StoreOp → KvStore → Option (Bool × KvStore)
  | .insert key val te allocs, kv => some (kv.insertWith false key val te allocs)
  | .insertCopy key val te allocs, kv => some (kv.insertWith true key val te allocs)
  | .remove key te, kv => kv.htcKvRemove key te

/-- The call without its circumstances. -/
def StoreOp.op : StoreOp → KvOp
  | .insert key val _ _ => .insert key val
  | .insertCopy key val _ _ => .insertCopy key val
  | .remove key _ => .remove key

/-- The store and the map of its keys after a list of calls. -/
def storeRun : List StoreOp → KvStore × KvMap → Option (KvStore × KvMap)
  | [], s => some s
  | op :: ops, (kv, m) => (op.run kv).bind fun r => storeRun ops (r.2, op.op.apply r.1 m)

/-! ## The iterator -/

/-- `htc_kv_iter_t` without the fields it hands out. -/
structure KvIter where
  idx : ℕ
  count : ℕ
  deriving DecidableEq, Repr

/-- `htc_kv_iter_init`. -/
def htcKvIterInit (kv : KvStore) : KvIter := ⟨0, kv.table.count⟩

/-- The loop of `htc_kv_iter_next`, `n` more records from `idx` on: the pointer it stops at, and
`it->idx`. -/
def iterRecords (kv : KvStore) : ℕ → ℕ → Option ℕ × ℕ
  | 0, idx => (none, idx)
  | n + 1, idx =>
    let r := kv.table.recs idx
    if r.identityHash = 0 ∨ r.flags ≠ 0 ∨ r.userValue = 0 then iterRecords kv n (idx + 1)
    else (some r.userValue, idx + 1)

/-- The pointer that `htc_kv_iter_next` arrives at. -/
def iterPointer (kv : KvStore) (it : KvIter) : Option ℕ × KvIter :=
  let r := iterRecords kv (it.count - it.idx) it.idx
  (r.1, { it with idx := r.2 })

/-- `htc_kv_iter_next`; `none` is a read through a pointer to a freed entry. -/
def htcKvIterNext (kv : KvStore) (it : KvIter) : Option (Option (Bytes × Bytes) × KvIter) :=
  match iterPointer kv it with
  | (none, it) => some (none, it)
  | (some ptr, it) => (kv.heap ptr).map fun e => (some (e.key, e.val), it)

/-- What `n` calls of `htc_kv_iter_next` hand out. -/
def iterCalls (kv : KvStore) : ℕ → KvIter → Option (List (Option (Bytes × Bytes)))
  | 0, _ => some []
  | n + 1, it => (htcKvIterNext kv it).bind fun r => (iterCalls kv n r.2).map (r.1 :: ·)

/-- Iterating hands out the pairs of the map, each once, and nothing after them. -/
def IterExact (kv : KvStore) (m : KvMap) : Prop :=
  ∃ pairs : List (Bytes × Bytes), pairs.Nodup ∧ (∀ key val, (key, val) ∈ pairs ↔ m key = some val) ∧
    ∀ n, iterCalls kv n (htcKvIterInit kv) = some ((List.range n).map fun i => pairs[i]?)

/-! ## The store and the map -/

/-- The store represents the map. -/
structure KvStore.Good (kv : KvStore) (m : KvMap) : Prop where
  tidy : kv.table.Tidy
  zeroed : ∀ i ∈ kv.table.freeIdx, kv.table.keyOf i = 0
  cache : ∀ k e, kv.table.cache k = some e → e.idx ∈ kv.table.used ∧ kv.table.keyOf e.idx = e.hash
  keys : Set.InjOn kv.table.keyOf kv.table.used
  entry : ∀ i ∈ kv.table.used, 0 < (kv.table.recs i).userValue ∧ ∃ e,
    kv.heap (kv.table.recs i).userValue = some e ∧
    kv.table.keyOf i = (kvHash e.key).toNat ∧ m e.key = some e.val
  complete : ∀ key val, m key = some val →
    ∃ i ∈ kv.table.used, ∃ e,
    kv.heap (kv.table.recs i).userValue = some e ∧ e.key = key ∧ e.val = val
  waiting : ∀ p ∈ kv.table.objects, ∀ i ∈ kv.table.used, (kv.table.recs i).userValue ≠ p
  fresh : ∀ p, kv.brk ≤ p → kv.heap p = none
  old : ∀ p ∈ kv.table.objects, p < kv.brk
  brk : 0 < kv.brk

/-- The duplicate check of an insertion sees a present key with the hash of the new one. -/
def StoreOp.Noticed (kv : KvStore) (m : KvMap) (op : StoreOp) : Prop :=
  ∀ key other, op.op.adds = some key → m other ≠ none → kvHash other = kvHash key →
    (htcSearch kv.table.toCore (kvHash key).toNat false).isSome = true

/-- Every insertion of a run sees the present key with its hash. -/
def NoticedRun : List StoreOp → KvStore × KvMap → Prop
  | [], _ => True
  | op :: ops, (kv, m) => op.Noticed kv m ∧ ∀ r,
    op.run kv = some r → NoticedRun ops (r.2, op.op.apply r.1 m)

variable {kv kv' : KvStore} {m : KvMap} {key val : Bytes} {te : List ℕ} {p : ℕ}

/-- A new store. -/
lemma kvStoreCreate_good (cfg : Option HtcConfig) (seedCtr : ℕ) (mem nodeMem : List Bool) :
    (kvStoreCreate cfg seedCtr mem nodeMem).Good fun _ => none where
  tidy := tidy_of_objectsOnly (fresh_stored (htcCreateEpoch cfg seedCtr mem nodeMem))
    (fun n hn => absurd hn List.not_mem_nil) rfl
  zeroed i hi := absurd hi List.not_mem_nil
  cache k e he := by cases he
  keys i hi := absurd hi.1 (Nat.not_lt_zero i)
  entry i hi := absurd hi.1 (Nat.not_lt_zero i)
  complete key val hm := by cases hm
  waiting p hp := absurd hp List.not_mem_nil
  fresh p _ := rfl
  old p hp := absurd hp List.not_mem_nil
  brk := Nat.one_pos

/-- The pointer of a record in use was handed out. -/
lemma KvStore.Good.lt_brk (hg : kv.Good m) {i : ℕ} (hi : i ∈ kv.table.used) :
    (kv.table.recs i).userValue < kv.brk := by
  obtain ⟨-, e, he, -⟩ := hg.entry i hi
  by_contra hlt
  rw [hg.fresh _ (not_lt.mp hlt)] at he
  cases he

/-- Two records in use have different pointers. -/
lemma KvStore.Good.pointer_inj (hg : kv.Good m) {i j : ℕ} (hi : i ∈ kv.table.used)
    (hj : j ∈ kv.table.used)
    (he : (kv.table.recs i).userValue = (kv.table.recs j).userValue) : i = j := by
  obtain ⟨-, e, hp, hk, -⟩ := hg.entry i hi
  obtain ⟨-, e', hp', hk', -⟩ := hg.entry j hj
  rw [he, hp'] at hp
  cases hp
  exact hg.keys hi hj (hk.trans hk'.symm)

/-- The free records stay zeroed. -/
lemma zeroed_of_freed {c c' : Core} (hz : ∀ i ∈ c.freeIdx, c.keyOf i = 0) (hf : FreeZeroed c c') :
    ∀ i ∈ c'.freeIdx, c'.keyOf i = 0 := by
  intro i hi
  rcases hf i hi with h0 | ⟨hm, hr⟩
  · exact h0
  · rw [Core.keyOf, hr]
    exact hz i hm

/-! ## Inserting -/

/-- An insertion whose duplicate check finds the key. -/
lemma epochInsert_duplicate {s : EpochTable} {h v : ℕ}
    (hf : (htcSearch s.toCore h false).isSome = true) :
    epochInsert te h v s = (.duplicate, s) := by
  have ha : insertAttempt h v s.toTable = .stop .duplicate s.toTable := by
    have ht : insertTry h v s.toTable = .duplicate := if_pos hf
    rw [insertAttempt, ht]
  rw [epochInsert, epochInsertLoop, ha]

/-- The list of entries is not part of what the store represents. -/
lemma KvStore.Good.setEntries (hg : kv.Good m) (l : List ℕ) :
    KvStore.Good { kv with allEntries := l } m :=
  ⟨hg.tidy, hg.zeroed, hg.cache, hg.keys, hg.entry, hg.complete, hg.waiting, hg.fresh,
    hg.old, hg.brk⟩

/-- A new entry changes nothing as long as no record points to it. -/
lemma KvStore.Good.alloc (hg : kv.Good m) (key val : Bytes) (copy : Bool) :
    (kv.kvEntryAlloc key val copy).2.Good m := by
  have hold : ∀ {q}, q < kv.brk → (kv.kvEntryAlloc key val copy).2.heap q = kv.heap q :=
    fun hq => Function.update_of_ne hq.ne ..
  refine ⟨hg.tidy, hg.zeroed, hg.cache, hg.keys, fun i hi => ?_, fun k v hm => ?_, hg.waiting,
    fun q hq => ?_, fun q hq => Nat.lt_succ_of_lt (hg.old q hq), Nat.succ_pos _⟩
  · obtain ⟨hpos, e, he, hrest⟩ := hg.entry i hi
    exact ⟨hpos, e, (hold (hg.lt_brk hi)).trans he, hrest⟩
  · obtain ⟨i, hi, e, he, hk⟩ := hg.complete k v hm
    exact ⟨i, hi, e, (hold (hg.lt_brk hi)).trans he, hk⟩
  · have hne : q ≠ kv.brk := (Nat.lt_of_succ_le hq).ne'
    exact (Function.update_of_ne hne ..).trans (hg.fresh q (Nat.le_of_succ_le hq))

/-- An entry to which no record in use points is freed. -/
lemma KvStore.Good.free (hg : kv.Good m)
    (hp : ∀ i ∈ kv.table.used, (kv.table.recs i).userValue ≠ p) :
    (kv.kvEntryFree p).Good m := by
  refine ⟨hg.tidy, hg.zeroed, hg.cache, hg.keys, fun i hi => ?_, fun k v hm => ?_, hg.waiting,
    fun q hq => ?_, hg.old, hg.brk⟩
  · obtain ⟨hpos, e, he, hrest⟩ := hg.entry i hi
    exact ⟨hpos, e, (Function.update_of_ne (hp i hi) ..).trans he, hrest⟩
  · obtain ⟨i, hi, e, he, hk⟩ := hg.complete k v hm
    exact ⟨i, hi, e, (Function.update_of_ne (hp i hi) ..).trans he, hk⟩
  · change Function.update kv.heap p none q = none
    by_cases hqp : q = p
    · rw [hqp, Function.update_self]
    · rw [Function.update_of_ne hqp]
      exact hg.fresh q hq

/-- The callbacks that ran belong to objects that waited. -/
lemma mem_objects_of_called {t : EpochTable} (hp : p ∈ t.called) : p ∈ t.objects :=
  List.mem_append_right _ hp

/-- The objects that still wait. -/
lemma objects_setTable {t : EpochTable} (hp : p ∈ (kv.setTable t).table.objects) :
    p ∈ t.objects := by
  rcases List.mem_append.mp hp with hp | hp
  · exact List.mem_append_left _ hp
  · exact absurd hp List.not_mem_nil

/-- An entry whose callback did not run. -/
lemma heap_setTable {t : EpochTable} (hp : p ∉ t.called) : (kv.setTable t).heap p = kv.heap p :=
  if_neg hp

/-- Addresses that have not been handed out. -/
lemma KvStore.Good.fresh_setTable (hg : kv.Good m) (t : EpochTable) (hp : kv.brk ≤ p) :
    (kv.setTable t).heap p = none := by
  change (if p ∈ t.called then none else kv.heap p) = none
  split
  · rfl
  · exact hg.fresh p hp

/-- The store after a change of the table that does not touch the records in use. -/
lemma KvStore.Good.calm {t : EpochTable} (hg : kv.Good m) (hc : Calm kv.table t) :
    (kv.setTable t).Good m := by
  have hrec : ∀ {i}, i ∈ t.used → i ∈ kv.table.used ∧ t.recs i = kv.table.recs i := by
    intro i hi
    rw [hc.untouched.used] at hi
    exact ⟨hi, hc.untouched.recs i hi⟩
  have hback : ∀ {i}, i ∈ kv.table.used → i ∈ t.used := fun hi => hc.untouched.used ▸ hi
  have hheap : ∀ {i}, i ∈ kv.table.used →
      (kv.setTable t).heap (kv.table.recs i).userValue = kv.heap (kv.table.recs i).userValue := by
    intro i hi
    refine heap_setTable fun hm => ?_
    exact hg.waiting _ (hc.objects (mem_objects_of_called hm)) i hi rfl
  refine ⟨hc.tidy, zeroed_of_freed hg.zeroed hc.freed, fun k e he => ?_, fun i hi j hj hij => ?_,
    fun i hi => ?_, fun key val hm => ?_, fun p hp i hi => ?_, fun p hp => hg.fresh_setTable t hp,
    fun p hp => hg.old p (hc.objects (objects_setTable hp)), hg.brk⟩
  · have he' : kv.table.cache k = some e := hc.cache ▸ he
    obtain ⟨hu, hk⟩ := hg.cache k e he'
    exact ⟨hback hu, (congrArg HtcRecord.identityHash (hc.untouched.recs _ hu)).trans hk⟩
  · obtain ⟨hi, hri⟩ := hrec hi
    obtain ⟨hj, hrj⟩ := hrec hj
    change (t.recs i).identityHash = (t.recs j).identityHash at hij
    rw [hri, hrj] at hij
    exact hg.keys hi hj hij
  · obtain ⟨hi, hr⟩ := hrec hi
    change 0 < (t.recs i).userValue ∧ ∃ e, (kv.setTable t).heap (t.recs i).userValue = some e ∧
      (t.recs i).identityHash = (kvHash e.key).toNat ∧ m e.key = some e.val
    rw [hr, hheap hi]
    exact hg.entry i hi
  · obtain ⟨i, hi, e, he, hk⟩ := hg.complete key val hm
    refine ⟨i, hback hi, e, ?_, hk⟩
    change (kv.setTable t).heap (t.recs i).userValue = some e
    rw [hc.untouched.recs i hi, hheap hi]
    exact he
  · obtain ⟨hi, hr⟩ := hrec hi
    change (t.recs i).userValue ≠ p
    rw [hr]
    exact hg.waiting p (hc.objects (objects_setTable hp)) i hi

/-- The store after a record of a new key came into use. -/
lemma KvStore.Good.lent {t : EpochTable} {copy : Bool} {i : ℕ} (hg : kv.Good m)
    (hp : kv.heap p = some ⟨key, val, copy⟩) (hp0 : 0 < p) (hpo : p ∉ kv.table.objects)
    (hnew : ∀ j ∈ kv.table.used, kv.table.keyOf j ≠ (kvHash key).toNat) (ht : t.Tidy)
    (ho : t.objects ⊆ kv.table.objects)
    (hf : FreeZeroed kv.table.toCore t.toCore) (hcache : t.cache = kv.table.cache)
    (hl : Lent kv.table.toCore t.toCore (kvHash key).toNat p i) :
    (kv.setTable t).Good (Function.update m key (some val)) := by
  have hcases : ∀ {j}, j ∈ t.used → j = i ∨ j ∈ kv.table.used ∧ t.recs j = kv.table.recs j := by
    intro j hj
    rw [hl.used] at hj
    exact hj.imp_right fun hu => ⟨hu, hl.recs j hu⟩
  have hi : i ∈ t.used := hl.used ▸ Set.mem_insert _ _
  have hback :
      ∀ {j}, j ∈ kv.table.used → j ∈ t.used := fun hj => hl.used ▸ Set.mem_insert_of_mem _ hj
  have hcalled : ∀ {q}, q ∉ kv.table.objects → (kv.setTable t).heap q = kv.heap q :=
    fun hq => heap_setTable fun hm => hq (ho (mem_objects_of_called hm))
  have hvalue : ∀ {j}, j ∈ kv.table.used → (kv.table.recs j).userValue ∉ kv.table.objects :=
    fun hj hm => hg.waiting _ hm _ hj rfl
  have hother : ∀ {j e}, j ∈ kv.table.used → kv.heap (kv.table.recs j).userValue = some e →
      e.key ≠ key := by
    rintro j e hj he rfl
    obtain ⟨-, e', he', hk, -⟩ := hg.entry j hj
    rw [he] at he'
    cases he'
    exact hnew j hj hk
  -- each record in use is the new one, or was in use before
  refine ⟨ht, zeroed_of_freed hg.zeroed hf, fun k e he => ?_, fun j hj k hk hjk => ?_,
    fun j hj => ?_, fun k v hm => ?_, fun q hq j hj => ?_, fun q hq => hg.fresh_setTable t hq,
    fun q hq => hg.old q (ho (objects_setTable hq)), hg.brk⟩
  · have he' : kv.table.cache k = some e := hcache ▸ he
    obtain ⟨hu, hk⟩ := hg.cache k e he'
    exact ⟨hback hu, (congrArg HtcRecord.identityHash (hl.recs _ hu)).trans hk⟩
  · change t.keyOf j = t.keyOf k at hjk
    rcases hcases hj with rfl | ⟨hj, hrj⟩ <;> rcases hcases hk with rfl | ⟨hk, hrk⟩
    · rfl
    · rw [hl.key, Core.keyOf, hrk] at hjk
      exact absurd hjk.symm (hnew k hk)
    · rw [hl.key, Core.keyOf, hrj] at hjk
      exact absurd hjk (hnew j hj)
    · rw [Core.keyOf, Core.keyOf, hrj, hrk] at hjk
      exact hg.keys hj hk hjk
  · change 0 < (t.recs j).userValue ∧ ∃ e, (kv.setTable t).heap (t.recs j).userValue = some e ∧
      t.keyOf j = (kvHash e.key).toNat ∧ Function.update m key (some val) e.key = some e.val
    rcases hcases hj with rfl | ⟨hj, hr⟩
    · rw [hl.value, hl.key]
      exact ⟨hp0, _, (hcalled hpo).trans hp, rfl, Function.update_self ..⟩
    · obtain ⟨hpos, e, he, hk, hm⟩ := hg.entry j hj
      rw [Core.keyOf, hr, hcalled (hvalue hj)]
      refine ⟨hpos, e, he, hk, ?_⟩
      rw [Function.update_of_ne (hother hj he)]
      exact hm
  · change ∃ j ∈ t.used, ∃ e,
      (kv.setTable t).heap (t.recs j).userValue = some e ∧ e.key = k ∧ e.val = v
    by_cases hk : k = key
    · subst hk
      rw [Function.update_self] at hm
      cases hm
      refine ⟨i, hi, ⟨k, val, copy⟩, ?_, rfl, rfl⟩
      rw [hl.value]
      exact (hcalled hpo).trans hp
    · rw [Function.update_of_ne hk] at hm
      obtain ⟨j, hj, e, he, hrest⟩ := hg.complete k v hm
      refine ⟨j, hback hj, e, ?_, hrest⟩
      rw [hl.recs j hj, hcalled (hvalue hj)]
      exact he
  · change (t.recs j).userValue ≠ q
    rcases hcases hj with rfl | ⟨hj, hr⟩
    · rw [hl.value]
      rintro rfl
      exact hpo (ho (objects_setTable hq))
    · rw [hr]
      exact hg.waiting q (ho (objects_setTable hq)) j hj

/-- An insertion keeps the store in step with the map. -/
lemma KvStore.Good.insertWith (hg : kv.Good m) (copy allocs : Bool)
    (hn : ∀ other, m other ≠ none → kvHash other = kvHash key →
      (htcSearch kv.table.toCore (kvHash key).toNat false).isSome = true) :
    (kv.insertWith copy key val te allocs).2.Good
      (if (kv.insertWith copy key val te allocs).1 then Function.update m key (some val)
        else m) := by
  cases allocs with
  | false => exact hg
  | true =>
    have hga := hg.alloc key val copy
    have hi := epochInsertLoop_inserted te (kvHash key).toNat kv.brk 4 hga.tidy
    have hw : kv.insertWith copy key val te true =
        match epochInsertLoop te (kvHash key).toNat kv.brk 4 kv.table with
        | (.ok, t) => (true, ((kv.kvEntryAlloc key val copy).2.setTable t).listPush kv.brk)
        | (_, t) => (false, ((kv.kvEntryAlloc key val copy).2.setTable t).kvEntryFree kv.brk) :=
          if_pos rfl
    rw [hw]
    have hdup : epochInsertLoop te (kvHash key).toNat kv.brk 4 kv.table =
        epochInsert te (kvHash key).toNat kv.brk kv.table := rfl
    change EpochInserted _ _ kv.table (epochInsertLoop te (kvHash key).toNat kv.brk 4 kv.table).1
      (epochInsertLoop te (kvHash key).toNat kv.brk 4 kv.table).2 at hi
    rcases hr : epochInsertLoop te (kvHash key).toNat kv.brk 4 kv.table with ⟨e, t⟩
    rw [hr] at hi
    rcases hi.used with ⟨he, hu⟩ | ⟨he, i, hl⟩
    · -- the insertion was refused, and no record in use points to the new entry
      have hgood : (((kv.kvEntryAlloc key val copy).2.setTable t).kvEntryFree kv.brk).Good m := by
        refine (hga.calm ⟨hi.tidy, hu, hi.objects, hi.freed, hi.cache, hi.cacheOn⟩).free
          fun i hiu => ?_
        have hiu : i ∈ kv.table.used := hu.used ▸ hiu
        change (t.recs i).userValue ≠ kv.brk
        rw [hu.recs i hiu]
        exact (hg.lt_brk hiu).ne
      cases e with
      | ok => exact absurd rfl he
      | _ => exact hgood
    · have he : e = .ok := he
      subst he
      have hnew : ∀ j ∈ kv.table.used, kv.table.keyOf j ≠ (kvHash key).toNat := by
        intro j hj hk
        obtain ⟨-, e, -, hke, hm⟩ := hg.entry j hj
        have hsome :=
          hn e.key (by rw [hm]; exact Option.some_ne_none _)
          (UInt64.toNat_inj.mp (hke.symm.trans hk))
        rw [hdup, epochInsert_duplicate hsome] at hr
        cases hr
      have hgood :=
        (@KvStore.Good.lent _ _ _ _ _ _ copy) hga (Function.update_self ..) hg.brk
        (fun hm => lt_irrefl _ (hg.old _ hm)) hnew
        hi.tidy hi.objects hi.freed hi.cache hl
      exact hgood.setEntries _

/-! ## Removing -/

/-- `htc_find` returns the value of a record in use, or nothing. -/
lemma KvStore.Good.find (hg : kv.Good m) (h : ℕ) :
    ∃ k, (∃ i ∈ kv.table.used, kv.table.keyOf i = h ∧
      htcFind h true kv.table.toTable =
      (.ok, some (kv.table.recs i).userValue, kv.table.toTable.withCache k) ∧
      ∀ j e, k.1 j = some e → e.idx ∈ kv.table.used ∧ kv.table.keyOf e.idx = e.hash) ∨
    htcFind h true kv.table.toTable = (.notFound, some 0, kv.table.toTable) := by
  have htable : ∃ k, (∃ i ∈ kv.table.used, kv.table.keyOf i = h ∧
      findTable h true kv.table.toTable =
      (.ok, some (kv.table.recs i).userValue, kv.table.toTable.withCache k) ∧
      ∀ j e, k.1 j = some e → e.idx ∈ kv.table.used ∧ kv.table.keyOf e.idx = e.hash) ∨
      findTable h true kv.table.toTable = (.notFound, some 0, kv.table.toTable) := by
    rw [findTable]
    cases hf : htcSearch kv.table.toCore h true with
    | none => exact ⟨(kv.table.cache, kv.table.cachePos), .inr rfl⟩
    | some p =>
      obtain ⟨hl, hk⟩ := search_hit hf
      have hu := hg.tidy.toStored.live_subset_used hl
      refine ⟨(Function.update kv.table.cache _ _, _), .inl ⟨_, hu, hk, rfl, fun j e he => ?_⟩⟩
      rcases update_some_cases he with ⟨-, rfl⟩ | ⟨-, he⟩
      · exact ⟨hu, hk⟩
      · exact hg.cache j e he
  rw [htcFind]
  cases hf : (if (true && kv.table.cacheOn) = true then htcFrontCacheLookup kv.table.toTable h
    else none) with
  | none => exact htable
  | some v =>
    split at hf
    · obtain ⟨j, hj⟩ := List.exists_of_findSome?_eq_some hf
      obtain ⟨-, hj⟩ := hj
      split at hj
      · cases hj
      · next e he =>
        dsimp only at hj
        split at hj
        · next hcond =>
          cases hj
          obtain ⟨hu, hk⟩ := hg.cache j e he
          exact ⟨(kv.table.cache, kv.table.cachePos),
            .inl ⟨e.idx, hu, hk.trans hcond.1, rfl, hg.cache⟩⟩
        · cases hj
    · cases hf

/-- The store after an entry was put into the front cache. -/
lemma KvStore.Good.withCache (hg : kv.Good m) (k : (ℕ → Option CacheEntry) × ℕ)
    (hk : ∀ j e, k.1 j = some e → e.idx ∈ kv.table.used ∧ kv.table.keyOf e.idx = e.hash) :
    KvStore.Good { kv with table := { kv.table with toTable := kv.table.toTable.withCache k } } m :=
  ⟨hg.tidy, hg.zeroed, hk, hg.keys, hg.entry, hg.complete, hg.waiting, hg.fresh, hg.old, hg.brk⟩

/-- The store after the record of a key was removed from the table. -/
lemma KvStore.Good.removed {t : EpochTable} {e : KvEntry} {i : ℕ} (hg : kv.Good m)
    (hi : i ∈ kv.table.used) (hp : kv.heap (kv.table.recs i).userValue = some e)
    (hr : EpochRemoved (kvHash e.key).toNat kv.table t)
    (hk : kv.table.keyOf i = (kvHash e.key).toNat) :
    (kv.setTable t).Good (Function.update m e.key none) ∧
      (∀ j ∈ t.used, (t.recs j).userValue ≠ (kv.table.recs i).userValue) := by
  obtain ⟨i', hi', hk', hd⟩ := hr.used
  have hii : i' = i := hg.keys hd.old hi (hk'.trans hk.symm)
  subst hii
  have hcases : ∀ {j}, j ∈ t.used → j ≠ i' ∧ j ∈ kv.table.used ∧ t.recs j = kv.table.recs j := by
    intro j hj
    have hr := hd.recs j hj
    rw [hd.used] at hj
    exact ⟨hj.2, hj.1, hr⟩
  have hback : ∀ {j}, j ∈ kv.table.used → j ≠ i' → j ∈ t.used := fun hj hne => hd.used ▸ ⟨hj, hne⟩
  have hheap : ∀ {j}, j ∈ kv.table.used →
      (kv.setTable t).heap (kv.table.recs j).userValue = kv.heap (kv.table.recs j).userValue := by
    intro j hj
    refine heap_setTable fun hm => ?_
    exact hg.waiting _ (hr.objects (mem_objects_of_called hm)) j hj rfl
  -- no other record has the key
  have hother :
      ∀ {j e'}, j ∈ kv.table.used → j ≠ i' → kv.heap (kv.table.recs j).userValue = some e' →
        e'.key ≠ e.key := by
    intro j e' hj hne he' heq
    obtain ⟨-, e'', he'', hkj, -⟩ := hg.entry j hj
    rw [he'] at he''
    cases he''
    rw [heq] at hkj
    exact hne (hg.keys hj hi (hkj.trans hk.symm))
  -- the record and its entry are gone, the others are as before
  refine ⟨⟨hr.tidy, zeroed_of_freed hg.zeroed hr.freed, fun k e' he' => ?_,
    fun j hj k hk' hjk => ?_, fun j hj => ?_,
    fun k v hm => ?_, fun q hq j hj => ?_, fun q hq => hg.fresh_setTable t hq,
    fun q hq => hg.old q (hr.objects (objects_setTable hq)), hg.brk⟩, fun j hj => ?_⟩
  · have he' : (htcFrontCacheRemove kv.table.toTable (kvHash e.key).toNat).cache k = some e' :=
      hr.cache ▸ he'
    obtain ⟨he', hne⟩ := Option.filter_eq_some_iff.mp he'
    obtain ⟨hu, hk'⟩ := hg.cache k e' he'
    have hidx : e'.idx ≠ i' := by
      intro heq
      rw [heq, hk] at hk'
      rw [bne_iff_ne] at hne
      exact hne hk'.symm
    have hu' := hback hu hidx
    exact ⟨hu', (congrArg HtcRecord.identityHash (hd.recs _ hu')).trans hk'⟩
  · obtain ⟨-, hj, hrj⟩ := hcases hj
    obtain ⟨-, hk', hrk⟩ := hcases hk'
    change (t.recs j).identityHash = (t.recs k).identityHash at hjk
    rw [hrj, hrk] at hjk
    exact hg.keys hj hk' hjk
  · obtain ⟨hne, hj, hrj⟩ := hcases hj
    change 0 < (t.recs j).userValue ∧ ∃ e', (kv.setTable t).heap (t.recs j).userValue = some e' ∧
      (t.recs j).identityHash = (kvHash e'.key).toNat ∧
      Function.update m e.key none e'.key = some e'.val
    obtain ⟨hpos, e', he', hkj, hm⟩ := hg.entry j hj
    rw [hrj, hheap hj]
    refine ⟨hpos, e', he', hkj, ?_⟩
    rw [Function.update_of_ne (hother hj hne he')]
    exact hm
  · have hke : k ≠ e.key := by
      rintro rfl
      rw [Function.update_self] at hm
      cases hm
    rw [Function.update_of_ne hke] at hm
    obtain ⟨j, hj, e', he', hkj, hv⟩ := hg.complete k v hm
    have hne : j ≠ i' := by
      rintro rfl
      rw [hp] at he'
      cases he'
      exact hke hkj.symm
    refine ⟨j, hback hj hne, e', ?_, hkj, hv⟩
    change (kv.setTable t).heap (t.recs j).userValue = some e'
    rw [hd.recs j (hback hj hne), hheap hj]
    exact he'
  · obtain ⟨-, hj, hrj⟩ := hcases hj
    change (t.recs j).userValue ≠ q
    rw [hrj]
    exact hg.waiting q (hr.objects (objects_setTable hq)) j hj
  · obtain ⟨hne, hj, hrj⟩ := hcases hj
    rw [hrj]
    exact fun he => hne (hg.pointer_inj hj hi he)

/-- The entry of a removed key is retired. -/
lemma KvStore.Good.retire (hg : kv.Good m) (hlt : p < kv.brk)
    (hp : ∀ i ∈ kv.table.used, (kv.table.recs i).userValue ≠ p) :
    (kv.setTable (htcEpochRetire kv.table (.custom p))).Good m := by
  obtain ⟨ht, hcore, ho⟩ := htcEpochRetire_custom hg.tidy p
  generalize htcEpochRetire kv.table (.custom p) = t at ht hcore ho
  have hused : ∀ {i}, i ∈ t.used ↔ i ∈ kv.table.used := by
    intro i
    rw [hcore]
  have hobj : ∀ {q}, q ∈ t.objects → ∀ i ∈ kv.table.used, (kv.table.recs i).userValue ≠ q := by
    intro q hq i hi
    rcases List.mem_cons.mp (ho hq) with rfl | hq
    · exact hp i hi
    · exact hg.waiting q hq i hi
  have hheap : ∀ {i}, i ∈ kv.table.used →
      (kv.setTable t).heap (kv.table.recs i).userValue = kv.heap (kv.table.recs i).userValue :=
    fun hi => heap_setTable fun hm => hobj (mem_objects_of_called hm) _ hi rfl
  refine ⟨ht, ?_, ?_, ?_, fun i hi => ?_, fun key val hm => ?_, fun q hq i hi => ?_,
    fun q hq => hg.fresh_setTable t hq, fun q hq => ?_, hg.brk⟩
  · change ∀ i ∈ t.freeIdx, t.keyOf i = 0
    rw [hcore]
    exact hg.zeroed
  · change ∀ k e, t.cache k = some e → e.idx ∈ t.used ∧ t.keyOf e.idx = e.hash
    rw [hcore]
    exact hg.cache
  · change Set.InjOn t.keyOf t.used
    rw [hcore]
    exact hg.keys
  · have hi : i ∈ kv.table.used := hused.mp hi
    obtain ⟨hpos, e, he, hrest⟩ := hg.entry i hi
    change 0 < (t.recs i).userValue ∧ ∃ e, (kv.setTable t).heap (t.recs i).userValue = some e ∧
      t.keyOf i = (kvHash e.key).toNat ∧ m e.key = some e.val
    rw [hcore, hheap hi]
    exact ⟨hpos, e, he, hrest⟩
  · obtain ⟨i, hi, e, he, hrest⟩ := hg.complete key val hm
    refine ⟨i, hused.mpr hi, e, ?_, hrest⟩
    change (kv.setTable t).heap (t.recs i).userValue = some e
    rw [hcore, hheap hi]
    exact he
  · change (t.recs i).userValue ≠ q
    rw [hcore]
    exact hobj (objects_setTable hq) i (hused.mp hi)
  · rcases List.mem_cons.mp (ho (objects_setTable hq)) with rfl | hq
    · exact hlt
    · exact hg.old q hq

/-- A removal keeps the store in step with the map. -/
lemma KvStore.Good.remove {ok : Bool} (hg : kv.Good m)
    (he : kv.htcKvRemove key te = some (ok, kv')) :
    kv'.Good (if ok then Function.update m key none else m) := by
  rw [KvStore.htcKvRemove] at he
  obtain ⟨k, ⟨i, hi, hk, hf, hcache⟩ | hf⟩ := hg.find (kvHash key).toNat
  · rw [hf] at he
    obtain ⟨e, hp, he⟩ := Option.bind_eq_some_iff.mp he
    have hgc := hg.withCache k hcache
    split at he
    · next hkey =>
      rw [keysEqual, beq_iff_eq] at hkey
      obtain ⟨⟨r, t⟩, hr, he⟩ := Option.map_eq_some_iff.mp he
      subst hkey
      rcases epochRemove_cases te hgc.tidy (kvHash e.key).toNat with
        hn | ⟨t', hr', hc⟩ | ⟨t', hr', hrem⟩
      · exact absurd (hr.symm.trans hn) (Option.some_ne_none _)
      · rw [hr] at hr'
        cases hr'
        cases he
        exact hgc.calm hc
      · rw [hr] at hr'
        cases hr'
        cases he
        obtain ⟨hgr, hne⟩ := hgc.removed hi hp hrem hk
        exact (hgr.setEntries _).retire (hg.lt_brk hi) hne
    · cases he
      exact hgc
  · rw [hf] at he
    cases he
    exact hg

/-- A call keeps the store in step with the map. -/
lemma KvStore.Good.step {op : StoreOp} {ok : Bool} (hg : kv.Good m) (hn : op.Noticed kv m)
    (hr : op.run kv = some (ok, kv')) : kv'.Good (op.op.apply ok m) := by
  cases op with
  | insert key val te allocs =>
    have h := (@KvStore.Good.insertWith _ _ _ val te) hg false allocs fun other => hn key other rfl
    rw [Option.some.inj hr] at h
    exact h
  | insertCopy key val te allocs =>
    have h := (@KvStore.Good.insertWith _ _ _ val te) hg true allocs fun other => hn key other rfl
    rw [Option.some.inj hr] at h
    exact h
  | remove key te => exact hg.remove hr

/-- A run keeps the store in step with the map. -/
lemma KvStore.Good.run : ∀ {ops : List StoreOp} {kv kv' : KvStore} {m m' : KvMap}, kv.Good m →
    NoticedRun ops (kv, m) → storeRun ops (kv, m) = some (kv', m') → kv'.Good m'
  | [], _, _, _, _, hg, _, hr => by
    cases hr
    exact hg
  | op :: ops, kv, kv', m, m', hg, hn, hr => by
    obtain ⟨⟨ok, kv₁⟩, hr₁, hr⟩ := Option.bind_eq_some_iff.mp hr
    exact (hg.step hn.1 hr₁).run (hn.2 _ hr₁) hr

/-! ## What the iterator hands out -/

/-- The pointer of a record, unless the iterator passes over it. -/
def recordCell (kv : KvStore) (i : ℕ) : Option ℕ :=
  let r := kv.table.recs i
  if r.identityHash = 0 ∨ r.flags ≠ 0 ∨ r.userValue = 0 then none else some r.userValue

/-- The records in front of an iterator. -/
def KvIter.rest (kv : KvStore) (it : KvIter) : List ℕ :=
  ahead ((List.range it.count).map (recordCell kv)) it.idx

/-- The loop stops at the first pointer in front of it. -/
lemma iterRecords_spec (kv : KvStore) (c : ℕ) : ∀ (n idx : ℕ), c - idx = n →
    (iterRecords kv n idx).1 = (ahead ((List.range c).map (recordCell kv)) idx).head? ∧
      ahead ((List.range c).map (recordCell kv)) (iterRecords kv n idx).2 =
        (ahead ((List.range c).map (recordCell kv)) idx).tail
  | 0, idx, hn => by
    have hend : ahead ((List.range c).map (recordCell kv)) idx = [] :=
      ahead_of_le (by rw [List.length_map, List.length_range]; omega)
    rw [iterRecords]
    dsimp only
    rw [hend]
    exact ⟨rfl, rfl⟩
  | n + 1, idx, hn => by
    have hlt : idx < c := by omega
    have hcell : ((List.range c).map (recordCell kv))[idx]? = some (recordCell kv idx) := by
      rw [List.getElem?_map, List.getElem?_range hlt, Option.map_some]
    rw [iterRecords]
    by_cases hskip : (kv.table.recs idx).identityHash = 0 ∨ (kv.table.recs idx).flags ≠ 0 ∨
        (kv.table.recs idx).userValue = 0
    · rw [if_pos hskip]
      rw [recordCell, if_pos hskip] at hcell
      rw [ahead_hole hcell]
      exact iterRecords_spec kv c n (idx + 1) (by omega)
    · rw [if_neg hskip]
      rw [recordCell, if_neg hskip] at hcell
      rw [ahead_cell hcell]
      exact ⟨rfl, rfl⟩

/-- The iterator hands out the pointers in front of it one by one. -/
lemma iterPointer_yields (kv : KvStore) : Yields (iterPointer kv) (KvIter.rest kv) := by
  intro it
  exact iterRecords_spec kv it.count _ it.idx rfl

/-- The pair behind a pointer. -/
def pairAt (kv : KvStore) (p : ℕ) : Bytes × Bytes :=
  ((kv.heap p).map fun e => (e.key, e.val)).getD ([], [])

/-- Calls that read no freed entry hand out the pairs behind the pointers. -/
lemma iterCalls_eq (kv : KvStore) : ∀ (n : ℕ) (it : KvIter), (∀ p ∈ it.rest kv, kv.heap p ≠ none) →
    iterCalls kv n it = some ((calls (iterPointer kv) n it).map (Option.map (pairAt kv)))
  | 0, _, _ => rfl
  | n + 1, it, h => by
    obtain ⟨hhead, htail⟩ := iterPointer_yields kv it
    rw [iterCalls, calls, htcKvIterNext, List.map_cons]
    rcases hp : iterPointer kv it with ⟨o, it'⟩
    rw [hp] at hhead htail
    have ih := iterCalls_eq kv n it' fun p hm => h p (List.mem_of_mem_tail (htail ▸ hm))
    cases o with
    | none =>
      dsimp only
      rw [Option.bind_some, ih]
      rfl
    | some p =>
      have hp : p ∈ it.rest kv := List.mem_of_mem_head? hhead.symm
      obtain ⟨e, he⟩ := Option.ne_none_iff_exists'.mp (h p hp)
      have hpair : pairAt kv p = (e.key, e.val) := by
        rw [pairAt, he]
        rfl
      dsimp only
      rw [he, Option.map_some, Option.bind_some, ih, Option.map_some, Option.map_some, hpair]

/-- The iterator stops at records in use only. -/
lemma KvStore.Good.used_of_recordCell (hg : kv.Good m) {i : ℕ} (hi : i < kv.table.count)
    (he : recordCell kv i = some p) :
    i ∈ kv.table.used ∧ kv.table.keyOf i ≠ 0 ∧ (kv.table.recs i).userValue = p := by
  rw [recordCell] at he
  split at he
  · cases he
  · next hskip =>
    push Not at hskip
    exact ⟨⟨hi, fun hm => hskip.1 (hg.zeroed i hm), hskip.2.1⟩, hskip.1, Option.some.inj he⟩

/-- The pointers of the iterator are those of the records in use whose hash is not zero. -/
lemma KvStore.Good.mem_rest (hg : kv.Good m) :
    p ∈ (htcKvIterInit kv).rest kv ↔
      ∃ i ∈ kv.table.used, kv.table.keyOf i ≠ 0 ∧ (kv.table.recs i).userValue = p := by
  rw [KvIter.rest, htcKvIterInit, ahead, List.drop_zero, List.filterMap_map]
  constructor
  · intro hp
    obtain ⟨i, hi, he⟩ := List.mem_filterMap.mp hp
    obtain ⟨hu, hk, hv⟩ := hg.used_of_recordCell (List.mem_range.mp hi) he
    exact ⟨i, hu, hk, hv⟩
  · rintro ⟨i, hi, hk, rfl⟩
    refine List.mem_filterMap.mpr ⟨i, List.mem_range.mpr hi.1, ?_⟩
    rw [Function.id_comp, recordCell]
    refine if_neg ?_
    rintro (h0 | hf | hv)
    · exact hk h0
    · exact hf hi.2.2
    · exact (hg.entry i hi).1.ne' hv

/-- The pairs that the iterator hands out. -/
def iterPairs (kv : KvStore) : List (Bytes × Bytes) := ((htcKvIterInit kv).rest kv).map (pairAt kv)

/-- The pair of a record in use. -/
lemma KvStore.Good.pairAt {i : ℕ} (hg : kv.Good m) (hi : i ∈ kv.table.used) :
    kv.table.keyOf i = (kvHash (pairAt kv (kv.table.recs i).userValue).1).toNat ∧
      m (Kv.pairAt kv (kv.table.recs i).userValue).1 =
      some (Kv.pairAt kv (kv.table.recs i).userValue).2 := by
  obtain ⟨-, e, he, hk, hm⟩ := hg.entry i hi
  rw [Kv.pairAt, he]
  exact ⟨hk, hm⟩

/-- Every number of calls hands out the pairs in order. -/
lemma KvStore.Good.iterCalls (hg : kv.Good m) (n : ℕ) :
    iterCalls kv n (htcKvIterInit kv) = some ((List.range n).map fun i => (iterPairs kv)[i]?) := by
  rw [iterCalls_eq kv n _ fun p hp => ?_, (iterPointer_yields kv).calls, List.map_map]
  · refine congrArg some (List.map_congr_left fun i _ => ?_)
    rw [iterPairs, List.getElem?_map]
    rfl
  · obtain ⟨i, hi, -, rfl⟩ := hg.mem_rest.mp hp
    obtain ⟨-, e, he, -⟩ := hg.entry i hi
    rw [he]
    exact Option.some_ne_none _

/-- No pair is handed out twice. -/
lemma KvStore.Good.iterPairs_nodup (hg : kv.Good m) : (iterPairs kv).Nodup := by
  have hpointers : ((htcKvIterInit kv).rest kv).Nodup := by
    rw [KvIter.rest, htcKvIterInit, ahead, List.drop_zero, List.filterMap_map, List.Nodup,
      List.pairwise_filterMap]
    refine List.nodup_range.imp_of_mem fun {i j} hi hj hne p hp q hq hpq => hne ?_
    obtain ⟨hui, -, hvi⟩ := hg.used_of_recordCell (List.mem_range.mp hi) hp
    obtain ⟨huj, -, hvj⟩ := hg.used_of_recordCell (List.mem_range.mp hj) hq
    exact hg.pointer_inj hui huj ((hvi.trans hpq).trans hvj.symm)
  refine List.Nodup.map_on (fun p hp q hq he => ?_) hpointers
  obtain ⟨i, hi, -, rfl⟩ := hg.mem_rest.mp hp
  obtain ⟨j, hj, -, rfl⟩ := hg.mem_rest.mp hq
  have hij : i = j := by
    refine hg.keys hi hj ?_
    rw [(hg.pairAt hi).1, (hg.pairAt hj).1, he]
  rw [hij]

/-- The pairs that are handed out are those of the present keys whose hash is not zero. -/
lemma KvStore.Good.mem_iterPairs (hg : kv.Good m) : (key, val) ∈ iterPairs kv ↔
    m key = some val ∧ kvHash key ≠ 0 := by
  have hzero :
      ∀ {h : UInt64}, h.toNat ≠ 0 ↔ h ≠ 0 := fun {h} => not_congr (UInt64.toNat_inj (b := 0))
  rw [iterPairs, List.mem_map]
  constructor
  · rintro ⟨p, hp, he⟩
    obtain ⟨i, hi, hk, rfl⟩ := hg.mem_rest.mp hp
    obtain ⟨hki, hm⟩ := hg.pairAt hi
    rw [he] at hki hm
    refine ⟨hm, hzero.mp ?_⟩
    rw [← hki]
    exact hk
  · rintro ⟨hm, hk⟩
    obtain ⟨i, hi, e, he, rfl, rfl⟩ := hg.complete key val hm
    obtain ⟨-, e', he', hki, -⟩ := hg.entry i hi
    rw [he] at he'
    cases he'
    refine ⟨_, hg.mem_rest.mpr ⟨i, hi, ?_, rfl⟩, ?_⟩
    · rw [hki]
      exact hzero.mpr hk
    · rw [Kv.pairAt, he]
      rfl

/-- Two lists of which every number of calls hands out the same are equal. -/
lemma eq_of_range_map {α : Type*} {l l' : List α}
    (h : ∀ n, (List.range n).map (fun i => l[i]?) = (List.range n).map fun i => l'[i]?) :
    l = l' := by
  refine List.ext_getElem? fun i => ?_
  have hi := congrArg (fun l => l[i]?) (h (i + 1))
  rw [List.getElem?_map, List.getElem?_map, List.getElem?_range (Nat.lt_succ_self i)] at hi
  exact Option.some.inj hi

/-- In a store in step with the map, iterating is exact if and only if no present key has hash
zero. -/
lemma KvStore.Good.iterExact_iff (hg : kv.Good m) : IterExact kv m ↔
    ∀ key, m key ≠ none → kvHash key ≠ 0 := by
  constructor
  · rintro ⟨pairs, -, hmem, hcalls⟩ key hk
    have he : pairs = iterPairs kv :=
      eq_of_range_map fun n => Option.some.inj ((hcalls n).symm.trans (hg.iterCalls n))
    obtain ⟨val, hv⟩ := Option.ne_none_iff_exists'.mp hk
    have hm := (hmem key val).mpr hv
    rw [he] at hm
    exact (hg.mem_iterPairs.mp hm).2
  · intro h
    refine ⟨iterPairs kv, hg.iterPairs_nodup, fun key val => ?_, hg.iterCalls⟩
    rw [hg.mem_iterPairs]
    refine ⟨fun hm => hm.1, fun hm => ⟨hm, h key ?_⟩⟩
    rw [hm]
    exact Option.some_ne_none _

/-- After every run whose insertions see the present key with their hash, the iterator hands out
every present key with its value exactly once, and no other, if and only if no present key has hash
zero. -/
theorem kv_iter_exact_iff (cfg : Option HtcConfig) (seedCtr : ℕ) (mem nodeMem : List Bool)
    (ops : List StoreOp) (kv : KvStore) (m : KvMap)
    (hn : NoticedRun ops (kvStoreCreate cfg seedCtr mem nodeMem, fun _ => none))
    (hr : storeRun ops (kvStoreCreate cfg seedCtr mem nodeMem, fun _ => none) = some (kv, m)) :
    IterExact kv m ↔ ∀ key, m key ≠ none → kvHash key ≠ 0 :=
  ((kvStoreCreate_good cfg seedCtr mem nodeMem).run hn hr).iterExact_iff

/-- The duplicate check of every insertion sees the keys among `keys` and those inserted before that
have its hash. -/
def noticedCheck : List Bytes → List StoreOp → KvStore → Bool
  | _, [], _ => true
  | keys, op :: ops, kv =>
    (op.op.adds.all fun key => keys.all fun other => decide (kvHash other ≠ kvHash key) ||
      (htcSearch kv.table.toCore (kvHash key).toNat false).isSome) &&
    (op.run kv).all fun r => noticedCheck (op.op.adds.toList ++ keys) ops r.2

/-- A call brings in the key that it adds only. -/
lemma apply_ne_none {op : KvOp} {ok : Bool} (h : op.apply ok m key ≠ none) :
    m key ≠ none ∨ op.adds = some key := by
  by_cases hk : op.adds = some key
  · exact .inr hk
  · refine .inl fun hm => h ?_
    cases op with
    | find key' val vlen => exact hm
    | remove key' =>
      cases ok with
      | false => exact hm
      | true =>
        rw [KvOp.apply, if_pos rfl, Function.update_apply]
        split
        · rfl
        · exact hm
    | _ key' val =>
      cases ok with
      | false => exact hm
      | true =>
        have hne : key ≠ key' := fun he => hk (congrArg some he.symm)
        exact (Function.update_of_ne hne _ _).trans hm

/-- A run brings in the keys that its calls add only. -/
lemma storeRun_keys : ∀ {ops : List StoreOp} {s s' : KvStore × KvMap}, storeRun ops s = some s' →
    s'.2 key ≠ none → s.2 key ≠ none ∨ key ∈ ops.filterMap (·.op.adds)
  | [], s, s', he, hk => by
    cases he
    exact .inl hk
  | op :: ops, (kv, m), s', he, hk => by
    obtain ⟨r, -, he⟩ := Option.bind_eq_some_iff.mp he
    rw [List.mem_filterMap]
    rcases storeRun_keys he hk with h | h
    · exact (apply_ne_none h).imp_right fun ha => ⟨op, List.mem_cons_self .., ha⟩
    · obtain ⟨op', hop', ha⟩ := List.mem_filterMap.mp h
      exact .inr ⟨op', List.mem_cons_of_mem _ hop', ha⟩

/-- The check implies the condition on the run. -/
lemma noticedRun_of_check : ∀ {ops : List StoreOp} (keys : List Bytes) {kv : KvStore} {m : KvMap},
    (∀ key, m key ≠ none → key ∈ keys) → noticedCheck keys ops kv = true → NoticedRun ops (kv, m)
  | [], _, _, _, _, _ => trivial
  | op :: ops, keys, kv, m, hm, hc => by
    rw [noticedCheck, Bool.and_eq_true] at hc
    refine ⟨fun key other hadds hother hhash => ?_,
      fun r hr => noticedRun_of_check (op.op.adds.toList ++ keys) (fun key hk => ?_) ?_⟩
    · have h := hc.1
      rw [hadds, Option.all_some, List.all_eq_true] at h
      have h := h other (hm other hother)
      rw [Bool.or_eq_true, decide_eq_true_eq] at h
      exact h.resolve_left fun hne => hne hhash
    · rw [List.mem_append, Option.mem_toList]
      exact (apply_ne_none hk).symm.imp_right (hm key)
    · have h := hc.2
      rw [hr, Option.all_some] at h
      exact h

/-- Three keys are inserted, one of them twice, and one is removed. -/
def threeKeys : List StoreOp :=
  [.insert [1] [2] [] true, .insertCopy [3] [4, 5] [] true, .insert [6] [7] [] true,
    .insert [3] [9] [] true, .remove [1] []]

/-- A store with two keys, and a third that was removed. -/
theorem kv_iter_exact_two :
    ∃ kv m, storeRun threeKeys (kvStoreCreate none 0 [] [], fun _ => none) = some (kv, m) ∧
    m [1] = none ∧ m [3] = some [4, 5] ∧ m [6] = some [7] ∧ IterExact kv m := by
  have hcomp : (storeRun threeKeys (kvStoreCreate none 0 [] [], fun _ => none)).map
      (fun s => (s.2 [1], s.2 [3], s.2 [6])) = some (none, some [4, 5], some [7]) := by
    decide +kernel
  obtain ⟨⟨kv, m⟩, hr, hcomp⟩ := Option.map_eq_some_iff.mp hcomp
  obtain ⟨h1, hcomp⟩ := Prod.mk.inj hcomp
  obtain ⟨h3, h6⟩ := Prod.mk.inj hcomp
  refine ⟨kv, m, hr, h1, h3, h6, (kv_iter_exact_iff none 0 [] [] threeKeys kv m
    (noticedRun_of_check [] (fun _ hk => absurd rfl hk) (by decide +kernel)) hr).mpr ?_⟩
  intro key hk
  have hkeys : ∀ key ∈ threeKeys.filterMap (·.op.adds), kvHash key ≠ 0 := by decide +kernel
  exact hkeys key ((storeRun_keys hr hk).resolve_left fun h => h rfl)

/-- `!0IC=VloaY`, a key with hash zero. -/
def zeroKey : Bytes := [33, 48, 73, 67, 61, 86, 108, 111, 97, 89]

/-- If the first call hands out nothing, iterating is exact for the empty map only. -/
lemma IterExact.eq_none (he : IterExact kv m) (h : iterCalls kv 1 (htcKvIterInit kv) = some [none])
    (key : Bytes) :
    m key = none := by
  obtain ⟨pairs, -, hmem, hcalls⟩ := he
  have hnone : pairs[0]? = none := by
    have h1 := (hcalls 1).symm.trans h
    exact List.head_eq_of_cons_eq (Option.some.inj h1)
  have hnil : pairs = [] :=
    List.eq_nil_of_length_eq_zero (Nat.le_zero.mp (List.getElem?_eq_none_iff.mp hnone))
  by_contra hne
  obtain ⟨val, hv⟩ := Option.ne_none_iff_exists'.mp hne
  have hin := (hmem key val).mpr hv
  rw [hnil] at hin
  exact List.not_mem_nil hin

/-- A present key with hash zero is not handed out. -/
theorem kv_iter_misses :
    ∃ kv m, storeRun [.insert zeroKey [1] [] true] (kvStoreCreate none 0 [] [], fun _ => none) =
      some (kv, m) ∧
      m zeroKey = some [1] ∧ ¬ IterExact kv m := by
  refine ⟨_, _, rfl, by decide +kernel, fun he => ?_⟩
  have hnone := he.eq_none (by decide +kernel) zeroKey
  revert hnone
  decide +kernel

end Draugr.Kv
