import Mathlib.Data.Set.Basic
import Mathlib.Logic.Function.Basic
import Mathlib.Data.List.Basic

/-!
# The byte-string store

Model of `src/htc_kv.c`: a store of byte-string keys over a table from 64-bit hashes to pointers.
The table is taken as an exact map and allocations succeed. A pointer is a number and `heap` holds
the entry it points to; reading through a pointer to a freed entry has no result.

The store keeps one entry for a hash. `HtcKv.Good` relates it to the map of its keys in every state,
with colliding keys or without: a lookup and a removal compare the whole key, so they answer as the
map does. An insertion does not, and it is refused for an absent key whenever a colliding key is
present.
-/

namespace Draugr.Kv

/-- A byte string. -/
abbrev Bytes := List UInt8

/-- `htc_kv_entry_t`; `copied` stands for `key_copy` and `val_copy`, which are set together. -/
structure KvEntry where
  key : Bytes
  val : Bytes
  copied : Bool
  deriving DecidableEq, Repr

/-- `kv_hash`, the FNV-1a hash. -/
def kvHash (key : Bytes) : UInt64 :=
  key.foldl (fun h b => (h ^^^ b.toUInt64) * 0x100000001b3) 0xcbf29ce484222325

/-- `keys_equal`. -/
def keysEqual (a b : Bytes) : Bool := a == b

/-- `struct htc_kv` with the memory of its entries. -/
structure HtcKv where
  /-- The table: the pointer stored under a hash. -/
  table : UInt64 → Option ℕ
  /-- The entry at an address. -/
  heap : ℕ → Option KvEntry
  /-- The addresses from here on have not been handed out. -/
  brk : ℕ
  allEntries : List ℕ

/-- `htc_kv_create`. -/
def htcKvCreate : HtcKv := ⟨fun _ => none, fun _ => none, 0, []⟩

/-- `list_push`. -/
def listPush (kv : HtcKv) (e : ℕ) : HtcKv := { kv with allEntries := e :: kv.allEntries }

/-- `list_remove`. -/
def listRemove (kv : HtcKv) (target : ℕ) : HtcKv :=
  { kv with allEntries := kv.allEntries.erase target }

/-- `kv_entry_alloc`. -/
def kvEntryAlloc (kv : HtcKv) (key val : Bytes) (copy : Bool) : ℕ × HtcKv :=
  (kv.brk, { kv with
    heap := Function.update kv.heap kv.brk (some ⟨key, val, copy⟩), brk := kv.brk + 1 })

/-- Frees an entry and its copies: the end of a failed insertion, and `kv_entry_retire_cb`. -/
def kvEntryFree (kv : HtcKv) (e : ℕ) : HtcKv := { kv with heap := Function.update kv.heap e none }

/-- `kv_insert`. -/
def kvInsert (kv : HtcKv) (e : ℕ) (hash : UInt64) : Bool × HtcKv :=
  if (kv.table hash).isSome then (false, kv)
  else (true, listPush { kv with table := Function.update kv.table hash (some e) } e)

/-- The body that `htc_kv_insert` and `htc_kv_insert_copy` share. -/
def insertWith (copy : Bool) (key val : Bytes) (kv : HtcKv) : Bool × HtcKv :=
  let hash := kvHash key
  let (e, kv) := kvEntryAlloc kv key val copy
  match kvInsert kv e hash with
  | (true, kv) => (true, kv)
  | (false, kv) => (false, kvEntryFree kv e)

/-- `htc_kv_insert`. -/
def htcKvInsert (key val : Bytes) (kv : HtcKv) : Bool × HtcKv := insertWith false key val kv

/-- `htc_kv_insert_copy`. -/
def htcKvInsertCopy (key val : Bytes) (kv : HtcKv) : Bool × HtcKv := insertWith true key val kv

/-- What `htc_kv_find` stores: `val` says that the buffer is not `NULL`, and `vlen` is the length
that the caller passes, if any. -/
def valueOut (e : KvEntry) (val : Bool) (vlen : Option ℕ) : Bytes × Option ℕ :=
  match vlen with
  | none => ([], none)
  | some n => (if val then e.val.take (min e.val.length n) else [], some e.val.length)

/-- `htc_kv_find`; `none` is a read through a pointer to a freed entry. -/
def htcKvFind (key : Bytes) (val : Bool) (vlen : Option ℕ) (kv : HtcKv) :
    Option (Bool × Bytes × Option ℕ) :=
  match kv.table (kvHash key) with
  | none => some (false, [], vlen)
  | some ptr => (kv.heap ptr).map fun e =>
    if keysEqual key e.key then (true, valueOut e val vlen) else (false, [], vlen)

/-- `htc_kv_remove`. -/
def htcKvRemove (key : Bytes) (kv : HtcKv) : Option (Bool × HtcKv) :=
  match kv.table (kvHash key) with
  | none => some (false, kv)
  | some ptr => (kv.heap ptr).map fun e =>
    if keysEqual key e.key then
      (true, kvEntryFree
        (listRemove { kv with table := Function.update kv.table (kvHash key) none } ptr) ptr)
    else (false, kv)

/-! ## The store and the map of its keys -/

/-- A call. -/
inductive KvOp where
  | insert (key val : Bytes)
  | insertCopy (key val : Bytes)
  | find (key : Bytes) (val : Bool) (vlen : Option ℕ)
  | remove (key : Bytes)

/-- What a call returns and stores. -/
structure Reply where
  ok : Bool
  bytes : Bytes
  vlen : Option ℕ

/-- A call: what it returns and stores, and the store after it. -/
def KvOp.run : KvOp → HtcKv → Option (Reply × HtcKv)
  | .insert key val, kv => some (⟨(htcKvInsert key val kv).1, [], none⟩, (htcKvInsert key val kv).2)
  | .insertCopy key val,
    kv => some (⟨(htcKvInsertCopy key val kv).1, [], none⟩, (htcKvInsertCopy key val kv).2)
  | .find key val vlen, kv => (htcKvFind key val vlen kv).map fun r => (⟨r.1, r.2.1, r.2.2⟩, kv)
  | .remove key, kv => (htcKvRemove key kv).map fun r => (⟨r.1, [], none⟩, r.2)

/-- A map from byte strings to byte strings. -/
abbrev KvMap := Bytes → Option Bytes

/-- The map after a call that returned `ok`. -/
def KvOp.apply (ok : Bool) (m : KvMap) : KvOp → KvMap
  | .insert key val => if ok then Function.update m key (some val) else m
  | .insertCopy key val => if ok then Function.update m key (some val) else m
  | .find _ _ _ => m
  | .remove key => if ok then Function.update m key none else m

/-- What the map prescribes: an insertion succeeds iff the key is absent, a lookup iff it is
present, with its value, and a removal iff it is present. -/
def KvOp.Answers (m : KvMap) (r : Reply) : KvOp → Prop
  | .insert key _ => r.ok = (m key).isNone
  | .insertCopy key _ => r.ok = (m key).isNone
  | .find key val vlen =>
    match m key with
    | none => r.ok = false
    | some v => r.ok = true ∧ (r.bytes, r.vlen) = valueOut ⟨key, v, false⟩ val vlen
  | .remove key => r.ok = (m key).isSome

/-- The key that a call adds. -/
def KvOp.adds : KvOp → Option Bytes
  | .insert key _ => some key
  | .insertCopy key _ => some key
  | _ => none

/-- The call inserts a key with the hash of another key that is present. -/
def KvOp.Collides (m : KvMap) (op : KvOp) : Prop :=
  ∃ key other, op.adds = some key ∧ other ≠ key ∧ m other ≠ none ∧ kvHash other = kvHash key

/-- The store and the map after a list of calls. -/
def kvRun : List KvOp → HtcKv × KvMap → Option (HtcKv × KvMap)
  | [], s => some s
  | op :: ops, (kv, m) => (op.run kv).bind fun r => kvRun ops (r.2, op.apply r.1.ok m)

/-- The store represents the map. -/
structure HtcKv.Good (kv : HtcKv) (m : KvMap) : Prop where
  sound : ∀ h p, kv.table h = some p → ∃ e,
    kv.heap p = some e ∧ kvHash e.key = h ∧ m e.key = some e.val
  complete : ∀ key v, m key = some v →
    ∃ p e, kv.table (kvHash key) = some p ∧ kv.heap p = some e ∧ e.key = key ∧ e.val = v
  fresh : ∀ p, kv.brk ≤ p → kv.heap p = none
  listed : ∀ p, p ∈ kv.allEntries ↔ ∃ h, kv.table h = some p
  nodup : kv.allEntries.Nodup

variable {kv kv' : HtcKv} {m : KvMap} {key val : Bytes} {h : UInt64} {p : ℕ} {e : KvEntry}

/-- A created store is good for the empty map. -/
lemma htcKvCreate_good : htcKvCreate.Good fun _ => none where
  sound h p hp := by cases hp
  complete key v hm := by cases hm
  fresh p _ := rfl
  listed p := ⟨fun hp => absurd hp List.not_mem_nil, fun ⟨h, hp⟩ => by cases hp⟩
  nodup := List.nodup_nil

/-- The entry under the hash of a key, when the key is present. -/
lemma HtcKv.Good.present (hg : kv.Good m) (ht : kv.table (kvHash key) = some p)
    (he : kv.heap p = some e) :
    keysEqual key e.key = true ↔ m key ≠ none := by
  obtain ⟨e', he', -, hm⟩ := hg.sound _ p ht
  rw [he] at he'
  cases he'
  rw [keysEqual, beq_iff_eq]
  constructor
  · rintro rfl
    rw [hm]
    exact Option.some_ne_none _
  · intro hk
    obtain ⟨v, hv⟩ := Option.ne_none_iff_exists'.mp hk
    obtain ⟨p', e', ht', he', hkey, -⟩ := hg.complete key v hv
    rw [ht] at ht'
    cases ht'
    rw [he] at he'
    cases he'
    exact hkey.symm

/-- A key whose hash has no entry is absent. -/
lemma HtcKv.Good.absent (hg : kv.Good m) (ht : kv.table (kvHash key) = none) : m key = none := by
  rw [Option.eq_none_iff_forall_ne_some]
  intro v hv
  obtain ⟨p, -, ht', -⟩ := hg.complete key v hv
  rw [ht] at ht'
  cases ht'

/-- A pointer is stored under one hash. -/
lemma HtcKv.Good.table_inj (hg : kv.Good m) {h h' : UInt64} (ht : kv.table h = some p)
    (ht' : kv.table h' = some p) :
    h = h' := by
  obtain ⟨e, he, rfl, -⟩ := hg.sound h p ht
  obtain ⟨e', he', rfl, -⟩ := hg.sound h' p ht'
  rw [he] at he'
  cases he'
  rfl

/-- A stored pointer was handed out. -/
lemma HtcKv.Good.lt_brk (hg : kv.Good m) (ht : kv.table h = some p) : p < kv.brk := by
  obtain ⟨e, he, -⟩ := hg.sound h p ht
  by_contra hlt
  rw [hg.fresh p (not_lt.mp hlt)] at he
  cases he

/-! ## The calls -/

/-- An insertion at a hash that has an entry is refused. -/
lemma HtcKv.Good.insertWith_refused (hg : kv.Good m) (copy : Bool)
    (ht : kv.table (kvHash key) = some p) :
    ∃ kv', insertWith copy key val kv = (false, kv') ∧ kv'.Good m := by
  have hsome : (kv.table (kvHash key)).isSome = true := by
    rw [ht]
    rfl
  refine ⟨kvEntryFree (kvEntryAlloc kv key val copy).2 kv.brk, ?_, ?_⟩
  · simp only [insertWith, kvInsert, kvEntryAlloc, hsome, if_true]
  · have hheap : (kvEntryFree (kvEntryAlloc kv key val copy).2 kv.brk).heap = kv.heap := by
      simp only [kvEntryFree, kvEntryAlloc, Function.update_idem]
      rw [← hg.fresh kv.brk le_rfl, Function.update_eq_self]
    refine ⟨?_, ?_, ?_, hg.listed, hg.nodup⟩
    · rw [hheap]
      exact hg.sound
    · rw [hheap]
      exact hg.complete
    · rw [hheap]
      exact fun p hp => hg.fresh p ((Nat.le_succ _).trans hp)

/-- An insertion at a hash without an entry adds the key. -/
lemma HtcKv.Good.insertWith_ok (hg : kv.Good m) (copy : Bool) (ht : kv.table (kvHash key) = none) :
    ∃ kv', insertWith copy key val kv = (true, kv') ∧
      kv'.Good (Function.update m key (some val)) := by
  have hsome : ¬ (kv.table (kvHash key)).isSome = true := by
    rw [ht]
    exact Bool.false_ne_true
  -- what the table has is neither this hash nor the new entry
  have hold : ∀ {h p}, kv.table h = some p → h ≠ kvHash key ∧ p ≠ kv.brk := by
    intro h p hp
    refine ⟨?_, (hg.lt_brk hp).ne⟩
    rintro rfl
    rw [ht] at hp
    cases hp
  refine ⟨listPush { (kvEntryAlloc kv key val copy).2 with
    table := Function.update kv.table (kvHash key) (some kv.brk) } kv.brk, ?_, ?_⟩
  · simp only [insertWith, kvInsert, kvEntryAlloc, hsome, if_false, Bool.false_eq_true]
  · refine ⟨fun h p hp => ?_, fun k v hv => ?_, fun p hp => ?_, fun p => ?_, ?_⟩
    · change Function.update kv.table (kvHash key) (some kv.brk) h = some p at hp
      by_cases hh : h = kvHash key
      · subst hh
        rw [Function.update_self] at hp
        cases hp
        exact ⟨⟨key, val, copy⟩, Function.update_self .., rfl, Function.update_self ..⟩
      · rw [Function.update_of_ne hh] at hp
        obtain ⟨e, he, rfl, hm⟩ := hg.sound h p hp
        refine ⟨e, ?_, rfl, ?_⟩
        · change Function.update kv.heap kv.brk _ p = some e
          rw [Function.update_of_ne (hold hp).2, he]
        · rw [Function.update_of_ne, hm]
          intro hk
          exact hh (congrArg kvHash hk)
    · by_cases hk : k = key
      · subst hk
        rw [Function.update_self] at hv
        cases hv
        exact ⟨kv.brk, ⟨k, val, copy⟩, Function.update_self .., Function.update_self .., rfl, rfl⟩
      · rw [Function.update_of_ne hk] at hv
        obtain ⟨p, e, hp, he, hke, hve⟩ := hg.complete k v hv
        refine ⟨p, e, ?_, ?_, hke, hve⟩
        · change Function.update kv.table (kvHash key) _ (kvHash k) = some p
          rw [Function.update_of_ne (hold hp).1, hp]
        · change Function.update kv.heap kv.brk _ p = some e
          rw [Function.update_of_ne (hold hp).2, he]
    · change Function.update kv.heap kv.brk _ p = none
      rw [Function.update_of_ne (Nat.lt_of_succ_le hp).ne']
      exact hg.fresh p ((Nat.le_succ _).trans hp)
    · change p ∈ kv.brk :: kv.allEntries ↔
        ∃ h, Function.update kv.table (kvHash key) (some kv.brk) h = some p
      rw [List.mem_cons, hg.listed]
      constructor
      · rintro (rfl | ⟨h, hp⟩)
        · exact ⟨kvHash key, Function.update_self ..⟩
        · exact ⟨h, by rw [Function.update_of_ne (hold hp).1, hp]⟩
      · rintro ⟨h, hp⟩
        by_cases hh : h = kvHash key
        · subst hh
          rw [Function.update_self] at hp
          cases hp
          exact .inl rfl
        · rw [Function.update_of_ne hh] at hp
          exact .inr ⟨h, hp⟩
    · change (kv.brk :: kv.allEntries).Nodup
      refine List.nodup_cons.mpr ⟨fun hm => ?_, hg.nodup⟩
      obtain ⟨h, hp⟩ := (hg.listed _).mp hm
      exact (hold hp).2 rfl

/-- An insertion answers as the map does unless the key collides. -/
lemma HtcKv.Good.insertWith (hg : kv.Good m) (copy : Bool) (key val : Bytes) :
    ∃ ok kv', insertWith copy key val kv = (ok, kv') ∧
      kv'.Good (if ok then Function.update m key (some val) else m) ∧
      (ok = (m key).isNone ↔
        ¬ ∃ other, other ≠ key ∧ m other ≠ none ∧ kvHash other = kvHash key) := by
  cases ht : kv.table (kvHash key) with
  | none =>
    obtain ⟨kv', he, hg'⟩ := (@HtcKv.Good.insertWith_ok _ _ _ val) hg copy ht
    refine ⟨true, kv', he, hg', ?_⟩
    rw [hg.absent ht]
    refine iff_of_true rfl ?_
    rintro ⟨other, -, hm, hh⟩
    rw [← hh] at ht
    exact hm (hg.absent ht)
  | some p =>
    obtain ⟨kv', he, hg'⟩ := (@HtcKv.Good.insertWith_refused _ _ _ val) hg copy ht
    refine ⟨false, kv', he, hg', ?_⟩
    obtain ⟨e, hp, hh, hm⟩ := hg.sound _ p ht
    by_cases hk : e.key = key
    · rw [hk] at hm
      rw [hm]
      refine iff_of_true rfl ?_
      -- the entry of the hash is the key's own, so no other key has the hash
      rintro ⟨other, hne, ho, hho⟩
      rw [← hho] at ht
      have he := (hg.present ht hp).mpr ho
      rw [keysEqual, beq_iff_eq, hk] at he
      exact hne he
    · have habs : m key = none := by
        by_contra hne
        have he := (hg.present ht hp).mpr hne
        rw [keysEqual, beq_iff_eq] at he
        exact hk he.symm
      rw [habs]
      refine iff_of_false Bool.false_ne_true (not_not.mpr ⟨e.key, hk, ?_, hh⟩)
      rw [hm]
      exact Option.some_ne_none _

/-- A lookup answers as the map does. -/
lemma HtcKv.Good.find (hg : kv.Good m) (key : Bytes) (val : Bool) (vlen : Option ℕ) :
    ∃ r, htcKvFind key val vlen kv = some r ∧ (KvOp.find key val vlen).Answers m
      ⟨r.1, r.2.1, r.2.2⟩ := by
  rw [htcKvFind]
  cases ht : kv.table (kvHash key) with
  | none =>
    refine ⟨_, rfl, ?_⟩
    simp only [KvOp.Answers, hg.absent ht]
  | some p =>
    obtain ⟨e, hp, -, hm⟩ := hg.sound _ p ht
    dsimp only
    rw [hp, Option.map_some]
    refine ⟨_, rfl, ?_⟩
    by_cases hk : keysEqual key e.key = true
    · rw [if_pos hk]
      rw [keysEqual, beq_iff_eq] at hk
      simp only [KvOp.Answers, hk, hm, true_and]
      rfl
    · rw [if_neg hk]
      have habs : m key = none := by
        by_contra hne
        exact hk ((hg.present ht hp).mpr hne)
      simp only [KvOp.Answers, habs]

/-- The store after the entry of a key was removed. -/
lemma HtcKv.Good.erase (hg : kv.Good m) (ht : kv.table (kvHash key) = some p)
    (hp : kv.heap p = some e) (hk : e.key = key) :
    (kvEntryFree
      (listRemove { kv with table := Function.update kv.table (kvHash key) none } p) p).Good
      (Function.update m key none) := by
  -- what the table still has is another hash and another entry
  have hold : ∀ {h q}, Function.update kv.table (kvHash key) none h = some q →
      h ≠ kvHash key ∧ kv.table h = some q ∧ q ≠ p := by
    intro h q hq
    have hh : h ≠ kvHash key := by
      rintro rfl
      rw [Function.update_self] at hq
      cases hq
    rw [Function.update_of_ne hh] at hq
    refine ⟨hh, hq, ?_⟩
    rintro rfl
    exact hh (hg.table_inj hq ht)
  refine ⟨fun h q hq => ?_, fun k v hv => ?_, fun q hq => ?_, fun q => ?_, hg.nodup.erase p⟩
  · obtain ⟨hh, hq, hne⟩ := hold hq
    obtain ⟨e', he', rfl, hm⟩ := hg.sound h q hq
    refine ⟨e', ?_, rfl, ?_⟩
    · exact (Function.update_of_ne hne ..).trans he'
    · rw [Function.update_of_ne, hm]
      intro hk'
      exact hh (congrArg kvHash hk')
  · have hne : k ≠ key := by
      rintro rfl
      rw [Function.update_self] at hv
      cases hv
    rw [Function.update_of_ne hne] at hv
    obtain ⟨q, e', hq, he', hke, hve⟩ := hg.complete k v hv
    have hqp : q ≠ p := by
      rintro rfl
      rw [hp] at he'
      cases he'
      exact hne (hke.symm.trans hk)
    refine ⟨q, e', ?_, (Function.update_of_ne hqp ..).trans he', hke, hve⟩
    refine (Function.update_of_ne ?_ ..).trans hq
    intro hh
    rw [hh, ht] at hq
    cases hq
    exact hqp rfl
  · have hqp : q ≠ p := ((hg.lt_brk ht).trans_le hq).ne'
    exact (Function.update_of_ne hqp ..).trans (hg.fresh q hq)
  · change q ∈ kv.allEntries.erase p ↔ ∃ h, Function.update kv.table (kvHash key) none h = some q
    rw [hg.nodup.mem_erase_iff, hg.listed]
    constructor
    · rintro ⟨hqp, h, hq⟩
      refine ⟨h, (Function.update_of_ne ?_ ..).trans hq⟩
      rintro rfl
      rw [ht] at hq
      cases hq
      exact hqp rfl
    · rintro ⟨h, hq⟩
      obtain ⟨-, hq, hne⟩ := hold hq
      exact ⟨hne, h, hq⟩

/-- A removal answers as the map does. -/
lemma HtcKv.Good.remove (hg : kv.Good m) (key : Bytes) :
    ∃ ok kv', htcKvRemove key kv = some (ok, kv') ∧ ok = (m key).isSome ∧
      kv'.Good (if ok then Function.update m key none else m) := by
  rw [htcKvRemove]
  cases ht : kv.table (kvHash key) with
  | none =>
    refine ⟨false, kv, rfl, ?_, hg⟩
    rw [hg.absent ht]
    rfl
  | some p =>
    obtain ⟨e, hp, -, hm⟩ := hg.sound _ p ht
    dsimp only
    rw [hp, Option.map_some]
    by_cases hk : keysEqual key e.key = true
    · rw [if_pos hk]
      rw [keysEqual, beq_iff_eq] at hk
      refine ⟨true, _, rfl, ?_, hg.erase ht hp hk.symm⟩
      rw [hk, hm]
      rfl
    · rw [if_neg hk]
      refine ⟨false, kv, rfl, ?_, hg⟩
      have habs : m key = none := by
        by_contra hne
        exact hk ((hg.present ht hp).mpr hne)
      rw [habs]
      rfl

/-- A call reads no freed entry, keeps the store in step with the map, and answers as the map does
exactly when it does not insert a key that collides with another one. -/
lemma HtcKv.Good.step (hg : kv.Good m) (op : KvOp) :
    ∃ r kv', op.run kv = some (r, kv') ∧ kv'.Good (op.apply r.ok m) ∧
      (op.Answers m r ↔ ¬ op.Collides m) := by
  have hquiet : ∀ {op : KvOp}, op.adds = none → ¬ op.Collides m := by
    rintro op hop ⟨key, other, ha, -⟩
    rw [hop] at ha
    cases ha
  have hadds : ∀ {op : KvOp} {key}, op.adds = some key →
      (op.Collides m ↔ ∃ other, other ≠ key ∧ m other ≠ none ∧ kvHash other = kvHash key) := by
    intro op key hop
    constructor
    · rintro ⟨k, other, ha, hrest⟩
      rw [hop] at ha
      cases ha
      exact ⟨other, hrest⟩
    · rintro ⟨other, hrest⟩
      exact ⟨key, other, hop, hrest⟩
  cases op with
  | insert key val =>
    obtain ⟨ok, kv', he, hg', hiff⟩ := hg.insertWith false key val
    refine ⟨⟨ok, [], none⟩, kv', ?_, hg', ?_⟩
    · rw [KvOp.run, htcKvInsert, he]
    · rw [hadds rfl]
      exact hiff
  | insertCopy key val =>
    obtain ⟨ok, kv', he, hg', hiff⟩ := hg.insertWith true key val
    refine ⟨⟨ok, [], none⟩, kv', ?_, hg', ?_⟩
    · rw [KvOp.run, htcKvInsertCopy, he]
    · rw [hadds rfl]
      exact hiff
  | find key val vlen =>
    obtain ⟨r, he, hans⟩ := hg.find key val vlen
    refine ⟨⟨r.1, r.2.1, r.2.2⟩, kv, ?_, hg, iff_of_true hans (hquiet rfl)⟩
    rw [KvOp.run, he, Option.map_some]
  | remove key =>
    obtain ⟨ok, kv', he, hok, hg'⟩ := hg.remove key
    refine ⟨⟨ok, [], none⟩, kv', ?_, hg', iff_of_true hok (hquiet rfl)⟩
    rw [KvOp.run, he, Option.map_some]

/-- A run keeps the store in step with the map. -/
lemma HtcKv.Good.run : ∀ (ops : List KvOp) {kv : HtcKv} {m : KvMap}, kv.Good m →
    ∃ kv' m', kvRun ops (kv, m) = some (kv', m') ∧ kv'.Good m'
  | [], kv, m, hg => ⟨kv, m, rfl, hg⟩
  | op :: ops, kv, m, hg => by
    obtain ⟨r, kv₁, he, hg₁, -⟩ := hg.step op
    obtain ⟨kv', m', hr, hg'⟩ := hg₁.run ops
    refine ⟨kv', m', ?_, hg'⟩
    rw [kvRun, he]
    exact hr

/-- After any calls, the next call answers as the map of the keys does if and only if it does not
insert a key whose hash is that of another key in the store. -/
theorem kv_answers_iff (ops : List KvOp) (op : KvOp) :
    ∃ kv m r kv', kvRun ops (htcKvCreate, fun _ => none) = some (kv, m) ∧
      op.run kv = some (r, kv') ∧
      (op.Answers m r ↔ ¬ op.Collides m) := by
  obtain ⟨kv, m, hrun, hg⟩ := htcKvCreate_good.run ops
  obtain ⟨r, kv', he, -, hiff⟩ := hg.step op
  exact ⟨kv, m, r, kv', hrun, he, hiff⟩

/-- `8yn0iYCKYHlIj4-BwPqk`. -/
def collidingKey : Bytes :=
  [56, 121, 110, 48, 105, 89, 67, 75, 89, 72, 108, 73, 106, 52, 45, 66, 119, 80, 113, 107]

/-- `GReLUrM4wMqfg9yzV3KQ`. -/
def collidingKey' : Bytes :=
  [71, 82, 101, 76, 85, 114, 77, 52, 119, 77, 113, 102, 103, 57, 121, 122, 86, 51, 75, 81]

/-- The second of two colliding keys is absent, and its insertion is refused. -/
theorem kv_insert_refused :
    (kvRun [.insert collidingKey [1]] (htcKvCreate, fun _ => none)).map
      (fun s => (s.2 collidingKey', (htcKvInsert collidingKey' [2] s.1).1)) =
        some (none, false) := by
  decide +kernel

end Draugr.Kv
