import Draugr.Htc.Calls
import Draugr.Htc.Records
import Draugr.Htc.Runs

/-!
# Records that wait to be freed

`htc_remove` does not free the record it removes: it retires it, and a later call of
`htc_epoch_collect` frees it once every thread that was pinned has moved on. `EpochTable` is the
table with the retire list of its control block. The other threads appear as the list `te` of the
epochs in their slots while a call runs; a slot that is not pinned holds `0`.

* A node is a record or an object with its callback (`htc_epoch_retire_custom`); `called` lists the
  objects whose callback ran, the last one first.
* `nodeMem` lists the outcomes of the allocations of retire nodes to come; an exhausted list stands
  for success.
* The global epoch is a number without bound. A call loads the list, splits it and stores it while
  no other thread is in a call.
* The retired generations, which only own memory, are left out.

Where no other thread is pinned, a call leaves nothing behind and the table is the one of
`Htc/Defs`, whose records are freed at once (`HtcOp.runEpoch_quiet`).
-/

namespace Draugr.Htc
open Draugr.Lib

/-- What a retire node stands for: a record of the arena, or an object with its callback. -/
inductive Retired where
  | record (idx : ℕ)
  | custom (ctx : ℕ)
  deriving DecidableEq, Repr

/-- `htc_retire_node_t`. -/
structure RetireNode where
  what : Retired
  retireEpoch : ℕ
  deriving DecidableEq, Repr

/-- `htc_table_t` with the epochs and the retire list of `t->epoch`. -/
structure EpochTable extends Table where
  globalEpoch : ℕ
  retireList : List RetireNode
  nodeMem : List Bool
  called : List ℕ

/-- Frees a record, or calls the callback of an object. -/
def EpochTable.release (s : EpochTable) : Retired → EpochTable
  | .record idx => { s with toCore := s.arenaFree idx }
  | .custom ctx => { s with called := ctx :: s.called }

/-- Pushes a node on the retire list. -/
def EpochTable.push (s : EpochTable) (r : Retired) : EpochTable :=
  { s with retireList := ⟨r, s.globalEpoch + 2⟩ :: s.retireList }

/-- `htc_epoch_retire` and `htc_epoch_retire_custom`. Without a node the object is released at
once. -/
def htcEpochRetire (s : EpochTable) (r : Retired) : EpochTable :=
  match s.nodeMem with
  | [] => s.push r
  | true :: rest => { s with nodeMem := rest }.push r
  | false :: rest => { s with nodeMem := rest }.release r

/-- `retire_epoch < min_ep`, where `min_ep` is the least epoch of a pinned thread. -/
def RetireNode.ripe (te : List ℕ) (n : RetireNode) : Bool :=
  te.all fun e => e == 0 || decide (n.retireEpoch < e)

/-- `htc_epoch_collect`. The nodes to free are stacked first, so the oldest is freed first. -/
def htcEpochCollect (te : List ℕ) (s : EpochTable) : EpochTable :=
  (s.retireList.filter (·.ripe te)).foldr (fun n s => s.release n.what)
    { s with retireList := s.retireList.filter fun n => !n.ripe te }

/-- `htc_epoch_advance`. -/
def htcEpochAdvance (s : EpochTable) : EpochTable := { s with globalEpoch := s.globalEpoch + 1 }

/-- The two calls at the end of an operation. -/
def collectAdvance (te : List ℕ) (s : EpochTable) : EpochTable :=
  htcEpochAdvance (htcEpochCollect te s)

/-- `insert_done`. -/
def epochInsertDone (te : List ℕ) (s : EpochTable) : EpochTable :=
  let s := collectAdvance te { s with size := s.size + 1 }
  if (s.size : ℚ) / s.gen.numBuckets > s.maxLoadFactor
    then { s with toTable := (htcGrow false s.toTable).2 } else s

/-- The attempts of `htc_insert`. -/
def epochInsertLoop (te : List ℕ) (hash value : ℕ) : ℕ → EpochTable → HtcError × EpochTable
  | 0, s => (.pathological, s)
  | k + 1, s =>
    match insertAttempt hash value s.toTable with
    | .stop e t => (e, { s with toTable := t })
    | .entered t => (.ok, epochInsertDone te { s with toTable := t })
    | .overflow t =>
      let s := collectAdvance te { s with toTable := t }
      match htcGrow true s.toTable with
      | (.ok, t) => epochInsertLoop te hash value k { s with toTable := t }
      | (e, t) => (e, { s with toTable := t })

/-- `htc_insert`. -/
def epochInsert (te : List ℕ) (hash value : ℕ) (s : EpochTable) : HtcError × EpochTable :=
  epochInsertLoop te hash value 4 s

/-- The part of `htc_remove` that looks for the word and clears it, with the index of its record.
`none` is a call that never returns, and `some none` a key without a word. -/
def htcUnlink (hash : ℕ) (c : Core) : Option (Option (ℕ × Core)) :=
  let b1 := c.gen.primary (placementHash hash c.gen.seed)
  match htcSearch c hash true with
  | none => some none
  | some (.slot x) =>
    match c.wordAt (.slot x) with
    | none => some none
    | some w =>
      -- one sequence counter, taken twice
      if w.inSec ∧ x.1 = b1 then none
      else
        let g := c.gen.clear x
        some (some (w.idx, { c with gen := if w.inSec then g.remapDec b1 else g }))
  | some (.shard s i) =>
    some (some (c.idxAt (.shard s i), c.setShard s (htcStashRemoveAt (c.shards s) i)))
  | some (.global i) =>
    some (some (c.idxAt (.global i), { c with stash := htcStashRemoveAt c.stash i }))

/-- Marks a record as removed. -/
def Core.mark (c : Core) (idx : ℕ) : Core :=
  { c with recs := Function.update c.recs idx { c.recs idx with flags := 1 } }

/-- What `htc_remove` does with the record of the word it cleared. -/
def epochDismiss (te : List ℕ) (hash idx : ℕ) (c : Core) (s : EpochTable) : EpochTable :=
  let t := htcFrontCacheRemove { s.toTable with toCore := c.mark idx } hash
  let s := htcEpochRetire { s with toTable := t } (.record idx)
  collectAdvance te { s with size := s.size - 1 }

/-- `htc_remove`; `none` is a call that never returns. -/
def epochRemove (te : List ℕ) (hash : ℕ) (s : EpochTable) : Option (HtcError × EpochTable) :=
  (htcUnlink hash s.toCore).map fun r =>
    match r with
    | none => (.notFound, collectAdvance te s)
    | some (idx, c) => (.ok, epochDismiss te hash idx c s)

/-- The attempts of `htc_upsert`. -/
def epochUpsertLoop (te : List ℕ) (hash value : ℕ) : ℕ → EpochTable → HtcError × EpochTable
  | 0, s => (.pathological, s)
  | k + 1, s =>
    match htcSearch s.toCore hash true with
    | some p => (.ok, { s with toCore := s.setValue (s.idxAt p) value })
    | none =>
      match epochInsert te hash value s with
      | (.duplicate, s) => epochUpsertLoop te hash value k s
      | r => r

/-- `htc_upsert`. -/
def epochUpsert (te : List ℕ) (hash value : ℕ) (s : EpochTable) : HtcError × EpochTable :=
  epochUpsertLoop te hash value 4 s

/-- A call of the table, with the epochs of the other threads while it runs. `htc_update`,
`htc_find` and `htc_grow` do not collect. -/
def HtcOp.runEpoch (te : List ℕ) : HtcOp → EpochTable → Option (HtcError × Option ℕ × EpochTable)
  | .insert key value, s =>
    let r := epochInsert te key.toNat value.toNat s
    some (r.1, none, r.2)
  | .upsert key value, s =>
    let r := epochUpsert te key.toNat value.toNat s
    some (r.1, none, r.2)
  | .update key value, s =>
    let r := htcUpdate key.toNat value.toNat s.toTable
    some (r.1, none, { s with toTable := r.2 })
  | .remove key, s => (epochRemove te key.toNat s).map fun r => (r.1, none, r.2)
  | .find key want, s =>
    let r := htcFind key.toNat want s.toTable
    some (r.1, r.2.1, { s with toTable := r.2.2 })
  | .grow reseed, s =>
    let r := htcGrow reseed s.toTable
    some (r.1, none, { s with toTable := r.2 })


/-! ## Where nothing waits -/

/-- No record waits to be freed. -/
def ObjectsOnly (l : List RetireNode) : Prop := ∀ n ∈ l, ∀ i, n.what ≠ .record i

/-- The table is `t` and none of its records waits to be freed. -/
structure Quiet (s : EpochTable) (t : Table) : Prop where
  table : s.toTable = t
  objects : ObjectsOnly s.retireList

variable {s s' : EpochTable} {t : Table} {te : List ℕ} {h v i : ℕ}

/-- Callbacks leave the table and the list alone. -/
lemma ObjectsOnly.release : ∀ {l : List RetireNode} (_ : ObjectsOnly l) (s : EpochTable),
    (l.foldr (fun n s => s.release n.what) s).toTable = s.toTable ∧
      (l.foldr (fun n s => s.release n.what) s).retireList = s.retireList
  | [], _, _ => ⟨rfl, rfl⟩
  | n :: l, hl, s => by
    obtain ⟨ht, hr⟩ := ObjectsOnly.release (fun m hm => hl m (List.mem_cons_of_mem _ hm)) s
    rw [List.foldr_cons]
    have hn := hl n (List.mem_cons_self ..)
    rcases n with ⟨what, e⟩
    cases what with
    | record i => exact absurd rfl (hn i)
    | custom ctx => exact ⟨ht, hr⟩

/-- With no thread pinned every node can be freed. -/
lemma htcEpochCollect_nil (s : EpochTable) :
    htcEpochCollect [] s = s.retireList.foldr (fun n s => s.release n.what)
      { s with retireList := [] } := by
  have hall : s.retireList.filter (·.ripe []) = s.retireList :=
    List.filter_eq_self.mpr fun _ _ => rfl
  have hnone : (s.retireList.filter fun n => !n.ripe []) = [] :=
    List.filter_eq_nil_iff.mpr fun _ _ => Bool.false_ne_true
  rw [htcEpochCollect, hall, hnone]

/-- The newest node is a record, and no other record waits: it is freed. -/
lemma htcEpochCollect_record {l : List RetireNode} {e : ℕ} (hl : ObjectsOnly l)
    (hs : s.retireList = ⟨.record i, e⟩ :: l) :
    (htcEpochCollect [] s).toTable = { s.toTable with toCore := s.arenaFree i } ∧
      (htcEpochCollect [] s).retireList = [] := by
  obtain ⟨ht, hr⟩ := hl.release { s with retireList := [] }
  rw [htcEpochCollect_nil, hs, List.foldr_cons]
  generalize l.foldr (fun n s => s.release n.what) { s with retireList := [] } = r at ht hr
  refine ⟨?_, hr⟩
  change { r.toTable with toCore := r.toTable.toCore.arenaFree i } = _
  rw [ht]

/-- A call that collects leaves a quiet table as it is. -/
lemma Quiet.collectAdvance (hq : Quiet s t) : Quiet (Htc.collectAdvance [] s) t := by
  obtain ⟨ht, hr⟩ := hq.objects.release { s with retireList := [] }
  refine ⟨?_, ?_⟩
  · change (htcEpochCollect [] s).toTable = t
    rw [htcEpochCollect_nil, ht]
    exact hq.table
  · change ObjectsOnly (htcEpochCollect [] s).retireList
    rw [htcEpochCollect_nil, hr]
    exact fun n hn => absurd hn List.not_mem_nil

/-- Another table with the same retire list. -/
lemma Quiet.setTable {t' : Table} (hq : Quiet s t) : Quiet { s with toTable := t' } t' :=
  ⟨rfl, hq.objects⟩

/-- `insert_done` on a quiet table. -/
lemma Quiet.insertDone (hq : Quiet s t) : Quiet (epochInsertDone [] s) (insertDone t) := by
  have hs : Quiet { s with size := s.size + 1 } { t with size := t.size + 1 } := by
    refine ⟨?_, hq.objects⟩
    rw [← hq.table]
  have hc := hs.collectAdvance
  simp only [epochInsertDone, Htc.insertDone]
  rw [hc.table]
  split
  · exact hc.setTable
  · exact hc

/-- `htc_insert` on a quiet table. -/
lemma Quiet.insertLoop (h v : ℕ) : ∀ (k : ℕ) {s : EpochTable} {t : Table}, Quiet s t →
    (epochInsertLoop [] h v k s).1 = (insertLoop h v k t).1 ∧
      Quiet (epochInsertLoop [] h v k s).2 (insertLoop h v k t).2
  | 0, s, t, hq => ⟨rfl, hq⟩
  | k + 1, s, t, hq => by
    rw [epochInsertLoop, Htc.insertLoop, hq.table]
    cases insertAttempt h v t with
    | stop e t' => exact ⟨rfl, hq.setTable⟩
    | entered t' => exact ⟨rfl, hq.setTable.insertDone⟩
    | overflow t' =>
      have hc : Quiet (Htc.collectAdvance [] { s with toTable := t' }) t' :=
        hq.setTable.collectAdvance
      dsimp only
      rw [hc.table]
      rcases htcGrow true t' with ⟨e, t''⟩
      cases e with
      | ok => exact Quiet.insertLoop h v k hc.setTable
      | _ => exact ⟨rfl, hc.setTable⟩

/-- `htc_upsert` on a quiet table. -/
lemma Quiet.upsertLoop (h v : ℕ) : ∀ (k : ℕ) {s : EpochTable} {t : Table}, Quiet s t →
    (epochUpsertLoop [] h v k s).1 = (upsertLoop h v k t).1 ∧
      Quiet (epochUpsertLoop [] h v k s).2 (upsertLoop h v k t).2
  | 0, s, t, hq => ⟨rfl, hq⟩
  | k + 1, s, t, hq => by
    rw [epochUpsertLoop, Htc.upsertLoop, hq.table]
    cases htcSearch t.toCore h true with
    | some p => exact ⟨rfl, hq.setTable⟩
    | none =>
      obtain ⟨he, hq'⟩ := Quiet.insertLoop h v 4 hq
      dsimp only
      rw [epochInsert, htcInsert]
      rcases hr : epochInsertLoop [] h v 4 s with ⟨e, s₁⟩
      rcases hr' : Htc.insertLoop h v 4 t with ⟨e', t₁⟩
      rw [hr, hr'] at he hq'
      dsimp only at he hq'
      subst he
      cases e with
      | duplicate => exact Quiet.upsertLoop h v k hq'
      | _ => exact ⟨rfl, hq'⟩

/-- `htc_remove` looks for the word, clears it and disposes of the record. -/
lemma htcRemove_eq (h : ℕ) (t : Table) : htcRemove h t = (htcUnlink h t.toCore).map fun r =>
    match r with
    | none => (.notFound, t)
    | some (idx, c) => (.ok, removeDone h idx { t with toCore := c }) := by
  rw [htcRemove, htcUnlink]
  cases htcSearch t.toCore h true with
  | none => rfl
  | some p =>
    cases p with
    | slot x =>
      dsimp only
      cases t.wordAt (.slot x) with
      | none => rfl
      | some w =>
        dsimp only
        split <;> rfl
    | shard s j => rfl
    | global j => rfl

/-- Retiring a record does not change the size. -/
lemma htcEpochRetire_size (s : EpochTable) (i : ℕ) :
    (htcEpochRetire s (.record i)).size = s.size := by
  rw [htcEpochRetire]
  split <;> rfl

/-- A record that is retired while no other waits is freed in the same call. -/
lemma Quiet.retire (hq : Quiet s t) (i : ℕ) :
    Quiet (Htc.collectAdvance [] { htcEpochRetire s (.record i) with size := t.size - 1 })
      { t with toCore := t.arenaFree i, size := t.size - 1 } := by
  have hpush : ∀ m, Quiet
      (Htc.collectAdvance []
        { EpochTable.push { s with nodeMem := m } (.record i) with size := t.size - 1 })
      { t with toCore := t.arenaFree i, size := t.size - 1 } := by
    intro m
    obtain ⟨ht, hr⟩ := htcEpochCollect_record
      (s := { EpochTable.push { s with nodeMem := m } (.record i) with size := t.size - 1 })
        hq.objects rfl
    refine ⟨ht.trans ?_, ?_⟩
    · rw [← hq.table]
      rfl
    · change ObjectsOnly (htcEpochCollect [] _).retireList
      rw [hr]
      exact fun n hn => absurd hn List.not_mem_nil
  rw [htcEpochRetire]
  cases hm : s.nodeMem with
  | nil =>
    have h := hpush s.nodeMem
    exact h
  | cons ok rest =>
    cases ok with
    | true => exact hpush rest
    | false =>
      have h : Quiet
          { EpochTable.release { s with nodeMem := rest } (.record i) with size := t.size - 1 }
          { t with toCore := t.arenaFree i, size := t.size - 1 } := by
        refine ⟨?_, hq.objects⟩
        rw [← hq.table]
        rfl
      exact h.collectAdvance

/-- The end of a removal on a quiet table. -/
lemma Quiet.dismiss (hq : Quiet s t) (h i : ℕ) (c : Core) :
    Quiet (epochDismiss [] h i c s) (removeDone h i { t with toCore := c }) := by
  rw [← hq.table]
  have hs : Quiet
      { s with toTable := htcFrontCacheRemove { s.toTable with toCore := c.mark i } h } _ :=
        ⟨rfl, hq.objects⟩
  have hr := hs.retire i
  rw [epochDismiss]
  dsimp only
  rw [htcEpochRetire_size]
  exact hr

/-- `htc_remove` on a quiet table. -/
lemma Quiet.remove (hq : Quiet s t) (h : ℕ) :
    (epochRemove [] h s = none ∧ htcRemove h t = none) ∨
      ∃ e s' t', epochRemove [] h s = some (e, s') ∧ htcRemove h t = some (e, t') ∧
      Quiet s' t' := by
  rw [epochRemove, htcRemove_eq, hq.table]
  rcases htcUnlink h t.toCore with _ | _ | ⟨idx, c⟩
  · exact .inl ⟨rfl, rfl⟩
  · exact .inr ⟨_, _, _, rfl, rfl, hq.collectAdvance⟩
  · exact .inr ⟨_, _, _, rfl, rfl, hq.dismiss h idx c⟩

/-- A call on a quiet table: the reply is that of the table, and nothing waits afterwards. -/
lemma HtcOp.runEpoch_quiet (hq : Quiet s t) (op : HtcOp) :
    (op.runEpoch [] s = none ∧ op.run t = none) ∨
      ∃ e out s' t', op.runEpoch [] s = some (e, out, s') ∧ op.run t = some (e, out, t') ∧
      Quiet s' t' := by
  cases op with
  | insert key value =>
    obtain ⟨he, hq'⟩ := hq.insertLoop key.toNat value.toNat 4
    exact .inr ⟨_, _, _, _, rfl, congrArg (fun e => some (e, none, _)) he.symm, hq'⟩
  | upsert key value =>
    obtain ⟨he, hq'⟩ := hq.upsertLoop key.toNat value.toNat 4
    exact .inr ⟨_, _, _, _, rfl, congrArg (fun e => some (e, none, _)) he.symm, hq'⟩
  | update key value =>
    rw [runEpoch, hq.table]
    exact .inr ⟨_, _, _, _, rfl, rfl, hq.setTable⟩
  | remove key =>
    rw [runEpoch, HtcOp.run]
    rcases hq.remove key.toNat with ⟨hs, ht⟩ | ⟨e, s', t', hs, ht, hq'⟩
    · rw [hs, ht]
      exact .inl ⟨rfl, rfl⟩
    · rw [hs, ht]
      exact .inr ⟨_, _, _, _, rfl, rfl, hq'⟩
  | find key want =>
    rw [runEpoch, hq.table]
    exact .inr ⟨_, _, _, _, rfl, rfl, hq.setTable⟩
  | grow reseed =>
    rw [runEpoch, hq.table]
    exact .inr ⟨_, _, _, _, rfl, rfl, hq.setTable⟩

/-! ## The records that wait -/

/-- The records of a retire list. -/
def recordsOf (l : List RetireNode) : List ℕ := l.filterMap fun n =>
  match n.what with
  | .record i => some i
  | .custom _ => none

/-- The objects of a retire list. -/
def objectsOf (l : List RetireNode) : List ℕ := l.filterMap fun n =>
  match n.what with
  | .record _ => none
  | .custom ctx => some ctx

/-- The words denote different records, and the records of the retire list wait. -/
def EpochTable.Tidy (s : EpochTable) : Prop := Htc.Tidy s.toCore (recordsOf s.retireList)

/-- The objects whose callback has run or will. -/
def EpochTable.objects (s : EpochTable) : List ℕ := objectsOf s.retireList ++ s.called

/-- A change that does not touch the records in use. -/
structure Calm (s s' : EpochTable) : Prop where
  tidy : s'.Tidy
  untouched : Untouched s.toCore s'.toCore
  objects : s'.objects ⊆ s.objects
  freed : FreeZeroed s.toCore s'.toCore
  cache : s'.cache = s.cache
  cacheOn : s'.cacheOn = s.cacheOn

/-- Calm steps compose. -/
lemma Calm.trans {s'' : EpochTable} (h : Calm s s') (h' : Calm s' s'') : Calm s s'' :=
  ⟨h'.tidy, h.untouched.trans h'.untouched, List.Subset.trans h'.objects h.objects,
    h.freed.trans h'.freed, h'.cache.trans h.cache, h'.cacheOn.trans h.cacheOn⟩

/-- Releasing the nodes of a list. -/
lemma release_tidy : ∀ {l : List RetireNode} {s : EpochTable} {pend : List ℕ},
    Htc.Tidy s.toCore (recordsOf l ++ pend) →
    Htc.Tidy (l.foldr (fun n s => s.release n.what) s).toCore pend ∧
      Untouched s.toCore (l.foldr (fun n s => s.release n.what) s).toCore ∧
      (l.foldr (fun n s => s.release n.what) s).retireList = s.retireList ∧
      (l.foldr (fun n s => s.release n.what) s).called ⊆ objectsOf l ++ s.called ∧
      FreeZeroed s.toCore (l.foldr (fun n s => s.release n.what) s).toCore ∧
      (l.foldr (fun n s => s.release n.what) s).cache = s.cache ∧
      (l.foldr (fun n s => s.release n.what) s).cacheOn = s.cacheOn
  | [], s, pend, ht => ⟨ht, .refl _, rfl, List.Subset.refl _, .refl _, rfl, rfl⟩
  | ⟨.record i, e⟩ :: l, s, pend, ht => by
    have hp : (recordsOf (⟨.record i, e⟩ :: l) ++ pend).Perm (recordsOf l ++ i :: pend) :=
      List.perm_middle.symm
    obtain ⟨ht', hu, hr, hc, hz, hcache⟩ := release_tidy (ht.perm hp)
    rw [List.foldr_cons]
    exact ⟨ht'.release, hu.trans ht'.release_untouched, hr, hc,
      hz.trans (freeZeroed_arenaFree _ i), hcache⟩
  | ⟨.custom ctx, e⟩ :: l, s, pend, ht => by
    obtain ⟨ht', hu, hr, hc, hz, hcache⟩ := release_tidy (l := l) ht
    rw [List.foldr_cons]
    exact ⟨ht', hu, hr, List.cons_subset_cons ctx hc, hz, hcache⟩

/-- A call collects. -/
lemma collectAdvance_calm (te : List ℕ) (hs : s.Tidy) : Calm s (collectAdvance te s) := by
  have hsplit := List.filter_append_perm (fun n : RetireNode => n.ripe te) s.retireList
  have hrec : (recordsOf s.retireList).Perm (recordsOf (s.retireList.filter (·.ripe te)) ++
      recordsOf (s.retireList.filter fun n => !n.ripe te)) := by
    rw [recordsOf, recordsOf, recordsOf, ← List.filterMap_append]
    exact (hsplit.filterMap _).symm
  obtain ⟨ht, hu, hr, hc, hz, hcache⟩ := release_tidy
    (s := { s with retireList := s.retireList.filter fun n => !n.ripe te }) (hs.perm hrec)
  refine ⟨?_, hu, ?_, hz, hcache.1, hcache.2⟩
  · change Htc.Tidy _ (recordsOf (htcEpochCollect te s).retireList)
    rw [htcEpochCollect, hr]
    exact ht
  · intro x hx
    have hall : ∀ {l : List RetireNode},
        l ⊆ s.retireList → objectsOf l ⊆ objectsOf s.retireList := by
      intro l hl y hy
      obtain ⟨n, hn, he⟩ := List.mem_filterMap.mp hy
      exact List.mem_filterMap.mpr ⟨n, hl hn, he⟩
    rcases List.mem_append.mp hx with hx | hx
    · change x ∈ objectsOf (htcEpochCollect te s).retireList at hx
      rw [htcEpochCollect, hr] at hx
      exact List.mem_append_left _ (hall (List.filter_subset_self _) hx)
    · rcases List.mem_append.mp (hc hx) with hx | hx
      · exact List.mem_append_left _ (hall (List.filter_subset_self _) hx)
      · exact List.mem_append_right _ hx

/-- A record is retired. -/
lemma htcEpochRetire_record (hs : Htc.Tidy s.toCore (i :: recordsOf s.retireList)) :
    Calm s (htcEpochRetire s (.record i)) := by
  have hpush : ∀ m, Calm s (EpochTable.push { s with nodeMem := m } (.record i)) :=
    fun m => ⟨hs, .refl _, List.Subset.refl _, .refl _, rfl, rfl⟩
  rw [htcEpochRetire]
  split
  · next he => exact hpush s.nodeMem
  · exact hpush _
  · exact ⟨hs.release, hs.release_untouched, List.Subset.refl _, freeZeroed_arenaFree _ i, rfl, rfl⟩

/-- An object is retired. -/
lemma htcEpochRetire_custom (hs : s.Tidy) (ctx : ℕ) :
    (htcEpochRetire s (.custom ctx)).Tidy ∧ (htcEpochRetire s (.custom ctx)).toTable = s.toTable ∧
      (htcEpochRetire s (.custom ctx)).objects ⊆ ctx :: s.objects := by
  rw [htcEpochRetire]
  split
  · exact ⟨hs, rfl, List.Subset.refl _⟩
  · exact ⟨hs, rfl, List.Subset.refl _⟩
  · refine ⟨hs, rfl, fun x hx => ?_⟩
    change x ∈ objectsOf s.retireList ++ ctx :: s.called at hx
    rw [List.mem_append, List.mem_cons] at hx
    rw [List.mem_cons]
    rcases hx with hx | hx | hx
    · exact .inr (List.mem_append_left _ hx)
    · exact .inl hx
    · exact .inr (List.mem_append_right _ hx)

/-! ## The calls and the records in use -/

/-- An attempt does not turn the front cache on or off. -/
lemma Beside.cacheOn {t t' : Table} (hb : Beside t t') : t'.cacheOn = t.cacheOn := by
  rw [hb]

/-- What `htc_insert` does to the records in use. -/
structure EpochInserted (h v : ℕ) (s : EpochTable) (e : HtcError) (s' : EpochTable) : Prop where
  tidy : s'.Tidy
  objects : s'.objects ⊆ s.objects
  freed : FreeZeroed s.toCore s'.toCore
  cache : s'.cache = s.cache
  cacheOn : s'.cacheOn = s.cacheOn
  used : e ≠ .ok ∧ Untouched s.toCore s'.toCore ∨ e = .ok ∧ ∃ i, Lent s.toCore s'.toCore h v i

/-- A change before the insertion. -/
lemma Calm.inserted {s'' : EpochTable} {e : HtcError} (hc : Calm s s')
    (hi : EpochInserted h v s' e s'') :
    EpochInserted h v s e s'' where
  tidy := hi.tidy
  objects := List.Subset.trans hi.objects hc.objects
  freed := hc.freed.trans hi.freed
  cache := hi.cache.trans hc.cache
  cacheOn := hi.cacheOn.trans hc.cacheOn
  used := by
    rcases hi.used with ⟨he, hu⟩ | ⟨he, i, hl⟩
    · exact .inl ⟨he, hc.untouched.trans hu⟩
    · exact .inr ⟨he, i, hc.untouched.lent hl⟩

/-- A change of the table that leaves the record store and the cache alone. -/
lemma Calm.setTable {t : Table} (ht : Htc.Tidy t.toCore (recordsOf s.retireList))
    (hu : Untouched s.toCore t.toCore)
    (hz : FreeZeroed s.toCore t.toCore) (hc : t.cache = s.cache) (ho : t.cacheOn = s.cacheOn) :
    Calm s { s with toTable := t } := ⟨ht, hu, List.Subset.refl _, hz, hc, ho⟩

/-- A grow. -/
lemma htcGrow_calm (hs : s.Tidy) (reseed : Bool) :
    Calm s { s with toTable := (htcGrow reseed s.toTable).2 } := by
  have hg := htcGrow_grown reseed s.toTable
  obtain ⟨ht, hu⟩ := hg.tidy hs
  exact .setTable ht hu (FreeKept.of_store hg.store.1 hg.store.2.2.1).zeroed (by rw [hg.rest])
    (by rw [hg.rest])

/-- `insert_done`. -/
lemma epochInsertDone_calm (te : List ℕ) (hs : s.Tidy) : Calm s (epochInsertDone te s) := by
  have hsize : Calm s { s with size := s.size + 1 } :=
    ⟨hs, .refl _, List.Subset.refl _, .refl _, rfl, rfl⟩
  have hc := hsize.trans (collectAdvance_calm te hsize.tidy)
  rw [epochInsertDone]
  dsimp only
  split
  · exact hc.trans (htcGrow_calm hc.tidy false)
  · exact hc

/-- The attempts of `htc_insert`. -/
lemma epochInsertLoop_inserted (te : List ℕ) (h v : ℕ) : ∀ (k : ℕ) {s : EpochTable}, s.Tidy →
    EpochInserted h v s (epochInsertLoop te h v k s).1 (epochInsertLoop te h v k s).2
  | 0, s, hs => ⟨hs, List.Subset.refl _, .refl _, rfl, rfl, .inl ⟨HtcError.noConfusion, .refl _⟩⟩
  | k + 1, s, hs => by
    have ha := insertAttempt_tidy hs h v
    have hb := insertAttempt_stored hs.toStored h v
    rw [epochInsertLoop]
    cases he : insertAttempt h v s.toTable with
    | stop e t =>
      rw [he] at ha hb
      obtain ⟨hne, ht, hu, hk⟩ := ha
      have hc : Calm s { s with toTable := t } :=
        .setTable ht hu hk.zeroed hb.2.2.1.rest.1 hb.2.2.1.cacheOn
      exact ⟨hc.tidy, hc.objects, hc.freed, hc.cache, hc.cacheOn, .inl ⟨hne, hc.untouched⟩⟩
    | entered t =>
      rw [he] at ha hb
      obtain ⟨ht, hk, i, hl, -⟩ := ha
      have hd : Calm { s with toTable := t } _ :=
        epochInsertDone_calm te (s := { s with toTable := t }) ht
      exact ⟨hd.tidy, hd.objects, hk.zeroed.trans hd.freed, hd.cache.trans hb.2.2.1.rest.1,
        hd.cacheOn.trans hb.2.2.1.cacheOn, .inr ⟨rfl, i, hl.untouched hd.untouched⟩⟩
    | overflow t =>
      rw [he] at ha hb
      obtain ⟨ht, hu, hz⟩ := ha
      have hc : Calm s { s with toTable := t } :=
        .setTable ht hu hz hb.2.2.1.rest.1 hb.2.2.1.cacheOn
      have hc := hc.trans (collectAdvance_calm te hc.tidy)
      have hg := hc.trans (htcGrow_calm hc.tidy true)
      dsimp only
      split
      · next t' ht' =>
        rw [ht'] at hg
        exact hg.inserted (epochInsertLoop_inserted te h v k hg.tidy)
      · next e t' hne ht' =>
        rw [ht'] at hg
        exact ⟨hg.tidy, hg.objects, hg.freed, hg.cache, hg.cacheOn, .inl ⟨hne, hg.untouched⟩⟩

/-- `htc_remove` looks for the word of the key and clears it. -/
lemma htcUnlink_cases {c : Core} (hs : Stored c) (h : ℕ) :
    htcUnlink h c = none ∨ htcUnlink h c = some none ∨
      ∃ i c', htcUnlink h c = some (some (i, c')) ∧ i ∈ c.live ∧ c.keyOf i = h ∧ Frame c c' ∧
      Stored c' ∧
        Ready c' i := by
  have hclear : ∀ {p : Place} {w : Word} {c' : Core},
    htcSearch c h true = some p → c.wordAt p = some w →
      Frame c c' → c'.wordAt = Function.update c.wordAt p none → (∀ s, (c'.shards s).Counted) →
      c'.stash.Counted →
      w.idx ∈ c.live ∧ c.keyOf w.idx = h ∧ Frame c c' ∧ Stored c' ∧ Ready c' w.idx := by
    intro p w c' hf hp hfr hw hsh hst
    obtain ⟨hl, hk⟩ := search_hit hf
    rw [idxAt_eq hp] at hl hk
    exact ⟨hl, hk, hfr, hs.clear hfr hw hp hsh hst, hs.ready_of_clear hfr hw hp⟩
  rw [htcUnlink]
  cases hf : htcSearch c h true with
  | none => exact .inr (.inl rfl)
  | some p =>
    obtain ⟨w, hw, -⟩ := htcSearch_key hf
    cases p with
    | slot x =>
      dsimp only
      rw [hw]
      dsimp only
      split
      · exact .inl rfl
      · exact .inr
          (.inr ⟨_, _, rfl,
            hclear hf hw (.ofGen leave_numBuckets leave_seed) (wordAt_setSlot leave_slots)
          hs.shards hs.stash⟩)
    | shard s j =>
      dsimp only
      rw [idxAt_eq hw]
      exact .inr (.inr ⟨_, _, rfl, hclear hf hw ⟨rfl, rfl, rfl, rfl, rfl, rfl⟩ (wordAt_setShard rfl)
        (counted_update hs.shards ((hs.shards s).removeAt hw)) hs.stash⟩)
    | global j =>
      dsimp only
      rw [idxAt_eq hw]
      exact .inr (.inr
        ⟨_, _, rfl, hclear hf hw ⟨rfl, rfl, rfl, rfl, rfl, rfl⟩ (wordAt_setStash rfl) hs.shards
        (hs.stash.removeAt hw)⟩)

/-- What a removal that succeeds does to the records in use. -/
structure EpochRemoved (h : ℕ) (s s' : EpochTable) : Prop where
  tidy : s'.Tidy
  objects : s'.objects ⊆ s.objects
  freed : FreeZeroed s.toCore s'.toCore
  cache : s'.cache = (htcFrontCacheRemove s.toTable h).cache
  cacheOn : s'.cacheOn = s.cacheOn
  used : ∃ i ∈ s.live, s.keyOf i = h ∧ Dismissed s.toCore s'.toCore i

/-- Marking a record spares the others. -/
lemma recs_mark {c : Core} {j : ℕ} (hj : j ≠ i) : (c.mark i).recs j = c.recs j :=
  Function.update_of_ne hj ..

/-- A marked record. -/
lemma flags_mark (c : Core) (i : ℕ) : ((c.mark i).recs i).flags = 1 := by
  change (Function.update c.recs i _ i).flags = 1
  rw [Function.update_self]

/-- A record whose word was cleared is marked and waits. -/
lemma Tidy.mark {c c' : Core} {pend : List ℕ} (ht : Tidy c pend) (hi : i ∈ c.live) (hf : Frame c c')
    (hs : Stored c') (hr : Ready c' i) : Tidy (c'.mark i) (i :: pend) ∧ Dismissed c (c'.mark i) i ∧
      FreeKept c (c'.mark i) := by
  have hnp : i ∉ pend := fun hm => ht.notLive hm hi
  have hne : ∀ {j}, j ≠ i → (c'.mark i).recs j = c.recs j := by
    intro j hj
    rw [recs_mark hj, hf.recs]
  have hused : ∀ j, j ∈ (c'.mark i).used ↔ j ∈ c.used ∧ j ≠ i := by
    intro j
    change j < c'.count ∧ j ∉ c'.freeIdx ∧ ((c'.mark i).recs j).flags = 0 ↔ _
    by_cases hj : j = i
    · subst hj
      rw [flags_mark]
      exact iff_of_false (fun h => Nat.one_ne_zero h.2.2) fun h => h.2 rfl
    · rw [hne hj, hf.count, hf.freeIdx]
      exact ⟨fun h => ⟨h, hj⟩, fun h => h.1⟩
  refine ⟨⟨hs.store ⟨face_update_of_notLive hr.notLive, hs.lt, hs.notFree, hs.freeNodup, hs.freeLt⟩,
    fun j hj => ?_, List.nodup_cons.mpr ⟨hnp, ht.nodup⟩⟩,
      ⟨ht.toStored.live_subset_used hi, Set.ext hused, fun j hj => ?_⟩, fun j hj => ?_⟩
  · change j < c'.count ∧ j ∉ c'.freeIdx ∧ ((c'.mark i).recs j).flags ≠ 0
    rcases List.mem_cons.mp hj with rfl | hj
    · rw [flags_mark]
      exact ⟨hr.lt, hr.notFree, Nat.one_ne_zero⟩
    · rw [hne (fun he => hnp (he ▸ hj)), hf.count, hf.freeIdx]
      exact ht.waiting j hj
  · exact hne ((hused j).mp hj).2
  · have hfree : j ∈ c.freeIdx := hf.freeIdx ▸ hj
    refine ⟨hfree, hne ?_⟩
    rintro rfl
    exact ht.notFree j hi hfree

/-- The size is not part of what a change is judged by. -/
lemma Calm.setSize {n : ℕ} (hc : Calm s s') : Calm s { s' with size := n } :=
  ⟨hc.tidy, hc.untouched, hc.objects, hc.freed, hc.cache, hc.cacheOn⟩

/-- The end of a removal. -/
lemma epochDismiss_removed {c : Core} (te : List ℕ) (hs : s.Tidy) (hi : i ∈ s.live)
    (hf : Frame s.toCore c) (hc : Stored c) (hr : Ready c i) (hk : s.keyOf i = h) :
    EpochRemoved h s (epochDismiss te h i c s) := by
  obtain ⟨ht, hd, hkept⟩ := Htc.Tidy.mark hs hi hf hc hr
  have hcalm := htcEpochRetire_record
    (s := { s with toTable := htcFrontCacheRemove { s.toTable with toCore := c.mark i } h }) ht
  have hcalm := (hcalm.setSize (n := s.size - 1)).trans (collectAdvance_calm te hcalm.setSize.tidy)
  have he : epochDismiss te h i c s = collectAdvance te { htcEpochRetire
      { s with toTable := htcFrontCacheRemove { s.toTable with toCore := c.mark i } h }
        (.record i) with
        size := s.size - 1 } := by
    rw [epochDismiss]
    dsimp only
    rw [htcEpochRetire_size]
    rfl
  rw [he]
  exact ⟨hcalm.tidy, hcalm.objects, hkept.zeroed.trans hcalm.freed, hcalm.cache, hcalm.cacheOn, i,
    hi, hk, hd.untouched hcalm.untouched⟩

/-- `htc_remove` and the records in use. -/
lemma epochRemove_cases (te : List ℕ) (hs : s.Tidy) (h : ℕ) :
    epochRemove te h s = none ∨ (∃ s', epochRemove te h s = some (.notFound, s') ∧ Calm s s') ∨
      ∃ s', epochRemove te h s = some (.ok, s') ∧ EpochRemoved h s s' := by
  rw [epochRemove]
  rcases htcUnlink_cases hs.toStored h with he | he | ⟨i, c, he, hi, hk, hf, hc, hr⟩
  · rw [he]
    exact .inl rfl
  · rw [he]
    exact .inr (.inl ⟨_, rfl, collectAdvance_calm te hs⟩)
  · rw [he]
    exact .inr (.inr ⟨_, rfl, epochDismiss_removed te hs hi hf hc hr hk⟩)

/-- Writing a value keeps the marks. -/
lemma Tidy.setValue {c : Core} {pend : List ℕ} (ht : Tidy c pend) (i v : ℕ) :
    Tidy (c.setValue i v) pend where
  toStored := ht.toStored.store (spared_setValue ht.toStored i v)
  waiting j hj := by
    have hf : ((c.setValue i v).recs j).flags = (c.recs j).flags := by
      by_cases hji : j = i
      · subst hji
        simp only [Core.setValue, Function.update_self]
      · simp only [Core.setValue, Function.update_of_ne hji]
    rw [hf]
    exact ht.waiting j hj
  nodup := ht.nodup

/-- The attempts of `htc_upsert` keep the words of different records apart. -/
lemma epochUpsertLoop_tidy (te : List ℕ) (h v : ℕ) : ∀ (k : ℕ) {s : EpochTable}, s.Tidy →
    (epochUpsertLoop te h v k s).2.Tidy ∧ (epochUpsertLoop te h v k s).2.cacheOn = s.cacheOn
  | 0, s, hs => ⟨hs, rfl⟩
  | k + 1, s, hs => by
    rw [epochUpsertLoop]
    cases htcSearch s.toCore h true with
    | some p => exact ⟨Htc.Tidy.setValue hs _ _, rfl⟩
    | none =>
      have hi := epochInsertLoop_inserted te h v 4 hs
      dsimp only
      rw [epochInsert]
      rcases hr : epochInsertLoop te h v 4 s with ⟨e, s₁⟩
      rw [hr] at hi
      cases e with
      | duplicate =>
        obtain ⟨ht, hon⟩ := epochUpsertLoop_tidy te h v k hi.tidy
        exact ⟨ht, hon.trans hi.cacheOn⟩
      | _ => exact ⟨hi.tidy, hi.cacheOn⟩

/-- Every call keeps the words of different records apart and the front cache turned on or off. -/
lemma HtcOp.runEpoch_tidy {op : HtcOp} {e : HtcError} {out : Option ℕ} (hs : s.Tidy)
    (hr : op.runEpoch te s = some (e, out, s')) : s'.Tidy ∧ s'.cacheOn = s.cacheOn := by
  cases op with
  | insert key value =>
    cases hr
    have hi := epochInsertLoop_inserted te key.toNat value.toNat 4 hs
    exact ⟨hi.tidy, hi.cacheOn⟩
  | upsert key value =>
    cases hr
    exact epochUpsertLoop_tidy te key.toNat value.toNat 4 hs
  | update key value =>
    cases hr
    rw [htcUpdate]
    cases htcSearch s.toCore key.toNat true with
    | some p => exact ⟨Htc.Tidy.setValue hs _ _, rfl⟩
    | none => exact ⟨hs, rfl⟩
  | remove key =>
    rw [runEpoch] at hr
    rcases epochRemove_cases te hs key.toNat with he | ⟨s₁, he, hc⟩ | ⟨s₁, he, hc⟩
    · rw [he] at hr
      cases hr
    · rw [he] at hr
      cases hr
      exact ⟨hc.tidy, hc.cacheOn⟩
    · rw [he] at hr
      cases hr
      exact ⟨hc.tidy, hc.cacheOn⟩
  | find key want =>
    cases hr
    rw [htcFind]
    split
    · exact ⟨hs, rfl⟩
    · rw [findTable]
      split <;> exact ⟨hs, rfl⟩
  | grow reseed =>
    cases hr
    have hc := htcGrow_calm hs reseed
    exact ⟨hc.tidy, hc.cacheOn⟩

end Draugr.Htc
