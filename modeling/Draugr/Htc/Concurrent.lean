import Mathlib.Data.List.Sort
import Draugr.Htc.Runs
import Draugr.Lib.Schedule

/-!
# Threads on one table

Any number of threads call `htc_insert`, `htc_upsert`, `htc_remove`, `htc_find` and `htc_grow` on
one table. A step of a thread is the code from one point where it holds no shard lock to the next:
loading the current generation, a section under shard locks, the freeze of a generation under
`grow_lock`, the rest of `htc_grow` under `grow_lock` and all shard locks, one scan of a lock-free
search. `Local` says where a thread is in its call and holds the C locals that are alive there;
`Shared.exec` is one such step.

* Generations are numbered. `past n` is the retired generation `n`; a displacement whose generation
  was replaced while its locks were released still writes there.
* `grow_lock` is held from the freeze to the end of `htc_grow`, so `frozen` is also the state of
  that lock.
* The search of `htc_find` is the one behind the front cache, which belongs to a thread; a hit in it
  makes `htc_find` return `HTC_OK` at once.
* `htc_ensure_chunk_migrated` and `htc_find_in_old_gen` do nothing, as `gen->old` is `NULL`.
-/

namespace Draugr.Htc
open Draugr.Lib

/-- A call with its arguments. -/
inductive Call where
  | insert (hash value : ℕ)
  | upsert (hash value : ℕ)
  | remove (hash : ℕ)
  | find (hash : ℕ)
  | grow (reseed : Bool)
  deriving DecidableEq, Repr

/-- What a call computes from the generation that it loads: its number, the placement hash of the
key, the two buckets and their shards. -/
structure View where
  gen : ℕ
  ph : ℕ
  b1 : ℕ
  b2 : ℕ
  s1 : ℕ
  s2 : ℕ
  deriving DecidableEq, Repr

/-- A call of `htc_insert` with the attempts that it and the `htc_upsert` around it have left. -/
structure Ins where
  hash : ℕ
  value : ℕ
  upsert : Option ℕ
  attempts : ℕ
  deriving DecidableEq, Repr

/-- What a thread does after `htc_grow`. -/
inductive After where
  | caller
  /-- `htc_insert` returns `HTC_OK`. -/
  | entered (a : Ins)
  /-- `htc_insert` makes its next attempt. -/
  | retry (a : Ins)
  deriving DecidableEq, Repr

/-- Where a thread is. -/
inductive Local where
  | idle
  | returned (c : Call) (e : HtcError)
  | insLoad (a : Ins)
  | insLock (a : Ins) (v : View)
  | insPath (a : Ins) (v : View) (sids : List ℕ) (idx : ℕ) (p : Path)
  | insStash (a : Ins) (v : View) (idx : ℕ)
  /-- `insert_done` after a displacement, whose locks are released. -/
  | insDone (a : Ins) (v : View)
  /-- `insert_done` after the release of the locks. -/
  | insCheck (a : Ins)
  | growLock (reseed : Bool) (k : After)
  | growRehash (reseed : Bool) (k : After)
  | upsLoad (hash value attempts : ℕ)
  | upsLock (hash value attempts : ℕ) (v : View)
  | remLoad (hash : ℕ)
  | remLock (hash : ℕ) (v : View)
  | findLoad (hash : ℕ)
  | findPrimary (hash : ℕ) (v : View)
  | findRemap (hash : ℕ) (v : View)
  | findSecondary (hash : ℕ) (v : View)
  | findShard (hash : ℕ) (v : View)
  | findGlobal (hash : ℕ) (v : View)
  /-- A scan has found a word for the key; its record is read. -/
  | findHit (hash idx : ℕ)
  deriving DecidableEq, Repr

/-- The table and what the threads share beside it. -/
structure Shared where
  tbl : Table
  genNo : ℕ
  past : ℕ → Gen
  frozen : Bool

/-- The generation with a number. -/
def Shared.genAt (s : Shared) (n : ℕ) : Gen := if n = s.genNo then s.tbl.gen else s.past n

/-- Writes to the generation with a number. -/
def Shared.setGen (s : Shared) (n : ℕ) (g : Gen) : Shared :=
  if n = s.genNo then { s with tbl := { s.tbl with gen := g } }
  else { s with past := Function.update s.past n g }

/-- Replaces the table. -/
def Shared.setTbl (s : Shared) (t : Table) : Shared := { s with tbl := t }

/-- The generation a call loaded is not the current one, or it is frozen. -/
def Shared.Stale (s : Shared) (n : ℕ) : Prop := n ≠ s.genNo ∨ s.frozen = true

instance (s : Shared) (n : ℕ) : Decidable (s.Stale n) := inferInstanceAs (Decidable (_ ∨ _))

/-- What a call for a key computes from the current generation. -/
def Shared.view (s : Shared) (hash : ℕ) : View :=
  let ph := placementHash hash s.tbl.gen.seed
  let b1 := s.tbl.gen.primary ph
  let b2 := s.tbl.gen.secondary ph
  ⟨s.genNo, ph, b1, b2, shardOf b1 s.tbl.shardCount, shardOf b2 s.tbl.shardCount⟩

/-- Where a call begins. -/
def Call.start : Call → Local
  | .insert h v => .insLoad ⟨h, v, none, 4⟩
  | .upsert h v => .upsLoad h v 4
  | .remove h => .remLoad h
  | .find h => .findLoad h
  | .grow reseed => .growLock reseed .caller

/-- `htc_insert` returns; a surrounding `htc_upsert` takes a duplicate as a lost race. -/
def Ins.finish (a : Ins) (e : HtcError) : Local :=
  match a.upsert with
  | none => .returned (.insert a.hash a.value) e
  | some k => if e = .duplicate then .upsLoad a.hash a.value k
    else .returned (.upsert a.hash a.value) e

/-- `htc_grow` returns. -/
def After.resume (reseed : Bool) (e : HtcError) : After → Local
  | .caller => .returned (.grow reseed) e
  | .entered a => a.finish .ok
  | .retry a => if e = .ok then .insLoad a else a.finish e

/-- The shards that a displacement locks, in ascending order. -/
def pathShards (shardCount : ℕ) (v : View) (p : Path) : List ℕ :=
  let buckets := v.b1 :: v.b2 :: p.moves.flatMap (fun m => [m.src.1, m.dst.1]) ++ [p.ins.1]
  (buckets.map (shardOf · shardCount)).dedup.mergeSort

/-- One entry more. -/
def Table.entry (t : Table) : Table := { t with size := t.size + 1 }

/-- The load factor is exceeded. -/
def Table.Overloaded (t : Table) : Prop := (t.size : ℚ) / t.gen.numBuckets > t.maxLoadFactor

instance (t : Table) : Decidable t.Overloaded := inferInstanceAs (Decidable (_ < _))

/-- The stash section of `htc_insert` behind its check of the generation. -/
def Shared.stashSection (s : Shared) (a : Ins) (idx : ℕ) : Shared × Local :=
  match insertStash a.hash idx s.tbl.toCore with
  | .duplicate => (s, a.finish .duplicate)
  | .placed c => (s.setTbl (Table.entry { s.tbl with toCore := c }), .insCheck a)
  | .full c => (s.setTbl { s.tbl with toCore := c }, .growLock true (.retry a))

/-- The first section of `htc_insert`. -/
def Shared.insertSection (s : Shared) (a : Ins) (v : View) : Shared × Local :=
  if s.Stale v.gen then (s, .insLoad a)
  else
    match insertTry a.hash a.value s.tbl with
    | .duplicate => (s, a.finish .duplicate)
    | .oom t => (s.setTbl t, a.finish .oom)
    | .placed t => (s.setTbl t.entry, .insCheck a)
    | .path idx p t => (s.setTbl t, .insPath a v (pathShards t.shardCount v p) idx p)
    | .full idx t => (s.setTbl t).stashSection a idx

/-- The displacement section of `htc_insert`: it does not look whether the generation is the current
one. -/
def Shared.pathSection (s : Shared) (a : Ins) (v : View) (idx : ℕ) (p : Path) : Shared × Local :=
  match validatePathLocked (s.genAt v.gen) s.tbl.recs p with
  | some src => (s.setGen v.gen (commitPathLocked (s.genAt v.gen) s.tbl.recs p src idx),
    .insDone a v)
  | none => (s, .insStash a v idx)

/-- The part of `htc_grow` under all shard locks. -/
def Shared.growSection (s : Shared) (reseed : Bool) (k : After) : Shared × Local :=
  let s := { s with frozen := false }
  match htcGrow reseed s.tbl with
  | (.ok, t) =>
    ({ s with tbl := t, genNo := s.genNo + 1, past := Function.update s.past s.genNo s.tbl.gen },
      k.resume reseed .ok)
  | (e, t) => (s.setTbl t, k.resume reseed e)

/-- The section of `htc_upsert`. -/
def Shared.upsertSection (s : Shared) (hash value attempts : ℕ) (v : View) : Shared × Local :=
  if s.Stale v.gen then (s, .upsLoad hash value attempts)
  else
    match htcSearch s.tbl.toCore hash true with
    | some p =>
      (s.setTbl { s.tbl with toCore := s.tbl.setValue (s.tbl.idxAt p) value },
        .returned (.upsert hash value) .ok)
    | none => (s, .insLoad ⟨hash, value, some attempts, 4⟩)

/-- The section of `htc_remove`; `none` is a thread that waits for itself. -/
def Shared.removeSection (s : Shared) (hash : ℕ) (v : View) : Option (Shared × Local) :=
  if s.Stale v.gen then some (s, .returned (.remove hash) .notFound)
  else (htcRemove hash s.tbl).map fun r => (s.setTbl r.2, .returned (.remove hash) r.1)

/-- The end of a scan of `htc_find`: it takes the index of the word it has found, or goes on to
`next`. -/
def scanned (hash : ℕ) (w : ℕ → Option Word) (next : Local) : Option ℕ → Local
  | some i => .findHit hash (((w i).map Word.idx).getD 0)
  | none => next

/-- The step of a thread; `none` is a thread that waits or is in no call. -/
def Shared.exec (s : Shared) : Local → Option (Shared × Local)
  | .idle => none
  | .returned _ _ => none
  | .insLoad a =>
    match a.attempts with
    | 0 => some (s, a.finish .pathological)
    | k + 1 => some (s, .insLock { a with attempts := k } (s.view a.hash))
  | .insLock a v => some (s.insertSection a v)
  | .insPath a v _ idx p => some (s.pathSection a v idx p)
  -- a generation that has been replaced sends the call back to its start
  | .insStash a v idx =>
    some (if s.Stale v.gen then (s.setTbl { s.tbl with toCore := s.tbl.arenaFree idx }, .insLoad a)
      else s.stashSection a idx)
  | .insDone a _ => some (s.setTbl s.tbl.entry, .insCheck a)
  | .insCheck a => some (s, if s.tbl.Overloaded then .growLock false (.entered a) else a.finish .ok)
  -- a thread waits while another one grows the table
  | .growLock reseed k => if s.frozen then none
    else some ({ s with frozen := true }, .growRehash reseed k)
  | .growRehash reseed k => some (s.growSection reseed k)
  | .upsLoad h u k =>
    match k with
    | 0 => some (s, .returned (.upsert h u) .pathological)
    | k + 1 => some (s, .upsLock h u k (s.view h))
  | .upsLock h u k v => some (s.upsertSection h u k v)
  | .remLoad h => some (s, .remLock h (s.view h))
  | .remLock h v => s.removeSection h v
  | .findLoad h => some (s, .findPrimary h (s.view h))
  -- a lookup takes no lock: each of its scans is a step of its own
  | .findPrimary h v =>
    let g := s.genAt v.gen
    some (s, scanned h (fun i => g.slots (v.b1, i)) (.findRemap h v)
      (htcBucketScan g s.tbl.recs v.b1 h (tag16 v.ph) false))
  | .findRemap h v =>
    some (s, if (s.genAt v.gen).mustCheckSecondary v.b1 (tag16 v.ph) then .findSecondary h v
      else .findShard h v)
  | .findSecondary h v =>
    let g := s.genAt v.gen
    some (s, scanned h (fun i => g.slots (v.b2, i)) (.findShard h v)
      (htcBucketScan g s.tbl.recs v.b2 h (tag16 v.ph) true))
  | .findShard h v =>
    let st := s.tbl.shards v.s1
    some (s, scanned h st.slots (.findGlobal h v) (htcStashFind st s.tbl.recs h (tag16 v.ph)))
  | .findGlobal h v =>
    let st := s.tbl.stash
    some (s, scanned h st.slots (.returned (.find h) .notFound)
      (htcStashFind st s.tbl.recs h (tag16 v.ph)))
  -- a record that was removed meanwhile sends the lookup back to its start
  | .findHit h idx =>
    some (s, if (s.tbl.recs idx).flags = 0 then .returned (.find h) .ok else .findLoad h)

/-- The table with its threads. -/
structure Machine extends Shared where
  loc : ℕ → Local

/-- What happens next: a thread makes a call, or takes the next step of its call. -/
inductive Act where
  | call (i : ℕ) (c : Call)
  | go (i : ℕ)
  deriving DecidableEq, Repr

/-- The thread is in no call. -/
def Local.free : Local → Bool
  | .idle => true
  | .returned _ _ => true
  | _ => false

/-- The thread that acts. -/
def Act.thread : Act → ℕ
  | .call i _ => i
  | .go i => i

/-- One step of the machine. -/
def Machine.step (m : Machine) : Act → Option Machine
  | .call i c => if (m.loc i).free then some { m with loc := Function.update m.loc i c.start }
    else none
  | .go i => (m.exec (m.loc i)).map fun r => { toShared := r.1, loc := Function.update m.loc i r.2 }

/-- The machine around a table whose threads are idle. -/
def Machine.start (t : Table) : Machine where
  tbl := t
  genNo := 0
  past := fun _ => Gen.fresh 0 0
  frozen := false
  loc := fun _ => .idle

/-- A schedule is run. -/
abbrev Machine.run (m : Machine) (as : List Act) : Option Machine := Schedule.run Machine.step m as

/-- Every act of a schedule is taken in a state that meets a condition. -/
abbrev Machine.Along (P : Machine → Act → Prop) (m : Machine) (as : List Act) : Prop :=
  Schedule.Along Machine.step P m as

/-- A step moves one thread. -/
lemma Machine.step_other {m m' : Machine} {a : Act} {j : ℕ} (hj : a.thread ≠ j)
    (h : m.step a = some m') :
    m'.loc j = m.loc j := by
  cases a with
  | call i c =>
    rw [Machine.step] at h
    split at h
    · cases h
      exact Function.update_of_ne (Ne.symm hj) ..
    · cases h
  | go i =>
    obtain ⟨r, -, rfl⟩ := Option.map_eq_some_iff.mp h
    exact Function.update_of_ne (Ne.symm hj) ..

/-- A schedule moves the threads that act in it. -/
lemma Machine.run_other {j : ℕ} : ∀ {as : List Act} {m m' : Machine},
    (∀ a ∈ as, a.thread ≠ j) → m.run as = some m' →
    m'.loc j = m.loc j
  | [], m, m', _, h => by
    cases h
    rfl
  | a :: as, m, m', ha, h => by
    obtain ⟨m₁, h₁, h⟩ := Option.bind_eq_some_iff.mp h
    rw [Machine.run_other (fun b hb => ha b (List.mem_cons_of_mem _ hb)) h]
    exact Machine.step_other (ha a (List.mem_cons_self ..)) h₁

end Draugr.Htc
