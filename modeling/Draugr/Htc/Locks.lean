import Draugr.Htc.Concurrent
import Draugr.Lib.Locks
import Draugr.Lib.Schedule

/-!
# The shard locks

The sections of `Draugr.Htc.Concurrent` with every `htc_spin_lock` and `htc_spin_unlock` of a shard
as a step of its own. A thread takes the locks of its next section one after the other
(`Stage.locking`), runs the section, and gives locks back one after the other (`Stage.unlocking`).
Which locks it takes and gives back is read from the code: `Local.takes` and `Local.gives` agree at
every section but `insert_done` after a displacement, which gives the locks of the two buckets back
although the locks of the path, these among them, were given back before the jump.

`htc_grow` freezes the generation under `grow_lock`, and gives that lock back after those of the
shards. A grow that fails sets the state of the generation to `HTC_GEN_ACTIVE` only then.
-/

namespace Draugr.Htc
open Draugr.Lib Draugr.Lib.Schedule

/-- `htc_lock_shards`: the locks in the order in which they are taken. -/
def lockShards (a b : ℕ) : List ℕ := if a = b then [a] else if a < b then [a, b] else [b, a]

/-- `htc_unlock_shards`: the locks in the order in which they are given back. -/
def unlockShards (a b : ℕ) : List ℕ := if a = b then [a] else [a, b]

/-- `all_sids`: the shards of the buckets that a displacement touches, in ascending order. -/
def pathLocks (n : ℕ) (v : View) (p : Path) : List ℕ :=
  let buckets := v.b1 :: v.b2 :: p.moves.flatMap (fun m => [m.src.1, m.dst.1]) ++ [p.ins.1]
  (buckets.map (shardOf · n)).dedup.insertionSort (· ≤ ·)

/-- The locks that the code takes before a section, of the `n` shards of the table. -/
def Local.takes (n : ℕ) : Local → List ℕ
  | .insLock _ v => lockShards v.s1 v.s2
  | .insPath _ v _ _ p => pathLocks n v p
  | .insStash _ v _ => lockShards v.s1 v.s2
  | .upsLock _ _ _ v => lockShards v.s1 v.s2
  | .remLock _ v => lockShards v.s1 v.s2
  | .growRehash _ _ => List.range n
  | _ => []

/-- The locks that the code gives back behind a section. -/
def Local.gives (n : ℕ) : Local → List ℕ
  | .insLock _ v => unlockShards v.s1 v.s2
  | .insPath _ v _ _ p => (pathLocks n v p).reverse
  | .insStash _ v _ => unlockShards v.s1 v.s2
  | .insDone _ v => unlockShards v.s1 v.s2
  | .upsLock _ _ _ v => unlockShards v.s1 v.s2
  | .remLock _ v => unlockShards v.s1 v.s2
  | .growRehash _ _ => (List.range n).reverse
  | _ => []

/-- Where a thread is between its sections. -/
inductive Stage where
  /-- It takes the locks `todo`, then it runs the section of `l`. -/
  | locking (todo : List ℕ) (l : Local)
  /-- It gives back `x` and then the locks `todo`, then it goes on at `l`. -/
  | unlocking (x : ℕ) (todo : List ℕ) (l : Local)
  /-- The end of `htc_grow`: it gives back the locks `todo`, restores the generation if the grow has
  failed, and gives back `grow_lock`. -/
  | thawing (todo : List ℕ) (failed : Bool) (l : Local)
  deriving DecidableEq, Repr

/-- A thread goes on at `l`. -/
def Local.enter (n : ℕ) (l : Local) : Stage := .locking (l.takes n) l

/-- A thread gives locks back and goes on at `l`. -/
def Local.leave (n : ℕ) (l : Local) : List ℕ → Stage
  | [] => l.enter n
  | x :: todo => .unlocking x todo l

/-- The table, its locks and its threads. `frozen` is the state of the current generation. -/
structure LockMachine extends Shared where
  growLock : Bool
  locks : Locks ℕ ℕ
  stage : ℕ → Stage

namespace LockMachine

/-- A thread goes to another stage. -/
def goto (m : LockMachine) (i : ℕ) (st : Stage) : LockMachine :=
  { m with stage := Function.update m.stage i st }

/-- The section of a thread that has taken its locks. -/
def runSection (m : LockMachine) (i : ℕ) (l : Local) : Option LockMachine :=
  let n := m.tbl.shardCount
  match l with
  | .growLock reseed k =>
    -- a generation is frozen only while `grow_lock` is taken
    if m.growLock || m.frozen then none
    else some { m with
      growLock :=
        true, frozen := true,
        stage := Function.update m.stage i ((Local.growRehash reseed k).enter n) }
  | .growRehash reseed k =>
    match htcGrow reseed m.tbl with
    | (.ok, t) => some { m with
        tbl := t, genNo := m.genNo + 1, past := Function.update m.past m.genNo m.tbl.gen,
          frozen := false
        stage := Function.update m.stage i (.thawing (l.gives n) false (k.resume reseed .ok)) }
    | (e, t) => some { m with
        tbl := t, stage := Function.update m.stage i
          (.thawing (l.gives n) true (k.resume reseed e)) }
  | l => (m.exec l).map fun r =>
      { m with toShared := r.1, stage := Function.update m.stage i (r.2.leave n (l.gives n)) }

/-- The next step of a thread; `none` is a thread that waits or is in no call. -/
def go (m : LockMachine) (i : ℕ) : Option LockMachine :=
  let n := m.tbl.shardCount
  match m.stage i with
  | .locking [] l => m.runSection i l
  | .locking (x :: todo) l => (m.locks.take i x).map fun k =>
    { m.goto i (.locking todo l) with locks := k }
  | .unlocking x todo l => some { m.goto i (l.leave n todo) with locks := m.locks.give i x }
  | .thawing (x :: todo) failed l =>
    some { m.goto i (.thawing todo failed l) with locks := m.locks.give i x }
  | .thawing [] failed l =>
    some { m.goto i (l.enter n) with growLock := false, frozen := m.frozen && !failed }

/-- One step of the machine. -/
def step (m : LockMachine) : Act → Option LockMachine
  | .call i c =>
    match m.stage i with
    | .locking [] l => if l.free then some (m.goto i (c.start.enter m.tbl.shardCount)) else none
    | _ => none
  | .go i => m.go i

/-- The machine around a table whose threads are idle. -/
def start (t : Table) : LockMachine where
  toShared := (Machine.start t).toShared
  growLock := false
  locks := .free
  stage := fun _ => .locking [] .idle

/-- The lock that the next step of a thread gives back. -/
def unlocks (m : LockMachine) (i : ℕ) : Option ℕ :=
  match m.stage i with
  | .unlocking x _ _ => some x
  | .thawing (x :: _) _ _ => some x
  | _ => none

/-- Locks are given back by their holders, and no two threads hold one lock. -/
structure Excludes (m : LockMachine) : Prop where
  unlocks : ∀ i x, m.unlocks i = some x → m.locks.held i x = true
  one : ∀ i j x, m.locks.held i x = true → m.locks.held j x = true → i = j

/-- The next step of the thread commits a displacement. -/
def commits (m : LockMachine) (i : ℕ) : Bool :=
  match m.stage i with
  | .locking [] (.insPath _ v _ _ p) => (validatePathLocked (m.genAt v.gen) m.tbl.recs p).isSome
  | _ => false

/-- The condition on an act. -/
def NoCommit (m : LockMachine) : Act → Prop
  | .call _ _ => True
  | .go i => m.commits i = false

instance (m : LockMachine) : ∀ act, Decidable (m.NoCommit act)
  | .call _ _ => isTrue trivial
  | .go _ => inferInstanceAs (Decidable (_ = false))

end LockMachine

variable {n : ℕ} {l l' : Local} {s s' : Shared} {t t' : Table} {m m' : LockMachine} {i x y : ℕ}
  {todo : List ℕ}

/-! ## The locks of a section -/

/-- A thread that gives back the locks that it takes. -/
def Local.Plain : Local → Prop
  | .insDone _ _ => False
  | _ => True

/-- No lock is taken twice for two buckets. -/
lemma lockShards_nodup (a b : ℕ) : (lockShards a b).Nodup := by
  unfold lockShards
  split
  · exact List.nodup_singleton a
  · rename_i h
    split
    · simpa using h
    · simpa using Ne.symm h

/-- The locks that are given back are those that were taken. -/
lemma unlockShards_perm (a b : ℕ) : (unlockShards a b).Perm (lockShards a b) := by
  unfold unlockShards lockShards
  split
  · rfl
  · split
    · rfl
    · exact .swap b a []

/-- The locks are those of the shards that `htc_insert` has found. -/
lemma pathLocks_eq (n : ℕ) (v : View) (p : Path) : pathLocks n v p = pathShards n v p := by
  have hins : (pathLocks n v p).Pairwise (· ≤ ·) := List.pairwise_insertionSort _ _
  have hmerge : (pathShards n v p).Pairwise (· ≤ ·) :=
    (List.pairwise_mergeSort (fun a b c => by simpa using le_trans)
      (fun a b => by simpa using le_total a b) _).imp
      fun h => by simpa using h
  exact List.Perm.eq_of_pairwise (fun a b _ _ => le_antisymm) hins hmerge
    ((List.perm_insertionSort _ _).trans (List.mergeSort_perm _ _).symm)

/-- No lock of a path is taken twice. -/
lemma pathLocks_nodup (n : ℕ) (v : View) (p : Path) : (pathLocks n v p).Nodup := by
  rw [pathLocks_eq]
  exact (List.mergeSort_perm _ _).nodup_iff.mpr (List.nodup_dedup _)

/-- No section takes a lock twice. -/
lemma takes_nodup (l : Local) (n : ℕ) : (l.takes n).Nodup := by
  cases l with
  | insPath a v sids idx p => exact pathLocks_nodup n v p
  | growRehash reseed k => exact List.nodup_range
  | insLock | insStash | upsLock | remLock => exact lockShards_nodup _ _
  | _ => exact List.nodup_nil

/-- A plain section gives back the locks that it takes. -/
lemma Local.Plain.gives_perm (h : l.Plain) (n : ℕ) : (l.gives n).Perm (l.takes n) := by
  cases l with
  | insPath a v sids idx p => exact List.reverse_perm _
  | growRehash reseed k => exact List.reverse_perm (List.range n)
  | insLock | insStash | upsLock | remLock => exact unlockShards_perm _ _
  | insDone a v => exact h.elim
  | _ => exact .refl []

/-! ## Where a section leads -/

/-- A call starts with a plain section. -/
lemma Call.start_plain (c : Call) : c.start.Plain := by cases c <;> trivial

/-- The end of an insertion is plain. -/
lemma Ins.finish_plain (a : Ins) (e : HtcError) : (a.finish e).Plain := by
  unfold Ins.finish
  split
  · trivial
  · split <;> trivial

/-- What follows a grow is plain. -/
lemma After.resume_plain (reseed : Bool) (e : HtcError) (k : After) :
    (k.resume reseed e).Plain := by
  cases k with
  | caller => trivial
  | entered a => exact a.finish_plain .ok
  | retry a =>
    change (if e = .ok then Local.insLoad a else a.finish e).Plain
    split
    · trivial
    · exact a.finish_plain e

/-- What follows the stash section is plain. -/
lemma stashSection_plain (s : Shared) (a : Ins) (idx : ℕ) : (s.stashSection a idx).2.Plain := by
  unfold Shared.stashSection
  split
  · exact a.finish_plain .duplicate
  · trivial
  · trivial

/-- What follows the insertion section is plain. -/
lemma insertSection_plain (s : Shared) (a : Ins) (v : View) : (s.insertSection a v).2.Plain := by
  unfold Shared.insertSection
  split
  · trivial
  · split
    · exact a.finish_plain .duplicate
    · exact a.finish_plain .oom
    · trivial
    · trivial
    · exact stashSection_plain _ _ _

/-- What follows the upsert section is plain. -/
lemma upsertSection_plain (s : Shared) (h u k : ℕ) (v : View) :
    (s.upsertSection h u k v).2.Plain := by
  unfold Shared.upsertSection
  split
  · trivial
  · split <;> trivial

/-- What follows the removal section is plain. -/
lemma removeSection_plain {v : View} {h : ℕ} (he : s.removeSection h v = some (s', l')) :
    l'.Plain := by
  unfold Shared.removeSection at he
  split at he
  · cases he
    trivial
  · obtain ⟨r, -, hr⟩ := Option.map_eq_some_iff.mp he
    cases hr
    trivial

/-- What follows a scan is plain. -/
lemma scanned_plain (h : ℕ) (w : ℕ → Option Word) {next : Local} (hn : next.Plain) (o : Option ℕ) :
    (scanned h w next o).Plain := by
  cases o with
  | none => exact hn
  | some i => trivial

/-- A section that commits no displacement leads to a section that gives back what it takes. -/
lemma exec_plain (hl : ∀ a v sids idx p, l = .insPath a v sids idx p →
    (validatePathLocked (s.genAt v.gen) s.tbl.recs p).isSome = false)
      (he : s.exec l = some (s', l')) : l'.Plain := by
  cases l with
  | insPath a v sids idx p =>
    have hno := Option.isSome_eq_false_iff.mp (hl a v sids idx p rfl)
    rw [Shared.exec, Shared.pathSection, Option.isNone_iff_eq_none.mp hno] at he
    cases he
    trivial
  | insLock a v =>
    have := insertSection_plain s a v
    rwa [Option.some.inj he] at this
  | remLock h v => exact removeSection_plain he
  | upsLock h u k v =>
    have := upsertSection_plain s h u k v
    rwa [Option.some.inj he] at this
  | insStash a v idx =>
    rw [Shared.exec] at he
    split at he
    · cases he
      trivial
    · have := stashSection_plain s a idx
      rwa [Option.some.inj he] at this
  | insLoad a =>
    rw [Shared.exec] at he
    split at he <;> cases he
    · exact a.finish_plain .pathological
    · trivial
  | insCheck a =>
    rw [Shared.exec] at he
    cases he
    split
    · trivial
    · exact a.finish_plain .ok
  | growRehash reseed k =>
    have hres : (s.growSection reseed k).2.Plain := by
      unfold Shared.growSection
      dsimp only
      split <;> exact k.resume_plain reseed _
    rwa [Option.some.inj he] at hres
  | growLock reseed k =>
    rw [Shared.exec] at he
    split at he <;> cases he
    trivial
  | upsLoad h u k =>
    cases k <;> cases he <;> trivial
  | findPrimary h v =>
    cases he
    refine scanned_plain h _ ?_ _
    trivial
  | findRemap h v =>
    cases he
    split <;> trivial
  | findSecondary h v =>
    cases he
    refine scanned_plain h _ ?_ _
    trivial
  | findShard h v =>
    cases he
    refine scanned_plain h _ ?_ _
    trivial
  | findGlobal h v =>
    cases he
    refine scanned_plain h _ ?_ _
    trivial
  | findHit h idx =>
    cases he
    split <;> trivial
  | idle => cases he
  | returned c e => cases he
  | _ =>
    cases he
    trivial

/-! ## The number of shards -/

/-- An allocation keeps the number of shards. -/
lemma malloc_shardCount (t : Table) : t.malloc.2.shardCount = t.shardCount := by
  unfold Table.malloc
  split <;> rfl

/-- The allocation of a record keeps the number of shards. -/
lemma arenaAlloc_shardCount (t : Table) (h ph v : ℕ) :
    (t.arenaAlloc h ph v).2.shardCount = t.shardCount := by
  unfold Table.arenaAlloc
  split
  · rfl
  · have hm := malloc_shardCount t
    rcases hr : t.malloc with ⟨ok, t₁⟩
    rw [hr] at hm
    cases ok <;> exact hm

/-- The rehashing of a grow keeps the number of shards. -/
lemma growRehash_shardCount (reseed : Bool) (t : Table) :
    (growRehash reseed t).2.shardCount = t.shardCount := by
  unfold growRehash
  dsimp only
  split
  · rfl
  · have hm :=
      malloc_shardCount { t with seedCtr := if reseed = true then t.seedCtr + 1 else t.seedCtr }
    rcases hr : Table.malloc
        { t with seedCtr := if reseed = true then t.seedCtr + 1 else t.seedCtr } with ⟨ok, t₁⟩
    rw [hr] at hm
    cases ok <;> exact hm

/-- `htc_grow` keeps the number of shards. -/
lemma htcGrow_shardCount (reseed : Bool) (t : Table) :
    (htcGrow reseed t).2.shardCount = t.shardCount := by
  unfold htcGrow
  dsimp only
  split
  · rfl
  · have h1 := malloc_shardCount { t with growStarted := t.growStarted + 1 }
    have h2 := malloc_shardCount (Table.malloc { t with growStarted := t.growStarted + 1 }).2
    split
    · rw [growRehash_shardCount]
      exact h2.trans h1
    · exact h2.trans h1

/-- The table that a first section leaves has `n` shards. -/
def Tried.Sharded (n : ℕ) : Tried → Prop
  | .duplicate => True
  | .oom t => t.shardCount = n
  | .placed t => t.shardCount = n
  | .path _ _ t => t.shardCount = n
  | .full _ t => t.shardCount = n

/-- The search for a displacement keeps the number of shards. -/
lemma insertSearch_sharded (ph idx : ℕ) (t : Table) :
    (insertSearch ph idx t).Sharded t.shardCount := by
  unfold insertSearch
  dsimp only
  split
  · split <;> exact rfl
  · exact rfl

/-- One try of an insertion keeps the number of shards. -/
lemma insertTry_sharded (h v : ℕ) (t : Table) : (insertTry h v t).Sharded t.shardCount := by
  unfold insertTry
  dsimp only
  split
  · trivial
  · have ha := arenaAlloc_shardCount t h (placementHash h t.gen.seed) v
    rcases hr : t.arenaAlloc h (placementHash h t.gen.seed) v with ⟨idx, t₁⟩
    rw [hr] at ha
    cases idx with
    | none => exact ha
    | some idx =>
      dsimp only
      rcases placeDirect t₁.gen (placementHash h t.gen.seed)
        ⟨idx, tag16 (placementHash h t.gen.seed), false⟩ with ⟨ok, g⟩
      cases ok with
      | true => exact ha
      | false =>
        have hsc : t₁.shardCount = t.shardCount := ha
        rw [← hsc]
        exact insertSearch_sharded (placementHash h t.gen.seed) idx { t₁ with gen := g }

/-- A written generation keeps the number of shards. -/
lemma setGen_shardCount (s : Shared) (n : ℕ) (g : Gen) :
    (s.setGen n g).tbl.shardCount = s.tbl.shardCount := by
  unfold Shared.setGen
  split <;> rfl

/-- The stash section keeps the number of shards. -/
lemma stashSection_shardCount (s : Shared) (a : Ins) (idx : ℕ) :
    (s.stashSection a idx).1.tbl.shardCount = s.tbl.shardCount := by
  unfold Shared.stashSection insertStash
  dsimp only
  split
  · rfl
  · rename_i c hc
    split at hc
    · cases hc
    · split at hc <;> cases hc
      rfl
  · rename_i c hc
    split at hc
    · cases hc
    · split at hc <;> cases hc
      rfl

/-- The insertion section keeps the number of shards. -/
lemma insertSection_shardCount (s : Shared) (a : Ins) (v : View) :
    (s.insertSection a v).1.tbl.shardCount = s.tbl.shardCount := by
  unfold Shared.insertSection
  split
  · rfl
  · have ht := insertTry_sharded a.hash a.value s.tbl
    cases hr : insertTry a.hash a.value s.tbl with
    | duplicate => rfl
    | full idx t =>
      rw [hr] at ht
      exact (stashSection_shardCount (s.setTbl t) a idx).trans ht
    | _ =>
      rw [hr] at ht
      exact ht

/-- `htc_remove` keeps the number of shards. -/
lemma htcRemove_shardCount {h : ℕ} {e : HtcError} (hr : htcRemove h t = some (e, t')) :
    t'.shardCount = t.shardCount := by
  unfold htcRemove at hr
  dsimp only at hr
  split at hr
  · cases hr
    rfl
  · split at hr
    · cases hr
      rfl
    · split at hr <;> cases hr
      rfl
  · cases hr
    rfl
  · cases hr
    rfl

/-- The number of shards of a table never changes. -/
lemma exec_shardCount (he : s.exec l = some (s', l')) : s'.tbl.shardCount = s.tbl.shardCount := by
  cases l with
  | insLock a v =>
    have := insertSection_shardCount s a v
    rwa [Option.some.inj he] at this
  | insPath a v sids idx p =>
    have hp : (s.pathSection a v idx p).1.tbl.shardCount = s.tbl.shardCount := by
      unfold Shared.pathSection
      split
      · exact setGen_shardCount s _ _
      · rfl
    rwa [Option.some.inj he] at hp
  | insStash a v idx =>
    rw [Shared.exec] at he
    split at he
    · cases he
      rfl
    · have := stashSection_shardCount s a idx
      rwa [Option.some.inj he] at this
  | growRehash reseed k =>
    have hg : (s.growSection reseed k).1.tbl.shardCount = s.tbl.shardCount := by
      have ht := htcGrow_shardCount reseed s.tbl
      unfold Shared.growSection
      dsimp only
      split <;> rename_i hr <;> rw [hr] at ht <;> exact ht
    rwa [Option.some.inj he] at hg
  | upsLock h u k v =>
    have hu : (s.upsertSection h u k v).1.tbl.shardCount = s.tbl.shardCount := by
      unfold Shared.upsertSection
      split
      · rfl
      · split <;> rfl
    rwa [Option.some.inj he] at hu
  | remLock h v =>
    change s.removeSection h v = _ at he
    unfold Shared.removeSection at he
    split at he
    · cases he
      rfl
    · obtain ⟨⟨e, t⟩, hr, he⟩ := Option.map_eq_some_iff.mp he
      cases he
      exact htcRemove_shardCount hr
  | growLock reseed k =>
    rw [Shared.exec] at he
    split at he <;> cases he
    rfl
  | insLoad a =>
    rw [Shared.exec] at he
    split at he <;> cases he <;> rfl
  | upsLoad h u k => cases k <;> cases he <;> rfl
  | idle => cases he
  | returned c e => cases he
  | _ =>
    cases he
    rfl

/-! ## What a thread holds -/

/-- The locks that a thread holds at a stage. -/
def Stage.Owns (n : ℕ) : Stage → ℕ → Prop
  | .locking todo l, x => x ∈ l.takes n ∧ x ∉ todo
  | .unlocking y todo _, x => x ∈ y :: todo
  | .thawing todo _ _, x => x ∈ todo

/-- The locks still to take are the last ones of those that the section needs, and no lock is taken
or given back twice. -/
def Stage.Fits (n : ℕ) : Stage → Prop
  | .locking todo l => l.Plain ∧ todo <:+ l.takes n
  | .unlocking y todo l => l.Plain ∧ (y :: todo).Nodup
  | .thawing todo _ l => l.Plain ∧ todo.Nodup

/-- The invariant: the locks are exclusive, and a thread holds those of its stage. -/
structure LockMachine.Guarded (m : LockMachine) : Prop where
  locks : m.locks.Exclusive
  fits : ∀ i, (m.stage i).Fits m.tbl.shardCount
  owns : ∀ i x, m.locks.held i x = true ↔ (m.stage i).Owns m.tbl.shardCount x

/-- A thread that enters a plain section has all its locks still to take. -/
lemma Local.Plain.enter_fits (h : l.Plain) (n : ℕ) : (l.enter n).Fits n := ⟨h, List.suffix_rfl⟩

/-- A thread that enters a section owns no lock. -/
lemma enter_owns (l : Local) (n x : ℕ) : ¬ (l.enter n).Owns n x := fun h => h.2 h.1

/-- A thread that leaves for a plain section has no lock to give back twice. -/
lemma Local.Plain.leave_fits (h : l.Plain) (hd : todo.Nodup) (n : ℕ) : (l.leave n todo).Fits n := by
  cases todo with
  | nil => exact h.enter_fits n
  | cons x todo => exact ⟨h, hd⟩

/-- A thread that leaves a section owns the locks still to give back. -/
lemma leave_owns (l : Local) (n x : ℕ) (todo : List ℕ) : (l.leave n todo).Owns n x ↔ x ∈ todo := by
  cases todo with
  | nil => exact iff_of_false (enter_owns l n x) List.not_mem_nil
  | cons y todo => exact .rfl

namespace LockMachine.Guarded

/-- Before the first step no lock is held. -/
lemma start (t : Table) : (LockMachine.start t).Guarded where
  locks := .free
  fits _ := ⟨trivial, List.suffix_rfl⟩
  owns _ _ := iff_of_false Bool.false_ne_true fun h => h.2 h.1

/-- One thread changes its stage, and the locks that it holds with it. -/
lemma goto (h : m.Guarded) {st : Stage} (hn : m'.tbl.shardCount = m.tbl.shardCount)
    (hs : m'.stage = Function.update m.stage i st) (hlocks : m'.locks.Exclusive)
    (hf : st.Fits m.tbl.shardCount)
    (hi : ∀ x, m'.locks.held i x = true ↔ st.Owns m.tbl.shardCount x)
    (ho : ∀ j, j ≠ i → ∀ x, m'.locks.held j x = true ↔ m.locks.held j x = true) : m'.Guarded := by
  refine ⟨hlocks, fun j => ?_, fun j x => ?_⟩
  · rw [hn, hs]
    by_cases hj : j = i
    · rw [hj, Function.update_self]
      exact hf
    · rw [Function.update_of_ne hj]
      exact h.fits j
  · rw [hn, hs]
    by_cases hj : j = i
    · rw [hj, Function.update_self]
      exact hi x
    · rw [Function.update_of_ne hj, ho j hj x]
      exact h.owns j x

/-- A thread changes its stage and no lock. -/
lemma stays (h : m.Guarded) {st : Stage} (hn : m'.tbl.shardCount = m.tbl.shardCount)
    (hs : m'.stage = Function.update m.stage i st) (hk : m'.locks = m.locks)
    (hf : st.Fits m.tbl.shardCount)
    (hi : ∀ x, (m.stage i).Owns m.tbl.shardCount x ↔ st.Owns m.tbl.shardCount x) : m'.Guarded := by
  refine h.goto hn hs (hk ▸ h.locks) hf (fun x => ?_) fun j _ x => by rw [hk]
  rw [hk, h.owns i x]
  exact hi x

/-- A thread takes a lock. -/
lemma take (h : m.Guarded) (hst : m.stage i = .locking (x :: todo) l) {k : Locks ℕ ℕ}
    (hk : m.locks.take i x = some k) :
    ({ m.goto i (.locking todo l) with locks := k } : LockMachine).Guarded := by
  have hfit := h.fits i
  rw [hst] at hfit
  obtain ⟨got, hgot⟩ := hfit.2
  have hnd := takes_nodup l m.tbl.shardCount
  rw [← hgot] at hnd
  have hx : x ∉ todo := (List.nodup_cons.mp (List.nodup_append.mp hnd).2.1).1
  refine h.goto rfl rfl (h.locks.take hk) ⟨hfit.1, got ++ [x], by rw [← hgot]; simp⟩ (fun y => ?_)
    fun j hj y => ?_
  · rw [Locks.held_take hk, h.owns i y, hst]
    change _ ∨ _ ↔ y ∈ l.takes m.tbl.shardCount ∧ y ∉ todo
    change (y ∈ l.takes m.tbl.shardCount ∧ y ∉ x :: todo) ∨ _ ↔ _
    rw [← hgot]
    by_cases hy : y = x
    · subst hy
      simp [hx]
    · simp [hy]
  · rw [Locks.held_take hk]
    simp [hj]

/-- A thread gives a lock back that it holds. -/
lemma give (h : m.Guarded) {st : Stage}
    (hst : ∀ y, (m.stage i).Owns m.tbl.shardCount y ↔ y ∈ x :: todo)
    (hx : x ∉ todo) (hf : st.Fits m.tbl.shardCount)
    (ho : ∀ y, st.Owns m.tbl.shardCount y ↔ y ∈ todo) :
    ({ m.goto i st with locks := m.locks.give i x } : LockMachine).Guarded := by
  have hheld : m.locks.held i x = true := (h.owns i x).mpr ((hst x).mpr List.mem_cons_self)
  refine h.goto rfl rfl (h.locks.give hheld) hf (fun y => ?_) fun j hj y => ?_
  · rw [Locks.held_give, h.owns i y, hst, ho]
    by_cases hy : y = x
    · subst hy
      simp [hx]
    · simp [hy]
  · rw [Locks.held_give]
    simp [hj]

/-- A section that commits no displacement. -/
lemma runSection (h : m.Guarded) (hst : m.stage i = .locking [] l) (hc : m.commits i = false)
    (hr : m.runSection i l = some m') : m'.Guarded := by
  have hfit := h.fits i
  rw [hst] at hfit
  have hperm := hfit.1.gives_perm m.tbl.shardCount
  have hnd : (l.gives m.tbl.shardCount).Nodup := hperm.nodup_iff.mpr (takes_nodup l _)
  have hown : ∀ x, (m.stage i).Owns m.tbl.shardCount x ↔ x ∈ l.gives m.tbl.shardCount := fun x => by
    rw [hst, hperm.mem_iff]
    exact and_iff_left List.not_mem_nil
  unfold LockMachine.runSection at hr
  dsimp only at hr
  split at hr
  · rename_i reseed k
    split at hr <;> cases hr
    refine h.stays rfl rfl rfl (Local.Plain.enter_fits (l := .growRehash reseed k) trivial _)
      fun x => ?_
    rw [hown]
    exact iff_of_false List.not_mem_nil (enter_owns _ _ x)
  · rename_i reseed k
    have hn := htcGrow_shardCount reseed m.tbl
    split at hr <;> rename_i ht <;> rw [ht] at hn <;> cases hr <;>
      exact h.stays hn rfl rfl ⟨k.resume_plain reseed _, hnd⟩ hown
  · obtain ⟨⟨s', l'⟩, he, rfl⟩ := Option.map_eq_some_iff.mp hr
    have hl' : l'.Plain := by
      refine exec_plain (fun a v sids idx p hl => ?_) he
      subst hl
      rw [LockMachine.commits, hst] at hc
      exact hc
    refine h.stays (exec_shardCount he) rfl rfl (hl'.leave_fits hnd _) fun x => ?_
    rw [hown, leave_owns]

/-- A step that commits no displacement. -/
lemma step (h : m.Guarded) {act : Act} (hq : m.NoCommit act) (hs : m.step act = some m') :
    m'.Guarded := by
  cases act with
  | call i c =>
    rw [LockMachine.step] at hs
    split at hs
    · rename_i l hst
      split at hs <;> cases hs
      rename_i hfree
      refine h.stays rfl rfl rfl (c.start_plain.enter_fits _) fun x =>
        iff_of_false ?_ (enter_owns _ _ x)
      have htakes : l.takes m.tbl.shardCount = [] := by cases l <;> first | rfl | cases hfree
      rw [hst]
      change ¬ (x ∈ l.takes m.tbl.shardCount ∧ _)
      rw [htakes]
      exact fun hx => List.not_mem_nil hx.1
    · cases hs
  | go i =>
    have hfit := h.fits i
    change m.go i = some m' at hs
    unfold LockMachine.go at hs
    dsimp only at hs
    split at hs
    · rename_i l hst
      exact h.runSection hst hq hs
    · rename_i x todo l hst
      obtain ⟨k, hk, rfl⟩ := Option.map_eq_some_iff.mp hs
      exact h.take hst hk
    · rename_i x todo l hst
      cases hs
      rw [hst] at hfit
      obtain ⟨hx, hnd⟩ := List.nodup_cons.mp hfit.2
      refine h.give (fun y => by rw [hst]; rfl) hx (hfit.1.leave_fits hnd _) fun y =>
        leave_owns l _ y todo
    · rename_i x todo failed l hst
      cases hs
      rw [hst] at hfit
      obtain ⟨hx, hnd⟩ := List.nodup_cons.mp hfit.2
      exact h.give (fun y => by rw [hst]; rfl) hx ⟨hfit.1, hnd⟩ fun y => .rfl
    · rename_i failed l hst
      cases hs
      rw [hst] at hfit
      refine h.stays rfl rfl rfl (hfit.1.enter_fits _) fun x => ?_
      rw [hst]
      exact iff_of_false List.not_mem_nil (enter_owns l _ x)

/-- The invariant gives what the locks are for. -/
lemma excludes (h : m.Guarded) : m.Excludes where
  unlocks i x hx := by
    rw [h.owns i x]
    unfold LockMachine.unlocks at hx
    split at hx
    · rename_i hst
      cases hx
      rw [hst]
      exact List.mem_cons_self
    · rename_i hst
      cases hx
      rw [hst]
      exact List.mem_cons_self
    · cases hx
  one i j x hi hj := h.locks.one hi hj

end LockMachine.Guarded

/-! ## Runs -/

/-- In every run that commits no displacement, every lock of a shard is given back by the thread
that holds it, and no two threads are between taking and giving back the same lock. -/
theorem shard_locks_exclude (t : Table) (as : List Act) (m : LockMachine)
    (hq : Along LockMachine.step LockMachine.NoCommit (.start t) as)
    (hr : run LockMachine.step (.start t) as = some m) : m.Excludes :=
  (run_keeps (P := LockMachine.NoCommit) (I := LockMachine.Guarded)
    (fun _ _ _ hi hp hs => hi.step hp hs)
    (.start t) hq hr).excludes

/-- An insertion and a grow, with the grow waiting for the locks of the insertion. -/
theorem shard_locks_exclude_two : ∃ m : LockMachine, m.locks.held 0 3 = true ∧ m.Excludes := by
  let as : List Act := [.call 0 (.insert 5 50), .call 1 (.grow false), .go 0, .go 0, .go 1, .go 0]
  obtain ⟨m, hm, h⟩ := Option.map_eq_some_iff.mp
    (by decide +kernel : (run LockMachine.step (.start (htcCreate none 0 [])) as).map
      (·.locks.held 0 3) = some true)
  have hq : Along LockMachine.step LockMachine.NoCommit (.start (htcCreate none 0 [])) as := by
    decide +kernel
  exact ⟨m, h, shard_locks_exclude _ as m hq hm⟩

/-- Eight keys fill a bucket; the ninth is placed by a displacement of the shards 0 and 1. Before
its `insert_done` a removal takes the lock of shard 1, which `insert_done` then gives back, and a
second removal takes it too. -/
theorem shard_locks_fail :
    let fill : List Act :=
      ([1, 23, 31, 32].flatMap fun h => .call 0 (.insert h 1) :: List.replicate 7 (.go 0)) ++
      [40, 41, 60, 63].flatMap fun h => .call 0 (.insert h 1) :: List.replicate 5 (.go 0)
    let as : List Act := fill ++ .call 0 (.insert 278 1) :: List.replicate 8 (.go 0) ++
      [.go 0, .call 1 (.remove 40), .go 1, .go 1, .go 0]
    let m := LockMachine.start (htcCreate (some ⟨16, 1, 4, false⟩) 0 [])
    (run LockMachine.step m as).map (fun m => (m.unlocks 0, m.locks.held 0 1, m.locks.held 1 1)) =
        some (some 1, false, true) ∧
      (run LockMachine.step m (as ++ [.go 0, .call 2 (.remove 41), .go 2, .go 2])).map
        (fun m => (m.locks.held 1 1, m.locks.held 2 1)) = some (true, true) := by
  decide +kernel

end Draugr.Htc
