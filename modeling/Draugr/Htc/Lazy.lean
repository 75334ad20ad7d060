import Draugr.Htc.Resize

/-!
# Runs with lazy resizes

Two results about the runs of one thread. In every run whose calls meet `LazyOp.Safe` every entry
stays in exactly one of the two generations, and the calls answer as those of a partial map, up to
the keys that wait (`lazy_resize_keeps_map`). And where nothing is inserted during a resize, the
chunks can be migrated in any order, more than once and together with other calls: an entry waits as
long as its chunk does, and when all chunks are migrated `htc_resize_finish` drops an empty
generation (`lazy_resize_completes`).
-/

namespace Draugr.Htc
open Draugr.Lib

variable {c c' : Core} {g o o' orig : Gen} {s s' : Resizing} {t t' : Table} {h v i : ℕ} {m : KeyMap}
  {key value : UInt64}

/-- A call on a table that may be under a lazy resize. -/
inductive LazyOp where
  | start (newNumBuckets : ℕ)
  | migrate (chunk : ℕ)
  | ensure (bucket : ℕ)
  | finish
  | insert (key value : UInt64)
  | update (key value : UInt64)
  | remove (key : UInt64)
  | find (key : UInt64) (want : Bool)
  deriving DecidableEq, Repr

/-- The reply of a call, the value it stores and the table; `none` is a call that starts
`htc_grow`. -/
def LazyOp.run : LazyOp → Resizing → Option (HtcError × Option ℕ × Resizing)
  | .start n, s => some (if (htcResizeStart n s).1 then .ok else .oom, none, (htcResizeStart n s).2)
  | .migrate chunk, s => some (.ok, none, htcMigrateChunk chunk s)
  | .ensure bucket, s => some (.ok, none, htcEnsureChunkMigrated bucket s)
  | .finish, s => some (.ok, none, htcResizeFinish s)
  | .insert key value, s => (insertLazy key.toNat value.toNat s).map fun r => (r.1, none, r.2)
  | .update key value,
    s => some ((updateLazy key.toNat value.toNat s).1, none, (updateLazy key.toNat value.toNat s).2)
  | .remove key, s => (removeLazy key.toNat s).map fun r => (r.1, none, r.2)
  | .find key want, s =>
    let r := htcFind key.toNat want s.toTable
    some (r.1, r.2.1, { s with toTable := r.2.2 })

/-- The map after a call that replied `e`. -/
def LazyOp.apply (e : HtcError) (m : KeyMap) : LazyOp → KeyMap
  | .insert key value => if e = .ok then Function.update m key (some value) else m
  | .update key value => if e = .ok then Function.update m key (some value) else m
  | .remove key => if e = .ok then Function.update m key none else m
  | _ => m

/-- What a call needs: a resize starts from one generation and does not make the table smaller, a
chunk is one of the bitmap, a generation that is dropped is empty, and a key that is inserted does
not wait. -/
def LazyOp.Safe (s : Resizing) : LazyOp → Prop
  | .start n => s.old.isEmpty = true ∧ s.gen.numBuckets ≤ n ∧ n ≤ 2 ^ 31 ∧
    s.shardCount ∣ s.gen.numBuckets
  | .migrate chunk => chunk < s.gen.chunkCount
  | .finish => s.allDone = true → ∀ o ∈ s.old, o.words = []
  | .insert key _ => htcFindInOldGen s.recs key.toNat s.old = none
  | _ => True

instance LazyOp.Safe.decide (s : Resizing) : ∀ op : LazyOp, Decidable (op.Safe s)
  | .start n => inferInstanceAs
      (Decidable (s.old.isEmpty = true ∧ s.gen.numBuckets ≤ n ∧ n ≤ 2 ^ 31 ∧
        s.shardCount ∣ s.gen.numBuckets))
  | .migrate chunk => inferInstanceAs (Decidable (chunk < s.gen.chunkCount))
  | .ensure _ => isTrue trivial
  | .finish => inferInstanceAs (Decidable (s.allDone = true → ∀ o ∈ s.old, o.words = []))
  | .insert key _ => inferInstanceAs (Decidable (htcFindInOldGen s.recs key.toNat s.old = none))
  | .update _ _ => isTrue trivial
  | .remove _ => isTrue trivial
  | .find _ _ => isTrue trivial

/-- The replies that the map allows. A key that waits in the old generation may be missed, except by
`htc_insert`. -/
def LazyOp.Answers (m : KeyMap) (s : Resizing) (e : HtcError) (out : Option ℕ) : LazyOp → Prop
  | .start _ => e = .ok ∨ e = .oom ∧ false ∈ s.mem
  | .migrate _ => e = .ok
  | .ensure _ => e = .ok
  | .finish => e = .ok
  | .insert key _ => (e = .duplicate ↔ m key ≠ none) ∧
    (e = .ok ∨ e = .duplicate ∨ e = .oom ∧ false ∈ s.mem)
  | .update key _ => e = .ok ∧ m key ≠ none ∨
      e = .notFound ∧ (m key = none ∨ htcFindInOldGen s.recs key.toNat s.old ≠ none)
  | .remove key => e = .ok ∧ m key ≠ none ∨
      e = .notFound ∧ (m key = none ∨ htcFindInOldGen s.recs key.toNat s.old ≠ none)
  | .find key want => (∃ v, m key = some v ∧ e = .ok ∧ out = if want then some v.toNat else none) ∨
      (m key = none ∨ htcFindInOldGen s.recs key.toNat s.old ≠ none) ∧ e = .notFound ∧
        out = if want then some 0 else none

/-- The calls answer what the map prescribes. -/
def LazyBehavesAs : KeyMap → Resizing → List LazyOp → Prop
  | m, s, [] => LazyAgrees m s
  | m, s, op :: ops => LazyAgrees m s ∧ ∃ e out s', op.run s = some (e, out, s') ∧
      op.Answers m s e out ∧ LazyBehavesAs (op.apply e m) s' ops

/-- Every call of a run meets its condition, and none of them starts `htc_grow`. -/
def LazySafe : List LazyOp → Resizing → Prop
  | [], _ => True
  | op :: ops, s =>
    match op.run s with
    | none => False
    | some (_, _, s') => op.Safe s ∧ LazySafe ops s'

instance LazySafe.decide : ∀ ops s, Decidable (LazySafe ops s)
  | [], _ => isTrue trivial
  | op :: ops, s =>
    match h : op.run s with
    | none => isFalse (by rw [LazySafe, h]; exact id)
    | some (e, out, s') =>
      have := LazySafe.decide ops s'
      decidable_of_iff (op.Safe s ∧ LazySafe ops s') (by rw [LazySafe, h])

/-- After the migrations of its own call, the key does not wait. -/
def Resizing.Moved (s : Resizing) (h : ℕ) : Prop :=
  htcFindInOldGen (s.ensure h).recs h (s.ensure h).old = none

/-- What a call needs so that no entry is lost or doubled. The global stash, into which neither the
duplicate check of `htc_insert` nor `htc_update` looks, does not hold the key; and a key that is
inserted does not wait any more. -/
def LazyOp.Fits (s : Resizing) : LazyOp → Prop
  | .start n => s.old.isEmpty = true ∧ s.gen.numBuckets ≤ n ∧ n ≤ 2 ^ 31 ∧
    s.ShardsKeep (resizeBuckets n)
  | .finish => s.allDone = true → ∀ o ∈ s.old, o.words = []
  | .insert key _ => ¬ s.Hidden key.toNat ∧ s.Moved key.toNat
  | .update key _ => ¬ s.Hidden key.toNat
  | _ => True

/-- The condition of a run is enough while the global stash is empty. -/
lemma Resizing.Ok.fits {op : LazyOp} (hs : s.Ok) (hst : ∀ j, s.stash.slots j = none)
    (hsafe : op.Safe s) : op.Fits s := by
  cases op with
  | start n =>
    obtain ⟨ho, hle, hn, hd⟩ := hsafe
    obtain ⟨j, k, hj, hk⟩ := grows_resize hs.pow hle hn s.gen.seed
    refine ⟨ho, hle, hn, hs.settled.shardsKeep hd ?_⟩
    rw [hj, show resizeBuckets n = 2 ^ (j + k) from hk]
    exact pow_dvd_pow 2 (Nat.le_add_right j k)
  | insert key value =>
    obtain ⟨hs₁, hsh⟩ := hs.ensure key.toNat
    exact ⟨not_hidden hst _, hs₁.findInOldGen_none.mpr fun v hv =>
      hs.findInOldGen_none.mp hsafe v (hsh.waits hv)⟩
  | update key value => exact not_hidden hst _
  | finish => exact hsafe
  | migrate chunk => trivial
  | ensure bucket => trivial
  | remove key => trivial
  | find key want => trivial

/-- A call that meets its condition follows the map. -/
lemma Resizing.Ok.follows {op : LazyOp} {e : HtcError} {out : Option ℕ} (hs : s.Ok)
    (hr : Represents s.Entry m) (hfit : op.Fits s) (he : op.run s = some (e, out, s')) :
    op.Answers m s e out ∧ s'.Ok ∧ Represents s'.Entry (op.apply e m) := by
  -- a key that is nowhere to be found is absent, or waits in the old generation
  have hmiss : ∀ {s₁ : Resizing} {key : UInt64}, Shifted s s₁ → (∀ u, ¬ s₁.Has key.toNat u) →
      m key = none ∨ htcFindInOldGen s.recs key.toNat s.old ≠ none := by
    intro s₁ key hsh hn
    rw [or_iff_not_imp_right, not_not]
    intro hf
    refine hr.none_iff.mpr fun u hu => ?_
    rcases hsh.entry.mpr hu with hh | hw
    · exact hn u hh
    · exact hs.findInOldGen_none.mp hf u (hsh.waits hw)
  have hpresent : ∀ {key : UInt64}, (∃ u, s.Entry key.toNat u) → m key ≠ none := by
    rintro key ⟨u, hu⟩ hm
    exact hr.none_iff.mp hm u hu
  cases op with
  | start n =>
    obtain ⟨ho, hle, hn, hk⟩ := hfit
    rw [List.isEmpty_iff] at ho
    rcases htcResizeStart_cases n s with ⟨mem, hc⟩ | ⟨mem, hc, hf⟩
    · rw [LazyOp.run, hc] at he
      cases he
      obtain ⟨hok, -, hent⟩ := hs.started ho hle hn hk mem
      exact ⟨.inl rfl, hok, hr.congr hent⟩
    · rw [LazyOp.run, hc] at he
      cases he
      exact ⟨.inr ⟨rfl, hf⟩, ⟨hs.settled, hs.chain, hs.pow, hs.cache, hs.size⟩, hr⟩
  | migrate chunk =>
    cases he
    obtain ⟨hok, hsh⟩ := hs.migrateChunk chunk
    exact ⟨rfl, hok, hr.congr fun _ _ => hsh.entry⟩
  | ensure bucket =>
    cases he
    obtain ⟨hok, hsh⟩ := hs.ensureChunk bucket
    exact ⟨rfl, hok, hr.congr fun _ _ => hsh.entry⟩
  | finish =>
    cases he
    obtain ⟨hok, hent⟩ := hs.finish hfit
    exact ⟨rfl, hok, hr.congr hent⟩
  | insert key value =>
    obtain ⟨⟨e', s₁⟩, hi, he⟩ := Option.map_eq_some_iff.mp he
    cases he
    obtain ⟨hok, hi⟩ := hs.insertLazy hfit.1 ((hs.ensure _).1.findInOldGen_none.mp hfit.2) hi
    refine ⟨?_, hok, ?_⟩
    · cases hi with
      | duplicate same present => exact ⟨⟨fun _ => hpresent present, fun _ => rfl⟩, .inr (.inl rfl)⟩
      | oom same absent fails =>
        exact ⟨⟨fun h => (HtcError.noConfusion h), fun hm => absurd (hr.none_iff.mpr absent) hm⟩,
          .inr (.inr ⟨rfl, fails⟩)⟩
      | ok entered absent =>
        exact ⟨⟨fun h => (HtcError.noConfusion h), fun hm => absurd (hr.none_iff.mpr absent) hm⟩,
          .inl rfl⟩
    · cases hi with
      | duplicate same present => exact hr.congr same
      | oom same absent fails => exact hr.congr same
      | ok entered absent =>
        refine hr.put fun k u => (entered k u).trans ?_
        split
        · next hk =>
          rw [hk]
          exact ⟨fun hu => hu.elim And.right fun hu => absurd hu (absent u),
            fun hu => .inl ⟨rfl, hu⟩⟩
        · next hk => exact or_iff_right fun hc => hk hc.1
  | update key value =>
    obtain ⟨e', s₁, hu, hok, hcase⟩ := hs.updateLazy hfit value.toNat
    rw [LazyOp.run, hu] at he
    cases he
    have hsh := (hs.ensure key.toNat).2
    rcases hcase with ⟨rfl, hp, hent⟩ | ⟨rfl, rfl, hn⟩
    · exact ⟨.inl ⟨rfl, hpresent hp⟩, hok, hr.put hent⟩
    · exact ⟨.inr ⟨rfl, hmiss hsh hn⟩, hok, hr.congr fun _ _ => hsh.entry⟩
  | remove key =>
    obtain ⟨e', s₁, hu, hok, hcase⟩ := hs.removeLazy key.toNat
    rw [LazyOp.run, hu] at he
    cases he
    have hsh := (hs.ensure key.toNat).2
    rcases hcase with ⟨rfl, hp, hent⟩ | ⟨rfl, rfl, hn⟩
    · exact ⟨.inl ⟨rfl, hpresent hp⟩, hok, hr.erase hent⟩
    · exact ⟨.inr ⟨rfl, hmiss hsh hn⟩, hok, hr.congr fun _ _ => hsh.entry⟩
  | find key want =>
    obtain ⟨e', out', t', hf, -, hok, hent, hcase⟩ := hs.find key.toNat want
    rw [LazyOp.run, hf] at he
    cases he
    refine ⟨?_, hok, hr.congr hent⟩
    rcases hcase with ⟨u, rfl, rfl, hu⟩ | ⟨rfl, rfl, hn⟩
    · obtain ⟨w, rfl, hw⟩ := hr.some_iff.mp hu
      exact .inl ⟨w, hw, rfl, rfl⟩
    · exact .inr ⟨hmiss (.refl s) hn, rfl, rfl⟩

/-- What every call leaves as it is: the number of shards and an empty place of the global stash. -/
structure Framed (c c' : Core) : Prop where
  shardCount : c'.shardCount = c.shardCount
  stash : ∀ j, c.stash.slots j = none → c'.stash.slots j = none

/-- Nothing changes by doing nothing. -/
lemma Framed.refl (c : Core) : Framed c c := ⟨rfl, fun _ hj => hj⟩

/-- Frames compose. -/
lemma Framed.trans {c'' : Core} (h : Framed c c') (h' : Framed c' c'') : Framed c c'' :=
  ⟨h'.shardCount.trans h.shardCount, fun j hj => h'.stash j (h.stash j hj)⟩

/-- Migrations leave the shards and the stashes alone. -/
lemma Shifted.framed (hsh : Shifted s s') : Framed s.toCore s'.toCore := by
  rw [hsh.core]
  exact ⟨rfl, fun _ hj => hj⟩

/-- `htc_insert` after its migrations. -/
lemma Resizing.Ok.insertEnsured_framed {e : HtcError} (hs : s.Ok)
    (he : Htc.insertEnsured h v s = some (e, s')) : Framed s.toCore s'.toCore := by
  have hst := insertAttempt_stored hs.settled.toStored h v
  have hof : ∀ {t' : Table}, Kept s.toCore t'.toCore → Framed s.toCore t'.toCore :=
    fun hk => ⟨hk.shardCount, fun j hj => by rw [hk.stash]; exact hj⟩
  rw [Htc.insertEnsured] at he
  generalize insertAttempt h v s.toTable = a at hst he
  rcases a with ⟨e', t'⟩ | t' | t'
  · cases he
    exact hof hst.2.2.2
  · obtain ⟨s₂, hd, he⟩ := Option.map_eq_some_iff.mp he
    cases he
    rw [insertDoneLazy] at hd
    dsimp only at hd
    split at hd
    · cases hd
    · cases hd
      exact hof hst.2.2.2
  · cases he

/-- `htc_update` after its migrations. -/
lemma Resizing.Ok.updateEnsured_framed (hs : s.Ok) (hh : ¬ s.Hidden h) (hens : s.ensure h = s)
    (v : ℕ) : Framed s.toCore (Htc.updateEnsured h v s).2.toCore := by
  rcases hs.updateEnsured (v := v) hh hens with ⟨j, -, -, hu⟩ | ⟨hu, -⟩
  · rw [hu]
    exact ⟨rfl, fun _ hj => hj⟩
  · rw [hu]
    exact .refl _

/-- The frame of a call. -/
lemma Resizing.Ok.framed {op : LazyOp} {e : HtcError} {out : Option ℕ} (hs : s.Ok)
    (hfit : op.Fits s) (he : op.run s = some (e, out, s')) : Framed s.toCore s'.toCore := by
  cases op with
  | start n =>
    rcases htcResizeStart_cases n s with ⟨mem, hc⟩ | ⟨mem, hc, -⟩
    · rw [LazyOp.run, hc] at he
      cases he
      exact ⟨rfl, fun _ hj => hj⟩
    · rw [LazyOp.run, hc] at he
      cases he
      exact ⟨rfl, fun _ hj => hj⟩
  | migrate chunk =>
    cases he
    exact (hs.migrateChunk chunk).2.framed
  | ensure bucket =>
    cases he
    exact (hs.ensureChunk bucket).2.framed
  | finish =>
    cases he
    rw [htcResizeFinish]
    split
    · exact .refl _
    split
    · exact ⟨rfl, fun _ hj => hj⟩
    · exact .refl _
  | insert key value =>
    obtain ⟨⟨e', s₁⟩, hi, he⟩ := Option.map_eq_some_iff.mp he
    cases he
    obtain ⟨hs₁, hsh⟩ := hs.ensure key.toNat
    exact hsh.framed.trans (hs₁.insertEnsured_framed hi)
  | update key value =>
    cases he
    obtain ⟨hs₁, hsh⟩ := hs.ensure key.toNat
    exact hsh.framed.trans
      (hs₁.updateEnsured_framed (hsh.hidden.not.mpr hfit) (hs.ensure_ensure _) _)
  | remove key =>
    obtain ⟨⟨e', s₁⟩, hr, he⟩ := Option.map_eq_some_iff.mp he
    cases he
    obtain ⟨hs₁, hsh⟩ := hs.ensure key.toNat
    refine hsh.framed.trans ?_
    rw [Htc.removeLazy] at hr
    rcases hs₁.removeEnsured (hs.ensure_ensure key.toNat) with ⟨t', hu, hd, -⟩ | ⟨hu, -⟩
    · rw [hu] at hr
      cases hr
      exact ⟨hd.shardCount, hd.stash⟩
    · rw [hu] at hr
      cases hr
      exact .refl _
  | find key want =>
    obtain ⟨e', out', t', hf, hcore, -⟩ := hs.find key.toNat want
    rw [LazyOp.run, hf] at he
    cases he
    change Framed s.toCore t'.toCore
    rw [hcore]
    exact .refl _

/-- The calls follow the map while they meet their conditions. -/
lemma Resizing.Ok.behavesAs : ∀ {ops : List LazyOp} {s : Resizing} {m : KeyMap},
    s.Ok → (∀ j, s.stash.slots j = none) → Represents s.Entry m →
    LazySafe ops s → LazyBehavesAs m s ops
  | [], s, m, hs, _, hr, _ => hs.agrees hr
  | op :: ops, s, m, hs, hst, hr, hq => by
    refine ⟨hs.agrees hr, ?_⟩
    rw [LazySafe] at hq
    split at hq
    · exact hq.elim
    · next e out s' he =>
      have hfit := hs.fits hst hq.1
      obtain ⟨hans, hs', hr'⟩ := hs.follows hr hfit he
      exact ⟨e, out, s', he, hans,
        hs'.behavesAs (fun j => (hs.framed hfit he).stash j (hst j)) hr' hq.2⟩

/-- A new table, which is not under a resize. -/
def lazyCreate (cfg : Option HtcConfig) (seedCtr : ℕ) (mem : List Bool) : Resizing :=
  { htcCreate cfg seedCtr mem with
    old := []
    migrated := fun _ => false
    tableBuckets := (cfg.getD .default).buckets }

/-- A new table meets the invariant. -/
lemma lazyCreate_ok (cfg : Option HtcConfig) (seedCtr : ℕ) (mem : List Bool) :
    (lazyCreate cfg seedCtr mem).Ok := by
  have hs := htcCreate_sound cfg seedCtr mem
  have hheld : (lazyCreate cfg seedCtr mem).held = ∅ := by
    rw [Resizing.held, waiting_nil rfl, Set.union_empty]
    exact htcCreate_live cfg seedCtr mem
  refine ⟨hs.settled, .inl rfl, ?_, (fun k e he => by cases he), ?_⟩
  · obtain ⟨j, hj⟩ := doubleUntil_pow (max 4 (cfg.getD .default).initialBuckets) 31 0
    exact ⟨j, hj⟩
  · rw [hheld, Set.encard_empty]
    rfl

/-- A new table has no entries. -/
lemma lazyCreate_represents (cfg : Option HtcConfig) (seedCtr : ℕ) (mem : List Bool) :
    Represents (lazyCreate cfg seedCtr mem).Entry fun _ => none := by
  intro h v
  constructor
  · rintro (⟨i, hi, -⟩ | ⟨i, hi, -⟩)
    · exact absurd hi
        (by
          rw [show (lazyCreate cfg seedCtr mem).live = ∅ from htcCreate_live cfg seedCtr mem]
          exact id)
    · exact hi.elim
  · rintro ⟨key, value, -, -, hm⟩
    cases hm

/-- On a new table, calls that meet their conditions behave as those of a partial map, with lazy
resizes under way. -/
theorem lazy_resize_keeps_map (cfg : Option HtcConfig) (seedCtr : ℕ) (mem : List Bool)
    (ops : List LazyOp) (hq : LazySafe ops (lazyCreate cfg seedCtr mem)) :
    LazyBehavesAs (fun _ => none) (lazyCreate cfg seedCtr mem) ops :=
  (lazyCreate_ok cfg seedCtr mem).behavesAs (fun _ => rfl)
    (lazyCreate_represents cfg seedCtr mem) hq

/-- A resize from 128 to 256 buckets, with calls before, between and after the migrations of its
chunks. -/
theorem lazy_resize_keeps_map_two :
    LazyBehavesAs (fun _ => none) (lazyCreate (some ⟨128, 1, 0, false⟩) 7 [])
      [.insert 5 50, .insert 6 60, .start 256, .find 5 true, .migrate 1, .insert 9 90, .migrate 0,
        .find 6 true, .remove 6, .update 5 51, .migrate 2, .migrate 3, .finish, .find 5 true] :=
  lazy_resize_keeps_map _ 7 [] _ (by decide +kernel)

/-! ## A resize during which nothing is inserted -/

/-- The calls that bring no entry in and neither start nor finish a resize. -/
def LazyOp.carries : LazyOp → Bool
  | .migrate _ => true
  | .ensure _ => true
  | .update _ _ => true
  | .remove _ => true
  | .find _ _ => true
  | _ => false

/-- The map and the table after a list of calls. -/
def lazyRun : List LazyOp → KeyMap × Resizing → Option (KeyMap × Resizing)
  | [], r => some r
  | op :: ops, (m, s) => (op.run s).bind fun r => lazyRun ops (op.apply r.1 m, r.2.2)

/-- The resize that started with the buckets `orig`: the slots of the chunks that were migrated are
empty, the others are as they were. -/
structure Carrying (orig : Gen) (s : Resizing) (o : Gen) : Prop where
  old : s.old = [o]
  mid : Mid s.toCore o
  rooted : Rooted orig s.toCore o
  slots : ∀ x, o.slots x = if s.migrated (chunkOf x.1) then none else orig.slots x

/-- `htc_migrate_chunk` empties its chunk. -/
lemma Carrying.migrateChunk (hc : Carrying orig s o) (chunk : ℕ) :
    ∃ o', Carrying orig (htcMigrateChunk chunk s) o' ∧
    (htcMigrateChunk chunk s).migrated chunk = true := by
  have h := hc.mid.migrateSlots (l := chunkSlots chunk s.gen o)
  have hempty := hc.rooted.migrateSlots (l := chunkSlots chunk s.gen o) hc.mid
  have hlt : o.numBuckets ≤ s.gen.numBuckets := by
    obtain ⟨j, k, hj, hk⟩ := hc.mid.grows
    rw [hj, hk]
    exact Nat.pow_le_pow_right Nat.two_pos (Nat.le_add_right j k)
  rw [htcMigrateChunk, hc.old]
  dsimp only
  generalize (chunkSlots chunk s.gen o).foldl (migrateSlot s.recs) (s.gen, o) = r at h hempty
  refine ⟨r.2, ⟨rfl, h.mid, hc.rooted.moved h, fun x => ?_⟩, Function.update_self ..⟩
  change r.2.slots x = if Function.update s.migrated chunk true (chunkOf x.1) then none
    else orig.slots x
  by_cases hx : chunkOf x.1 = chunk
  · rw [hx, Function.update_self, if_pos rfl]
    by_cases hm : x ∈ chunkSlots chunk s.gen o
    · exact hempty x hm
    · rw [h.rest x hm, ← Option.not_isSome_iff_eq_none, Option.isSome_iff_exists]
      rintro ⟨w, hw⟩
      have hxb := hc.mid.lt_buckets hw
      exact hm (mem_chunkSlots.mpr ⟨hx, hxb, hxb.trans_le hlt, (hc.mid.seat x w hw).1⟩)
  · have hm : x ∉ chunkSlots chunk s.gen o := fun hm => hx (mem_chunkSlots.mp hm).1
    rw [Function.update_of_ne hx, h.rest x hm]
    exact hc.slots x

/-- `htc_ensure_chunk_migrated` empties a chunk or leaves the table as it is. -/
lemma Carrying.ensureChunk (hc : Carrying orig s o) (bucket : ℕ) :
    ∃ o', Carrying orig (htcEnsureChunkMigrated bucket s) o' := by
  rw [htcEnsureChunkMigrated]
  split
  · exact ⟨o, hc⟩
  split
  · exact ⟨o, hc⟩
  split
  · exact ⟨o, hc⟩
  · obtain ⟨o', hc', -⟩ := hc.migrateChunk (chunkOf bucket)
    exact ⟨o', hc'⟩

/-- The migrations at the start of a call. -/
lemma Carrying.ensure (hc : Carrying orig s o) (h : ℕ) : ∃ o', Carrying orig (s.ensure h) o' := by
  obtain ⟨o', hc'⟩ := hc.ensureChunk (s.gen.primary (placementHash h s.gen.seed))
  rw [Resizing.ensure]
  split
  · exact hc'.ensureChunk _
  · exact ⟨o', hc'⟩

/-- A change of the table that brings no word into its buckets. -/
lemma Carrying.client (hc : Carrying orig s o) (hok : Resizing.Ok { s with toTable := t' })
    (hg : ∀ y v, t'.gen.slots y = some v → s.gen.slots y = some v) :
    Carrying orig { s with toTable := t' } o := by
  refine ⟨hc.old, ?_,
    ⟨hc.rooted.buckets, hc.rooted.lt, hc.rooted.old, fun y v hy => hc.rooted.new y v (hg y v hy)⟩,
    hc.slots⟩
  rcases hok.chain with ho | ⟨o', ho, hm⟩
  · have he : [] = [o] := ho.symm.trans hc.old
    cases he
  · have he : [o'] = [o] := ho.symm.trans hc.old
    cases he
    exact hm

/-- A removal brings no word into the buckets. -/
lemma Dropped.slots (hd : Dropped t t' h) {y : ℕ × ℕ} {w : Word} (hy : t'.gen.slots y = some w) :
    t.gen.slots y = some w := by
  have hl : w.idx ∈ t'.live := mem_live (p := .slot y) hy
  obtain ⟨i, -, -, hlive⟩ := hd.removed.live
  have hl' : w.idx ∈ t.live := by
    rw [hlive] at hl
    exact hl.1
  obtain ⟨q, u, hu, he⟩ := hl'
  have hq := hd.words q u hu (he ▸ hl)
  have hpq := hd.placed.separate q (.slot y) u w hq hy he
  rw [hpq] at hu hq
  rw [show t'.wordAt (.slot y) = some w from hy] at hq
  cases hq
  exact hu

/-- What a call that brings no entry in leaves as it is: the bits that are set and the number of
buckets. -/
structure Carried (s s' : Resizing) : Prop where
  bits : ∀ k, s.migrated k = true → s'.migrated k = true
  buckets : s'.gen.numBuckets = s.gen.numBuckets

/-- `htc_update` after its migrations. -/
lemma Carrying.updateEnsured (hs : s.Ok) (hh : ¬ s.Hidden h) (hens : s.ensure h = s)
    (hc : Carrying orig s o) :
    Carrying orig (Htc.updateEnsured h v s).2 o ∧ Carried s (Htc.updateEnsured h v s).2 := by
  rcases hs.updateEnsured (v := v) hh hens with ⟨j, hj, hk, he⟩ | ⟨he, -⟩
  · have hc' := hc.client (hs.setValue (v := v) hj hk).1 fun _ _ hy => hy
    rw [he]
    exact ⟨hc', fun _ hk => hk, rfl⟩
  · rw [he]
    exact ⟨hc, fun _ hk => hk, rfl⟩

/-- `htc_remove` after its migrations. -/
lemma Carrying.removeEnsured (hs : s.Ok) (hens : s.ensure h = s) (hc : Carrying orig s o) :
    ∃ e s', Htc.removeEnsured h s = some (e, s') ∧ Carrying orig s' o ∧ Carried s s' := by
  rcases hs.removeEnsured hens with ⟨t', he, hd, -⟩ | ⟨he, -⟩
  · exact ⟨_, _, he, hc.client (hs.dropped hd).1 fun _ _ hy => hd.slots hy, fun _ hk => hk,
      hd.buckets⟩
  · exact ⟨_, s, he, hc, fun _ hk => hk, rfl⟩

/-- The migrations before a call. -/
lemma Shifted.carried {s₁ : Resizing} (hsh : Shifted s s₁) (hc : Carried s₁ s') : Carried s s' :=
  ⟨fun k hk => hc.bits k (hsh.bits k hk), hc.buckets.trans hsh.buckets⟩

/-- A call that brings no entry in returns and keeps the resize going. -/
lemma Carrying.step {op : LazyOp} (hs : s.Ok) (hst : ∀ j, s.stash.slots j = none)
    (hc : Carrying orig s o) (hop : op.carries = true) :
    ∃ e out s' o', op.run s = some (e, out, s') ∧ Carrying orig s' o' ∧ Carried s s' ∧
      ∀ chunk, op = .migrate chunk → s'.migrated chunk = true := by
  cases op with
  | migrate chunk =>
    obtain ⟨o', hc', hbit⟩ := hc.migrateChunk chunk
    have hsh := (hs.migrateChunk chunk).2
    refine ⟨_, _, _, o', rfl, hc', ⟨hsh.bits, hsh.buckets⟩, fun k hk => ?_⟩
    cases hk
    exact hbit
  | ensure bucket =>
    obtain ⟨o', hc'⟩ := hc.ensureChunk bucket
    have hsh := (hs.ensureChunk bucket).2
    exact ⟨_, _, _, o', rfl, hc', ⟨hsh.bits, hsh.buckets⟩, fun k hk => by cases hk⟩
  | update key value =>
    obtain ⟨hs₁, hsh⟩ := hs.ensure key.toNat
    obtain ⟨o₁, hc₁⟩ := hc.ensure key.toNat
    obtain ⟨hc', hcar⟩ := hc₁.updateEnsured (v := value.toNat) hs₁
      (hsh.hidden.not.mpr (not_hidden hst _)) (hs.ensure_ensure key.toNat)
    exact ⟨_, _, _, o₁, rfl, hc', hsh.carried hcar, fun k hk => by cases hk⟩
  | remove key =>
    obtain ⟨hs₁, hsh⟩ := hs.ensure key.toNat
    obtain ⟨o₁, hc₁⟩ := hc.ensure key.toNat
    obtain ⟨e, s', he, hc', hcar⟩ := hc₁.removeEnsured hs₁ (hs.ensure_ensure key.toNat)
    exact ⟨e, none, s', o₁, congrArg (Option.map _) he, hc', hsh.carried hcar,
      fun k hk => by cases hk⟩
  | find key want =>
    obtain ⟨e, out, t', hf, hcore, hok, -⟩ := hs.find key.toNat want
    have hg : t'.gen = s.gen := congrArg Core.gen hcore
    have hc' := hc.client hok fun _ _ hy => by
      rw [hg] at hy
      exact hy
    rw [LazyOp.run, hf]
    refine ⟨e, out, _, o, rfl, hc', ⟨fun _ hk => hk, ?_⟩, fun k hk => by cases hk⟩
    change t'.gen.numBuckets = s.gen.numBuckets
    rw [hg]
  | start n => cases hop
  | finish => cases hop
  | insert key value => cases hop

/-- A call that brings no entry in and migrates a chunk of the bitmap meets its condition. -/
lemma safe_of_carries {op : LazyOp} (hop : op.carries = true)
    (hm : ∀ chunk, op = .migrate chunk → chunk < s.gen.chunkCount) :
    op.Safe s := by
  cases op with
  | migrate chunk => exact hm chunk rfl
  | ensure bucket => trivial
  | update key value => trivial
  | remove key => trivial
  | find key want => trivial
  | start n => cases hop
  | finish => cases hop
  | insert key value => cases hop

/-- A list of calls that bring no entry in. -/
lemma Carrying.run : ∀ {ops : List LazyOp} {s : Resizing} {o : Gen} {m : KeyMap},
    s.Ok → (∀ j, s.stash.slots j = none) → Represents s.Entry m →
    Carrying orig s o → (∀ op ∈ ops, op.carries = true) →
    (∀ chunk, .migrate chunk ∈ ops → chunk < s.gen.chunkCount) →
    ∃ m' s' o', lazyRun ops (m, s) = some (m', s') ∧ s'.Ok ∧ Represents s'.Entry m' ∧
    Carrying orig s' o' ∧
      Carried s s' ∧ ∀ chunk, .migrate chunk ∈ ops → s'.migrated chunk = true
  | [], s, o, m, hs, _, hr, hc, _,
    _ => ⟨m, s, o, rfl, hs, hr, hc, ⟨fun _ hk => hk, rfl⟩, fun _ hm => by cases hm⟩
  | op :: ops, s, o, m, hs, hst, hr, hc, hops, hchunks => by
    have hop := hops op (List.mem_cons_self ..)
    obtain ⟨e, out, s₁, o₁, he, hc₁, hcar, hbit⟩ := hc.step hs hst hop
    have hsafe : op.Safe s :=
      safe_of_carries hop fun chunk hch => hchunks chunk (hch ▸ List.mem_cons_self ..)
    have hfit := hs.fits hst hsafe
    obtain ⟨-, hs₁, hr₁⟩ := hs.follows hr hfit he
    obtain ⟨m', s', o', hrun, hs', hr', hc', hcar', hbits⟩ := hc₁.run hs₁
      (fun j => (hs.framed hfit he).stash j (hst j)) hr₁
      (fun op' hm => hops op' (List.mem_cons_of_mem _ hm)) (fun chunk hm => by
        rw [Gen.chunkCount, hcar.buckets]
        exact hchunks chunk (List.mem_cons_of_mem _ hm))
    refine ⟨m', s', o', ?_, hs', hr', hc',
      ⟨fun k hk => hcar'.bits k (hcar.bits k hk), hcar'.buckets.trans hcar.buckets⟩,
      fun chunk hm => ?_⟩
    · rw [lazyRun, he]
      exact hrun
    · rcases List.mem_cons.mp hm with hm | hm
      · exact hcar'.bits chunk (hbit chunk hm.symm)
      · exact hbits chunk hm

/-- A run whose calls meet their conditions keeps the invariant, and its map that of the entries. -/
lemma Resizing.Ok.run : ∀ {ops : List LazyOp} {s s' : Resizing} {m m' : KeyMap},
    s.Ok → (∀ j, s.stash.slots j = none) → Represents s.Entry m → LazySafe ops s →
    lazyRun ops (m, s) = some (m', s') →
    s'.Ok ∧ (∀ j, s'.stash.slots j = none) ∧ Represents s'.Entry m'
  | [], s, s', m, m', hs, hst, hr, _, he => by
    cases he
    exact ⟨hs, hst, hr⟩
  | op :: ops, s, s', m, m', hs, hst, hr, hq, he => by
    obtain ⟨⟨e, out, s₁⟩, hop, he⟩ := Option.bind_eq_some_iff.mp he
    rw [LazySafe, hop] at hq
    have hfit := hs.fits hst hq.1
    obtain ⟨-, hs₁, hr₁⟩ := hs.follows hr hfit hop
    exact hs₁.run (fun j => (hs.framed hfit hop).stash j (hst j)) hr₁ hq.2 he

/-- A resize starts with every chunk still to be migrated. -/
lemma Resizing.Ok.carrying {n : ℕ} (hs : s.Ok) (hfit : (LazyOp.start n).Fits s) (mem : List Bool) :
    Carrying s.gen (s.started n mem) s.gen := by
  obtain ⟨ho, hle, hn, hk⟩ := hfit
  rw [List.isEmpty_iff] at ho
  obtain ⟨-, hm, -⟩ := hs.started ho hle hn hk mem
  refine ⟨?_, hm,
    ⟨rfl, fun x w hx => (hm.seat x w hx).1, fun _ _ hx => hx, fun y v hy => by cases hy⟩,
    fun _ => rfl⟩
  rw [Resizing.started, ho]

/-- While nothing is inserted during a resize, the words that wait are those of the chunks that were
not migrated, whatever the order of the migrations and of the other calls. When every chunk was
migrated `htc_resize_finish` drops the old generation, and the slow search finds all that the map
holds. -/
theorem lazy_resize_completes (cfg : Option HtcConfig) (seedCtr : ℕ) (mem : List Bool)
    (before ops : List LazyOp)
    (n : ℕ) (m : KeyMap) (s : Resizing) (hq : LazySafe before (lazyCreate cfg seedCtr mem))
    (hrun : lazyRun before (fun _ => none, lazyCreate cfg seedCtr mem) = some (m, s))
    (hsafe : (LazyOp.start n).Safe s) (hstart : (htcResizeStart n s).1 = true)
    (hops : ∀ op ∈ ops, op.carries = true)
    (hchunks : ∀ chunk, .migrate chunk ∈ ops → chunk < (htcResizeStart n s).2.gen.chunkCount) :
    ∃ m' s' o', lazyRun ops (m, (htcResizeStart n s).2) = some (m', s') ∧ s'.old = [o'] ∧
      (∀ x, o'.slots x = if s'.migrated (chunkOf x.1) then none else s.gen.slots x) ∧
      ((∀ chunk < (htcResizeStart n s).2.gen.chunkCount, .migrate chunk ∈ ops) →
        (htcResizeFinish s').old = [] ∧
        ∀ key : UInt64,
        htcDebugSlowFind key.toNat (htcResizeFinish s').toCore = (m' key).map UInt64.toNat) := by
  obtain ⟨hs, hst, hr⟩ := (lazyCreate_ok cfg seedCtr mem).run (fun _ => rfl)
    (lazyCreate_represents cfg seedCtr mem) hq hrun
  have hfit := hs.fits hst hsafe
  rcases htcResizeStart_cases n s with ⟨mem', hc⟩ | ⟨mem', hc, -⟩
  · have hc₀ := hs.carrying hfit mem'
    obtain ⟨ho, hle, hn, hk⟩ := hfit
    rw [List.isEmpty_iff] at ho
    obtain ⟨hs₀, -, hent⟩ := hs.started ho hle hn hk mem'
    rw [hc] at hchunks ⊢
    obtain ⟨m', s', o', he, hs', hr', hc', hcar, hbits⟩ :=
      hc₀.run hs₀ hst (hr.congr hent) hops hchunks
    refine ⟨m', s', o', he, hc'.old, hc'.slots, fun hall => ?_⟩
    have hbit : ∀ chunk < s'.gen.chunkCount, s'.migrated chunk = true := by
      intro chunk hlt
      rw [Gen.chunkCount, hcar.buckets] at hlt
      exact hbits chunk (hall chunk hlt)
    have hdone : s'.allDone = true := by
      rw [Resizing.allDone, List.all_eq_true]
      exact fun chunk hm => hbit chunk (List.mem_range.mp hm)
    -- every word of the old generation sits in a chunk of the bitmap
    have hwords : o'.words = [] := by
      rw [List.eq_nil_iff_forall_not_mem]
      intro w hw
      obtain ⟨b, j, hb, -, hw⟩ := mem_words.mp hw
      have hlt : o'.numBuckets ≤ s'.gen.numBuckets := by
        obtain ⟨i, k, hi, hk⟩ := hc'.mid.grows
        rw [hi, hk]
        exact Nat.pow_le_pow_right Nat.two_pos (Nat.le_add_right i k)
      rw [hc'.slots, if_pos (hbit _ (chunkOf_lt (hb.trans_le hlt)))] at hw
      cases hw
    obtain ⟨hs'', hent''⟩ := hs'.finish fun _ o hm => by
      rw [hc'.old, List.mem_singleton] at hm
      rw [hm]
      exact hwords
    have hold : (htcResizeFinish s').old = [] := by
      rw [htcResizeFinish, hc'.old, if_neg (by exact Bool.false_ne_true), if_pos hdone]
    refine ⟨hold, fun key => ?_⟩
    have hag := (hs''.agrees (hr'.congr hent'')).2 key
    rw [hold] at hag
    rcases hag with hf | ⟨hf, hnone⟩
    · exact hf.1
    · rw [hf, ← hnone]
      rfl
  · rw [hc] at hstart
    cases hstart

/-- A table of 128 buckets with three entries. -/
def lazyThree : Option (KeyMap × Resizing) :=
  lazyRun [.insert 5 50, .insert 6 60, .insert 7 70]
  (fun _ => none, lazyCreate (some ⟨128, 1, 0, false⟩) 7 [])

/-- The table of `lazyThree`. -/
def tableThree : Resizing := (lazyThree.map Prod.snd).getD (lazyCreate none 0 [])

/-- A resize from 128 to 256 buckets whose four chunks are migrated between other calls. -/
theorem lazy_resize_completes_four : ∃ m m' s', lazyThree = some (m, tableThree) ∧
    lazyRun [.migrate 1, .find 5 true, .migrate 0, .remove 6, .migrate 0, .update 7 71, .migrate 3,
      .migrate 2]
      (m, (htcResizeStart 256 tableThree).2) = some (m', s') ∧ (htcResizeFinish s').old = [] := by
  have hsome : lazyThree.isSome = true := by decide +kernel
  obtain ⟨⟨m, s⟩, hrun⟩ := Option.isSome_iff_exists.mp hsome
  have hs : s = tableThree := by
    rw [tableThree, hrun]
    rfl
  subst hs
  have hcount : (htcResizeStart 256 tableThree).2.gen.chunkCount = 4 := by decide +kernel
  obtain ⟨m', s', -, he, -, -, hfin⟩ := lazy_resize_completes (some ⟨128, 1, 0, false⟩) 7 []
    [.insert 5 50, .insert 6 60, .insert 7 70]
    [.migrate 1, .find 5 true, .migrate 0, .remove 6, .migrate 0, .update 7 71, .migrate 3,
      .migrate 2] 256 m tableThree
    (by decide +kernel) hrun (by decide +kernel) (by decide +kernel) (by decide) (fun chunk hm => by
      rw [hcount]
      simp only [List.mem_cons, LazyOp.migrate.injEq, reduceCtorEq, List.not_mem_nil, or_false,
        false_or] at hm
      omega)
  refine ⟨m, m', s', hrun, he, (hfin ?_).1⟩
  rw [hcount]
  decide

end Draugr.Htc
