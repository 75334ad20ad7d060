import Draugr.Htc.Lazy
import Draugr.Htc.Loss

/-!
# Answers during a lazy resize

`htc_find` looks into the old generation only while its state is `HTC_GEN_FREEZING`, but
`htc_resize_start` sets `HTC_GEN_OLD`. So a key that waits for its migration is not found
(`resize_loses_key`), and `htc_remove`, which migrates two chunks first, misses it unless its word
was in one of them. Where no call is about a key that still waits, the calls answer exactly as those
of a partial map (`resize_keeps_map`). The resize may start from every table that a run without a
loss leads to: one that was grown, and one whose global stash is in use.
-/

namespace Draugr.Htc
open Draugr.Lib

variable {c c' : Core} {s s' : Resizing} {t t' : Table} {h v i : ℕ} {m : KeyMap}

/-! ## Tables that a resize can start from -/

/-- A call changes the number of buckets by doublings only, and leaves the number of shards. -/
structure Reshaped (c c' : Core) : Prop where
  buckets : ∃ j, c'.gen.numBuckets = c.gen.numBuckets * 2 ^ j
  shardCount : c'.shardCount = c.shardCount

/-- The same geometry. -/
lemma Reshaped.of_eq (hb : c'.gen.numBuckets = c.gen.numBuckets)
    (hs : c'.shardCount = c.shardCount) : Reshaped c c' :=
  ⟨⟨0, hb.trans (Nat.mul_one _).symm⟩, hs⟩

/-- Changes of the geometry compose. -/
lemma Reshaped.trans {c'' : Core} (hr : Reshaped c c') (hr' : Reshaped c' c'') :
    Reshaped c c'' := by
  obtain ⟨j, hj⟩ := hr.buckets
  obtain ⟨k, hk⟩ := hr'.buckets
  exact ⟨⟨j + k, by rw [hk, hj, mul_assoc, ← pow_add]⟩, hr'.shardCount.trans hr.shardCount⟩

/-- A grow doubles the buckets, or fails. -/
lemma Grown.reshaped {reseed : Bool} {e : HtcError} (hg : Grown reseed t e t')
    (hs : Stored t.toCore) : Reshaped t.toCore t'.toCore := by
  rcases hg.core with ⟨-, -, g, st, he, hc⟩ | ⟨-, hc | hc⟩
  · have hf :=
      ((hs.emptied (t.gen.numBuckets * 2) (growSeed reseed t)).rehash (hs.remaining _ _) he).frame
    have hnum : g.numBuckets = t.gen.numBuckets * 2 := hf.numBuckets
    rw [hc]
    exact ⟨⟨1, hnum⟩, rfl⟩
  · rw [hc]
    exact .of_eq rfl rfl
  · rw [hc]
    exact .of_eq rfl rfl

/-- The attempts of `htc_insert`. -/
lemma insertLoop_reshaped (h v : ℕ) : ∀ k {t : Table}, Stored t.toCore →
    Stored (insertLoop h v k t).2.toCore ∧ Reshaped t.toCore (insertLoop h v k t).2.toCore
  | 0, t, hs => ⟨hs, .of_eq rfl rfl⟩
  | k + 1, t, hs => by
    have ha := insertAttempt_stored hs h v
    rw [insertLoop]
    generalize insertAttempt h v t = a at ha
    rcases a with ⟨e, t'⟩ | t' | t'
    · exact ⟨ha.1, .of_eq ha.2.2.2.numBuckets ha.2.2.2.shardCount⟩
    · have hk : Reshaped t.toCore t'.toCore := .of_eq ha.2.2.2.numBuckets ha.2.2.2.shardCount
      dsimp only
      rcases insertDone_cases t' with ⟨-, hd⟩ | ⟨-, hd⟩
      · rw [hd]
        have hg := htcGrow_grown false { t' with size := t'.size + 1 }
        exact ⟨hg.stored ha.1, hk.trans (hg.reshaped ha.1)⟩
      · rw [hd]
        exact ⟨ha.1, hk⟩
    · have hk : Reshaped t.toCore t'.toCore := .of_eq ha.2.2.2.numBuckets ha.2.2.2.shardCount
      have hg := htcGrow_grown true t'
      dsimp only
      generalize htcGrow true t' = r at hg
      rcases r with ⟨e, t''⟩
      have hs'' := hg.stored ha.1
      have hk'' := hk.trans (hg.reshaped ha.1)
      cases e with
      | ok =>
        obtain ⟨hs₃, hk₃⟩ := insertLoop_reshaped h v k hs''
        exact ⟨hs₃, hk''.trans hk₃⟩
      | _ => exact ⟨hs'', hk''⟩

/-- The attempts of `htc_upsert`. -/
lemma upsertLoop_reshaped (h v : ℕ) : ∀ k {t : Table}, Stored t.toCore →
    Reshaped t.toCore (upsertLoop h v k t).2.toCore
  | 0, t, _ => .of_eq rfl rfl
  | k + 1, t, hs => by
    rw [upsertLoop]
    cases htcSearch t.toCore h true with
    | some p => exact .of_eq rfl rfl
    | none =>
      have hi := insertLoop_reshaped h v 4 hs
      change Stored (htcInsert h v t).2.toCore ∧ Reshaped _ (htcInsert h v t).2.toCore at hi
      dsimp only
      generalize htcInsert h v t = r at hi
      rcases r with ⟨e, t'⟩
      cases e with
      | duplicate => exact hi.2.trans (upsertLoop_reshaped h v k hi.1)
      | _ => exact hi.2

/-- The geometry after a call on a table in which nothing is lost. -/
lemma Sound.reshaped (hs : Sound t) {op : HtcOp} {e : HtcError} {out : Option ℕ}
    (he : op.run t = some (e, out, t')) : Reshaped t.toCore t'.toCore := by
  cases op with
  | insert key value =>
    obtain ⟨-, -, rfl⟩ := he
    exact (insertLoop_reshaped _ _ 4 hs.settled.toStored).2
  | upsert key value =>
    obtain ⟨-, -, rfl⟩ := he
    exact upsertLoop_reshaped _ _ 4 hs.settled.toStored
  | update key value =>
    obtain ⟨-, -, rfl⟩ := he
    rw [htcUpdate]
    cases htcSearch t.toCore key.toNat true with
    | some p => exact .of_eq rfl rfl
    | none => exact .of_eq rfl rfl
  | remove key =>
    rcases htcRemove_placed hs.settled.placed key.toNat with ⟨t₁, hr, hd⟩ | ⟨hr, -⟩
    · rw [HtcOp.run, hr] at he
      cases he
      exact .of_eq hd.buckets hd.shardCount
    · rw [HtcOp.run, hr] at he
      cases he
      exact .of_eq rfl rfl
  | find key want =>
    rcases htcFind_settled hs.settled hs.cache key.toNat want with
      ⟨u, t₁, hr, -, -, hrest⟩ | ⟨hr, -⟩
    · rw [HtcOp.run, hr] at he
      cases he
      rw [hrest]
      exact .of_eq rfl rfl
    · rw [HtcOp.run, hr] at he
      cases he
      exact .of_eq rfl rfl
  | grow reseed =>
    obtain ⟨-, -, rfl⟩ := he
    exact (htcGrow_grown reseed t).reshaped hs.settled.toStored

/-- A call leaves a table that stands for a map. -/
lemma Sound.maps (hs : Sound t) {op : HtcOp} {e : HtcError} {out : Option ℕ} (hr : Rep t.toCore m)
    (hsafe : op.Safe t) (he : op.run t = some (e, out, t')) : ∃ m', Rep t'.toCore m' := by
  by_cases hu : ∃ key value, op = .update key value
  · obtain ⟨key, value, rfl⟩ := hu
    obtain ⟨-, -, rfl⟩ := he
    rcases htcUpdate_settled hs.settled key.toNat value.toNat with ⟨j, hu, -⟩ | ⟨hu, -⟩
    · rw [hu]
      -- the record that is written may belong to another key, or to none
      by_cases hj : j ∈ t.live
      · have hk : t.keyOf j = (UInt64.ofNat (t.keyOf j)).toNat :=
          (UInt64.toNat_ofNat_of_lt' (hs.keys j hj)).symm
        have hput : Rep _ (Function.update m (UInt64.ofNat (t.keyOf j)) (some value)) :=
          hr.put (hk ▸ hs.settled.has_setValue hj rfl)
        exact ⟨_, hput⟩
      · refine ⟨m, hr.same ⟨rfl, fun i hi => ?_⟩⟩
        refine Function.update_of_ne ?_ ..
        rintro rfl
        exact hj hi
    · rw [hu]
      exact ⟨m, hr⟩
  · obtain ⟨e', out', t'', he', -, -, hr'⟩ :=
      hs.follows hr hsafe fun key value heq => absurd ⟨key, value, heq⟩ hu
    rw [he] at he'
    cases he'
    exact ⟨_, hr'⟩

/-- The tables that a lazy resize may start from. -/
structure Startable (t : Table) : Prop where
  sound : Sound t
  pow : ∃ j, t.gen.numBuckets = 2 ^ j
  shards : 0 < t.shardCount
  maps : ∃ m, Rep t.toCore m

/-- A run without a loss leads to such a table. -/
lemma Startable.run : ∀ {ops : List HtcOp} {t t' : Table}, Startable t → SafeRun ops t →
    runOps ops t = some t' → Startable t'
  | [], t, t', hs, _, he => by
    cases he
    exact hs
  | op :: ops, t, t', hs, hsafe, he => by
    obtain ⟨⟨e, out, t₁⟩, hop, he⟩ := Option.bind_eq_some_iff.mp he
    obtain ⟨e', out', t₂, hop', hs₁⟩ := hs.sound.step hsafe.1
    rw [hop] at hop'
    cases hop'
    have hshape := hs.sound.reshaped hop
    obtain ⟨m, hm⟩ := hs.maps
    refine Startable.run ⟨hs₁, ?_, ?_, hs.sound.maps hm hsafe.1 hop⟩ (hsafe.2 _ _ _ hop) he
    · obtain ⟨j, hj⟩ := hs.pow
      obtain ⟨k, hk⟩ := hshape.buckets
      exact ⟨j + k, by rw [hk, hj, pow_add]⟩
    · rw [hshape.shardCount]
      exact hs.shards

/-- A table that is not under a resize. -/
def Table.resizing (t : Table) : Resizing :=
  { t with
    old := []
    migrated := fun _ => false
    tableBuckets := t.gen.numBuckets }

/-- A new table. -/
lemma startable_create (cfg : Option HtcConfig) (seedCtr : ℕ) (mem : List Bool) :
    Startable (htcCreate cfg seedCtr mem) where
  sound := htcCreate_sound cfg seedCtr mem
  pow := doubleUntil_pow (max 4 (cfg.getD .default).initialBuckets) 31 0
  shards := by
    refine lt_min ?_ (le_doubleUntil _ 31 1)
    split
    · decide
    · exact Nat.pos_of_ne_zero ‹_›
  maps := by
    refine ⟨fun _ => none, fun h v => ⟨?_, ?_⟩⟩
    · rintro ⟨i, hi, -⟩
      rw [htcCreate_live] at hi
      exact hi.elim
    · rintro ⟨key, value, -, -, hm⟩
      cases hm

/-- Such a table meets the invariant of the lazy resizes. -/
lemma Startable.ok (hs : Startable t) : t.resizing.Ok := by
  have hheld : t.resizing.held = t.live := by
    rw [Resizing.held, waiting_nil rfl, Set.union_empty]
    rfl
  refine ⟨hs.sound.settled, .inl rfl, hs.pow, fun k e he => ?_, ?_⟩
  · rw [hheld]
    exact hs.sound.cache k e he
  · rw [hheld]
    exact hs.sound.size

/-- Its entries are those of its map. -/
lemma Rep.represents (hr : Rep t.toCore m) : Represents t.resizing.Entry m := by
  intro h v
  refine (or_iff_left ?_).trans (hr h v)
  rintro ⟨i, hi, -⟩
  exact hi

/-! ## Calls that answer exactly -/

/-- `htc_stash_find` does not find the key in the global stash. -/
def Core.Shown (c : Core) (h : ℕ) : Prop :=
  htcStashFind c.stash c.recs h (tag16 (placementHash h c.gen.seed)) = none

/-- A key that is not found in the global stash is not there. -/
lemma Settled.not_hidden (hs : Settled c) (hh : c.Shown h) : ¬ c.Hidden h := by
  rintro ⟨i, w, hw, rfl⟩
  have hp : c.wordAt (.global i) = some w := hw
  have hmiss := htcStashFind_none hs.stash hh (hs.seat _ _ hp) hw
  have hfor : w.isFor c.recs (c.keyOf w.idx) (tag16 (placementHash (c.keyOf w.idx) c.gen.seed)) =
      true := isFor_iff.mpr ⟨hs.tag _ _ hp, rfl, hs.flags _ (mem_live hp)⟩
  rw [hfor] at hmiss
  cases hmiss

/-- Every word of a shard stash keeps its shard number with `n` buckets. -/
def Core.keepsShards (c : Core) (n : ℕ) : Bool :=
  (List.range c.shardCount).all fun b => (List.range stashMax).all fun j =>
    ((c.shards b).slots j).all fun w => shardOf (c.hashOf w.idx % n) c.shardCount == b

/-- The check covers every stash. -/
lemma Settled.shardsKeep_of_keepsShards {n : ℕ} (hs : Settled c) (hpos : 0 < c.shardCount)
    (hk : c.keepsShards n = true) : c.ShardsKeep n := by
  intro b j w hw
  obtain ⟨hj, hb⟩ := hs.seat (.shard b j) w hw
  have hlt : b < c.shardCount := by
    rw [hb]
    exact Nat.mod_lt _ hpos
  rw [Core.keepsShards, List.all_eq_true] at hk
  have hk := List.all_eq_true.mp (hk b (List.mem_range.mpr hlt)) j (List.mem_range.mpr hj)
  rw [hw, Option.all_some, beq_iff_eq] at hk
  exact hk

/-- What a call needs to lose no entry and to answer exactly. A resize starts from one generation,
does not make the table smaller and moves no word of a stash to another shard; a chunk is one of the
bitmap; a generation that is dropped is empty. A key that is looked for does not wait, and a key
that is inserted, updated or removed does not wait after the migrations of the call; the global
stash does not hold a key that is inserted or updated. -/
def LazyOp.Exact (s : Resizing) : LazyOp → Prop
  | .start n => s.old.isEmpty = true ∧ s.gen.numBuckets ≤ n ∧ n ≤ 2 ^ 31 ∧
    s.keepsShards (resizeBuckets n) = true
  | .migrate chunk => chunk < s.gen.chunkCount
  | .ensure _ => True
  | .finish => s.allDone = true → ∀ o ∈ s.old, o.words = []
  | .insert key _ => s.Shown key.toNat ∧ s.Moved key.toNat
  | .update key _ => s.Shown key.toNat ∧ s.Moved key.toNat
  | .remove key => s.Moved key.toNat
  | .find key _ => htcFindInOldGen s.recs key.toNat s.old = none

instance Core.Shown.decide (c : Core) (h : ℕ) : Decidable (c.Shown h) :=
  inferInstanceAs (Decidable (_ = none))

instance Resizing.Moved.decide (s : Resizing) (h : ℕ) : Decidable (s.Moved h) :=
  inferInstanceAs (Decidable (_ = none))

instance LazyOp.Exact.decide (s : Resizing) : ∀ op : LazyOp, Decidable (op.Exact s)
  | .start n => inferInstanceAs
      (Decidable (s.old.isEmpty = true ∧ s.gen.numBuckets ≤ n ∧ n ≤ 2 ^ 31 ∧
        s.keepsShards (resizeBuckets n) = true))
  | .migrate chunk => inferInstanceAs (Decidable (chunk < s.gen.chunkCount))
  | .ensure _ => isTrue trivial
  | .finish => inferInstanceAs (Decidable (s.allDone = true → ∀ o ∈ s.old, o.words = []))
  | .insert key _ => inferInstanceAs (Decidable (s.Shown key.toNat ∧ s.Moved key.toNat))
  | .update key _ => inferInstanceAs (Decidable (s.Shown key.toNat ∧ s.Moved key.toNat))
  | .remove key => inferInstanceAs (Decidable (s.Moved key.toNat))
  | .find key _ => inferInstanceAs (Decidable (htcFindInOldGen s.recs key.toNat s.old = none))

/-- Such a call loses nothing. -/
lemma Resizing.Ok.fits_of_exact {op : LazyOp} (hs : s.Ok) (hpos : 0 < s.shardCount)
    (hq : op.Exact s) : op.Fits s := by
  cases op with
  | start n =>
    obtain ⟨ho, hle, hn, hk⟩ := hq
    exact ⟨ho, hle, hn, hs.settled.shardsKeep_of_keepsShards hpos hk⟩
  | insert key value => exact ⟨hs.settled.not_hidden hq.1, hq.2⟩
  | update key value => exact hs.settled.not_hidden hq.1
  | finish => exact hq
  | migrate chunk => trivial
  | ensure bucket => trivial
  | remove key => trivial
  | find key want => trivial

/-- The replies that the map prescribes; `fails` says that an allocation may fail. The calls of the
table answer as they do without a resize. -/
def LazyOp.Replies (m : KeyMap) (fails : Prop) (e : HtcError) (out : Option ℕ) : LazyOp → Prop
  | .start _ => e = .ok ∨ e = .oom ∧ fails
  | .migrate _ => e = .ok
  | .ensure _ => e = .ok
  | .finish => e = .ok
  | .insert key value => (HtcOp.insert key value).Answers m fails e out
  | .update key value => (HtcOp.update key value).Answers m fails e out
  | .remove key => (HtcOp.remove key).Answers m fails e out
  | .find key want => (HtcOp.find key want).Answers m fails e out

/-- A key without a word in the new generation does not belong to the map if it does not wait after
the migrations of its call. -/
lemma Resizing.Ok.absent (hs : s.Ok) {key : UInt64} (hr : Represents s.Entry m)
    (hq : s.Moved key.toNat) (hn : ∀ u, ¬ (s.ensure key.toNat).Has key.toNat u) : m key = none := by
  obtain ⟨hs₁, hsh⟩ := hs.ensure key.toNat
  refine hr.none_iff.mpr fun u hu => ?_
  rcases hsh.entry.mpr hu with hh | hw
  · exact hn u hh
  · exact hs₁.findInOldGen_none.mp hq u hw

/-- Such a call answers what the map prescribes. -/
lemma Resizing.Ok.replies {op : LazyOp} {e : HtcError} {out : Option ℕ} (hs : s.Ok)
    (hpos : 0 < s.shardCount) (hr : Represents s.Entry m) (hq : op.Exact s)
    (he : op.run s = some (e, out, s')) : op.Replies m (false ∈ s.mem) e out := by
  have hans := (hs.follows hr (hs.fits_of_exact hpos hq) he).1
  have hpresent : ∀ {key : UInt64}, (∃ u, s.Entry key.toNat u) → m key ≠ none := by
    rintro key ⟨u, hu⟩ hm
    exact hr.none_iff.mp hm u hu
  cases op with
  | start n => exact hans
  | migrate chunk => exact hans
  | ensure bucket => exact hans
  | finish => exact hans
  | insert key value => exact hans
  | update key value =>
    obtain ⟨e', s₁, hu, -, hcase⟩ :=
      hs.updateLazy (hs.settled.not_hidden hq.1) value.toNat
    rw [LazyOp.run, hu] at he
    cases he
    rcases hcase with ⟨rfl, hp, -⟩ | ⟨rfl, rfl, hn⟩
    · exact ⟨iff_of_false (fun h => by cases h) (hpresent hp), .inl rfl⟩
    · exact ⟨iff_of_true rfl (hs.absent hr hq.2 hn), .inr rfl⟩
  | remove key =>
    obtain ⟨e', s₁, hu, -, hcase⟩ := hs.removeLazy key.toNat
    rw [LazyOp.run, hu] at he
    cases he
    rcases hcase with ⟨rfl, hp, -⟩ | ⟨rfl, rfl, hn⟩
    · exact ⟨iff_of_false (fun h => by cases h) (hpresent hp), .inl rfl⟩
    · exact ⟨iff_of_true rfl (hs.absent hr hq hn), .inr rfl⟩
  | find key want =>
    rcases hans with ⟨v, hm, rfl, rfl⟩ | ⟨hm | hw, rfl, rfl⟩
    · simp only [LazyOp.Replies, HtcOp.Answers, hm, true_and]
    · simp only [LazyOp.Replies, HtcOp.Answers, hm, true_and]
    · exact absurd hq hw

/-- The calls answer exactly what the map prescribes. -/
def LazyReplies : KeyMap → Resizing → List LazyOp → Prop
  | m, s, [] => LazyAgrees m s
  | m, s, op :: ops => LazyAgrees m s ∧ ∃ e out s', op.run s = some (e, out, s') ∧
      op.Replies m (false ∈ s.mem) e out ∧ LazyReplies (op.apply e m) s' ops

/-- Every call of a run meets its condition, and none of them starts `htc_grow`. -/
def LazyExact : List LazyOp → Resizing → Prop
  | [], _ => True
  | op :: ops, s =>
    match op.run s with
    | none => False
    | some (_, _, s') => op.Exact s ∧ LazyExact ops s'

instance LazyExact.decide : ∀ ops s, Decidable (LazyExact ops s)
  | [], _ => isTrue trivial
  | op :: ops, s =>
    match h : op.run s with
    | none => isFalse (by rw [LazyExact, h]; exact id)
    | some (e, out, s') =>
      have := LazyExact.decide ops s'
      decidable_of_iff (op.Exact s ∧ LazyExact ops s') (by rw [LazyExact, h])

/-- The calls follow the map while they meet their conditions. -/
lemma Resizing.Ok.lazyReplies : ∀ {ops : List LazyOp} {s : Resizing} {m : KeyMap},
    s.Ok → 0 < s.shardCount → Represents s.Entry m → LazyExact ops s → LazyReplies m s ops
  | [], s, m, hs, _, hr, _ => hs.agrees hr
  | op :: ops, s, m, hs, hpos, hr, hq => by
    refine ⟨hs.agrees hr, ?_⟩
    rw [LazyExact] at hq
    split at hq
    · exact hq.elim
    · next e out s' he =>
      have hfit := hs.fits_of_exact hpos hq.1
      obtain ⟨-, hs', hr'⟩ := hs.follows hr hfit he
      refine ⟨e, out, s', he, hs.replies hpos hr hq.1 he, hs'.lazyReplies ?_ hr' hq.2⟩
      rw [(hs.framed hfit he).shardCount]
      exact hpos

/-- After every run without a loss, calls that meet their conditions answer exactly as those of a
partial map, with lazy resizes under way, and in every state each key of the map is in exactly one
of the two generations. -/
theorem resize_keeps_map (cfg : Option HtcConfig) (seedCtr : ℕ) (mem : List Bool)
    (before : List HtcOp) (ops : List LazyOp) (t : Table)
    (hsafe : SafeRun before (htcCreate cfg seedCtr mem))
    (hrun : runOps before (htcCreate cfg seedCtr mem) = some t) (hq : LazyExact ops t.resizing) :
    ∃ m, LazyReplies m t.resizing ops := by
  have hs := (startable_create cfg seedCtr mem).run hsafe hrun
  obtain ⟨m, hr⟩ := hs.maps
  exact ⟨m, hs.ok.lazyReplies hs.shards hr.represents hq⟩

/-- The calls that lead to the table of the next result: it is grown once. -/
def grownOps : List HtcOp :=
  [.insert 5 50, .insert 6 60, .insert 7 70, .insert 8 80, .insert 9 90, .remove 8, .grow false]

/-- A new table of 64 buckets. -/
def grownNew : Table := htcCreate (some ⟨64, 1, 4, false⟩) 0 []

/-- A table of 128 buckets with four entries. -/
def grownTable : Table := (runOps grownOps grownNew).getD grownNew

/-- A resize from 128 to 256 buckets with insertions, removals and lookups between the
migrations. -/
theorem resize_keeps_map_four :
    runOps grownOps grownNew = some grownTable ∧
    ∃ m, LazyReplies m grownTable.resizing
      [.find 5 true, .start 256, .migrate 1, .remove 7, .insert 11 110, .ensure 3, .find 11 true,
        .migrate 0, .find 5 true, .find 6 false, .remove 6, .update 9 91, .insert 5 55, .migrate 2,
        .migrate 3, .finish, .find 9 true, .find 6 true] := by
  have hsome : (runOps grownOps grownNew).isSome = true := by decide +kernel
  obtain ⟨t, hrun⟩ := Option.isSome_iff_exists.mp hsome
  have ht : t = grownTable := by
    rw [grownTable, hrun]
    rfl
  rw [ht] at hrun
  have hsafe : SafeRun grownOps grownNew := .of_calm (htcCreate_sound ..) (by decide +kernel)
  exact ⟨hrun, resize_keeps_map _ _ _ grownOps _ grownTable hsafe hrun (by decide +kernel)⟩

/-- A key whose chunk was not migrated is not found. -/
theorem resize_loses_key :
    (runOps [.insert 5 50] (htcCreate none 7 [])).map (fun t =>
      (findReply 5 true t, (htcResizeStart 128 t.resizing).1,
        findReply 5 true (htcResizeStart 128 t.resizing).2.toTable)) =
    some ((.ok, some 50), true, (.notFound, some 0)) := by
  decide +kernel

end Draugr.Htc
