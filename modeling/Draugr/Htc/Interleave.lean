import Draugr.Htc.Loss
import Draugr.Htc.Sections

/-!
# Insertions among each other and among grows

Any number of threads insert while others grow the table. An insertion that looks for a displacement
path releases its locks before it commits the path, and the commit checks the path only: not that
the generation is still the current one, nor that the key is still absent. `Local.safe` is the
condition that excludes the steps in which this matters; `Machine.Filling` is the invariant of the
schedules without them.
-/

namespace Draugr.Htc
open Draugr.Lib

/-- The place is in the global stash. -/
def Place.isGlobal : Place → Bool
  | .global _ => true
  | _ => false

/-- The place is in the stash of a shard. -/
def Place.isShard : Place → Bool
  | .shard _ _ => true
  | _ => false

/-- A grow keeps the seed and finds the global stash empty. -/
def Local.growsEmpty (s : Shared) : Local → Bool
  | .growRehash reseed _ => !reseed && s.tbl.stash.liveCount == 0
  | _ => true

/-- The grows of a schedule keep the seed and find the global stash empty. -/
def Machine.GrowsEmpty (m : Machine) : Act → Prop
  | .call _ _ => True
  | .go i => (m.loc i).growsEmpty m.toShared = true

/-- The condition on a step. -/
def Local.safe (s : Shared) : Local → Bool
  -- the duplicate check does not look into the global stash
  | .insLock a v => decide (s.Stale v.gen) || (htcSearch s.tbl.toCore a.hash true).all (!·.isGlobal)
  -- a path that is committed leads into the current generation, for a key that is absent
  | .insPath a v _ _ p =>
    (validatePathLocked (s.genAt v.gen) s.tbl.recs p).isNone ||
      v.gen == s.genNo && (htcSearch s.tbl.toCore a.hash true).isNone
  -- the second duplicate check looks into the stash of the shard only
  | .insStash a v _ => decide (s.Stale v.gen) ||
    (htcSearch s.tbl.toCore a.hash true).all Place.isShard
  -- the old global stash is dropped, and a new seed loses the stashes of the shards
  | .growRehash reseed _ => !reseed && s.tbl.stash.liveCount == 0
  | .remLock _ _ => false
  | _ => true

/-- The condition on an act. -/
def Machine.Safe (m : Machine) : Act → Prop
  | .call _ _ => True
  | .go i => (m.loc i).safe m.toShared = true

/-- `htc_find` finds the key, whatever the front cache of its thread holds. -/
def Machine.Finds (m : Machine) (h : ℕ) : Prop :=
  ∀ cache want, (htcFind h want { m.tbl with cache := cache }).1 = .ok

/-- The invariant of schedules that meet the condition. -/
structure Machine.Filling (m : Machine) : Prop extends m.Sane where
  keys : Set.InjOn m.tbl.keyOf m.tbl.live
  shards : m.tbl.shardCount ∣ m.tbl.gen.numBuckets
  entered : ∀ i h, (m.loc i).entered = some h → ¬ m.tbl.Absent h

instance (m : Machine) : ∀ act, Decidable (m.GrowsEmpty act)
  | .call _ _ => isTrue trivial
  | .go _ => inferInstanceAs (Decidable (_ = true))

instance (m : Machine) : ∀ act, Decidable (m.Safe act)
  | .call _ _ => isTrue trivial
  | .go _ => inferInstanceAs (Decidable (_ = true))

variable {m m' : Machine} {s : Shared} {l : Local} {act : Act} {a : Ins} {v : View} {c : Core}
  {h i : ℕ}

/-! ## What the condition gives -/

/-- Such a grow loses nothing when the number of shards divides the number of buckets. -/
lemma growsSafely_of_empty (hp : Placed s.tbl.toCore) (hd : s.tbl.shardCount ∣ s.tbl.gen.numBuckets)
    (hs : l.growsEmpty s = true) : l.GrowsSafely s := by
  cases l with
  | growRehash reseed k =>
    simp only [Local.growsEmpty, Bool.and_eq_true, Bool.not_eq_true', beq_iff_eq] at hs
    obtain ⟨rfl, h0⟩ := hs
    exact growSafe_of_dvd hp (hp.stash.slots_none h0) hd
  | _ => trivial

/-- The condition on a step includes the one on its grow. -/
lemma growsEmpty_of_safe (hs : l.safe s = true) : l.growsEmpty s = true := by
  cases l with
  | growRehash reseed k => exact hs
  | _ => rfl

/-- A step keeps the number of shards a divisor of the number of buckets. -/
lemma Moved.dvd {s' : Shared} (hm : Moved s s') (hd : s.tbl.shardCount ∣ s.tbl.gen.numBuckets) :
    s'.tbl.shardCount ∣ s'.tbl.gen.numBuckets := by
  rw [hm.shardCount]
  rcases hm.gen with ⟨-, hn, -⟩ | ⟨-, hn⟩
  · rw [hn]
    exact hd
  · rw [hn]
    exact hd.mul_right 2

/-- The search with the global stash goes where the one without it goes. -/
lemma search_of_search_none (hp : Placed c) (hf : htcSearch c h false = none)
    (hg : (htcSearch c h true).all (!·.isGlobal) = true) : c.Absent h := by
  rw [← hp.search_eq_none]
  cases hs : htcSearch c h true with
  | none => rfl
  | some p =>
    obtain ⟨w, hw, hk⟩ := htcSearch_key hs
    obtain ⟨-, j, rfl⟩ := hp.search_none hf hw hk
    rw [hs] at hg
    cases hg

/-- A key that the search finds is a duplicate for the first section. -/
lemma insertTry_duplicate {t : Table} {p : Place} {u : ℕ}
    (hs : htcSearch t.toCore h false = some p) :
    insertTry h u t = .duplicate := by
  rw [insertTry, hs]
  exact if_pos rfl

/-- A key in the stash of its shard is a duplicate for the stash section. -/
lemma insertStash_duplicate {x j : ℕ} (hs : htcSearch c h true = some (.shard x j)) (idx : ℕ) :
    insertStash h idx c = .duplicate := by
  simp only [insertStash]
  rcases htcSearch_cases c h true with ⟨k, he, -⟩ | ⟨k, he, -⟩ | ⟨k, -, hk⟩ | ⟨k, he, -⟩ | ⟨he, -⟩
  · rw [hs] at he
    cases he
  · rw [hs] at he
    cases he
  · rw [hk]
    rfl
  · rw [hs] at he
    cases he
  · rw [hs] at he
    cases he

/-- A key that comes in was absent. -/
lemma exec_absent {r : Shared × Local} (hp : Placed s.tbl.toCore) (hs : l.safe s = true)
    (hr : s.exec l = some r)
    (he : l.enters = some h) (hl : r.1.tbl.live ≠ s.tbl.live) : s.tbl.Absent h := by
  cases l with
  | insLock a v =>
    cases he
    cases hr
    simp only [Shared.insertSection] at hl
    split at hl
    · exact absurd rfl hl
    next hst =>
    simp only [Local.safe, decide_eq_false hst, Bool.false_or] at hs
    cases hf : htcSearch s.tbl.toCore a.hash false with
    | none => exact search_of_search_none hp hf hs
    | some p =>
      rw [insertTry_duplicate hf] at hl
      exact absurd rfl hl
  | insPath a v sids idx p =>
    cases he
    cases hr
    simp only [Shared.pathSection] at hl
    split at hl
    · next src hv =>
      simp only [Local.safe, hv, Option.isNone_some, Bool.false_or, Bool.and_eq_true,
        Option.isNone_iff_eq_none] at hs
      exact hp.search_eq_none.mp hs.2
    · exact absurd rfl hl
  | insStash a v idx =>
    cases he
    cases hr
    dsimp only at hl
    split at hl
    · exact absurd rfl hl
    next hst =>
    simp only [Local.safe, decide_eq_false hst, Bool.false_or] at hs
    cases hf : htcSearch s.tbl.toCore a.hash true with
    | none => exact hp.search_eq_none.mp hf
    | some p =>
      rw [hf] at hs
      cases p with
      | shard x j =>
        simp only [Shared.stashSection, insertStash_duplicate hf] at hl
        exact absurd rfl hl
      | slot x => cases hs
      | global j => cases hs
  | _ => cases he

/-- No key is removed. -/
lemma removes_of_safe (hs : l.safe s = true) : l.removes = none := by
  cases l with
  | remLock h v => cases hs
  | _ => rfl

/-- A path that meets the condition is not committed to a generation that was replaced. -/
lemma not_late {r : Shared × Local} (hs : l.safe s = true) (hr : s.exec l = some r)
    (hent : r.2.entered = some h) :
    ¬ l.Late s := by
  cases l with
  | insPath a v sids idx p =>
    intro hlate
    cases hr
    simp only [Shared.pathSection] at hent
    split at hent
    · next src hv =>
      simp only [Local.safe, hv, Option.isNone_some, Bool.false_or, Bool.and_eq_true,
        beq_iff_eq] at hs
      exact hlate hs.1
    · cases hent
  | _ => exact id

/-! ## Schedules -/

/-- A step that meets the condition keeps the invariant, and every key that is present. -/
lemma Machine.Filling.step (hm : m.Filling) (hs : m.Safe act) (h : m.step act = some m') :
    m'.Filling ∧ ∀ k, ¬ m.tbl.Absent k → ¬ m'.tbl.Absent k := by
  cases act with
  | call i c =>
    have hsane := (@Machine.Sane.step _ _ (.call i c)) hm.toSane trivial h
    obtain ⟨-, rfl⟩ := step_call h
    have hn : c.start.entered = none := by cases c <;> rfl
    refine ⟨⟨hsane, hm.keys, hm.shards, fun j k hj => ?_⟩, fun k hk => hk⟩
    by_cases hji : j = i
    · dsimp only at hj
      rw [hji, Function.update_self, hn] at hj
      cases hj
    · dsimp only at hj
      rw [Function.update_of_ne hji] at hj
      exact hm.entered j k hj
  | go i =>
    have hgrow : m.GrowsSafely (.go i) := 
      growsSafely_of_empty hm.placed hm.shards (growsEmpty_of_safe hs)
    have hsane := hm.toSane.step hgrow h
    obtain ⟨⟨s', l'⟩, hr, rfl⟩ := step_go h
    have he := exec_effect hm.placed hm.buckets (hm.ok i) hgrow hr
    -- a safe step takes no record out
    have hstay : m.tbl.live ⊆ s'.tbl.live := by
      rcases he.delta.live with hl | ⟨j, -, hl, -⟩ | ⟨j, -, hrem, -⟩
      · exact hl.ge
      · rw [hl]
        exact Set.subset_insert _ _
      · -- no key is removed
        rw [removes_of_safe hs] at hrem
        cases hrem
    have hkeep : ∀ k, ¬ m.tbl.Absent k → ¬ s'.tbl.Absent k := by
      intro k hk habs
      refine hk fun j hj hkj => ?_
      exact habs j (hstay hj) ((he.delta.keys j hj (hstay hj)).trans hkj)
    refine ⟨⟨hsane, ?_, ?_, ?_⟩, hkeep⟩
    · have hold : Set.InjOn s'.tbl.keyOf m.tbl.live := by
        intro j hj k hk hjk
        rw [he.delta.keys j hj (hstay hj), he.delta.keys k hk (hstay hk)] at hjk
        exact hm.keys hj hk hjk
      rcases he.delta.live with hl | ⟨j, hj, hl, hent⟩ | ⟨j, hj, -, hl⟩
      · exact hl ▸ hold
      · change Set.InjOn s'.tbl.keyOf s'.tbl.live
        rw [hl, Set.injOn_insert hj]
        refine ⟨hold, ?_⟩
        rintro ⟨k, hk, hkj⟩
        have habs :=
          exec_absent hm.placed hs hr hent fun hsame => hj (hsame ▸ hl ▸ Set.mem_insert _ _)
        exact habs k hk ((he.delta.keys k hk (hstay hk)).symm.trans hkj)
      · have hj' := hstay hj
        rw [hl] at hj'
        exact absurd rfl hj'.2
    · exact he.moved.dvd hm.shards
    · intro j k hj
      dsimp only at hj
      by_cases hji : j = i
      · rw [hji, Function.update_self] at hj
        rcases he.arrived k hj with hent | hp | hlate
        · exact hkeep k (hm.entered i k hent)
        · exact hp
        · exact absurd hlate (not_late hs hr hj)
      · rw [Function.update_of_ne hji] at hj
        exact hkeep k (hm.entered j k hj)

/-- The grows of a schedule lose nothing when they find the global stash empty. -/
lemma Machine.Sane.growsSafely : ∀ {as : List Act} {m : Machine},
    m.Sane → m.tbl.shardCount ∣ m.tbl.gen.numBuckets →
    m.Along Machine.GrowsEmpty as → m.Along Machine.GrowsSafely as
  | [], _, _, _, _ => trivial
  | act :: as, m, hm, hd, he => by
    have hg : m.GrowsSafely act := by
      cases act with
      | call i c => trivial
      | go i => exact growsSafely_of_empty hm.placed hd he.1
    refine ⟨hg, fun m' h => (hm.step hg h).growsSafely ?_ (he.2 m' h)⟩
    cases act with
    | call i c =>
      obtain ⟨-, rfl⟩ := step_call h
      exact hd
    | go i =>
      obtain ⟨r, hr, rfl⟩ := step_go h
      exact (exec_effect hm.placed hm.buckets (hm.ok i) hg hr).moved.dvd hd

/-- A schedule that meets the condition keeps the invariant, and every key that is present. -/
lemma Machine.Filling.run (hm : m.Filling) {as : List Act} (hs : m.Along Machine.Safe as)
    (hr : m.run as = some m') :
    m'.Filling ∧ ∀ k, ¬ m.tbl.Absent k → ¬ m'.tbl.Absent k := by
  refine Schedule.run_keeps (P := Machine.Safe)
    (I := fun m' => m'.Filling ∧ ∀ k, ¬ m.tbl.Absent k → ¬ m'.tbl.Absent k) ?_
      ⟨hm, fun k hk => hk⟩ hs hr
  rintro m₁ act m₂ ⟨hf, hk⟩ hsafe hstep
  obtain ⟨hf', hk'⟩ := hf.step hsafe hstep
  exact ⟨hf', fun k hp => hk' k (hk k hp)⟩

/-- A key that is present is found. -/
lemma Machine.Filling.finds (hm : m.Filling) (hk : ¬ m.tbl.Absent h) : m.Finds h := by
  intro cache want
  rw [htcFind]
  split
  · rfl
  · rw [findTable]
    split
    · rfl
    · next hf => exact absurd (hm.placed.search_eq_none.mp hf) hk

/-- The search finds a key that is present. -/
lemma Machine.Filling.search (hm : m.Filling) (hk : ¬ m.tbl.Absent h) :
    ∃ p, htcSearch m.tbl.toCore h true = some p := by
  cases hs : htcSearch m.tbl.toCore h true with
  | none => exact absurd (hm.placed.search_eq_none.mp hs) hk
  | some p => exact ⟨p, rfl⟩

/-- A key that is found, whatever the front cache holds, is present. -/
lemma Machine.Filling.present (hm : m.Filling) (hf : m.Finds h) : ¬ m.tbl.Absent h := by
  intro ha
  have hn := hf (fun _ => none) false
  simp only [htcFind, Bool.false_and, Bool.false_eq_true, if_false, findTable] at hn
  rw [show htcSearch _ h true = none from hm.placed.search_eq_none.mpr ha] at hn
  cases hn

/-- The invariant holds of a new table with a power of two of shards. -/
lemma Machine.Filling.start (cfg : Option HtcConfig) (seedCtr : ℕ) (mem : List Bool) {k : ℕ}
    (hk : (htcCreate cfg seedCtr mem).shardCount = 2 ^ k) :
    (Machine.start (htcCreate cfg seedCtr mem)).Filling where
  placed := (htcCreate_sound cfg seedCtr mem).settled.placed
  buckets := (htcCreate_sound cfg seedCtr mem).buckets
  ok _ := trivial
  apart i j idx hi := by cases hi
  keys := (htcCreate_sound cfg seedCtr mem).settled.keys
  shards := by
    obtain ⟨j, hj⟩ := doubleUntil_pow (max 4 (cfg.getD .default).initialBuckets) 31 0
    have hb : (htcCreate cfg seedCtr mem).gen.numBuckets = 2 ^ j := hj
    have hle : (htcCreate cfg seedCtr mem).shardCount ≤
        (htcCreate cfg seedCtr mem).gen.numBuckets := min_le_right _ _
    change (htcCreate cfg seedCtr mem).shardCount ∣ (htcCreate cfg seedCtr mem).gen.numBuckets
    rw [hk, hb] at hle ⊢
    exact Nat.pow_dvd_pow 2 ((Nat.pow_le_pow_iff_right Nat.one_lt_two).mp hle)
  entered i h he := by cases he

/-- In every schedule that meets the condition, a key whose `htc_insert` (or `htc_upsert`) has
returned `HTC_OK` is found from then on, no two live words have one key, and no key that was found
is lost. -/
theorem inserts_are_kept (cfg : Option HtcConfig) (seedCtr : ℕ) (mem : List Bool) (k : ℕ)
    (as bs : List Act) (m m' : Machine) (hk : (htcCreate cfg seedCtr mem).shardCount = 2 ^ k)
    (hsafe : (Machine.start (htcCreate cfg seedCtr mem)).Along Machine.Safe (as ++ bs))
    (hm : (Machine.start (htcCreate cfg seedCtr mem)).run as = some m) (hm' : m.run bs = some m') :
    (∀ i h v, m.loc i = .returned (.insert h v) .ok ∨ m.loc i = .returned (.upsert h v) .ok →
      m'.Finds h) ∧
    (∀ p q w u, m'.tbl.wordAt p = some w → m'.tbl.wordAt q = some u →
      m'.tbl.keyOf w.idx = m'.tbl.keyOf u.idx → p = q) ∧
    ∀ h, m.Finds h → m'.Finds h := by
  obtain ⟨hs, hs'⟩ := hsafe.append
  obtain ⟨hf, -⟩ := (Machine.Filling.start cfg seedCtr mem hk).run hs hm
  obtain ⟨hf', hkeep⟩ := hf.run (hs' m hm) hm'
  refine ⟨fun i h v hr => hf'.finds (hkeep h ?_), fun p q w u hp hq he => ?_,
    fun h hfind => hf'.finds (hkeep h ?_)⟩
  · refine hf.entered i h ?_
    rcases hr with hr | hr <;> rw [hr] <;> rfl
  · exact (hf'.placed.settled hf'.keys).unique hp hq he
  · exact hf.present hfind

/-- Two insertions with a grow between the steps of the second. -/
theorem inserts_are_kept_two :
    ∃ m m' : Machine,
      m.loc 0 = .returned (.insert 5 50) .ok ∧ m'.loc 1 = .returned (.insert 6 60) .ok ∧
    m'.Finds 5 ∧ m'.Finds 6 := by
  let as : List Act := [.call 0 (.insert 5 50), .call 1 (.insert 6 60), .go 0, .go 1, .go 0, .go 0]
  let bs : List Act := [.call 2 (.grow false), .go 2, .go 1, .go 2, .go 1, .go 1, .go 1]
  obtain ⟨m', hm', h1⟩ := Option.map_eq_some_iff.mp
    (by decide +kernel : ((Machine.start (htcCreate none 0 [])).run (as ++ bs)).map (·.loc 1) =
      some (.returned (.insert 6 60) .ok))
  obtain ⟨m, hm, h0⟩ := Option.map_eq_some_iff.mp
    (by decide +kernel : ((Machine.start (htcCreate none 0 [])).run as).map (·.loc 0) =
      some (.returned (.insert 5 50) .ok))
  have hsafe : (Machine.start (htcCreate none 0 [])).Along Machine.Safe (as ++ bs) := by
    decide +kernel
  have hbs : m.run bs = some m' := Schedule.run_of_append hm hm'
  obtain ⟨hfind, -, -⟩ := inserts_are_kept none 0 [] 2 as bs m m' (by decide) hsafe hm hbs
  have hsafe' : (Machine.start (htcCreate none 0 [])).Along Machine.Safe (as ++ bs ++ []) := by
    rw [List.append_nil]
    exact hsafe
  obtain ⟨hfind', -, -⟩ :=
    inserts_are_kept none 0 [] 2 (as ++ bs) [] m' m' (by decide) hsafe' hm' rfl
  exact ⟨m, m', h0, h1, hfind 0 5 50 (.inl h0), hfind' 1 6 60 (.inl h1)⟩

/-- Eight keys fill a bucket; the ninth finds a displacement path, and a grow runs before the path
is committed. -/
theorem insert_lost_to_grow :
    ((Machine.start (htcCreate (some ⟨16, 1, 4, false⟩) 0 [])).run
        (([1, 23, 31, 32, 40, 41, 60, 63].flatMap fun h =>
          [.call 0 (.insert h 1), .go 0, .go 0, .go 0]) ++
          [.call 0 (.insert 278 1), .go 0, .go 0, .call 1 (.grow false), .go 1, .go 1, .go 0, .go 0,
            .go 0])).map
      (fun m => (m.loc 0, (htcFind 278 true m.tbl).1)) =
    some (.returned (.insert 278 1) .ok, .notFound) := by decide +kernel

end Draugr.Htc
