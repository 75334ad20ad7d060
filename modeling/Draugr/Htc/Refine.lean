import Draugr.Htc.Runs

/-!
# The table as a partial map

Within one generation the table behaves as a partial map from `uint64_t` to `uint64_t`: `BehavesAs`
follows a list of calls on the table and on the map side by side. In every state the number of keys
is `htc_size` and `htc_debug_slow_find`, which reads neither control bytes nor hints nor the front
cache, finds what the map holds; every call returns and answers what the map prescribes.
-/

namespace Draugr.Htc
open Draugr.Lib

/-- A partial map from keys to values. -/
abbrev KeyMap := UInt64 → Option UInt64

/-- The map after a call that replied `e`. -/
def HtcOp.apply (e : HtcError) (m : KeyMap) : HtcOp → KeyMap
  | .insert key value => if e = .ok then Function.update m key (some value) else m
  | .upsert key value => if e = .ok then Function.update m key (some value) else m
  | .update key value => if e = .ok then Function.update m key (some value) else m
  | .remove key => if e = .ok then Function.update m key none else m
  | .find _ _ => m
  | .grow _ => m

/-- The replies that the map allows; `fails` says that an allocation may fail. -/
def HtcOp.Answers (m : KeyMap) (fails : Prop) (e : HtcError) (out : Option ℕ) : HtcOp → Prop
  | .insert key _ => (e = .duplicate ↔ m key ≠ none) ∧ (e = .ok ∨ e = .duplicate ∨ e = .oom ∧ fails)
  | .upsert key _ => e = .ok ∨ e = .oom ∧ m key = none ∧ fails
  | .update key _ => (e = .notFound ↔ m key = none) ∧ (e = .ok ∨ e = .notFound)
  | .remove key => (e = .notFound ↔ m key = none) ∧ (e = .ok ∨ e = .notFound)
  | .find key want =>
    match m key with
    | some v => e = .ok ∧ out = if want then some v.toNat else none
    | none => e = .notFound ∧ out = if want then some 0 else none
  | .grow _ => e = .ok ∨ e = .oom

/-- `htc_size` is the number of keys, and the slow search finds what the map holds. -/
def Agrees (m : KeyMap) (t : Table) : Prop :=
  (t.size : ℕ∞) = {key | m key ≠ none}.encard ∧
    ∀ key : UInt64, htcDebugSlowFind key.toNat t.toCore = (m key).map UInt64.toNat

/-- The calls on the table answer what the map prescribes. -/
def BehavesAs : KeyMap → Table → List HtcOp → Prop
  | m, t, [] => Agrees m t
  | m, t, op :: ops => Agrees m t ∧ ∃ e out t', op.run t = some (e, out, t') ∧
      op.Answers m (false ∈ t.mem) e out ∧ BehavesAs (op.apply e m) t' ops

/-- None of the calls reaches `htc_grow`. -/
def NoGrow : List HtcOp → Table → Prop
  | [], _ => True
  | op :: ops, t =>
    match op.run t with
    | none => True
    | some (_, _, t') => t'.growStarted = t.growStarted ∧ NoGrow ops t'

instance NoGrow.decide : ∀ ops t, Decidable (NoGrow ops t)
  | [], _ => isTrue trivial
  | op :: ops, t =>
    match h : op.run t with
    | none => isTrue (by rw [NoGrow, h]; trivial)
    | some (e, out, t') =>
      have := NoGrow.decide ops t'
      decidable_of_iff (t'.growStarted = t.growStarted ∧ NoGrow ops t') (by rw [NoGrow, h])

/-- The live records of the table are the entries of the map. -/
def Rep (c : Core) (m : KeyMap) : Prop :=
  ∀ h v, c.Has h v ↔ ∃ key value : UInt64, key.toNat = h ∧ value.toNat = v ∧ m key = some value

variable {c c' : Core} {t t' : Table} {m : KeyMap} {h v : ℕ} {key value : UInt64}

/-! ## The map of a table -/

/-- A key is there with its value. -/
lemma Rep.has_iff (hr : Rep c m) : c.Has key.toNat v ↔
    ∃ value : UInt64, value.toNat = v ∧ m key = some value := by
  rw [hr]
  constructor
  · rintro ⟨k, u, hk, hu, hm⟩
    rw [UInt64.toNat_inj] at hk
    exact ⟨u, hu, hk ▸ hm⟩
  · rintro ⟨u, hu, hm⟩
    exact ⟨key, u, rfl, hu, hm⟩

/-- A key is absent from the table when it is absent from the map. -/
lemma Rep.absent_iff (hr : Rep c m) : c.Absent key.toNat ↔ m key = none := by
  constructor
  · intro ha
    rw [Option.eq_none_iff_forall_ne_some]
    intro u hu
    obtain ⟨i, hi, hk, -⟩ := hr.has_iff.mpr ⟨u, rfl, hu⟩
    exact ha i hi hk
  · intro hm i hi hk
    obtain ⟨u, -, hu⟩ := hr.has_iff.mp ⟨i, hi, hk, rfl⟩
    rw [hm] at hu
    cases hu

/-- The same live records have the same map. -/
lemma Rep.same (hr : Rep c m) (hs : Same c c') : Rep c' m := fun h v => (hs.has h v).trans (hr h v)

/-- The map after the value of a key was set. -/
lemma Rep.put (hr : Rep c m)
    (hh : ∀ k u, c'.Has k u ↔ if k = key.toNat then u = value.toNat else c.Has k u) :
    Rep c' (Function.update m key (some value)) := by
  intro k u
  rw [hh]
  split
  · next hk =>
    subst hk
    constructor
    · rintro rfl
      exact ⟨key, value, rfl, rfl, Function.update_self ..⟩
    · rintro ⟨k, w, hk, rfl, hm⟩
      rw [UInt64.toNat_inj] at hk
      rw [hk, Function.update_self] at hm
      cases hm
      rfl
  · next hk =>
    rw [hr]
    refine exists_congr fun k' => exists_congr fun w => and_congr_right fun hk' => and_congr_right
      fun _ => ?_
    rw [Function.update_of_ne]
    rintro rfl
    exact hk hk'.symm

/-- The map after a key was added. -/
lemma Rep.entered (hr : Rep c m) (he : Entered c c' key.toNat value.toNat)
    (ha : c.Absent key.toNat) :
    Rep c' (Function.update m key (some value)) := by
  refine hr.put fun k u => (he.has k u).trans ?_
  split
  · next hk =>
    subst hk
    have hn := ha.not_has u
    tauto
  · next hk => tauto

/-- The map after a key was removed. -/
lemma Rep.removed (hr : Rep c m) (hs : Settled c) (he : Removed c c' key.toNat) :
    Rep c' (Function.update m key none) := by
  intro k u
  rw [he.has hs.keys, hr]
  constructor
  · rintro ⟨hne, k', w, rfl, rfl, hm⟩
    refine ⟨k', w, rfl, rfl, ?_⟩
    rw [Function.update_of_ne]
    · exact hm
    · rintro rfl
      exact hne rfl
  · rintro ⟨k', w, rfl, rfl, hm⟩
    obtain ⟨hne, hm⟩ := update_none_cases hm
    exact ⟨fun he => hne (UInt64.toNat_inj.mp he), k', w, rfl, rfl, hm⟩

/-- The number of keys of a settled table. -/
lemma Rep.encard (hr : Rep c m) (hs : Settled c) : c.live.encard = {key | m key ≠ none}.encard := by
  have himg : c.keyOf '' c.live = UInt64.toNat '' {key | m key ≠ none} := by
    ext k
    constructor
    · rintro ⟨i, hi, rfl⟩
      obtain ⟨key, value, hk, -, hm⟩ := (hr _ _).mp ⟨i, hi, rfl, rfl⟩
      refine ⟨key, ?_, hk⟩
      rw [Set.mem_ofPred_eq, hm]
      exact Option.some_ne_none _
    · rintro ⟨key, hm, rfl⟩
      obtain ⟨value, hm⟩ := Option.ne_none_iff_exists'.mp hm
      obtain ⟨i, hi, hk, -⟩ := hr.has_iff.mpr ⟨value, rfl, hm⟩
      exact ⟨i, hi, hk⟩
  have hinj : Function.Injective UInt64.toNat := fun a b h => UInt64.toNat_inj.mp h
  rw [← hs.keys.encard_image, himg, hinj.encard_image]

/-- The slow search of a settled table finds what the map holds. -/
lemma Rep.slowFind (hr : Rep c m) (hs : Settled c) (key : UInt64) :
    htcDebugSlowFind key.toNat c = (m key).map UInt64.toNat := by
  rw [htcDebugSlowFind, hs.slowSearch_eq]
  cases hf : htcSearch c key.toNat true with
  | none =>
    rw [hr.absent_iff.mp (hs.search_eq_none.mp hf)]
    rfl
  | some p =>
    obtain ⟨hl, hk⟩ := search_hit hf
    obtain ⟨u, hu, hm⟩ := hr.has_iff.mp ⟨_, hl, hk, rfl⟩
    rw [hm, Option.map_some, Option.map_some, hu]

/-- A table with its map. -/
lemma Sound.agrees (hs : Sound t) (hr : Rep t.toCore m) : Agrees m t :=
  ⟨hs.size.trans (hr.encard hs.settled), hr.slowFind hs.settled⟩

/-! ## The calls on the table and on the map -/

/-- The map after `htc_insert`. -/
lemma Rep.inserted {e : HtcError} (hr : Rep t.toCore m)
    (hi : Inserted key.toNat value.toNat t e t') :
    Rep t'.toCore ((HtcOp.insert key value).apply e m) := by
  cases hi with
  | duplicate same present => exact hr.same same
  | oom same absent fails => exact hr.same same
  | ok entered absent => exact hr.entered entered absent

/-- `htc_insert` answers what the map prescribes. -/
lemma Rep.insert_answers {e : HtcError} (hr : Rep t.toCore m)
    (hi : Inserted key.toNat value.toNat t e t') :
    (HtcOp.insert key value).Answers m (false ∈ t.mem) e none := by
  cases hi with
  | duplicate same present =>
    refine ⟨⟨fun _ hm => present (hr.absent_iff.mpr hm), fun _ => rfl⟩, .inr (.inl rfl)⟩
  | oom same absent fails =>
    exact ⟨⟨fun h => (HtcError.noConfusion h), fun hm => absurd (hr.absent_iff.mp absent) hm⟩,
      .inr (.inr ⟨rfl, fails⟩)⟩
  | ok entered absent =>
    exact ⟨⟨fun h => (HtcError.noConfusion h), fun hm => absurd (hr.absent_iff.mp absent) hm⟩,
      .inl rfl⟩

/-- A call that is safe, and does not update a key of the global stash, follows the map. -/
lemma Sound.follows (hs : Sound t) (hr : Rep t.toCore m) {op : HtcOp} (hsafe : op.Safe t)
    (hg : ∀ key value, op = .update key value → ¬ t.Hidden key.toNat) :
    ∃ e out t', op.run t = some (e, out, t') ∧ op.Answers m (false ∈ t.mem) e out ∧
      Sound t' ∧ Rep t'.toCore (op.apply e m) := by
  cases op with
  | insert key value =>
    obtain ⟨e, t', he, hs', hi⟩ := hs.insert key.toNat_lt hsafe
    exact ⟨e, none, t', congrArg (fun r => some (noValue r)) he, hr.insert_answers hi, hs',
      hr.inserted hi⟩
  | upsert key value =>
    rcases hs.upsert key.toNat_lt hsafe with ⟨i, hl, hk, he⟩ | ⟨e, t', he, hs', ha, hi⟩
    · exact ⟨.ok, none, _, congrArg (fun r => some (noValue r)) he, .inl rfl, hs.setValue i _,
        hr.put (hs.settled.has_setValue hl hk)⟩
    · refine ⟨e, none, t', congrArg (fun r => some (noValue r)) he, ?_, hs', hr.inserted hi⟩
      cases hi with
      | duplicate same present => exact absurd ha present
      | oom same absent fails => exact .inr ⟨rfl, hr.absent_iff.mp ha, fails⟩
      | ok entered absent => exact .inl rfl
  | update key value =>
    rcases htcUpdate_settled hs.settled key.toNat value.toNat with ⟨j, he, hp, hj⟩ | ⟨he, ha⟩
    · obtain ⟨hl, hk⟩ := hj (hg key value rfl)
      refine ⟨.ok, none, _, congrArg (fun r => some (noValue r)) he,
        ⟨⟨fun h => (HtcError.noConfusion h), fun hm => ?_⟩, .inl rfl⟩,
        hs.setValue j _, hr.put (hs.settled.has_setValue hl hk)⟩
      exact absurd (hr.absent_iff.mpr hm) hp
    · exact ⟨.notFound, none, t, congrArg (fun r => some (noValue r)) he,
        ⟨⟨fun _ => hr.absent_iff.mp ha, fun _ => rfl⟩, .inr rfl⟩, hs, hr⟩
  | remove key =>
    rcases htcRemove_settled hs.settled key.toNat with ⟨t', he, hrem⟩ | ⟨he, ha⟩
    · refine ⟨.ok, none, t', congrArg (Option.map noValue) he,
        ⟨⟨fun h => (HtcError.noConfusion h), fun hm => ?_⟩, .inl rfl⟩,
        hs.removed hrem, hr.removed hs.settled hrem.removed⟩
      obtain ⟨i, hi, hk, -⟩ := hrem.removed.live
      exact absurd hk (hr.absent_iff.mpr hm i hi)
    · exact ⟨.notFound, none, t, congrArg (Option.map noValue) he,
        ⟨⟨fun _ => hr.absent_iff.mp ha, fun _ => rfl⟩, .inr rfl⟩, hs, hr⟩
  | find key want =>
    rcases htcFind_settled hs.settled hs.cache key.toNat want with
      ⟨u, t', he, hu, hc, hrest⟩ | ⟨he, ha⟩
    · refine ⟨_, _, t', congrArg some he, ?_, hs.found hc hrest, ?_⟩
      · obtain ⟨w, hw, hm⟩ := hr.has_iff.mp hu
        simp only [HtcOp.Answers, hm, hw, true_and]
      · rw [hrest]
        exact hr
    · refine ⟨_, _, t, congrArg some he, ?_, hs, hr⟩
      simp only [HtcOp.Answers, hr.absent_iff.mp ha, true_and]
  | grow reseed =>
    have hg := htcGrow_grown reseed t
    obtain ⟨hs', hsame⟩ := hs.grown hg hsafe
    refine ⟨_, _, _, rfl, ?_, hs', hr.same hsame⟩
    rcases hg.core with ⟨he, -⟩ | ⟨he, -⟩
    · exact .inl he
    · exact .inr he

/-! ## Calls that do not grow -/

/-- A grow is counted. -/
lemma Grown.growStarted {reseed : Bool} {e : HtcError} (hg : Grown reseed t e t') :
    t'.growStarted = t.growStarted + 1 := by
  rw [hg.rest]

/-- The words denote different records, and the number of grows is not lower. -/
def Later (t t' : Table) : Prop := Stored t'.toCore ∧ t.growStarted ≤ t'.growStarted

/-- A grow leads to a later table. -/
lemma Grown.later {reseed : Bool} {e : HtcError} (hg : Grown reseed t e t') (hs : Stored t.toCore) :
    Later t t' :=
  ⟨hg.stored hs, hg.growStarted.ge.trans' (Nat.le_succ _)⟩

/-- The attempts lead to a later table. -/
lemma insertLoop_later (h v : ℕ) : ∀ k {t : Table}, Stored t.toCore → Later t (insertLoop h v k t).2
  | 0, t, hs => ⟨hs, le_rfl⟩
  | k + 1, t, hs => by
    have ha := insertAttempt_stored hs h v
    rw [insertLoop]
    generalize insertAttempt h v t = a at ha
    rcases a with ⟨e, t'⟩ | t' | t'
    · exact ⟨ha.1, ha.2.2.1.rest.2.2.ge⟩
    · obtain ⟨hs', -, hb, -⟩ := ha
      rw [Later, ← hb.rest.2.2]
      dsimp only
      rcases insertDone_cases t' with ⟨-, hd⟩ | ⟨-, hd⟩
      · rw [hd]
        exact (htcGrow_grown false { t' with size := t'.size + 1 }).later hs'
      · rw [hd]
        exact ⟨hs', le_rfl⟩
    · obtain ⟨hs', -, hb, -⟩ := ha
      have hg := (htcGrow_grown true t').later hs'
      rw [Later, ← hb.rest.2.2]
      dsimp only
      generalize htcGrow true t' = r at hg
      rcases r with ⟨e, t''⟩
      cases e with
      | ok =>
        obtain ⟨hs'', hle⟩ := insertLoop_later h v k hg.1
        exact ⟨hs'', hg.2.trans hle⟩
      | _ => exact hg

/-- `htc_upsert` leads to a later table. -/
lemma upsertLoop_later (h v : ℕ) : ∀ k {t : Table}, Stored t.toCore → Later t (upsertLoop h v k t).2
  | 0, t, hs => ⟨hs, le_rfl⟩
  | k + 1, t, hs => by
    rw [upsertLoop]
    cases htcSearch t.toCore h true with
    | some p => exact ⟨hs.store (spared_setValue hs _ v), le_rfl⟩
    | none =>
      have hi : Later t (htcInsert h v t).2 := insertLoop_later h v 4 hs
      dsimp only
      generalize htcInsert h v t = r at hi
      rcases r with ⟨e, t'⟩
      cases e with
      | duplicate =>
        obtain ⟨hs'', hle⟩ := upsertLoop_later h v k hi.1
        exact ⟨hs'', hi.2.trans hle⟩
      | _ => exact hi

/-- An insertion that starts no grow ends with its first attempt. -/
lemma attemptSafe_of_growStarted (hs : Stored t.toCore)
    (hg : (htcInsert h v t).2.growStarted = t.growStarted) :
    AttemptSafe (insertAttempt h v t) ∧ (htcInsert h v t).2.stash = t.stash := by
  have ha := insertAttempt_stored hs h v
  rw [htcInsert, insertLoop] at hg ⊢
  generalize insertAttempt h v t = a at ha hg
  rcases a with ⟨e, t'⟩ | t' | t'
  · exact ⟨trivial, ha.2.2.2.stash⟩
  · rw [← ha.2.2.1.rest.2.2] at hg
    dsimp only at hg ⊢
    rcases insertDone_cases t' with ⟨-, hd⟩ | ⟨hl, hd⟩
    · rw [hd, (htcGrow_grown false _).growStarted] at hg
      exact absurd hg (Nat.succ_ne_self _)
    · rw [hd]
      exact ⟨fun hload => absurd hload hl, ha.2.2.2.stash⟩
  · have hgr := htcGrow_grown true t'
    rw [← ha.2.2.1.rest.2.2] at hg
    dsimp only at hg
    generalize htcGrow true t' = r at hgr hg
    rcases r with ⟨e, t''⟩
    have hlt : t'.growStarted < t''.growStarted := hgr.growStarted.ge
    cases e with
    | ok => exact absurd hg (hlt.trans_le (insertLoop_later h v 3 (hgr.stored ha.1)).2).ne'
    | _ => exact absurd hg hlt.ne'

/-- Nothing is hidden while the global stash is empty. -/
lemma not_hidden (hg : ∀ i, c.stash.slots i = none) (h : ℕ) : ¬ c.Hidden h := by
  rintro ⟨i, w, hw, -⟩
  rw [hg] at hw
  cases hw

/-- An insertion that `htc_upsert` makes starts no more grows than the whole call. -/
lemma htcInsert_growStarted_of_upsert (hs : Stored t.toCore) (hf : htcSearch t.toCore h true = none)
    (hg : (htcUpsert h v t).2.growStarted = t.growStarted) :
    (htcInsert h v t).2.growStarted = t.growStarted := by
  have hi : Later t (htcInsert h v t).2 := insertLoop_later h v 4 hs
  rw [htcUpsert, upsertLoop, hf] at hg
  dsimp only at hg
  generalize htcInsert h v t = r at hi hg
  rcases r with ⟨e, t'⟩
  cases e with
  | duplicate => exact le_antisymm ((upsertLoop_later h v 3 hi.1).2.trans hg.le) hi.2
  | _ => exact hg

/-- An upsert that starts no grow. -/
lemma Sound.upsert_of_growStarted (hs : Sound t) (hh : h < 2 ^ 64)
    (hst : ∀ i, t.stash.slots i = none) (hg : (htcUpsert h v t).2.growStarted = t.growStarted) :
    (htcSearch t.toCore h true = none → InsertSafe h v t) ∧ ∀ i,
      (htcUpsert h v t).2.stash.slots i = none := by
  cases hf : htcSearch t.toCore h true with
  | some p =>
    refine ⟨fun h => (by cases h), fun i => ?_⟩
    rw [htcUpsert, upsertLoop, hf]
    exact hst i
  | none =>
    obtain ⟨ha, hst'⟩ :=
      attemptSafe_of_growStarted hs.settled.toStored
      (htcInsert_growStarted_of_upsert hs.settled.toStored hf hg)
    have hsafe : InsertSafe h v t := ⟨not_hidden hst h, ha⟩
    refine ⟨fun _ => hsafe, fun i => ?_⟩
    obtain ⟨e, t', he, -, hi⟩ := hs.insert hh hsafe
    rw [he] at hst'
    rw [htcUpsert, upsertLoop, hf]
    dsimp only
    rw [he]
    cases hi with
    | duplicate same present => exact absurd (hs.settled.search_eq_none.mp hf) present
    | oom same absent fails => exact (congrArg (fun s => s.slots i) hst').trans (hst i)
    | ok entered absent => exact (congrArg (fun s => s.slots i) hst').trans (hst i)

/-- A call that starts no grow is safe while the global stash is empty, and leaves it empty. -/
lemma Sound.safe_of_growStarted (hs : Sound t) (hst : ∀ i, t.stash.slots i = none) {op : HtcOp}
    {e : HtcError}
    {out : Option ℕ} (he : op.run t = some (e, out, t')) (hg : t'.growStarted = t.growStarted) :
    op.Safe t ∧ ∀ i, t'.stash.slots i = none := by
  cases op with
  | insert key value =>
    obtain ⟨-, -, rfl⟩ := he
    obtain ⟨ha, hst'⟩ := attemptSafe_of_growStarted hs.settled.toStored hg
    exact ⟨⟨not_hidden hst _, ha⟩, fun i => (congrArg (fun s => s.slots i) hst').trans (hst i)⟩
  | upsert key value =>
    obtain ⟨-, -, rfl⟩ := he
    exact hs.upsert_of_growStarted key.toNat_lt hst hg
  | update key value =>
    obtain ⟨-, -, rfl⟩ := he
    refine ⟨trivial, fun i => ?_⟩
    rw [htcUpdate]
    cases htcSearch t.toCore key.toNat true with
    | some p => exact hst i
    | none => exact hst i
  | remove key =>
    refine ⟨trivial, fun i => ?_⟩
    rcases htcRemove_settled hs.settled key.toNat with ⟨t₁, hr, hok⟩ | ⟨hr, -⟩
    · rw [HtcOp.run, hr] at he
      cases he
      exact hok.stash i (hst i)
    · rw [HtcOp.run, hr] at he
      cases he
      exact hst i
  | find key want =>
    refine ⟨trivial, fun i => ?_⟩
    rcases htcFind_settled hs.settled hs.cache key.toNat want with
      ⟨u, t₁, hr, -, -, hrest⟩ | ⟨hr, -⟩
    · rw [HtcOp.run, hr] at he
      cases he
      rw [hrest]
      exact hst i
    · rw [HtcOp.run, hr] at he
      cases he
      exact hst i
  | grow reseed =>
    obtain ⟨-, -, rfl⟩ := he
    exact absurd ((htcGrow_grown reseed t).growStarted.symm.trans hg) (Nat.succ_ne_self _)

/-- Every call on a sound table returns. -/
lemma Sound.run_returns (hs : Sound t) (op : HtcOp) : ∃ r, op.run t = some r := by
  cases op with
  | remove key =>
    rcases htcRemove_settled hs.settled key.toNat with ⟨t', he, -⟩ | ⟨he, -⟩
    · exact ⟨_, congrArg (Option.map noValue) he⟩
    · exact ⟨_, congrArg (Option.map noValue) he⟩
  | _ => exact ⟨_, rfl⟩

/-- The calls follow the map while none of them grows. -/
lemma Sound.behavesAs : ∀ {ops : List HtcOp} {t : Table} {m : KeyMap}, Sound t → Rep t.toCore m →
    (∀ i, t.stash.slots i = none) → NoGrow ops t → BehavesAs m t ops
  | [], t, m, hs, hr, _, _ => hs.agrees hr
  | op :: ops, t, m, hs, hr, hst, hq => by
    refine ⟨hs.agrees hr, ?_⟩
    obtain ⟨⟨e₀, out₀, t₀⟩, he₀⟩ := hs.run_returns op
    rw [NoGrow, he₀] at hq
    obtain ⟨hsafe, hst'⟩ := hs.safe_of_growStarted hst he₀ hq.1
    obtain ⟨e, out, t', he, hans, hs', hr'⟩ :=
      hs.follows hr hsafe fun key _ _ => not_hidden hst key.toNat
    rw [he₀] at he
    cases he
    exact ⟨e₀, out₀, t₀, he₀, hans, hs'.behavesAs hr' hst' hq.2⟩

/-- On a new table, calls that do not reach `htc_grow` behave as those of a partial map. -/
theorem htc_behaves_as_map (cfg : Option HtcConfig) (seedCtr : ℕ) (mem : List Bool)
    (ops : List HtcOp) (hq : NoGrow ops (htcCreate cfg seedCtr mem)) :
    BehavesAs (fun _ => none) (htcCreate cfg seedCtr mem) ops := by
  refine (htcCreate_sound cfg seedCtr mem).behavesAs (fun h v => ?_) (fun _ => rfl) hq
  constructor
  · rintro ⟨i, hi, -⟩
    rw [htcCreate_live] at hi
    exact hi.elim
  · rintro ⟨key, value, -, -, hm⟩
    cases hm

/-- Three keys in a table of four buckets. -/
theorem htc_behaves_as_map_three :
    BehavesAs (fun _ => none) (htcCreate none 7 [])
      [.insert 5 50, .insert 6 60, .insert 5 51, .upsert 7 70, .update 6 61, .remove 5,
        .find 6 true, .find 5 true] :=
  htc_behaves_as_map none 7 [] _ (by decide +kernel)

end Draugr.Htc
