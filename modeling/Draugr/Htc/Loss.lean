import Draugr.Htc.Refine

/-!
# Growing and the entries of the stashes

A grow rehashes the buckets only. While every grow of a run starts from a state in which this loses
nothing (`GrowSafe`) and no key is inserted that the global stash holds, the grows keep the answer
of every `htc_find`, and the table holds at most one entry for a key. The two traces at the end show
what happens otherwise, with three shards: the stash of a shard is kept, but the key has moved to
another shard.
-/

namespace Draugr.Htc
open Draugr.Lib

/-- What a caller of `htc_find` sees. -/
def findReply (h : ℕ) (want : Bool) (t : Table) : HtcError × Option ℕ :=
  ((htcFind h want t).1, (htcFind h want t).2.1)

/-- `n` grows without a new seed that all return `HTC_OK`. -/
def growTimes : ℕ → Table → Option Table
  | 0, t => some t
  | n + 1, t => if (htcGrow false t).1 = .ok then growTimes n (htcGrow false t).2 else none

variable {t t' : Table} {h : ℕ}

/-! ## The answers -/

/-- The answer of `htc_find` is determined by the live records. -/
lemma Sound.findReply_eq (hs : Sound t) (want : Bool) :
    (∃ u, findReply h want t = (.ok, if want then some u else none) ∧ t.Has h u) ∨
      findReply h want t = (.notFound, if want then some 0 else none) ∧ t.Absent h := by
  rcases htcFind_settled hs.settled hs.cache h want with ⟨u, t', he, hu, -, -⟩ | ⟨he, ha⟩
  · exact .inl ⟨u, by rw [findReply, he], hu⟩
  · exact .inr ⟨by rw [findReply, he], ha⟩

/-- Tables with the same live records answer alike. -/
lemma Sound.findReply_same (hs : Sound t) (hs' : Sound t') (hsame : Same t.toCore t'.toCore) (h : ℕ)
    (want : Bool) :
    findReply h want t' = findReply h want t := by
  rcases hs.findReply_eq (h := h) want with ⟨u, he, i, hi, hk, hu⟩ | ⟨he, ha⟩
  · rcases hs'.findReply_eq (h := h) want with ⟨u', he', hu'⟩ | ⟨he', ha'⟩
    · rw [hsame.has, hs.settled.has_iff hi hk, hu] at hu'
      rw [he, he', hu']
    · exact absurd hk (hsame.absent.mp ha' i hi)
  · rcases hs'.findReply_eq (h := h) want with ⟨u', he', hu'⟩ | ⟨he', -⟩
    · exact absurd ((hsame.has _ _).mp hu') (ha.not_has u')
    · rw [he, he']

/-- A run is split at the state it has reached. -/
lemma SafeRun.append {ops ops' : List HtcOp} :
    ∀ {t : Table}, SafeRun (ops ++ ops') t → SafeRun ops t ∧ ∀ t',
      runOps ops t = some t' → SafeRun ops' t' := by
  induction ops with
  | nil =>
    intro t h
    exact ⟨trivial, fun t' he => by cases he; exact h⟩
  | cons op ops ih =>
    rintro t ⟨hop, hrest⟩
    refine ⟨⟨hop, fun e out t' he => (ih (hrest e out t' he)).1⟩, fun t' he => ?_⟩
    obtain ⟨⟨e, out, t₁⟩, hr, he⟩ := Option.bind_eq_some_iff.mp he
    exact (ih (hrest e out t₁ hr)).2 t' he

/-- Calls that do not grow meet their conditions while the global stash is empty. -/
lemma SafeRun.of_noGrow : ∀ {ops : List HtcOp} {t : Table},
    Sound t → (∀ i, t.stash.slots i = none) → NoGrow ops t →
    SafeRun ops t ∧ ∀ t', runOps ops t = some t' → ∀ i, t'.stash.slots i = none
  | [], t, _, hst, _ => ⟨trivial, fun t' he => by cases he; exact hst⟩
  | op :: ops, t, hs, hst, hq => by
    have hnext : ∀ e out t₁, op.run t = some (e, out, t₁) →
        op.Safe t ∧ Sound t₁ ∧ (∀ i, t₁.stash.slots i = none) ∧ NoGrow ops t₁ := by
      intro e out t₁ he
      rw [NoGrow, he] at hq
      obtain ⟨hsafe, hst₁⟩ := hs.safe_of_growStarted hst he hq.1
      obtain ⟨e', out', t', he', hs'⟩ := hs.step hsafe
      rw [he] at he'
      cases he'
      exact ⟨hsafe, hs', hst₁, hq.2⟩
    obtain ⟨⟨e, out, t₁⟩, he⟩ := hs.run_returns op
    obtain ⟨hsafe, hs₁, hst₁, hq₁⟩ := hnext e out t₁ he
    have ih := of_noGrow hs₁ hst₁ hq₁
    refine ⟨⟨hsafe, fun e' out' t' he' => ?_⟩, fun t' hr => ?_⟩
    · rw [he] at he'
      cases he'
      exact ih.1
    · rw [runOps, he] at hr
      exact ih.2 t' hr

/-- An attempt does not overflow the stash of its shard, and the shards divide the buckets of the
table that it leaves. -/
def Attempt.calm : Attempt → Bool
  | .stop _ _ => true
  | .entered t => decide (t.shardCount ∣ t.gen.numBuckets)
  | .overflow _ => false

/-- While the global stash is empty, such a call loses nothing, whether it grows or not. -/
def HtcOp.calm (t : Table) : HtcOp → Bool
  | .insert key value => (insertAttempt key.toNat value.toNat t).calm
  | .upsert key value =>
    (htcSearch t.toCore key.toNat true).isSome || (insertAttempt key.toNat value.toNat t).calm
  | .grow reseed => !reseed && decide (t.shardCount ∣ t.gen.numBuckets)
  | _ => true

/-- Every call of a run is calm and finds the global stash empty. -/
def calmRun : List HtcOp → Table → Bool
  | [], _ => true
  | op :: ops, t => t.stash.liveCount == 0 && op.calm t && (op.run t).all fun r => calmRun ops r.2.2

/-- A calm attempt is safe. -/
lemma Sound.insertSafe_of_calm (hs : Sound t) (hst : ∀ i, t.stash.slots i = none) {v : ℕ}
    (hc : (insertAttempt h v t).calm = true) : InsertSafe h v t := by
  have hset := insertAttempt_settled hs.settled (not_hidden hst h) v
  have hkept := insertAttempt_stored hs.settled.toStored h v
  refine ⟨not_hidden hst h, ?_⟩
  generalize insertAttempt h v t = a at hset hkept hc
  rcases a with ⟨e, t'⟩ | t' | t'
  · trivial
  · obtain ⟨-, -, -, hk⟩ := hkept
    exact fun _ => growSafe_of_dvd hset.1.placed (fun i => by rw [hk.stash, hst])
      (of_decide_eq_true hc)
  · cases hc

/-- A calm call is safe while the global stash is empty. -/
lemma Sound.safe_of_calm (hs : Sound t) (hst : ∀ i, t.stash.slots i = none) {op : HtcOp}
    (hc : op.calm t = true) :
    op.Safe t := by
  cases op with
  | insert key value => exact hs.insertSafe_of_calm hst hc
  | upsert key value =>
    intro hf
    rw [HtcOp.calm, hf, Option.isSome_none, Bool.false_or] at hc
    exact hs.insertSafe_of_calm hst hc
  | grow reseed =>
    rw [HtcOp.calm, Bool.and_eq_true, Bool.not_eq_true'] at hc
    obtain ⟨rfl, hd⟩ := hc
    exact growSafe_of_dvd hs.settled.placed hst (of_decide_eq_true hd)
  | _ => trivial

/-- The calls of a calm run meet their conditions. -/
lemma SafeRun.of_calm : ∀ {ops : List HtcOp} {t : Table},
    Sound t → calmRun ops t = true → SafeRun ops t
  | [], _, _, _ => trivial
  | op :: ops, t, hs, hc => by
    rw [calmRun, Bool.and_eq_true, Bool.and_eq_true, beq_iff_eq] at hc
    obtain ⟨⟨h0, hop⟩, hrest⟩ := hc
    have hsafe := hs.safe_of_calm (hs.settled.placed.stash.slots_none h0) hop
    refine ⟨hsafe, fun e out t' he => ?_⟩
    obtain ⟨e', out', t₁, he', hs₁⟩ := hs.step hsafe
    rw [he] at he' hrest
    cases he'
    exact SafeRun.of_calm hs₁ hrest

/-- Grows that lose nothing keep the live records. -/
lemma Sound.growTimes : ∀ {n : ℕ} {t t' : Table},
    Sound t → SafeRun (List.replicate n (.grow false)) t →
    growTimes n t = some t' → Sound t' ∧ Same t.toCore t'.toCore
  | 0, t, t', hs, _, he => by
    cases he
    exact ⟨hs, .refl _⟩
  | n + 1, t, t', hs, hsafe, he => by
    rw [Htc.growTimes] at he
    split at he
    · obtain ⟨hs₁, hsame⟩ := hs.grown (htcGrow_grown false t) hsafe.1
      obtain ⟨hs₂, hsame'⟩ := hs₁.growTimes (hsafe.2 _ _ _ rfl) he
      exact ⟨hs₂, hsame.trans hsame'⟩
    · cases he

/-- In a run whose calls all meet their conditions, consecutive grows keep every answer. -/
theorem htcGrow_keeps_finds (cfg : Option HtcConfig) (seedCtr : ℕ) (mem : List Bool)
    (ops : List HtcOp) (n : ℕ) (t t' : Table)
    (hsafe : SafeRun (ops ++ List.replicate n (.grow false)) (htcCreate cfg seedCtr mem))
    (hrun : runOps ops (htcCreate cfg seedCtr mem) = some t) (hgrow : growTimes n t = some t') :
    ∀ h want, findReply h want t' = findReply h want t := by
  intro h want
  obtain ⟨hsafe, hgrows⟩ := hsafe.append
  obtain ⟨t₁, hrun₁, hs⟩ := (htcCreate_sound cfg seedCtr mem).run hsafe
  rw [hrun] at hrun₁
  cases hrun₁
  obtain ⟨hs', hsame⟩ := hs.growTimes (hgrows t hrun) hgrow
  exact hs.findReply_same hs' hsame h want

/-- A new table of 16 buckets and 4 shards that grows when it has an entry for each bucket. -/
def crowdedNew : Table := htcCreate (some ⟨16, 1, 4, false⟩) 0 []

/-- Both buckets of the first nine keys are the bucket `5`: the ninth goes to the stash of its
shard. The last three have that primary bucket, too, and go to their secondary ones. -/
def crowdedOps : List HtcOp :=
  [278, 295, 1568, 1717, 2647, 2787, 2844, 2889, 2274, 1, 23, 40].map fun key =>
    .insert key (key + 1)

/-- Two grows of a table with entries in secondary buckets and in a stash. -/
theorem htcGrow_keeps_finds_crowded :
    ∃ t t', runOps crowdedOps crowdedNew = some t ∧ htcSearch t.toCore 23 true = some
      (.slot (8, 0)) ∧
      htcSearch t.toCore 2274 true = some (.shard 1 0) ∧ growTimes 2 t = some t' ∧
      t'.gen.numBuckets = 64 ∧
      ∀ h want, findReply h want t' = findReply h want t := by
  have hcomp : ((runOps crowdedOps crowdedNew).bind fun t => (growTimes 2 t).map fun t' =>
      (htcSearch t.toCore 23 true, htcSearch t.toCore 2274 true, t'.gen.numBuckets)) =
      some (some (.slot (8, 0)), some (.shard 1 0), 64) := by decide +kernel
  obtain ⟨t, ht, hcomp⟩ := Option.bind_eq_some_iff.mp hcomp
  obtain ⟨t', ht', hcomp⟩ := Option.map_eq_some_iff.mp hcomp
  obtain ⟨hsec, hcomp⟩ := Prod.mk.inj hcomp
  obtain ⟨hsh, hn⟩ := Prod.mk.inj hcomp
  have hsafe : SafeRun (crowdedOps ++ List.replicate 2 (.grow false)) crowdedNew :=
    .of_calm (htcCreate_sound ..) (by decide +kernel)
  exact ⟨t, t', ht, hsec, hsh, ht', hn, htcGrow_keeps_finds _ _ _ crowdedOps 2 t t' hsafe ht ht'⟩

/-- Eight keys fill both buckets of the ninth, which goes to the stash of its shard; after a grow
the ninth key belongs to another shard. -/
theorem htcGrow_loses_key :
    (runOps ([278, 295, 1568, 1717, 2647, 2787, 2844, 2889, 2274].map (HtcOp.insert · 1))
        (htcCreate (some ⟨16, 1, 3, false⟩) 0 [])).map
      (fun t => (findReply 2274 true t, (htcGrow false t).1,
        findReply 2274 true (htcGrow false t).2)) =
    some ((.ok, some 1), .ok, (.notFound, some 0)) := by
  decide +kernel

/-! ## At most one entry for a key -/

/-- A key that is found and not hidden is a duplicate. -/
lemma Sound.insert_duplicate (hs : Sound t) (hh : h < 2 ^ 64) {v : ℕ} {want : Bool}
    (hsafe : InsertSafe h v t)
    (hf : (htcFind h want t).1 = .ok) : (htcInsert h v t).1 = .duplicate := by
  have hp : ¬ t.Absent h := by
    rcases hs.findReply_eq (h := h) want with ⟨u, -, i, hi, hk, -⟩ | ⟨he, -⟩
    · exact fun ha => ha i hi hk
    · rw [show (htcFind h want t).1 = (findReply h want t).1 from rfl, he] at hf
      cases hf
  obtain ⟨e, t', he, -, hi⟩ := hs.insert hh hsafe
  rw [he]
  cases hi with
  | duplicate same present => rfl
  | oom same absent fails => exact absurd absent hp
  | ok entered absent => exact absurd absent hp

/-- In every state of a run whose calls all meet their conditions, no two words have one key, and a
key that is found is a duplicate for an insertion that meets its condition. -/
theorem keys_distinct (cfg : Option HtcConfig) (seedCtr : ℕ) (mem : List Bool) (ops : List HtcOp)
    (hsafe : SafeRun ops (htcCreate cfg seedCtr mem)) :
    ∃ t, runOps ops (htcCreate cfg seedCtr mem) = some t ∧
      (∀ p q w w', t.wordAt p = some w → t.wordAt q = some w' →
        (t.recs w.idx).identityHash = (t.recs w'.idx).identityHash → p = q) ∧
      ∀ (key value : UInt64) (want : Bool), (HtcOp.insert key value).Safe t →
        (htcFind key.toNat want t).1 = .ok →
        (htcInsert key.toNat value.toNat t).1 = .duplicate := by
  obtain ⟨t, hrun, hs⟩ := (htcCreate_sound cfg seedCtr mem).run hsafe
  exact ⟨t, hrun, fun p q w w' hp hq he => hs.settled.unique hp hq he,
    fun key value want hins hf => hs.insert_duplicate key.toNat_lt hins hf⟩

/-- Eight more keys make the table grow, and the key in the stash is refused afterwards. -/
theorem keys_distinct_crowded :
    ∃ t, runOps (crowdedOps ++ [10, 11, 12, 13, 14, 15, 16, 17].map (HtcOp.insert · 1)) crowdedNew =
      some t ∧
      t.gen.numBuckets = 32 ∧ htcSearch t.toCore 2274 true = some (.shard 1 0) ∧
      (∀ p q w w', t.wordAt p = some w → t.wordAt q = some w' →
        (t.recs w.idx).identityHash = (t.recs w'.idx).identityHash → p = q) ∧
      (htcInsert 2274 9 t).1 = .duplicate := by
  have hcomp :
    (runOps (crowdedOps ++ [10, 11, 12, 13, 14, 15, 16, 17].map (HtcOp.insert · 1)) crowdedNew).map
      (fun t => (t.gen.numBuckets, htcSearch t.toCore 2274 true, (htcFind 2274 true t).1)) =
      some (32, some (.shard 1 0), .ok) := by decide +kernel
  have hsafe :
    SafeRun ((crowdedOps ++ [10, 11, 12, 13, 14, 15, 16, 17].map (HtcOp.insert · 1)) ++
      [.insert 2274 9])
      crowdedNew := .of_calm (htcCreate_sound ..) (by decide +kernel)
  obtain ⟨hsafe, hlast⟩ := hsafe.append
  obtain ⟨t, ht, hunique, hdup⟩ := keys_distinct (some ⟨16, 1, 4, false⟩) 0 [] _ hsafe
  rw [show htcCreate (some ⟨16, 1, 4, false⟩) 0 [] = crowdedNew from rfl] at ht
  rw [ht, Option.map_some, Option.some_inj, Prod.mk.injEq, Prod.mk.injEq] at hcomp
  obtain ⟨hn, hsh, hf⟩ := hcomp
  exact ⟨t, ht, hn, hsh, hunique, hdup 2274 9 true (hlast t ht).1 hf⟩

/-- The seventeenth key makes the table grow. The ninth, which was stashed, is then not found, and
its insertion makes a second entry. -/
theorem keys_twice :
    (runOps ([278, 295, 1568, 1717, 2647, 2787, 2844, 2889, 2274, 10, 11, 12, 13, 14, 15, 16, 17,
      2274].map
        (HtcOp.insert · 1)) (htcCreate (some ⟨16, 1, 3, false⟩) 0 [])).map
      (fun t => [Place.slot (21, 1), Place.shard 2 0].map fun p => (t.wordAt p).map fun w =>
        (t.recs w.idx).identityHash) =
    some [some 2274, some 2274] := by
  decide +kernel

end Draugr.Htc
