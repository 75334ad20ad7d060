import Draugr.Htc.Loss

/-!
# Updating a value

`htc_update` writes the value of a record and changes nothing else, so it comes down to two record
numbers: the one it writes (`recordWritten`) and the one `htc_find` reads (`recordRead`). They
differ in two cases: the hit is in the global stash, where `htc_update` reads the number from the
stash of the shard instead, or the front cache still points to another record of the key.
`UpdateFits` says of the state before the call that neither is the case, and `htcUpdate_right_iff`
that this is what it takes.
-/

namespace Draugr.Htc
open Draugr.Lib

/-- The record that `htc_front_cache_lookup` returns the value of. -/
def cacheRecord (t : Table) (hash : ℕ) : Option ℕ :=
  (List.range frontCacheEntries).findSome? fun i =>
    match t.cache i with
    | none => none
    | some e =>
      let r := t.recs e.idx
      if e.hash = hash ∧ e.idx < t.count ∧ r.generation = e.generation ∧ r.identityHash = hash ∧
          r.flags = 0
      then some e.idx else none

/-- The record whose value `htc_find` returns. -/
def recordRead (t : Table) (hash : ℕ) : Option ℕ :=
  match if t.cacheOn then cacheRecord t hash else none with
  | some i => some i
  | none => (htcSearch t.toCore hash true).map t.idxAt

/-- The record whose value `htc_update` writes. -/
def recordWritten (t : Table) (hash : ℕ) : Option ℕ :=
  (htcSearch t.toCore hash true).map fun p => t.idxAt (updatePlace t.toCore hash p)

/-- A successful update is seen by the lookups of its key and by no other lookup. -/
def UpdateRight (key value : UInt64) (t : Table) : Prop :=
  (htcUpdate key.toNat value.toNat t).1 = .ok →
    findReply key.toNat true (htcUpdate key.toNat value.toNat t).2 = (.ok, some value.toNat) ∧
    ∀ (k : UInt64) (want : Bool), k ≠ key →
      findReply k.toNat want (htcUpdate key.toNat value.toNat t).2 = findReply k.toNat want t

/-- The record in the slot `j` of the stash of the shard of a key; an empty slot stands for the
record `0`. -/
def shardRecord (t : Table) (hash j : ℕ) : ℕ :=
  (((t.shards (t.shardAt (placementHash hash t.gen.seed))).slots j).map Word.idx).getD 0

/-- The condition on the state before an update. The front cache names no other record of the key
than a hit outside of the global stash. A hit in the slot `j` of the global stash is no hit in the
stash of the shard, so there the slot `j` has to hold the record that `htc_find` reads. -/
structure UpdateFits (key : UInt64) (t : Table) : Prop where
  cache : ∀ p, htcSearch t.toCore key.toNat true = some p → (∀ j, p ≠ .global j) →
    t.cacheOn = true →
    ∀ i, cacheRecord t key.toNat = some i → i = t.idxAt p
  stash : ∀ j, htcSearch t.toCore key.toNat true = some (.global j) →
    recordRead t key.toNat = some (shardRecord t key.toNat j)

/-- The key has the value already, and so has every other key that reads the record of the stash of
the shard when the hit is in the global stash. -/
structure UpdateIdle (key value : UInt64) (t : Table) : Prop where
  same : ∀ p, htcSearch t.toCore key.toNat true = some p →
    findReply key.toNat true t = (.ok, some value.toNat)
  others : ∀ j, htcSearch t.toCore key.toNat true = some (.global j) → ∀ k : UInt64, k ≠ key →
    recordRead t k.toNat = some (shardRecord t key.toNat j) →
    findReply k.toNat true t = (.ok, some value.toNat)

variable {t : Table} {h i j v : ℕ}

/-! ## The records of a lookup -/

/-- The front cache returns the value of its record. -/
lemma htcFrontCacheLookup_eq (t : Table) (h : ℕ) :
    htcFrontCacheLookup t h = (cacheRecord t h).map fun i => (t.recs i).userValue := by
  unfold htcFrontCacheLookup cacheRecord
  rw [List.map_findSome?]
  congr 1
  funext k
  rw [Function.comp_apply]
  cases t.cache k with
  | none => rfl
  | some e =>
    dsimp only
    split <;> rfl

/-- The record of the front cache is one of the key. -/
lemma keyOf_cacheRecord (hc : cacheRecord t h = some i) : t.keyOf i = h := by
  obtain ⟨k, -, hk⟩ := List.exists_of_findSome?_eq_some hc
  split at hk
  · cases hk
  · dsimp only at hk
    split at hk
    · rename_i hcond
      cases hk
      exact hcond.2.2.2.1
    · cases hk

/-- The record that a lookup reads is one of its key. -/
lemma keyOf_recordRead (hr : recordRead t h = some i) : t.keyOf i = h := by
  unfold recordRead at hr
  split at hr
  · rename_i i' hc
    cases hr
    split at hc
    · exact keyOf_cacheRecord hc
    · cases hc
  · obtain ⟨p, hp, rfl⟩ := Option.map_eq_some_iff.mp hr
    exact (search_hit hp).2

/-- What `htc_find` answers when the value is asked for. -/
lemma findReply_true (t : Table) (h : ℕ) : findReply h true t =
    match recordRead t h with
    | some i => (.ok, some (t.recs i).userValue)
    | none => (.notFound, some 0) := by
  unfold findReply htcFind recordRead
  rw [Bool.true_and, htcFrontCacheLookup_eq]
  have htable : ((findTable h true t).1, (findTable h true t).2.1) =
      match (htcSearch t.toCore h true).map t.idxAt with
      | some i => (.ok, some (t.recs i).userValue)
      | none => (.notFound, some 0) := by
    unfold findTable
    cases htcSearch t.toCore h true <;> rfl
  cases t.cacheOn with
  | false => exact htable
  | true =>
    cases cacheRecord t h with
    | none => exact htable
    | some i => rfl

/-- What `htc_find` answers when the value is not asked for. -/
lemma findReply_false (t : Table) (h : ℕ) : findReply h false t =
    match htcSearch t.toCore h true with
    | some _ => (.ok, none)
    | none => (.notFound, none) := by
  unfold findReply htcFind findTable
  cases htcSearch t.toCore h true <;> rfl

/-! ## Writing a value -/

/-- The table after the value of a record was written. -/
def Table.written (t : Table) (i v : ℕ) : Table := { t with toCore := t.setValue i v }

/-- A written value changes no key, generation or flag. -/
lemma setValue_face (t : Table) (i v k : ℕ) :
    ((t.written i v).recs k).identityHash = (t.recs k).identityHash ∧
    ((t.written i v).recs k).generation = (t.recs k).generation ∧
    ((t.written i v).recs k).flags = (t.recs k).flags := by
  have hrecs : (t.written i v).recs = Function.update t.recs i { t.recs i with userValue := v } :=
    rfl
  rw [hrecs]
  by_cases hk : k = i
  · subst hk
    rw [Function.update_self]
    exact ⟨rfl, rfl, rfl⟩
  · rw [Function.update_of_ne hk]
    exact ⟨rfl, rfl, rfl⟩

/-- The search reads the record store through `Word.isFor` only. -/
lemma htcSearch_recs (c : Core) {recs : ℕ → HtcRecord}
    (hr : Word.isFor recs = Word.isFor c.recs) (h : ℕ)
    (all : Bool) : htcSearch { c with recs := recs } h all = htcSearch c h all := by
  unfold htcSearch htcBucketScan htcStashFind
  simp only [hr]
  rfl

/-- A value does not change what the search finds. -/
lemma htcSearch_written (t : Table) (i v h : ℕ) (all : Bool) :
    htcSearch (t.written i v).toCore h all = htcSearch t.toCore h all := by
  refine htcSearch_recs t.toCore ?_ h all
  funext key tag w
  obtain ⟨hkey, -, hflags⟩ := setValue_face t i v w.idx
  unfold Word.isFor
  rw [← hkey, ← hflags]
  rfl

/-- A value does not change what the front cache finds. -/
lemma cacheRecord_written (t : Table) (i v h : ℕ) :
    cacheRecord (t.written i v) h = cacheRecord t h := by
  unfold cacheRecord
  congr 1
  funext k
  show (match t.cache k with
    | none => none
    | some e => _) = _
  cases t.cache k with
  | none => rfl
  | some e =>
    obtain ⟨hkey, hgen, hflags⟩ := setValue_face t i v e.idx
    dsimp only
    rw [hkey, hgen, hflags]
    rfl

/-- A value does not change which record a lookup reads. -/
lemma recordRead_written (t : Table) (i v h : ℕ) :
    recordRead (t.written i v) h = recordRead t h := by
  unfold recordRead
  rw [cacheRecord_written, htcSearch_written]
  rfl

/-- The values after one was written. -/
lemma userValue_written (t : Table) (i v k : ℕ) :
    ((t.written i v).recs k).userValue = if k = i then v else (t.recs k).userValue := by
  have hrecs : (t.written i v).recs = Function.update t.recs i { t.recs i with userValue := v } :=
    rfl
  rw [hrecs]
  split
  · rename_i hk
    rw [hk, Function.update_self]
  · rename_i hk
    rw [Function.update_of_ne hk]

/-- `htc_update` writes the value of its record. -/
lemma htcUpdate_eq (h v : ℕ) (t : Table) : htcUpdate h v t =
    match recordWritten t h with
    | some j => (.ok, t.written j v)
    | none => (.notFound, t) := by
  unfold htcUpdate recordWritten
  cases htcSearch t.toCore h true <;> rfl

/-- A key that is found is read somewhere. -/
lemma recordRead_isSome (hw : recordWritten t h = some j) : ∃ i, recordRead t h = some i := by
  obtain ⟨p, hp, -⟩ := Option.map_eq_some_iff.mp hw
  unfold recordRead
  split
  · exact ⟨_, rfl⟩
  · rw [hp]
    exact ⟨_, rfl⟩

/-- The answers of the lookups of one key after a value was written. -/
lemma findReply_written (hr : recordRead t h = some i) (j v : ℕ) :
    findReply h true (t.written j v) = (.ok, some (if i = j then v else (t.recs i).userValue)) := by
  rw [findReply_true, recordRead_written, hr]
  dsimp only
  rw [userValue_written]

/-- The answers of the lookups of a key that does not read the record, or whose record has the value
already. -/
lemma findReply_written_other (hr : recordRead t h = some j → (t.recs j).userValue = v)
    (want : Bool) :
    findReply h want (t.written j v) = findReply h want t := by
  cases want with
  | false => rw [findReply_false, findReply_false, htcSearch_written]
  | true =>
    cases hi : recordRead t h with
    | none => rw [findReply_true, findReply_true, recordRead_written, hi]
    | some i =>
      rw [findReply_written hi, findReply_true, hi]
      split
      · rename_i hij
        subst hij
        dsimp only
        rw [hr hi]
      · rfl

/-- An update is right exactly when the record it writes is the one that lookups of the key read, or
when these read the value already and so do all others that read the record. -/
lemma updateRight_iff (key value : UInt64) (t : Table) : UpdateRight key value t ↔
    ∀ j, recordWritten t key.toNat = some j → recordRead t key.toNat = some j ∨
      (∀ i, recordRead t key.toNat = some i → (t.recs i).userValue = value.toNat) ∧
      ∀ k : UInt64,
      k ≠ key → recordRead t k.toNat = some j → (t.recs j).userValue = value.toNat := by
  unfold UpdateRight
  rw [htcUpdate_eq]
  cases hw : recordWritten t key.toNat with
  | none =>
    constructor
    · rintro - j hj
      cases hj
    · rintro - he
      cases he
  | some j =>
    obtain ⟨i, hi⟩ := recordRead_isSome hw
    dsimp only
    constructor
    · intro h j' hj'
      cases hj'
      obtain ⟨hown, hother⟩ := h rfl
      rw [hi]
      by_cases hij : i = j
      · exact .inl (congrArg some hij)
      · rw [findReply_written hi, if_neg hij] at hown
        refine .inr ⟨fun i' hi' => ?_, fun k hk hr => ?_⟩
        · cases hi'
          exact Option.some.inj (Prod.mk.inj hown).2
        · have hk' := hother k true hk
          rw [findReply_written hr, if_pos rfl, findReply_true, hr] at hk'
          exact (Option.some.inj (Prod.mk.inj hk').2).symm
    · intro h _
      rcases h j rfl with hown | ⟨hown, hother⟩
      · -- the record read is the one written, and only its own key reads it
        rw [hi] at hown
        cases hown
        refine ⟨?_, fun k want hk => findReply_written_other (fun hr => ?_) want⟩
        · rw [findReply_written hi, if_pos rfl]
        · have hsame : k.toNat = key.toNat := (keyOf_recordRead hr).symm.trans (keyOf_recordRead hi)
          exact absurd (UInt64.toNat_inj.mp hsame) hk
      · refine ⟨?_, fun k want hk => findReply_written_other (hother k hk) want⟩
        rw [findReply_written hi, hown i hi]
        split <;> rfl

/-! ## The state before the update -/

/-- A hit outside of the global stash is the record that is written. -/
lemma recordWritten_outside {p : Place} (hp : htcSearch t.toCore h true = some p)
    (hout : ∀ j, p ≠ .global j) :
    recordWritten t h = some (t.idxAt p) := by
  rw [recordWritten, hp]
  cases p with
  | slot x => rfl
  | shard s k => rfl
  | global k => exact absurd rfl (hout k)

/-- For a hit in the global stash it is the record in the stash of the shard. -/
lemma recordWritten_global (hp : htcSearch t.toCore h true = some (.global j)) :
    recordWritten t h = some (shardRecord t h j) := by
  rw [recordWritten, hp]
  rfl

/-- A hit is outside of the global stash or in it. -/
lemma Place.outside_or_global (p : Place) : (∀ j, p ≠ .global j) ∨ ∃ j, p = .global j := by
  cases p with
  | slot x => exact .inl fun j he => by cases he
  | shard s k => exact .inl fun j he => by cases he
  | global k => exact .inr ⟨k, rfl⟩

/-- What `htc_find` reads outside of the global stash is the hit, unless the front cache names
another record. -/
lemma recordRead_eq_hit {p : Place} (hp : htcSearch t.toCore h true = some p) :
    recordRead t h = some (t.idxAt p) ↔
      (t.cacheOn = true → ∀ i, cacheRecord t h = some i → i = t.idxAt p) := by
  unfold recordRead
  rw [hp]
  cases t.cacheOn with
  | false => exact ⟨fun _ hon => (by cases hon), fun _ => rfl⟩
  | true =>
    rw [if_pos rfl]
    cases cacheRecord t h with
    | none => exact ⟨fun _ _ i hi => (by cases hi), fun _ => rfl⟩
    | some i =>
      constructor
      · intro he _ i' hi'
        cases hi'
        exact Option.some.inj he
      · exact fun hall => congrArg some (hall rfl i rfl)

/-- The condition on the state: the record read is the one written. -/
lemma updateFits_iff (key : UInt64) (t : Table) : UpdateFits key t ↔
    ∀ j, recordWritten t key.toNat = some j → recordRead t key.toNat = some j := by
  constructor
  · intro hf j hj
    obtain ⟨p, hp, -⟩ := Option.map_eq_some_iff.mp hj
    rcases p.outside_or_global with hout | ⟨k, rfl⟩
    · rw [recordWritten_outside hp hout] at hj
      rw [← hj]
      exact (recordRead_eq_hit hp).mpr (hf.cache p hp hout)
    · rw [recordWritten_global hp] at hj
      rw [← hj]
      exact hf.stash k hp
  · intro hall
    refine ⟨fun p hp hout => ?_, fun k hp => hall _ (recordWritten_global hp)⟩
    exact (recordRead_eq_hit hp).mp (hall _ (recordWritten_outside hp hout))

/-- A record outside of the global stash is read under its own key only. -/
lemma recordRead_hit_key {p : Place} {k : ℕ} (hp : htcSearch t.toCore h true = some p)
    (hr : recordRead t k = some (t.idxAt p)) : k = h :=
  (keyOf_recordRead hr).symm.trans (search_hit hp).2

/-- The reply of a lookup whose record has the value. -/
lemma findReply_eq_iff (hr : recordRead t h = some i) :
    findReply h true t = (.ok, some v) ↔ (t.recs i).userValue = v := by
  rw [findReply_true, hr]
  constructor
  · intro he
    exact Option.some.inj (Prod.mk.inj he).2
  · rintro rfl
    rfl

/-- The lookups of the key and of all others that read the record have the value. -/
lemma updateIdle_iff (key value : UInt64) (t : Table) : UpdateIdle key value t ↔
    ∀ j, recordWritten t key.toNat = some j →
      (∀ i, recordRead t key.toNat = some i → (t.recs i).userValue = value.toNat) ∧
      ∀ k : UInt64,
      k ≠ key → recordRead t k.toNat = some j → (t.recs j).userValue = value.toNat := by
  constructor
  · intro hidle j hj
    obtain ⟨p, hp, -⟩ := Option.map_eq_some_iff.mp hj
    refine ⟨fun i hi => (findReply_eq_iff hi).mp (hidle.same p hp), fun k hk hr => ?_⟩
    rcases p.outside_or_global with hout | ⟨g, rfl⟩
    · rw [recordWritten_outside hp hout] at hj
      rw [← hj] at hr
      exact absurd (UInt64.toNat_inj.mp (recordRead_hit_key hp hr)) hk
    · rw [recordWritten_global hp] at hj
      rw [← hj] at hr
      rw [← Option.some.inj hj]
      exact (findReply_eq_iff hr).mp (hidle.others g hp k hk hr)
  · intro hall
    constructor
    · intro p hp
      have hw : recordWritten t key.toNat = some (t.idxAt (updatePlace t.toCore key.toNat p)) := by
        rw [recordWritten, hp]
        rfl
      obtain ⟨i, hi⟩ := recordRead_isSome hw
      exact (findReply_eq_iff hi).mpr ((hall _ hw).1 i hi)
    · intro j hp k hk hr
      exact (findReply_eq_iff hr).mpr ((hall _ (recordWritten_global hp)).2 k hk hr)

/-- In any table, whichever calls led to it, an update of a key is right exactly when the state
before it meets the condition, or the value is the one that is there. So it is right for all values
exactly when the state meets the condition. -/
theorem htcUpdate_right_iff (key : UInt64) (t : Table) :
    (∀ value, UpdateRight key value t ↔ UpdateFits key t ∨ UpdateIdle key value t) ∧
      ((∀ value, UpdateRight key value t) ↔ UpdateFits key t) := by
  have heach : ∀ value, UpdateRight key value t ↔ UpdateFits key t ∨ UpdateIdle key value t := by
    intro value
    rw [updateRight_iff, updateFits_iff, updateIdle_iff]
    cases recordWritten t key.toNat with
    | none =>
      constructor
      · intro _
        left
        intro j hj
        cases hj
      · intro _ j hj
        cases hj
    | some j =>
      constructor
      · intro h
        rcases h j rfl with hown | hidle
        · left
          intro j' hj'
          cases hj'
          exact hown
        · right
          intro j' hj'
          cases hj'
          exact hidle
      · rintro (hown | hidle) j' hj'
        · exact .inl (hown j' hj')
        · exact .inr (hidle j' hj')
  refine ⟨heach, fun h => ?_, fun hf value => (heach value).mpr (.inl hf)⟩
  -- two values cannot both be there already
  rcases (heach 0).mp (h 0) with hf | h₀
  · exact hf
  rcases (heach 1).mp (h 1) with hf | h₁
  · exact hf
  refine (updateFits_iff key t).mpr fun j hj => ?_
  obtain ⟨i, hi⟩ := recordRead_isSome hj
  have hz := ((updateIdle_iff key 0 t).mp h₀ j hj).1 i hi
  rw [((updateIdle_iff key 1 t).mp h₁ j hj).1 i hi] at hz
  cases hz

/-- Eight keys fill a bucket, eight more go to their secondary buckets, the first eight leave. After
the grow that follows two more insertions, the last key is in the global stash. -/
def hiddenOps : List HtcOp :=
  [66, 88, 121, 156, 170, 181, 193, 196, 61, 91, 98, 105, 122, 132, 149, 182].map
  (HtcOp.insert · 1) ++
    [196, 193, 181, 170, 156, 121, 88, 66].map HtcOp.remove ++
    [.insert 7 1, .insert 49 5, .grow false]

/-- The update of that key returns `HTC_OK`, its lookups do not see it, and it overwrites the value
of another key. -/
theorem htcUpdate_right_fails :
    ∃ t, runOps hiddenOps (htcCreate (some ⟨16, 1, 1, false⟩) 0 []) = some t ∧
    (htcUpdate 49 9 t).1 = .ok ∧ findReply 49 true (htcUpdate 49 9 t).2 = (.ok, some 5) ∧
    findReply 7 true t = (.ok, some 1) ∧ findReply 7 true (htcUpdate 49 9 t).2 = (.ok, some 9) ∧
    ¬ UpdateRight 49 9 t := by
  have hrun : (runOps hiddenOps (htcCreate (some ⟨16, 1, 1, false⟩) 0 [])).map
      (fun t => ((htcUpdate 49 9 t).1, findReply 49 true (htcUpdate 49 9 t).2, findReply 7 true t,
        findReply 7 true (htcUpdate 49 9 t).2)) =
      some (.ok, (.ok, some 5), (.ok, some 1), (.ok, some 9)) := by decide +kernel
  obtain ⟨t, ht, hall⟩ := Option.map_eq_some_iff.mp hrun
  simp only [Prod.mk.injEq] at hall
  obtain ⟨hok, hown, hbefore, hafter⟩ := hall
  refine ⟨t, ht, hok, hown, hbefore, hafter, fun hright => ?_⟩
  have h : findReply 49 true (htcUpdate 49 9 t).2 = (.ok, some 9) := (hright hok).1
  rw [hown] at h
  cases h

end Draugr.Htc
