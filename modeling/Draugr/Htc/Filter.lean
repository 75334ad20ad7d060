import Draugr.Htc.Loss

/-!
# The attached filter

`htc_set_filter` attaches an approximate membership filter to a table: `htc_insert` tells it every
key it enters, `htc_remove` every key it removes, and `htc_find` returns `HTC_ERR_NOT_FOUND` at once
when the filter does not know the key. The filter may refuse an insertion, and `htc_insert` ignores
that.

`Tallied t b` says that `b` bounds the number of entries of every key, whatever the table has gone
through; the filter counts at least as many while it refuses nothing, so it never hides a key that
the table would find.
-/

namespace Draugr.Htc
open Draugr.Lib

/-- `htc_amq_filter_t`: the calls of a filter with states in `σ`. -/
structure AmqFilter (σ : Type*) where
  insert : σ → ℕ → Bool × σ
  lookup : σ → ℕ → Bool
  delete : σ → ℕ → Bool × σ

section

variable {σ : Type*} (F : AmqFilter σ)

/-- The states a filter reaches from `f₀`, with the number of accepted insertions of each hash less
that of the removals. -/
inductive AmqFilter.History (f₀ : σ) : σ → (ℕ → ℤ) → Prop where
  | start : History f₀ f₀ fun _ => 0
  | insert {f : σ} {n : ℕ → ℤ} (h : ℕ) : History f₀ f n →
      History f₀ (F.insert f h).2 (if (F.insert f h).1 then Function.update n h (n h + 1) else n)
  | delete {f : σ} {n : ℕ → ℤ} (h : ℕ) : History f₀ f n →
      History f₀ (F.delete f h).2 (if (F.delete f h).1 then Function.update n h (n h - 1) else n)

/-- A lookup finds every hash that was accepted more often than removed. -/
def AmqFilter.Lawful (f₀ : σ) : Prop := ∀ f n, F.History f₀ f n → ∀ h, 0 < n h → F.lookup f h = true

/-- A table with its filter. `refused` counts the insertions that the filter refused; the source
does not. -/
structure Filtered (σ : Type*) where
  tbl : Table
  filter : σ
  refused : ℕ

/-- The filter update of `insert_done`. -/
def Filtered.entered (s : Filtered σ) (h : ℕ) : Filtered σ :=
  { s with
    filter := (F.insert s.filter h).2
    refused := if (F.insert s.filter h).1 then s.refused else s.refused + 1 }

/-- `htc_insert` with a filter. -/
def insertWith (h v : ℕ) (s : Filtered σ) : HtcError × Filtered σ :=
  match htcInsert h v s.tbl with
  | (.ok, t) => (.ok, { s with tbl := t }.entered F h)
  | (e, t) => (e, { s with tbl := t })

/-- The attempts of `htc_upsert` with a filter. -/
def upsertLoopWith (h v : ℕ) : ℕ → Filtered σ → HtcError × Filtered σ
  | 0, s => (.pathological, s)
  | k + 1, s =>
    match htcSearch s.tbl.toCore h true with
    | some p => (.ok, { s with tbl := { s.tbl with toCore := s.tbl.setValue (s.tbl.idxAt p) v } })
    | none =>
      match insertWith F h v s with
      | (.duplicate, s) => upsertLoopWith h v k s
      | r => r

/-- `htc_remove` with a filter. -/
def removeWith (h : ℕ) (s : Filtered σ) : Option (HtcError × Filtered σ) :=
  (htcRemove h s.tbl).map fun r =>
    match r with
    | (.ok, t) => (.ok, { s with tbl := t, filter := (F.delete s.filter h).2 })
    | (e, t) => (e, { s with tbl := t })

/-- `htc_find` with a filter: a key the filter does not know is not looked up, and `*out_value` is
not written. -/
def findWith (h : ℕ) (want : Bool) (s : Filtered σ) : HtcError × Option ℕ × Filtered σ :=
  if F.lookup s.filter h then
    ((htcFind h want s.tbl).1, (htcFind h want s.tbl).2.1,
      { s with tbl := (htcFind h want s.tbl).2.2 })
  else (.notFound, none, s)

/-- The table and the filter after a call. -/
def HtcOp.runWith : HtcOp → Filtered σ → Option (Filtered σ)
  | .insert key value, s => some (insertWith F key.toNat value.toNat s).2
  | .upsert key value, s => some (upsertLoopWith F key.toNat value.toNat 4 s).2
  | .update key value, s => some { s with tbl := (htcUpdate key.toNat value.toNat s.tbl).2 }
  | .remove key, s => (removeWith F key.toNat s).map (·.2)
  | .find key want, s => some (findWith F key.toNat want s).2.2
  | .grow reseed, s => some { s with tbl := (htcGrow reseed s.tbl).2 }

/-- The table and the filter after a list of calls. -/
def runWith : List HtcOp → Filtered σ → Option (Filtered σ)
  | [], s => some s
  | op :: ops, s => (op.runWith F s).bind (runWith ops)

end

/-- The result of `htc_find`: its reply, and the value when the reply is `HTC_OK`. -/
def foundValue (e : HtcError) (out : Option ℕ) : HtcError × Option ℕ :=
  (e, if e = .ok then out else none)

variable {c c' : Core} {t t' : Table} {h v i : ℕ} {b : ℕ → ℕ}

/-! ## The entries of a key -/

/-- The number of live records of a key. -/
noncomputable def Core.entries (c : Core) (h : ℕ) : ℕ∞ := {i | i ∈ c.live ∧ c.keyOf i = h}.encard

/-- The entries of a key while records only leave. -/
lemma entries_le (hl : c'.live ⊆ c.live) (hk : ∀ j ∈ c'.live, c'.keyOf j = c.keyOf j) (h : ℕ) :
    c'.entries h ≤ c.entries h := by
  refine Set.encard_le_encard ?_
  rintro j ⟨hj, hkj⟩
  exact ⟨hl hj, (hk j hj).symm.trans hkj⟩

/-- The entries of a key after one was entered. -/
lemma Entered.entries_le (he : Entered c c' h v) (k : ℕ) :
    c'.entries k ≤ c.entries k + if k = h then 1 else 0 := by
  obtain ⟨i, -, hl, hki, -⟩ := he.live
  have hsub :
      {j | j ∈ c'.live ∧ c'.keyOf j = k} ⊆ {j | j ∈ c.live ∧ c.keyOf j = k} ∪
        {j | j = i ∧ k = h} := by
    rintro j ⟨hj, hk⟩
    rw [hl] at hj
    rcases hj with rfl | hj
    · exact .inr ⟨rfl, hk.symm.trans hki⟩
    · refine .inl ⟨hj, ?_⟩
      rw [Core.keyOf, ← he.recs j hj]
      exact hk
  refine (Set.encard_le_encard hsub).trans ((Set.encard_union_le _ _).trans (add_le_add_right ?_ _))
  by_cases hkh : k = h
  · rw [if_pos hkh, Set.encard_le_one_iff]
    rintro x y ⟨rfl, -⟩ ⟨rfl, -⟩
    rfl
  · rw [if_neg hkh, nonpos_iff_eq_zero, Set.encard_eq_zero, Set.eq_empty_iff_forall_notMem]
    exact fun j hj => hkh hj.2

/-- The entries of a key after one was removed. -/
lemma Removed.entries_le (hr : Removed c c' h) (k : ℕ) :
    c'.entries k + (if k = h then 1 else 0) ≤ c.entries k := by
  obtain ⟨i, hi, hk, hl⟩ := hr.live
  have hsub : c'.live ⊆ c.live := by
    rw [hl]
    exact Set.sdiff_subset
  by_cases hkh : k = h
  · subst hkh
    rw [if_pos rfl, Core.entries, Core.entries]
    have hmem : i ∈ {j | j ∈ c.live ∧ c.keyOf j = k} := ⟨hi, hk⟩
    rw [← Set.encard_sdiff_singleton_add_one hmem]
    refine add_le_add_left (Set.encard_le_encard ?_) _
    rintro j ⟨hj, hkj⟩
    refine ⟨⟨hsub hj, ?_⟩, ?_⟩
    · rw [Core.keyOf, ← hr.recs j hj]
      exact hkj
    · rw [hl] at hj
      exact hj.2
  · rw [if_neg hkh, add_zero]
    exact Htc.entries_le hsub (fun j hj => congrArg HtcRecord.identityHash (hr.recs j hj)) k

/-- `b` bounds the entries of every key, and the front cache knows only keys with entries. -/
structure Tallied (t : Table) (b : ℕ → ℕ) : Prop where
  stored : Stored t.toCore
  entries : ∀ h, t.entries h ≤ b h
  cache : ∀ k e, t.cache k = some e → 1 ≤ b e.hash

/-- A key that is found has an entry. -/
lemma Tallied.find (ht : Tallied t b) {want : Bool} (hf : (htcFind h want t).1 = .ok) :
    1 ≤ b h := by
  have htable : (findTable h want t).1 = .ok → 1 ≤ b h := by
    rw [findTable]
    cases hs : htcSearch t.toCore h true with
    | none =>
      intro h
      cases h
    | some p =>
      intro _
      have h1 : (1 : ℕ∞) ≤ t.entries h := Set.one_le_encard_iff_nonempty.mpr ⟨_, search_hit hs⟩
      exact_mod_cast h1.trans (ht.entries h)
  rw [htcFind] at hf
  cases hc : (if (want && t.cacheOn) = true then htcFrontCacheLookup t h else none) with
  | none =>
    rw [hc] at hf
    exact htable hf
  | some u =>
    split at hc
    · obtain ⟨k, -, hk⟩ := List.exists_of_findSome?_eq_some hc
      split at hk
      · cases hk
      · next e he =>
        dsimp only at hk
        split at hk
        · next hcond =>
          rw [← hcond.1]
          exact ht.cache k e he
        · cases hk
    · cases hc

/-- Records only leave the table. -/
structure Shrunk (t t' : Table) : Prop where
  stored : Stored t'.toCore
  live : t'.live ⊆ t.live
  keys : ∀ j ∈ t'.live, t'.keyOf j = t.keyOf j
  cache : t'.cache = t.cache

/-- The bound of the entries while records only leave. -/
lemma Tallied.shrunk (ht : Tallied t b) (hs : Shrunk t t') : Tallied t' b where
  stored := hs.stored
  entries h := (entries_le hs.live hs.keys h).trans (ht.entries h)
  cache := by
    rw [hs.cache]
    exact ht.cache

/-- A grow loses records or keeps them. -/
lemma Grown.shrunk {reseed : Bool} {e : HtcError} (hg : Grown reseed t e t')
    (hs : Stored t.toCore) : Shrunk t t' := by
  have hcache : t'.cache = t.cache := by rw [hg.rest]
  rcases hg.core with ⟨-, -, g, s, he, hc⟩ | ⟨-, hc | hc⟩
  · have hre := (hs.emptied (t.gen.numBuckets * 2) (growSeed reseed t)).rehash (hs.remaining _ _) he
    have hlive : t'.live = (t.emptied (t.gen.numBuckets * 2) (growSeed reseed t)).live ∪
        {j | j ∈ t.gen.words.map Word.idx} := by
      rw [hc]
      exact hre.live
    refine ⟨hg.stored hs, ?_, fun j _ => by rw [hc]; rfl, hcache⟩
    rw [hlive]
    rintro j (hj | hj)
    · exact emptied_live_subset _ _ hj
    · obtain ⟨w, hw, rfl⟩ := List.mem_map.mp hj
      obtain ⟨x, y, -, -, hw⟩ := mem_words.mp hw
      exact mem_live (p := .slot (x, y)) hw
  · exact ⟨hg.stored hs, by rw [hc], fun j _ => by rw [hc], hcache⟩
  · refine ⟨hg.stored hs, ?_, fun j _ => by rw [hc]; rfl, hcache⟩
    rw [hc]
    rintro j ⟨p, w, hw, rfl⟩
    cases p with
    | slot x => exact mem_live (p := .slot x) hw
    | shard s k => exact mem_live (p := .shard s k) hw
    | global k => cases hw

/-- The live records are the same. -/
lemma Same.shrunk (hs : Same t.toCore t'.toCore) (hst : Stored t'.toCore)
    (hc : t'.cache = t.cache) : Shrunk t t' := by
  refine ⟨hst, hs.live.subset, fun j hj => ?_, hc⟩
  rw [hs.live] at hj
  exact congrArg HtcRecord.identityHash (hs.recs j hj)

/-- A record is entered under the key `h`. -/
lemma Tallied.entered (ht : Tallied t b) (hst : Stored t'.toCore)
    (he : Entered t.toCore t'.toCore h v)
    (hc : t'.cache = t.cache) : Tallied t' (Function.update b h (b h + 1)) where
  stored := hst
  entries k := by
    have hk := (he.entries_le k).trans (add_le_add_left (ht.entries k) _)
    by_cases hkh : k = h
    · subst hkh
      rw [Function.update_self]
      rw [if_pos rfl] at hk
      exact_mod_cast hk
    · rw [Function.update_of_ne hkh]
      rw [if_neg hkh, add_zero] at hk
      exact hk
  cache k e hk := by
    rw [hc] at hk
    have := ht.cache k e hk
    by_cases heh : e.hash = h
    · rw [heh, Function.update_self]
      omega
    · rw [Function.update_of_ne heh]
      exact this

/-- The bound after an insertion. -/
def insertTally (e : HtcError) (b : ℕ → ℕ) (h : ℕ) : ℕ → ℕ :=
  if e = .ok then Function.update b h (b h + 1) else b

/-- The end of an insertion. -/
lemma Tallied.insertDone (ht : Tallied t b) : Tallied (insertDone t) b := by
  have hsize : Tallied { t with size := t.size + 1 } b := ⟨ht.stored, ht.entries, ht.cache⟩
  rcases insertDone_cases t with ⟨-, hd⟩ | ⟨-, hd⟩
  · rw [hd]
    exact hsize.shrunk ((htcGrow_grown false { t with size := t.size + 1 }).shrunk ht.stored)
  · rw [hd]
    exact hsize

/-- A bound may be raised. -/
lemma Tallied.insertTally (ht : Tallied t b) (e : HtcError) (h : ℕ) :
    Tallied t (insertTally e b h) := by
  unfold Htc.insertTally
  split
  · have hle : ∀ k, b k ≤ Function.update b h (b h + 1) k := by
      intro k
      by_cases hk : k = h
      · subst hk
        rw [Function.update_self]
        exact Nat.le_succ _
      · rw [Function.update_of_ne hk]
    exact ⟨ht.stored, fun k => (ht.entries k).trans (by exact_mod_cast hle k),
      fun k e he => (ht.cache k e he).trans (hle _)⟩
  · exact ht

/-- The bound after the attempts of `htc_insert`. -/
lemma Tallied.insertLoop (h v : ℕ) : ∀ k {t : Table}, Tallied t b →
    Tallied (insertLoop h v k t).2 (Htc.insertTally (insertLoop h v k t).1 b h)
  | 0, t, ht => ht
  | k + 1, t, ht => by
    have ha := insertAttempt_stored ht.stored h v
    rw [Htc.insertLoop]
    generalize insertAttempt h v t = a at ha
    rcases a with ⟨e, t'⟩ | t' | t'
    · exact (ht.shrunk (ha.2.1.shrunk ha.1 ha.2.2.1.rest.1)).insertTally e h
    · obtain ⟨hs', he, hb, -⟩ := ha
      have := (ht.entered hs' he hb.rest.1).insertDone
      dsimp only
      rw [Htc.insertTally, if_pos rfl]
      exact this
    · have ht' := ht.shrunk (ha.2.1.shrunk ha.1 ha.2.2.1.rest.1)
      have hg := ht'.shrunk ((htcGrow_grown true t').shrunk ha.1)
      dsimp only
      generalize htcGrow true t' = r at hg
      rcases r with ⟨e, t''⟩
      cases e with
      | ok => exact hg.insertLoop h v k
      | _ => exact hg

/-- A value is written. -/
lemma Tallied.setValue (ht : Tallied t b) (i v : ℕ) :
    Tallied { t with toCore := t.setValue i v } b where
  stored := ht.stored.store (spared_setValue ht.stored i v)
  entries h :=
    (@Htc.entries_le t.toCore (t.setValue i v) (fun _ hj => hj)
      (fun j _ => keyOf_setValue i v j) h).trans
    (ht.entries h)
  cache := ht.cache

/-! ## Removing -/

/-- A record whose word was cleared is marked and freed. -/
lemma removeDone_stored {c₁ : Core} (t₁ : Table) (hs : Stored c₁) (hr : Ready c₁ i)
    (hc : t₁.toCore = c₁) :
    Stored (removeDone h i t₁).toCore ∧ Same c₁ (removeDone h i t₁).toCore := by
  have he : (removeDone h i t₁).toCore =
      { c₁ with
        recs := Function.update c₁.recs i (htcArenaRecZero { c₁.recs i with flags := 1 })
        freeIdx := i :: c₁.freeIdx } := by
    rw [← hc]
    simp only [removeDone, Core.arenaFree, Function.update_idem, Function.update_self]
  rw [he]
  refine ⟨hs.store (spared_free hs hr _), rfl, fun j hj => ?_⟩
  refine Function.update_of_ne ?_ ..
  rintro rfl
  exact hr.notLive hj

/-- The end of a removal, after the word of the key was cleared. -/
lemma Tallied.removeDone {p : Place} {w : Word} {c₁ : Core} (ht : Tallied t b)
    (hf : Frame t.toCore c₁)
    (hw : c₁.wordAt = Function.update t.wordAt p none) (hp : t.wordAt p = some w)
    (hk : t.keyOf w.idx = h) (hsh : ∀ s, (c₁.shards s).Counted) (hst : c₁.stash.Counted) :
    Tallied (removeDone h w.idx { t with toCore := c₁ }) (Function.update b h (b h - 1)) := by
  have hs₁ := ht.stored.clear hf hw hp hsh hst
  obtain ⟨hs₂, hsame⟩ :=
    removeDone_stored (h := h) { t with toCore := c₁ } hs₁ (ht.stored.ready_of_clear hf hw hp) rfl
  have hrem : Removed t.toCore (Htc.removeDone h w.idx { t with toCore := c₁ }).toCore h := by
    refine ⟨⟨w.idx, mem_live hp, hk, ?_⟩, fun j hj => ?_⟩
    · rw [hsame.live, live_clear ht.stored hw hp]
    · rw [hsame.live] at hj
      rw [hsame.recs j hj, hf.recs]
  refine ⟨hs₂, fun k => ?_, fun k e he => ?_⟩
  · have hk := (hrem.entries_le k).trans (ht.entries k)
    by_cases hkh : k = h
    · subst hkh
      rw [if_pos rfl] at hk
      rw [Function.update_self]
      have h1 : (1 : ℕ∞) ≤ b k := le_add_self.trans hk
      have h2 : 1 ≤ b k := by exact_mod_cast h1
      have h3 : ((b k - 1 : ℕ) : ℕ∞) + 1 = b k := by exact_mod_cast Nat.sub_add_cancel h2
      rw [← h3] at hk
      exact (ENat.add_le_add_iff_right ENat.one_ne_top).mp hk
    · rw [if_neg hkh, add_zero] at hk
      rw [Function.update_of_ne hkh]
      exact hk
  · obtain ⟨he, hne⟩ := Option.filter_eq_some_iff.mp he
    have hne : e.hash ≠ h := by simpa using hne
    rw [Function.update_of_ne hne]
    exact ht.cache k e he

/-- `htc_remove` on any table: it does not return, or removes one entry of the key, or finds
none. -/
lemma Tallied.remove (ht : Tallied t b) (h : ℕ) :
    htcRemove h t = none ∨
      (∃ t', htcRemove h t = some (.ok, t') ∧ Tallied t' (Function.update b h (b h - 1)) ∧
        1 ≤ b h) ∨
      htcRemove h t = some (.notFound, t) := by
  rw [htcRemove]
  cases hf : htcSearch t.toCore h true with
  | none => exact .inr (.inr rfl)
  | some p =>
    obtain ⟨w, hw, hk⟩ := htcSearch_key hf
    have h1 : (1 : ℕ∞) ≤ t.entries h := Set.one_le_encard_iff_nonempty.mpr ⟨_, search_hit hf⟩
    have hb : 1 ≤ b h := by exact_mod_cast h1.trans (ht.entries h)
    cases p with
    | slot x =>
      dsimp only
      rw [hw]
      dsimp only
      split
      · exact .inl rfl
      · refine .inr (.inl ⟨_, rfl, ?_, hb⟩)
        exact (@Tallied.removeDone _ _ _ (.slot x) _ { t.toCore with
            gen := t.gen.leave (t.gen.primary (placementHash h t.gen.seed)) x w }) ht
              (.ofGen leave_numBuckets leave_seed)
          (wordAt_setSlot leave_slots) hw hk ht.stored.shards ht.stored.stash
    | shard s j =>
      refine .inr (.inl ⟨_, rfl, ?_, hb⟩)
      rw [idxAt_eq hw]
      exact ht.removeDone ⟨rfl, rfl, rfl, rfl, rfl, rfl⟩ (wordAt_setShard rfl) hw hk
        (counted_update ht.stored.shards ((ht.stored.shards s).removeAt hw)) ht.stored.stash
    | global j =>
      refine .inr (.inl ⟨_, rfl, ?_, hb⟩)
      rw [idxAt_eq hw]
      exact (@Tallied.removeDone _ _ _ _ _ { t.toCore with stash := htcStashRemoveAt t.stash j }) ht
        ⟨rfl, rfl, rfl, rfl, rfl, rfl⟩
        (wordAt_setStash rfl) hw hk ht.stored.shards (ht.stored.stash.removeAt hw)

/-! ## Runs with a filter -/

section

variable {σ : Type*} {F : AmqFilter σ} {f₀ : σ} {s s' : Filtered σ}

/-- `htc_set_filter`. -/
def htcSetFilter (f : σ) (t : Table) : Filtered σ := ⟨t, f, 0⟩

/-- A table without entries, and without entries of it in the front cache. -/
structure Table.Empty (t : Table) : Prop where
  stored : Stored t.toCore
  live : t.live = ∅
  cache : ∀ k, t.cache k = none

/-- The filter counts at least the entries of every key. -/
def Known (F : AmqFilter σ) (f₀ : σ) (s : Filtered σ) : Prop :=
  ∃ n b, F.History f₀ s.filter n ∧ Tallied s.tbl b ∧ ∀ h, (b h : ℤ) ≤ n h

/-- A filter on an empty table. -/
lemma known_setFilter (he : t.Empty) : Known F f₀ (htcSetFilter f₀ t) := by
  refine ⟨_, fun _ => 0, .start, ⟨he.stored, fun h => ?_, fun k e hk => ?_⟩, fun _ => le_rfl⟩
  · rw [Core.entries, show (htcSetFilter f₀ t).tbl.live = ∅ from he.live]
    simp
  · rw [show (htcSetFilter f₀ t).tbl.cache k = none from he.cache k] at hk
    cases hk

/-- A change of the table that does not concern the filter. -/
lemma Known.setTbl (hk : Known F f₀ s) (ht : ∀ b, Tallied s.tbl b → Tallied t b) :
    Known F f₀ { s with tbl := t } := by
  obtain ⟨n, b, hn, hb, hle⟩ := hk
  exact ⟨n, b, hn, ht b hb, hle⟩

/-- `htc_find` with a filter does what it does without. -/
lemma Known.find (hk : Known F f₀ s) (hF : F.Lawful f₀) (h : ℕ) (want : Bool) :
    foundValue (findWith F h want s).1 (findWith F h want s).2.1 =
        foundValue (htcFind h want s.tbl).1 (htcFind h want s.tbl).2.1 ∧
      (findWith F h want s).2.2.tbl = (htcFind h want s.tbl).2.2 ∧
      (findWith F h want s).2.2.filter = s.filter ∧
      (findWith F h want s).2.2.refused = s.refused := by
  obtain ⟨n, b, hn, hb, hle⟩ := hk
  rw [findWith]
  by_cases hl : F.lookup s.filter h = true
  · rw [if_pos hl]
    exact ⟨rfl, rfl, rfl, rfl⟩
  · rw [if_neg hl]
    -- the filter knows every key with an entry, so the table has none
    have hno : (htcFind h want s.tbl).1 ≠ .ok := by
      intro hok
      refine hl (hF s.filter n hn h ?_)
      have h1 : (1 : ℤ) ≤ b h := by exact_mod_cast hb.find hok
      exact lt_of_lt_of_le zero_lt_one (h1.trans (hle h))
    have hmiss : htcFind h want s.tbl = (.notFound, if want then some 0 else none, s.tbl) := by
      have htab : (findTable h want s.tbl).1 ≠ .ok →
          findTable h want s.tbl = (.notFound, if want then some 0 else none, s.tbl) := by
        rw [findTable]
        cases htcSearch s.tbl.toCore h true with
        | none => exact fun _ => rfl
        | some p => exact fun h => absurd rfl h
      rw [htcFind] at hno ⊢
      cases hc : (if (want && s.tbl.cacheOn) = true then htcFrontCacheLookup s.tbl h else none) with
      | none =>
        rw [hc] at hno
        exact htab hno
      | some u =>
        rw [hc] at hno
        exact absurd rfl hno
    rw [hmiss]
    exact ⟨rfl, rfl, rfl, rfl⟩

/-- A find changes the front cache only. -/
lemma Tallied.found (ht : Tallied t b) (h : ℕ) (want : Bool) :
    Tallied (htcFind h want t).2.2 b := by
  have htable : Tallied (findTable h want t).2.2 b := by
    rw [findTable]
    cases hs : htcSearch t.toCore h true with
    | none => exact ht
    | some p =>
      refine ⟨ht.stored, ht.entries, fun k e he => ?_⟩
      rcases update_some_cases he with ⟨-, rfl⟩ | ⟨-, he⟩
      · have h1 : (1 : ℕ∞) ≤ t.entries h := Set.one_le_encard_iff_nonempty.mpr ⟨_, search_hit hs⟩
        exact_mod_cast h1.trans (ht.entries h)
      · exact ht.cache k e he
  rw [htcFind]
  cases hc : (if (want && t.cacheOn) = true then htcFrontCacheLookup t h else none) with
  | none => exact htable
  | some u => exact ht

/-- `htc_insert` with a filter that does not refuse. -/
lemma Known.insert (hk : Known F f₀ s) (h v : ℕ)
    (hr : (insertWith F h v s).1 = .ok → (insertWith F h v s).2.refused = 0) :
    Known F f₀ (insertWith F h v s).2 ∧ (insertWith F h v s).2.refused = s.refused ∧
      (insertWith F h v s).1 = (htcInsert h v s.tbl).1 ∧
      (insertWith F h v s).2.tbl = (htcInsert h v s.tbl).2 := by
  obtain ⟨n, b, hn, hb, hle⟩ := hk
  have hins : Tallied (htcInsert h v s.tbl).2 (insertTally (htcInsert h v s.tbl).1 b h) :=
    hb.insertLoop h v 4
  rw [insertWith] at hr ⊢
  generalize htcInsert h v s.tbl = r at hins hr
  rcases r with ⟨e, t'⟩
  cases e with
  | ok =>
    have hr := hr rfl
    dsimp only [Filtered.entered] at hr ⊢
    split at hr
    · next hacc =>
      refine ⟨⟨_, _, hn.insert h, hins, fun k => ?_⟩, if_pos hacc, rfl, rfl⟩
      rw [if_pos hacc]
      unfold insertTally
      rw [if_pos rfl]
      by_cases hkh : k = h
      · subst hkh
        rw [Function.update_self, Function.update_self]
        have := hle k
        omega
      · rw [Function.update_of_ne hkh, Function.update_of_ne hkh]
        exact hle k
    · exact absurd hr (Nat.succ_ne_zero _)
  | _ => exact ⟨⟨n, b, hn, hins, hle⟩, rfl, rfl, rfl⟩

/-- `htc_upsert` with a filter that does not refuse. -/
lemma Known.upsert (hk : Known F f₀ s) (h v : ℕ) {k : ℕ}
    (hr : (upsertLoopWith F h v k s).2.refused = 0) :
    Known F f₀ (upsertLoopWith F h v k s).2 ∧ s.refused = 0 ∧
      (upsertLoopWith F h v k s).2.tbl = (upsertLoop h v k s.tbl).2 := by
  induction k generalizing s with
  | zero => exact ⟨hk, hr, rfl⟩
  | succ k ih =>
    rw [upsertLoopWith] at hr ⊢
    rw [upsertLoop]
    cases hs : htcSearch s.tbl.toCore h true with
    | some p =>
      rw [hs] at hr
      exact ⟨hk.setTbl fun b hb => hb.setValue _ v, hr, rfl⟩
    | none =>
      rw [hs] at hr
      dsimp only at hr ⊢
      have hi := hk.insert h v
      generalize insertWith F h v s = r at hr hi
      generalize htcInsert h v s.tbl = r' at hi
      rcases r with ⟨e, s₁⟩
      rcases r' with ⟨e', t₁⟩
      dsimp only at hr hi ⊢
      cases e with
      | duplicate =>
        obtain ⟨hk₁, hr₁, rfl, rfl⟩ := hi fun he => by cases he
        obtain ⟨hk₂, hr₂, ht₂⟩ := ih hk₁ hr
        exact ⟨hk₂, hr₁.symm.trans hr₂, ht₂⟩
      | ok =>
        obtain ⟨hk₁, hr₁, rfl, rfl⟩ := hi fun _ => hr
        exact ⟨hk₁, hr₁.symm.trans hr, rfl⟩
      | _ =>
        obtain ⟨hk₁, hr₁, rfl, rfl⟩ := hi fun he => by cases he
        exact ⟨hk₁, hr₁.symm.trans hr, rfl⟩

/-- A call with a filter that does not refuse leads to the table that it leads to without. -/
lemma Known.step (hk : Known F f₀ s) (hF : F.Lawful f₀) {op : HtcOp} (hs : op.runWith F s = some s')
    (hr : s'.refused = 0) :
    Known F f₀ s' ∧ s.refused = 0 ∧ ∃ r, op.run s.tbl = some r ∧ r.2.2 = s'.tbl := by
  cases op with
  | insert key value =>
    cases hs
    obtain ⟨hk', hr', -, ht⟩ := hk.insert key.toNat value.toNat fun _ => hr
    exact ⟨hk', hr'.symm.trans hr, _, rfl, ht.symm⟩
  | upsert key value =>
    cases hs
    obtain ⟨hk', hr', ht⟩ := hk.upsert key.toNat value.toNat hr
    exact ⟨hk', hr', _, rfl, ht.symm⟩
  | update key value =>
    cases hs
    refine ⟨hk.setTbl fun b hb => ?_, hr, _, rfl, rfl⟩
    rw [htcUpdate]
    cases htcSearch s.tbl.toCore key.toNat true with
    | some p => exact hb.setValue _ _
    | none => exact hb
  | remove key =>
    obtain ⟨n, b, hn, hb, hle⟩ := hk
    rw [HtcOp.runWith, removeWith] at hs
    rcases hb.remove key.toNat with he | ⟨t', he, hb', h1⟩ | he
    · rw [he] at hs
      cases hs
    · rw [he] at hs
      cases hs
      refine ⟨⟨_, _, hn.delete key.toNat, hb', fun k => ?_⟩, hr, _, by rw [HtcOp.run, he]; rfl, rfl⟩
      have := hle k
      by_cases hkh : k = key.toNat
      · subst hkh
        rw [Function.update_self]
        split
        · rw [Function.update_self]
          omega
        · omega
      · rw [Function.update_of_ne hkh]
        split
        · rw [Function.update_of_ne hkh]
          exact this
        · exact this
    · rw [he] at hs
      cases hs
      exact ⟨⟨n, b, hn, hb, hle⟩, hr, _, by rw [HtcOp.run, he]; rfl, rfl⟩
  | find key want =>
    cases hs
    obtain ⟨-, ht, hf, hre⟩ := hk.find hF key.toNat want
    refine ⟨?_, hre.symm.trans hr, _, rfl, ht.symm⟩
    obtain ⟨n, b, hn, hb, hle⟩ := hk
    refine ⟨n, b, by rw [hf]; exact hn, ?_, hle⟩
    rw [ht]
    exact hb.found _ _
  | grow reseed =>
    cases hs
    exact ⟨hk.setTbl fun b hb => hb.shrunk ((htcGrow_grown reseed s.tbl).shrunk hb.stored), hr, _,
      rfl, rfl⟩

/-- The refused insertions are not forgotten. -/
lemma insertWith_refused (h v : ℕ) (s : Filtered σ) :
    s.refused ≤ (insertWith F h v s).2.refused := by
  rw [insertWith]
  rcases htcInsert h v s.tbl with ⟨e, t'⟩
  cases e with
  | ok =>
    dsimp only [Filtered.entered]
    split
    · exact le_rfl
    · exact Nat.le_succ _
  | _ => exact le_rfl

/-- The refused insertions are not forgotten. -/
lemma upsertLoopWith_refused (h v k : ℕ) (s : Filtered σ) :
    s.refused ≤ (upsertLoopWith F h v k s).2.refused := by
  induction k generalizing s with
  | zero => exact le_rfl
  | succ k ih =>
    rw [upsertLoopWith]
    cases htcSearch s.tbl.toCore h true with
    | some p => exact le_rfl
    | none =>
      have hi := insertWith_refused (F := F) h v s
      dsimp only
      generalize insertWith F h v s = r at hi
      rcases r with ⟨e, s₁⟩
      cases e with
      | duplicate => exact hi.trans (ih s₁)
      | _ => exact hi

/-- The refused insertions are not forgotten. -/
lemma runWith_refused {ops : List HtcOp} (hs : runWith F ops s = some s') :
    s.refused ≤ s'.refused := by
  induction ops generalizing s with
  | nil =>
    cases hs
    exact le_rfl
  | cons op ops ih =>
    obtain ⟨s₁, hs₁, hs⟩ := Option.bind_eq_some_iff.mp hs
    refine le_trans ?_ (ih hs)
    cases op with
    | insert key value =>
      cases hs₁
      exact insertWith_refused _ _ _
    | upsert key value =>
      cases hs₁
      exact upsertLoopWith_refused _ _ _ _
    | update key value => cases hs₁; exact le_rfl
    | remove key =>
      obtain ⟨r, hr, rfl⟩ := Option.map_eq_some_iff.mp hs₁
      obtain ⟨⟨e, t'⟩, -, rfl⟩ := Option.map_eq_some_iff.mp hr
      cases e <;> exact le_rfl
    | find key want =>
      cases hs₁
      rw [findWith]
      split <;> exact le_rfl
    | grow reseed => cases hs₁; exact le_rfl

/-- A run with a filter that does not refuse leads to the table that it leads to without. -/
lemma Known.run {ops : List HtcOp} (hk : Known F f₀ s) (hF : F.Lawful f₀)
    (hs : runWith F ops s = some s')
    (hr : s'.refused = 0) : Known F f₀ s' ∧ runOps ops s.tbl = some s'.tbl := by
  induction ops generalizing s with
  | nil =>
    cases hs
    exact ⟨hk, rfl⟩
  | cons op ops ih =>
    obtain ⟨s₁, hs₁, hs⟩ := Option.bind_eq_some_iff.mp hs
    have hr₁ : s₁.refused = 0 := Nat.le_zero.mp (hr ▸ runWith_refused hs)
    obtain ⟨hk₁, -, r, he, ht⟩ := hk.step hF hs₁ hr₁
    obtain ⟨hk', hrun⟩ := ih hk₁ hs
    refine ⟨hk', ?_⟩
    rw [runOps, he, Option.bind_some, ht]
    exact hrun

end

/-- A filter attached to an empty table changes no answer in any run in which it refuses no
insertion: the calls lead to the table that they lead to without the filter, and every `htc_find`
has the same result there. -/
theorem filter_changes_no_answer {σ : Type*} (F : AmqFilter σ) {f₀ : σ} (hF : F.Lawful f₀)
    (he : t.Empty) (ops : List HtcOp)
    {s : Filtered σ} (hs : runWith F ops (htcSetFilter f₀ t) = some s) (hr : s.refused = 0) :
    runOps ops t = some s.tbl ∧ ∀ (key : UInt64) (want : Bool),
      foundValue (findWith F key.toNat want s).1 (findWith F key.toNat want s).2.1 =
        foundValue (htcFind key.toNat want s.tbl).1 (htcFind key.toNat want s.tbl).2.1 := by
  obtain ⟨hk, hrun⟩ := (known_setFilter he).run hF hs hr
  exact ⟨hrun, fun key want => (hk.find hF key.toNat want).1⟩

/-- A new table is empty. -/
lemma htcCreate_empty (cfg : Option HtcConfig) (seedCtr : ℕ) (mem : List Bool) :
    (htcCreate cfg seedCtr mem).Empty :=
  ⟨htcCreate_stored cfg seedCtr mem, htcCreate_live cfg seedCtr mem, fun _ => rfl⟩

/-- A filter that keeps its hashes in a list of bounded length, and refuses an insertion when it is
full. -/
def listFilter (n : ℕ) : AmqFilter (List ℕ) where
  insert f h := if f.length < n then (true, h :: f) else (false, f)
  lookup f h := f.contains h
  delete f h := if h ∈ f then (true, f.erase h) else (false, f)

/-- The list filter counts its hashes. -/
lemma listFilter_count {n : ℕ} {f : List ℕ} {m : ℕ → ℤ} (hh : (listFilter n).History [] f m)
    (h : ℕ) :
    m h = f.count h := by
  induction hh with
  | start => rfl
  | @insert f m k _ ih =>
    by_cases hlt : f.length < n
    · rw [show (listFilter n).insert f k = (true, k :: f) from if_pos hlt, if_pos rfl,
        List.count_cons]
      by_cases hk : h = k
      · subst hk
        rw [Function.update_self, ih, if_pos (BEq.refl h), Nat.cast_add, Nat.cast_one]
      · rw [Function.update_of_ne hk, ih, if_neg (by simpa using Ne.symm hk), Nat.add_zero]
    · rw [show (listFilter n).insert f k = (false, f) from if_neg hlt, if_neg Bool.false_ne_true]
      exact ih
  | @delete f m k _ ih =>
    by_cases hmem : k ∈ f
    · rw [show (listFilter n).delete f k = (true, f.erase k) from if_pos hmem, if_pos rfl]
      by_cases hk : h = k
      · subst hk
        have := List.count_pos_iff.mpr hmem
        rw [Function.update_self, ih, List.count_erase_self]
        omega
      · rw [Function.update_of_ne hk, ih, List.count_erase_of_ne hk]
    · rw [show (listFilter n).delete f k = (false, f) from if_neg hmem, if_neg Bool.false_ne_true]
      exact ih

/-- The list filter finds what it has accepted. -/
lemma listFilter_lawful (n : ℕ) : (listFilter n).Lawful [] := by
  intro f m hh h hm
  rw [listFilter_count hh h] at hm
  have hc : 0 < f.count h := by exact_mod_cast hm
  exact List.contains_iff_mem.mpr (List.count_pos_iff.mp hc)

/-- Two keys are inserted and one is removed. -/
theorem filter_changes_no_answer_two :
    ∃ s, runWith (listFilter 2) [.insert 5 50, .insert 6 60, .remove 5]
      (htcSetFilter [] (htcCreate none 0 [])) = some s ∧
      s.refused = 0 ∧
      foundValue (findWith (listFilter 2) 6 true s).1 (findWith (listFilter 2) 6 true s).2.1 =
        foundValue (htcFind 6 true s.tbl).1 (htcFind 6 true s.tbl).2.1 := by
  obtain ⟨s, hs⟩ := Option.isSome_iff_exists.mp
    (by decide +kernel : (runWith (listFilter 2) [.insert 5 50, .insert 6 60, .remove 5]
      (htcSetFilter [] (htcCreate none 0 []))).isSome = true)
  have hr : (runWith (listFilter 2) [.insert 5 50, .insert 6 60, .remove 5]
      (htcSetFilter [] (htcCreate none 0 []))).map Filtered.refused = some 0 := by decide +kernel
  rw [hs, Option.map_some, Option.some_inj] at hr
  exact ⟨s, hs, hr,
    (filter_changes_no_answer (listFilter 2) (listFilter_lawful 2) (htcCreate_empty none 0 [])
    [.insert 5 50, .insert 6 60, .remove 5] hs hr).2 6 true⟩

/-- A full filter: the key is entered, the filter refuses it, and the key is not found. -/
theorem filter_hides_key : (listFilter 0).Lawful [] ∧ (htcCreate none 0 []).Empty ∧
    ((runWith (listFilter 0) [.insert 5 50] (htcSetFilter [] (htcCreate none 0 []))).map fun s =>
      (foundValue (findWith (listFilter 0) 5 true s).1 (findWith (listFilter 0) 5 true s).2.1,
        foundValue (htcFind 5 true s.tbl).1 (htcFind 5 true s.tbl).2.1)) =
      some ((.notFound, none), (.ok, some 50)) :=
  ⟨listFilter_lawful 0, htcCreate_empty none 0 [], by decide +kernel⟩

end Draugr.Htc
