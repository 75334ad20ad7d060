import Draugr.Htc.Hints

/-!
# Settled tables

`Stored c` says that the words of a table denote different allocated records; it holds of every
table that one thread can reach. `Placed c` adds that every word is where the calls look for it: it
has the tag of its key, sits in one of the key's two buckets, in the stash of the key's shard or in
the global stash, its record carries the placement hash of the current seed, and the hints agree
with the buckets. `Settled c` adds that no two words have one key.

A change of a table is a put or a clear at one place; `Placed.put` and `Placed.clear` say what each
has to bring along. `Placed.store` is for a change of the record store.
-/

namespace Draugr.Htc
open Draugr.Lib

/-- The indices of the live words. -/
def Core.live (c : Core) : Set ℕ := held Word.idx c.wordAt

/-- The key of a record. -/
def Core.keyOf (c : Core) (i : ℕ) : ℕ := (c.recs i).identityHash

/-- The placement hash of a record's key under the current seed. -/
def Core.hashOf (c : Core) (i : ℕ) : ℕ := placementHash (c.keyOf i) c.gen.seed

/-- The places where the calls look for a word with placement hash `ph`. -/
def Core.Seat (c : Core) (ph : ℕ) (w : Word) : Place → Prop
  | .slot x => x.2 < bucketSlots ∧
      if w.inSec then x.1 = c.gen.secondary ph ∧ x.1 ≠ c.gen.primary ph else x.1 = c.gen.primary ph
  | .shard s i => i < stashMax ∧ s = c.shardAt ph
  | .global i => i < stashMax

/-- `live_count` counts the words of a stash. -/
def Stash.Counted (s : Stash) : Prop := (s.liveCount : ℕ∞) = (hits s.slots fun _ => True).encard

/-- The words denote different allocated records, and the stashes are counted. -/
structure Stored (c : Core) : Prop where
  separate : Separate Word.idx c.wordAt
  lt : ∀ i ∈ c.live, i < c.count
  notFree : ∀ i ∈ c.live, i ∉ c.freeIdx
  flags : ∀ i ∈ c.live, (c.recs i).flags = 0
  freeNodup : c.freeIdx.Nodup
  freeLt : ∀ i ∈ c.freeIdx, i < c.count
  shards : ∀ s, (c.shards s).Counted
  stash : c.stash.Counted

/-- Every word is where the calls look for it, and no two words have one key. -/
structure Settled (c : Core) : Prop extends Stored c where
  tag : ∀ p w, c.wordAt p = some w → w.tag = tag16 (c.hashOf w.idx)
  seat : ∀ p w, c.wordAt p = some w → c.Seat (c.hashOf w.idx) w p
  keyed : ∀ i ∈ c.live, (c.recs i).placementHash = c.hashOf i
  keys : Set.InjOn c.keyOf c.live
  hinted : Hinted c.gen c.hashOf

/-- Every word is where the calls look for it. -/
structure Placed (c : Core) : Prop extends Stored c where
  tag : ∀ p w, c.wordAt p = some w → w.tag = tag16 (c.hashOf w.idx)
  seat : ∀ p w, c.wordAt p = some w → c.Seat (c.hashOf w.idx) w p
  keyed : ∀ i ∈ c.live, (c.recs i).placementHash = c.hashOf i
  hinted : Hinted c.gen c.hashOf

/-- A record that is allocated and not yet in the table. -/
structure Ready (c : Core) (i : ℕ) : Prop where
  lt : i < c.count
  notFree : i ∉ c.freeIdx
  notLive : i ∉ c.live
  flags : (c.recs i).flags = 0

/-- The key `h` has no word. -/
def Core.Absent (c : Core) (h : ℕ) : Prop := ∀ i ∈ c.live, c.keyOf i ≠ h

/-- Everything but the words and the hints is the same. -/
structure Frame (c c' : Core) : Prop where
  numBuckets : c'.gen.numBuckets = c.gen.numBuckets
  seed : c'.gen.seed = c.gen.seed
  shardCount : c'.shardCount = c.shardCount
  recs : c'.recs = c.recs
  count : c'.count = c.count
  freeIdx : c'.freeIdx = c.freeIdx

variable {c c' : Core} {p : Place} {w : Word} {i h : ℕ}

/-- The words of a settled table are placed. -/
lemma Settled.placed (hs : Settled c) : Placed c :=
  ⟨hs.toStored, hs.tag, hs.seat, hs.keyed, hs.hinted⟩

/-- Words that are placed and have different keys are settled. -/
lemma Placed.settled (hs : Placed c) (hk : Set.InjOn c.keyOf c.live) : Settled c :=
  ⟨hs.toStored, hs.tag, hs.seat, hs.keyed, hk, hs.hinted⟩

/-- A table is its own frame. -/
lemma Frame.refl (c : Core) : Frame c c := ⟨rfl, rfl, rfl, rfl, rfl, rfl⟩

/-- Frames compose. -/
lemma Frame.trans {c'' : Core} (h : Frame c c') (h' : Frame c' c'') : Frame c c'' :=
  ⟨h'.1.trans h.1, h'.2.trans h.2, h'.3.trans h.3, h'.4.trans h.4, h'.5.trans h.5, h'.6.trans h.6⟩

/-- The keys depend on the frame only. -/
lemma Frame.keyOf (hf : Frame c c') : c'.keyOf = c.keyOf := by
  funext i
  rw [Core.keyOf, hf.recs, Core.keyOf]

/-- The hashes depend on the frame only. -/
lemma Frame.hashOf (hf : Frame c c') : c'.hashOf = c.hashOf := by
  funext i
  rw [Core.hashOf, hf.keyOf, hf.seed, Core.hashOf]

/-- The primary buckets depend on the frame only. -/
lemma Frame.primary (hf : Frame c c') (ph : ℕ) : c'.gen.primary ph = c.gen.primary ph := by
  rw [Gen.primary, hf.numBuckets, Gen.primary]

/-- The secondary buckets depend on the frame only. -/
lemma Frame.secondary (hf : Frame c c') (ph : ℕ) : c'.gen.secondary ph = c.gen.secondary ph := by
  rw [Gen.secondary, hf.primary, hf.numBuckets, Gen.secondary]

/-- The shard of a hash depends on the frame only. -/
lemma Frame.shardAt (hf : Frame c c') (ph : ℕ) : c'.shardAt ph = c.shardAt ph := by
  rw [Core.shardAt, hf.primary, hf.shardCount, Core.shardAt]

/-- The seats of a word depend on the frame only. -/
lemma Frame.seat (hf : Frame c c') (ph : ℕ) (w : Word) (p : Place) : c'.Seat ph w p ↔
    c.Seat ph w p := by
  cases p with
  | slot x => simp only [Core.Seat, hf.primary, hf.secondary]
  | shard s i => simp only [Core.Seat, hf.shardAt]
  | global i => exact Iff.rfl

/-! ## Stash counts -/

/-- An empty stash is counted. -/
lemma Stash.Counted.empty : Stash.empty.Counted := by
  have h : hits Stash.empty.slots (fun _ => True) = ∅ := by
    rw [Set.eq_empty_iff_forall_notMem]
    exact fun x => notMem_hits rfl
  rw [Stash.Counted, h, Set.encard_empty]
  rfl

/-- A put keeps the count. -/
lemma Stash.Counted.put {s : Stash} (hs : s.Counted) (hi : s.slots i = none) (w : Word) :
    (s.put i w).Counted := by
  rw [Stash.Counted, Stash.put]
  rw [encard_hits_put hi trivial, ← hs, Nat.cast_add, Nat.cast_one]

/-- A removal keeps the count. -/
lemma Stash.Counted.removeAt {s : Stash} (hs : s.Counted) (hi : s.slots i = some w) :
    (htcStashRemoveAt s i).Counted := by
  have h := encard_hits_clear (P := fun _ => True) hi trivial
  rw [← hs] at h
  exact cast_sub_one_of_add_one_eq h

/-- A stash with a word is not skipped. -/
lemma Stash.Counted.ne_zero {s : Stash} (hs : s.Counted) (hi : s.slots i = some w) :
    s.liveCount ≠ 0 := by
  intro h0
  rw [Stash.Counted, h0, Nat.cast_zero] at hs
  exact not_of_encard_hits_eq_zero hs.symm hi trivial

/-- A counted stash without live words is empty. -/
lemma Stash.Counted.slots_none {st : Stash} (hc : st.Counted) (h0 : st.liveCount = 0) (i : ℕ) :
    st.slots i = none := by
  cases hi : st.slots i with
  | none => rfl
  | some w => exact absurd h0 (hc.ne_zero hi)

/-- Replacing a stash by a counted one keeps the stashes of the shards counted. -/
lemma counted_update {shards : ℕ → Stash} {s : ℕ} {st : Stash} (h : ∀ s, (shards s).Counted)
    (hst : st.Counted) (s' : ℕ) : (Function.update shards s st s').Counted := by
  by_cases hs : s' = s
  · subst hs
    rw [Function.update_self]
    exact hst
  · rw [Function.update_of_ne hs]
    exact h s'

/-! ## The words after a change -/

/-- The record of a word is live. -/
lemma mem_live (hp : c.wordAt p = some w) : w.idx ∈ c.live := ⟨p, w, hp, rfl⟩

/-- A change of one slot of the buckets. -/
lemma wordAt_setSlot {g : Gen} {x : ℕ × ℕ} {o : Option Word}
    (hg : g.slots = Function.update c.gen.slots x o) :
    Core.wordAt { c with gen := g } = Function.update c.wordAt (.slot x) o := by
  funext q
  by_cases hq : q = .slot x
  · subst hq
    rw [Function.update_self]
    change g.slots x = o
    rw [hg, Function.update_self]
  · rw [Function.update_of_ne hq]
    cases q with
    | slot y =>
      change g.slots y = c.gen.slots y
      rw [hg, Function.update_of_ne fun hy => hq (by rw [hy])]
    | shard s j => rfl
    | global j => rfl

/-- A change of one slot of the stash of a shard. -/
lemma wordAt_setShard {s j : ℕ} {st : Stash} {o : Option Word}
    (hst : st.slots = Function.update (c.shards s).slots j o) :
    (c.setShard s st).wordAt = Function.update c.wordAt (.shard s j) o := by
  funext q
  by_cases hq : q = .shard s j
  · subst hq
    rw [Function.update_self]
    change (Function.update c.shards s st s).slots j = o
    rw [Function.update_self, hst, Function.update_self]
  · rw [Function.update_of_ne hq]
    cases q with
    | slot y => rfl
    | global j => rfl
    | shard s' j' =>
      change (Function.update c.shards s st s').slots j' = (c.shards s').slots j'
      by_cases hs : s' = s
      · subst hs
        rw [Function.update_self, hst, Function.update_of_ne fun hj => hq (by rw [hj])]
      · rw [Function.update_of_ne hs]

/-- A change of one slot of the global stash. -/
lemma wordAt_setStash {j : ℕ} {st : Stash} {o : Option Word}
    (hst : st.slots = Function.update c.stash.slots j o) :
    Core.wordAt { c with stash := st } = Function.update c.wordAt (.global j) o := by
  funext q
  by_cases hq : q = .global j
  · subst hq
    rw [Function.update_self]
    change st.slots j = o
    rw [hst, Function.update_self]
  · rw [Function.update_of_ne hq]
    cases q with
    | slot y => rfl
    | shard s j => rfl
    | global j' =>
      change st.slots j' = c.stash.slots j'
      rw [hst, Function.update_of_ne fun hj => hq (by rw [hj])]

/-- The live records after a put. -/
lemma live_put (hw : c'.wordAt = Function.update c.wordAt p (some w)) (hp : c.wordAt p = none) :
    c'.live = insert w.idx c.live := by
  rw [Core.live, hw, held_put hp, Core.live]

/-- The live records after a clear. -/
lemma live_clear (hs : Stored c) (hw : c'.wordAt = Function.update c.wordAt p none)
    (hp : c.wordAt p = some w) :
    c'.live = c.live \ {w.idx} := by
  rw [Core.live, hw, held_clear hs.separate hp, Core.live]

/-! ## Putting and clearing a word -/

/-- A ready record is put at an empty place. -/
lemma Stored.put (hs : Stored c) (hf : Frame c c')
    (hw : c'.wordAt = Function.update c.wordAt p (some w))
    (hp : c.wordAt p = none) (hr : Ready c w.idx) (hsh : ∀ s, (c'.shards s).Counted)
    (hst : c'.stash.Counted) :
    Stored c' where
  separate := by
    rw [hw]
    exact hs.separate.put hr.notLive
  lt := by
    rw [live_put hw hp, hf.count]
    rintro j (rfl | hj)
    · exact hr.lt
    · exact hs.lt j hj
  notFree := by
    rw [live_put hw hp, hf.freeIdx]
    rintro j (rfl | hj)
    · exact hr.notFree
    · exact hs.notFree j hj
  flags := by
    rw [live_put hw hp, hf.recs]
    rintro j (rfl | hj)
    · exact hr.flags
    · exact hs.flags j hj
  freeNodup := by
    rw [hf.freeIdx]
    exact hs.freeNodup
  freeLt := by
    rw [hf.freeIdx, hf.count]
    exact hs.freeLt
  shards := hsh
  stash := hst

/-- A place is emptied. -/
lemma Stored.clear (hs : Stored c) (hf : Frame c c')
    (hw : c'.wordAt = Function.update c.wordAt p none)
    (hp : c.wordAt p = some w) (hsh : ∀ s, (c'.shards s).Counted) (hst : c'.stash.Counted) :
    Stored c' where
  separate := by
    rw [hw]
    exact hs.separate.clear
  lt := by
    rw [live_clear hs hw hp, hf.count]
    exact fun j hj => hs.lt j hj.1
  notFree := by
    rw [live_clear hs hw hp, hf.freeIdx]
    exact fun j hj => hs.notFree j hj.1
  flags := by
    rw [live_clear hs hw hp, hf.recs]
    exact fun j hj => hs.flags j hj.1
  freeNodup := by
    rw [hf.freeIdx]
    exact hs.freeNodup
  freeLt := by
    rw [hf.freeIdx, hf.count]
    exact hs.freeLt
  shards := hsh
  stash := hst

/-- A record whose word was cleared is ready. -/
lemma Stored.ready_of_clear (hs : Stored c) (hf : Frame c c')
    (hw : c'.wordAt = Function.update c.wordAt p none) (hp : c.wordAt p = some w) :
    Ready c' w.idx where
  lt := by
    rw [hf.count]
    exact hs.lt _ (mem_live hp)
  notFree := by
    rw [hf.freeIdx]
    exact hs.notFree _ (mem_live hp)
  notLive := by
    rw [live_clear hs hw hp]
    exact fun hi => hi.2 rfl
  flags := by
    rw [hf.recs]
    exact hs.flags _ (mem_live hp)

/-- The keys differ when a record with an absent key is added. -/
lemma keys_insert (hk : Set.InjOn c.keyOf c.live) (hf : Frame c c') (hl : c'.live = insert i c.live)
    (hi : i ∉ c.live) (ha : c.Absent (c.keyOf i)) : Set.InjOn c'.keyOf c'.live := by
  rw [hl, hf.keyOf, Set.injOn_insert hi]
  refine ⟨hk, ?_⟩
  rintro ⟨j, hj, he⟩
  exact ha j hj he

/-- A ready record is put at a seat of its key. -/
lemma Placed.put (hs : Placed c) (hf : Frame c c')
    (hw : c'.wordAt = Function.update c.wordAt p (some w))
    (hp : c.wordAt p = none) (hr : Ready c w.idx) (hsh : ∀ s, (c'.shards s).Counted)
    (hst : c'.stash.Counted)
    (hk : (c.recs w.idx).placementHash = c.hashOf w.idx) (htag : w.tag = tag16 (c.hashOf w.idx))
    (hseat : c.Seat (c.hashOf w.idx) w p) (hh : Hinted c'.gen c.hashOf) : Placed c' where
  toStored := hs.toStored.put hf hw hp hr hsh hst
  tag q v hq := by
    rw [hw] at hq
    rw [hf.hashOf]
    rcases update_some_cases hq with ⟨-, rfl⟩ | ⟨-, hq⟩
    · exact htag
    · exact hs.tag q v hq
  seat q v hq := by
    rw [hw] at hq
    rw [hf.hashOf, hf.seat]
    rcases update_some_cases hq with ⟨rfl, rfl⟩ | ⟨-, hq⟩
    · exact hseat
    · exact hs.seat q v hq
  keyed := by
    rw [live_put hw hp, hf.recs, hf.hashOf]
    rintro j (rfl | hj)
    · exact hk
    · exact hs.keyed j hj
  hinted := by
    rw [hf.hashOf]
    exact hh

/-- A place is emptied. -/
lemma Placed.clear (hs : Placed c) (hf : Frame c c')
    (hw : c'.wordAt = Function.update c.wordAt p none)
    (hp : c.wordAt p = some w) (hsh : ∀ s, (c'.shards s).Counted) (hst : c'.stash.Counted)
    (hh : Hinted c'.gen c.hashOf) : Placed c' where
  toStored := hs.toStored.clear hf hw hp hsh hst
  tag q v hq := by
    rw [hw] at hq
    rw [hf.hashOf]
    exact hs.tag q v (update_none_cases hq).2
  seat q v hq := by
    rw [hw] at hq
    rw [hf.hashOf, hf.seat]
    exact hs.seat q v (update_none_cases hq).2
  keyed := by
    rw [live_clear hs.toStored hw hp, hf.recs, hf.hashOf]
    exact fun j hj => hs.keyed j hj.1
  hinted := by
    rw [hf.hashOf]
    exact hh

/-! ## Changing the record store -/

/-- The key, the placement hash and the flags of a record. -/
def HtcRecord.face (r : HtcRecord) : ℕ × ℕ × ℕ := (r.identityHash, r.placementHash, r.flags)

/-- A change of the record store that spares the live records. -/
structure Spared (c : Core) (recs : ℕ → HtcRecord) (count : ℕ) (freeIdx : List ℕ) : Prop where
  face : ∀ i ∈ c.live, (recs i).face = (c.recs i).face
  lt : ∀ i ∈ c.live, i < count
  notFree : ∀ i ∈ c.live, i ∉ freeIdx
  freeNodup : freeIdx.Nodup
  freeLt : ∀ i ∈ freeIdx, i < count

variable {recs : ℕ → HtcRecord} {n : ℕ} {free : List ℕ}

/-- The flags, the key and the placement hash of a live record are spared. -/
lemma Spared.fields (h : Spared c recs n free) (hi : i ∈ c.live) :
    (recs i).identityHash = (c.recs i).identityHash ∧
      (recs i).placementHash = (c.recs i).placementHash ∧
      (recs i).flags = (c.recs i).flags := by
  have hfc := h.face i hi
  simp only [HtcRecord.face, Prod.mk.injEq] at hfc
  exact hfc

/-- The table after a change of the record store. -/
lemma Stored.store (hs : Stored c) (h : Spared c recs n free) :
    Stored { c with recs := recs, count := n, freeIdx := free } where
  separate := hs.separate
  lt := h.lt
  notFree := h.notFree
  flags j hj := by
    change (recs j).flags = 0
    rw [(h.fields hj).2.2]
    exact hs.flags j hj
  freeNodup := h.freeNodup
  freeLt := h.freeLt
  shards := hs.shards
  stash := hs.stash

/-- The hashes of the live records after a change of the record store. -/
lemma Spared.hashOf (h : Spared c recs n free) (hi : i ∈ c.live) :
    Core.hashOf { c with recs := recs, count := n, freeIdx := free } i = c.hashOf i := by
  change placementHash (recs i).identityHash _ = placementHash (c.recs i).identityHash _
  rw [(h.fields hi).1]

/-- The hints depend on the hashes of the words in the buckets only. -/
lemma Hinted.congr {g : Gen} {H H' : ℕ → ℕ} (hg : Hinted g H)
    (h : ∀ x w, g.slots x = some w → H' w.idx = H w.idx) :
    Hinted g H' where
  ctrl := hg.ctrl
  count b := by
    have he : hits g.slots (g.Strayed H' b) = hits g.slots (g.Strayed H b) := by
      ext x
      constructor
      · rintro ⟨v, hv, hst⟩
        rw [Gen.Strayed, h x v hv] at hst
        exact ⟨v, hv, hst⟩
      · rintro ⟨v, hv, hst⟩
        rw [Gen.Strayed, ← h x v hv] at hst
        exact ⟨v, hv, hst⟩
    rw [he]
    exact hg.count b
  filter x v hv hsec := by
    rw [h x v hv]
    exact hg.filter x v hv hsec

/-- The table after a change of the record store. -/
lemma Placed.store (hs : Placed c) (h : Spared c recs n free) :
    Placed { c with recs := recs, count := n, freeIdx := free } where
  toStored := hs.toStored.store h
  tag q v hq := by
    rw [h.hashOf (mem_live (c := c) hq)]
    exact hs.tag q v hq
  seat q v hq := by
    rw [h.hashOf (mem_live (c := c) hq)]
    have hst := hs.seat q v hq
    cases q with
    | slot x => exact hst
    | shard s j => exact hst
    | global j => exact hst
  keyed j hj := by
    rw [h.hashOf hj]
    change (recs j).placementHash = _
    rw [(h.fields hj).2.1]
    exact hs.keyed j hj
  hinted := hs.hinted.congr fun x v hv => h.hashOf (mem_live (p := .slot x) hv)

/-- The table after a change of the record store. -/
lemma Settled.store (hs : Settled c) (h : Spared c recs n free) :
    Settled { c with recs := recs, count := n, freeIdx := free } := by
  refine (hs.placed.store h).settled fun j hj k hk he => hs.keys hj hk ?_
  change (recs j).identityHash = (recs k).identityHash at he
  rw [(h.fields hj).1, (h.fields hk).1] at he
  exact he

/-- A record that is not live may be replaced. -/
lemma face_update_of_notLive {j : ℕ} {r : HtcRecord} (hj : j ∉ c.live) :
    ∀ k ∈ c.live, (Function.update c.recs j r k).face = (c.recs k).face := by
  intro k hk
  rw [Function.update_of_ne]
  rintro rfl
  exact hj hk

/-- `user_value` is not part of the face of a record. -/
lemma spared_setValue (hs : Stored c) (j value : ℕ) :
    Spared c (c.setValue j value).recs c.count c.freeIdx where
  face k _ := by
    by_cases hk : k = j
    · subst hk
      simp only [Core.setValue, Function.update_self]
      rfl
    · simp only [Core.setValue, Function.update_of_ne hk]
  lt := hs.lt
  notFree := hs.notFree
  freeNodup := hs.freeNodup
  freeLt := hs.freeLt

/-- A ready record can be freed. -/
lemma spared_free (hs : Stored c) (hr : Ready c i) (r : HtcRecord) :
    Spared c (Function.update c.recs i r) c.count (i :: c.freeIdx) where
  face := face_update_of_notLive hr.notLive
  lt := hs.lt
  notFree k hk := by
    rw [List.mem_cons, not_or]
    refine ⟨?_, hs.notFree k hk⟩
    rintro rfl
    exact hr.notLive hk
  freeNodup := List.nodup_cons.mpr ⟨hr.notFree, hs.freeNodup⟩
  freeLt k hk := by
    rcases List.mem_cons.mp hk with rfl | hk
    · exact hr.lt
    · exact hs.freeLt k hk

end Draugr.Htc
