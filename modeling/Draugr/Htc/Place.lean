import Draugr.Htc.Settled

/-!
# Placing a record

The ways in which a record comes into the table without displacing another: the direct placement in
its two buckets, the stash of its shard and the global stash. Each is first read off the code as a
put at an empty place (`placeDirect_cases`, `Stash.claim_some`) and then shown to keep `Stored`,
`Placed` and, for a key that is absent, `Settled`.
-/

namespace Draugr.Htc
open Draugr.Lib

variable {c c' : Core} {g g' : Gen} {H : ℕ → ℕ} {w : Word} {i h ph : ℕ}

/-! ## Raised and lowered hints -/

/-- `g'` is `g` with the hint of `b` raised and lowered again some number of times. -/
inductive Bumped (b tag : ℕ) : Gen → Gen → Prop where
  | refl (g : Gen) : Bumped b tag g g
  | step {g g' : Gen} : Bumped b tag ((g.remapInc b tag).remapDec b) g' → Bumped b tag g g'

variable {b tag : ℕ}

/-- A bumped hint keeps the slots. -/
lemma Bumped.slots (hb : Bumped b tag g g') : g'.slots = g.slots := by
  induction hb with
  | refl => rfl
  | step _ ih => rw [ih, remapDec_slots]; rfl

/-- A bumped hint keeps the number of buckets. -/
lemma Bumped.numBuckets (hb : Bumped b tag g g') : g'.numBuckets = g.numBuckets := by
  induction hb with
  | refl => rfl
  | step _ ih => rw [ih, remapDec_numBuckets]; rfl

/-- A bumped hint keeps the seed. -/
lemma Bumped.seed (hb : Bumped b tag g g') : g'.seed = g.seed := by
  induction hb with
  | refl => rfl
  | step _ ih => rw [ih, remapDec_seed]; rfl

/-- A bumped hint keeps the primary buckets. -/
lemma Bumped.primary (hb : Bumped b tag g g') (ph : ℕ) : g'.primary ph = g.primary ph := by
  rw [Gen.primary, hb.numBuckets, Gen.primary]

/-- After a bumped hint the metadata agrees with the slots. -/
lemma Bumped.hinted (hb : Bumped b tag g g') (hg : Hinted g H) : Hinted g' H := by
  induction hb with
  | refl => exact hg
  | step _ ih => exact ih (hg.bump _ _)

/-! ## Where the direct placement puts a word -/

/-- A candidate is a slot of the bucket. -/
lemma lt_of_mem_match8 {p : ℕ} (hi : i ∈ match8 g b p) : i < bucketSlots := by
  rw [match8, List.mem_filter, List.mem_range] at hi
  exact hi.1

/-- The slot that the primary loop claims. -/
lemma claim_some (hc : g.claim b = some i) : i < bucketSlots ∧ g.slots (b, i) = none := by
  have hp := List.find?_some hc
  exact ⟨lt_of_mem_match8 (List.mem_of_find?_eq_some hc), by simpa using hp⟩

/-- What the secondary loop does: it stops at an empty slot, or finds none. -/
lemma placeSecondary_cases (b1 b2 : ℕ) (w : Word) :
    ∀ (is : List ℕ) (g : Gen),
      (∃ g' i, Bumped b1 w.tag g g' ∧ i ∈ is ∧ g.slots (b2, i) = none ∧
        placeSecondary b1 b2 w is g =
          (true, (g'.remapInc b1 w.tag).put (b2, i) { w with inSec := true })) ∨
      ∃ g', Bumped b1 w.tag g g' ∧ placeSecondary b1 b2 w is g = (false, g')
  | [], g => .inr ⟨g, .refl g, rfl⟩
  | i :: is, g => by
    rw [placeSecondary]
    by_cases hi : g.slots (b2, i) = none
    · have ht : ((g.remapInc b1 w.tag).slots (b2, i)).isNone = true := by
        rw [Option.isNone_iff_eq_none]
        exact hi
      rw [if_pos ht]
      exact .inl ⟨g, i, .refl g, List.mem_cons_self .., hi, rfl⟩
    · have hf : ¬ ((g.remapInc b1 w.tag).slots (b2, i)).isNone = true := by
        rw [Option.isNone_iff_eq_none]
        exact hi
      rw [if_neg hf]
      rcases placeSecondary_cases b1 b2 w is ((g.remapInc b1 w.tag).remapDec b1) with
        ⟨g', j, hb, hj, hn, he⟩ | ⟨g', hb, he⟩
      · rw [remapDec_slots] at hn
        exact .inl ⟨g', j, .step hb, List.mem_cons_of_mem _ hj, hn, he⟩
      · exact .inr ⟨g', .step hb, he⟩

/-- What the direct placement does: the word goes to an empty slot of its primary bucket, or to one
of a different secondary bucket with the hint raised, or nowhere. -/
lemma placeDirect_cases (g : Gen) (ph : ℕ) (w : Word) :
    (∃ j, j < bucketSlots ∧ g.slots (g.primary ph, j) = none ∧
      placeDirect g ph w = (true, g.put (g.primary ph, j) { w with inSec := false })) ∨
    (∃ g' j, Bumped (g.primary ph) w.tag g g' ∧ j < bucketSlots ∧
      g.slots (g.secondary ph, j) = none ∧
      g.secondary ph ≠ g.primary ph ∧
      placeDirect g ph w =
        (true, (g'.remapInc (g.primary ph) w.tag).put (g.secondary ph, j)
          { w with inSec := true })) ∨
    ∃ g', Bumped (g.primary ph) w.tag g g' ∧ placeDirect g ph w = (false, g') := by
  simp only [placeDirect]
  cases hc : g.claim (g.primary ph) with
  | some j =>
    obtain ⟨hj, hn⟩ := claim_some hc
    exact .inl ⟨j, hj, hn, rfl⟩
  | none =>
    rcases placeSecondary_cases (g.primary ph) (g.secondary ph) w
      (match8 g (g.secondary ph) 0) g with
      ⟨g', j, hb, hj, hn, he⟩ | ⟨g', hb, he⟩
    · refine .inr (.inl ⟨g', j, hb, lt_of_mem_match8 hj, hn, ?_, he⟩)
      -- a bucket that is both has just been tried as the primary one
      intro heq
      rw [heq] at hj hn
      have hcj := List.find?_eq_none.mp hc j hj
      rw [hn] at hcj
      exact hcj rfl
    · exact .inr (.inr ⟨g', hb, he⟩)

/-- The slot that `htc_stash_insert` claims. -/
lemma Stash.claim_some {s : Stash} (hc : s.claim = some i) : i < stashMax ∧ s.slots i = none := by
  have hp := List.find?_some hc
  exact ⟨List.mem_range.mp (List.mem_of_find?_eq_some hc), by simpa using hp⟩

/-! ## A record joins the table -/

/-- The record `i` has joined the table. -/
structure Joined (c c' : Core) (i : ℕ) : Prop where
  frame : Frame c c'
  stored : Stored c'
  live : c'.live = insert i c.live

/-- Replacing the generation keeps the frame when the size and the seed are kept. -/
lemma Frame.ofGen (hn : g.numBuckets = c.gen.numBuckets) (hs : g.seed = c.gen.seed) :
    Frame c { c with gen := g } :=
  ⟨hn, hs, rfl, rfl, rfl, rfl⟩

/-- A ready record is put into an empty slot. -/
lemma Stored.putSlot {x : ℕ × ℕ} (hs : Stored c) (hx : c.gen.slots x = none) (hr : Ready c w.idx)
    (hg : g.slots = Function.update c.gen.slots x (some w)) (hn : g.numBuckets = c.gen.numBuckets)
    (hsd : g.seed = c.gen.seed) : Joined c { c with gen := g } w.idx where
  frame := .ofGen hn hsd
  stored := hs.put (p := .slot x) (.ofGen hn hsd) (wordAt_setSlot hg) hx hr hs.shards hs.stash
  live := live_put (p := .slot x) (wordAt_setSlot hg) hx

/-- A ready record is put into an empty slot of the stash of a shard. -/
lemma Stored.putShard {s : ℕ} (hs : Stored c) (hx : (c.shards s).slots i = none)
    (hr : Ready c w.idx) :
    Joined c (c.setShard s ((c.shards s).put i w)) w.idx where
  frame := ⟨rfl, rfl, rfl, rfl, rfl, rfl⟩
  stored := hs.put (p := .shard s i) ⟨rfl, rfl, rfl, rfl, rfl, rfl⟩ (wordAt_setShard rfl) hx hr
    (counted_update hs.shards ((hs.shards s).put hx w)) hs.stash
  live := live_put (p := .shard s i) (wordAt_setShard rfl) hx

/-- A ready record is put into an empty slot of the global stash. -/
lemma Stored.putStash (hs : Stored c) (hx : c.stash.slots i = none) (hr : Ready c w.idx) :
    Joined c { c with stash := c.stash.put i w } w.idx where
  frame := ⟨rfl, rfl, rfl, rfl, rfl, rfl⟩
  stored := hs.put (p := .global i) ⟨rfl, rfl, rfl, rfl, rfl, rfl⟩ (wordAt_setStash rfl) hx hr
    hs.shards (hs.stash.put hx w)
  live := live_put (p := .global i) (wordAt_setStash rfl) hx

/-- A ready record that carries its placement hash. -/
structure Filed (c : Core) (i : ℕ) : Prop extends Ready c i where
  keyed : (c.recs i).placementHash = c.hashOf i

/-- A record whose key can be added to a settled table. -/
structure Welcome (c : Core) (i : ℕ) : Prop extends Ready c i where
  keyed : (c.recs i).placementHash = c.hashOf i
  absent : c.Absent (c.keyOf i)

/-- A welcome record carries its hash. -/
lemma Welcome.filed (hw : Welcome c i) : Filed c i := ⟨hw.toReady, hw.keyed⟩

/-- A settled table that a welcome record joins is settled when its words are placed. -/
lemma Settled.joined (hs : Settled c) (hw : Welcome c i) (hj : Joined c c' i) (hp : Placed c') :
    Settled c' :=
  hp.settled (keys_insert hs.keys hj.frame hj.live hw.notLive hw.absent)

/-- The word of a record before it is placed. -/
def Core.wordOf (c : Core) (i : ℕ) : Word := ⟨i, tag16 (c.hashOf i), false⟩

/-- The word of a record depends on the frame only. -/
lemma Frame.wordOf (hf : Frame c c') : c'.wordOf = c.wordOf := by
  funext i
  rw [Core.wordOf, hf.hashOf, Core.wordOf]

/-- A direct placement that succeeds. -/
lemma Stored.placeDirect (hs : Stored c) (hr : Ready c w.idx)
    (he : placeDirect c.gen ph w = (true, g)) :
    Joined c { c with gen := g } w.idx := by
  rcases placeDirect_cases c.gen ph w with ⟨j, -, hn, hp⟩ | ⟨g', j, hb, -, hn, -, hp⟩ | ⟨g', -, hp⟩
  · rw [he] at hp
    cases hp
    exact hs.putSlot (w := { w with inSec := false }) hn hr rfl rfl rfl
  · rw [he] at hp
    cases hp
    refine hs.putSlot (w := { w with inSec := true }) hn hr ?_ hb.numBuckets hb.seed
    rw [← hb.slots]
    rfl
  · rw [he] at hp
    cases hp

/-- The words depend on the slots of the buckets only. -/
lemma wordAt_of_slots (hg : g.slots = c.gen.slots) :
    Core.wordAt { c with gen := g } = c.wordAt := by
  funext p
  cases p with
  | slot x =>
    change g.slots x = c.gen.slots x
    rw [hg]
  | shard s j => rfl
  | global j => rfl

/-- A put at an empty place keeps the other words. -/
lemma wordAt_keep {p q : Place} {v : Word} (hw : c'.wordAt = Function.update c.wordAt p (some w))
    (hn : c.wordAt p = none) (hq : c.wordAt q = some v) : c'.wordAt q = some v := by
  have hqp : q ≠ p := by
    rintro rfl
    rw [hn] at hq
    cases hq
  rw [hw, Function.update_of_ne hqp]
  exact hq

/-- The direct placement keeps the other words. -/
lemma placeDirect_keep {ok : Bool} {q : Place} {v : Word} (he : placeDirect c.gen ph w = (ok, g))
    (hq : c.wordAt q = some v) : Core.wordAt { c with gen := g } q = some v := by
  rcases placeDirect_cases c.gen ph w with ⟨j, -, hn, hp⟩ | ⟨g', j, hb, -, hn, -, hp⟩ | ⟨g', hb, hp⟩
  · rw [he] at hp
    cases hp
    exact wordAt_keep (p := .slot (c.gen.primary ph, j)) (wordAt_setSlot rfl) hn hq
  · rw [he] at hp
    cases hp
    refine wordAt_keep (p := .slot (c.gen.secondary ph, j)) (w := { w with inSec := true })
      (wordAt_setSlot ?_) hn hq
    rw [← hb.slots]
    rfl
  · rw [he] at hp
    cases hp
    rw [wordAt_of_slots hb.slots]
    exact hq

/-- The live records depend on the slots of the buckets only. -/
lemma live_of_slots (hg : g.slots = c.gen.slots) : Core.live { c with gen := g } = c.live := by
  rw [Core.live, wordAt_of_slots hg, Core.live]

/-- A table whose buckets hold the same words. -/
lemma Stored.sameSlots (hs : Stored c) (hg : g.slots = c.gen.slots) :
    Stored { c with gen := g } where
  separate := by
    rw [wordAt_of_slots hg]
    exact hs.separate
  lt := by
    rw [live_of_slots hg]
    exact hs.lt
  notFree := by
    rw [live_of_slots hg]
    exact hs.notFree
  flags := by
    rw [live_of_slots hg]
    exact hs.flags
  freeNodup := hs.freeNodup
  freeLt := hs.freeLt
  shards := hs.shards
  stash := hs.stash

/-- A table whose buckets hold the same words. -/
lemma Placed.sameSlots (hs : Placed c) (hg : g.slots = c.gen.slots)
    (hn : g.numBuckets = c.gen.numBuckets)
    (hsd : g.seed = c.gen.seed) (hh : Hinted g c.hashOf) : Placed { c with gen := g } := by
  have hf : Frame c { c with gen := g } := .ofGen hn hsd
  refine ⟨hs.toStored.sameSlots hg, ?_, ?_, ?_, ?_⟩
  · intro p v hp
    rw [wordAt_of_slots hg] at hp
    rw [hf.hashOf]
    exact hs.tag p v hp
  · intro p v hp
    rw [wordAt_of_slots hg] at hp
    rw [hf.hashOf, hf.seat]
    exact hs.seat p v hp
  · rw [live_of_slots hg, hf.hashOf]
    exact hs.keyed
  · rw [hf.hashOf]
    exact hh

/-- A direct placement that fails leaves the words alone. -/
lemma placeDirect_false (he : placeDirect c.gen ph w = (false, g)) :
    ∃ b tag, Bumped b tag c.gen g := by
  rcases placeDirect_cases c.gen ph w with ⟨j, -, -, hp⟩ | ⟨g', j, -, -, -, -, hp⟩ | ⟨g', hb, hp⟩
  · rw [he] at hp
    cases hp
  · rw [he] at hp
    cases hp
  · rw [he] at hp
    cases hp
    exact ⟨_, _, hb⟩

/-- Words stay placed when hints are raised and lowered again. -/
lemma Placed.bumped (hs : Placed c) (hb : Bumped b tag c.gen g) : Placed { c with gen := g } :=
  hs.sameSlots hb.slots hb.numBuckets hb.seed (hb.hinted hs.hinted)

/-- A settled table stays settled when hints are raised and lowered again. -/
lemma Settled.bumped (hs : Settled c) (hb : Bumped b tag c.gen g) :
    Settled { c with gen := g } := by
  refine (hs.placed.bumped hb).settled ?_
  have hf : Frame c { c with gen := g } := .ofGen hb.numBuckets hb.seed
  rw [live_of_slots hb.slots, hf.keyOf]
  exact hs.keys

/-- A record stays ready when hints are raised and lowered again. -/
lemma Ready.bumped (hr : Ready c i) (hb : Bumped b tag c.gen g) : Ready { c with gen := g } i := by
  refine ⟨hr.lt, hr.notFree, ?_, hr.flags⟩
  rw [live_of_slots hb.slots]
  exact hr.notLive

/-- A record stays filed when hints are raised and lowered again. -/
lemma Filed.bumped (hw : Filed c i) (hb : Bumped b tag c.gen g) : Filed { c with gen := g } i := by
  have hf : Frame c { c with gen := g } := .ofGen hb.numBuckets hb.seed
  refine ⟨hw.toReady.bumped hb, ?_⟩
  rw [hf.hashOf]
  exact hw.keyed

/-- A record stays welcome when hints are raised and lowered again. -/
lemma Welcome.bumped (hw : Welcome c i) (hb : Bumped b tag c.gen g) :
    Welcome { c with gen := g } i := by
  refine ⟨hw.toReady.bumped hb, (hw.filed.bumped hb).keyed, ?_⟩
  rw [Core.Absent, live_of_slots hb.slots]
  exact hw.absent

/-- A record goes to a slot of one of its buckets. -/
lemma Placed.enter {x : ℕ × ℕ} (hs : Placed c) (sec : Bool) (hw : Filed c i)
    (hn : c.gen.slots x = none)
    (hx : c.Seat (c.hashOf i) { c.wordOf i with inSec := sec } (.slot x)) :
    Placed { c with
      gen := c.gen.enter (c.gen.primary (c.hashOf i)) x { c.wordOf i with inSec := sec } } :=
  hs.put (p := .slot x) (w := { c.wordOf i with inSec := sec }) (.ofGen enter_numBuckets enter_seed)
    (wordAt_setSlot enter_slots) hn hw.toReady hs.shards hs.stash hw.keyed rfl hx
    (hs.hinted.enter (w := { c.wordOf i with inSec := sec }) hn)

/-- A direct placement that succeeds. -/
lemma Placed.placeDirect (hs : Placed c) (hw : Filed c i)
    (he : placeDirect c.gen (c.hashOf i) (c.wordOf i) = (true, g)) :
    Placed { c with gen := g } := by
  rcases placeDirect_cases c.gen (c.hashOf i) (c.wordOf i) with
    ⟨j, hj, hn, hp⟩ | ⟨g', j, hb, hj, hn, hne, hp⟩ | ⟨g', -, hp⟩
  · rw [he] at hp
    cases hp
    exact hs.enter false hw hn ⟨hj, rfl⟩
  · rw [he] at hp
    cases hp
    have hf : Frame c { c with gen := g' } := .ofGen hb.numBuckets hb.seed
    have hw' := hw.bumped hb
    have hn' : g'.slots (c.gen.secondary (c.hashOf i), j) = none := by rw [hb.slots, hn]
    have h := (hs.bumped hb).enter (x := (c.gen.secondary (c.hashOf i), j)) true hw' hn' (by
      rw [hf.hashOf, hf.seat]
      exact ⟨hj, rfl, hne⟩)
    rw [hf.hashOf, hf.wordOf, hb.primary] at h
    exact h
  · rw [he] at hp
    cases hp

/-- A direct placement that succeeds in a settled table. -/
lemma Settled.placeDirect (hs : Settled c) (hw : Welcome c i)
    (he : placeDirect c.gen (c.hashOf i) (c.wordOf i) = (true, g)) : Settled { c with gen := g } :=
  hs.joined hw (hs.toStored.placeDirect (w := c.wordOf i) hw.toReady he)
    (hs.placed.placeDirect hw.filed he)

/-- A record goes to the stash of its shard. -/
lemma Placed.putShard (hs : Placed c) (hw : Filed c i) {j : ℕ} (hj : j < stashMax)
    (hn : (c.shards (c.shardAt (c.hashOf i))).slots j = none) :
    Placed (c.setShard (c.shardAt (c.hashOf i))
      ((c.shards (c.shardAt (c.hashOf i))).put j (c.wordOf i))) :=
  hs.put (p := .shard _ j) (w := c.wordOf i) ⟨rfl, rfl, rfl, rfl, rfl, rfl⟩
    (wordAt_setShard rfl) hn hw.toReady
    (counted_update hs.shards ((hs.shards _).put hn _)) hs.stash hw.keyed rfl ⟨hj, rfl⟩ hs.hinted

/-- A record goes to the global stash. -/
lemma Placed.putStash (hs : Placed c) (hw : Filed c i) {j : ℕ} (hj : j < stashMax)
    (hn : c.stash.slots j = none) : Placed { c with stash := c.stash.put j (c.wordOf i) } :=
  hs.put (p := .global j) (w := c.wordOf i) ⟨rfl, rfl, rfl, rfl, rfl, rfl⟩
    (wordAt_setStash rfl) hn hw.toReady
    hs.shards (hs.stash.put hn _) hw.keyed rfl hj hs.hinted

/-! ## Allocating a record -/

/-- What an allocation gives: a record that was not live and the rest of the store as it was. -/
structure Alloced (t t' : Table) (i identityHash ph value : ℕ) : Prop where
  recs : ∃ gen, t'.recs = Function.update t.recs i ⟨identityHash, ph, gen, 0, value⟩
  notLive : i ∉ t.live
  spared : Spared t.toCore t'.recs t'.count t'.freeIdx
  lt : i < t'.count
  notFree : i ∉ t'.freeIdx
  source : i ∈ t.freeIdx ∨ i = t.count
  countLe : t.count ≤ t'.count
  freeSub : t'.freeIdx ⊆ t.freeIdx
  countLt : ∀ j < t'.count, j ≠ i → j < t.count
  freeKeep : ∀ j ∈ t.freeIdx, j ≠ i → j ∈ t'.freeIdx
  rest : t' = { t with recs := t'.recs, count := t'.count, freeIdx := t'.freeIdx, mem := t'.mem }

/-- `htc_arena_alloc` gives a record or leaves the store alone. -/
lemma arenaAlloc_cases {t : Table} (hs : Stored t.toCore) (identityHash ph value : ℕ) :
    (∃ i t', t.arenaAlloc identityHash ph value = (some i, t') ∧
      Alloced t t' i identityHash ph value) ∨
      ∃ m, t.arenaAlloc identityHash ph value = (none, { t with mem := m }) ∧ false ∈ t.mem := by
  rw [Table.arenaAlloc]
  -- a freed record is used again, else the next one of the arena
  cases hfree : t.freeIdx with
  | cons i rest =>
    have hnd := hs.freeNodup
    rw [hfree, List.nodup_cons] at hnd
    have hi : i ∈ t.freeIdx := by rw [hfree]; exact List.mem_cons_self ..
    have hnl : i ∉ t.live := fun hl => hs.notFree i hl hi
    refine .inl
      ⟨i, _, rfl,
        ⟨⟨_, rfl⟩, hnl, ⟨face_update_of_notLive hnl, hs.lt, ?_, hnd.2, ?_⟩, hs.freeLt i hi,
      hnd.1, .inl hi, le_rfl, ?_, fun k hk _ => hk, fun k hk hne => ?_, rfl⟩⟩
    · intro k hk hm
      refine hs.notFree k hk ?_
      rw [hfree]
      exact List.mem_cons_of_mem _ hm
    · intro k hk
      refine hs.freeLt k ?_
      rw [hfree]
      exact List.mem_cons_of_mem _ hk
    · intro k hk
      rw [hfree]
      exact List.mem_cons_of_mem _ hk
    · rw [hfree] at hk
      exact (List.mem_cons.mp hk).resolve_left hne
  | nil =>
    have hnl : t.count ∉ t.live := fun hl => lt_irrefl _ (hs.lt _ hl)
    have hok : ∀ m : List Bool,
        Alloced t { t with
          mem := m
          count := t.count + 1
          recs := Function.update t.recs t.count
            ⟨identityHash, ph, (t.recs t.count).generation, 0, value⟩ } t.count identityHash ph
              value := by
      intro m
      refine ⟨⟨_, rfl⟩, hnl,
        ⟨face_update_of_notLive hnl, fun k hk => Nat.lt_succ_of_lt (hs.lt k hk), hs.notFree,
        hs.freeNodup, fun k hk => Nat.lt_succ_of_lt (hs.freeLt k hk)⟩, Nat.lt_succ_self _, ?_,
          .inr rfl, Nat.le_succ _,
        List.Subset.refl _, fun k hk hne => lt_of_le_of_ne (Nat.lt_succ_iff.mp hk) hne,
          fun k hk _ => hk, rfl⟩
      change t.count ∉ t.freeIdx
      rw [hfree]
      exact List.not_mem_nil
    simp only [Table.malloc]
    rcases hm : t.mem with _ | ⟨ok, rest⟩
    · refine .inl ⟨t.count, _, rfl, ?_⟩
      have h := hok t.mem
      exact h
    · cases ok with
      | false => exact .inr ⟨rest, rfl, List.mem_cons_self ..⟩
      | true => exact .inl ⟨t.count, _, rfl, hok rest⟩

variable {t t' : Table} {value : ℕ}

/-- The core after an allocation. -/
lemma Alloced.core (ha : Alloced t t' i h ph value) :
    t'.toCore = { t.toCore with recs := t'.recs, count := t'.count, freeIdx := t'.freeIdx } := by
  have hr := congrArg Table.toCore ha.rest
  exact hr

/-- An allocated record keeps the words stored. -/
lemma Alloced.stored (ha : Alloced t t' i h ph value) (hs : Stored t.toCore) :
    Stored t'.toCore := by
  rw [ha.core]
  exact hs.store ha.spared

/-- An allocated record keeps the words in their places. -/
lemma Alloced.placed (ha : Alloced t t' i h ph value) (hs : Placed t.toCore) :
    Placed t'.toCore := by
  rw [ha.core]
  exact hs.store ha.spared

/-- An allocated record keeps the table settled. -/
lemma Alloced.settled (ha : Alloced t t' i h ph value) (hs : Settled t.toCore) :
    Settled t'.toCore := by
  rw [ha.core]
  exact hs.store ha.spared

/-- An allocated record is in no generation. -/
lemma Alloced.gen (ha : Alloced t t' i h ph value) : t'.gen = t.gen := by
  rw [ha.core]

/-- An allocated record is not live yet. -/
lemma Alloced.live (ha : Alloced t t' i h ph value) : t'.live = t.live := by
  rw [ha.core]
  rfl

/-- What the allocated record holds. -/
lemma Alloced.rec_self (ha : Alloced t t' i h ph value) :
    ∃ gen, t'.recs i = ⟨h, ph, gen, 0, value⟩ := by
  obtain ⟨gen, hr⟩ := ha.recs
  exact ⟨gen, by rw [hr, Function.update_self]⟩

/-- The key of the allocated record. -/
lemma Alloced.keyOf_self (ha : Alloced t t' i h ph value) : t'.keyOf i = h := by
  obtain ⟨gen, hr⟩ := ha.rec_self
  rw [Core.keyOf, hr]

/-- The other records stay. -/
lemma Alloced.recs_of_ne (ha : Alloced t t' i h ph value) {j : ℕ} (hj : j ≠ i) :
    t'.recs j = t.recs j := by
  obtain ⟨gen, hr⟩ := ha.recs
  rw [hr, Function.update_of_ne hj]

/-- The new record is ready. -/
lemma Alloced.ready (ha : Alloced t t' i h ph value) : Ready t'.toCore i where
  lt := ha.lt
  notFree := ha.notFree
  notLive := by
    rw [ha.live]
    exact ha.notLive
  flags := by
    obtain ⟨gen, hr⟩ := ha.rec_self
    rw [hr]

/-- Another ready record stays ready. -/
lemma Alloced.ready_other (ha : Alloced t t' i h ph value) {j : ℕ} (hj : Ready t.toCore j) :
    j ≠ i ∧ Ready t'.toCore j := by
  have hne : j ≠ i := by
    rintro rfl
    rcases ha.source with hs | hs
    · exact hj.notFree hs
    · exact absurd hj.lt (by rw [hs]; exact lt_irrefl _)
  refine ⟨hne, hj.lt.trans_le ha.countLe, fun hf => hj.notFree (ha.freeSub hf), ?_, ?_⟩
  · rw [ha.live]
    exact hj.notLive
  · rw [ha.recs_of_ne hne]
    exact hj.flags

/-- The new record carries its hash. -/
lemma Alloced.filed (ha : Alloced t t' i h ph value) (hph : ph = placementHash h t.gen.seed) :
    Filed t'.toCore i where
  toReady := ha.ready
  keyed := by
    obtain ⟨gen, hr⟩ := ha.rec_self
    rw [hr, Core.hashOf, ha.keyOf_self, ha.gen]
    exact hph

/-- The new record is welcome when its key is absent. -/
lemma Alloced.welcome (ha : Alloced t t' i h ph value) (hph : ph = placementHash h t.gen.seed)
    (habs : t.Absent h) : Welcome t'.toCore i where
  toReady := ha.ready
  keyed := (ha.filed hph).keyed
  absent := by
    rw [ha.keyOf_self]
    intro j hj
    rw [ha.live] at hj
    rw [Core.keyOf, ha.recs_of_ne fun he => ha.notLive (he ▸ hj)]
    exact habs j hj

end Draugr.Htc
