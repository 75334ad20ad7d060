import Draugr.Htc.Concurrent

/-!
# What a step of a thread does

`Effect s l s' l'` says what a step from `l` to `l'` does with a table whose words are placed: the
words stay placed, records that other threads have allocated stay theirs, and at most one live
record comes or goes, with the key of the call. `exec_effect` proves it of every step; the only
condition is that a grow starts where it loses nothing.
-/

namespace Draugr.Htc
open Draugr.Lib

/-! ## What holds of a thread -/

/-- The record that a call has allocated and not yet brought into a generation. -/
def Local.carried : Local → Option ℕ
  | .insPath _ _ _ idx _ => some idx
  | .insStash _ _ idx => some idx
  | _ => none

/-- The key that the next step can bring in. -/
def Local.enters : Local → Option ℕ
  | .insLock a _ => some a.hash
  | .insPath a _ _ _ _ => some a.hash
  | .insStash a _ _ => some a.hash
  | _ => none

/-- The key that the next step can take out. -/
def Local.removes : Local → Option ℕ
  | .remLock h _ => some h
  | _ => none

/-- The key that the call of the thread has brought in. -/
def Local.entered : Local → Option ℕ
  | .insDone a _ => some a.hash
  | .insCheck a => some a.hash
  | .growLock _ (.entered a) => some a.hash
  | .growRehash _ (.entered a) => some a.hash
  | .returned (.insert h _) .ok => some h
  | .returned (.upsert h _) .ok => some h
  | _ => none

/-- What a call computed from the generation with its number. -/
structure View.Of (s : Shared) (h : ℕ) (v : View) : Prop where
  le : v.gen ≤ s.genNo
  eq : v.gen = s.genNo → v = s.view h

/-- The record `idx` was allocated by a call. -/
structure Carries (s : Shared) (a : Ins) (v : View) (idx : ℕ) :
    Prop extends Ready s.tbl.toCore idx where
  key : s.tbl.keyOf idx = a.hash
  keyed : v.gen = s.genNo → (s.tbl.recs idx).placementHash = s.tbl.hashOf idx

/-- What holds where a thread is. -/
def Local.Ok (s : Shared) : Local → Prop
  | .insLock a v => v.Of s a.hash
  | .insPath a v _ idx p => v.Of s a.hash ∧ Carries s a v idx ∧ ∃ d, Chain v.b1 v.b2 d p
  | .insStash a v idx => v.Of s a.hash ∧ Carries s a v idx
  | .upsLock h _ _ v => v.Of s h
  | .remLock h v => v.Of s h
  | .findPrimary h v => v.Of s h
  | .findRemap h v => v.Of s h
  | .findSecondary h v => v.Of s h
  | .findShard h v => v.Of s h
  | .findGlobal h v => v.Of s h
  | _ => True

/-- How a step changes the generations. -/
structure Moved (s s' : Shared) : Prop where
  gen : (s'.genNo = s.genNo ∧ s'.tbl.gen.numBuckets = s.tbl.gen.numBuckets ∧
    s'.tbl.gen.seed = s.tbl.gen.seed) ∨
    s'.genNo = s.genNo + 1 ∧ s'.tbl.gen.numBuckets = s.tbl.gen.numBuckets * 2
  shardCount : s'.tbl.shardCount = s.tbl.shardCount

/-- How a step changes the live records: it brings in a record with the first key, or takes out one
with the second. -/
structure Delta (c c' : Core) (ent rem : Option ℕ) : Prop where
  keys : ∀ j ∈ c.live, j ∈ c'.live → c'.keyOf j = c.keyOf j
  live : c'.live = c.live ∨
    (∃ i, i ∉ c.live ∧ c'.live = insert i c.live ∧ ent = some (c'.keyOf i)) ∨
    ∃ i ∈ c.live, rem = some (c.keyOf i) ∧ c'.live = c.live \ {i}

/-- The displacement of a call whose generation was replaced. -/
def Local.Late (s : Shared) : Local → Prop
  | .insPath _ v _ _ _ => v.gen ≠ s.genNo
  | _ => False

/-- The displacement takes the word of a slot of the current generation away. -/
def Local.Shifts (s : Shared) (x : ℕ × ℕ) : Local → Prop
  | .insPath _ v _ _ p =>
    v.gen = s.genNo ∧ (validatePathLocked s.tbl.gen s.tbl.recs p).isSome ∧ x ∈ p.moves.map Move.src
  | _ => False

/-- The words of the live records stay where they are, but for those that the step displaces. -/
def Unmoved (s : Shared) (l : Local) (s' : Shared) : Prop :=
  s'.genNo = s.genNo → ∀ p w,
  s.tbl.wordAt p = some w → w.idx ∈ s'.tbl.live → (∀ x, p = .slot x → ¬ l.Shifts s x) →
    s'.tbl.wordAt p = some w

/-- What a step does. -/
structure Effect (s : Shared) (l : Local) (s' : Shared) (l' : Local) : Prop where
  moved : Moved s s'
  placed : Placed s'.tbl.toCore
  buckets : 0 < s'.tbl.gen.numBuckets
  ok : l'.Ok s'
  others : ∀ j, Ready s.tbl.toCore j → l.carried ≠ some j →
    Ready s'.tbl.toCore j ∧ s'.tbl.recs j = s.tbl.recs j ∧ l'.carried ≠ some j
  delta : Delta s.tbl.toCore s'.tbl.toCore l.enters l.removes
  arrived : ∀ h, l'.entered = some h → l.entered = some h ∨ ¬ s'.tbl.Absent h ∨ l.Late s
  keys : ∀ j, s'.tbl.keyOf j = s.tbl.keyOf j ∨ l.enters = some (s'.tbl.keyOf j) ∨ s'.tbl.keyOf j = 0
  words : Unmoved s l s'

/-- Where a thread may go by a step that changes nothing for it. -/
structure Light (s : Shared) (l l' : Local) : Prop where
  ok : l'.Ok s
  carried : ∀ j, l'.carried = some j → l.carried = some j
  entered : ∀ h, l'.entered = some h → l.entered = some h

variable {s s' : Shared} {l l' : Local} {t t' : Table} {c c' : Core} {a : Ins} {v : View}
  {h i idx : ℕ}
  {ent rem : Option ℕ}

/-! ## Parts of an effect -/

/-- Nothing is moved by doing nothing. -/
lemma Moved.refl (s : Shared) : Moved s s := ⟨.inl ⟨rfl, rfl, rfl⟩, rfl⟩

/-- The table is replaced by one with the same geometry. -/
lemma Moved.setTbl (hn : t.gen.numBuckets = s.tbl.gen.numBuckets) (hs : t.gen.seed = s.tbl.gen.seed)
    (hc : t.shardCount = s.tbl.shardCount) : Moved s (s.setTbl t) := ⟨.inl ⟨rfl, hn, hs⟩, hc⟩

/-- What a call computes depends on the geometry of the current generation. -/
lemma view_eq (hg : s'.genNo = s.genNo) (hn : s'.tbl.gen.numBuckets = s.tbl.gen.numBuckets)
    (hs : s'.tbl.gen.seed = s.tbl.gen.seed) (hc : s'.tbl.shardCount = s.tbl.shardCount) (h : ℕ) :
    s'.view h = s.view h := by
  simp only [Shared.view, Gen.secondary, Gen.primary, hg, hn, hs, hc]

/-- A new view. -/
lemma View.Of.new (s : Shared) (h : ℕ) : (s.view h).Of s h := ⟨le_rfl, fun _ => rfl⟩

/-- Views outlive a step. -/
lemma View.Of.moved (hv : v.Of s h) (hm : Moved s s') : v.Of s' h := by
  rcases hm.gen with ⟨hg, hn, hs⟩ | ⟨hg, -⟩
  · refine ⟨hg ▸ hv.le, fun he => ?_⟩
    rw [view_eq hg hn hs hm.shardCount]
    exact hv.eq (he.trans hg)
  · have hlt : v.gen < s'.genNo := by
      rw [hg]
      exact Nat.lt_succ_of_le hv.le
    exact ⟨hlt.le, fun he => absurd he hlt.ne⟩

/-- A record that a step spares is still carried. -/
lemma Carries.moved (hc : Carries s a v idx) (hv : v.gen ≤ s.genNo) (hm : Moved s s')
    (hr : Ready s'.tbl.toCore idx)
    (he : s'.tbl.recs idx = s.tbl.recs idx) : Carries s' a v idx := by
  have hk : s'.tbl.keyOf idx = s.tbl.keyOf idx := by rw [Core.keyOf, he, Core.keyOf]
  refine ⟨hr, hk.trans hc.key, fun hg => ?_⟩
  rcases hm.gen with ⟨hg', -, hs⟩ | ⟨hg', -⟩
  · rw [he, Core.hashOf, hk, hs]
    exact hc.keyed (hg.trans hg')
  · rw [hg, hg'] at hv
    exact absurd hv (Nat.not_succ_le_self _)

/-- What holds of another thread outlives a step. -/
lemma Local.Ok.moved (hl : l.Ok s) (hm : Moved s s')
    (ho : ∀ j, l.carried = some j → Ready s'.tbl.toCore j ∧ s'.tbl.recs j = s.tbl.recs j) :
    l.Ok s' := by
  cases l with
  | insPath a v sids idx p =>
    obtain ⟨hr, he⟩ := ho idx rfl
    exact ⟨hl.1.moved hm, hl.2.1.moved hl.1.le hm hr he, hl.2.2⟩
  | insStash a v idx =>
    obtain ⟨hr, he⟩ := ho idx rfl
    exact ⟨hl.1.moved hm, hl.2.moved hl.1.le hm hr he⟩
  | insLock a v => exact View.Of.moved hl hm
  | upsLock h u k v => exact View.Of.moved hl hm
  | remLock h v => exact View.Of.moved hl hm
  | findPrimary h v => exact View.Of.moved hl hm
  | findRemap h v => exact View.Of.moved hl hm
  | findSecondary h v => exact View.Of.moved hl hm
  | findShard h v => exact View.Of.moved hl hm
  | findGlobal h v => exact View.Of.moved hl hm
  | _ => trivial

/-- Doing nothing enters and removes nothing. -/
lemma Delta.refl (c : Core) : Delta c c ent rem := ⟨fun _ _ _ => rfl, .inl rfl⟩

/-- The live records are the same. -/
lemma Same.delta (hs : Same c c') : Delta c c' ent rem :=
  ⟨fun j hj _ => congrArg HtcRecord.identityHash (hs.recs j hj), .inl hs.live⟩

/-- A record was added. -/
lemma Entered.delta {u : ℕ} (he : Entered c c' h u) : Delta c c' (some h) rem := by
  obtain ⟨i, hi, hl, hk, -⟩ := he.live
  exact ⟨fun j hj _ => congrArg HtcRecord.identityHash (he.recs j hj),
    .inr (.inl ⟨i, hi, hl, by rw [hk]⟩)⟩

/-- A record was removed. -/
lemma Removed.delta (hr : Removed c c' h) : Delta c c' ent (some h) := by
  obtain ⟨i, hi, hk, hl⟩ := hr.live
  exact ⟨fun j _ hj => congrArg HtcRecord.identityHash (hr.recs j hj),
    .inr (.inr ⟨i, hi, by rw [hk], hl⟩)⟩

/-- No record of a key comes in by a step of a call for another key. -/
lemma Delta.live_of_ne (hd : Delta c c' ent rem)
    (hent : ent ≠ some h) (hi : i ∈ c'.live) (hk : c'.keyOf i = h) : i ∈ c.live := by
  rcases hd.live with hlive | ⟨j, -, hlive, he⟩ | ⟨j, -, -, hlive⟩
  · exact hlive ▸ hi
  · rcases (hlive ▸ hi : i ∈ insert j c.live) with rfl | hold
    · exact absurd (he.trans (congrArg some hk)) hent
    · exact hold
  · exact (hlive ▸ hi : i ∈ c.live \ {j}).1

/-- A step that leaves the shared state alone. -/
lemma Effect.stay (hp : Placed s.tbl.toCore) (hb : 0 < s.tbl.gen.numBuckets) (hl : Light s l l') :
    Effect s l s l' where
  moved := .refl s
  placed := hp
  buckets := hb
  ok := hl.ok
  others j hj hne := ⟨hj, rfl, fun he => hne (hl.carried j he)⟩
  delta := .refl _
  arrived h he := .inl (hl.entered h he)
  keys _ := .inl rfl
  words _ _ _ hp _ _ := hp

/-- Where a thread may go from anywhere. -/
lemma Light.of (ho : l'.Ok s) (hc : l'.carried = none) (he : l'.entered = none) : Light s l l' where
  ok := ho
  carried j hj := by
    rw [hc] at hj
    cases hj
  entered h hh := by
    rw [he] at hh
    cases hh

/-- `htc_insert` returns without an entry. -/
lemma finish_light (a : Ins) {e : HtcError} (he : e ≠ .ok) (s : Shared) (l : Local) :
    Light s l (a.finish e) := by
  rw [Ins.finish]
  split
  · refine .of trivial rfl ?_
    cases e <;> first | rfl | exact absurd rfl he
  · split
    · exact .of trivial rfl rfl
    · refine .of trivial rfl ?_
      cases e <;> first | rfl | exact absurd rfl he

/-- `htc_insert` returns after its entry came in. -/
lemma finish_light_ok (a : Ins) (s : Shared) (hl : l.entered = some a.hash) :
    Light s l (a.finish .ok) := by
  have hent : (a.finish .ok).entered = some a.hash ∧ (a.finish .ok).Ok s ∧
      (a.finish .ok).carried = none := by
    rw [Ins.finish]
    split
    · exact ⟨rfl, trivial, rfl⟩
    · exact ⟨rfl, trivial, rfl⟩
  refine ⟨hent.2.1, fun j hj => ?_, fun h hh => hl.trans (hent.1.symm.trans hh)⟩
  rw [hent.2.2] at hj
  cases hj

/-- `htc_grow` returns. -/
lemma resume_light (k : After) (reseed : Bool) (e : HtcError) (s : Shared) :
    Light s (.growRehash reseed k) (k.resume reseed e) := by
  cases k with
  | caller => exact .of trivial rfl rfl
  | entered a => exact finish_light_ok a s rfl
  | retry a =>
    rw [After.resume]
    split
    · exact .of trivial rfl rfl
    · next he => exact finish_light a he s _

/-! ## `htc_insert` -/

/-- A record that joins the table leaves the other ready records ready. -/
lemma Joined.ready_other (hj : Joined c c' i) {j : ℕ} (hr : Ready c j) (hne : j ≠ i) :
    Ready c' j where
  lt := hj.frame.count ▸ hr.lt
  notFree := hj.frame.freeIdx ▸ hr.notFree
  notLive := by
    rw [hj.live, Set.mem_insert_iff, not_or]
    exact ⟨hne, hr.notLive⟩
  flags := hj.frame.recs ▸ hr.flags

/-- A record that joins the table is a change of the live records. -/
lemma Joined.delta (hj : Joined c c' i) (hi : i ∉ c.live) (hk : c.keyOf i = h) :
    Delta c c' (some h) rem where
  keys j _ _ := by rw [hj.frame.keyOf]
  live := .inr (.inl ⟨i, hi, hj.live, by rw [hj.frame.keyOf, hk]⟩)

/-- The carried record joins the table. -/
lemma Joined.effect (hj : Joined s.tbl.toCore t.toCore idx) (hp : Placed t.toCore)
    (hb : 0 < s.tbl.gen.numBuckets) (hr : Ready s.tbl.toCore idx) (hc : l.carried = some idx)
    (he : l.enters = some (s.tbl.keyOf idx))
    (ho : ∀ s', l'.Ok s' ∧ l'.carried = none) (hk : l'.entered = some (s.tbl.keyOf idx))
    (hw : Unmoved s l (s.setTbl t)) : Effect s l (s.setTbl t) l' where
  moved := .setTbl hj.frame.numBuckets hj.frame.seed hj.frame.shardCount
  placed := hp
  buckets := by
    change 0 < t.gen.numBuckets
    rw [hj.frame.numBuckets]
    exact hb
  ok := (ho _).1
  others j hrj hne := by
    refine ⟨hj.ready_other hrj fun he => hne (by rw [hc, he]), by rw [← hj.frame.recs]; rfl, ?_⟩
    rw [(ho s).2]
    exact fun h => by cases h
  delta := by
    rw [he]
    exact hj.delta hr.notLive rfl
  arrived h hh := by
    rw [hk] at hh
    cases hh
    refine .inr (.inl fun ha => ha idx ?_ (congrFun hj.frame.keyOf idx))
    exact hj.live.ge (Set.mem_insert _ _)
  keys j := .inl (congrFun hj.frame.keyOf j)
  words := hw

/-- A record that is carried into the current generation carries its hash. -/
lemma Carries.filed (hc : Carries s a v idx) (hg : v.gen = s.genNo) : Filed s.tbl.toCore idx :=
  ⟨hc.toReady, hc.keyed hg⟩

/-- Freeing a record leaves the other ready records ready. -/
lemma Ready.arenaFree {j : ℕ} (hr : Ready c j) (hne : j ≠ i) :
    Ready (c.arenaFree i) j ∧ (c.arenaFree i).recs j = c.recs j := by
  have he : (c.arenaFree i).recs j = c.recs j := Function.update_of_ne hne ..
  refine ⟨⟨hr.lt, ?_, hr.notLive, ?_⟩, he⟩
  · change j ∉ i :: c.freeIdx
    rw [List.mem_cons, not_or]
    exact ⟨hne, hr.notFree⟩
  · rw [he]
    exact hr.flags

/-- The keys of the records after one was freed. -/
lemma keyOf_arenaFree (i j : ℕ) :
    (c.arenaFree i).keyOf j = c.keyOf j ∨ ent = some ((c.arenaFree i).keyOf j) ∨
      (c.arenaFree i).keyOf j = 0 := by
  by_cases hj : j = i
  · refine .inr (.inr ?_)
    simp only [Core.keyOf, Core.arenaFree, hj, Function.update_self, htcArenaRecZero]
  · refine .inl ?_
    simp only [Core.keyOf, Core.arenaFree, Function.update_of_ne hj]

/-- The keys of the records after one was allocated. -/
lemma Alloced.keyOf {ph u : ℕ} (ha : Alloced t t' i h ph u) (j : ℕ) :
    t'.keyOf j = t.keyOf j ∨ some h = some (t'.keyOf j) ∨ t'.keyOf j = 0 := by
  by_cases hj : j = i
  · rw [hj, ha.keyOf_self]
    exact .inr (.inl rfl)
  · exact .inl (congrArg HtcRecord.identityHash (ha.recs_of_ne hj))

/-- The stash section. -/
lemma stashSection_effect (hp : Placed s.tbl.toCore) (hb : 0 < s.tbl.gen.numBuckets)
    (hc : Carries s a v idx) (hg : v.gen = s.genNo) :
    Effect s (.insStash a v idx) (s.stashSection a idx).1 (s.stashSection a idx).2 := by
  rw [Shared.stashSection]
  rcases insertStash_cases hp.toStored hc.toReady a.hash with ⟨he, -⟩ | ⟨c', he, hj, -⟩ | he
  · rw [he]
    exact .stay hp hb (finish_light a (by decide) s _)
  · rw [he]
    have hp' : Placed c' := by
      rw [← hc.key] at he
      exact hp.insertStash (hc.filed hg) he
    exact Joined.effect (t := Table.entry { s.tbl with toCore := c' }) hj hp' hb hc.toReady rfl
      (by rw [hc.key]; rfl)
      (fun _ => ⟨trivial, rfl⟩) (by rw [hc.key]; rfl) fun _ q u hq _ _ => insertStash_keep he hq
  · rw [he]
    have hsame := same_arenaFree hc.toReady
    refine ⟨.setTbl rfl rfl rfl, hp.store (spared_free hp.toStored hc.toReady _), hb, trivial,
      fun j hj hne => ?_, hsame.delta, nofun, keyOf_arenaFree idx, fun _ _ _ hq _ _ => hq⟩
    obtain ⟨hr, he⟩ := hj.arenaFree fun he => hne (by rw [he]; rfl)
    exact ⟨hr, he, fun h => by cases h⟩

/-- The section between the allocation of a record and its placement. -/
lemma alloc_effect {t₁ : Table} {g : Gen} {b tag : ℕ} (hp : Placed s.tbl.toCore)
    (hb : 0 < s.tbl.gen.numBuckets)
    (ha : Alloced s.tbl t₁ i a.hash (placementHash a.hash s.tbl.gen.seed) a.value)
    (hbump : Bumped b tag t₁.gen g)
    (hc : l'.carried = some i) (hent : l'.entered = none) (henters : l.enters = some a.hash)
    (ho : Carries (s.setTbl { t₁ with gen := g }) a v i → l'.Ok (s.setTbl { t₁ with gen := g })) :
    Effect s l (s.setTbl { t₁ with gen := g }) l' := by
  have hfiled : Filed { t₁.toCore with gen := g } i := (ha.filed rfl).bumped hbump
  have hgen : g.numBuckets = s.tbl.gen.numBuckets ∧ g.seed = s.tbl.gen.seed :=
    ⟨by rw [hbump.numBuckets, ha.gen], by rw [hbump.seed, ha.gen]⟩
  have hsc : t₁.shardCount = s.tbl.shardCount := by rw [ha.core]
  have hsame : Same s.tbl.toCore { t₁.toCore with gen := g } :=
    ha.same.trans ⟨live_of_slots hbump.slots, fun _ _ => rfl⟩
  refine ⟨.setTbl hgen.1 hgen.2 hsc, (ha.placed hp).bumped hbump, ?_,
    ho ⟨hfiled.toReady, ha.keyOf_self, fun _ => hfiled.keyed⟩,
    fun j hj _ => ?_, hsame.delta, fun h hh => ?_, fun j => ?_, fun _ q u hq _ _ => ?_⟩
  · change 0 < g.numBuckets
    rw [hgen.1]
    exact hb
  · obtain ⟨hne, hr⟩ := ha.ready_other hj
    refine ⟨hr.bumped hbump, ha.recs_of_ne hne, ?_⟩
    rw [hc, Ne, Option.some_inj]
    exact fun he => hne he.symm
  · rw [hent] at hh
    cases hh
  · rw [henters]
    exact ha.keyOf j
  · change Core.wordAt { t₁.toCore with gen := g } q = some u
    rw [wordAt_of_slots hbump.slots, ha.core]
    exact hq

/-- A section between whose parts no lock is released. -/
lemma Effect.trans {s₁ : Shared} {l₁ : Local} (h : Effect s l s₁ l₁) (h' : Effect s₁ l₁ s' l')
    (hg : s₁.genNo = s.genNo)
    (hn : s₁.tbl.gen.numBuckets = s.tbl.gen.numBuckets) (hs : s₁.tbl.gen.seed = s.tbl.gen.seed)
    (hd : Same s.tbl.toCore s₁.tbl.toCore) (he : l₁.enters = l.enters) (hr : l₁.removes = l.removes)
    (ha : l₁.entered = none) (hlate : ¬ l₁.Late s₁) (hns : ∀ x, ¬ l₁.Shifts s₁ x) :
    Effect s l s' l' where
  moved := by
    refine ⟨?_, h'.moved.shardCount.trans h.moved.shardCount⟩
    rw [← hg, ← hn, ← hs]
    exact h'.moved.gen
  placed := h'.placed
  buckets := h'.buckets
  ok := h'.ok
  others j hj hne := by
    obtain ⟨h1, h2, h3⟩ := h.others j hj hne
    obtain ⟨h4, h5, h6⟩ := h'.others j h1 h3
    exact ⟨h4, h5.trans h2, h6⟩
  delta := by
    have hk : ∀ j ∈ s.tbl.live, s₁.tbl.keyOf j = s.tbl.keyOf j :=
      fun j hj => congrArg HtcRecord.identityHash (hd.recs j hj)
    refine ⟨fun j hj hj' => ?_, ?_⟩
    · rw [h'.delta.keys j (hd.live ▸ hj) hj', hk j hj]
    · have hl := h'.delta.live
      rw [hd.live, he, hr] at hl
      rcases hl with hl | hl | ⟨i, hi, hl⟩
      · exact .inl hl
      · exact .inr (.inl hl)
      · rw [hk i hi] at hl
        exact .inr (.inr ⟨i, hi, hl⟩)
  arrived k hk := by
    rcases h'.arrived k hk with hl | hl | hl
    · rw [ha] at hl
      cases hl
    · exact .inr (.inl hl)
    · exact absurd hl hlate
  keys j := by
    have hk := h'.keys j
    rw [he] at hk
    rcases hk with hk | hk | hk
    · rw [hk]
      exact h.keys j
    · exact .inr (.inl hk)
    · exact .inr (.inr hk)
  words he q u hq hu hx :=
    h'.words (he.trans hg.symm) q u
      (h.words hg q u hq (hd.live ▸ mem_live hq) hx) hu fun x _ => hns x

/-- The first section of `htc_insert`. -/
lemma insertSection_effect (hp : Placed s.tbl.toCore) (hb : 0 < s.tbl.gen.numBuckets)
    (hv : v.Of s a.hash) :
    Effect s (.insLock a v) (s.insertSection a v).1 (s.insertSection a v).2 := by
  rw [Shared.insertSection]
  split
  · exact .stay hp hb (.of trivial rfl rfl)
  next hst =>
  have hg : v.gen = s.genNo := by
    by_contra hne
    exact hst (.inl hne)
  rcases insertTry_cases hp.toStored a.hash a.value with
    ⟨he, -⟩ | ⟨-, ⟨m, he, -⟩ | ⟨i, t₁, g, ha, ⟨he, hpl⟩ | ⟨b, tag, hbump, ⟨p, d, he, hch⟩ | he⟩⟩⟩
  · rw [he]
    exact .stay hp hb (finish_light a (by decide) s _)
  · rw [he]
    have hl := finish_light a (e := .oom) (by decide) (s.setTbl { s.tbl with mem := m })
      (.insLock a v)
    exact ⟨.setTbl rfl rfl rfl, hp, hb, hl.ok,
      fun j hj hne => ⟨hj, rfl, fun h => hne (hl.carried j h)⟩, .refl _,
      fun h hh => .inl (hl.entered h hh), fun _ => .inl rfl, fun _ _ _ hq _ _ => hq⟩
  · rw [he]
    have hf : Filed t₁.toCore i := ha.filed rfl
    rw [← ha.wordOf_self, ← ha.hashOf_self] at hpl
    have hj := (ha.stored hp.toStored).placeDirect (w := t₁.wordOf i) hf.toReady hpl
    have hgen : g.numBuckets = s.tbl.gen.numBuckets ∧ g.seed = s.tbl.gen.seed := by
      rw [← ha.gen]
      exact ⟨hj.frame.numBuckets, hj.frame.seed⟩
    refine ⟨.setTbl hgen.1 hgen.2 (by rw [Table.entry, ha.rest]), (ha.placed hp).placeDirect hf hpl,
      ?_, trivial,
      fun j hj' _ => ?_, (ha.entered hj).delta, fun h hh => ?_, ha.keyOf, fun _ q u hq _ _ => ?_⟩
    · change 0 < g.numBuckets
      rw [hgen.1]
      exact hb
    · obtain ⟨hne, hr⟩ := ha.ready_other hj'
      exact ⟨hj.ready_other hr hne, ha.recs_of_ne hne, fun h => by cases h⟩
    · cases hh
      obtain ⟨k, -, hl, hk, -⟩ := (ha.entered hj).live
      exact .inr (.inl fun habs => habs k (hl ▸ Set.mem_insert _ _) hk)
    · refine placeDirect_keep (c := t₁.toCore) hpl ?_
      rw [ha.core]
      exact hq
  · rw [he]
    refine alloc_effect hp hb ha hbump rfl rfl rfl fun hc => ⟨⟨hv.le, fun he => ?_⟩, hc, d, ?_⟩
    · exact (hv.moved
        (.setTbl (by rw [hbump.numBuckets, ha.gen]) (by rw [hbump.seed, ha.gen])
          (by rw [ha.rest]))).eq he
    · rw [hv.eq hg]
      have hgp : ∀ ph, g.primary ph = s.tbl.gen.primary ph := fun ph => by
        rw [hbump.primary, ha.gen]
      have hgs : ∀ ph, g.secondary ph = s.tbl.gen.secondary ph := fun ph => by
        rw [Gen.secondary, hgp, hbump.numBuckets, ha.gen, Gen.secondary]
      rw [hgp, hgs] at hch
      exact hch
  · rw [he]
    have hnum : g.numBuckets = s.tbl.gen.numBuckets := by rw [hbump.numBuckets, ha.gen]
    have hseed : g.seed = s.tbl.gen.seed := by rw [hbump.seed, ha.gen]
    have hm : Moved s (s.setTbl { t₁ with gen := g }) := .setTbl hnum hseed (by rw [ha.rest])
    have halloc : Effect s (.insLock a v) (s.setTbl { t₁ with gen := g }) (.insStash a v i) :=
      alloc_effect hp hb ha hbump rfl rfl rfl fun hc => ⟨hv.moved hm, hc⟩
    exact halloc.trans
      (stashSection_effect halloc.placed halloc.buckets halloc.ok.2 hg) rfl hnum hseed
      (ha.same.trans ⟨live_of_slots hbump.slots, fun _ _ => rfl⟩) rfl rfl rfl id fun _ => id

/-- The displacement section of `htc_insert`. -/
lemma pathSection_effect {sids : List ℕ} {p : Path} (hp : Placed s.tbl.toCore)
    (hb : 0 < s.tbl.gen.numBuckets) (ho : (Local.insPath a v sids idx p).Ok s) :
    Effect s (.insPath a v sids idx p) (s.pathSection a v idx p).1 (s.pathSection a v idx p).2 := by
  obtain ⟨hv, hc, d, hch⟩ := ho
  rw [Shared.pathSection]
  split
  · next src hval =>
    by_cases hg : v.gen = s.genNo
    · rw [Shared.genAt, if_pos hg] at hval ⊢
      rw [Shared.setGen, if_pos hg]
      have hview := hv.eq hg
      have hch' :
          Chain (s.tbl.gen.primary (s.tbl.hashOf idx))
            (s.tbl.gen.secondary (s.tbl.hashOf idx)) d p := by
        rw [Core.hashOf, hc.key]
        rw [hview] at hch
        exact hch
      refine Joined.effect
        (t := { s.tbl with gen := commitPathLocked s.tbl.gen s.tbl.recs p src idx })
        (hp.toStored.commit hc.toReady hch' hval)
          (hp.commit (hc.filed hg) hch' hval) hb hc.toReady rfl
        (by rw [hc.key]; rfl) (fun _ => ⟨trivial, rfl⟩) (by rw [hc.key]; rfl)
          fun _ q u hq _ hx => ?_
      cases q with
      | slot x =>
        refine (commitPathLocked_slots_of_notMem hch' src idx fun hmem => ?_).trans hq
        rcases List.mem_cons.mp hmem with rfl | hmem
        · rw [show s.tbl.wordAt (.slot x) = none from (validatePathLocked_some hch' hval).1] at hq
          cases hq
        · exact hx x rfl ⟨hg, by rw [hval]; rfl, hmem⟩
      | shard y j => exact hq
      | global j => exact hq
    · -- the path is committed to a generation that was replaced
      rw [Shared.setGen, if_neg hg]
      exact ⟨⟨.inl ⟨rfl, rfl, rfl⟩, rfl⟩, hp, hb, trivial,
        fun j hj _ => ⟨hj, rfl, fun h => by cases h⟩, .refl _,
        fun _ _ => .inr (.inr hg), fun _ => .inl rfl, fun _ _ _ hq _ _ => hq⟩
  · exact .stay hp hb ⟨⟨hv, hc⟩, fun j hj => hj, fun h hh => by cases hh⟩

/-- The stash section of `htc_insert` with its check of the generation. -/
lemma insStash_effect (hp : Placed s.tbl.toCore) (hb : 0 < s.tbl.gen.numBuckets)
    (hc : Carries s a v idx) {r : Shared × Local} (hr : (if s.Stale v.gen
      then (s.setTbl { s.tbl with toCore := s.tbl.arenaFree idx }, Local.insLoad a)
      else s.stashSection a idx) = r) : Effect s (.insStash a v idx) r.1 r.2 := by
  subst hr
  split
  · have hsame := same_arenaFree hc.toReady
    refine ⟨.setTbl rfl rfl rfl, hp.store (spared_free hp.toStored hc.toReady _), hb, trivial,
      fun j hj hne => ?_, hsame.delta, nofun, keyOf_arenaFree idx, fun _ _ _ hq _ _ => hq⟩
    obtain ⟨hr, he⟩ := hj.arenaFree fun he => hne (by rw [he]; rfl)
    exact ⟨hr, he, fun h => by cases h⟩
  · next hst =>
    refine stashSection_effect hp hb hc ?_
    by_contra hne
    exact hst (.inl hne)

/-! ## The other calls -/

/-- Ready records stay ready while the record store and the live records are the same. -/
lemma Grown.ready {reseed : Bool} {e : HtcError} (hg : Grown reseed t e t')
    (hs : Same t.toCore t'.toCore) {j : ℕ} (hr : Ready t.toCore j) : Ready t'.toCore j := by
  obtain ⟨hrec, hcount, hfree, -⟩ := hg.store
  exact ⟨hcount ▸ hr.lt, hfree ▸ hr.notFree, hs.live ▸ hr.notLive, hrec ▸ hr.flags⟩

/-- A grow that fails keeps the geometry. -/
lemma Grown.geometry {reseed : Bool} {e : HtcError} (hg : Grown reseed t e t') (he : e ≠ .ok) :
    t'.gen.numBuckets = t.gen.numBuckets ∧ t'.gen.seed = t.gen.seed := by
  rcases hg.core with ⟨hok, -⟩ | ⟨-, hc | hc⟩
  · exact absurd hok he
  · rw [hc]
    exact ⟨rfl, rfl⟩
  · rw [hc]
    exact ⟨rfl, rfl⟩

/-- A grow that fails keeps the words when the global stash is empty. -/
lemma Grown.words {reseed : Bool} {e : HtcError} {q : Place} {u : Word} (hg : Grown reseed t e t')
    (he : e ≠ .ok)
    (hsafe : GrowSafe reseed t.toCore) (hq : t.wordAt q = some u) : t'.wordAt q = some u := by
  rcases hg.core with ⟨hok, -⟩ | ⟨-, hc | hc⟩
  · exact absurd hok he
  · rw [hc]
    exact hq
  · rw [hc]
    cases q with
    | slot x => exact hq
    | shard y j => exact hq
    | global j =>
      rw [show t.wordAt (.global j) = none from hsafe.stash j] at hq
      cases hq

/-- A grow that succeeds doubles the number of buckets. -/
lemma Grown.doubled {reseed : Bool} {e : HtcError} (hg : Grown reseed t e t') (hs : Stored t.toCore)
    (he : e = .ok) :
    t'.gen.numBuckets = t.gen.numBuckets * 2 := by
  rcases hg.core with ⟨-, -, g, s, hr, hc⟩ | ⟨hoom, -⟩
  · rw [hc]
    exact ((hs.emptied _ _).rehash (hs.remaining _ _) hr).frame.numBuckets
  · rw [he] at hoom
    cases hoom

/-- The part of `htc_grow` under all shard locks, when it loses nothing. -/
lemma growSection_effect {reseed : Bool} {k : After} (hp : Placed s.tbl.toCore)
    (hb : 0 < s.tbl.gen.numBuckets) (hsafe : GrowSafe reseed s.tbl.toCore) :
    Effect s (.growRehash reseed k) (s.growSection reseed k).1 (s.growSection reseed k).2 := by
  have hg := htcGrow_grown reseed s.tbl
  obtain ⟨hp', hsame⟩ := hg.placed hp hb hsafe
  have hb' := hg.buckets hp.toStored hb
  rw [Shared.growSection]
  dsimp only
  split
  · next t he =>
    rw [he] at hg hp' hsame hb'
    have hl := resume_light k reseed .ok { s with
      frozen := false, tbl := t, genNo := s.genNo + 1,
        past := Function.update s.past s.genNo s.tbl.gen }
    exact ⟨⟨.inr ⟨rfl, hg.doubled hp.toStored rfl⟩, hg.store.2.2.2⟩, hp', hb', hl.ok,
      fun j hj hne => ⟨hg.ready hsame hj, by rw [← hg.store.1], fun h => hne (hl.carried j h)⟩,
      hsame.delta, fun h hh => .inl (hl.entered h hh),
      fun j => .inl (by rw [Core.keyOf, Core.keyOf, ← hg.store.1]),
      fun he => absurd he (Nat.succ_ne_self _)⟩
  · next e t hne he =>
    rw [he] at hg hp' hsame hb'
    have hl := resume_light k reseed e { s with frozen := false, tbl := t }
    have hgeo := hg.geometry hne
    exact ⟨⟨.inl ⟨rfl, hgeo.1, hgeo.2⟩, hg.store.2.2.2⟩, hp', hb', hl.ok,
      fun j hj hj' => ⟨hg.ready hsame hj, by rw [← hg.store.1]; rfl, fun h => hj' (hl.carried j h)⟩,
      hsame.delta, fun h hh => .inl (hl.entered h hh),
      fun j => .inl (by rw [Core.keyOf, Core.keyOf, ← hg.store.1]; rfl),
      fun _ q u hq _ _ => hg.words hne hsafe hq⟩

/-- Writing a value keeps ready records. -/
lemma Ready.setValue {j u : ℕ} (hr : Ready c j) (hne : j ≠ i) :
    Ready (c.setValue i u) j ∧ (c.setValue i u).recs j = c.recs j := by
  have he : (c.setValue i u).recs j = c.recs j := Function.update_of_ne hne ..
  exact ⟨⟨hr.lt, hr.notFree, hr.notLive, by rw [he]; exact hr.flags⟩, he⟩

/-- The section of `htc_upsert`. -/
lemma upsertSection_effect {u k : ℕ} (hp : Placed s.tbl.toCore) (hb : 0 < s.tbl.gen.numBuckets) :
    Effect s (.upsLock h u k v) (s.upsertSection h u k v).1 (s.upsertSection h u k v).2 := by
  rw [Shared.upsertSection]
  split
  · exact .stay hp hb (.of trivial rfl rfl)
  split
  · next p hf =>
    obtain ⟨hl, hk⟩ := search_hit hf
    refine ⟨.setTbl rfl rfl rfl, hp.store (spared_setValue hp.toStored _ u), hb, trivial,
      fun j hj _ => ?_, ⟨fun j _ _ => keyOf_setValue _ _ _, .inl rfl⟩, fun h' hh => ?_,
      fun j => .inl (keyOf_setValue _ _ _), fun _ _ _ hq _ _ => hq⟩
    · obtain ⟨hr, he⟩ := hj.setValue (u := u) fun he => hj.notLive (he ▸ hl)
      exact ⟨hr, he, fun h => by cases h⟩
    · cases hh
      exact .inr (.inl fun habs => habs _ hl (by rw [← hk]; exact keyOf_setValue _ _ _))
  · exact .stay hp hb (.of trivial rfl rfl)

/-- The section of `htc_remove`. -/
lemma removeSection_effect {r : Shared × Local} (hp : Placed s.tbl.toCore)
    (hb : 0 < s.tbl.gen.numBuckets)
    (hr : s.removeSection h v = some r) : Effect s (.remLock h v) r.1 r.2 := by
  rw [Shared.removeSection] at hr
  split at hr
  · cases hr
    exact .stay hp hb (.of trivial rfl rfl)
  obtain ⟨⟨e, t'⟩, he, hr⟩ := Option.map_eq_some_iff.mp hr
  subst hr
  rcases htcRemove_placed hp h with ⟨t₁, he₁, hd⟩ | ⟨he₁, -⟩
  · rw [he₁] at he
    cases he
    refine ⟨.setTbl hd.buckets hd.seed hd.shardCount, hd.placed, ?_, trivial, fun j hj _ => ?_,
      hd.removed.delta, nofun, fun j => ?_, fun _ q u hq hu _ => hd.words q u hq hu⟩
    · change 0 < t'.gen.numBuckets
      rw [hd.buckets]
      exact hb
    · obtain ⟨h1, h2⟩ := hd.ready j hj
      exact ⟨h1, h2, fun h => by cases h⟩
    · rcases hd.records j with hk | hk
      · exact .inl (congrArg HtcRecord.identityHash hk)
      · exact .inr (.inr hk)
  · rw [he₁] at he
    cases he
    exact .stay hp hb (.of trivial rfl rfl)

/-- A scan ends where the search goes on, or with a hit. -/
lemma scanned_light {w : ℕ → Option Word} {o : Option ℕ} (hl : Light s l l') :
    Light s l (scanned h w l' o) := by
  cases o with
  | none => exact hl
  | some i => exact .of trivial rfl rfl

/-- A grow starts where it loses nothing. -/
def Local.GrowsSafely (s : Shared) : Local → Prop
  | .growRehash reseed _ => GrowSafe reseed s.tbl.toCore
  | _ => True

/-- What every step does. -/
lemma exec_effect {r : Shared × Local} (hp : Placed s.tbl.toCore) (hb : 0 < s.tbl.gen.numBuckets)
    (hl : l.Ok s) (hg : l.GrowsSafely s) (hr : s.exec l = some r) : Effect s l r.1 r.2 := by
  -- the lookups and the first loads change nothing; each section of a writer has a lemma of its own
  cases l with
  | idle => cases hr
  | returned c e => cases hr
  | insLoad a =>
    rw [Shared.exec] at hr
    split at hr
    · cases hr
      exact .stay hp hb (finish_light a (by decide) s _)
    · cases hr
      exact .stay hp hb (.of (View.Of.new s a.hash) rfl rfl)
  | insLock a v =>
    cases hr
    exact insertSection_effect hp hb hl
  | insPath a v sids idx p =>
    cases hr
    exact pathSection_effect hp hb hl
  | insStash a v idx => exact insStash_effect hp hb hl.2 (Option.some_inj.mp hr)
  | insDone a v =>
    cases hr
    exact ⟨.setTbl rfl rfl rfl, hp, hb, trivial, fun j hj _ => ⟨hj, rfl, fun h => by cases h⟩,
      .refl _, fun _ hh => .inl hh, fun _ => .inl rfl, fun _ _ _ hq _ _ => hq⟩
  | insCheck a =>
    cases hr
    dsimp only
    split
    · exact .stay hp hb ⟨trivial, nofun, fun h hh => hh⟩
    · exact .stay hp hb (finish_light_ok a s rfl)
  | growLock reseed k =>
    rw [Shared.exec] at hr
    split at hr
    · cases hr
    · cases hr
      refine ⟨⟨.inl ⟨rfl, rfl, rfl⟩, rfl⟩, hp, hb, trivial,
        fun j hj _ => ⟨hj, rfl, fun h => by cases h⟩, .refl _,
        fun h hh => .inl ?_, fun _ => .inl rfl, fun _ _ _ hq _ _ => hq⟩
      cases k with
      | entered a => exact hh
      | caller => cases hh
      | retry a => cases hh
  | growRehash reseed k =>
    cases hr
    exact growSection_effect hp hb hg
  | upsLoad h u k =>
    cases k with
    | zero =>
      cases hr
      exact .stay hp hb (.of trivial rfl rfl)
    | succ k =>
      cases hr
      exact .stay hp hb (.of (View.Of.new s h) rfl rfl)
  | upsLock h u k v =>
    cases hr
    exact upsertSection_effect hp hb
  | remLoad h =>
    cases hr
    exact .stay hp hb (.of (View.Of.new s h) rfl rfl)
  | remLock h v => exact removeSection_effect hp hb hr
  | findLoad h =>
    cases hr
    exact .stay hp hb (.of (View.Of.new s h) rfl rfl)
  | findPrimary h v =>
    cases hr
    exact .stay hp hb (scanned_light (.of hl rfl rfl))
  | findRemap h v =>
    cases hr
    dsimp only
    split <;> exact .stay hp hb (.of hl rfl rfl)
  | findSecondary h v =>
    cases hr
    exact .stay hp hb (scanned_light (.of hl rfl rfl))
  | findShard h v =>
    cases hr
    exact .stay hp hb (scanned_light (.of hl rfl rfl))
  | findGlobal h v =>
    cases hr
    exact .stay hp hb (scanned_light (.of trivial rfl rfl))
  | findHit h idx =>
    cases hr
    dsimp only
    split <;> exact .stay hp hb (.of trivial rfl rfl)

/-! ## The machine -/

/-- The invariant of runs in which no grow loses anything. -/
structure Machine.Sane (m : Machine) : Prop where
  placed : Placed m.tbl.toCore
  buckets : 0 < m.tbl.gen.numBuckets
  ok : ∀ i, (m.loc i).Ok m.toShared
  apart : ∀ i j idx, (m.loc i).carried = some idx → (m.loc j).carried = some idx → i = j

/-- No grow of the schedule loses anything. -/
def Machine.GrowsSafely (m : Machine) : Act → Prop
  | .call _ _ => True
  | .go i => (m.loc i).GrowsSafely m.toShared

/-- The thread `i` goes on. -/
lemma step_go {m m' : Machine} (h : m.step (.go i) = some m') :
    ∃ r, m.exec (m.loc i) = some r ∧
      m' = { toShared := r.1, loc := Function.update m.loc i r.2 } := by
  obtain ⟨r, hr, he⟩ := Option.map_eq_some_iff.mp h
  exact ⟨r, hr, he.symm⟩

/-- The thread `i` makes a call. -/
lemma step_call {m m' : Machine} {c : Call} (h : m.step (.call i c) = some m') :
    (m.loc i).free = true ∧ m' = { m with loc := Function.update m.loc i c.start } := by
  rw [Machine.step] at h
  split at h
  · next hf =>
    cases h
    exact ⟨hf, rfl⟩
  · cases h

/-- A call begins with nothing in hand. -/
lemma start_ok (c : Call) (s : Shared) : c.start.Ok s ∧ c.start.carried = none := by
  cases c <;> exact ⟨trivial, rfl⟩

/-- The record that a thread carries is ready. -/
lemma Local.Ok.ready (hl : l.Ok s) (hc : l.carried = some idx) : Ready s.tbl.toCore idx := by
  cases l with
  | insPath a v sids j p =>
    cases hc
    exact hl.2.1.toReady
  | insStash a v j =>
    cases hc
    exact hl.2.toReady
  | _ => cases hc

/-- Where the thread `i` is after a step, and where the others are. -/
lemma update_loc {loc : ℕ → Local} {P : Local → Prop} (hi : P l') (ho : ∀ j, j ≠ i → P (loc j))
    (j : ℕ) :
    P (Function.update loc i l' j) := by
  by_cases hj : j = i
  · subst hj
    rw [Function.update_self]
    exact hi
  · rw [Function.update_of_ne hj]
    exact ho j hj

/-- Every step keeps the invariant. -/
lemma Machine.Sane.step {m m' : Machine} {act : Act} (hm : m.Sane) (hg : m.GrowsSafely act)
    (h : m.step act = some m') : m'.Sane := by
  cases act with
  | call i c =>
    obtain ⟨-, rfl⟩ := step_call h
    obtain ⟨ho, hr⟩ := start_ok c m.toShared
    refine ⟨hm.placed, hm.buckets, update_loc (P := fun l => l.Ok m.toShared) ho fun j _ =>
      hm.ok j, ?_⟩
    have hc : ∀ j idx, (Function.update m.loc i c.start j).carried = some idx →
        (m.loc j).carried = some idx := by
      intro j idx hj
      by_cases hji : j = i
      · rw [hji, Function.update_self, hr] at hj
        cases hj
      · rwa [Function.update_of_ne hji] at hj
    exact fun j k idx hj hk => hm.apart j k idx (hc j idx hj) (hc k idx hk)
  | go i =>
    obtain ⟨⟨s', l'⟩, hr, rfl⟩ := step_go h
    have he := exec_effect hm.placed hm.buckets (hm.ok i) hg hr
    have hother : ∀ j, j ≠ i → ∀ idx, (m.loc j).carried = some idx → Ready s'.tbl.toCore idx ∧
        s'.tbl.recs idx = m.tbl.recs idx ∧ l'.carried ≠ some idx := by
      intro j hji idx hc
      exact he.others idx ((hm.ok j).ready hc) fun hi => hji (hm.apart j i idx hc hi)
    refine ⟨he.placed, he.buckets, update_loc he.ok fun j hji => ?_, ?_⟩
    · refine (hm.ok j).moved he.moved fun idx hc => ?_
      obtain ⟨h1, h2, -⟩ := hother j hji idx hc
      exact ⟨h1, h2⟩
    · intro j k idx hj hk
      dsimp only at hj hk
      by_cases hji : j = i
      · by_cases hki : k = i
        · rw [hji, hki]
        · rw [hji, Function.update_self] at hj
          rw [Function.update_of_ne hki] at hk
          exact absurd hj (hother k hki idx hk).2.2
      · rw [Function.update_of_ne hji] at hj
        by_cases hki : k = i
        · rw [hki, Function.update_self] at hk
          exact absurd hk (hother j hji idx hj).2.2
        · rw [Function.update_of_ne hki] at hk
          exact hm.apart j k idx hj hk

/-! ## Which key a thread writes -/

/-- The call of `htc_insert` to which `htc_grow` returns. -/
def After.ins : After → Option Ins
  | .caller => none
  | .entered a => some a
  | .retry a => some a

/-- The key that the call of a thread writes. -/
def Local.writes : Local → Option ℕ
  | .insLoad a => some a.hash
  | .insLock a _ => some a.hash
  | .insPath a _ _ _ _ => some a.hash
  | .insStash a _ _ => some a.hash
  | .insDone a _ => some a.hash
  | .insCheck a => some a.hash
  | .growLock _ k => k.ins.map Ins.hash
  | .growRehash _ k => k.ins.map Ins.hash
  | .upsLoad h _ _ => some h
  | .upsLock h _ _ _ => some h
  | .remLoad h => some h
  | .remLock h _ => some h
  | _ => none

/-- The key that a call writes. -/
def Call.writes : Call → Option ℕ
  | .insert h _ => some h
  | .upsert h _ => some h
  | .remove h => some h
  | _ => none

/-- The key that a new call writes. -/
def Act.writes : Act → Option ℕ
  | .call _ c => c.writes
  | .go _ => none

/-- `l'` writes the key `k`, or none, and is not the end of a removal. -/
def Follows (k : Option ℕ) (l' : Local) : Prop :=
  (l'.writes = k ∨ l'.writes = none) ∧ ∀ h e, l' ≠ .returned (.remove h) e

/-- The end of an insertion writes its key. -/
lemma finish_follows (a : Ins) (e : HtcError) : Follows (some a.hash) (a.finish e) := by
  rw [Ins.finish]
  split
  · exact ⟨.inr rfl, nofun⟩
  · split
    · exact ⟨.inl rfl, nofun⟩
    · exact ⟨.inr rfl, nofun⟩

/-- What follows a grow writes the key of the insertion. -/
lemma resume_follows (k : After) (reseed : Bool) (e : HtcError) :
    Follows (k.ins.map Ins.hash) (k.resume reseed e) := by
  cases k with
  | caller => exact ⟨.inr rfl, nofun⟩
  | entered a => exact finish_follows a .ok
  | retry a =>
    rw [After.resume]
    split
    · exact ⟨.inl rfl, nofun⟩
    · exact finish_follows a e

/-- What follows the stash section writes the key of the insertion. -/
lemma stashSection_follows (s : Shared) (a : Ins) (idx : ℕ) :
    Follows (some a.hash) (s.stashSection a idx).2 := by
  rw [Shared.stashSection]
  split
  · exact finish_follows a .duplicate
  · exact ⟨.inl rfl, nofun⟩
  · exact ⟨.inl rfl, nofun⟩

/-- What follows the insertion section writes its key. -/
lemma insertSection_follows (s : Shared) (a : Ins) (v : View) :
    Follows (some a.hash) (s.insertSection a v).2 := by
  rw [Shared.insertSection]
  split
  · exact ⟨.inl rfl, nofun⟩
  split
  · exact finish_follows a .duplicate
  · exact finish_follows a .oom
  · exact ⟨.inl rfl, nofun⟩
  · exact ⟨.inl rfl, nofun⟩
  · exact stashSection_follows _ a _

/-- What follows a scan writes the same key. -/
lemma scanned_follows {k : Option ℕ} {w : ℕ → Option Word} {o : Option ℕ} (hl : Follows k l') :
    Follows k (scanned h w l' o) := by
  cases o with
  | none => exact hl
  | some i => exact ⟨.inr rfl, nofun⟩

/-- A step stays with the key of its call, and only a removal ends as one. -/
lemma exec_follows {r : Shared × Local} (hr : s.exec l = some r) :
    Follows l.writes r.2 ∨ ∃ k v e, l = .remLock k v ∧ r.2 = .returned (.remove k) e := by
  -- each section stays with the key of its call; `remLock` alone ends as a removal
  cases l with
  | idle => cases hr
  | returned c e => cases hr
  | insLoad a =>
    rw [Shared.exec] at hr
    split at hr
    · cases hr
      exact .inl (finish_follows a .pathological)
    · cases hr
      exact .inl ⟨.inl rfl, nofun⟩
  | insLock a v =>
    cases hr
    exact .inl (insertSection_follows s a v)
  | insPath a v sids idx p =>
    cases hr
    rw [Shared.pathSection]
    split
    · exact .inl ⟨.inl rfl, nofun⟩
    · exact .inl ⟨.inl rfl, nofun⟩
  | insStash a v idx =>
    cases hr
    dsimp only
    split
    · exact .inl ⟨.inl rfl, nofun⟩
    · exact .inl (stashSection_follows s a idx)
  | insDone a v =>
    cases hr
    exact .inl ⟨.inl rfl, nofun⟩
  | insCheck a =>
    cases hr
    dsimp only
    split
    · exact .inl ⟨.inl rfl, nofun⟩
    · exact .inl (finish_follows a .ok)
  | growLock reseed k =>
    rw [Shared.exec] at hr
    split at hr
    · cases hr
    · cases hr
      exact .inl ⟨.inl rfl, nofun⟩
  | growRehash reseed k =>
    cases hr
    rw [Shared.growSection]
    dsimp only
    split
    · exact .inl (resume_follows k reseed .ok)
    · exact .inl (resume_follows k reseed _)
  | upsLoad h u k =>
    cases k with
    | zero =>
      cases hr
      exact .inl ⟨.inr rfl, nofun⟩
    | succ k =>
      cases hr
      exact .inl ⟨.inl rfl, nofun⟩
  | upsLock h u k v =>
    cases hr
    rw [Shared.upsertSection]
    split
    · exact .inl ⟨.inl rfl, nofun⟩
    split
    · exact .inl ⟨.inr rfl, nofun⟩
    · exact .inl ⟨.inl rfl, nofun⟩
  | remLoad h =>
    cases hr
    exact .inl ⟨.inl rfl, nofun⟩
  | remLock h v =>
    right
    rw [Shared.exec, Shared.removeSection] at hr
    split at hr
    · cases hr
      exact ⟨h, v, .notFound, rfl, rfl⟩
    · obtain ⟨⟨e, t⟩, -, hr⟩ := Option.map_eq_some_iff.mp hr
      subst hr
      exact ⟨h, v, e, rfl, rfl⟩
  | findLoad h =>
    cases hr
    exact .inl ⟨.inr rfl, nofun⟩
  | findPrimary h v =>
    cases hr
    exact .inl (scanned_follows ⟨.inr rfl, nofun⟩)
  | findRemap h v =>
    cases hr
    dsimp only
    split <;> exact .inl ⟨.inr rfl, nofun⟩
  | findSecondary h v =>
    cases hr
    exact .inl (scanned_follows ⟨.inr rfl, nofun⟩)
  | findShard h v =>
    cases hr
    exact .inl (scanned_follows ⟨.inr rfl, nofun⟩)
  | findGlobal h v =>
    cases hr
    exact .inl (scanned_follows ⟨.inr rfl, nofun⟩)
  | findHit h idx =>
    cases hr
    dsimp only
    split <;> exact .inl ⟨.inr rfl, nofun⟩

/-- What a step brings in or takes out has the key that the thread writes. -/
lemma writes_of_enters (he : l.enters = some h) : l.writes = some h := by
  cases l <;> first | exact he | cases he

/-- A section that removes a key writes it. -/
lemma writes_of_removes (he : l.removes = some h) : l.writes = some h := by
  cases l <;> first | exact he | cases he

end Draugr.Htc
