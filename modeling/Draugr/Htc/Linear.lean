import Draugr.Htc.Reader
import Draugr.Lib.Atomic

/-!
# The table is a linearizable set of keys

`KeySpec` says what the calls do with a set of keys when one follows the other. The calls and
returns of every schedule that meets `Machine.Orderly` are those of an atomic object with that
specification: insertions and removals take effect at the step that brings their record in or takes
it out, and a search returns what was right at some moment between its call and its return.

`Local.status` says how far the call of a thread has come for the atomic object, and `Advance` what
a step does to it.
-/

namespace Draugr.Htc
open Draugr.Lib Draugr.Lib.Atomic

/-- What a call does with the set of keys, and its reply. -/
inductive KeySpec : Set ℕ → Call → HtcError → Set ℕ → Prop where
  | inserted {K h u} : h ∉ K → KeySpec K (.insert h u) .ok (insert h K)
  | duplicate {K h u} : h ∈ K → KeySpec K (.insert h u) .duplicate K
  | insertFails {K h u e} : e = .oom ∨ e = .pathological → KeySpec K (.insert h u) e K
  | upserted {K h u} : KeySpec K (.upsert h u) .ok (insert h K)
  | upsertFails {K h u e} : e = .oom ∨ e = .pathological → KeySpec K (.upsert h u) e K
  | removed {K h} : h ∈ K → KeySpec K (.remove h) .ok (K \ {h})
  | missing {K h} : h ∉ K → KeySpec K (.remove h) .notFound K
  | found {K h} : h ∈ K → KeySpec K (.find h) .ok K
  | notFound {K h} : h ∉ K → KeySpec K (.find h) .notFound K
  | grown {K reseed} : KeySpec K (.grow reseed) .ok K
  | growFails {K reseed} : KeySpec K (.grow reseed) .oom K

/-- The calls and returns of an act that leads to `m'`. -/
def Machine.events (m' : Machine) : Act → List (Event Call HtcError)
  | .call i c => [.call i c]
  | .go i =>
    match m'.loc i with
    | .returned c e => [.ret i c e]
    | _ => []

/-- The calls and returns of a schedule. -/
def Machine.trace (m : Machine) : List Act → List (Event Call HtcError)
  | [] => []
  | a :: as =>
    match m.step a with
    | none => []
    | some m' => m'.events a ++ m'.trace as

/-- The condition on a step of a thread that writes: that of `Local.safe`, and a removal finds its
generation unchanged. -/
def Local.orderly (s : Shared) : Local → Bool
  | .remLock _ v => !decide (s.Stale v.gen)
  | l => l.safe s

/-- The condition on an act: no search of another thread misses it. -/
def Machine.Orderly (m : Machine) : Act → Prop
  | .call _ _ => True
  | .go i => (m.loc i).orderly m.toShared = true ∧ ∀ j, (m.loc i).spares m.toShared (m.loc j) = true

/-- The call to which the attempts of `htc_insert` belong. -/
def Ins.call (a : Ins) : Call :=
  match a.upsert with
  | none => .insert a.hash a.value
  | some _ => .upsert a.hash a.value

/-- How far the call around `htc_grow` has come. -/
def After.status (reseed : Bool) : After → Status Call HtcError
  | .caller => .pending (.grow reseed)
  | .entered a => .done a.call .ok
  | .retry a => .pending a.call

/-- How far the call of a thread has come. -/
def Local.status : Local → Status Call HtcError
  | .idle => .idle
  | .returned _ _ => .idle
  | .insLoad a => .pending a.call
  | .insLock a _ => .pending a.call
  | .insPath a _ _ _ _ => .pending a.call
  | .insStash a _ _ => .pending a.call
  | .insDone a _ => .done a.call .ok
  | .insCheck a => .done a.call .ok
  | .growLock reseed k => k.status reseed
  | .growRehash reseed k => k.status reseed
  | .upsLoad h u _ => .pending (.upsert h u)
  | .upsLock h u _ _ => .pending (.upsert h u)
  | .remLoad h => .pending (.remove h)
  | .remLock h _ => .pending (.remove h)
  | .findLoad h => .pending (.find h)
  | .findPrimary h _ => .pending (.find h)
  | .findRemap h _ => .pending (.find h)
  | .findSecondary h _ => .pending (.find h)
  | .findShard h _ => .pending (.find h)
  | .findGlobal h _ => .pending (.find h)
  | .findHit h _ => .pending (.find h)

/-- The keys in the table. -/
def Core.keySet (c : Core) : Set ℕ := {h | ¬ c.Absent h}

/-- What a step of a thread does for the atomic object. -/
inductive Advance (K K' : Set ℕ) (l l' : Local) : Prop where
  | stay : K' = K → l'.status = l.status → (∀ c e, l' ≠ .returned c e) → Advance K K' l l'
  /-- The call takes effect. -/
  | commit (c : Call) (e : HtcError) : l.status = .pending c → KeySpec K c e K' →
    l'.status = .done c e →
      (∀ c e, l' ≠ .returned c e) → Advance K K' l l'
  | ret (c : Call) (e : HtcError) : K' = K → l.status = .done c e → l' = .returned c e →
    Advance K K' l l'
  /-- The call takes effect and returns. -/
  | finish (c : Call) (e : HtcError) : l.status = .pending c → KeySpec K c e K' →
    l' = .returned c e → Advance K K' l l'

variable {m m' : Machine} {s s' : Shared} {l l' : Local} {act : Act} {a : Ins} {v : View}
  {c c' : Core} {h i idx : ℕ}
  {K K' : Set ℕ} {r : Shared × Local}

/-! ## The keys of the table -/

/-- The keys are those of the live records. -/
lemma mem_keySet : h ∈ c.keySet ↔ ∃ j ∈ c.live, c.keyOf j = h := by
  simp only [Core.keySet, Core.Absent, Set.mem_ofPred_eq, not_forall, not_not, exists_prop]

/-- The keys while the live records are the same. -/
lemma Same.keySet (hs : Same c c') : c'.keySet = c.keySet := by
  ext k
  rw [mem_keySet, mem_keySet, hs.live]
  refine exists_congr fun j => and_congr_right fun hj => ?_
  rw [Core.keyOf, hs.recs j hj, Core.keyOf]

/-- The keys after a record was entered. -/
lemma Entered.keySet {u : ℕ} (he : Entered c c' h u) : c'.keySet = insert h c.keySet := by
  obtain ⟨i, -, hl, hk, -⟩ := he.live
  have hold :
      ∀ j ∈ c.live,
        c'.keyOf j = c.keyOf j := fun j hj => congrArg HtcRecord.identityHash (he.recs j hj)
  ext k
  rw [Set.mem_insert_iff, mem_keySet, mem_keySet, hl]
  constructor
  · rintro ⟨j, rfl | hj, hkj⟩
    · exact .inl (hkj.symm.trans hk)
    · exact .inr ⟨j, hj, (hold j hj).symm.trans hkj⟩
  · rintro (rfl | ⟨j, hj, hkj⟩)
    · exact ⟨i, Set.mem_insert .., hk⟩
    · exact ⟨j, Set.mem_insert_of_mem _ hj, (hold j hj).trans hkj⟩

/-- The keys after the record of a key was removed. -/
lemma Removed.keySet (hr : Removed c c' h) (hkeys : Set.InjOn c.keyOf c.live) :
    h ∈ c.keySet ∧ c'.keySet = c.keySet \ {h} := by
  obtain ⟨i, hi, hk, hl⟩ := hr.live
  have hold :
      ∀ j ∈ c'.live,
        c'.keyOf j = c.keyOf j := fun j hj => congrArg HtcRecord.identityHash (hr.recs j hj)
  refine ⟨mem_keySet.mpr ⟨i, hi, hk⟩, ?_⟩
  ext k
  rw [Set.mem_sdiff, Set.mem_singleton_iff, mem_keySet, mem_keySet]
  constructor
  · rintro ⟨j, hj, rfl⟩
    have hj' : j ∈ c.live \ {i} := hl ▸ hj
    refine ⟨⟨j, hj'.1, (hold j hj).symm⟩, fun he => hj'.2 (hkeys hj'.1 hi ?_)⟩
    rw [← hold j hj, he, hk]
  · rintro ⟨⟨j, hj, rfl⟩, hne⟩
    have hj' : j ∈ c'.live := by
      rw [hl]
      refine ⟨hj, fun he => hne ?_⟩
      rw [he]
      exact hk
    exact ⟨j, hj', hold j hj'⟩

/-- The keys after a record that carries its key was placed. -/
lemma Joined.keySet (hj : Joined c c' i) (hi : i ∉ c.live) (hk : c.keyOf i = h) :
    c'.keySet = insert h c.keySet := by
  have he : Entered c c' h (c.recs i).userValue :=
    ⟨⟨i, hi, hj.live, by rw [Core.keyOf, hj.frame.recs]; exact hk, by rw [hj.frame.recs]⟩,
      fun j _ => by rw [hj.frame.recs]⟩
  exact he.keySet

/-- A key that the search finds is in the set. -/
lemma mem_keySet_of_search {all : Bool} {p : Place} (hf : htcSearch c h all = some p) :
    h ∈ c.keySet :=
  mem_keySet.mpr ⟨_, search_hit hf⟩

/-! ## The steps of the calls that write -/

/-- `htc_insert` gives up. -/
lemma finish_advance {e : HtcError} (hs : l.status = .pending a.call)
    (hd : e = .duplicate → a.hash ∈ K)
    (he : e = .duplicate ∨ e = .oom ∨ e = .pathological) : Advance K K l (a.finish e) := by
  cases hu : a.upsert with
  | none =>
    simp only [Ins.call, hu] at hs
    simp only [Ins.finish, hu]
    refine .finish _ e hs ?_ rfl
    rcases he with rfl | he
    · exact .duplicate (hd rfl)
    · exact .insertFails he
  | some k =>
    simp only [Ins.call, hu] at hs
    simp only [Ins.finish, hu]
    split
    · exact .stay rfl hs.symm fun c e h => by cases h
    · next hdup => exact .finish _ e hs (.upsertFails (he.resolve_left hdup)) rfl

/-- `htc_insert` returns after it has taken effect. -/
lemma finish_advance_ok (hs : l.status = .done a.call .ok) : Advance K K l (a.finish .ok) := by
  refine .ret _ .ok rfl hs ?_
  cases hu : a.upsert <;> simp [Ins.finish, Ins.call, hu]

/-- The key of an insertion comes in. -/
lemma entered_advance (hs : l.status = .pending a.call) (hK : K' = insert a.hash K)
    (ha : a.hash ∉ K)
    (hs' : l'.status = .done a.call .ok) (hn : ∀ c e, l' ≠ .returned c e) : Advance K K' l l' := by
  refine .commit _ .ok hs ?_ hs' hn
  rw [hK, Ins.call]
  split
  · exact .inserted ha
  · exact .upserted

/-- A key that comes in under the condition was not in the set. -/
lemma notMem_keySet_of_enters (hp : Placed s.tbl.toCore) (hs : l.safe s = true)
    (hr : s.exec l = some r)
    (he : l.enters = some h) (hi : i ∉ s.tbl.live) (hl : r.1.tbl.live = insert i s.tbl.live) :
    h ∉ s.tbl.keySet := by
  refine not_not.mpr (exec_absent hp hs hr he fun hsame => hi ?_)
  rw [← hsame, hl]
  exact Set.mem_insert ..

/-- The stash section. -/
lemma stashSection_advance (hp : Placed s.tbl.toCore) (hr : Ready s.tbl.toCore idx)
    (hk : s.tbl.keyOf idx = a.hash) (hs : l.status = .pending a.call)
    (habs : ∀ j, j ∉ s.tbl.live → (s.stashSection a idx).1.tbl.live = insert j s.tbl.live →
      a.hash ∉ s.tbl.keySet) :
    Advance s.tbl.keySet (s.stashSection a idx).1.tbl.keySet l (s.stashSection a idx).2 := by
  rw [Shared.stashSection] at habs ⊢
  rcases insertStash_cases hp.toStored hr a.hash with ⟨he, p, hf⟩ | ⟨c', he, hj, -⟩ | he
  · rw [he]
    exact finish_advance hs (fun _ => mem_keySet_of_search hf) (.inl rfl)
  · rw [he] at habs ⊢
    exact entered_advance hs (hj.keySet hr.notLive hk) (habs idx hr.notLive hj.live) rfl
      fun c e h => by cases h
  · rw [he]
    exact .stay (same_arenaFree hr).keySet hs.symm fun c e h => by cases h

/-- The first section of `htc_insert`. -/
lemma insertSection_advance (hp : Placed s.tbl.toCore) (hs : (Local.insLock a v).safe s = true) :
    Advance s.tbl.keySet (s.insertSection a v).1.tbl.keySet (.insLock a v)
      (s.insertSection a v).2 := by
  have habs : ∀ j, j ∉ s.tbl.live → (s.insertSection a v).1.tbl.live = insert j s.tbl.live →
      a.hash ∉ s.tbl.keySet :=
    fun j hj hl => notMem_keySet_of_enters hp hs rfl rfl hj hl
  rw [Shared.insertSection] at habs ⊢
  split
  · exact .stay rfl rfl fun c e h => by cases h
  next hst =>
  rw [if_neg hst] at habs
  rcases insertTry_cases hp.toStored a.hash a.value with
    ⟨he, hf⟩ | ⟨-, ⟨m, he, -⟩ | ⟨i, t₁, g, ha, ⟨he, hpl⟩ | ⟨b, tag, hbump, ⟨p, d, he, hch⟩ | he⟩⟩⟩
  · rw [he]
    obtain ⟨p, hf⟩ := Option.isSome_iff_exists.mp hf
    exact finish_advance rfl (fun _ => mem_keySet_of_search hf) (.inl rfl)
  · rw [he]
    exact finish_advance rfl (fun h => by cases h) (.inr (.inl rfl))
  · rw [he] at habs ⊢
    have hf : Filed t₁.toCore i := ha.filed rfl
    rw [← ha.wordOf_self, ← ha.hashOf_self] at hpl
    have hj := (ha.stored hp.toStored).placeDirect (w := t₁.wordOf i) hf.toReady hpl
    have hent := ha.entered hj
    obtain ⟨k, hk, hl, -⟩ := hent.live
    exact entered_advance rfl hent.keySet (habs k hk hl) rfl fun c e h => by cases h
  · rw [he]
    have hsame : Same s.tbl.toCore { t₁.toCore with gen := g } :=
      ha.same.trans ⟨live_of_slots hbump.slots, fun _ _ => rfl⟩
    exact .stay hsame.keySet rfl fun c e h => by cases h
  · rw [he] at habs ⊢
    have hfiled : Filed { t₁.toCore with gen := g } i := (ha.filed rfl).bumped hbump
    have hsame : Same s.tbl.toCore { t₁.toCore with gen := g } :=
      ha.same.trans ⟨live_of_slots hbump.slots, fun _ _ => rfl⟩
    have hadv :=
      stashSection_advance (s := s.setTbl { t₁ with gen := g }) (a := a) (l := .insLock a v)
        ((ha.placed hp).bumped hbump) hfiled.toReady ha.keyOf_self rfl
    rw [show (s.setTbl { t₁ with gen := g }).tbl.keySet = s.tbl.keySet from hsame.keySet,
      show (s.setTbl { t₁ with gen := g }).tbl.live = s.tbl.live from hsame.live] at hadv
    exact hadv habs

/-- The displacement section of `htc_insert`. -/
lemma pathSection_advance {sids : List ℕ} {p : Path} (hp : Placed s.tbl.toCore)
    (ho : (Local.insPath a v sids idx p).Ok s) (hs : (Local.insPath a v sids idx p).safe s = true) :
    Advance s.tbl.keySet (s.pathSection a v idx p).1.tbl.keySet (.insPath a v sids idx p)
      (s.pathSection a v idx p).2 := by
  obtain ⟨hv, hc, d, hch⟩ := ho
  have habs : ∀ j, j ∉ s.tbl.live → (s.pathSection a v idx p).1.tbl.live = insert j s.tbl.live →
      a.hash ∉ s.tbl.keySet :=
    fun j hj hl => notMem_keySet_of_enters (l := .insPath a v sids idx p) hp hs rfl rfl hj hl
  rw [Shared.pathSection] at habs ⊢
  split
  · next src hval =>
    simp only [hval] at habs
    have hg : v.gen = s.genNo := by
      simp only [Local.safe, hval, Option.isNone_some, Bool.false_or, Bool.and_eq_true,
        beq_iff_eq] at hs
      exact hs.1
    rw [Shared.genAt, if_pos hg] at hval habs ⊢
    rw [Shared.setGen, if_pos hg] at habs ⊢
    have hch' :
        Chain (s.tbl.gen.primary (s.tbl.hashOf idx))
          (s.tbl.gen.secondary (s.tbl.hashOf idx)) d p := by
      rw [Core.hashOf, hc.key]
      rw [hv.eq hg] at hch
      exact hch
    have hj := hp.toStored.commit hc.toReady hch' hval
    exact entered_advance rfl (hj.keySet hc.notLive hc.key) (habs idx hc.notLive hj.live) rfl
      fun c e h => by cases h
  · exact .stay rfl rfl fun c e h => by cases h

/-- The part of `htc_grow` under all shard locks. -/
lemma growSection_advance {reseed : Bool} {k : After} (hp : Placed s.tbl.toCore)
    (hb : 0 < s.tbl.gen.numBuckets) (hsafe : GrowSafe reseed s.tbl.toCore) :
    Advance s.tbl.keySet (s.growSection reseed k).1.tbl.keySet (.growRehash reseed k)
      (s.growSection reseed k).2 := by
  have hg := htcGrow_grown reseed s.tbl
  obtain ⟨-, hsame⟩ := hg.placed hp hb hsafe
  have hadv :
      ∀ e, e = .ok ∨ e = .oom → Advance s.tbl.keySet s.tbl.keySet (.growRehash reseed k)
        (k.resume reseed e) := by
    intro e he
    cases k with
    | caller =>
      rcases he with rfl | rfl
      · exact .finish _ .ok rfl .grown rfl
      · exact .finish _ .oom rfl .growFails rfl
    | entered a => exact finish_advance_ok rfl
    | retry a =>
      rcases he with rfl | rfl
      · exact .stay rfl rfl fun c e h => by cases h
      · exact finish_advance rfl (fun h => by cases h) (.inr (.inl rfl))
  rw [Shared.growSection]
  dsimp only
  split
  · next t he =>
    rw [he] at hsame
    rw [show Core.keySet t.toCore = s.tbl.keySet from hsame.keySet]
    exact hadv .ok (.inl rfl)
  · next e t hne he =>
    rw [he] at hsame hg
    rw [show (Shared.setTbl { s with frozen := false } t).tbl.keySet =
      s.tbl.keySet from hsame.keySet]
    refine hadv e ?_
    rcases hg.core with ⟨hok, -⟩ | ⟨hoom, -⟩
    · exact .inl hok
    · exact .inr hoom

/-- The section of `htc_upsert`. -/
lemma upsertSection_advance {u k : ℕ} :
    Advance s.tbl.keySet (s.upsertSection h u k v).1.tbl.keySet (.upsLock h u k v)
      (s.upsertSection h u k v).2 := by
  rw [Shared.upsertSection]
  split
  · exact .stay rfl rfl fun c e h => by cases h
  split
  · next p hf =>
    have hK : Core.keySet (s.tbl.setValue (s.tbl.idxAt p) u) = insert h s.tbl.keySet := by
      rw [Set.insert_eq_of_mem (mem_keySet_of_search hf)]
      ext k
      rw [mem_keySet, mem_keySet]
      exact exists_congr fun j => and_congr_right fun _ => by rw [keyOf_setValue]
    refine .finish _ .ok rfl ?_ rfl
    change KeySpec s.tbl.keySet (.upsert h u) .ok (Core.keySet (s.tbl.setValue (s.tbl.idxAt p) u))
    rw [hK]
    exact .upserted
  · exact .stay rfl rfl fun c e h => by cases h

/-- The section of `htc_remove`. -/
lemma removeSection_advance (hp : Placed s.tbl.toCore) (hkeys : Set.InjOn s.tbl.keyOf s.tbl.live)
    (hs : (Local.remLock h v).orderly s = true) (hr : s.removeSection h v = some r) :
    Advance s.tbl.keySet r.1.tbl.keySet (.remLock h v) r.2 := by
  have hst : ¬ s.Stale v.gen := by simpa [Local.orderly] using hs
  rw [Shared.removeSection, if_neg hst] at hr
  rcases htcRemove_placed hp h with ⟨t', he, hd⟩ | ⟨he, ha⟩
  · rw [he] at hr
    cases hr
    obtain ⟨hmem, hK⟩ := hd.removed.keySet hkeys
    refine .finish _ .ok rfl ?_ rfl
    rw [show (s.setTbl t').tbl.keySet = s.tbl.keySet \ {h} from hK]
    exact .removed hmem
  · rw [he] at hr
    cases hr
    exact .finish _ .notFound rfl (.missing (not_not.mpr ha)) rfl

/-- The thread is in the lock-free part of `htc_find`. -/
def Local.reads : Local → Option ℕ
  | .findHit h _ => some h
  | l => l.searches

/-- A condition on the step of a thread includes the one on its grow. -/
lemma growsEmpty_of_orderly (hs : l.orderly s = true) : l.growsEmpty s = true := by
  cases l with
  | growRehash reseed k => exact hs
  | _ => rfl

/-- Every step of a call that writes. -/
lemma exec_advance (hp : Placed s.tbl.toCore) (hb : 0 < s.tbl.gen.numBuckets)
    (hkeys : Set.InjOn s.tbl.keyOf s.tbl.live)
    (hl : l.Ok s) (hs : l.orderly s = true) (hg : l.GrowsSafely s) (hf : l.reads = none)
    (hr : s.exec l = some r) :
    Advance s.tbl.keySet r.1.tbl.keySet l r.2 := by
  -- only the locked sections change the keys, each in the step in which its call takes effect
  cases l with
  | idle => cases hr
  | returned c e => cases hr
  | insLoad a =>
    rw [Shared.exec] at hr
    split at hr
    · cases hr
      exact finish_advance rfl (fun h => by cases h) (.inr (.inr rfl))
    · cases hr
      exact .stay rfl rfl fun c e h => by cases h
  | insLock a v =>
    cases hr
    exact insertSection_advance hp hs
  | insPath a v sids i p =>
    cases hr
    exact pathSection_advance hp hl hs
  | insStash a v i =>
    have habs : ∀ j, j ∉ s.tbl.live → r.1.tbl.live = insert j s.tbl.live → a.hash ∉ s.tbl.keySet :=
      fun j hj hlive => notMem_keySet_of_enters (l := .insStash a v i) hp hs hr rfl hj hlive
    cases hr
    dsimp only at habs ⊢
    split
    · exact .stay (same_arenaFree hl.2.toReady).keySet rfl fun c e h => by cases h
    · next hst =>
      rw [if_neg hst] at habs
      exact stashSection_advance hp hl.2.toReady hl.2.key rfl habs
  | insDone a v =>
    cases hr
    exact .stay rfl rfl fun c e h => by cases h
  | insCheck a =>
    cases hr
    dsimp only
    split
    · exact .stay rfl rfl fun c e h => by cases h
    · exact finish_advance_ok rfl
  | growLock reseed k =>
    rw [Shared.exec] at hr
    split at hr
    · cases hr
    · cases hr
      exact .stay rfl rfl fun c e h => by cases h
  | growRehash reseed k =>
    cases hr
    exact growSection_advance hp hb hg
  | upsLoad h u n =>
    cases n with
    | zero =>
      cases hr
      exact .finish _ .pathological rfl (.upsertFails (.inr rfl)) rfl
    | succ n =>
      cases hr
      exact .stay rfl rfl fun c e h => by cases h
  | upsLock h u n v =>
    cases hr
    exact upsertSection_advance
  | remLoad h =>
    cases hr
    exact .stay rfl rfl fun c e h => by cases h
  | remLock h v => exact removeSection_advance hp hkeys hs hr
  | findLoad h =>
    cases hr
    exact .stay rfl rfl fun c e h => by cases h
  | findPrimary h v => cases hf
  | findRemap h v => cases hf
  | findSecondary h v => cases hf
  | findShard h v => cases hf
  | findGlobal h v => cases hf
  | findHit h i => cases hf

/-! ## Runs -/

/-- The answers that were right for the search of a thread. -/
structure Reads (s : Shared) (l : Local) (seen : Set HtcError) : Prop where
  found : ∀ h, l.status = .pending (.find h) → h ∈ s.tbl.keySet → .ok ∈ seen
  missed : ∀ h, l.status = .pending (.find h) → h ∉ s.tbl.keySet → .notFound ∈ seen
  /-- A key that was always present is still ahead of the search. -/
  ahead : ∀ h, l.searches = some h → .notFound ∈ seen ∨ Unpassed s l h
  current : ∀ v, l.searchView = some v → v.gen = s.genNo
  hit : ∀ h j, l = .findHit h j → .ok ∈ seen

/-- The invariant of schedules that meet the condition, with the calls and returns so far. -/
structure Machine.Served (m : Machine) (es : List (Event Call HtcError)) : Prop extends m.Sane where
  keys : Set.InjOn m.tbl.keyOf m.tbl.live
  shards : m.tbl.shardCount ∣ m.tbl.gen.numBuckets
  account : ∃ seen : ℕ → Set HtcError,
    Account KeySpec ∅ es m.tbl.keySet (fun i => (m.loc i).status) seen ∧ ∀ i,
    Reads m.toShared (m.loc i) (seen i)

/-- A thread that reads is in `htc_find`. -/
lemma status_of_reads (hl : l.reads = some h) : l.status = .pending (.find h) := by
  cases l <;> cases hl <;> rfl

/-- A section that searches for a key reads it. -/
lemma reads_of_searches (hl : l.searches = some h) : l.reads = some h := by
  cases l <;> cases hl <;> rfl

/-- A thread in `htc_find` reads, or is about to. -/
lemma findLoad_of_status (hl : l.status = .pending (.find h)) (hr : l.reads = none) :
    l = .findLoad h := by
  have hins : ∀ a : Ins, (Status.pending a.call : Status Call HtcError) ≠ .pending (.find h) := by
    intro a he
    rw [Ins.call] at he
    split at he <;> cases he
  have hafter : ∀ (reseed : Bool) (k : After), k.status reseed ≠ .pending (.find h) := by
    intro reseed k hk
    cases k with
    | caller => cases hk
    | entered a => cases hk
    | retry a => exact hins a hk
  cases l with
  | insLoad a => exact absurd hl (hins a)
  | insLock a v => exact absurd hl (hins a)
  | insPath a v sids i p => exact absurd hl (hins a)
  | insStash a v i => exact absurd hl (hins a)
  | growLock reseed k => exact absurd hl (hafter reseed k)
  | growRehash reseed k => exact absurd hl (hafter reseed k)
  | findLoad k =>
    cases hl
    rfl
  | _ => cases hl <;> cases hr

/-- A step that changes one status. -/
lemma status_update (loc : ℕ → Local) (i : ℕ) (l' : Local) :
    (fun j => (Function.update loc i l' j).status) =
      Function.update (fun j => (loc j).status) i l'.status :=
  funext fun j => Function.apply_update (fun _ => Local.status) loc i l' j

/-- A call is pending from its start. -/
lemma start_status (c : Call) : c.start.status = .pending c := by
  cases c <;> rfl

/-- No two live words have one key after a step that brings in a key only if it was absent. -/
lemma Delta.injOn {ent rem : Option ℕ} (hd : Delta c c' ent rem) (hk : Set.InjOn c.keyOf c.live)
    (habs : ∀ h, ent = some h → c'.live ≠ c.live → c.Absent h) : Set.InjOn c'.keyOf c'.live := by
  rcases hd.live with hl | ⟨j, hj, hl, hent⟩ | ⟨j, -, -, hl⟩
  · intro x hx y hy hxy
    have hx' := hl ▸ hx
    have hy' := hl ▸ hy
    exact hk hx' hy' ((hd.keys x hx' hx).symm.trans (hxy.trans (hd.keys y hy' hy)))
  · have hold :
        ∀ x ∈ c.live,
          c'.keyOf x = c.keyOf x := fun x hx => hd.keys x hx (hl ▸ Set.mem_insert_of_mem _ hx)
    have hne : c'.live ≠ c.live := fun he => hj (he ▸ hl ▸ Set.mem_insert ..)
    rw [hl, Set.injOn_insert hj]
    refine ⟨fun x hx y hy hxy => hk hx hy ((hold x hx).symm.trans (hxy.trans (hold y hy))), ?_⟩
    rintro ⟨x, hx, hxj⟩
    exact habs _ hent hne x hx ((hold x hx).symm.trans hxj)
  · intro x hx y hy hxy
    have hx' : x ∈ c.live \ {j} := hl ▸ hx
    have hy' : y ∈ c.live \ {j} := hl ▸ hy
    exact hk hx'.1 hy'.1 ((hd.keys x hx'.1 hx).symm.trans (hxy.trans (hd.keys y hy'.1 hy)))

/-- The answers that are right now. -/
def answersNow (K : Set ℕ) (st : Status Call HtcError) : Set HtcError :=
  {e | ∃ c, st = .pending c ∧ KeySpec K c e K}

/-- What the readers see when they look once more. -/
lemma Reads.look {seen : Set HtcError}
    (hahead : ∀ h, l.searches = some h → .notFound ∈ seen ∨ Unpassed s l h)
    (hcur : ∀ v, l.searchView = some v → v.gen = s.genNo)
    (hhit : ∀ h j, l = .findHit h j → .ok ∈ seen) :
    Reads s l (seen ∪ answersNow s.tbl.keySet l.status) where
  found h hs hm := .inr ⟨.find h, hs, .found hm⟩
  missed h hs hm := .inr ⟨.find h, hs, .notFound hm⟩
  ahead h hs := (hahead h hs).imp_left .inl
  current := hcur
  hit h j hl := .inl (hhit h j hl)

/-- A new call keeps the invariant. -/
lemma Machine.Served.call {es : List (Event Call HtcError)} {k : Call} (hm : m.Served es)
    (h' : m.step (.call i k) = some m') : m'.Served (es ++ m'.events (.call i k)) := by
  have hsane := (@Machine.Sane.step _ _ (.call i k)) hm.toSane trivial h'
  obtain ⟨hfree, rfl⟩ := step_call h'
  obtain ⟨seen, hacc, hreads⟩ := hm.account
  have hidle : (m.loc i).status = .idle := by
    cases hl : m.loc i <;> rw [hl] at hfree <;> first | rfl | cases hfree
  have hacc' : Account KeySpec ∅ (es ++ [.call i k]) m.tbl.keySet
      (fun j => (Function.update m.loc i k.start j).status) (Function.update seen i ∅) := by
    rw [status_update, start_status]
    exact hacc.call hidle k
  refine ⟨hsane, hm.keys, hm.shards, _, hacc'.observe, fun j => ?_⟩
  dsimp only
  by_cases hj : j = i
  · subst hj
    have hns : k.start.searches = none ∧ k.start.searchView = none := by
      cases k <;> exact ⟨rfl, rfl⟩
    have hnh : ∀ h n, k.start ≠ .findHit h n := by cases k <;> exact fun h n he => by cases he
    rw [Function.update_self, Function.update_self]
    refine Reads.look (fun h hs => ?_) (fun v hv => ?_) fun h n he => absurd he (hnh h n)
    · rw [hns.1] at hs
      cases hs
    · rw [hns.2] at hv
      cases hv
  · rw [Function.update_of_ne hj, Function.update_of_ne hj]
    exact Reads.look (hreads j).ahead (hreads j).current (hreads j).hit

/-- The machine after a step of thread `i`. -/
def Machine.went (m : Machine) (i : ℕ) (s' : Shared) (l' : Local) : Machine :=
  { toShared := s', loc := Function.update m.loc i l' }

/-- A step that does not return. -/
lemma events_of_not_returned (hl : ∀ c e, l' ≠ .returned c e) :
    (m.went i s' l').events (.go i) = [] := by
  rw [Machine.events, Machine.went]
  dsimp only
  rw [Function.update_self]
  split
  · next c e => exact absurd rfl (hl c e)
  · rfl

/-- A step that returns. -/
lemma events_of_returned (c : Call) (e : HtcError) :
    (m.went i s' (.returned c e)).events (.go i) = [.ret i c e] := by
  rw [Machine.events, Machine.went]
  dsimp only
  rw [Function.update_self]

/-- A step that changes one status. -/
lemma status_went (m : Machine) (i : ℕ) (s' : Shared) (l' : Local) :
    (fun j => ((m.went i s' l').loc j).status) =
      Function.update (fun j => (m.loc j).status) i l'.status :=
  status_update m.loc i l'

variable {es : List (Event Call HtcError)} {seen : ℕ → Set HtcError}

/-- The account after a step of a call that writes. -/
lemma Advance.account (ha : Advance K K' (m.loc i) l')
    (hacc : Account KeySpec ∅ es K (fun j => (m.loc j).status) seen) :
    Account KeySpec ∅ (es ++ (m.went i s' l').events (.go i)) K'
      (fun j => ((m.went i s' l').loc j).status) seen := by
  rw [status_went]
  cases ha with
  | stay hK hst hn =>
    rw [events_of_not_returned hn, List.append_nil, hK, hst]
    rwa [Function.update_eq_self i fun j => (m.loc j).status]
  | commit c e hst hspec hst' hn =>
    rw [events_of_not_returned hn, List.append_nil, hst']
    exact hacc.commit hst hspec
  | ret c e hK hst hret =>
    rw [hret, events_of_returned, hK]
    exact hacc.ret hst
  | finish c e hst hspec hret =>
    rw [hret, events_of_returned]
    have := (hacc.commit hst hspec).ret (Function.update_self ..)
    rwa [Function.update_idem] at this

/-- The account after a step of a search. -/
lemma Looked.account (hlook : Looked s (m.loc i) h l') (hs : (m.loc i).searches = some h)
    (hmiss : s.tbl.Absent h → .notFound ∈ seen i)
    (hahead : .notFound ∈ seen i ∨ Unpassed s (m.loc i) h)
    (hacc : Account KeySpec ∅ es K (fun j => (m.loc j).status) seen) :
    Account KeySpec ∅ (es ++ (m.went i s' l').events (.go i)) K
      (fun j => ((m.went i s' l').loc j).status) seen := by
  have hst := status_of_reads (reads_of_searches hs)
  rw [status_went]
  cases hlook with
  | on hs' =>
    have hn : ∀ c e, l' ≠ .returned c e := by
      rintro c e rfl
      cases hs'
    rw [events_of_not_returned hn, List.append_nil, status_of_reads (reads_of_searches hs'), ← hst]
    rwa [Function.update_eq_self i fun j => (m.loc j).status]
  | hit j =>
    rw [events_of_not_returned fun c e he => (by cases he), List.append_nil,
      show (Local.findHit h j).status = (m.loc i).status from hst.symm]
    rwa [Function.update_eq_self i fun j => (m.loc j).status]
  | missed ha =>
    rw [events_of_returned]
    exact hacc.retSeen hst (hahead.elim id fun hu => hmiss (ha hu))

/-- The account after the end of a search that has found a word. -/
lemma findHit_account {n : ℕ} (hl : m.loc i = .findHit h n)
    (hl' : l' = .returned (.find h) .ok ∨ l' = .findLoad h)
    (hhit : .ok ∈ seen i) (hacc : Account KeySpec ∅ es K (fun j => (m.loc j).status) seen) :
    Account KeySpec ∅ (es ++ (m.went i s' l').events (.go i)) K
      (fun j => ((m.went i s' l').loc j).status) seen := by
  have hst : (m.loc i).status = .pending (.find h) := by
    rw [hl]
    rfl
  rw [status_went]
  rcases hl' with rfl | rfl
  · rw [events_of_returned]
    exact hacc.retSeen hst hhit
  · rw [events_of_not_returned fun c e he => (by cases he), List.append_nil,
      show (Local.findLoad h).status = (m.loc i).status from hst.symm]
    rwa [Function.update_eq_self i fun j => (m.loc j).status]

/-- What holds of the thread that took a step, before it looks once more. -/
structure Onward (s' : Shared) (l' : Local) (seen : Set HtcError) : Prop where
  ahead : ∀ h, l'.searches = some h → .notFound ∈ seen ∨ Unpassed s' l' h
  current : ∀ v, l'.searchView = some v → v.gen = s'.genNo
  hit : ∀ h j, l' = .findHit h j → .ok ∈ seen

/-- A thread that does not read. -/
lemma Onward.of_reads {sn : Set HtcError} (hl : l'.reads = none) : Onward s' l' sn where
  ahead h hs := by
    rw [reads_of_searches hs] at hl
    cases hl
  current v hv := by cases l' <;> cases hv <;> cases hl
  hit h j hj := by
    rw [hj] at hl
    cases hl

/-- A call that writes does not begin to read; a search begins with a look at the current
generation. -/
lemma Advance.onward {sn : Set HtcError} (ha : Advance K K' l r.2) (hl : l.reads = none)
    (hr : s.exec l = some r) :
    Onward r.1 r.2 sn := by
  cases hn : r.2.reads with
  | none => exact .of_reads hn
  | some h =>
    have hst := status_of_reads hn
    have hload : l = .findLoad h := by
      cases ha with
      | stay hK hsame => exact findLoad_of_status (hsame.symm.trans hst) hl
      | commit c e hp hspec hdone =>
        rw [hst] at hdone
        cases hdone
      | ret c e hK hdone hret =>
        rw [hret] at hn
        cases hn
      | finish c e hp hspec hret =>
        rw [hret] at hn
        cases hn
    subst hload
    cases hr
    refine ⟨fun h hs => .inr fun p w hw hk hpass => hpass, fun v hv => ?_,
      fun h j hj => by cases hj⟩
    cases hv
    rfl

/-- The account and the thread after its step. -/
lemma Machine.Served.own (hm : m.Served es) (hs : (m.loc i).orderly m.toShared = true)
    (hg : (m.loc i).GrowsSafely m.toShared)
    (hacc : Account KeySpec ∅ es m.tbl.keySet (fun j => (m.loc j).status) seen)
    (hreads : Reads m.toShared (m.loc i) (seen i)) (hr : m.exec (m.loc i) = some r) :
    Account KeySpec ∅ (es ++ (m.went i r.1 r.2).events (.go i)) r.1.tbl.keySet
        (fun j => ((m.went i r.1 r.2).loc j).status) seen ∧ Onward r.1 r.2 (seen i) := by
  cases hn : (m.loc i).reads with
  | none =>
    have ha := exec_advance hm.placed hm.buckets hm.keys (hm.ok i) hs hg hn hr
    exact ⟨ha.account hacc, ha.onward hn hr⟩
  | some h =>
    have hst := status_of_reads hn
    cases hsr : (m.loc i).searches with
    | some k =>
      rw [reads_of_searches hsr] at hn
      cases hn
      obtain ⟨hsame, hlook⟩ := exec_looked hm.placed (hm.ok i) hsr hreads.current hr
      have hahead := hreads.ahead h hsr
      rw [hsame]
      refine ⟨hlook.account hsr (fun ha => hreads.missed h hst (not_not.mpr ha)) hahead hacc, ?_⟩
      generalize r.2 = l' at hlook
      cases hlook with
      | on hs' hv hu =>
        refine ⟨fun k hk => ?_, fun v hv' => hreads.current v (hv ▸ hv'), fun k j hj => ?_⟩
        · rw [hs'] at hk
          cases hk
          exact hahead.imp_right hu
        · rw [hj] at hs'
          cases hs'
      | hit j ha =>
        exact ⟨fun k hk => (by cases hk), fun v hv => (by cases hv),
          fun k n hk => hreads.found h hst ha⟩
      | missed => exact .of_reads rfl
    | none =>
      cases hl : m.loc i with
      | findHit k n =>
        have hhit := hreads.hit k n hl
        rw [hl] at hr
        cases hr
        refine ⟨findHit_account hl ?_ hhit hacc, ?_⟩
        · dsimp only
          split
          · exact .inl rfl
          · exact .inr rfl
        · dsimp only
          split <;> exact .of_reads rfl
      | _ =>
        rw [hl] at hn hsr
        cases hn <;> cases hsr

/-- The condition of a call that brings a key in. -/
lemma safe_of_enters (he : l.enters = some h) (hs : l.orderly s = true) : l.safe s = true := by
  cases l <;> first | exact hs | cases he

/-- The next step of a thread keeps the invariant. -/
lemma Machine.Served.go (hm : m.Served es) (ho : m.Orderly (.go i))
    (h' : m.step (.go i) = some m') :
    m'.Served (es ++ m'.events (.go i)) := by
  have hgrow : m.GrowsSafely (.go i) :=
    growsSafely_of_empty hm.placed hm.shards (growsEmpty_of_orderly ho.1)
  have hsane := hm.toSane.step hgrow h'
  obtain ⟨r, hr, rfl⟩ := step_go h'
  have he := exec_effect hm.placed hm.buckets (hm.ok i) hgrow hr
  have hkeys : Set.InjOn r.1.tbl.keyOf r.1.tbl.live := he.delta.injOn hm.keys fun h hent hlive =>
    exec_absent hm.placed (safe_of_enters hent ho.1) hr hent hlive
  obtain ⟨seen, hacc, hreads⟩ := hm.account
  obtain ⟨hacc', hown⟩ := hm.own ho.1 hgrow hacc (hreads i) hr
  refine ⟨hsane, hkeys, he.moved.dvd hm.shards, _, hacc'.observe, fun j => ?_⟩
  dsimp only [Machine.went]
  by_cases hj : j = i
  · subst hj
    rw [Function.update_self]
    exact Reads.look hown.ahead hown.current hown.hit
  · rw [Function.update_of_ne hj]
    have hview : ∀ v, (m.loc j).searchView = some v → ∃ h, (m.loc j).searches = some h := by
      intro v hv
      cases hl : m.loc j <;> rw [hl] at hv <;> cases hv <;> exact ⟨_, rfl⟩
    have hgen : ∀ h, (m.loc j).searches = some h → r.1.genNo = m.genNo := fun h hs =>
      exec_genNo (replaces_of_spares hs (ho.2 j)) hr
    have hpresent :
        ∀ h, (m.loc j).searches = some h → h ∉ m.tbl.keySet → .notFound ∈ seen j := fun h hs hn =>
      (hreads j).missed h (status_of_reads (reads_of_searches hs)) hn
    refine Reads.look (fun h hs => ?_) (fun v hv => ?_) (hreads j).hit
    · by_cases hk : h ∈ m.tbl.keySet
      · exact ((hreads j).ahead h hs).imp_right
          (unpassed_step (hm.ok i) hr he (fun n hn hkn => he.delta.live_of_key hkeys hk hn hkn)
            (ho.2 j) (hm.ok j) hs (hreads j).current)
      · exact .inl (hpresent h hs hk)
    · obtain ⟨h, hs⟩ := hview v hv
      rw [hgen h hs]
      exact (hreads j).current v hv

/-- A schedule that meets the condition keeps the invariant. -/
lemma Machine.Served.run : ∀ {as : List Act} {m : Machine} {es : List (Event Call HtcError)},
    m.Served es →
    m.Along Machine.Orderly as → m.run as = some m' → m'.Served (es ++ m.trace as)
  | [], m, es, hm, _, hr => by
    cases hr
    rw [Machine.trace, List.append_nil]
    exact hm
  | act :: as, m, es, hm, ho, hr => by
    obtain ⟨m₁, h₁, hr⟩ := Option.bind_eq_some_iff.mp hr
    have hm₁ : m₁.Served (es ++ m₁.events act) := by
      cases act with
      | call i c => exact hm.call h₁
      | go i => exact hm.go ho.1 h₁
    have := hm₁.run (ho.2 m₁ h₁) hr
    rw [Machine.trace, h₁]
    dsimp only
    rwa [← List.append_assoc]

/-- The invariant holds of a new table with a power of two of shards. -/
lemma Machine.Served.start (cfg : Option HtcConfig) (seedCtr : ℕ) (mem : List Bool) {k : ℕ}
    (hk : (htcCreate cfg seedCtr mem).shardCount = 2 ^ k) :
    (Machine.start (htcCreate cfg seedCtr mem)).Served [] := by
  have hf := Machine.Filling.start cfg seedCtr mem hk
  have hempty : (htcCreate cfg seedCtr mem).keySet = ∅ := by
    refine Set.eq_empty_of_forall_notMem fun h hh => ?_
    obtain ⟨j, hj, -⟩ := mem_keySet.mp hh
    rw [htcCreate_live] at hj
    exact hj
  refine ⟨hf.toSane, hf.keys, hf.shards, fun _ => ∅, ?_, fun i => ?_⟩
  · change Account KeySpec ∅ [] (htcCreate cfg seedCtr mem).keySet (fun _ => .idle) fun _ => ∅
    rw [hempty]
    exact .start KeySpec ∅
  · exact ⟨fun h hs => (by cases hs), fun h hs => (by cases hs), fun h hs => (by cases hs),
      fun v hv => (by cases hv), fun h j hj => (by cases hj)⟩

/-- The condition on an act when the threads from `n` on are idle. -/
def Machine.OrderlyBelow (n : ℕ) (m : Machine) : Act → Prop
  | .call _ _ => True
  | .go i => (m.loc i).orderly m.toShared = true ∧ ∀ j < n,
    (m.loc i).spares m.toShared (m.loc j) = true

instance (n : ℕ) (m : Machine) : ∀ act, Decidable (m.OrderlyBelow n act)
  | .call _ _ => isTrue trivial
  | .go _ => inferInstanceAs (Decidable (_ ∧ _))

/-- The threads that make no call in a schedule need not be looked at. -/
lemma orderly_of_below {n : ℕ} : ∀ {as : List Act} {m : Machine}, (∀ a ∈ as, a.thread < n) →
    (∀ j, n ≤ j → m.loc j = .idle) → m.Along (Machine.OrderlyBelow n) as →
    m.Along Machine.Orderly as
  | [], _, _, _, _ => trivial
  | act :: as, m, hn, hidle, ho => by
    refine ⟨?_, fun m' h => orderly_of_below (fun a ha => hn a (List.mem_cons_of_mem _ ha))
      (fun j hj => ?_) (ho.2 m' h)⟩
    · cases act with
      | call i c => trivial
      | go i =>
        refine ⟨ho.1.1, fun j => ?_⟩
        by_cases hj : j < n
        · exact ho.1.2 j hj
        · rw [hidle j (not_lt.mp hj)]
          rfl
    · rw [Machine.step_other (fun he => ?_) h, hidle j hj]
      have := hn act (List.mem_cons_self ..)
      omega

end Draugr.Htc
