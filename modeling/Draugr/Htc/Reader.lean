import Draugr.Htc.Removal

/-!
# The lock-free search

`htc_find` scans the primary bucket, reads the hint, scans the secondary bucket, then the stash of
the shard and the global stash, without a lock. A word that a displacement carries back from the
secondary bucket to the primary one passes such a search that has scanned the primary bucket
already. `Local.spares` is the condition that excludes this; while it is met, `Unpassed` holds of
every search for a key that stays in the table: its word is not where the search has been.
-/

namespace Draugr.Htc
open Draugr.Lib

/-- The key that a search without locks looks for. -/
def Local.searches : Local → Option ℕ
  | .findPrimary h _ => some h
  | .findRemap h _ => some h
  | .findSecondary h _ => some h
  | .findShard h _ => some h
  | .findGlobal h _ => some h
  | _ => none

/-- What a search computed from the generation that it reads. -/
def Local.searchView : Local → Option View
  | .findPrimary _ v => some v
  | .findRemap _ v => some v
  | .findSecondary _ v => some v
  | .findShard _ v => some v
  | .findGlobal _ v => some v
  | _ => none

/-- The search has left the word at the place behind. -/
def Local.Passed : Local → Place → Word → Prop
  | .findRemap _ v, .slot x, w => x.1 = v.b1 ∧ w.inSec = false
  | .findSecondary _ v, .slot x, w => x.1 = v.b1 ∧ w.inSec = false
  | .findShard _ _, .slot _, _ => True
  | .findGlobal _ _, .slot _, _ => True
  | .findGlobal _ _, .shard _ _, _ => True
  | _, _, _ => False

/-- The search has not left the key behind. -/
def Unpassed (s : Shared) (l : Local) (h : ℕ) : Prop :=
  ∀ p w, s.tbl.wordAt p = some w → s.tbl.keyOf w.idx = h → ¬ l.Passed p w

/-- The step replaces the generation. -/
def Local.replaces : Local → Bool
  | .growRehash _ _ => true
  | _ => false

/-- The step commits a displacement that carries the key to its primary bucket. -/
def Local.brings (s : Shared) (h : ℕ) : Local → Bool
  | .insPath _ _ _ _ p =>
    (validatePathLocked s.tbl.gen s.tbl.recs p).isSome && p.moves.any fun m =>
      m.dst.1 == (s.view h).b1 && (s.tbl.gen.slots m.src).any fun w => s.tbl.keyOf w.idx == h
  | _ => false

/-- A step that a search of another thread does not miss: it does not replace the generation that
the search reads, and it does not carry the key back to the bucket that the search has scanned. -/
def Local.spares (s : Shared) (l : Local) : Local → Bool
  | .findPrimary _ _ => !l.replaces
  | .findRemap h _ => !l.replaces && !l.brings s h
  | .findSecondary h _ => !l.replaces && !l.brings s h
  | .findShard _ _ => !l.replaces
  | .findGlobal _ _ => !l.replaces
  | _ => true

variable {s s' : Shared} {l l' : Local} {c : Core} {g : Gen} {recs : ℕ → HtcRecord} {a : Ins}
  {v : View} {h i idx : ℕ}
  {w : Word} {x : ℕ × ℕ} {r : Shared × Local}

/-! ## The words of a commit -/

/-- The word in a slot after the moves was there before, or a move brought its record. -/
lemma commitMove_foldl_slots_cases : ∀ (ms : List (Move × Word)) (g : Gen),
    (ms.foldl (commitMove recs) g).slots x = some w → g.slots x = some w ∨ ∃ mw ∈ ms,
    x = mw.1.dst ∧ w.idx = mw.2.idx
  | [], _, hx => .inl hx
  | mw :: ms, g, hx => by
    rw [List.foldl_cons] at hx
    rcases commitMove_foldl_slots_cases ms _ hx with hx | ⟨mw', hm, he⟩
    · obtain ⟨f, n, heq⟩ := commitRemap_eq recs (commitCtrl recs (commitSlots recs g mw) mw) mw
      rw [commitMove, heq] at hx
      change Function.update (Function.update g.slots mw.1.dst _) mw.1.src none x = some w at hx
      by_cases hs : x = mw.1.src
      · rw [hs, Function.update_self] at hx
        cases hx
      · rw [Function.update_of_ne hs] at hx
        by_cases hd : x = mw.1.dst
        · rw [hd, Function.update_self] at hx
          cases hx
          exact .inr ⟨mw, List.mem_cons_self .., hd, rfl⟩
        · rw [Function.update_of_ne hd] at hx
          exact .inl hx
    · exact .inr ⟨mw', List.mem_cons_of_mem _ hm, he⟩

/-- The word in a slot after a commit was there before, is the new one, or came by a move. -/
lemma commitPathLocked_slots_cases {b1 b2 : ℕ} {d : ℕ × ℕ} {p : Path} {src : List Word}
    (hch : Chain b1 b2 d p) (hv : validatePathLocked c.gen c.recs p = some src)
    (hx : (commitPathLocked c.gen c.recs p src idx).slots x = some w) :
    c.gen.slots x = some w ∨ w.idx = idx ∨
      ∃ m ∈ p.moves, ∃ u, c.gen.slots m.src = some u ∧ u.idx = w.idx ∧ x = m.dst := by
  rw [commitPathLocked_eq, commitEntry, enter_slots] at hx
  by_cases hi : x = p.ins
  · rw [hi, Function.update_self] at hx
    cases hx
    exact .inr (.inl rfl)
  · rw [Function.update_of_ne hi] at hx
    rcases commitMove_foldl_slots_cases _ _ hx with hx | ⟨⟨m, u⟩, hm, hd, he⟩
    · exact .inl hx
    · obtain ⟨-, hall⟩ := validatePathLocked_some hch hv
      have hleg := List.forall₂_zip hall hm
      exact .inr (.inr ⟨m, (List.of_mem_zip hm).1, u, hleg.word, he.symm, hd⟩)

/-! ## The steps of a search -/

/-- Where a step of a search for the key `h` leads. -/
inductive Looked (s : Shared) (l : Local) (h : ℕ) : Local → Prop where
  /-- The search goes on and leaves no word of the key behind. -/
  | on {l' : Local} : l'.searches = some h → l'.searchView = l.searchView →
    (Unpassed s l h → Unpassed s l' h) →
      Looked s l h l'
  | hit (idx : ℕ) : ¬ s.tbl.Absent h → Looked s l h (.findHit h idx)
  | missed : (Unpassed s l h → s.tbl.Absent h) → Looked s l h (.returned (.find h) .notFound)

/-- A word of the key is one that the scans look for. -/
lemma Placed.isFor_key {p : Place} (hp : Placed c) (hw : c.wordAt p = some w)
    (hk : c.keyOf w.idx = h) :
    w.isFor c.recs h (tag16 (placementHash h c.gen.seed)) = true := by
  have hi := hp.isFor hw
  rwa [Core.hashOf, hk] at hi

/-- A key of which a word was found is present. -/
lemma not_absent_of_isFor {p : Place} {tag : ℕ} (hw : c.wordAt p = some w)
    (hf : w.isFor c.recs h tag = true) :
    ¬ c.Absent h :=
  fun ha => ha _ (mem_live hw) (isFor_iff.mp hf).2.1

/-- A word of the key that is not in the primary bucket and not in the secondary one is in a
stash. -/
lemma Placed.slot_cases (hp : Placed c) (hw : c.gen.slots x = some w) (hk : c.keyOf w.idx = h) :
    x.2 < bucketSlots ∧ (x.1 = c.gen.primary (placementHash h c.gen.seed) ∧ w.inSec = false ∨
      x.1 = c.gen.secondary (placementHash h c.gen.seed) ∧ w.inSec = true ∧
        c.gen.mustCheckSecondary (c.gen.primary (placementHash h c.gen.seed))
        (tag16 (placementHash h c.gen.seed)) = true) := by
  obtain ⟨hlt, hseat⟩ : c.Seat (c.hashOf w.idx) w (.slot x) := hp.seat (.slot x) w hw
  refine ⟨hlt, ?_⟩
  rw [Core.hashOf, hk] at hseat
  cases hsec : w.inSec with
  | false =>
    rw [hsec, if_neg Bool.false_ne_true] at hseat
    exact .inl ⟨hseat, rfl⟩
  | true =>
    rw [hsec, if_pos rfl] at hseat
    have hm := hp.hinted.mustCheckSecondary hw hsec
    rw [hp.tag (.slot x) w hw, Core.hashOf, hk] at hm
    exact .inr ⟨hseat.1, rfl, hm⟩

/-- A step of a search in the current generation. -/
lemma exec_looked (hp : Placed s.tbl.toCore) (hl : l.Ok s) (hs : l.searches = some h)
    (hg : ∀ v, l.searchView = some v → v.gen = s.genNo) (hr : s.exec l = some r) :
    r.1 = s ∧ Looked s l h r.2 := by
  have hmissed : ∀ {p w}, s.tbl.wordAt p = some w → s.tbl.keyOf w.idx = h →
      w.isFor s.tbl.recs h (tag16 (s.view h).ph) ≠ false := by
    intro p w hw hk hmiss
    have hfor : w.isFor s.tbl.recs h (tag16 (s.view h).ph) = true := hp.isFor_key hw hk
    rw [hfor] at hmiss
    cases hmiss
  cases l with
  | findPrimary k v =>
    cases hs
    cases hr
    have hgen := hg v rfl
    obtain rfl := View.Of.eq hl hgen
    refine ⟨rfl, ?_⟩
    dsimp only
    rw [Shared.genAt, if_pos hgen]
    cases hb : htcBucketScan s.tbl.gen s.tbl.recs (s.view h).b1 h (tag16 (s.view h).ph) false with
    | some i =>
      obtain ⟨w, -, hw, -, hf⟩ := htcBucketScan_some hb
      exact .hit _ (not_absent_of_isFor (p := .slot ((s.view h).b1, i)) hw hf)
    | none =>
      refine .on rfl rfl fun _ p w hw hk hpass => ?_
      cases p with
      | slot x =>
        obtain ⟨hx, hsec⟩ := hpass
        exact hmissed hw hk
          (htcBucketScan_none hp.hinted.ctrl hb (hp.slot_cases hw hk).1 (hx ▸ hw) hsec)
      | shard y j => exact hpass
      | global j => exact hpass
  | findRemap k v =>
    cases hs
    cases hr
    have hgen := hg v rfl
    obtain rfl := View.Of.eq hl hgen
    refine ⟨rfl, ?_⟩
    dsimp only
    rw [Shared.genAt, if_pos hgen]
    split
    · refine .on rfl rfl fun hu p w hw hk hpass => ?_
      cases p <;> exact hu _ w hw hk hpass
    · next hm =>
      -- no word of the key sits in the secondary bucket
      refine .on rfl rfl fun hu p w hw hk hpass => ?_
      cases p with
      | slot x =>
        rcases (hp.slot_cases hw hk).2 with ⟨hx, hsec⟩ | ⟨-, -, hmust⟩
        · exact hu _ w hw hk ⟨hx, hsec⟩
        · exact hm hmust
      | shard y j => exact hpass
      | global j => exact hpass
  | findSecondary k v =>
    cases hs
    cases hr
    have hgen := hg v rfl
    obtain rfl := View.Of.eq hl hgen
    refine ⟨rfl, ?_⟩
    dsimp only
    rw [Shared.genAt, if_pos hgen]
    cases hb : htcBucketScan s.tbl.gen s.tbl.recs (s.view h).b2 h (tag16 (s.view h).ph) true with
    | some i =>
      obtain ⟨w, -, hw, -, hf⟩ := htcBucketScan_some hb
      exact .hit _ (not_absent_of_isFor (p := .slot ((s.view h).b2, i)) hw hf)
    | none =>
      refine .on rfl rfl fun hu p w hw hk hpass => ?_
      cases p with
      | slot x =>
        obtain ⟨hlt, ⟨hx, hsec⟩ | ⟨hx, hsec, -⟩⟩ := hp.slot_cases hw hk
        · exact hu _ w hw hk ⟨hx, hsec⟩
        · have hw' : s.tbl.gen.slots ((s.view h).b2, x.2) = some w := by
            rw [show (s.view h).b2 = x.1 from hx.symm]
            exact hw
          exact hmissed hw hk (htcBucketScan_none hp.hinted.ctrl hb hlt hw' hsec)
      | shard y j => exact hpass
      | global j => exact hpass
  | findShard k v =>
    cases hs
    cases hr
    obtain rfl := View.Of.eq hl (hg v rfl)
    refine ⟨rfl, ?_⟩
    dsimp only
    cases hb : htcStashFind (s.tbl.shards (s.view h).s1) s.tbl.recs h (tag16 (s.view h).ph) with
    | some i =>
      obtain ⟨w, -, hw, hf⟩ := htcStashFind_some hb
      exact .hit _ (not_absent_of_isFor (p := .shard (s.view h).s1 i) hw hf)
    | none =>
      refine .on rfl rfl fun hu p w hw hk hpass => ?_
      cases p with
      | slot x => exact hu _ w hw hk trivial
      | shard y j =>
        obtain ⟨hlt, hy⟩ : s.tbl.Seat (s.tbl.hashOf w.idx) w (.shard y j) := hp.seat _ w hw
        rw [Core.hashOf, hk] at hy
        have hw' : (s.tbl.shards (s.view h).s1).slots j = some w := by
          rw [show (s.view h).s1 = y from hy.symm]
          exact hw
        exact hmissed hw hk (htcStashFind_none (hp.shards _) hb hlt hw')
      | global j => exact hpass
  | findGlobal k v =>
    cases hs
    cases hr
    obtain rfl := View.Of.eq hl (hg v rfl)
    refine ⟨rfl, ?_⟩
    dsimp only
    cases hb : htcStashFind s.tbl.stash s.tbl.recs h (tag16 (s.view h).ph) with
    | some i =>
      obtain ⟨w, -, hw, hf⟩ := htcStashFind_some hb
      exact .hit _ (not_absent_of_isFor (p := .global i) hw hf)
    | none =>
      refine .missed fun hu j hj hk => ?_
      obtain ⟨p, w, hw, rfl⟩ := hj
      cases p with
      | slot x => exact hu _ w hw hk trivial
      | shard y j => exact hu _ w hw hk trivial
      | global j =>
        have hlt : s.tbl.Seat (s.tbl.hashOf w.idx) w (.global j) := hp.seat _ w hw
        exact hmissed hw hk (htcStashFind_none hp.stash hb hlt hw)
  | _ => cases hs

/-! ## The steps of the others -/

/-- The stash section changes no generation number. -/
lemma stashSection_genNo (s : Shared) (a : Ins) (i : ℕ) :
    (s.stashSection a i).1.genNo = s.genNo := by
  rw [Shared.stashSection]
  split <;> rfl

/-- A written generation keeps its number. -/
lemma setGen_genNo (s : Shared) (n : ℕ) (g : Gen) : (s.setGen n g).genNo = s.genNo := by
  rw [Shared.setGen]
  split <;> rfl

/-- The insertion section changes no generation number. -/
lemma insertSection_genNo (s : Shared) (a : Ins) (v : View) :
    (s.insertSection a v).1.genNo = s.genNo := by
  rw [Shared.insertSection]
  split
  · rfl
  split
  · rfl
  · rfl
  · rfl
  · rfl
  · exact stashSection_genNo ..

/-- Only a grow replaces the generation. -/
lemma exec_genNo (hl : l.replaces = false) (hr : s.exec l = some r) : r.1.genNo = s.genNo := by
  cases l with
  | growRehash reseed k => cases hl
  | idle => cases hr
  | returned c e => cases hr
  | insLoad a =>
    rw [Shared.exec] at hr
    split at hr <;> cases hr <;> rfl
  | insLock a v =>
    cases hr
    exact insertSection_genNo ..
  | insPath a v sids i p =>
    cases hr
    rw [Shared.pathSection]
    split
    · exact setGen_genNo ..
    · rfl
  | insStash a v i =>
    cases hr
    dsimp only
    split
    · rfl
    · exact stashSection_genNo ..
  | growLock reseed k =>
    rw [Shared.exec] at hr
    split at hr <;> cases hr
    rfl
  | upsLoad k u n =>
    cases n <;> cases hr <;> rfl
  | upsLock k u n v =>
    cases hr
    rw [Shared.upsertSection]
    split
    · rfl
    split <;> rfl
  | remLock k v =>
    rw [Shared.exec, Shared.removeSection] at hr
    split at hr
    · cases hr
      rfl
    · obtain ⟨u, -, rfl⟩ := Option.map_eq_some_iff.mp hr
      rfl
  | _ =>
    cases hr
    rfl

/-- The word of a record that stays is where it was, or where a displacement brought it. -/
lemma exec_word {p : Place} (hl : l.Ok s) (hr : s.exec l = some r) (he : Effect s l r.1 r.2)
    (hg : r.1.genNo = s.genNo) (hw : r.1.tbl.wordAt p = some w) (hi : w.idx ∈ s.tbl.live) :
    s.tbl.wordAt p = some w ∨ ∃ a v sids i q, l = .insPath a v sids i q ∧
      (validatePathLocked s.tbl.gen s.tbl.recs q).isSome ∧
      ∃ m ∈ q.moves, ∃ u, s.tbl.gen.slots m.src = some u ∧ u.idx = w.idx ∧ p = .slot m.dst := by
  obtain ⟨q, u, hu, huw⟩ := hi
  by_cases hx : ∃ x, q = .slot x ∧ l.Shifts s x
  · obtain ⟨x, rfl, hx⟩ := hx
    cases l with
    | insPath a v sids i q =>
      obtain ⟨hgen, hsome, -⟩ := hx
      obtain ⟨-, hc, d, hch⟩ := hl
      obtain ⟨src, hv⟩ := Option.isSome_iff_exists.mp hsome
      cases hr
      simp only [Shared.pathSection, Shared.genAt, if_pos hgen, hv, Shared.setGen] at hw
      cases p with
      | slot y =>
        rcases commitPathLocked_slots_cases hch hv hw with hw | hw | ⟨m, hm, u', hu', hidx, rfl⟩
        · exact .inl hw
        · -- the new record was in no place
          exact absurd (hw ▸ huw ▸ mem_live hu) hc.notLive
        · exact .inr ⟨a, v, sids, i, q, rfl, hsome, m, hm, u', hu', hidx, rfl⟩
      | shard y j => exact .inl hw
      | global j => exact .inl hw
    | _ => exact hx.elim
  · have hlive : u.idx ∈ r.1.tbl.live := huw ▸ mem_live hw
    have hu' := he.words hg q u hu hlive fun x hq hs => hx ⟨x, hq, hs⟩
    have hq : q = p := he.placed.separate q p u w hu' hw huw
    rw [hq] at hu hu'
    rw [hw] at hu'
    cases hu'
    exact .inl hu

/-- The record of a key that is present before and after a step was in the table before. -/
lemma Delta.live_of_key {c' : Core} {ent rem : Option ℕ} (hd : Delta c c' ent rem)
    (hkeys : Set.InjOn c'.keyOf c'.live) (ha : ¬ c.Absent h) (hi : i ∈ c'.live)
    (hk : c'.keyOf i = h) : i ∈ c.live := by
  have hmono : c'.live ⊆ c.live ∨ c.live ⊆ c'.live := by
    rcases hd.live with hlive | ⟨j, -, hlive, -⟩ | ⟨j, -, -, hlive⟩
    · exact .inl hlive.le
    · exact .inr (hlive ▸ Set.subset_insert ..)
    · exact .inl (hlive ▸ Set.sdiff_subset)
  rcases hmono with hsub | hsub
  · exact hsub hi
  · simp only [Core.Absent, not_forall, not_not] at ha
    obtain ⟨j, hj, hkj⟩ := ha
    have hj' := (hd.keys j hj (hsub hj)).trans hkj
    exact hkeys (hsub hj) hi (hj'.trans hk.symm) ▸ hj

/-- A step that a search does not miss keeps its generation. -/
lemma replaces_of_spares (hs : l'.searches = some h) (hsp : l.spares s l' = true) :
    l.replaces = false := by
  cases hl : l.replaces with
  | false => rfl
  | true => cases l' <;> simp [Local.spares, Local.searches, hl] at hs hsp

/-- A step that a search does not miss leaves the key where the search finds it, if it brings in no
record of the key. -/
lemma unpassed_step (hl : l.Ok s) (hr : s.exec l = some r) (he : Effect s l r.1 r.2)
    (hold : ∀ j ∈ r.1.tbl.live, r.1.tbl.keyOf j = h → j ∈ s.tbl.live)
    (hsp : l.spares s l' = true) (hl' : l'.Ok s)
    (hs : l'.searches = some h) (hg : ∀ v, l'.searchView = some v → v.gen = s.genNo)
    (hu : Unpassed s l' h) : Unpassed r.1 l' h := by
  intro p w hw hk hpass
  have hi : w.idx ∈ s.tbl.live := hold _ (mem_live hw) hk
  have hk' : s.tbl.keyOf w.idx = h := (he.delta.keys _ hi (mem_live hw)).symm.trans hk
  rcases exec_word hl hr he (exec_genNo (replaces_of_spares hs hsp) hr) hw hi with
    hw' | ⟨a, v, sids, i, q, rfl, hsome, m, hm, u, hu', hidx, rfl⟩
  · exact hu p w hw' hk' hpass
  · have hbring : m.dst.1 = (s.view h).b1 → (Local.insPath a v sids i q).brings s h = true := by
      intro hd
      simp only [Local.brings, Bool.and_eq_true, List.any_eq_true, beq_iff_eq]
      refine ⟨hsome, m, hm, hd, ?_⟩
      rw [hu', Option.any_some, hidx, hk', beq_self_eq_true]
    have hback :
        ∀ v', v' = s.view h → m.dst.1 = v'.b1 → (Local.insPath a v sids i q).brings s h = false →
          False := by
      rintro v' rfl hd hb
      rw [hbring hd] at hb
      cases hb
    cases l' with
    | findRemap k v' =>
      cases hs
      simp only [Local.spares, Bool.and_eq_true, Bool.not_eq_true'] at hsp
      exact hback v' (View.Of.eq hl' (hg v' rfl)) hpass.1 hsp.2
    | findSecondary k v' =>
      cases hs
      simp only [Local.spares, Bool.and_eq_true, Bool.not_eq_true'] at hsp
      exact hback v' (View.Of.eq hl' (hg v' rfl)) hpass.1 hsp.2
    | findShard k v' => exact hu (.slot m.src) u hu' (hidx ▸ hk') trivial
    | findGlobal k v' => exact hu (.slot m.src) u hu' (hidx ▸ hk') trivial
    | _ => exact hpass

end Draugr.Htc
