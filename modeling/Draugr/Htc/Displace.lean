import Draugr.Htc.Place

/-!
# Displacement

`bfs_find_path` returns a chain of moves: each move goes to the slot that the move before it leaves,
the first goes to an empty slot, and the new entry takes the slot that the last one leaves. The
buckets of the chain are different, because a bucket is visited once. `Chain` states this of a path.

`commit_path_locked` writes all slots, then all control bytes, then all remap hints. The three loops
touch different fields, so the commit is a sequence of whole moves (`commitPathLocked_eq`), each of
which keeps `Settled`.
-/

namespace Draugr.Htc
open Draugr.Lib

variable {c : Core} {g : Gen} {recs : ℕ → HtcRecord} {w : Word} {i : ℕ}

/-! ## The shape of a path -/

/-- From the slot `d`, each move goes to the slot that the one before it leaves; `ins` is left
last. -/
def Linked (d : ℕ × ℕ) : List Move → ℕ × ℕ → Prop
  | [], ins => ins = d
  | m :: ms, ins => m.dst = d ∧ Linked m.src ms ins

/-- The slots of a path from `d`. -/
def slotsOf (d : ℕ × ℕ) (ms : List Move) : List (ℕ × ℕ) := d :: ms.map Move.src

/-- The slot for the new entry is a slot of the path. -/
lemma linked_ins_mem {ins : ℕ × ℕ} : ∀ {ms : List Move} {d : ℕ × ℕ},
    Linked d ms ins → ins ∈ slotsOf d ms
  | [], _, h => by
    rw [show ins = _ from h]
    exact List.mem_singleton_self _
  | _ :: _, _, h => List.mem_cons_of_mem _ (linked_ins_mem h.2)

/-- A path for a key with buckets `b1` and `b2`. -/
structure Chain (b1 b2 : ℕ) (d : ℕ × ℕ) (p : Path) : Prop where
  linked : Linked d p.moves p.ins
  nodup : ((slotsOf d p.moves).map Prod.fst).Nodup
  lt : ∀ x ∈ slotsOf d p.moves, x.2 < bucketSlots
  ins : p.ins.1 = b1 ∨ p.ins.1 = b2

/-- The buckets from a node to its root. -/
def BfsNode.buckets : BfsNode → List ℕ
  | .root b => [b]
  | .child b parent _ => b :: parent.buckets

/-- The slots by which a node was reached are slots of buckets. -/
def BfsNode.SlotsLt : BfsNode → Prop
  | .root _ => True
  | .child _ parent s => s < bucketSlots ∧ parent.SlotsLt

/-- The bucket of the root of a node. -/
def BfsNode.rootBucket : BfsNode → ℕ
  | .root b => b
  | .child _ parent _ => parent.rootBucket

/-- The walk of `build_path` is a chain. -/
lemma BfsNode.path_chain (n : BfsNode) :
    ∀ s, n.buckets.Nodup → n.SlotsLt → s < bucketSlots →
      Linked (n.bucket, s) (n.path (n.bucket, s)).moves (n.path (n.bucket, s)).ins ∧
      (slotsOf (n.bucket, s) (n.path (n.bucket, s)).moves).map Prod.fst = n.buckets ∧
      (∀ x ∈ slotsOf (n.bucket, s) (n.path (n.bucket, s)).moves, x.2 < bucketSlots) ∧
      (n.path (n.bucket, s)).ins.1 = n.rootBucket := by
  induction n with
  | root b =>
    intro s _ _ hs
    refine ⟨rfl, rfl, ?_, rfl⟩
    intro x hx
    rw [List.mem_singleton.mp hx]
    exact hs
  | child b parent slot ih =>
    intro s hnd hlt hs
    obtain ⟨hl, hb, hx, hr⟩ := ih slot (List.nodup_cons.mp hnd).2 hlt.2 hlt.1
    refine ⟨⟨rfl, hl⟩, ?_, ?_, hr⟩
    · change b ::
        (slotsOf (parent.bucket, slot) (parent.path (parent.bucket, slot)).moves).map Prod.fst = _
      rw [hb]
      rfl
    · intro x hm
      rcases List.mem_cons.mp hm with rfl | hm
      · exact hs
      · exact hx x hm

/-- The invariant of the queue: the buckets of a node are different and visited, and its root is a
bucket of the key. -/
structure Queued (b1 b2 : ℕ) (visited : List ℕ) (n : BfsNode) : Prop where
  nodup : n.buckets.Nodup
  visited : n.buckets ⊆ visited
  slots : n.SlotsLt
  root : n.rootBucket = b1 ∨ n.rootBucket = b2

variable {b1 b2 : ℕ}

/-- Visiting more buckets keeps a node queued. -/
lemma Queued.mono {visited visited' : List ℕ} {n : BfsNode} (h : Queued b1 b2 visited n)
    (hs : visited ⊆ visited') :
    Queued b1 b2 visited' n :=
  ⟨h.nodup, fun _ hb => hs (h.visited hb), h.slots, h.root⟩

/-- One expansion keeps the queue. -/
lemma bfsExpand_queued {n : BfsNode} {st : List BfsNode × List ℕ} {slot : ℕ}
    (hslot : slot < bucketSlots) (hn : Queued b1 b2 st.2 n) (hq : ∀ m ∈ st.1, Queued b1 b2 st.2 m) :
    st.2 ⊆ (bfsExpand g recs n st slot).2 ∧
      ∀ m ∈ (bfsExpand g recs n st slot).1, Queued b1 b2 (bfsExpand g recs n st slot).2 m := by
  rw [bfsExpand]
  split
  · split
    · exact ⟨List.Subset.refl _, hq⟩
    · next alt _ =>
      split
      · exact ⟨List.Subset.refl _, hq⟩
      · next hnew =>
        rw [not_or] at hnew
        have hsub : st.2 ⊆ st.2 ++ [alt] := List.subset_append_left _ _
        refine ⟨hsub, fun m hm => ?_⟩
        rcases List.mem_append.mp hm with hm | hm
        · exact (hq m hm).mono hsub
        · rw [List.mem_singleton.mp hm]
          refine ⟨List.nodup_cons.mpr ⟨fun h => hnew.2 (hn.visited h), hn.nodup⟩, ?_,
            ⟨hslot, hn.slots⟩, hn.root⟩
          intro b hb
          rcases List.mem_cons.mp hb with rfl | hb
          · exact List.mem_append_right _ (List.mem_singleton_self _)
          · exact hsub (hn.visited hb)
  · exact ⟨List.Subset.refl _, hq⟩

/-- Expanding a node by every slot keeps the queue. -/
lemma bfsExpand_foldl_queued {n : BfsNode} :
    ∀ (l : List ℕ) (st : List BfsNode × List ℕ), (∀ s ∈ l, s < bucketSlots) → Queued b1 b2 st.2 n →
      (∀ m ∈ st.1, Queued b1 b2 st.2 m) →
      ∀ m ∈ (l.foldl (bfsExpand g recs n) st).1, Queued b1 b2 (l.foldl (bfsExpand g recs n) st).2 m
  | [], _, _, _, hq => hq
  | s :: l, st, hl, hn, hq => by
    obtain ⟨hsub, hq'⟩ : st.2 ⊆ (bfsExpand g recs n st s).2 ∧
        ∀ m ∈ (bfsExpand g recs n st s).1, Queued b1 b2 (bfsExpand g recs n st s).2 m :=
      bfsExpand_queued (hl s (List.mem_cons_self ..)) hn hq
    exact bfsExpand_foldl_queued l _ (fun s' hs' => hl s' (List.mem_cons_of_mem _ hs'))
      (hn.mono hsub) hq'

/-- A path of `build_path` from a queued node is a chain. -/
lemma buildPath_chain {visited : List ℕ} {n : BfsNode} {s : ℕ} {p : Path}
    (hn : Queued b1 b2 visited n)
    (hs : s < bucketSlots) (h : buildPath n s = some p) : Chain b1 b2 (n.bucket, s) p := by
  rw [buildPath] at h
  split at h
  · cases h
    obtain ⟨hl, hb, hx, hr⟩ := n.path_chain s hn.nodup hn.slots hs
    refine ⟨hl, ?_, hx, ?_⟩
    · rw [hb]
      exact hn.nodup
    · rw [hr]
      exact hn.root
  · cases h

/-- A path of the loop is a chain. -/
lemma bfsLoop_chain {p : Path} :
    ∀ (k : ℕ) (st : List BfsNode × List ℕ), (∀ m ∈ st.1, Queued b1 b2 st.2 m) →
      bfsLoop g recs k st = some p → ∃ d, Chain b1 b2 d p
  | 0, _, _, h => by cases h
  | k + 1, ([], _), _, h => by cases h
  | k + 1, (n :: queue, visited), hq, h => by
    rw [bfsLoop] at h
    have hn : Queued b1 b2 visited n := hq n (List.mem_cons_self ..)
    have hrest : ∀ m ∈ queue, Queued b1 b2 visited m := fun m hm => hq m (List.mem_cons_of_mem _ hm)
    split at h
    · split at h
      · next s hs =>
        exact ⟨_, buildPath_chain hn (List.mem_range.mp (List.mem_of_find?_eq_some hs)) h⟩
      · split at h
        · exact bfsLoop_chain k _ hrest h
        · refine bfsLoop_chain k _ ?_ h
          exact bfsExpand_foldl_queued _ _ (fun s hs => List.mem_range.mp hs) hn hrest
    · cases h

/-- `bfs_find_path` returns a chain. -/
lemma bfsFindPath_chain {p : Path} (h : bfsFindPath g recs b1 b2 = some p) :
    ∃ d, Chain b1 b2 d p := by
  have hroot : ∀ (b : ℕ) (visited : List ℕ),
      b ∈ visited → (b = b1 ∨ b = b2) → Queued b1 b2 visited (.root b) :=
    fun b visited hb ho =>
      ⟨List.nodup_singleton b, by simpa [BfsNode.buckets] using hb, trivial, ho⟩
  rw [bfsFindPath] at h
  split at h
  · refine bfsLoop_chain _ _ ?_ h
    intro m hm
    rw [List.mem_singleton.mp hm]
    exact hroot b1 _ (List.mem_singleton_self _) (.inl rfl)
  · refine bfsLoop_chain _ _ ?_ h
    intro m hm
    rcases List.mem_cons.mp hm with rfl | hm
    · exact hroot b1 _ (List.mem_cons_self ..) (.inl rfl)
    · rw [List.mem_singleton.mp hm]
      exact hroot b2 _ (List.mem_cons_of_mem _ (List.mem_singleton_self _)) (.inr rfl)

/-! ## A commit is a sequence of moves -/

/-- One whole move of a commit. -/
def commitMove (recs : ℕ → HtcRecord) (g : Gen) (mw : Move × Word) : Gen :=
  commitRemap recs (commitCtrl recs (commitSlots recs g mw) mw) mw

/-- The end of a commit: the new entry is published. -/
def commitEntry (recs : ℕ → HtcRecord) (g : Gen) (ins : ℕ × ℕ) (idx : ℕ) : Gen :=
  g.enter (g.primary (recs idx).placementHash) ins (placedWord g recs idx ins.1)

/-- The three cases of the remap update of a move; which one applies depends on the number of
buckets. -/
lemma commitRemap_cases (recs : ℕ → HtcRecord) (n : ℕ) (x : Move × Word) :
    (∀ g : Gen,
      g.numBuckets = n →
      commitRemap recs g x = g.remapDec (g.primary (recs x.2.idx).placementHash)) ∨
    (∀ g : Gen, g.numBuckets = n → commitRemap recs g x =
      g.remapInc (g.primary (recs x.2.idx).placementHash) (tag16 (recs x.2.idx).placementHash)) ∨
    ∀ g : Gen, g.numBuckets = n → commitRemap recs g x = g := by
  by_cases h1 : (x.2.inSec && !(x.1.dst.1 != (recs x.2.idx).placementHash % n)) = true
  · left
    rintro g rfl
    exact if_pos h1
  · by_cases h2 : (!x.2.inSec && (x.1.dst.1 != (recs x.2.idx).placementHash % n)) = true
    · right; left
      rintro g rfl
      exact (if_neg h1).trans (if_pos h2)
    · right; right
      rintro g rfl
      exact (if_neg h1).trans (if_neg h2)

/-- Lowering a hint neither reads nor writes slots and control bytes. -/
lemma remapDec_frame (g : Gen) (b : ℕ) (slots : ℕ × ℕ → Option Word) (ctrl : ℕ × ℕ → ℕ) :
    Gen.remapDec { g with slots := slots, ctrl := ctrl } b =
      { g.remapDec b with slots := slots, ctrl := ctrl } := by
  simp only [Gen.remapDec]
  split <;> rfl

/-- Lowering a hint commutes with publishing a word. -/
lemma remapDec_put (g : Gen) (b : ℕ) (x : ℕ × ℕ) (w : Word) :
    (g.put x w).remapDec b = (g.remapDec b).put x w := by
  refine (remapDec_frame g b _ _).trans ?_
  rw [Gen.put, remapDec_slots, remapDec_ctrl]

/-- The remap updates neither read nor write slots and control bytes. -/
lemma commitRemap_frame (g : Gen) (x : Move × Word) (slots : ℕ × ℕ → Option Word)
    (ctrl : ℕ × ℕ → ℕ) :
    commitRemap recs { g with slots := slots, ctrl := ctrl } x =
      { commitRemap recs g x with slots := slots, ctrl := ctrl } := by
  rcases commitRemap_cases recs g.numBuckets x with h | h | h
  · rw [h g rfl]
    exact (h { g with slots := slots, ctrl := ctrl } rfl).trans (remapDec_frame ..)
  · rw [h g rfl]
    exact h { g with slots := slots, ctrl := ctrl } rfl
  · rw [h g rfl]
    exact h { g with slots := slots, ctrl := ctrl } rfl

/-- The remap updates of a move change remap hints only. -/
lemma commitRemap_eq (recs : ℕ → HtcRecord) (g : Gen) (x : Move × Word) :
    ∃ f n, commitRemap recs g x = { g with remapFilter := f, remapCount := n } := by
  rcases commitRemap_cases recs g.numBuckets x with h | h | h
  · rw [h g rfl, Gen.remapDec]
    split
    · exact ⟨g.remapFilter, g.remapCount, rfl⟩
    · exact ⟨g.remapFilter, _, rfl⟩
  · rw [h g rfl]
    exact ⟨_, _, rfl⟩
  · rw [h g rfl]
    exact ⟨g.remapFilter, g.remapCount, rfl⟩

/-- The remap updates commute with the writes of slots and control bytes. -/
lemma commitRemap_comm (g : Gen) (x y : Move × Word) :
    commitRemap recs (commitCtrl recs (commitSlots recs g y) y) x =
      commitCtrl recs (commitSlots recs (commitRemap recs g x) y) y := by
  obtain ⟨f, n, h⟩ := commitRemap_eq recs g x
  refine (commitRemap_frame g x _ _).trans ?_
  rw [h]
  rfl

/-- The remap updates commute with publishing a word. -/
lemma commitRemap_put (g : Gen) (x : Move × Word) (ins : ℕ × ℕ) (w : Word) :
    commitRemap recs (g.put ins w) x = (commitRemap recs g x).put ins w := by
  obtain ⟨f, n, h⟩ := commitRemap_eq recs g x
  refine (commitRemap_frame g x _ _).trans ?_
  rw [h]
  rfl

/-- The number of buckets stays. -/
lemma commitMove_numBuckets (g : Gen) (x : Move × Word) :
    (commitMove recs g x).numBuckets = g.numBuckets := by
  obtain ⟨f, n, h⟩ := commitRemap_eq recs (commitCtrl recs (commitSlots recs g x) x) x
  rw [commitMove, h]
  rfl

/-- The seed stays. -/
lemma commitMove_seed (g : Gen) (x : Move × Word) : (commitMove recs g x).seed = g.seed := by
  obtain ⟨f, n, h⟩ := commitRemap_eq recs (commitCtrl recs (commitSlots recs g x) x) x
  rw [commitMove, h]
  rfl

/-- The number of buckets stays over a whole path. -/
lemma commitMove_foldl_numBuckets :
    ∀ (ms : List (Move × Word)) (g : Gen), (ms.foldl (commitMove recs) g).numBuckets = g.numBuckets
  | [], _ => rfl
  | m :: ms, g => by rw [List.foldl_cons, commitMove_foldl_numBuckets ms, commitMove_numBuckets]

/-- `commit_path_locked` is its moves, one after the other, and then the new entry. -/
lemma commitPathLocked_eq (g : Gen) (p : Path) (src : List Word) (idx : ℕ) :
    commitPathLocked g recs p src idx =
      commitEntry recs ((p.moves.zip src).foldl (commitMove recs) g) p.ins idx := by
  have hfold : (p.moves.zip src).foldl (commitMove recs) g =
      (p.moves.zip src).foldl (commitRemap recs)
        ((p.moves.zip src).foldl (commitCtrl recs)
          ((p.moves.zip src).foldl (commitSlots recs) g)) := by
    have hsc : (p.moves.zip src).foldl (commitCtrl recs)
      ((p.moves.zip src).foldl (commitSlots recs) g) =
        (p.moves.zip src).foldl (fun g x => commitCtrl recs (commitSlots recs g x) x) g :=
      foldl_foldl_of_commute (fun _ _ _ => rfl) _ _
    rw [hsc, foldl_foldl_of_commute fun s x y => commitRemap_comm s x y]
    rfl
  have hctrl : ∀ (w : Word) (h : Gen),
      (p.moves.zip src).foldl (commitCtrl recs)
      { h with slots := Function.update h.slots p.ins (some w) } =
        { (p.moves.zip src).foldl (commitCtrl recs) h with
          slots := Function.update ((p.moves.zip src).foldl (commitCtrl recs) h).slots p.ins
            (some w) } :=
    fun w h => List.foldl_hom
      (fun h : Gen => { h with slots := Function.update h.slots p.ins (some w) })
      (fun _ _ => rfl)
  have hremap : ∀ (w : Word) (h : Gen),
      (p.moves.zip src).foldl (commitRemap recs) { h with
          slots := Function.update h.slots p.ins (some w)
          ctrl := Function.update h.ctrl p.ins (partial8 w.tag) } =
        ((p.moves.zip src).foldl (commitRemap recs) h).put p.ins w :=
    fun w h => List.foldl_hom (fun h : Gen => h.put p.ins w)
      (fun h x => commitRemap_put h x p.ins w)
  have hw : placedWord ((p.moves.zip src).foldl (commitMove recs) g) recs idx p.ins.1 =
      placedWord g recs idx p.ins.1 := by
    rw [placedWord, placedWord, Gen.primary, commitMove_foldl_numBuckets]
    rfl
  simp only [commitPathLocked, commitEntry, Gen.enter, hw, hctrl, hremap]
  rw [hfold]
  rfl

/-- The slots and control bytes of a move: the source is cleared and the destination published. -/
lemma commitCtrl_commitSlots {m : Move} (hne : m.src ≠ m.dst) :
    commitCtrl recs (commitSlots recs g (m, w)) (m, w) =
      (g.clear m.src).put m.dst (placedWord g recs w.idx m.dst.1) := by
  simp only [commitCtrl, commitSlots, Gen.put, Gen.clear]
  rw [Function.update_comm hne.symm, Function.update_comm hne.symm]
  rfl

/-! ## One move -/

variable {m : Move}

/-- A move changes remap hints besides its two slots. -/
lemma commitMove_eq (recs : ℕ → HtcRecord) (g : Gen) (w : Word) (hne : m.src ≠ m.dst) :
    ∃ f n, commitMove recs g (m, w) =
      { (g.clear m.src).put m.dst (placedWord g recs w.idx m.dst.1) with
        remapFilter := f, remapCount := n } := by
  rw [commitMove, commitCtrl_commitSlots hne]
  exact commitRemap_eq recs _ _

/-- The slots after a move. -/
lemma commitMove_slots (g : Gen) (hne : m.src ≠ m.dst) :
    (commitMove recs g (m, w)).slots =
      Function.update (Function.update g.slots m.src none) m.dst
        (some (placedWord g recs w.idx m.dst.1)) := by
  obtain ⟨f, n, h⟩ := commitMove_eq recs g w hne
  rw [h]
  rfl

/-- A word can be moved to an empty slot. -/
lemma Stored.move (hs : Stored c) (hw : c.gen.slots m.src = some w)
    (hd : c.gen.slots m.dst = none) :
    Stored { c with gen := commitMove c.recs c.gen (m, w) } ∧
      Core.live { c with gen := commitMove c.recs c.gen (m, w) } = c.live := by
  have hne : m.src ≠ m.dst := ne_of_some_of_none hw hd
  have hcl : Stored { c with gen := c.gen.clear m.src } :=
    hs.clear (p := .slot m.src) (.ofGen rfl rfl) (wordAt_setSlot rfl) hw hs.shards hs.stash
  have hr : Ready { c with gen := c.gen.clear m.src } w.idx :=
    hs.ready_of_clear (p := .slot m.src) (.ofGen rfl rfl) (wordAt_setSlot rfl) hw
  have hd' : (c.gen.clear m.src).slots m.dst = none := update_none_eq_none (.inr hd)
  have hj := hcl.putSlot (w := placedWord c.gen c.recs w.idx m.dst.1) hd' hr
    (commitMove_slots c.gen hne)
    (commitMove_numBuckets ..) (commitMove_seed ..)
  refine ⟨hj.stored, hj.live.trans ?_⟩
  rw [live_clear (p := .slot m.src) hs (wordAt_setSlot rfl) hw]
  change insert w.idx (c.live \ {w.idx}) = c.live
  rw [Set.insert_sdiff_singleton]
  exact Set.insert_eq_of_mem (mem_live (p := .slot m.src) hw)

/-- A move that `validate_path_locked` accepts. -/
structure Legal (c : Core) (m : Move) (w : Word) : Prop where
  word : c.gen.slots m.src = some w
  src : m.src.1 = c.gen.primary (c.recs w.idx).placementHash ∨
    m.src.1 = c.gen.secondary (c.recs w.idx).placementHash
  dst : m.dst.1 = c.gen.primary (c.recs w.idx).placementHash ∨
    m.dst.1 = c.gen.secondary (c.recs w.idx).placementHash
  ne : m.src.1 ≠ m.dst.1

/-- A record whose word was cleared can be placed again. -/
lemma Placed.filed_of_clear {c' : Core} {p : Place} (hs : Placed c) (hf : Frame c c')
    (hw : c'.wordAt = Function.update c.wordAt p none) (hp : c.wordAt p = some w) :
    Filed c' w.idx where
  toReady := hs.ready_of_clear hf hw hp
  keyed := by
    rw [hf.recs, hf.hashOf]
    exact hs.keyed _ (mem_live hp)

/-- The word of a record at a bucket, for a record that carries its hash. -/
lemma placedWord_eq (hk : (c.recs i).placementHash = c.hashOf i) (b : ℕ) :
    placedWord c.gen c.recs i b = { c.wordOf i with inSec := b != c.gen.primary (c.hashOf i) } := by
  simp only [placedWord, Core.wordOf, hk]

/-- A legal move is a leave and an enter. -/
lemma commitMove_eq_enter_leave (hs : Placed c) (hl : Legal c m w) (hd : c.gen.slots m.dst = none) :
    commitMove c.recs c.gen (m, w) =
        (c.gen.leave (c.gen.primary (c.hashOf w.idx)) m.src w).enter
        (c.gen.primary (c.hashOf w.idx)) m.dst
          { c.wordOf w.idx with inSec := m.dst.1 != c.gen.primary (c.hashOf w.idx) } ∧
      c.Seat (c.hashOf w.idx)
        { c.wordOf w.idx with inSec := m.dst.1 != c.gen.primary (c.hashOf w.idx) }
        (.slot (m.dst.1, 0)) := by
  have hph : (c.recs w.idx).placementHash = c.hashOf w.idx :=
    hs.keyed _ (mem_live (p := .slot m.src) hl.word)
  obtain ⟨-, hseat⟩ : c.Seat (c.hashOf w.idx) w (.slot m.src) := hs.seat (.slot m.src) w hl.word
  have hdst := hl.dst
  rw [hph] at hdst
  rw [commitMove, commitCtrl_commitSlots (ne_of_some_of_none hl.word hd), placedWord_eq hph]
  cases hsec : w.inSec with
  | true =>
    -- back to the primary bucket: the hint is lowered
    rw [hsec, if_pos rfl] at hseat
    have hp : m.dst.1 = c.gen.primary (c.hashOf w.idx) :=
      hdst.resolve_right fun h => hl.ne (hseat.1.trans h.symm)
    have hb : (m.dst.1 != c.gen.primary (c.hashOf w.idx)) = false := by rw [hp, bne_self_eq_false]
    refine ⟨?_, Nat.zero_lt_succ _, ?_⟩
    · have hcase : ∀ v, commitRemap c.recs ((c.gen.clear m.src).put m.dst v) (m, w) =
          ((c.gen.clear m.src).put m.dst v).remapDec (c.gen.primary (c.hashOf w.idx)) := by
        intro v
        rw [← hph]
        refine if_pos ?_
        change (w.inSec && !(m.dst.1 != c.gen.primary (c.recs w.idx).placementHash)) = true
        rw [hsec, hph, hb]
        rfl
      rw [hb, hcase, Gen.leave, if_pos hsec, Gen.enter, if_neg Bool.false_ne_true]
      exact remapDec_put ..
    · rw [if_neg (by rw [hb]; exact Bool.false_ne_true)]
      exact hp
  | false =>
    -- out to the secondary bucket: the hint is raised
    rw [hsec, if_neg Bool.false_ne_true] at hseat
    have hnp : m.dst.1 ≠ c.gen.primary (c.hashOf w.idx) := fun h => hl.ne (hseat.trans h.symm)
    have hb : (m.dst.1 != c.gen.primary (c.hashOf w.idx)) = true := bne_iff_ne.mpr hnp
    refine ⟨?_, Nat.zero_lt_succ _, ?_⟩
    · have hcase : ∀ v, commitRemap c.recs ((c.gen.clear m.src).put m.dst v) (m, w) =
          ((c.gen.clear m.src).put m.dst v).remapInc (c.gen.primary (c.hashOf w.idx))
          (tag16 (c.hashOf w.idx)) := by
        intro v
        rw [← hph]
        refine (if_neg ?_).trans (if_pos ?_)
        · change ¬ (w.inSec && _) = true
          rw [hsec]
          exact Bool.false_ne_true
        · change (!w.inSec && (m.dst.1 != c.gen.primary (c.recs w.idx).placementHash)) = true
          rw [hsec, hph, hb]
          rfl
      rw [hb, hcase, Gen.leave, if_neg (by rw [hsec]; exact Bool.false_ne_true), Gen.enter,
        if_pos rfl]
      rfl
    · rw [if_pos hb]
      exact ⟨hdst.resolve_left hnp, hnp⟩

/-- A legal move keeps words placed. -/
lemma Placed.move (hs : Placed c) (hl : Legal c m w) (hd : c.gen.slots m.dst = none)
    (hlt : m.dst.2 < bucketSlots) :
    Placed { c with gen := commitMove c.recs c.gen (m, w) } := by
  obtain ⟨hcommit, -, hseat⟩ := commitMove_eq_enter_leave hs hl hd
  have hf : Frame c { c with gen := c.gen.leave (c.gen.primary (c.hashOf w.idx)) m.src w } :=
    .ofGen leave_numBuckets leave_seed
  have hw : Core.wordAt { c with gen := c.gen.leave (c.gen.primary (c.hashOf w.idx)) m.src w } =
      Function.update c.wordAt (.slot m.src) none := wordAt_setSlot leave_slots
  have h1 := hs.clear hf hw hl.word hs.shards hs.stash (hs.hinted.leave hl.word)
  have hwel := hs.filed_of_clear hf hw hl.word
  have hd1 : (c.gen.leave (c.gen.primary (c.hashOf w.idx)) m.src w).slots m.dst = none := by
    rw [leave_slots]
    exact update_none_eq_none (.inr hd)
  have h2 := h1.enter (m.dst.1 != c.gen.primary (c.hashOf w.idx)) hwel hd1 (by
    rw [hf.hashOf, hf.seat, hf.wordOf]
    exact ⟨hlt, hseat⟩)
  rw [hf.hashOf, hf.wordOf, hf.primary] at h2
  rw [hcommit]
  exact h2

/-! ## A whole path -/

/-- A legal move stays legal while the moves before it are made. -/
lemma Legal.of_move {m' : Move} {w' : Word} (hl : Legal c m' w') (hne : m.src ≠ m.dst)
    (hs : m'.src ≠ m.src)
    (hd : m'.src ≠ m.dst) : Legal { c with gen := commitMove c.recs c.gen (m, w) } m' w' := by
  have hf : Frame c { c with gen := commitMove c.recs c.gen (m, w) } :=
    .ofGen (commitMove_numBuckets ..) (commitMove_seed ..)
  refine ⟨?_, ?_, ?_, hl.ne⟩
  · rw [commitMove_slots _ hne, Function.update_of_ne hd, Function.update_of_ne hs]
    exact hl.word
  · rw [hf.primary, hf.secondary]
    exact hl.src
  · rw [hf.primary, hf.secondary]
    exact hl.dst

/-- What every legal move to an empty slot keeps is kept by the moves of a path, and the slot for
the new entry is empty after them. -/
lemma moves_keep {I : Core → Prop}
    (hstep : ∀ (c : Core) (m : Move) (w : Word), I c → Legal c m w → c.gen.slots m.dst = none →
      m.dst.2 < bucketSlots → I { c with gen := commitMove c.recs c.gen (m, w) }) {ins : ℕ × ℕ} :
    ∀ (ms : List Move) (ws : List Word) (c : Core) (d : ℕ × ℕ),
      I c → c.gen.slots d = none → Linked d ms ins →
      (slotsOf d ms).Nodup → (∀ x ∈ slotsOf d ms, x.2 < bucketSlots) →
      List.Forall₂ (Legal c) ms ws →
      I { c with gen := (ms.zip ws).foldl (commitMove c.recs) c.gen } ∧
        ((ms.zip ws).foldl (commitMove c.recs) c.gen).slots ins = none
  | [], ws, c, d, hI, hd, hlink, _, _, _ => by
    have hi : ins = d := hlink
    rw [hi]
    exact ⟨hI, hd⟩
  | m :: ms, [], c, d, _, _, _, _, _, hall => by cases hall
  | m :: ms, w :: ws, c, d, hI, hd, hlink, hnd, hlt, hall => by
    obtain ⟨rfl, hlink⟩ := hlink
    obtain ⟨hl, hall⟩ := List.forall₂_cons.mp hall
    have hne : m.src ≠ m.dst := ne_of_some_of_none hl.word hd
    obtain ⟨hnot, hnd'⟩ := List.nodup_cons.mp hnd
    have hI' := hstep c m w hI hl hd (hlt _ (List.mem_cons_self ..))
    have hsrc : (commitMove c.recs c.gen (m, w)).slots m.src = none := by
      rw [commitMove_slots _ hne, Function.update_of_ne hne, Function.update_self]
    have hall' : List.Forall₂ (Legal { c with gen := commitMove c.recs c.gen (m, w) }) ms ws := by
      have hmem : ∀ m' ∈ ms, m'.src ≠ m.src ∧ m'.src ≠ m.dst := by
        intro m' hm'
        have h1 : m'.src ∈ ms.map Move.src := List.mem_map_of_mem hm'
        refine ⟨?_, ?_⟩
        · intro he
          rw [he] at h1
          exact (List.nodup_cons.mp hnd').1 h1
        · intro he
          rw [he] at h1
          exact hnot (List.mem_cons_of_mem _ h1)
      refine List.forall₂_iff_get.mpr ⟨hall.length_eq, fun k h1 h2 => ?_⟩
      have hk := (List.forall₂_iff_get.mp hall).2 k h1 h2
      obtain ⟨ha, hb⟩ := hmem _ (List.get_mem ms ⟨k, h1⟩)
      exact hk.of_move hne ha hb
    exact moves_keep hstep ms ws _ m.src hI' hsrc hlink hnd'
      (fun x hx => hlt x (List.mem_cons_of_mem _ hx)) hall'

/-- A list of results, one for each element. -/
lemma forall₂_of_mapM_eq_some {α β : Type*} {f : α → Option β} :
    ∀ {l : List α} {l' : List β}, l.mapM f = some l' → List.Forall₂ (fun a b => f a = some b) l l'
  | [], l', h => by
    rw [List.mapM_nil] at h
    cases h
    exact .nil
  | a :: l, l', h => by
    rw [List.mapM_cons] at h
    obtain ⟨b, hb, h⟩ := Option.bind_eq_some_iff.mp h
    obtain ⟨bs, hbs, h⟩ := Option.bind_eq_some_iff.mp h
    cases h
    exact .cons hb (forall₂_of_mapM_eq_some hbs)

/-- A slot that is neither end of a move keeps its word. -/
lemma commitMove_slots_of_ne (recs : ℕ → HtcRecord) (g : Gen) (mw : Move × Word) {x : ℕ × ℕ}
    (hs : x ≠ mw.1.src) (hd : x ≠ mw.1.dst) : (commitMove recs g mw).slots x = g.slots x := by
  obtain ⟨f, n, h⟩ := commitRemap_eq recs (commitCtrl recs (commitSlots recs g mw) mw) mw
  rw [commitMove, h]
  change Function.update (Function.update g.slots mw.1.dst _) mw.1.src none x = g.slots x
  rw [Function.update_of_ne hs, Function.update_of_ne hd]

/-- A slot that is no end of a move keeps its word. -/
lemma commitMove_foldl_slots_of_ne {x : ℕ × ℕ} :
    ∀ (ms : List (Move × Word)) (g : Gen), (∀ mw ∈ ms, x ≠ mw.1.src ∧ x ≠ mw.1.dst) →
      (ms.foldl (commitMove recs) g).slots x = g.slots x
  | [], _, _ => rfl
  | mw :: ms, g, h => by
    obtain ⟨hs, hd⟩ := h mw (List.mem_cons_self ..)
    rw [List.foldl_cons, commitMove_foldl_slots_of_ne ms _ fun mw' hm =>
      h mw' (List.mem_cons_of_mem _ hm), commitMove_slots_of_ne recs g mw hs hd]

/-- The destinations of a path are slots of the path. -/
lemma linked_dst_mem {ins : ℕ × ℕ} : ∀ {ms : List Move} {d : ℕ × ℕ}, Linked d ms ins → ∀ m ∈ ms,
    m.dst ∈ slotsOf d ms
  | m :: ms, d, h, n, hn => by
    rcases List.mem_cons.mp hn with rfl | hn
    · rw [h.1]
      exact List.mem_cons_self ..
    · exact List.mem_cons_of_mem _ (linked_dst_mem h.2 n hn)

/-- A commit keeps the words outside of the path. -/
lemma commitPathLocked_slots_of_notMem {b1 b2 : ℕ} {d x : ℕ × ℕ} {p : Path} (hch : Chain b1 b2 d p)
    (src : List Word) (idx : ℕ) (hx : x ∉ slotsOf d p.moves) :
    (commitPathLocked g recs p src idx).slots x = g.slots x := by
  have hins : x ≠ p.ins := by
    rintro rfl
    exact hx (linked_ins_mem hch.linked)
  rw [commitPathLocked_eq, commitEntry, enter_slots, Function.update_of_ne hins]
  refine commitMove_foldl_slots_of_ne _ _ fun mw hm => ⟨?_, ?_⟩
  · rintro rfl
    exact hx (List.mem_cons_of_mem _ (List.mem_map_of_mem (List.of_mem_zip hm).1))
  · rintro rfl
    exact hx (linked_dst_mem hch.linked mw.1 (List.of_mem_zip hm).1)

/-- `validate_path_locked` checks what a commit needs. -/
lemma validatePathLocked_some {b1 b2 : ℕ} {d : ℕ × ℕ} {p : Path} {src : List Word}
    (hch : Chain b1 b2 d p) (h : validatePathLocked c.gen c.recs p = some src) :
    c.gen.slots d = none ∧ List.Forall₂ (Legal c) p.moves src := by
  have hlink := hch.linked
  rw [validatePathLocked] at h
  split at h
  · next hm =>
    rw [hm] at hlink ⊢
    have hi : p.ins = d := hlink
    split at h
    · next hn =>
      cases h
      rw [← hi]
      exact ⟨Option.isNone_iff_eq_none.mp hn, .nil⟩
    · cases h
  · next m ms hm =>
    rw [hm] at hlink
    split at h
    · next hn =>
      rw [hlink.1] at hn
      refine ⟨Option.isNone_iff_eq_none.mp hn, (forall₂_of_mapM_eq_some h).imp ?_⟩
      intro m w hv
      simp only [validateMove] at hv
      split at hv
      · cases hv
      · next hw =>
        split at hv
        · next hc =>
          cases hv
          exact ⟨hw, hc.1, hc.2.1, hc.2.2⟩
        · cases hv
    · cases h

/-- A commit brings the record of the new entry into the table. -/
lemma Stored.commit {b1 b2 : ℕ} {d : ℕ × ℕ} {p : Path} {src : List Word} (hs : Stored c)
    (hr : Ready c i) (hch : Chain b1 b2 d p) (hv : validatePathLocked c.gen c.recs p = some src) :
    Joined c { c with gen := commitPathLocked c.gen c.recs p src i } i := by
  obtain ⟨hd, hall⟩ := validatePathLocked_some hch hv
  have hstep : ∀ (c' : Core) (m : Move) (w : Word),
    (Frame c c' ∧ Stored c' ∧ c'.live = c.live) → Legal c' m w →
      c'.gen.slots m.dst = none → m.dst.2 < bucketSlots →
      (Frame c { c' with gen := commitMove c'.recs c'.gen (m, w) } ∧
        Stored { c' with gen := commitMove c'.recs c'.gen (m, w) } ∧
        Core.live { c' with gen := commitMove c'.recs c'.gen (m, w) } = c.live) := by
    rintro c' m w ⟨hf, hs', hl⟩ hleg hdst -
    obtain ⟨h1, h2⟩ := hs'.move hleg.word hdst
    exact ⟨hf.trans (.ofGen (commitMove_numBuckets ..) (commitMove_seed ..)), h1, h2.trans hl⟩
  obtain ⟨⟨hf, hs', hl⟩, hins⟩ := moves_keep hstep p.moves src c d ⟨.refl c, hs, rfl⟩ hd hch.linked
    (List.Nodup.of_map _ hch.nodup) hch.lt hall
  have hr' : Ready { c with gen := (p.moves.zip src).foldl (commitMove c.recs) c.gen } i := by
    refine ⟨hr.lt, hr.notFree, ?_, hr.flags⟩
    rw [hl]
    exact hr.notLive
  rw [commitPathLocked_eq]
  have hj : Joined _
      { c with
        gen := commitEntry c.recs ((p.moves.zip src).foldl (commitMove c.recs) c.gen) p.ins i }
      i := hs'.putSlot
        (w := placedWord _ c.recs i p.ins.1) hins hr' enter_slots enter_numBuckets enter_seed
  refine ⟨hf.trans hj.frame, hj.stored, hj.live.trans ?_⟩
  rw [hl]

/-- A commit of a record that carries its hash keeps words placed. -/
lemma Placed.commit {d : ℕ × ℕ} {p : Path} {src : List Word} (hs : Placed c) (hw : Filed c i)
    (hch : Chain (c.gen.primary (c.hashOf i)) (c.gen.secondary (c.hashOf i)) d p)
    (hv : validatePathLocked c.gen c.recs p = some src) :
    Placed { c with gen := commitPathLocked c.gen c.recs p src i } := by
  obtain ⟨hd, hall⟩ := validatePathLocked_some hch hv
  have hstep : ∀ (c' : Core) (m : Move) (w : Word),
    (Frame c c' ∧ Placed c' ∧ c'.live = c.live) → Legal c' m w →
      c'.gen.slots m.dst = none → m.dst.2 < bucketSlots →
      (Frame c { c' with gen := commitMove c'.recs c'.gen (m, w) } ∧
        Placed { c' with gen := commitMove c'.recs c'.gen (m, w) } ∧
        Core.live { c' with gen := commitMove c'.recs c'.gen (m, w) } = c.live) := by
    rintro c' m w ⟨hf, hs', hl⟩ hleg hdst hlt
    exact ⟨hf.trans (.ofGen (commitMove_numBuckets ..) (commitMove_seed ..)),
      hs'.move hleg hdst hlt, (hs'.toStored.move hleg.word hdst).2.trans hl⟩
  have hnd : (slotsOf d p.moves).Nodup := List.Nodup.of_map _ hch.nodup
  obtain ⟨⟨hf, hs', hl⟩, hins⟩ :=
    moves_keep hstep p.moves src c d ⟨.refl c, hs, rfl⟩ hd hch.linked hnd hch.lt hall
  have hw' : Filed { c with gen := (p.moves.zip src).foldl (commitMove c.recs) c.gen } i := by
    refine ⟨⟨hw.lt, hw.notFree, ?_, hw.flags⟩, ?_⟩
    · rw [hl]
      exact hw.notLive
    · rw [hf.hashOf]
      exact hw.keyed
  have hlt : p.ins.2 < bucketSlots := hch.lt _ (linked_ins_mem hch.linked)
  have h := hs'.enter (p.ins.1 != c.gen.primary (c.hashOf i)) hw' hins (by
    rw [hf.hashOf, hf.seat]
    refine ⟨hlt, ?_⟩
    by_cases hp : p.ins.1 = c.gen.primary (c.hashOf i)
    · rw [if_neg (by simpa using hp)]
      exact hp
    · rw [if_pos (bne_iff_ne.mpr hp)]
      exact ⟨hch.ins.resolve_left hp, hp⟩)
  rw [commitPathLocked_eq, commitEntry, placedWord_eq (c := { c with gen := _ }) hw'.keyed]
  rw [hf.hashOf, hf.wordOf, hf.primary] at h ⊢
  rw [show (c.recs i).placementHash = c.hashOf i from hw.keyed, hf.primary]
  exact h

/-- A commit of a welcome record keeps a table settled. -/
lemma Settled.commit {d : ℕ × ℕ} {p : Path} {src : List Word} (hs : Settled c) (hw : Welcome c i)
    (hch : Chain (c.gen.primary (c.hashOf i)) (c.gen.secondary (c.hashOf i)) d p)
    (hv : validatePathLocked c.gen c.recs p = some src) :
    Settled { c with gen := commitPathLocked c.gen c.recs p src i } :=
  hs.joined hw (hs.toStored.commit hw.toReady hch hv) (hs.placed.commit hw.filed hch hv)

end Draugr.Htc
