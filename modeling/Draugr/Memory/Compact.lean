import Draugr.Memory.Runs
import Draugr.Memory.FirstFit

/-!
# Compaction and the owner of a block

`arena_free` offers a block to the segments in turn, and `arena_compact` flags every cold segment of
which more than half is in use. A flagged segment answers every `seg_free` with true and does
nothing, whatever the pointer. So a block is given back to its owner exactly when the owner comes
before all flagged segments, and one of the system allocator only where no segment is flagged
(`compacted_free_iff`).
-/

namespace Draugr.Memory
open Lib

/-- `compact_trigger`, as `arena_create` sets it. -/
def compactTrigger : ℕ := 50

/-- More than half of the segment is in use. -/
def Segment.crowded (s : Segment) : Bool := s.used * 100 > segSlots * compactTrigger

/-- The body of the loop in `epoch_gc_start`. -/
def Segment.mark (s : Segment) : Segment := if s.crowded then { s with flags := true } else s

/-- The loop of `epoch_gc_start` over the cold segments. -/
def Arena.mark (a : Arena) : Arena := { a with segs := fun j => (a.segs j).map Segment.mark }

/-- `arena_compact` with `ARENA_FREQ_COLD`. -/
def arenaCompact (w : Heap) (h : ℕ) : Heap :=
  match w.arena h with
  | none => w
  | some a => w.setArena h a.mark

/-- Some calls of `arena_compact` in a row. -/
def arenaCompacts (w : Heap) (h : ℕ) : ℕ → Heap
  | 0 => w
  | n + 1 => arenaCompact (arenaCompacts w h n) h

/-- `arena_free` puts the block into the thread cache. -/
def absorbed (w : Heap) (h : ℕ) (p : Ptr) (size : ℕ) : Bool :=
  match w.arena h with
  | none => false
  | some a => size ≤ 128 && a.enableThreadCache && (tcachePut w h p (sizeToSlabClass size)).1

/-- From arena `a` to `a'`, `arena_free` frees the cells of the block in the segment that contains
it, leaves the other segments as they are, and unmaps a block that lies in no segment. -/
structure OwnerFreed (w : Heap) (h : ℕ) (p : Ptr) (size : ℕ) (a a' : Arena) : Prop where
  arena : (arenaFree w h p size).arena h = some a'
  others : ∀ k ≠ h, (arenaFree w h p size).arena k = w.arena k
  owner : ∀ j g, a.segs j = some g → segContains g p → ∃ g', a'.segs j = some g' ∧
    g'.freeBitmap = setRun g.freeBitmap ((p.off - segHdrSize) / segGranularity)
    (slotsNeeded size) true
  frame : ∀ j g, a.segs j = some g → ¬ segContains g p → a'.segs j = some g
  carved : (∃ j g, a.segs j = some g ∧ segContains g p) → (arenaFree w h p size).maps = w.maps
  system : (¬ ∃ j g, a.segs j = some g ∧ segContains g p) →
    (arenaFree w h p size).maps = (w.munmap p.map).maps

/-- `arena_free` reaches the owner of the block. -/
def FreesOwner (w : Heap) (h : ℕ) (p : Ptr) (size : ℕ) : Prop :=
  ∃ a a', w.arena h = some a ∧ OwnerFreed w h p size a a'

/-- A call that allocates or releases memory of arena 0. -/
def Call.allocOrFree (call : Call) : Bool :=
  call.onOne && match call with
    | .clear _ => false
    | _ => true

variable {w : Heap} {a : Arena} {g g' : Segment} {p : Ptr} {b : Block} {c : Client}
  {calls : List Call} {h size start j m n : ℕ}

/-! ## Offering a block -/

/-- The segments are asked one after the other. -/
lemma segsFree_append (a : Arena) (p : Ptr) (size : ℕ) (js js' : List ℕ) :
    segsFree a p size (js ++ js') = (segsFree a p size js).or (segsFree a p size js') := by
  induction js with
  | nil => rfl
  | cons j js ih =>
    rw [List.cons_append, segsFree, segsFree]
    cases (a.segs j).bind (segFree · p size) with
    | none => exact ih
    | some s => rfl

/-- Either no segment takes a block, or the first one that does gets it. -/
lemma segsFree_range (a : Arena) (p : Ptr) (size m : ℕ) :
    ((∀ j < m, (a.segs j).bind (segFree · p size) = none) ∧
      segsFree a p size (List.range m) = none) ∨
    ∃ j < m, ∃ s, (∀ i < j, (a.segs i).bind (segFree · p size) = none) ∧
      (a.segs j).bind (segFree · p size) = some s ∧
      segsFree a p size (List.range m) = some (a.setSeg j s) := by
  induction m with
  | zero => exact .inl ⟨fun j hj => absurd hj (Nat.not_lt_zero j), rfl⟩
  | succ m ih =>
    rw [List.range_succ, segsFree_append]
    rcases ih with ⟨hnone, heq⟩ | ⟨j, hj, s, hbefore, hat, heq⟩
    · rw [heq, Option.none_or, segsFree]
      cases hm : (a.segs m).bind (segFree · p size) with
      | none =>
        refine .inl ⟨fun j hj => ?_, rfl⟩
        rcases Nat.lt_succ_iff_lt_or_eq.mp hj with hlt | rfl
        · exact hnone j hlt
        · exact hm
      | some s => exact .inr ⟨m, Nat.lt_succ_self m, s, hnone, hm, rfl⟩
    · rw [heq, Option.some_or]
      exact .inr ⟨j, Nat.lt_succ_of_lt hj, s, hbefore, hat, rfl⟩

/-- A flagged segment accepts every block and changes nothing. -/
lemma segFree_flagged (hf : g.flags = true) : segFree g p size = some g := by
  unfold segFree
  rw [if_pos hf]

/-- Without a flag, a segment accepts the blocks of its mapping alone. -/
lemma segFree_map (hflags : g.flags = false) (h : segFree g p size = some g') : p.map = g.map := by
  by_contra hne
  rw [segFree_none hflags hne] at h
  cases h

/-- What is known of the place of a block. It lies in taken cells of the segment with its mapping,
or is all of a mapping of the system allocator. -/
structure Holds (w : Heap) (a : Arena) (p : Ptr) (size : ℕ) : Prop where
  slab : ∀ sc, ∀ s ∈ a.slabs sc, s.map ≠ p.map
  bound : ∀ j g, a.segs j = some g → j < coldSegsPerClass * slabClasses
  place : ∀ j g, a.segs j = some g → p.map = g.map → ∃ start < segSlots, p = g.ptr start ∧
    start + slotsNeeded size ≤ segSlots ∧ g.freeBitmap start = false
  pos : 0 < slotsNeeded size
  system : (∀ j g, a.segs j = some g → p.map ≠ g.map) →
    p.off = 0 ∧ ∃ m, w.maps[p.map]? = some m ∧ m.live = true

/-- For a block, to lie in the mapping of a segment is to lie in the segment. -/
lemma Holds.contains_iff (hp : Holds w a p size) (hg : a.segs j = some g) :
    segContains g p ↔ p.map = g.map := by
  refine ⟨fun h => h.1, fun hmap => ⟨hmap, ?_⟩⟩
  obtain ⟨start, hlt, hptr, -, -⟩ := hp.place j g hg hmap
  have hslots : segSlots = 1021 := rfl
  rw [hptr]
  show segHdrSize + start * segGranularity < segSize
  unfold segHdrSize segGranularity segSize
  omega

/-- The owner of a block accepts it. -/
lemma Holds.accepted (hp : Holds w a p size) (hg : a.segs j = some g) (hmap : p.map = g.map) :
    (a.segs j).bind (segFree · p size) ≠ none := by
  obtain ⟨start, hlt, hptr, hfit, -⟩ := hp.place j g hg hmap
  rw [hg, Option.bind_some]
  cases hflags : g.flags with
  | true =>
    rw [segFree_flagged hflags]
    exact Option.some_ne_none _
  | false =>
    rw [hptr, segFree_ptr hflags hlt hfit]
    exact Option.some_ne_none _

/-- No slab accepts a block. -/
lemma Holds.slabsFree (hp : Holds w a p size) (scs : List ℕ) : Memory.slabsFree a p scs = none := by
  induction scs with
  | nil => rfl
  | cons sc scs ih =>
    rw [Memory.slabsFree, slabSetFree_none (hp.slab sc)]
    exact ih

/-- What `arena_free` does to a block that the thread cache does not take. -/
lemma arenaFree_eq (hp : Holds w a p size) (ha : w.arena h = some a) (hsize : size ≤ 4096)
    (habs : absorbed w h p size = false) : ∃ w₁, w₁.arenas = w.arenas ∧ w₁.maps = w.maps ∧
      arenaFree w h p size =
        match segsFree a p size (List.range (coldSegsPerClass * slabClasses)) with
        | some a => w₁.setArena h a
        | none => sysFree w₁ p := by
  have hrelease : ∀ w₁ : Heap, arenaRelease w₁ h a p size =
      match segsFree a p size (List.range (coldSegsPerClass * slabClasses)) with
      | some a => w₁.setArena h a
      | none => sysFree w₁ p := by
    intro w₁
    unfold arenaRelease
    dsimp only
    have hsmall : (if size ≤ 128 then Memory.slabsFree a p (sizeToSlabClass size ::
        (List.range slabClasses).filter (· ≠ sizeToSlabClass size)) else none) = none := by
      rw [hp.slabsFree, ite_self]
    rewrite [hsmall, Option.none_or, if_pos hsize]
    rfl
  unfold arenaFree
  unfold absorbed at habs
  rw [ha] at habs ⊢
  dsimp only at habs ⊢
  split
  · rename_i hsmall
    have hput : (tcachePut w h p (sizeToSlabClass size)).1 = false := by
      simpa [hsmall.1, hsmall.2] using habs
    obtain ⟨h1, h2, -⟩ := tcacheGet_fields w
    rcases tcachePut_cases w h p (sizeToSlabClass size) with hc | hc
    · rw [hc]
      exact ⟨_, h1, h2, hrelease _⟩
    · rw [hc] at hput
      cases hput
  · exact ⟨w, rfl, rfl, hrelease w⟩

/-! ## Flags and owners -/

/-- Every flagged segment comes after the owner of the block. -/
def OwnerFirst (a : Arena) (p : Ptr) : Prop :=
  ∀ i g, a.segs i = some g → g.flags = true → ∃ j < i, ∃ g', a.segs j = some g' ∧ p.map = g'.map

/-- The cells of a block are freed in its segment. -/
lemma Holds.freed (hp : Holds w a p size) (ha : w.arena h = some a)
    (hone : ∀ i j g g', a.segs i = some g → a.segs j = some g' → g.map = g'.map → i = j)
    {w₁ : Heap} (harenas : w₁.arenas = w.arenas) (hmaps : w₁.maps = w.maps)
    (hg : a.segs j = some g) (hmap : p.map = g.map) (hs : segFree g p size = some g')
    (hflags : g.flags = false) (hfree : arenaFree w h p size = w₁.setArena h (a.setSeg j g')) :
    OwnerFreed w h p size a (a.setSeg j g') := by
  have ha₁ : w₁.arena h = some a := by
    unfold Heap.arena at *
    rwa [harenas]
  obtain ⟨start, hlt, hptr, hfit, -⟩ := hp.place j g hg hmap
  rw [hptr, segFree_ptr hflags hlt hfit] at hs
  have hbits := (Segment.with_fields (Option.some.inj hs).symm).2.2.1
  refine ⟨hfree ▸ Heap.arena_setArena_self ha₁ _, fun k hk => ?_, fun i g₁ hg₁ hc => ?_,
    fun i g₁ hg₁ hc => ?_, fun _ => hfree ▸ hmaps, fun hno => ?_⟩
  · rw [hfree, Heap.arena_setArena ha₁, if_neg hk]
    unfold Heap.arena
    rw [harenas]
  · have hij := hone i j g₁ g hg₁ hg (hc.1.symm.trans hmap)
    subst hij
    rw [hg] at hg₁
    cases hg₁
    refine ⟨g', Arena.setSeg_self .., ?_⟩
    have hstart := g.start_ptr start size
    unfold SegBlock.start at hstart
    rw [hbits, hptr, hstart]
  · have hij : i ≠ j := by
      rintro rfl
      rw [hg] at hg₁
      cases hg₁
      exact hc ((hp.contains_iff hg).mpr hmap)
    rw [Arena.setSeg_ne _ _ hij, hg₁]
  · exact absurd ⟨j, g, hg, (hp.contains_iff hg).mpr hmap⟩ hno

/-- A block that no segment accepts is unmapped. -/
lemma Holds.unmapped (hp : Holds w a p size) (ha : w.arena h = some a) {w₁ : Heap}
    (harenas : w₁.arenas = w.arenas) (hmaps : w₁.maps = w.maps)
    (hno : ∀ j g, a.segs j = some g → p.map ≠ g.map) (hfree : arenaFree w h p size = sysFree w₁ p) :
    OwnerFreed w h p size a a := by
  have hsys : sysFree w₁ p = w₁.munmap p.map := by
    unfold sysFree
    rw [if_pos (hp.system hno).1]
  have harena : ∀ k, (w₁.munmap p.map).arena k = w.arena k := by
    intro k
    unfold Heap.arena Heap.munmap
    rw [harenas]
  rw [hsys] at hfree
  refine ⟨by rw [hfree, harena, ha], fun k _ => by rw [hfree, harena],
    fun j g hg hc => absurd hc.1 (hno j g hg), fun j g hg _ => hg, fun ⟨j, g, hg, hc⟩ =>
    absurd hc.1 (hno j g hg), fun _ => ?_⟩
  rw [hfree]
  unfold Heap.munmap
  rw [hmaps]

/-- A block that another segment accepts is not freed. -/
lemma Holds.not_freed (hp : Holds w a p size) (ha : w.arena h = some a)
    (hfree : (arenaFree w h p size).arena h = some a)
    (hmaps : (arenaFree w h p size).maps = w.maps) :
    ¬ FreesOwner w h p size := by
  rintro ⟨a₀, a', ha₀, hr⟩
  rw [ha] at ha₀
  cases ha₀
  have haa := hfree.symm.trans hr.arena
  cases haa
  by_cases hown : ∃ j g, a.segs j = some g ∧ p.map = g.map
  · obtain ⟨j, g, hg, hmap⟩ := hown
    obtain ⟨start, hlt, hptr, hfit, htaken⟩ := hp.place j g hg hmap
    obtain ⟨g', hg', hbits⟩ := hr.owner j g hg ((hp.contains_iff hg).mpr hmap)
    rw [hg] at hg'
    cases hg'
    have hstart := g.start_ptr start size
    unfold SegBlock.start at hstart
    have hbit := congrFun hbits start
    rw [hptr, hstart, setRun, if_pos ⟨le_rfl, Nat.lt_add_of_pos_right hp.pos⟩, htaken] at hbit
    cases hbit
  · have hno : ∀ j g, a.segs j = some g → p.map ≠ g.map := fun j g hg hmap => hown ⟨j, g, hg, hmap⟩
    obtain ⟨-, m, hm, hlive⟩ := hp.system hno
    have hun := hr.system (by
      rintro ⟨j, g, hg, hc⟩
      exact hno j g hg hc.1)
    rw [hmaps] at hun
    have hget := congrArg (·[p.map]?) hun
    simp only [Heap.munmap, List.getElem?_modify_eq, hm, Option.map_eq_map, Option.map_some,
      Option.some.injEq] at hget
    rw [hget] at hlive
    cases hlive

/-- A block reaches its owner exactly when all flagged segments come after it. -/
lemma Holds.frees_iff (hp : Holds w a p size) (ha : w.arena h = some a)
    (hone : ∀ i j g g', a.segs i = some g → a.segs j = some g' → g.map = g'.map → i = j)
    (hsize : size ≤ 4096) (habs : absorbed w h p size = false) :
    FreesOwner w h p size ↔ OwnerFirst a p := by
  obtain ⟨w₁, harenas, hmaps, hfree⟩ := arenaFree_eq hp ha hsize habs
  have ha₁ : w₁.arena h = some a := by
    unfold Heap.arena at *
    rwa [harenas]
  rcases segsFree_range a p size (coldSegsPerClass * slabClasses) with
    ⟨hnone, hr⟩ | ⟨k, hk, s, hbefore, hat, hr⟩
  · rw [hr] at hfree
    have hno : ∀ j g, a.segs j = some g → p.map ≠ g.map :=
      fun j g hg hmap => hp.accepted hg hmap (hnone j (hp.bound j g hg))
    refine ⟨fun _ i g hg hflags => ?_, fun _ => ⟨a, a, ha, hp.unmapped ha harenas hmaps hno hfree⟩⟩
    have htaken := hnone i (hp.bound i g hg)
    rw [hg, Option.bind_some, segFree_flagged hflags] at htaken
    cases htaken
  · rw [hr] at hfree
    obtain ⟨g, hg, hs⟩ := Option.bind_eq_some_iff.mp hat
    -- an owner before the segment that takes the block would have taken it
    have hfirst : ∀ j < k, ∀ g', a.segs j = some g' → p.map ≠ g'.map :=
      fun j hj g' hg' hmap => hp.accepted hg' hmap (hbefore j hj)
    cases hflags : g.flags with
    | true =>
      rw [segFree_flagged hflags] at hs
      cases hs
      have hself : a.setSeg k s = a := by
        unfold Arena.setSeg
        rw [← hg, Function.update_eq_self]
      rw [hself] at hfree
      have hstay := hp.not_freed ha (hfree ▸ Heap.arena_setArena_self ha₁ a) (hfree ▸ hmaps)
      refine ⟨fun h => absurd h hstay, fun hfirst' => ?_⟩
      obtain ⟨j, hj, g', hg', hmap⟩ := hfirst' k _ hg hflags
      exact absurd hmap (hfirst j hj g' hg')
    | false =>
      have hmap := segFree_map hflags hs
      refine ⟨fun _ i g' hg' hflags' => ?_, fun _ =>
        ⟨a, _, ha, hp.freed ha hone harenas hmaps hg hmap hs hflags hfree⟩⟩
      refine ⟨k, ?_, g, hg, hmap⟩
      rcases Nat.lt_trichotomy k i with hlt | rfl | hlt
      · exact hlt
      · rw [hg] at hg'
        cases hg'
        rw [hflags] at hflags'
        cases hflags'
      · have htaken := hbefore i hlt
        rw [hg', Option.bind_some, segFree_flagged hflags'] at htaken
        cases htaken

/-! ## Compaction -/

/-- Compacting a segment changes its flag only. -/
lemma Segment.mark_fields (g : Segment) : g.mark.map = g.map ∧ g.mark.freeBitmap = g.freeBitmap ∧
    g.mark.flags = (g.flags || g.crowded) := by
  unfold Segment.mark
  split
  · rename_i hc
    rw [hc, Bool.or_true]
    exact ⟨rfl, rfl, rfl⟩
  · rename_i hc
    rw [Bool.not_eq_true] at hc
    rw [hc, Bool.or_false]
    exact ⟨rfl, rfl, rfl⟩

/-- The second compaction flags no more segments. -/
lemma Segment.mark_mark (g : Segment) : g.mark.mark = g.mark := by
  cases hc : g.crowded with
  | true =>
    have hmark : g.mark = { g with flags := true } := if_pos hc
    have hc' : (⟨g.map, g.control, g.freeBitmap, true⟩ : Segment).crowded = true := hc
    rw [hmark, Segment.mark, if_pos hc']
  | false =>
    have hmark : g.mark = g := if_neg (by rw [hc]; exact Bool.false_ne_true)
    rw [hmark, hmark]

/-- The arena after some compactions. -/
def Arena.marked (a : Arena) : ℕ → Arena
  | 0 => a
  | n + 1 => (a.marked n).mark

/-- The arena after some compactions. -/
lemma arenaCompacts_arena (ha : w.arena h = some a) (n : ℕ) :
    (arenaCompacts w h n).arena h = some (a.marked n) := by
  induction n with
  | zero => exact ha
  | succ n ih =>
    rw [arenaCompacts, arenaCompact, ih]
    exact Heap.arena_setArena_self ih _

/-- Compactions unmap nothing. -/
lemma arenaCompacts_maps (w : Heap) (h n : ℕ) : (arenaCompacts w h n).maps = w.maps := by
  induction n with
  | zero => rfl
  | succ n ih =>
    rw [arenaCompacts, arenaCompact]
    split
    · exact ih
    · exact ih

/-- Compactions leave the slabs. -/
lemma Arena.marked_slabs (a : Arena) (n : ℕ) : (a.marked n).slabs = a.slabs := by
  induction n with
  | zero => rfl
  | succ n ih => exact ih

/-- The segments after one compaction more. -/
lemma Arena.marked_segs (a : Arena) (n j : ℕ) :
    (a.marked (n + 1)).segs j = (a.segs j).map Segment.mark := by
  induction n with
  | zero => rfl
  | succ n ih =>
    show ((a.marked (n + 1)).segs j).map Segment.mark = _
    rw [ih, Option.map_map]
    congr 1
    funext g
    exact g.mark_mark

/-- Compactions keep the mapping and the bitmap of a segment. -/
lemma Arena.marked_seg (h : (a.marked n).segs j = some g') :
    ∃ g, a.segs j = some g ∧ g'.map = g.map ∧ g'.freeBitmap = g.freeBitmap := by
  cases n with
  | zero => exact ⟨g', h, rfl, rfl⟩
  | succ n =>
    rw [Arena.marked_segs] at h
    obtain ⟨g, hg, rfl⟩ := Option.map_eq_some_iff.mp h
    exact ⟨g, hg, g.mark_fields.1, g.mark_fields.2.1⟩

/-- Compactions keep the segments and their mappings. -/
lemma Arena.marked_some (hg : a.segs j = some g) (n : ℕ) :
    ∃ g', (a.marked n).segs j = some g' ∧ g'.map = g.map := by
  cases n with
  | zero => exact ⟨g, hg, rfl⟩
  | succ n =>
    rw [Arena.marked_segs, hg]
    exact ⟨_, rfl, g.mark_fields.1⟩

/-- A block keeps its place. -/
lemma Holds.marked (hp : Holds w a p size) (h n : ℕ) :
    Holds (arenaCompacts w h n) (a.marked n) p size := by
  refine ⟨?_, fun j g hg => ?_, fun j g hg hmap => ?_, hp.pos, fun hno => ?_⟩
  · rw [Arena.marked_slabs]
    exact hp.slab
  · obtain ⟨g₀, hg₀, -⟩ := Arena.marked_seg hg
    exact hp.bound j g₀ hg₀
  · obtain ⟨g₀, hg₀, h1, h2⟩ := Arena.marked_seg hg
    obtain ⟨start, h3, h4, h5, h6⟩ := hp.place j g₀ hg₀ (hmap.trans h1)
    exact ⟨start, h3, h4.trans (Segment.ptr_congr h1 start), h5, h2 ▸ h6⟩
  · rw [arenaCompacts_maps]
    refine hp.system fun j g hg hmap => ?_
    obtain ⟨g', hg', h1⟩ := Arena.marked_some hg n
    exact hno j g' hg' (hmap.trans h1.symm)

/-- The segments that are flagged after a compaction are the crowded ones. -/
lemma ownerFirst_marked (hflags : ∀ j g, a.segs j = some g → g.flags = false) (p : Ptr) (n : ℕ) :
    OwnerFirst (a.marked n) p ↔ n = 0 ∨ ∀ i g, a.segs i = some g → g.crowded = true →
      ∃ j < i, ∃ g', a.segs j = some g' ∧ p.map = g'.map := by
  have hpast : ∀ i, (∃ j < i, ∃ g', (a.marked n).segs j = some g' ∧ p.map = g'.map) ↔
      ∃ j < i, ∃ g', a.segs j = some g' ∧ p.map = g'.map := by
    refine fun i => ⟨fun ⟨j, hj, g', hg', hm⟩ => ?_, fun ⟨j, hj, g', hg', hm⟩ => ?_⟩
    · obtain ⟨g, hg, h1, -⟩ := Arena.marked_seg hg'
      exact ⟨j, hj, g, hg, hm.trans h1⟩
    · obtain ⟨g, hg, h1⟩ := Arena.marked_some hg' n
      exact ⟨j, hj, g, hg, hm.trans h1.symm⟩
  unfold OwnerFirst
  simp only [hpast]
  cases n with
  | zero =>
    refine ⟨fun _ => .inl rfl, fun _ i g hg hf => ?_⟩
    rw [hflags i g hg] at hf
    cases hf
  | succ n =>
    simp only [Nat.succ_ne_zero, false_or]
    refine ⟨fun h i g hg hc => ?_, fun h i g' hg' hf => ?_⟩
    · refine h i g.mark (by rw [Arena.marked_segs, hg]; rfl) ?_
      rw [g.mark_fields.2.2, hc, Bool.or_true]
    · rw [Arena.marked_segs] at hg'
      obtain ⟨g, hg, rfl⟩ := Option.map_eq_some_iff.mp hg'
      rw [g.mark_fields.2.2, hflags i g hg, Bool.false_or] at hf
      exact h i g hg hf

/-! ## Runs -/

/-- The place of a block of the caller. -/
lemma Sound.holdsBlock (hS : Sound c) (hb : b ∈ c.live) (ha : c.heap.arena b.arena = some a)
    (hsize : b.size ≤ 4096) : Holds c.heap a b.ptr b.size := by
  have hplaced := hS.placed b.held
    (List.mem_append_left _ (List.mem_append_left _ (List.mem_map_of_mem hb)))
  have hcells : slotsNeeded b.size = cells b.size := slotsNeeded_eq (by omega)
  have hseg : ∀ j g, a.segs j = some g → c.heap.Maps g.map b.arena .segment :=
    fun j g hg => (hS.shape.seg ha hg).2.1
  refine ⟨fun sc s hs hmap => ?_, fun j g hg => (hS.shape.seg ha hg).2.2, fun j g hg hmap => ?_,
    hcells ▸ hplaced.1, fun hno => ?_⟩
  · have hslab := (hS.shape.slab ha hs).2
    rw [hmap] at hslab
    rcases hplaced.maps hS.shape with hm | hm
    · cases (hslab.unique hm).2
    · cases (hslab.unique hm).2
  · rcases hplaced.2 with ⟨a₀, i, g₀, start, h1, h2, h3, h4, h5⟩ | hsys
    · rw [show b.held.arena = b.arena from rfl, ha] at h1
      cases h1
      have h3' : b.ptr = g₀.ptr start := h3
      have hij := hS.shape.inj ha hg h2 (hmap.symm.trans (congrArg Ptr.map h3'))
      subst hij
      rw [hg] at h2
      cases h2
      have hpos := hplaced.1
      exact ⟨start, by omega, h3', hcells ▸ h4, h5 start le_rfl (by omega)⟩
    · have hm := hseg j g hg
      rw [← hmap] at hm
      cases (hm.unique hsys.1).2
  · rcases hplaced.2 with ⟨a₀, i, g₀, start, h1, h2, h3, -, -⟩ | hsys
    · rw [show b.held.arena = b.arena from rfl, ha] at h1
      cases h1
      exact absurd (congrArg Ptr.map h3) (hno i g₀ h2)
    · exact ⟨hsys.2, _, hsys.1, rfl⟩

/-- A run that allocates and releases on one arena. -/
lemma runCalls_allocOrFree (hS : Sound c) (hone : c.heap.arenas.length = 1)
    (hcalls : ∀ call ∈ calls, call.allocOrFree = true) {c' : Client}
    (hr : runCalls c calls = some c') : Sound c' ∧ c'.heap.arenas.length = 1 := by
  refine runCalls_keeps (I := fun c => Sound c ∧ c.heap.arenas.length = 1) ?_ ⟨hS, hone⟩ hcalls
    (callsPass_of_forall fun _ _ => rfl) hr
  intro c call r c' hc hcall _ hrun
  unfold Call.allocOrFree at hcall
  rw [Bool.and_eq_true] at hcall
  have hclean : call.clearsClean c = true := by
    cases call with
    | clear h => cases hcall.2
    | _ => rfl
  obtain ⟨hS', hlen⟩ := Call.run_sound hc.1 hclean (hc.1.takesOwn hc.2 hcall.1) hrun
  exact ⟨hS', (hlen hcall.1).trans hc.2⟩

/-- A block of at most 4096 bytes after any run of allocations and releases and `n` compactions. -/
lemma Sound.compacted_frees_iff (hS : Sound c) (hone : c.heap.arenas.length = 1)
    (ha : c.heap.arena 0 = some a) (hb : b ∈ c.live) (hsize : b.size ≤ 4096)
    (habs : absorbed (arenaCompacts c.heap 0 n) 0 b.ptr b.size = false) :
    FreesOwner (arenaCompacts c.heap 0 n) 0 b.ptr b.size ↔
      n = 0 ∨ ∀ i g, a.segs i = some g → g.crowded = true →
        ∃ j < i, ∃ g', a.segs j = some g' ∧ b.ptr.map = g'.map := by
  have hplaced := hS.placed b.held
    (List.mem_append_left _ (List.mem_append_left _ (List.mem_map_of_mem hb)))
  have hzero : b.arena = 0 := by
    have hlt : b.arena < c.heap.arenas.length := hplaced.arena_lt hS.shape
    omega
  have hp := (hS.holdsBlock hb (hzero ▸ ha) hsize).marked 0 n
  rw [hp.frees_iff (arenaCompacts_arena ha n) (fun i j g g' hg hg' hmap => ?_) hsize habs]
  · exact ownerFirst_marked (fun j g hg => (hS.shape.seg ha hg).1) b.ptr n
  · obtain ⟨g₁, hg₁, h1, -⟩ := Arena.marked_seg hg
    obtain ⟨g₂, hg₂, h2, -⟩ := Arena.marked_seg hg'
    exact hS.shape.inj ha hg₁ hg₂ (h1.symm.trans (hmap.trans h2))

/-- In every run of allocations and releases on one arena, followed by `n` compactions: `arena_free`
of a block of at most 4096 bytes that the thread cache does not take reaches the owner exactly when
there was no compaction or every segment of which more than half is in use comes after the owner. -/
theorem compacted_free_iff (mem : List Bool) (calls : List Call)
    (hcalls : ∀ call ∈ calls, call.allocOrFree = true) {c : Client}
    (hr : runCalls (oneArena mem) calls = some c) {a : Arena} (ha : c.heap.arena 0 = some a) (n : ℕ)
    {b : Block} (hb : b ∈ c.live) (hsize : b.size ≤ 4096)
    (habs : absorbed (arenaCompacts c.heap 0 n) 0 b.ptr b.size = false) :
    FreesOwner (arenaCompacts c.heap 0 n) 0 b.ptr b.size ↔
      n = 0 ∨ ∀ i g, a.segs i = some g → g.crowded = true →
        ∃ j < i, ∃ g', a.segs j = some g' ∧ b.ptr.map = g'.map := by
  obtain ⟨hS, hone⟩ := runCalls_allocOrFree (oneArena_sound mem) (oneArena_length mem) hcalls hr
  exact hS.compacted_frees_iff hone ha hb hsize habs

/-- Fifteen blocks fill the segment `28` and nine go to the segment `29`; then twelve of the segment
`28` are freed. -/
def spilledCalls : List Call :=
  List.replicate 24 (.alloc 0 4096) ++ (List.range 12).map fun k =>
    .free 0 ⟨28, 152 + 4096 * k⟩ 4096

/-- A block of a segment in front of a crowded one, freed after two compactions. -/
theorem compacted_free_spilled :
    ∃ c a g, runCalls (oneArena []) spilledCalls = some c ∧ c.heap.arena 0 = some a ∧
    a.segs 29 = some g ∧ g.crowded = true ∧
    FreesOwner (arenaCompacts c.heap 0 2) 0 ⟨28, 57496⟩ 4096 := by
  have hrun : (runCalls (oneArena []) spilledCalls).map (fun c =>
      (decide ((⟨0, ⟨28, 57496⟩, 4096⟩ : Block) ∈ c.live),
        absorbed (arenaCompacts c.heap 0 2) 0 ⟨28, 57496⟩ 4096,
        (c.heap.arena 0).map fun a => decide ((∀ i < coldSegsPerClass * slabClasses, i ≠ 29 →
          (a.segs i).all fun g => !g.crowded) ∧ (a.segs 28).map Segment.map = some 28 ∧
            (a.segs 29).map Segment.crowded = some true))) =
              some (true, false, some true) := by decide +kernel
  obtain ⟨c, hr, hval⟩ := Option.map_eq_some_iff.mp hrun
  simp only [Prod.mk.injEq, decide_eq_true_eq] at hval
  obtain ⟨hb, habs, hsegs⟩ := hval
  obtain ⟨a, ha, hsegs⟩ := Option.map_eq_some_iff.mp hsegs
  obtain ⟨hcalm, hfront, hlast⟩ := of_decide_eq_true hsegs
  obtain ⟨g₁, hg₁, hmap⟩ := Option.map_eq_some_iff.mp hfront
  obtain ⟨g₂, hg₂, hcrowded⟩ := Option.map_eq_some_iff.mp hlast
  have hfrees := compacted_free_iff [] spilledCalls (by decide) hr ha 2 hb (by decide) habs
  refine ⟨c, a, g₂, hr, ha, hg₂, hcrowded, hfrees.mpr (.inr fun i g hg hc => ?_)⟩
  obtain ⟨hS, -⟩ := runCalls_allocOrFree (oneArena_sound []) (oneArena_length []) (by decide) hr
  by_cases hi : i = 29
  · exact ⟨28, by omega, g₁, hg₁, hmap.symm⟩
  · have hroom := hcalm i (hS.shape.seg ha hg).2.2 hi
    rw [hg, Option.all_some, hc] at hroom
    cases hroom

/-- Eight blocks of 4096 bytes fill more than half of a segment. -/
def crowdingCalls : List Call := List.replicate 8 (.alloc 0 4096)

/-- A block of the crowded segment is freed after a compaction: its first cell stays taken. -/
theorem compacted_free_fails : (∀ call ∈ crowdingCalls, call.allocOrFree = true) ∧
    ∃ c, runCalls (oneArena []) crowdingCalls = some c ∧ (⟨0, ⟨28, 152⟩, 4096⟩ : Block) ∈ c.live ∧
      absorbed (arenaCompacts c.heap 0 1) 0 ⟨28, 152⟩ 4096 = false ∧
      ¬ FreesOwner (arenaCompacts c.heap 0 1) 0 ⟨28, 152⟩ 4096 := by
  refine ⟨by decide, ?_⟩
  have hrun : (runCalls (oneArena []) crowdingCalls).map (fun c =>
      (decide ((⟨0, ⟨28, 152⟩, 4096⟩ : Block) ∈ c.live),
        absorbed (arenaCompacts c.heap 0 1) 0 ⟨28, 152⟩ 4096,
        ((arenaCompacts c.heap 0 1).arena 0).bind fun a => (a.segs 28).map Segment.map,
        ((arenaFree (arenaCompacts c.heap 0 1) 0 ⟨28, 152⟩ 4096).arena 0).bind fun a =>
          (a.segs 28).map fun g => g.freeBitmap 0)) =
      some (true, false, some 28, some false) := by decide +kernel
  obtain ⟨c, hr, hval⟩ := Option.map_eq_some_iff.mp hrun
  simp only [Prod.mk.injEq, decide_eq_true_eq] at hval
  obtain ⟨hb, habs, hmap, hbit⟩ := hval
  refine ⟨c, hr, hb, habs, ?_⟩
  rintro ⟨a, a', ha, hfreed⟩
  rw [ha, Option.bind_some] at hmap
  obtain ⟨g, hg, hmap⟩ := Option.map_eq_some_iff.mp hmap
  obtain ⟨g', hg', hbits⟩ := hfreed.owner 28 g hg ⟨hmap.symm, by decide⟩
  have hin : (152 - segHdrSize) / segGranularity ≤ 0 ∧
      0 < (152 - segHdrSize) / segGranularity + slotsNeeded 4096 := by decide
  rw [hfreed.arena, Option.bind_some, hg', Option.map_some, hbits, setRun, if_pos hin] at hbit
  cases hbit

end Draugr.Memory
