import Draugr.Memory.Parts

/-!
# Blocks that are spoken for

A block is held by the caller, by the deferred list of an arena or by the thread cache. `Inv w out`
says that the heap is well shaped, that the held blocks (`out` and those of the cache) do not
overlap, and that each of them is `Placed`: its cells are taken in a segment of the arena it belongs
to, or it is a block of the system allocator that this arena asked for.

The lemmas of this module are the ways in which a block changes hands.
-/

namespace Draugr.Memory
open Lib

/-- A held block: the arena it belongs to, its address and its length in cells. -/
structure Held where
  arena : ℕ
  ptr : Ptr
  cells : ℕ

/-- The memory of a held block, in bytes. -/
def Held.extent (b : Held) : Extent := ⟨b.ptr.map, b.ptr.off, segGranularity * b.cells⟩

/-- A block of the caller as a held block. -/
def Block.held (b : Block) : Held := ⟨b.arena, b.ptr, cells b.size⟩

/-- The blocks of a bin of the thread cache. -/
def Heap.binHeld (w : Heap) (sc : ℕ) : List Held :=
  (w.bins sc).map fun e => ⟨e.2, e.1, cells (slabSizes.getD sc 0)⟩

/-- The blocks of the thread cache. -/
def Heap.cachedHeld (w : Heap) : List Held := (List.range slabClasses).flatMap w.binHeld

/-- The mapping belongs to the arena, is used in this way and is mapped. -/
def Heap.Maps (w : Heap) (map h : ℕ) (use : MapUse) : Prop := w.maps[map]? = some ⟨h, use, true⟩

/-- The slabs and segments of every arena are what they are in a run: slabs are blank, and each slab
and segment has a mapping of its own. Mappings belong to arenas. -/
structure Heap.Shape (w : Heap) : Prop where
  slab : ∀ {h a sc s}, w.arena h = some a → s ∈ a.slabs sc → s.Blank ∧ w.Maps s.map h .slab
  seg : ∀ {h a j g}, w.arena h = some a → a.segs j = some g →
    g.flags = false ∧ w.Maps g.map h .segment ∧ j < coldSegsPerClass * slabClasses
  inj : ∀ {h a j j' g g'}, w.arena h = some a → a.segs j = some g → a.segs j' = some g' →
    g.map = g'.map → j = j'
  owner : ∀ m ∈ w.maps, m.owner < w.arenas.length

/-- The block consists of taken cells of a segment of its arena. -/
def Heap.InSeg (w : Heap) (b : Held) : Prop :=
  ∃ a j g start, w.arena b.arena = some a ∧ a.segs j = some g ∧ b.ptr = g.ptr start ∧
    start + b.cells ≤ segSlots ∧ Filled g.freeBitmap start b.cells

/-- The block is one of the system allocator, which its arena asked for. -/
def Heap.InSys (w : Heap) (b : Held) : Prop :=
  w.Maps b.ptr.map b.arena .system ∧ b.ptr.off = 0

/-- The block is not empty and has its place. -/
def Heap.Placed (w : Heap) (b : Held) : Prop := 0 < b.cells ∧ (w.InSeg b ∨ w.InSys b)

/-- The held blocks do not overlap and have their places. -/
structure Inv (w : Heap) (out : List Held) : Prop where
  shape : w.Shape
  apart : AllApart ((out ++ w.cachedHeld).map Held.extent)
  placed : ∀ b ∈ out ++ w.cachedHeld, w.Placed b

variable {w w' : Heap} {out out' : List Held} {b b' : Held} {a a' : Arena} {g : Segment}
  {h k j map start n : ℕ} {use : MapUse} {p : Ptr}

/-! ## The parts of a heap -/

/-- The handle of an arena is below their number. -/
lemma Heap.arena_lt (ha : w.arena h = some a) : h < w.arenas.length := by
  have hx := Option.join_eq_some_iff.mp ha
  exact (List.getElem?_eq_some_iff.mp hx).1

/-- The arenas after one was written. -/
lemma Heap.arena_setArena (ha : w.arena h = some a) (a' : Arena) (k : ℕ) :
    (w.setArena h a').arena k = if k = h then some a' else w.arena k := by
  unfold Heap.setArena Heap.arena
  split
  · rename_i hk
    rw [hk, List.getElem?_set_self (Heap.arena_lt ha)]
    rfl
  · rename_i hk
    rw [List.getElem?_set_ne (Ne.symm hk)]

/-- The arena that was written. -/
lemma Heap.arena_setArena_self (ha : w.arena h = some a) (a' : Arena) :
    (w.setArena h a').arena h = some a' := by rw [Heap.arena_setArena ha, if_pos rfl]

/-- The segment that was written. -/
lemma Arena.setSeg_self (a : Arena) (j : ℕ) (g : Segment) : (a.setSeg j g).segs j = some g :=
  Function.update_self ..

/-- The other segments stay. -/
lemma Arena.setSeg_ne (a : Arena) (g : Segment) (hk : k ≠ j) : (a.setSeg j g).segs k = a.segs k :=
  Function.update_of_ne hk ..

/-- The slabs that were written. -/
lemma Arena.setSlabs_self (a : Arena) (j : ℕ) (ss : List Slab) : (a.setSlabs j ss).slabs j = ss :=
  Function.update_self ..

/-- The slabs of the other classes stay. -/
lemma Arena.setSlabs_ne (a : Arena) (ss : List Slab) (hk : k ≠ j) :
    (a.setSlabs j ss).slabs k = a.slabs k := Function.update_of_ne hk ..

/-- The held blocks of the cache depend on its bins only. -/
lemma Heap.cachedHeld_congr (hb : w'.bins = w.bins) : w'.cachedHeld = w.cachedHeld := by
  unfold Heap.cachedHeld Heap.binHeld
  rw [hb]

/-- An empty thread cache holds nothing. -/
lemma Heap.cachedHeld_nil (hb : w.bins = fun _ => []) : w.cachedHeld = [] := by
  unfold Heap.cachedHeld Heap.binHeld
  rw [hb]
  exact List.flatMap_eq_nil_iff.mpr fun _ _ => rfl

/-- A bin stands for itself among the blocks of the cache. -/
lemma Heap.cachedHeld_split (w : Heap) {sc : ℕ} (hsc : sc < slabClasses) : ∃ rest, ∀ bin,
    (w.setBin sc bin).cachedHeld.Perm
      (bin.map (fun e => ⟨e.2, e.1, cells (slabSizes.getD sc 0)⟩) ++ rest) := by
  obtain ⟨rest, hrest⟩ := range_flatMap_split w.binHeld hsc
  refine ⟨rest, fun bin => ?_⟩
  have hperm := hrest (w.setBin sc bin).binHeld fun i hi => by
    show ((Function.update w.bins sc bin) i).map _ = _
    rw [Function.update_of_ne hi]
    rfl
  have hself : (w.setBin sc bin).binHeld sc =
      bin.map (fun e => ⟨e.2, e.1, cells (slabSizes.getD sc 0)⟩) := by
    show ((Function.update w.bins sc bin) sc).map _ = _
    rw [Function.update_self]
  rwa [hself] at hperm

/-- Writing a bin back changes nothing. -/
lemma Heap.setBin_self (w : Heap) (sc : ℕ) : w.setBin sc (w.bins sc) = w := by
  unfold Heap.setBin
  rw [Function.update_eq_self]

/-! ## Where a block lies -/

/-- The mapping of a placed block belongs to its arena, and is none of a slab. -/
lemma Heap.Placed.maps (hs : w.Shape) (hb : w.Placed b) :
    w.Maps b.ptr.map b.arena .segment ∨ w.Maps b.ptr.map b.arena .system := by
  rcases hb.2 with ⟨a, j, g, start, ha, hg, hp, -, -⟩ | hsys
  · rw [hp]
    exact .inl (hs.seg ha hg).2.1
  · exact .inr hsys.1

/-- A mapping has one arena and one use. -/
lemma Heap.Maps.unique {h' : ℕ} {use' : MapUse} (hm : w.Maps map h use) (hm' : w.Maps map h' use') :
    h = h' ∧ use = use' := by
  have heq := Option.some.inj (hm.symm.trans hm')
  cases heq
  exact ⟨rfl, rfl⟩

/-- A mapping has a number below the next one. -/
lemma Heap.Maps.lt (hm : w.Maps map h use) : map < w.maps.length :=
  (List.getElem?_eq_some_iff.mp hm).1

/-- A placed block belongs to an arena that was created. -/
lemma Heap.Placed.arena_lt (hb : w.Placed b) (hs : w.Shape) : b.arena < w.arenas.length := by
  rcases hb.maps hs with hm | hm
  · exact hs.owner _ (List.mem_of_getElem? hm)
  · exact hs.owner _ (List.mem_of_getElem? hm)

/-! ## What the invariant reads -/

/-- A heap with other outcomes of allocations, or more mappings. -/
lemma Inv.congr (hI : Inv w out) (ha : w'.arenas = w.arenas)
    (hm : ∀ {map h use}, w.Maps map h use → w'.Maps map h use)
    (ho : ∀ m ∈ w'.maps, m ∈ w.maps ∨ m.owner < w.arenas.length) (hb : w'.bins = w.bins) :
    Inv w' out := by
  have harena : w'.arena = w.arena := by
    funext k
    unfold Heap.arena
    rw [ha]
  refine ⟨⟨?_, ?_, ?_, ?_⟩, ?_, ?_⟩
  · intro h a sc s h1 h2
    rw [harena] at h1
    obtain ⟨h3, h4⟩ := hI.shape.slab h1 h2
    exact ⟨h3, hm h4⟩
  · intro h a j g h1 h2
    rw [harena] at h1
    obtain ⟨h3, h4, h5⟩ := hI.shape.seg h1 h2
    exact ⟨h3, hm h4, h5⟩
  · intro h a j j' g g' h1
    rw [harena] at h1
    exact hI.shape.inj h1
  · intro m hmem
    rw [ha]
    exact (ho m hmem).elim (hI.shape.owner m) id
  · rw [Heap.cachedHeld_congr hb]
    exact hI.apart
  · intro b hmem
    rw [Heap.cachedHeld_congr hb] at hmem
    obtain ⟨hpos, hplace⟩ := hI.placed b hmem
    refine ⟨hpos, hplace.imp ?_ fun hs => ⟨hm hs.1, hs.2⟩⟩
    unfold Heap.InSeg
    rw [harena]
    exact id

/-- The held blocks in another order. -/
lemma Inv.perm (hI : Inv w out) (hp : out.Perm out') : Inv w out' :=
  ⟨hI.shape, hI.apart.perm ((hp.append_right _).map _),
    fun b hb => hI.placed b (((hp.append_right _).mem_iff).mpr hb)⟩

/-- Fewer blocks are held. -/
lemma Inv.sublist (hI : Inv w out) (hs : out'.Sublist out) : Inv w out' := by
  have hsub := hs.append_right w.cachedHeld
  exact ⟨hI.shape, List.Pairwise.sublist (hsub.map _) hI.apart,
    fun b hb => hI.placed b (hsub.subset hb)⟩

/-- One block fewer to account for. -/
lemma Inv.tail (hI : Inv w (b :: out)) : Inv w out := hI.sublist (List.sublist_cons_self _ _)

/-- The first block is apart from the others. -/
lemma Inv.head_apart (hI : Inv w (b :: out)) (hb' : b' ∈ out ++ w.cachedHeld) :
    b.extent.Apart b'.extent :=
  (List.pairwise_cons.mp hI.apart).1 _ (List.mem_map_of_mem hb')

/-- The first block is placed. -/
lemma Inv.head_placed (hI : Inv w (b :: out)) : w.Placed b := hI.placed b List.mem_cons_self

/-- A block is added. -/
lemma Inv.cons (hI : Inv w out) (hb : w.Placed b)
    (hapart : ∀ b' ∈ out ++ w.cachedHeld, b.extent.Apart b'.extent) : Inv w (b :: out) := by
  refine ⟨hI.shape, List.pairwise_cons.mpr ⟨?_, hI.apart⟩, ?_⟩
  · intro e he
    obtain ⟨b', hb', rfl⟩ := List.mem_map.mp he
    exact hapart b' hb'
  · intro b' hb'
    rcases List.mem_cons.mp hb' with rfl | hb'
    · exact hb
    · exact hI.placed b' hb'

/-! ## The thread cache -/

/-- A block goes from a bin of the thread cache to its taker. -/
lemma Inv.pop {sc : ℕ} {bin : List (Ptr × ℕ)} (hI : Inv w out) (hsc : sc < slabClasses)
    (hbin : w.bins sc = (p, h) :: bin) :
    Inv (w.setBin sc bin) (⟨h, p, cells (slabSizes.getD sc 0)⟩ :: out) := by
  obtain ⟨rest, hrest⟩ := w.cachedHeld_split hsc
  have hold := hrest (w.bins sc)
  rw [Heap.setBin_self, hbin] at hold
  have hperm : (out ++ w.cachedHeld).Perm
      (⟨h, p, cells (slabSizes.getD sc 0)⟩ :: out ++ (w.setBin sc bin).cachedHeld) := by
    refine (hold.append_left out).trans ?_
    rw [List.map_cons, List.cons_append, List.cons_append]
    exact List.perm_middle.trans (((hrest bin).symm.append_left out).cons _)
  exact ⟨⟨hI.shape.slab, hI.shape.seg, hI.shape.inj, hI.shape.owner⟩, hI.apart.perm (hperm.map _),
    fun b hb => hI.placed b (hperm.mem_iff.mpr hb)⟩

/-- A block goes to a bin of the thread cache. -/
lemma Inv.push {sc : ℕ} (hsc : sc < slabClasses)
    (hI : Inv w (⟨h, p, cells (slabSizes.getD sc 0)⟩ :: out)) :
    Inv (w.setBin sc ((p, h) :: w.bins sc)) out := by
  obtain ⟨rest, hrest⟩ := w.cachedHeld_split hsc
  have hold := hrest (w.bins sc)
  rw [Heap.setBin_self] at hold
  have hperm : (⟨h, p, cells (slabSizes.getD sc 0)⟩ :: out ++ w.cachedHeld).Perm
      (out ++ (w.setBin sc ((p, h) :: w.bins sc)).cachedHeld) := by
    refine ((hold.append_left out).cons _).trans ?_
    refine List.Perm.trans ?_ ((hrest ((p, h) :: w.bins sc)).symm.append_left out)
    rw [List.map_cons, List.cons_append]
    exact List.perm_middle.symm
  exact ⟨⟨hI.shape.slab, hI.shape.seg, hI.shape.inj, hI.shape.owner⟩, hI.apart.perm (hperm.map _),
    fun b hb => hI.placed b (hperm.mem_iff.mpr hb)⟩

/-! ## Slabs and segments -/

/-- An arena is rewritten: its slabs are blank, its segments keep their mappings, and the held
blocks of the arena are taken as before. -/
lemma Inv.setArena (hI : Inv w out) (ha : w.arena h = some a)
    (hslab : ∀ {sc s}, s ∈ a'.slabs sc → s.Blank ∧ w.Maps s.map h .slab)
    (hseg : ∀ {j g'}, a'.segs j = some g' →
      ∃ g, a.segs j = some g ∧ g'.map = g.map ∧ g'.flags = false)
    (hfilled : ∀ b ∈ out ++ w.cachedHeld, b.arena = h → ∀ {j g start}, a.segs j = some g →
      b.ptr = g.ptr start → Filled g.freeBitmap start b.cells →
      ∃ g', a'.segs j = some g' ∧ g'.map = g.map ∧ Filled g'.freeBitmap start b.cells) :
    Inv (w.setArena h a') out := by
  have harena : ∀ {k a₀}, (w.setArena h a').arena k = some a₀ →
      (k = h ∧ a₀ = a') ∨ (k ≠ h ∧ w.arena k = some a₀) := by
    intro k a₀ hk
    rw [Heap.arena_setArena ha] at hk
    split at hk
    · cases hk
      exact .inl ⟨‹_›, rfl⟩
    · exact .inr ⟨‹_›, hk⟩
  refine ⟨⟨?_, ?_, ?_, ?_⟩, hI.apart, ?_⟩
  · intro k a₀ sc s hk hs
    rcases harena hk with ⟨rfl, rfl⟩ | ⟨-, hk⟩
    · exact hslab hs
    · exact hI.shape.slab hk hs
  · intro k a₀ i g' hk hg'
    rcases harena hk with ⟨rfl, rfl⟩ | ⟨-, hk⟩
    · obtain ⟨g, h0, hmap, hflags⟩ := hseg hg'
      obtain ⟨-, h2, h3⟩ := hI.shape.seg ha h0
      exact ⟨hflags, hmap ▸ h2, h3⟩
    · exact hI.shape.seg hk hg'
  · intro k a₀ i i' g₁ g₂ hk h1 h2 hmap
    rcases harena hk with ⟨rfl, rfl⟩ | ⟨-, hk⟩
    · obtain ⟨g₀, h0, hm, -⟩ := hseg h1
      obtain ⟨g₀', h0', hm', -⟩ := hseg h2
      exact hI.shape.inj ha h0 h0' (hm.symm.trans (hmap.trans hm'))
    · exact hI.shape.inj hk h1 h2 hmap
  · intro m hmem
    rw [show (w.setArena h a').arenas.length = w.arenas.length from List.length_set]
    exact hI.shape.owner m hmem
  · intro b hb
    obtain ⟨hpos, hplace⟩ := hI.placed b hb
    refine ⟨hpos, hplace.imp ?_ id⟩
    rintro ⟨a₀, i, g, s, h1, h2, h3, h4, h5⟩
    by_cases hk : b.arena = h
    · rw [hk, ha] at h1
      cases h1
      obtain ⟨g', h6, h7, h8⟩ := hfilled b hb hk h2 h3 h5
      refine ⟨a', i, g', s, ?_, h6, ?_, h4, h8⟩
      · rw [hk]
        exact Heap.arena_setArena_self ha a'
      · rw [h3, Segment.ptr, Segment.ptr, h7]
    · refine ⟨a₀, i, g, s, ?_, h2, h3, h4, h5⟩
      rw [Heap.arena_setArena ha, if_neg hk, h1]

/-- Slabs that are blank take the place of a slab set. -/
lemma Inv.setSlabs {sc : ℕ} {ss : List Slab} (hI : Inv w out) (ha : w.arena h = some a)
    (hs : ∀ s ∈ ss, s.Blank ∧ w.Maps s.map h .slab) :
    Inv (w.setArena h (a.setSlabs sc ss)) out := by
  refine hI.setArena ha ?_ ?_ fun b _ _ j g start hg _ hf => ⟨g, hg, rfl, hf⟩
  · intro i s hmem
    by_cases hi : i = sc
    · subst hi
      rw [Arena.setSlabs_self] at hmem
      exact hs s hmem
    · rw [Arena.setSlabs_ne _ _ hi] at hmem
      exact hI.shape.slab ha hmem
  · intro j g hg
    exact ⟨g, hg, rfl, (hI.shape.seg ha hg).1⟩

/-- The deferred list is rewritten. -/
lemma Inv.setDeferred (hI : Inv w out) (ha : w.arena h = some a) (d : List (Ptr × ℕ)) :
    Inv (w.setArena h { a with deferred := d }) out :=
  hI.setArena ha (fun hs => hI.shape.slab ha hs) (fun hg => ⟨_, hg, rfl, (hI.shape.seg ha hg).1⟩)
    fun _ _ _ _ _ _ hg _ hf => ⟨_, hg, rfl, hf⟩

/-- A segment with another bitmap, in which the held blocks are taken as before. -/
lemma Inv.setSeg (hI : Inv w out) (ha : w.arena h = some a) (hg : a.segs j = some g)
    {free : ℕ → Bool} (c : ℕ) (hfree : ∀ b ∈ out ++ w.cachedHeld, ∀ s, b.ptr = g.ptr s →
      Filled g.freeBitmap s b.cells → Filled free s b.cells) :
    Inv (w.setArena h (a.setSeg j { g with freeBitmap := free, control := c })) out := by
  refine hI.setArena ha (fun hs => hI.shape.slab ha hs) ?_ ?_
  · intro i g' hg'
    by_cases hi : i = j
    · subst hi
      rw [Arena.setSeg_self] at hg'
      cases hg'
      exact ⟨g, hg, rfl, (hI.shape.seg ha hg).1⟩
    · rw [Arena.setSeg_ne _ _ hi] at hg'
      exact ⟨g', hg', rfl, (hI.shape.seg ha hg').1⟩
  · intro b hb _ i g' start hg' hp hf
    by_cases hi : i = j
    · subst hi
      rw [hg] at hg'
      cases hg'
      exact ⟨_, Arena.setSeg_self .., rfl, hfree b hb start hp hf⟩
    · exact ⟨g', by rw [Arena.setSeg_ne _ _ hi, hg'], rfl, hf⟩

/-- The cells of a segment in bytes. -/
lemma Segment.apart_iff {s s' n n' : ℕ} (g : Segment) {h h' : ℕ} :
    (Held.extent ⟨h, g.ptr s, n⟩).Apart (Held.extent ⟨h', g.ptr s', n'⟩) ↔
      s + n ≤ s' ∨ s' + n' ≤ s := by
  unfold Extent.Apart Held.extent Segment.ptr segGranularity
  simp only [ne_eq, not_true_eq_false, false_or]
  omega

/-- A run of free cells becomes a block. -/
lemma Inv.take (hI : Inv w out) (ha : w.arena h = some a) (hg : a.segs j = some g) (hn : 0 < n)
    (hv : Vacant g.freeBitmap start n) (hfit : start + n ≤ segSlots) (c : ℕ) :
    Inv (w.setArena h (a.setSeg j
        { g with freeBitmap := setRun g.freeBitmap start n false, control := c }))
      (⟨h, g.ptr start, n⟩ :: out) := by
  refine (hI.setSeg ha hg c fun b _ s _ hf => hf.take).cons ⟨hn, .inl ?_⟩ ?_
  · exact ⟨_, j, { g with freeBitmap := setRun g.freeBitmap start n false, control := c }, start,
      Heap.arena_setArena_self ha _, Arena.setSeg_self .., rfl, hfit, filled_setRun⟩
  · intro b hb
    obtain ⟨hpos, hplace⟩ := hI.placed b hb
    rcases hplace with ⟨a₀, i, g₀, s, h1, h2, h3, h4, h5⟩ | hsys
    · by_cases hmap : g.map = g₀.map
      · have hown := (hI.shape.seg ha hg).2.1
        rw [hmap] at hown
        have hk := (hown.unique (hI.shape.seg h1 h2).2.1).1
        subst hk
        rw [ha] at h1
        cases h1
        have hij := hI.shape.inj ha hg h2 hmap
        subst hij
        rw [hg] at h2
        cases h2
        have := (@Segment.apart_iff _ _ _ _ g b.arena b.arena).mpr (hv.apart h5 hn hpos)
        rwa [← h3] at this
      · refine .inl ?_
        show g.map ≠ b.ptr.map
        rw [h3]
        exact hmap
    · refine .inl fun hmap => ?_
      have hown := (hI.shape.seg ha hg).2.1
      rw [show g.map = b.ptr.map from hmap] at hown
      cases (hown.unique hsys.1).2

/-- The cells of a block are freed. -/
lemma Inv.give (hI : Inv w (⟨h, g.ptr start, n⟩ :: out)) (ha : w.arena h = some a)
    (hg : a.segs j = some g) (c : ℕ) :
    Inv (w.setArena h (a.setSeg j
      { g with freeBitmap := setRun g.freeBitmap start n true, control := c })) out := by
  refine hI.tail.setSeg ha hg c fun b hb s hs hf => ?_
  refine hf.give ?_
  have hapart := (hI.head_apart hb).symm
  obtain ⟨k, ptr, m⟩ := b
  simp only at hs
  subst hs
  exact g.apart_iff.mp hapart

/-! ## Mappings -/

/-- A further mapping leaves the others. -/
lemma Heap.maps_append (w : Heap) (m : Mapping) (hm : w.Maps map h use) :
    Heap.Maps { w with maps := w.maps ++ [m] } map h use := by
  unfold Heap.Maps
  rw [List.getElem?_append_left hm.lt]
  exact hm

/-- A new mapping. -/
lemma Inv.mmap (hI : Inv w out) {m : Mapping} (hm : m.owner < w.arenas.length) :
    Inv { w with maps := w.maps ++ [m] } out := by
  refine hI.congr rfl (fun h => w.maps_append m h) (fun m' hm' => ?_) rfl
  rcases List.mem_append.mp hm' with hm' | hm'
  · exact .inl hm'
  · rw [List.mem_singleton.mp hm']
    exact .inr hm

/-- A new block of the system allocator. -/
lemma Inv.system (hI : Inv w out) (hn : 0 < n) (hh : h < w.arenas.length) :
    Inv { w with maps := w.maps ++ [⟨h, .system, true⟩] } (⟨h, ⟨w.maps.length, 0⟩, n⟩ :: out) := by
  refine (hI.mmap (m := ⟨h, .system, true⟩) hh).cons ⟨hn, .inr ⟨?_, rfl⟩⟩ ?_
  · show (w.maps ++ [_])[w.maps.length]? = _
    rw [List.getElem?_concat_length]
  · intro b hb
    refine .inl fun hmap => ?_
    have hlt : b.ptr.map < w.maps.length := by
      rcases (hI.placed b hb).maps hI.shape with hm | hm
      · exact hm.lt
      · exact hm.lt
    exact absurd hmap.symm (Nat.ne_of_lt hlt)

/-- An unmapped region leaves the others. -/
lemma Heap.maps_munmap (hne : map ≠ k) : (w.munmap k).Maps map h use ↔ w.Maps map h use := by
  unfold Heap.Maps Heap.munmap
  rw [List.getElem?_modify]
  simp only [if_neg (Ne.symm hne), Option.map_eq_map, Option.map_id']

/-- Unmapping a region keeps the owners. -/
lemma Heap.owner_munmap (ho : ∀ m ∈ w.maps, m.owner < n) : ∀ m ∈ (w.munmap map).maps,
    m.owner < n := by
  intro m hm
  obtain ⟨i, hi⟩ := List.mem_iff_getElem?.mp hm
  unfold Heap.munmap at hi
  rw [List.getElem?_modify] at hi
  obtain ⟨m₀, h0, rfl⟩ := Option.map_eq_some_iff.mp hi
  have hlt := ho m₀ (List.mem_of_getElem? h0)
  split
  · exact hlt
  · exact hlt

/-- A block of the system allocator is given back. -/
lemma Inv.unmap (hI : Inv w (b :: out)) (hsys : w.InSys b) : Inv (w.munmap b.ptr.map) out := by
  have hother : ∀ {map k use}, w.Maps map k use → use ≠ .system → map ≠ b.ptr.map := by
    intro map k use hm hu hmap
    subst hmap
    exact hu (hm.unique hsys.1).2
  refine ⟨⟨?_, ?_, hI.shape.inj, Heap.owner_munmap hI.shape.owner⟩, hI.tail.apart, ?_⟩
  · intro h a sc s h1 h2
    obtain ⟨h3, h4⟩ := hI.shape.slab h1 h2
    exact ⟨h3, (Heap.maps_munmap (hother h4 (by decide))).mpr h4⟩
  · intro h a j g h1 h2
    obtain ⟨h3, h4, h5⟩ := hI.shape.seg h1 h2
    exact ⟨h3, (Heap.maps_munmap (hother h4 (by decide))).mpr h4, h5⟩
  · intro b' hb'
    obtain ⟨hpos, hplace⟩ := hI.tail.placed b' hb'
    refine ⟨hpos, hplace.imp id fun hs => ⟨(Heap.maps_munmap ?_).mpr hs.1, hs.2⟩⟩
    -- two blocks at the start of one mapping would overlap
    intro hmap
    have hapart := hI.head_apart hb'
    have hb := hI.head_placed.1
    have h0 := hsys.2
    have h0' := hs.2
    unfold Extent.Apart Held.extent segGranularity at hapart
    simp only at hapart
    rcases hapart with hne | hle | hle
    · exact hne hmap.symm
    · omega
    · omega

end Draugr.Memory
