import Mathlib.Data.Int.Basic
import Mathlib.Logic.Function.Basic
import Draugr.Lib.Extents

/-!
# The arena allocator

Model of `src/arena.c`: slabs, cold segments with a bitmap of 64-byte cells, the thread cache, the
list of deferred frees and the system allocator, for any number of arenas that one thread uses.

* A pointer is an offset in a mapping, one result of `mmap`. `Heap.maps` records for each mapping
  the arena that asked for it, what it is used for and whether it is still mapped; `mmap` never
  returns a mapping twice, which is what is assumed of the system allocator. `munmap` only accepts
  the start of a page, and no cell of a segment is one (`152 + 64 * k`), so it acts on offset 0.
* `mem` lists the outcomes of the calls of `mmap` and `calloc` still to come; an exhausted list
  stands for success. A segment that could not be mapped is `none`. The records of an arena itself
  (`struct arena`, its slab sets, segment arrays and deferred list) are taken to be allocated.
* The thread cache is one for all arenas. Each of its entries carries the arena it was freed to,
  which the source does not record and no function here reads.
* `free_bitmap` is the function of its bits. Other threads are absent, so a compare-and-swap
  succeeds and a run of free cells that `seg_alloc` has counted is taken at once.
* `tuner_record` counts sizes in 64 buckets; `none` as the result of `arena_alloc` is a bucket below
  0, which is written outside of the histogram. The counters for statistics, the tuner's thresholds,
  the prefetching and `arena_compact` are left out; `flags` is what `arena_compact` would set.
-/

namespace Draugr.Memory
open Lib

/-- `ARENA_SLAB_SIZES`, `ARENA_TCACHE_BINS`. -/
def slabClasses : ℕ := 8

/-- `ARENA_SLAB_SLOTS`. -/
def slabSlots : ℕ := 256

/-- `ARENA_TCACHE_DEPTH`. -/
def tcacheDepth : ℕ := 32

/-- `ARENA_COLD_SEGS_PER_CLASS`. -/
def coldSegsPerClass : ℕ := 4

/-- `ARENA_SEG_GRANULARITY`. -/
def segGranularity : ℕ := 64

/-- `ARENA_SEG_SIZE`. -/
def segSize : ℕ := 2 ^ 16

/-- `ARENA_SEG_HDR_SIZE`: the offset of `data` in a segment. -/
def segHdrSize : ℕ := 152

/-- `ARENA_SEG_DATA_SIZE`. -/
def segDataSize : ℕ := segSize - segHdrSize

/-- `ARENA_SEG_SLOTS`. -/
def segSlots : ℕ := segDataSize / segGranularity

/-- `ARENA_DEFERRED_BATCH`. -/
def deferredBatch : ℕ := 64

/-- `UINT64_MAX`. -/
def uint64Max : ℕ := 2 ^ 64 - 1

/-- `g_slab_sizes`. -/
def slabSizes : List ℕ := [8, 16, 24, 32, 48, 64, 96, 128]

/-- `size_to_slab_class`. -/
def sizeToSlabClass (bytes : ℕ) : ℕ := (slabSizes.findIdx? (bytes ≤ ·)).getD (slabClasses - 1)

/-- The number of cells of a block. -/
def cells (size : ℕ) : ℕ := (size + segGranularity - 1) / segGranularity

/-- `slots_needed` of `seg_alloc`, `slots` of `seg_free`: the sum wraps around. -/
def slotsNeeded (size : ℕ) : ℕ := (size + segGranularity - 1) % 2 ^ 64 / segGranularity

/-- A pointer. -/
structure Ptr where
  map : ℕ
  off : ℕ
  deriving DecidableEq

/-! ## Slabs -/

/-- `struct arena_slab`, at the start of the mapping `map`. -/
structure Slab where
  map : ℕ
  bitmap : List ℕ
  usedCount : ℕ
  freeTop : ℕ
  freeStack : List ℕ
  sizeClass : ℕ

/-- `slab_data_offset`: `sizeof(struct arena_slab)`. -/
def slabDataOffset : ℕ := 1080

/-- `slab->bitmap[word]`. -/
def Slab.word (s : Slab) (word : ℕ) : ℕ := s.bitmap.getD word 0

/-- `g_slab_sizes[slab->size_class]`. -/
def Slab.slotSize (s : Slab) : ℕ := slabSizes.getD s.sizeClass 0

/-- The pointer to a slot. -/
def Slab.ptr (s : Slab) (slot : ℕ) : Ptr := ⟨s.map, slabDataOffset + slot * s.slotSize⟩

/-- The loop over the free stack in `slab_alloc_slot`: the top of the stack is popped until its bit
is set. -/
def popSlot (s : Slab) : ℕ → Option ℕ × Slab
  | 0 => (none, { s with freeTop := 0 })
  | top + 1 =>
    let slot := s.freeStack.getD top 0
    let bits := s.word (slot / 64)
    if bits.testBit (slot % 64) then
      (some slot, { s with
        freeTop := top, bitmap := s.bitmap.set (slot / 64) (bits - 2 ^ (slot % 64))
        usedCount := (s.usedCount + 1) % 2 ^ 32 })
    else popSlot s top

/-- `__builtin_ctzll`. -/
def ctz (x : ℕ) : ℕ := ((List.range 64).find? fun i => x.testBit i).getD 64

/-- The loop over the words in `slab_alloc_slot`, from word `i` on: the first word that is not full
of ones gives the slot, and is overwritten by the complement of the bit. -/
def scanWords (s : Slab) (hint : ℕ) : ℕ → ℕ → Option ℕ × Slab
  | 0, _ => (none, s)
  | n + 1, i =>
    let word := (hint / 64 % 4 + i) % 4
    if s.word word ≠ uint64Max then
      let rot := hint % 64
      let freeBits := uint64Max - s.word word
      let rotated := freeBits >>> rot ||| (freeBits <<< (64 - rot)) % 2 ^ 64
      let bit := (ctz rotated + rot) % 64
      (some (word * 64 + bit), { s with
        bitmap := s.bitmap.set word (uint64Max - 2 ^ bit),
          usedCount := (s.usedCount + 1) % 2 ^ 32 })
    else scanWords s hint n (i + 1)

/-- `slab_alloc_slot` with the counter `slab_color`. -/
def slabAllocSlot (s : Slab) (color : ℕ) : Option Ptr × Slab × ℕ :=
  match popSlot s s.freeTop with
  | (some slot, s) => (some (s.ptr slot), s, color)
  | (none, s) =>
    if ((List.range 4).all fun w => s.word w = uint64Max) then (none, s, color)
    else
      let (slot, s) := scanWords s color 4 0
      (slot.map s.ptr, s, (color + 1) % 2 ^ 32)

/-- `slab_contains`. -/
def slabContains (s : Slab) (p : Ptr) : Prop :=
  p.map = s.map ∧ slabDataOffset ≤ p.off ∧ p.off - slabDataOffset < s.slotSize * slabSlots

instance (s : Slab) (p : Ptr) : Decidable (slabContains s p) :=
  inferInstanceAs (Decidable (_ ∧ _ ∧ _))

/-- `slab_free_slot`: the slab after it, when it returns true. -/
def slabFreeSlot (s : Slab) (p : Ptr) : Option Slab :=
  if slabContains s p then
    let slot := (p.off - slabDataOffset) / s.slotSize
    let bits := s.word (slot / 64)
    if bits.testBit (slot % 64) then none
    else
      some { s with
        bitmap := s.bitmap.set (slot / 64) (bits + 2 ^ (slot % 64))
        usedCount := (s.usedCount + (2 ^ 32 - 1)) % 2 ^ 32
        freeTop := s.freeTop + 1
        freeStack := if s.freeTop < slabSlots then s.freeStack.set s.freeTop slot else s.freeStack }
  else none

/-- The slab of `slab_create` in a fresh mapping. -/
def newSlab (map sc : ℕ) : Slab :=
  ⟨map, List.replicate 4 uint64Max, 0, 0, List.replicate slabSlots 0, sc⟩

/-- The slab after `arena_clear`. -/
def Slab.clear (s : Slab) : Slab :=
  { s with bitmap := List.replicate 4 uint64Max, usedCount := 0, freeTop := 0 }

/-- The loop over the slabs in `slab_set_alloc`. -/
def slabsAlloc : List Slab → ℕ → Option Ptr × List Slab × ℕ
  | [], color => (none, [], color)
  | s :: ss, color =>
    match slabAllocSlot s color with
    | (some p, s, color) => (some p, s :: ss, color)
    | (none, s, color) =>
      let (p, ss, color) := slabsAlloc ss color
      (p, s :: ss, color)

/-- `slab_set_free`: the slabs after it, when it returns true. -/
def slabSetFree (p : Ptr) : List Slab → Option (List Slab)
  | [] => none
  | s :: ss =>
    if slabContains s p then (slabFreeSlot s p).map (· :: ss) else (slabSetFree p ss).map (s :: ·)

/-! ## Segments -/

/-- `struct arena_segment`, at the start of the mapping `map`. -/
structure Segment where
  map : ℕ
  control : ℕ
  freeBitmap : ℕ → Bool
  flags : Bool

/-- `used`: the top 16 bits of the control word. -/
def Segment.used (s : Segment) : ℕ := s.control / 2 ^ 48 % 2 ^ 16

/-- `new_ctrl`: the control word with another `used`, of which 16 bits are kept. -/
def setUsed (control used : ℕ) : ℕ := control % 2 ^ 48 + used % 2 ^ 16 * 2 ^ 48

/-- The segment of `seg_create` in a fresh mapping. -/
def newSegment (map : ℕ) : Segment := ⟨map, 0, fun _ => true, false⟩

/-- The pointer to a cell. -/
def Segment.ptr (s : Segment) (cell : ℕ) : Ptr := ⟨s.map, segHdrSize + cell * segGranularity⟩

/-- The scan of `seg_alloc`, `n` more cells from cell `i` on: the first run of `need` free cells. -/
def findCells (free : ℕ → Bool) (need : ℕ) : ℕ → ℕ → ℕ → ℕ → Option ℕ
  | 0, _, _, _ => none
  | n + 1, i, consecutive, startSlot =>
    if free i then
      let startSlot := if consecutive = 0 then i else startSlot
      if consecutive + 1 ≥ need then some startSlot
      else findCells free need n (i + 1) (consecutive + 1) startSlot
    else findCells free need n (i + 1) 0 startSlot

/-- `seg_alloc`. -/
def segAlloc (s : Segment) (size : ℕ) : Option (Ptr × Segment) :=
  (findCells s.freeBitmap (slotsNeeded size) segSlots 0 0 0).map fun start =>
    (s.ptr start, { s with
      freeBitmap := setRun s.freeBitmap start (slotsNeeded size) false
      control := setUsed s.control (s.used + slotsNeeded size) })

/-- `seg_free`: the segment after it, when it returns true. -/
def segFree (s : Segment) (p : Ptr) (size : ℕ) : Option Segment :=
  if s.flags then some s
  else if p.map = s.map ∧ segHdrSize ≤ p.off ∧ p.off - segHdrSize < segDataSize then
    let start := (p.off - segHdrSize) / segGranularity
    some { s with
      freeBitmap := setRun s.freeBitmap start (min (slotsNeeded size) (segSlots - start)) true
      control := setUsed s.control (s.used - slotsNeeded size) }
  else none

/-- `seg_contains`. -/
def segContains (s : Segment) (p : Ptr) : Prop := p.map = s.map ∧ p.off < segSize

/-- The segment after `arena_clear`. -/
def Segment.clear (s : Segment) : Segment :=
  { s with freeBitmap := fun _ => true, control := setUsed s.control 0, flags := false }

/-! ## The heap -/

/-- `struct arena`: `slabs sc` is the slab set of a class, `segs (4 * sc + i)` its segment `i`. -/
structure Arena where
  slabs : ℕ → List Slab
  segs : ℕ → Option Segment
  deferred : List (Ptr × ℕ)
  enableThreadCache : Bool

/-- What a mapping is used for. -/
inductive MapUse where
  | slab
  | segment
  | system
  deriving DecidableEq

/-- A mapping: the arena that asked for it, its use, and whether it is still mapped. -/
structure Mapping where
  owner : ℕ
  use : MapUse
  live : Bool
  deriving DecidableEq

/-- The arenas by number, the mappings, the thread cache (the top of a bin first), the counter
`slab_color` and the outcomes of the allocations to come. -/
structure Heap where
  arenas : List (Option Arena)
  maps : List Mapping
  bins : ℕ → List (Ptr × ℕ)
  cacheReady : Bool
  slabColor : ℕ
  mem : List Bool

/-- Nothing allocated yet. -/
def Heap.initial (mem : List Bool) : Heap := ⟨[], [], fun _ => [], false, 0, mem⟩

/-- The arena with a number, unless it was destroyed. -/
def Heap.arena (w : Heap) (h : ℕ) : Option Arena := (w.arenas[h]?).join

/-- Writes an arena. -/
def Heap.setArena (w : Heap) (h : ℕ) (a : Arena) : Heap :=
  { w with arenas := w.arenas.set h (some a) }

/-- The outcome of the next allocation. -/
def Heap.draw (w : Heap) : Bool × Heap :=
  match w.mem with
  | [] => (true, w)
  | ok :: rest => (ok, { w with mem := rest })

/-- `mmap` on behalf of an arena. -/
def Heap.mmap (w : Heap) (h : ℕ) (use : MapUse) : Option ℕ × Heap :=
  match w.draw with
  | (false, w) => (none, w)
  | (true, w) => (some w.maps.length, { w with maps := w.maps ++ [⟨h, use, true⟩] })

/-- `munmap` of a whole mapping. -/
def Heap.munmap (w : Heap) (map : ℕ) : Heap :=
  { w with maps := w.maps.modify map fun m => { m with live := false } }

/-- Writes a slab set. -/
def Arena.setSlabs (a : Arena) (sc : ℕ) (ss : List Slab) : Arena :=
  { a with slabs := Function.update a.slabs sc ss }

/-- Writes a segment. -/
def Arena.setSeg (a : Arena) (j : ℕ) (s : Segment) : Arena :=
  { a with segs := Function.update a.segs j (some s) }

/-- Writes a bin of the thread cache. -/
def Heap.setBin (w : Heap) (sc : ℕ) (bin : List (Ptr × ℕ)) : Heap :=
  { w with bins := Function.update w.bins sc bin }

/-! ## Allocation -/

/-- `tcache_get`: is the thread cache there? It is made by the first call. -/
def tcacheGet (w : Heap) : Bool × Heap :=
  if w.cacheReady then (true, w)
  else
    match w.draw with
    | (false, w) => (false, w)
    | (true, w) => (true, { w with cacheReady := true })

/-- `tcache_try_get`. -/
def tcacheTryGet (w : Heap) (sc : ℕ) : Option Ptr × Heap :=
  match tcacheGet w with
  | (false, w) => (none, w)
  | (true, w) =>
    match w.bins sc with
    | [] => (none, w)
    | (p, _) :: bin => (some p, w.setBin sc bin)

/-- `tcache_clear`. -/
def tcacheClear (w : Heap) : Heap := { w with bins := fun _ => [] }

/-- `slab_set_alloc` for the slab set of a class. -/
def slabSetAlloc (w : Heap) (h : ℕ) (a : Arena) (sc : ℕ) : Option Ptr × Heap :=
  match slabsAlloc (a.slabs sc) w.slabColor with
  | (some p, ss, color) =>
    (some p, { w with slabColor := color }.setArena h (a.setSlabs sc ss))
  | (none, ss, color) =>
    let w := { w with slabColor := color }.setArena h (a.setSlabs sc ss)
    if ss.length ≥ 8 then (none, w)
    else
      match w.mmap h .slab with
      | (none, w) => (none, w)
      | (some map, w) =>
        let (p, s, color) := slabAllocSlot (newSlab map sc) w.slabColor
        (p, { w with slabColor := color }.setArena h (a.setSlabs sc (ss ++ [s])))

/-- The loop over segments in `arena_alloc`. -/
def segsAlloc (w : Heap) (h : ℕ) (a : Arena) (size : ℕ) : List ℕ → Option Ptr × Heap
  | [] => (none, w)
  | j :: js =>
    match (a.segs j).bind (segAlloc · size) with
    | some (p, s) => (some p, w.setArena h (a.setSeg j s))
    | none => segsAlloc w h a size js

/-- The segments of a class. -/
def classSegs (sc : ℕ) : List ℕ := (List.range coldSegsPerClass).map (coldSegsPerClass * sc + ·)

/-- `sys_alloc`. -/
def sysAlloc (w : Heap) (h : ℕ) : Option Ptr × Heap :=
  match w.mmap h .system with
  | (none, w) => (none, w)
  | (some map, w) => (some ⟨map, 0⟩, w)

/-- The next source of memory, when the last one had none. -/
def orElse (r : Option Ptr × Heap) (next : Heap → Option Ptr × Heap) : Option Ptr × Heap :=
  match r with
  | (some p, w) => (some p, w)
  | (none, w) => next w

/-- One of the sources of an arena; there are none of a destroyed arena. -/
def withArena (w : Heap) (h : ℕ) (f : Arena → Option Ptr × Heap) : Option Ptr × Heap :=
  match w.arena h with
  | none => (none, w)
  | some a => f a

/-- The bucket of `tuner_record`. -/
def tunerBucket (size : ℕ) : ℤ :=
  let bucket := Int.bmod (size >>> 4 : ℕ) (2 ^ 32)
  if bucket ≥ 64 then 63 else bucket

/-- The branch of `arena_alloc` for at most 128 bytes. -/
def allocSmall (w : Heap) (h size : ℕ) : Option Ptr × Heap :=
  let sc := sizeToSlabClass size
  let cached := withArena w h fun a => if a.enableThreadCache then tcacheTryGet w sc else (none, w)
  orElse (orElse cached fun w => withArena w h fun a => slabSetAlloc w h a sc)
    fun w => withArena w h fun a => segsAlloc w h a size (classSegs sc)

/-- The branch of `arena_alloc` for at most 4096 bytes. -/
def allocMedium (w : Heap) (h size : ℕ) : Option Ptr × Heap :=
  withArena w h fun a => segsAlloc w h a size (classSegs (sizeToSlabClass (min size 128)))

/-- `arena_alloc`. -/
def arenaAlloc (w : Heap) (h size : ℕ) : Option (Option Ptr × Heap) :=
  if size = 0 then some (none, w)
  else if tunerBucket size < 0 then none
  else
    let small := if size ≤ 128 then allocSmall w h size else (none, w)
    let medium := orElse small fun w => if size ≤ 4096 then allocMedium w h size else (none, w)
    some (orElse medium fun w => sysAlloc w h)

/-! ## Release -/

/-- `slab_set_free` over the slab sets of several classes. -/
def slabsFree (a : Arena) (p : Ptr) : List ℕ → Option Arena
  | [] => none
  | sc :: scs =>
    match slabSetFree p (a.slabs sc) with
    | some ss => some (a.setSlabs sc ss)
    | none => slabsFree a p scs

/-- `seg_free` over several segments. -/
def segsFree (a : Arena) (p : Ptr) (size : ℕ) : List ℕ → Option Arena
  | [] => none
  | j :: js =>
    match (a.segs j).bind (segFree · p size) with
    | some s => some (a.setSeg j s)
    | none => segsFree a p size js

/-- `sys_free`. -/
def sysFree (w : Heap) (p : Ptr) : Heap := if p.off = 0 then w.munmap p.map else w

/-- The thread cache takes a block of at most 128 bytes, when its bin has room. -/
def tcachePut (w : Heap) (h : ℕ) (p : Ptr) (sc : ℕ) : Bool × Heap :=
  match tcacheGet w with
  | (false, w) => (false, w)
  | (true, w) =>
    if (w.bins sc).length < tcacheDepth then (true, w.setBin sc ((p, h) :: w.bins sc))
    else (false, w)

/-- `arena_free` behind the thread cache. -/
def arenaRelease (w : Heap) (h : ℕ) (a : Arena) (p : Ptr) (size : ℕ) : Heap :=
  let sc := sizeToSlabClass size
  let small := if size ≤ 128 then
    slabsFree a p (sc :: (List.range slabClasses).filter (· ≠ sc)) else none
  let medium := if size ≤ 4096 then
    segsFree a p size (List.range (coldSegsPerClass * slabClasses)) else none
  match small.or medium with
  | some a => w.setArena h a
  | none => sysFree w p

/-- `arena_free`. -/
def arenaFree (w : Heap) (h : ℕ) (p : Ptr) (size : ℕ) : Heap :=
  match w.arena h with
  | none => w
  | some a =>
    if size ≤ 128 ∧ a.enableThreadCache then
      match tcachePut w h p (sizeToSlabClass size) with
      | (true, w) => w
      | (false, w) => arenaRelease w h a p size
    else arenaRelease w h a p size

/-- `arena_free_deferred`. -/
def arenaFreeDeferred (w : Heap) (h : ℕ) (p : Ptr) (size : ℕ) : Heap :=
  match w.arena h with
  | none => w
  | some a =>
    if a.deferred.length < deferredBatch then
      w.setArena h { a with deferred := a.deferred ++ [(p, size)] }
    else arenaFree w h p size

/-- `arena_flush_deferred`. -/
def arenaFlushDeferred (w : Heap) (h : ℕ) : Heap :=
  match w.arena h with
  | none => w
  | some a =>
    a.deferred.foldl (fun w e => arenaFree w h e.1 e.2) (w.setArena h { a with deferred := [] })

/-! ## Creation, clearing and destruction -/

/-- The segments of `arena_create`, one after the other. -/
def createSegs (h : ℕ) : List ℕ → Heap → (ℕ → Option Segment) → Heap × (ℕ → Option Segment)
  | [], w, segs => (w, segs)
  | j :: js, w, segs =>
    let (map, w) := w.mmap h .segment
    createSegs h js w (Function.update segs j (map.map newSegment))

/-- `arena_create`: the new arena gets the next number. -/
def arenaCreate (w : Heap) : Heap :=
  let h := w.arenas.length
  let (w, segs) := createSegs h (List.range (coldSegsPerClass * slabClasses)) w fun _ => none
  { w with arenas := w.arenas ++ [some ⟨fun _ => [], segs, [], true⟩] }

/-- `arena_clear`. The deferred list stays. -/
def arenaClear (w : Heap) (h : ℕ) : Heap :=
  match w.arena h with
  | none => w
  | some a =>
    (tcacheClear w).setArena h { a with
      slabs := fun sc => (a.slabs sc).map Slab.clear
      segs := fun j => (a.segs j).map Segment.clear }

/-- The mappings of the slabs and segments of an arena. -/
def Arena.mappings (a : Arena) : List ℕ :=
  (List.range slabClasses).flatMap (fun sc => (a.slabs sc).map Slab.map) ++
    (List.range (coldSegsPerClass * slabClasses)).filterMap fun j => (a.segs j).map Segment.map

/-- `arena_destroy`. -/
def arenaDestroy (w : Heap) (h : ℕ) : Heap :=
  let w := tcacheClear (arenaFlushDeferred w h)
  match w.arena h with
  | none => w
  | some a =>
    let w := a.mappings.foldl Heap.munmap w
    { w with arenas := w.arenas.set h none }

/-! ## The caller -/

/-- A block that the caller holds: the arena it came from, its address and the size it was last
(re)allocated with. -/
structure Block where
  arena : ℕ
  ptr : Ptr
  size : ℕ
  deriving DecidableEq

/-- The heap, and the blocks that were allocated and neither released nor invalidated. -/
structure Client where
  heap : Heap
  live : List Block

/-- One call of the interface. -/
inductive Call where
  | create
  | alloc (h size : ℕ)
  | realloc (h : ℕ) (p : Option Ptr) (oldSize newSize : ℕ)
  | free (h : ℕ) (p : Ptr) (size : ℕ)
  | freeDeferred (h : ℕ) (p : Ptr) (size : ℕ)
  | flush (h : ℕ)
  | clear (h : ℕ)
  | destroy (h : ℕ)

/-- `arena_alloc`, with the new block noted. -/
def Client.alloc (c : Client) (h size : ℕ) : Option (Option Ptr × Client) :=
  (arenaAlloc c.heap h size).map fun r =>
    (r.1, ⟨r.2, (r.1.map fun p => ⟨h, p, size⟩).toList ++ c.live⟩)

/-- `arena_realloc` of a block. -/
def Client.realloc (c : Client) (b : Block) (newSize : ℕ) : Option (Option Ptr × Client) :=
  if newSize = 0 then some (none, ⟨arenaFree c.heap b.arena b.ptr b.size, c.live.erase b⟩)
  else if b.size ≤ 128 ∧ newSize ≤ 128 ∧ sizeToSlabClass b.size = sizeToSlabClass newSize then
    some (some b.ptr, ⟨c.heap, { b with size := newSize } :: c.live.erase b⟩)
  else
    (arenaAlloc c.heap b.arena newSize).map fun r =>
      match r with
      | (none, w) => (none, ⟨w, c.live⟩)
      | (some p, w) =>
        (some p, ⟨arenaFree w b.arena b.ptr b.size, ⟨b.arena, p, newSize⟩ :: c.live.erase b⟩)

/-- The block lies in memory that `arena_clear` reuses: it is not one of the system allocator. -/
def Heap.carved (w : Heap) (p : Ptr) : Bool :=
  match w.maps[p.map]? with
  | some m => m.use ≠ .system
  | none => false

/-- Runs one call; `none` when the caller may not make it: the arena has to exist, and a block that
is released or reallocated has to be held, with this size. A block of the system allocator outlives
`arena_clear`. -/
def Call.run (c : Client) : Call → Option (Option Ptr × Client)
  | .create => some (none, { c with heap := arenaCreate c.heap })
  | .alloc h size => if (c.heap.arena h).isSome then c.alloc h size else none
  -- a reallocation of `NULL` is an allocation
  | .realloc h none _ newSize => if (c.heap.arena h).isSome then c.alloc h newSize else none
  | .realloc h (some p) oldSize newSize =>
    if (⟨h, p, oldSize⟩ : Block) ∈ c.live then c.realloc ⟨h, p, oldSize⟩ newSize else none
  | .free h p size =>
    if (⟨h, p, size⟩ : Block) ∈ c.live then
      some (none, ⟨arenaFree c.heap h p size, c.live.erase ⟨h, p, size⟩⟩)
    else none
  | .freeDeferred h p size =>
    if (⟨h, p, size⟩ : Block) ∈ c.live then
      some (none, ⟨arenaFreeDeferred c.heap h p size, c.live.erase ⟨h, p, size⟩⟩)
    else none
  | .flush h =>
    if (c.heap.arena h).isSome then some (none, { c with heap := arenaFlushDeferred c.heap h })
    else none
  | .clear h =>
    if (c.heap.arena h).isSome then
      some (none, ⟨arenaClear c.heap h, c.live.filter fun b => b.arena ≠ h ∨ ¬ c.heap.carved b.ptr⟩)
    else none
  | .destroy h =>
    if (c.heap.arena h).isSome then
      some (none, ⟨arenaDestroy c.heap h, c.live.filter fun b => b.arena ≠ h⟩)
    else none

/-- Runs a list of calls. -/
def runCalls (c : Client) : List Call → Option Client
  | [] => some c
  | call :: calls =>
    match call.run c with
    | none => none
    | some (_, c) => runCalls c calls

/-- Before any call. -/
def Client.initial (mem : List Bool) : Client := ⟨Heap.initial mem, []⟩

end Draugr.Memory
