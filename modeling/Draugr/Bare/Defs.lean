import Mathlib.Data.Rat.Floor
import Mathlib.Tactic

/-!
# The bare hash index

Model of the bare table `ht_bare_t` of `src/ht.c`: the Robin-Hood main array, the spill lane and the
overflow stash, with insertion, lookup, removal, resize, compaction and clear.

* `hash_pd[i]` packs a 48-bit hash with a 16-bit probe distance; a `Slot` holds the two fields and
  `vals[i]`, which the source always writes together. `capacity` is the length of `main`. It is a
  power of two, so `x & cap_mask` is `x % capacity`.
* `spill` and `overflow` hold the first `spill_len` resp. `overflow_len` entries of their arrays.
* Load factors are exact rationals. `tomb_threshold`, `zombie_window` and `allocator` are read by no
  function of the bare table.
* `mem` lists the outcomes of the allocations still to come; an exhausted list stands for success.
* The `while (1)` loops carry fuel (`rhFuel`); `none` is a run that used it up. The field `fuel` is
  an allowance on top, so that a theorem for every `fuel` is about every run that ends.

`bare_rh_insert_bounded` and `bare_rh_insert_unbounded` differ in the probe limit only: `rhStep` is
one iteration of either and `rhLoop` runs it. The call of `bare_resize_table` in the loop is the
parameter `rz`, since `bare_resize_table` itself inserts (with `resizing` set, so that the inner
call returns at once: `nestedResize`).
-/

namespace Draugr

/-- `SIZE_MAX`. -/
def sizeMax : ℕ := 2 ^ 64 - 1

/-- `VAL_NONE`. -/
def valNone : ℕ := 2 ^ 32 - 1

/-- `hash & HASH_MASK`. -/
def h48 (hash : ℕ) : ℕ := hash % 2 ^ 48

/-- `BSHIFT_CAP`. -/
def bshiftCap : ℕ := 16

/-- `HT_OVERFLOW_STASH_CAP`. -/
def overflowStashCap : ℕ := 32

/-- `SPILL_INITIAL`. -/
def spillInitial : ℕ := 8

/-- `x--` on a `size_t`. -/
def sizeDec (x : ℕ) : ℕ := if x = 0 then sizeMax else x - 1

/-- `next_pow2`: the least power of two that is at least `n`, if a `size_t` can hold it. -/
def nextPow2 (n : ℕ) : ℕ :=
  if n ≤ 1 then 1 else if n ≤ 2 ^ 63 then 2 ^ (Nat.log2 (n - 1) + 1) else n

/-- One slot of the main array: `hash_pd[i]` unpacked, and `vals[i]`. -/
structure Slot where
  hash : ℕ
  pd : ℕ
  val : ℕ
  deriving DecidableEq, Repr

/-- `hash_pd[i] = 0`, `vals[i] = VAL_NONE`. -/
def Slot.emptySlot : Slot := ⟨0, 0, valNone⟩

/-- `hash_pd[i] = HASH_TOMB`, `vals[i] = VAL_NONE`. -/
def Slot.tombSlot : Slot := ⟨1, 0, valNone⟩

/-- `hpd_pack` together with the value. -/
def hpdPack (hash pd val : ℕ) : Slot := ⟨h48 hash, pd % 2 ^ 16, val⟩

/-- `hpd_empty`. -/
def Slot.Empty (s : Slot) : Prop := s.hash = 0

/-- `hpd_tomb`. -/
def Slot.Tomb (s : Slot) : Prop := s.hash = 1

/-- `hpd_live`. -/
def Slot.Live (s : Slot) : Prop := 2 ≤ s.hash

instance (s : Slot) : Decidable s.Empty := inferInstanceAs (Decidable (_ = _))
instance (s : Slot) : Decidable s.Tomb := inferInstanceAs (Decidable (_ = _))
instance (s : Slot) : Decidable s.Live := inferInstanceAs (Decidable (_ ≤ _))

/-- `struct ht_bare`. -/
structure HtBare where
  main : List Slot
  size : ℕ
  tombstoneCnt : ℕ
  spill : List (ℕ × ℕ)
  spillCap : ℕ
  spillInBlock : Bool
  overflow : List (ℕ × ℕ)
  overflowViolated : Bool
  resizing : Bool
  maxLoadFactor : ℚ
  minLoadFactor : ℚ
  maxProbeDist : ℕ
  mem : List Bool
  fuel : ℕ
  deriving DecidableEq

/-- `t->capacity`. -/
def HtBare.capacity (t : HtBare) : ℕ := t.main.length

/-- `t->hash_pd[i]`, `t->vals[i]`. -/
def HtBare.slot (t : HtBare) (i : ℕ) : Slot := t.main.getD i Slot.emptySlot

/-- Writes `t->hash_pd[i]` and `t->vals[i]`. -/
def HtBare.setSlot (t : HtBare) (i : ℕ) (s : Slot) : HtBare := { t with main := t.main.set i s }

/-- `t->size - t->spill_len - t->overflow_len`. -/
def HtBare.mainLive (t : HtBare) : ℕ := t.size - t.spill.length - t.overflow.length

/-- The outcome of the next `malloc` or `calloc`. -/
def malloc (t : HtBare) : Bool × HtBare :=
  match t.mem with
  | [] => (true, t)
  | ok :: rest => (ok, { t with mem := rest })

/-! ## Spill lane -/

/-- `bare_spill_grow`. -/
def bareSpillGrow (t : HtBare) : Bool × HtBare :=
  let newCap := if t.spillCap = 0 then spillInitial else t.spillCap * 2
  if newCap * 12 > sizeMax then (false, t)
  else
    match malloc t with
    | (false, t) => (false, t)
    | (true, t) => (true, { t with spillCap := newCap, spillInBlock := false })

/-- `bare_spill_insert`. -/
def bareSpillInsert (t : HtBare) (h val : ℕ) : Bool × HtBare :=
  let push (t : HtBare) : HtBare :=
    { t with spill := t.spill ++ [(h48 h, val)], size := t.size + 1 }
  if t.spill.length ≥ t.spillCap then
    match bareSpillGrow t with
    | (false, t) => (false, t)
    | (true, t) => (true, push t)
  else (true, push t)

/-- `bare_spill_remove`. -/
def bareSpillRemove (t : HtBare) (h : ℕ) : ℕ × HtBare :=
  let kept := t.spill.filter fun e => e.1 ≠ h
  let removed := t.spill.length - kept.length
  (removed, { t with spill := kept, size := sizeDec^[removed] t.size })

/-- `bare_spill_remove_val`. -/
def bareSpillRemoveVal (t : HtBare) (h val : ℕ) : Bool × HtBare :=
  if (h, val) ∈ t.spill then
    (true, { t with spill := t.spill.erase (h, val), size := sizeDec t.size })
  else (false, t)

/-! ## Overflow stash -/

/-- `overflow_stash_insert`. -/
def overflowStashInsert (t : HtBare) (h val : ℕ) : Option HtBare :=
  if t.overflow.length ≥ overflowStashCap then none
  else some { t with overflow := t.overflow ++ [(h48 h, val)], size := t.size + 1 }

/-- `overflow_stash_remove_val`: the last entry takes the place of the removed one. -/
def overflowStashRemoveVal (t : HtBare) (h val : ℕ) : Bool × HtBare :=
  match t.overflow.findIdx? (· = (h, val)) with
  | none => (false, t)
  | some i =>
    let last := t.overflow.getLastD (0, 0)
    (true, { t with overflow := (t.overflow.set i last).dropLast, size := sizeDec t.size })

/-- `overflow_stash_remove`. -/
def overflowStashRemove (t : HtBare) (h : ℕ) : ℕ × HtBare :=
  let kept := t.overflow.filter fun e => e.1 ≠ h
  let removed := t.overflow.length - kept.length
  (removed, { t with overflow := kept, size := sizeDec^[removed] t.size })

/-! ## Robin-Hood insertion -/

/-- The entry a Robin-Hood insertion carries: `h48`, `cur_val`, `idx`, `dist`. -/
structure Carrier where
  hash : ℕ
  val : ℕ
  idx : ℕ
  dist : ℕ
  deriving DecidableEq, Repr

/-- The carrier at its ideal slot. -/
def Carrier.start (t : HtBare) (h val : ℕ) : Carrier := ⟨h, val, h % t.capacity, 0⟩

/-- `idx = (idx + 1) & cap_mask; dist++`. -/
def Carrier.advance (t : HtBare) (c : Carrier) : Carrier :=
  { c with idx := (c.idx + 1) % t.capacity, dist := (c.dist + 1) % 2 ^ 16 }

/-- The look-ahead from a tombstone, `n` more slots from offset `k` on: is there an entry that
travels past the tombstone at a distance above `dist`? -/
def blockedFrom (t : HtBare) (idx dist : ℕ) : ℕ → ℕ → Bool
  | 0, _ => false
  | n + 1, k =>
    let chk := t.slot ((idx + k) % t.capacity)
    if chk.Empty then false
    else if chk.Tomb then blockedFrom t idx dist n (k + 1)
    else if chk.pd > dist + k then true
    else blockedFrom t idx dist n (k + 1)

/-- `blocked`: the look-ahead stops after `BSHIFT_CAP` slots. -/
def blocked (t : HtBare) (idx dist : ℕ) : Bool := blockedFrom t idx dist bshiftCap 1

/-- How one iteration of the insertion loop ends. -/
inductive RhStep where
  /-- `return` -/
  | ret (ok : Bool) (t : HtBare)
  /-- the next iteration -/
  | go (t : HtBare) (c : Carrier)
  /-- `overflow_violated = true; return bare_rh_insert_unbounded(…)` -/
  | unbounded (t : HtBare) (c : Carrier)
  /-- `dist > capacity`: resize, then start over -/
  | resize (t : HtBare) (c : Carrier)

/-- `t->max_probe_dist > 0 && dist > t->max_probe_dist` (in the bounded loop). -/
def overLimit (bounded : Bool) (t : HtBare) (c : Carrier) : Prop :=
  bounded = true ∧ 0 < t.maxProbeDist ∧ t.maxProbeDist < c.dist

instance (b : Bool) (t : HtBare) (c : Carrier) : Decidable (overLimit b t c) :=
  inferInstanceAs (Decidable (_ ∧ _ ∧ _))

/-- The probe limit is exceeded: the carried entry goes to the overflow stash or, when that is full,
is inserted without a limit. -/
def stashCarrier (t : HtBare) (c : Carrier) : RhStep :=
  match overflowStashInsert t c.hash c.val with
  | some t => .ret true t
  | none => .unbounded { t with overflowViolated := true } c

/-- One iteration of `bare_rh_insert_bounded` resp. `bare_rh_insert_unbounded`. -/
def rhStep (bounded : Bool) (t : HtBare) (c : Carrier) : RhStep :=
  let s := t.slot c.idx
  if s.Live then
    -- the carrier takes the slot of an entry that is nearer to its ideal slot
    if s.pd < c.dist then
      let t := t.setSlot c.idx (hpdPack c.hash c.dist c.val)
      let c := { c with hash := s.hash, val := s.val, dist := (s.pd + 1) % 2 ^ 16 }
      if overLimit bounded t c then stashCarrier t c
      else .go t { c with idx := (c.idx + 1) % t.capacity }
    else
      let c := c.advance t
      if overLimit bounded t c then stashCarrier t c
      else if c.dist > t.capacity then .resize t c
      else .go t c
  else if s.Tomb ∧ blocked t c.idx c.dist then .go t (c.advance t)
  else
    -- the tombstone is counted off even if the carrier goes to the stash
    let t := if s.Tomb then { t with tombstoneCnt := sizeDec t.tombstoneCnt } else t
    if overLimit bounded t c then stashCarrier t c
    else .ret true { t.setSlot c.idx (hpdPack c.hash c.dist c.val) with size := t.size + 1 }

/-- The insertion loop; `rz` is `bare_resize_table`. -/
def rhLoop (rz : HtBare → Option (Bool × HtBare)) :
    ℕ → Bool → HtBare → Carrier → Option (Bool × HtBare)
  | 0, _, _, _ => none
  | n + 1, bounded, t, c =>
    match rhStep bounded t c with
    | .ret ok t => some (ok, t)
    | .go t c => rhLoop rz n bounded t c
    | .unbounded t c => rhLoop rz n false t (.start t c.hash c.val)
    | .resize t c =>
      match rz t with
      | none => none
      | some (false, t) => some (false, t)
      | some (true, t) => rhLoop rz n bounded t (.start t c.hash c.val)

/-- Iterations granted to one insertion. -/
def rhFuel (t : HtBare) : ℕ := 2 * (t.capacity + 1) ^ 3 + t.fuel

/-- `bare_rh_insert_unbounded`. -/
def bareRhInsertUnbounded (rz : HtBare → Option (Bool × HtBare)) (t : HtBare) (h val : ℕ) :
    Option (Bool × HtBare) :=
  rhLoop rz (rhFuel t) false t (.start t h val)

/-- `bare_rh_insert_bounded`. -/
def bareRhInsertBounded (rz : HtBare → Option (Bool × HtBare)) (t : HtBare) (h val : ℕ) :
    Option (Bool × HtBare) :=
  if t.capacity = 0 then bareRhInsertUnbounded rz t h val
  else rhLoop rz (rhFuel t) true t (.start t h val)

/-! ## Deletion with backward shift -/

/-- The loop of `bare_verify_ideal_safe`: `n` more slots from `i` on. -/
def verifyFrom (t : HtBare) (idx : ℕ) : ℕ → ℕ → ℕ → Bool
  | 0, _, _ => true
  | n + 1, i, writeOffset =>
    let s := t.slot ((idx + 1 + i) % t.capacity)
    if ¬ s.Live then verifyFrom t idx n (i + 1) writeOffset
    else
      let target := (idx + writeOffset) % t.capacity
      let ideal := s.hash % t.capacity
      if ideal > target ∧ ideal - target < t.capacity / 2 then false
      else if (i + 1) - writeOffset > s.pd then false
      else verifyFrom t idx n (i + 1) (writeOffset + 1)

/-- `bare_verify_ideal_safe`. -/
def bareVerifyIdealSafe (t : HtBare) (idx len : ℕ) : Bool := verifyFrom t idx len 0 0

/-- The loop of `bare_commit_backward_shift`: `n` more slots from `i` on. -/
def commitFrom (idx : ℕ) : ℕ → ℕ → ℕ → HtBare → HtBare
  | 0, _, _, t => t
  | n + 1, i, writeOffset, t =>
    let readPos := (idx + 1 + i) % t.capacity
    let s := t.slot readPos
    if s.Live then
      let writePos := (idx + writeOffset) % t.capacity
      let shift := (i + 1) - writeOffset
      let t := t.setSlot writePos (hpdPack s.hash (s.pd - shift) s.val)
      commitFrom idx n (i + 1) (writeOffset + 1) (t.setSlot readPos Slot.emptySlot)
    else
      let t := { t with tombstoneCnt := sizeDec t.tombstoneCnt }
      commitFrom idx n (i + 1) writeOffset (t.setSlot readPos Slot.emptySlot)

/-- `bare_commit_backward_shift`. -/
def bareCommitBackwardShift (t : HtBare) (idx len : ℕ) : HtBare :=
  let t := commitFrom idx len 0 0 t
  { t with tombstoneCnt := sizeDec t.tombstoneCnt }

/-- The scan of `bare_delete_compact`, `n` more slots from `scan` on:
`(chain_len, live_count, ends_at_empty)`. -/
def chainScan (t : HtBare) : ℕ → ℕ → ℕ → ℕ → ℕ × ℕ × Bool
  | 0, _, chain, live => (chain, live, false)
  | n + 1, scan, chain, live =>
    let s := t.slot scan
    if s.Empty then (chain, live, true)
    else if s.Tomb then chainScan t n ((scan + 1) % t.capacity) (chain + 1) live
    else if s.pd = 0 then (chain, live, false)
    else chainScan t n ((scan + 1) % t.capacity) (chain + 1) (live + 1)

/-- `bare_delete_compact`. -/
def bareDeleteCompact (t : HtBare) (idx : ℕ) : HtBare :=
  let (chain, live, endsAtEmpty) := chainScan t bshiftCap ((idx + 1) % t.capacity) 0 0
  if endsAtEmpty ∧ live > 0 ∧ bareVerifyIdealSafe t idx chain then
    bareCommitBackwardShift t idx chain
  else t

/-- The slot at `idx` becomes a tombstone and the chain behind it is compacted. -/
def deleteAt (t : HtBare) (idx : ℕ) : HtBare :=
  bareDeleteCompact
    { t.setSlot idx Slot.tombSlot with
      size := sizeDec t.size, tombstoneCnt := t.tombstoneCnt + 1 } idx

/-! ## Prophylactic tombstones, reinsertion -/

/-- `bare_compute_x`. -/
def bareComputeX (t : HtBare) : ℚ :=
  let lf : ℚ := t.size / t.capacity
  if lf ≥ 1 then t.capacity else if lf < 1 / 100 then 1 else 1 / (1 - lf)

/-- The distance between prophylactic tombstones. -/
def prophylacticSpacing (t : HtBare) : ℕ := max 4 (Nat.floor (bareComputeX t * 3))

/-- A tombstone at `pos` if the slot is empty. -/
def plantTomb (t : HtBare) (pos : ℕ) : HtBare :=
  if (t.slot pos).Empty then
    { t.setSlot pos Slot.tombSlot with tombstoneCnt := t.tombstoneCnt + 1 }
  else t

/-- `bare_place_prophylactic_tombstones`: every `spacing`-th slot from 0 on. -/
def barePlaceProphylacticTombstones (t : HtBare) : HtBare :=
  let spacing := prophylacticSpacing t
  ((List.range ((t.capacity + spacing - 1) / spacing)).map (· * spacing)).foldl plantTomb t

/-- Inserts the entries one by one; the results of the insertions are ignored. -/
def reinsert (rz : HtBare → Option (Bool × HtBare)) : HtBare → List (ℕ × ℕ) → Option HtBare
  | t, [] => some t
  | t, (h, v) :: es =>
    match bareRhInsertBounded rz t h v with
    | none => none
    | some (_, t) => reinsert rz t es

/-- The entry a slot holds. -/
def Slot.entry (s : Slot) : Option (ℕ × ℕ) := if s.Live then some (s.hash, s.val) else none

/-- The live entries of a main array, in slot order. -/
def liveEntries (main : List Slot) : List (ℕ × ℕ) := main.filterMap Slot.entry

/-- `bare_reinsert_main`. -/
def bareReinsertMain (rz : HtBare → Option (Bool × HtBare)) (t : HtBare) (old : List Slot) :
    Option HtBare :=
  reinsert rz t (liveEntries old)

/-- `bare_reinsert_spill`. -/
def bareReinsertSpill (t : HtBare) (old : List (ℕ × ℕ)) : HtBare :=
  old.foldl (fun t e => if e.2 = valNone then t else (bareSpillInsert t e.1 e.2).2) t

/-- `bare_alloc_main_block`: does the block get allocated? -/
def bareAllocMainBlock (t : HtBare) (capacity : ℕ) : Bool × HtBare :=
  if capacity > sizeMax / 12 then (false, t) else malloc t

/-- The table with fresh, empty blocks. -/
def freshBlocks (t : HtBare) (capacity : ℕ) : HtBare :=
  { t with
    main := List.replicate capacity Slot.emptySlot
    size := 0
    tombstoneCnt := 0
    spill := []
    spillCap := max t.spill.length spillInitial
    spillInBlock := false
    overflow := []
    overflowViolated := false }

/-- The common part of `bare_resize_table` and `ht_bare_compact`: every entry goes into fresh blocks
of the given capacity. -/
def rebuild (rz : HtBare → Option (Bool × HtBare)) (t : HtBare) (capacity : ℕ) : Option HtBare := do
  let t₁ ← bareReinsertMain rz (freshBlocks t capacity) t.main
  let t₂ := bareReinsertSpill t₁ t.spill
  let t₃ ← reinsert rz t₂ t.overflow
  some (barePlaceProphylacticTombstones t₃)

/-- `bare_resize_table` called from an insertion that itself is part of a resize: `resizing` is set
and the call returns false. -/
def nestedResize (t : HtBare) : Option (Bool × HtBare) :=
  if t.resizing then some (false, t) else none

/-- `bare_resize_table`. -/
def bareResizeTable (t : HtBare) : Option (Bool × HtBare) :=
  if t.resizing then some (false, t)
  else if t.size > sizeMax / 2 then some (false, t)
  else
    let newCapacity := max (nextPow2 (t.size * 2)) 4
    match bareAllocMainBlock t newCapacity with
    | (false, t) => some (false, t)
    | (true, t) =>
      match malloc t with
      | (false, t) => some (false, t)
      | (true, t) =>
        match rebuild nestedResize { t with resizing := true } newCapacity with
        | none => none
        | some t => some (true, { t with resizing := false })

/-! ## Public interface -/

/-- The fields of `ht_config_t` that the bare table reads. -/
structure HtConfig where
  initialCapacity : ℕ
  maxLoadFactor : ℚ
  minLoadFactor : ℚ
  maxProbeDist : ℕ

/-- `default_cfg`. -/
def defaultCfg : HtConfig := ⟨64, 3 / 4, 1 / 5, 255⟩

/-- The clamped `max_load_factor`. -/
def clampLoadFactor (q : ℚ) : ℚ := if q ≤ 0 then 3 / 4 else if q > 97 / 100 then 97 / 100 else q

/-- An empty table with the given capacity and configuration. -/
def emptyTable (cfg : HtConfig) (capacity maxProbeDist : ℕ) (mem : List Bool) (fuel : ℕ) :
    HtBare where
  main := List.replicate capacity Slot.emptySlot
  size := 0
  tombstoneCnt := 0
  spill := []
  spillCap := spillInitial
  spillInBlock := false
  overflow := []
  overflowViolated := false
  resizing := false
  maxLoadFactor := clampLoadFactor cfg.maxLoadFactor
  minLoadFactor := if cfg.minLoadFactor ≥ 0 then cfg.minLoadFactor else 1 / 5
  maxProbeDist := maxProbeDist
  mem := mem
  fuel := fuel

/-- `ht_bare_create` with its own allocations succeeding; `mem` are the outcomes of later ones. The
configuration is refused when the size of the main block overflows. -/
def htBareCreate (cfg : HtConfig) (mem : List Bool) (fuel : ℕ) : Option HtBare :=
  let cap := nextPow2 (max cfg.initialCapacity 4)
  if cap > sizeMax / 12 then none
  else some (emptyTable cfg cap
    (if cfg.maxProbeDist = 0 then 255 else min cfg.maxProbeDist (2 ^ 16 - 1)) mem fuel)

/-- `ht_bare_clear`. -/
def htBareClear (t : HtBare) : HtBare :=
  { t with
    main := List.replicate t.capacity Slot.emptySlot
    size := 0, tombstoneCnt := 0, spill := [], overflow := [], overflowViolated := false }

/-- `ht_bare_resize`. -/
def htBareResize (t : HtBare) (newCapacity : ℕ) : Option (Bool × HtBare) :=
  if newCapacity < t.mainLive then some (false, t) else bareResizeTable t

/-- `ht_bare_compact`. -/
def htBareCompact (t : HtBare) : Option HtBare :=
  match bareAllocMainBlock t t.capacity with
  | (false, t) => some t
  | (true, t) =>
    match malloc t with
    | (false, t) => some t
    | (true, t) => rebuild bareResizeTable t t.capacity

/-- The main array would exceed the load factor with one more entry. -/
def overLoaded (t : HtBare) : Prop :=
  t.resizing = false ∧ ((t.mainLive + 1 : ℕ) : ℚ) / t.capacity > t.maxLoadFactor

instance (t : HtBare) : Decidable (overLoaded t) := inferInstanceAs (Decidable (_ ∧ _))

/-- The resize of `ht_bare_insert` on account of the load factor. -/
def loadResize (t : HtBare) : Option (Bool × HtBare) :=
  if overLoaded t then
    if t.capacity > sizeMax / 2 then some (false, t) else htBareResize t (t.capacity * 2)
  else some (true, t)

/-- `ht_bare_insert` up to the call of `bare_rh_insert_bounded`: the resize on account of the load
factor and the one on account of a full overflow stash. `some (false, _)` is a `return false`. -/
def insertPrepare (t : HtBare) : Option (Bool × HtBare) :=
  match loadResize t with
  | none => none
  | some (false, t) => some (false, t)
  | some (true, t) =>
    if 0 < t.maxProbeDist ∧ t.overflow.length = overflowStashCap then
      htBareResize t (t.capacity * 2 % 2 ^ 64)
    else some (true, t)

/-- `ht_bare_insert`. -/
def htBareInsert (t : HtBare) (hash val : ℕ) : Option (Bool × HtBare) :=
  if val = valNone then some (false, t)
  else if h48 hash < 2 then some (bareSpillInsert t (h48 hash) val)
  else
    match insertPrepare t with
    | none => none
    | some (false, t) => some (false, t)
    | some (true, t) => bareRhInsertBounded bareResizeTable t (h48 hash) val

/-- A lookup stops at a live slot: `hpd_pd(slot_hpd) < dist`, or the probe limit. -/
def searchStops (t : HtBare) (s : Slot) (dist : ℕ) : Prop :=
  s.pd < dist ∨ (t.overflowViolated = false ∧ 0 < t.maxProbeDist ∧ t.maxProbeDist < dist)

instance (t : HtBare) (s : Slot) (d : ℕ) : Decidable (searchStops t s d) :=
  inferInstanceAs (Decidable (_ ∨ _))

/-- The probe loop of `ht_bare_find_all`: the values offered to the callback. -/
def findAllFrom (t : HtBare) (h : ℕ) : ℕ → ℕ → ℕ → List ℕ
  | 0, _, _ => []
  | n + 1, idx, dist =>
    let s := t.slot idx
    let rest := findAllFrom t h n ((idx + 1) % t.capacity) ((dist + 1) % 2 ^ 16)
    if s.Empty then []
    else if s.Tomb then rest
    else if searchStops t s dist then []
    else if s.hash = h then s.val :: rest
    else rest

/-- The values of the entries of a lane under one hash. -/
def laneVals (lane : List (ℕ × ℕ)) (h : ℕ) : List ℕ := (lane.filter fun e => e.1 = h).map (·.2)

/-- `ht_bare_find_all` with a callback that never stops. -/
def htBareFindAll (t : HtBare) (hash : ℕ) : List ℕ :=
  if h48 hash < 2 then laneVals t.spill (h48 hash)
  else findAllFrom t (h48 hash) (t.capacity + 1) (h48 hash % t.capacity) 0 ++
    laneVals t.overflow (h48 hash)

/-- The probe loop of `ht_bare_find`. -/
def findFrom (t : HtBare) (h : ℕ) : ℕ → ℕ → ℕ → Option ℕ
  | 0, _, _ => none
  | n + 1, idx, dist =>
    let s := t.slot idx
    let rest := findFrom t h n ((idx + 1) % t.capacity) ((dist + 1) % 2 ^ 16)
    if s.Empty then none
    else if s.Tomb then rest
    else if searchStops t s dist then none
    else if s.hash = h then some s.val
    else rest

/-- The first entry of a lane under one hash. -/
def laneFind (lane : List (ℕ × ℕ)) (h : ℕ) : Option ℕ := (lane.find? fun e => e.1 = h).map (·.2)

/-- `ht_bare_find`: `some` of `*out_val` when it returns true. -/
def htBareFind (t : HtBare) (hash : ℕ) : Option ℕ :=
  if h48 hash < 2 then laneFind t.spill (h48 hash)
  else
    match findFrom t (h48 hash) (t.capacity + 1) (h48 hash % t.capacity) 0 with
    | some v => some v
    | none => laneFind t.overflow (h48 hash)

/-- The probe loop of `ht_bare_remove_val`: the table after the removal, if one happens. -/
def removeValFrom (t : HtBare) (h val : ℕ) : ℕ → ℕ → ℕ → Option HtBare
  | 0, _, _ => none
  | n + 1, idx, dist =>
    let s := t.slot idx
    let rest := removeValFrom t h val n ((idx + 1) % t.capacity) ((dist + 1) % 2 ^ 16)
    if s.Empty then none
    else if s.Tomb then rest
    else if s.pd < dist then none
    else if s.hash = h ∧ s.val = val then some (deleteAt t idx)
    else rest

/-- `ht_bare_remove_val`. -/
def htBareRemoveVal (t : HtBare) (hash val : ℕ) : Bool × HtBare :=
  if h48 hash < 2 then bareSpillRemoveVal t (h48 hash) val
  else
    match removeValFrom t (h48 hash) val (t.capacity + 1) (h48 hash % t.capacity) 0 with
    | some t => (true, t)
    | none => overflowStashRemoveVal t (h48 hash) val

/-- The probe loop of `ht_bare_remove`; a removal stays at its slot. -/
def removeFrom (h : ℕ) : ℕ → ℕ → ℕ → ℕ → HtBare → ℕ × HtBare
  | 0, _, _, removed, t => (removed, t)
  | n + 1, idx, dist, removed, t =>
    let s := t.slot idx
    if s.Empty then (removed, t)
    else if s.Tomb then
      removeFrom h n ((idx + 1) % t.capacity) ((dist + 1) % 2 ^ 16) removed t
    else if s.pd < dist then (removed, t)
    else if s.hash = h then removeFrom h n idx dist (removed + 1) (deleteAt t idx)
    else removeFrom h n ((idx + 1) % t.capacity) ((dist + 1) % 2 ^ 16) removed t

/-- `ht_bare_remove`. -/
def htBareRemove (t : HtBare) (hash : ℕ) : ℕ × HtBare :=
  if h48 hash < 2 then bareSpillRemove t (h48 hash)
  else
    let (removed, t) := removeFrom (h48 hash) (t.capacity + 1) (h48 hash % t.capacity) 0 0 t
    let (more, t) := overflowStashRemove t (h48 hash)
    (removed + more, t)

end Draugr
