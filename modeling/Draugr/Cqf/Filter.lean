import Draugr.Cqf.Defs
import Draugr.Qf.RankSelect
import Mathlib.Data.Nat.Log

/-!
# The counting quotient filter

Model of `src/cqf_filter.c`. A fingerprint is a quotient and a remainder. The entries of a quotient
are a run of slots; the occupied bit of the quotient says that there is one, the run-end bit of a
slot that a run ends there, and the run of the occupied quotient number `k` ends at the run-end bit
number `k`. The bit `phys` of a slot says whether data is in it.

* The bit vectors, the prefix sums and the remainder table are functions from places.
* A run with `rstart > rend` comes from a number of a run that there is not. The first call of
  `cqf_decode_entry` in it fails, and the scan goes on from the slot 0.
* `cqf_filter_create` does not return when no power of two in 64 bits reaches the capacity. The
  outcomes of the calls of `malloc` are an argument.
-/

namespace Draugr.Cqf
open Draugr.Lib Draugr.Qf

/-- `cqf_err_t`. -/
inductive CqfErr where
  | ok | invalidParam | full | notFound | alloc | overflow
deriving DecidableEq, Repr

/-- `cqf_filter_t` with the arrays behind it. -/
structure CqfFilter where
  numSlots : ℕ
  numBlocks : ℕ
  count : ℕ
  distinctCount : ℕ
  remainderBits : ℕ
  compatVersion : ℕ
  hashSeed : ℕ
  occ : Bits
  run : Bits
  phys : Bits
  occPrefix : ℕ → ℕ
  runPrefix : ℕ → ℕ
  offsets : ℕ → ℕ
  tbl : ℕ → ℕ

/-- `while (num_slots < capacity) num_slots *= 2`, at most `n` times. -/
def doubleTo (capacity : ℕ) : ℕ → ℕ → Option ℕ
  | 0, numSlots => if numSlots < capacity then none else some numSlots
  | n + 1, numSlots => if numSlots < capacity then doubleTo capacity n (numSlots * 2 % 2 ^ 64)
    else some numSlots

/-- `fp_bits` within its bounds. -/
def clampBits (fpBits : ℕ) : ℕ :=
  let fpBits := if fpBits = 0 then 10 else fpBits
  let fpBits := if fpBits < 2 then 2 else fpBits
  if 32 < fpBits then 32 else fpBits

/-- `cqf_filter_create`: `none` when it does not return, `some none` for `NULL`. The doubled value
is 0 from the 64th doubling on. -/
def cqfFilterCreate (malloc : Bool) (capacity fpBits : ℕ) : Option (Option CqfFilter) :=
  if capacity = 0 then some none
  else
    let rbits := clampBits fpBits
    (doubleTo capacity 64 1).map fun numSlots =>
      let numSlots := if numSlots < 64 then 64 else numSlots
      let qb := Nat.log 2 numSlots
      -- quotient and remainder have to fit into a hash
      if 64 < qb + rbits then none
      else if malloc then
        some
          { numSlots := numSlots
            numBlocks := numSlots / 64
            count := 0
            distinctCount := 0
            remainderBits := rbits
            compatVersion := 1
            hashSeed := 0
            occ := fun _ => false
            run := fun _ => false
            phys := fun _ => false
            occPrefix := fun _ => 0
            runPrefix := fun _ => 0
            offsets := fun _ => 0
            tbl := fun _ => 0 }
      else none

/-- What the scan of a run finds: the entry of a remainder with its count and the position behind
it, or the position where the remainder belongs. -/
inductive Scan where
  | found (pos cnt next : ℕ)
  | missing (insPos : ℕ)
deriving DecidableEq, Repr

namespace CqfFilter

/-- The quotient of a hash. -/
def quotient (cf : CqfFilter) (hash : UInt64) : ℕ :=
  (hash.toNat >>> cf.remainderBits) &&& (cf.numSlots - 1)

/-- The remainder of a hash. -/
def remainder (cf : CqfFilter) (hash : UInt64) : ℕ := hash.toNat &&& (2 ^ cf.remainderBits - 1)

/-- `rank_occ_fast`. -/
def rankOcc (cf : CqfFilter) (pos : ℕ) : ℕ := Qf.rankOcc cf.occ cf.occPrefix pos

/-- `select_run_fast`. -/
def selectRun (cf : CqfFilter) (k : ℕ) : ℕ :=
  Qf.selectRun cf.run cf.runPrefix cf.numBlocks cf.numSlots k

/-- `run_start_cqf`. -/
def runStart (cf : CqfFilter) (k : ℕ) : ℕ :=
  if k = 1 then 0 else (cf.selectRun ((k + (2 ^ 64 - 1)) % 2 ^ 64) + 1) % cf.numSlots

/-- The loop of `find_run` for the occupied quotient before `search`, over `n` quotients. -/
def prevOccupied (cf : CqfFilter) : ℕ → ℕ → Option ℕ
  | 0, _ => none
  | n + 1, search =>
    let search := (if search = 0 then cf.numSlots else search) - 1
    if cf.occ search then some search else prevOccupied cf n search

/-- `find_run`: the first and the last slot, if there is a run. -/
def findRun (cf : CqfFilter) (q : ℕ) : Option (ℕ × ℕ) :=
  if cf.occ q then some (cf.runStart (cf.rankOcc q), cf.selectRun (cf.rankOcc q))
  else if cf.run q then
    match cf.prevOccupied cf.numSlots q with
    | some search => some (cf.runStart (cf.rankOcc search), cf.selectRun (cf.rankOcc search))
    | none => some (cf.runStart 1, q)
  else none

/-! ## The index -/

/-- The loop of `update_offsets` for the block where the run number `occSeen` ends: the block and
the number of run ends before it. -/
def seekBlock (cf : CqfFilter) (occSeen : ℕ) : ℕ → ℕ × ℕ → ℕ × ℕ
  | 0, s => s
  | n + 1, (rw, consumed) =>
    if rw < cf.numBlocks then
      let wPop := popcount (word cf.run rw)
      if occSeen ≤ consumed + wPop then (rw, consumed)
      else seekBlock cf occSeen n (rw + 1, consumed + wPop)
    else (rw, consumed)

/-- The offsets that the loop of `update_offsets` writes for the blocks `[b, b + n)`. -/
def offsetLoop (cf : CqfFilter) : ℕ → ℕ → ℕ → ℕ × ℕ → (ℕ → ℕ) → ℕ → ℕ
  | 0, _, _, _, off => off
  | n + 1, b, occSeen, s, off =>
    let occSeen := occSeen + popcount (word cf.occ b)
    let s := if 0 < occSeen then cf.seekBlock occSeen (cf.numBlocks + 1) s else s
    let rend := if s.1 < cf.numBlocks then s.1 * 64 + select64 (word cf.run s.1) (occSeen - s.2)
      else cf.numSlots - 1
    let o := if 0 < occSeen ∧ b * 64 < rend then rend - b * 64 else 0
    offsetLoop cf n (b + 1) occSeen s (Function.update off b (if 255 < o then 255 else o))

/-- `update_offsets`. -/
def updateOffsets (cf : CqfFilter) : CqfFilter :=
  { cf with
    occPrefix := sumBlocks cf.occ cf.numBlocks 0 (Function.update cf.occPrefix 0 0)
    runPrefix := sumBlocks cf.run cf.numBlocks 0 (Function.update cf.runPrefix 0 0)
    offsets := cf.offsetLoop cf.numBlocks 0 0 (0, 0) cf.offsets }

/-! ## Shifts -/

/-- The body of the loops of `shift_range_right`. -/
def shiftSlot (cf : CqfFilter) (i : ℕ) : CqfFilter :=
  { cf with
    tbl := remSet cf.remainderBits (remSet cf.remainderBits cf.tbl (i + 1) (cf.tbl i)) i 0
    phys := movePhysOcc cf.phys i (i + 1)
    run := if cf.run i then clearBit (setBit cf.run (i + 1)) i else cf.run }

/-- `for (i = s + n; i > s; i--)` in `shift_range_right`. -/
def shiftLoop (cf : CqfFilter) (s : ℕ) : ℕ → CqfFilter
  | 0 => cf
  | n + 1 => shiftLoop (cf.shiftSlot (s + n)) s n

/-- `shift_range_right`. -/
def shiftRangeRight (cf : CqfFilter) (s t : ℕ) : CqfFilter :=
  if s < t then (cf.shiftLoop s (t - s)).updateOffsets
  else if t < s then
    let ns := cf.numSlots
    let lastVal := cf.tbl (ns - 1)
    let lastRun := cf.run (ns - 1)
    let cf := (cf.shiftLoop s (ns - 1 - s)).shiftLoop 0 t
    { cf with
      tbl := remSet cf.remainderBits cf.tbl 0 lastVal
      run := clearBit (if lastRun then setBit cf.run 0 else clearBit cf.run 0) (ns - 1)
      phys := clearBit cf.phys (ns - 1) }.updateOffsets
  else cf

/-- The body of the loops that move the slots behind an entry. -/
def moveSlot (cf : CqfFilter) (src dst : ℕ) : CqfFilter :=
  { cf with
    tbl := remSet cf.remainderBits cf.tbl dst (cf.tbl src)
    phys := movePhysOcc cf.phys src dst
    run := if cf.run src then clearBit (setBit cf.run dst) src else clearBit cf.run dst }

/-- `for (k = 0; k < n; k++)`: the slots from `src` on go to `dst`, the first one first. -/
def moveLeft (cf : CqfFilter) (src dst : ℕ) : ℕ → CqfFilter
  | 0 => cf
  | n + 1 => (moveLeft cf src dst n).moveSlot ((src + n) % cf.numSlots) ((dst + n) % cf.numSlots)

/-- `for (k = n; k > 0; k--)`: the slots from `src` on go to `dst`, the last one first. -/
def moveRight (cf : CqfFilter) (src dst : ℕ) : ℕ → CqfFilter
  | 0 => cf
  | n + 1 => moveRight (cf.moveSlot ((src + n) % cf.numSlots) ((dst + n) % cf.numSlots)) src dst n

/-- The body of the loops that clear slots. -/
def clearSlot (cf : CqfFilter) (p : ℕ) : CqfFilter :=
  { cf with
    tbl := remSet cf.remainderBits cf.tbl p 0
    run := clearBit cf.run p
    phys := clearBit cf.phys p }

/-- Clears the slots `[s, s + n)`. -/
def clearSlots (cf : CqfFilter) (s : ℕ) : ℕ → CqfFilter
  | 0 => cf
  | n + 1 => (clearSlots cf s n).clearSlot (s + n)

/-- Clears the run-end bits of `[s, s + n)`. -/
def clearRun (run : Bits) (s : ℕ) : ℕ → Bits
  | 0 => run
  | n + 1 => clearBit (clearRun run s n) (s + n)

/-- `track_phys_occ` for the slots `[s, s + n)`. -/
def trackPhys (phys : Bits) (s : ℕ) : ℕ → Bits
  | 0 => phys
  | n + 1 => setBit (trackPhys phys s n) (s + n)

/-! ## Entries -/

/-- Where the scan of a run starts. -/
def scanStart (rstart rend : ℕ) : ℕ := if rend < rstart then 0 else rstart

/-- The loop of `cqf_filter_insert` and of `cqf_filter_delete` that looks for a remainder in a
run. -/
def scanRun (cf : CqfFilter) (rend rem : ℕ) : ℕ → ℕ → ℕ → Scan
  | 0, _, insPos => .missing insPos
  | n + 1, pos, insPos =>
    if rend < pos then .missing insPos
    else
      match cqfDecodeEntry cf.remainderBits cf.tbl cf.phys rend pos with
      | none => .missing insPos
      | some (x, cnt, next) =>
        if x = rem then .found pos cnt next
        else if rem < x then .missing pos
        else scanRun cf rend rem n next next

/-- The end of the last run, and `rend` if there is none. -/
def lastEnd (cf : CqfFilter) (rend : ℕ) : ℕ :=
  let total := cf.rankOcc (cf.numSlots - 1)
  if 0 < total then cf.selectRun total else rend

/-- `while (n < s + k && !slot_is_free(cf, n)) n++` from `s` on. -/
def skipUsed (phys : Bits) : ℕ → ℕ → ℕ
  | 0, s => s
  | k + 1, s => if phys s then skipUsed phys k (s + 1) else s

/-- The search for a free slot from `start` on, around the end of the table. -/
def firstFree (cf : CqfFilter) (start : ℕ) : Option ℕ :=
  let n := skipUsed cf.phys (cf.numSlots - start) start
  if cf.numSlots ≤ n then
    let n := skipUsed cf.phys start 0
    if start ≤ n then none else some n
  else some n

/-- Opens the slot `insPos` by a shift up to a free slot and puts the remainder there. -/
def place (cf : CqfFilter) (insPos freeSlot rem : ℕ) : CqfFilter :=
  let cf := if insPos ≠ freeSlot then cf.shiftRangeRight insPos freeSlot else cf
  { cf with
    tbl := remSet cf.remainderBits cf.tbl insPos rem
    phys := setBit cf.phys insPos }

/-- Writes the symbols of the new count over those of the old one. -/
def rewriteSymbols (cf : CqfFilter) (pos rem oldCount newCount : ℕ) : CqfFilter :=
  let enc := cqfEncode newCount rem cf.remainderBits
  { cf with
    tbl :=
      if rem = 0 ∧ 3 ≤ oldCount then remSetAll cf.remainderBits cf.tbl (pos + 2) enc
      else if rem ≠ 0 ∧ 2 < oldCount then remSetAll cf.remainderBits cf.tbl (pos + 1) enc
      else cf.tbl }

/-- The number of slots from `dataAfter` up to `limit`. -/
def tailSlots (cf : CqfFilter) (rstart rend dataAfter limit : ℕ) : ℕ :=
  if rstart ≤ rend then if dataAfter ≤ limit then limit - dataAfter + 1 else 0
  else
    let da := dataAfter % cf.numSlots
    let sl := limit % cf.numSlots
    if da ≤ sl then sl - da + 1 else cf.numSlots - da + sl + 1

/-- The part of `cqf_filter_insert` and of `cqf_filter_delete` that gives the entry at `pos` another
number of slots: the `tail` slots behind it move, and the entry is written with its new count. -/
def resizeEntry (cf : CqfFilter) (rend pos oldSlots newSlots rem newCount limit tail : ℕ) :
    CqfFilter :=
  let ns := cf.numSlots
  let dataAfter := pos + oldSlots
  let newDataStart := pos + newSlots
  let cf :=
    if newDataStart < dataAfter then cf.moveLeft dataAfter newDataStart tail
    else cf.moveRight dataAfter newDataStart tail
  let cf := cf.clearSlots pos newSlots
  let w := cqfWriteEntry cf.remainderBits cf.tbl pos rem newCount
  -- the run ends as many slots later or earlier as the entry has gained or lost
  let newRend :=
    if oldSlots ≤ rend + newSlots then (rend + newSlots - oldSlots) % ns
    else (rend + newSlots + ns - oldSlots) % ns
  let cf :=
    { cf with
      tbl := w.1
      phys := trackPhys cf.phys pos w.2
      run := setBit (clearBit cf.run newRend) newRend }
  -- the slots that a shorter entry leaves behind
  if newSlots < oldSlots then
    let newLast := if 0 < tail then (newDataStart + tail - 1) % ns else (newDataStart - 1) % ns
    if newLast + 1 ≤ limit then cf.clearSlots (newLast + 1) (limit - newLast)
    else if newLast + 1 < ns ∨ 0 < limit then
      (cf.clearSlots (newLast + 1) (ns - (newLast + 1))).clearSlots 0 (limit + 1)
    else cf
  else cf

/-! ## Insertion -/

/-- `cqf_filter_insert` for a quotient without a run. -/
def insertNew (cf : CqfFilter) (q rem : ℕ) : CqfErr × CqfFilter :=
  let rk := cf.rankOcc q
  let s := cf.selectRun rk
  let insPos := if rk = 0 then 0 else (s + 1) % cf.numSlots
  -- the search for a free slot starts behind the last run of the filter
  match cf.firstFree ((cf.lastEnd s + 1) % cf.numSlots) with
  | none => (.full, cf)
  | some n =>
    let cf := cf.place insPos n rem
    (.ok, { cf with
      run := setBit cf.run insPos
      occ := setBit cf.occ q
      count := cf.count + 1
      distinctCount := (cf.distinctCount + 1) % 2 ^ 64 }.updateOffsets)

/-- `cqf_filter_insert` for a remainder that the scan has found. -/
def increment (cf : CqfFilter) (rem rstart rend pos cnt next : ℕ) : CqfErr × CqfFilter :=
  let newCount := (cnt + 1) % 2 ^ 64
  if newCount = 0 then (.overflow, cf)
  else
    let newSlots := cqfEncSlots newCount rem cf.remainderBits
    let oldSlots := next - pos
    -- a count of the same length is rewritten in place
    if newSlots = oldSlots then
      (.ok, { cf.rewriteSymbols pos rem cnt newCount with count := cf.count + 1 }.updateOffsets)
    else
      let limit := if newSlots < oldSlots then rend else cf.lastEnd rend
      let tail := cf.tailSlots rstart rend (pos + oldSlots) limit
      -- an entry that would grow past the last slot is refused
      if oldSlots < newSlots ∧ rstart ≤ rend ∧ cf.numSlots < pos + newSlots + tail then (.full, cf)
      else
        (.ok, { cf.resizeEntry rend pos oldSlots newSlots rem newCount limit tail with
          count := cf.count + 1 }.updateOffsets)

/-- `cqf_filter_insert` for a remainder that the scan has not found. -/
def insertAt (cf : CqfFilter) (rem rend insPos : ℕ) : CqfErr × CqfFilter :=
  match cf.firstFree ((cf.lastEnd rend + 1) % cf.numSlots) with
  | none => (.full, cf)
  | some n =>
    let cf := cf.place insPos n rem
    (.ok, { cf with
      run := if (rend + 1) % cf.numSlots = insPos then setBit (clearBit cf.run rend) insPos
        else cf.run
      count := cf.count + 1
      distinctCount := (cf.distinctCount + 1) % 2 ^ 64 }.updateOffsets)

/-- `cqf_filter_insert` for a quotient with a run. -/
def insertRun (cf : CqfFilter) (q rem : ℕ) : CqfErr × CqfFilter :=
  let rk := cf.rankOcc q
  let rstart := if 1 < rk then cf.selectRun (rk - 1) + 1 else 0
  let rend := cf.selectRun rk
  match cf.scanRun rend rem (rend + 1) (scanStart rstart rend) ((rend + 1) % cf.numSlots) with
  | .found pos cnt next => cf.increment rem rstart rend pos cnt next
  | .missing insPos => cf.insertAt rem rend insPos

end CqfFilter

/-- `cqf_filter_insert`. -/
def cqfFilterInsert (cf : CqfFilter) (hash : UInt64) : CqfErr × CqfFilter :=
  if cf.numSlots * 16 % 2 ^ 64 ≤ cf.count then (.full, cf)
  else
    let q := cf.quotient hash
    let rem := cf.remainder hash
    if cf.occ q then cf.insertRun q rem else cf.insertNew q rem

/-! ## Deletion -/

namespace CqfFilter

/-- The part of `cqf_filter_delete` that takes an entry with count one out of the run `[rstart,
rend]`. -/
def removeEntry (cf : CqfFilter) (q rstart rend pos oldSlots : ℕ) : CqfFilter :=
  let ns := cf.numSlots
  let dataAfter := pos + oldSlots
  let tail := cf.tailSlots rstart rend dataAfter rend
  let cf := cf.moveLeft dataAfter pos tail
  let cf :=
    if 0 < tail then
      let stale := (pos + tail) % ns
      if stale ≤ rend then cf.clearSlots stale (rend + 1 - stale)
      else (cf.clearSlots stale (ns - stale)).clearSlots 0 (rend + 1)
    else cf
  let full := if rstart ≤ rend then rend - rstart + 1 else ns - rstart + rend + 1
  let run :=
    if rstart ≤ rend then clearRun cf.run rstart (rend + 1 - rstart)
    else clearRun (clearRun cf.run rstart (ns - rstart)) 0 (rend + 1)
  let cf :=
    -- it was the only entry of the run
    if full ≤ oldSlots then
      { cf with
        occ := clearBit cf.occ q
        run := run
        distinctCount := (cf.distinctCount + (2 ^ 64 - 1)) % 2 ^ 64 }
    else
      let newRend := if 0 < tail then (pos + tail - 1) % ns else if 0 < pos then pos - 1 else ns - 1
      { cf with run := setBit run newRend }
  { cf with count := cf.count - 1 }.updateOffsets

/-- The part of `cqf_filter_delete` that takes one from the count of an entry. -/
def decrement (cf : CqfFilter) (rem rstart rend pos oldSlots oldCount : ℕ) : CqfFilter :=
  let newCount := oldCount - 1
  let newSlots := cqfEncSlots newCount rem cf.remainderBits
  if newSlots = oldSlots ∧ 2 < oldCount then
    { cf.rewriteSymbols pos rem oldCount newCount with count := cf.count - 1 }
  else
    let limit := cf.lastEnd rend
    let tail := cf.tailSlots rstart rend (pos + oldSlots) limit
    { cf.resizeEntry rend pos oldSlots newSlots rem newCount limit tail with count := cf.count -
      1 }.updateOffsets

end CqfFilter

/-- `cqf_filter_delete`. -/
def cqfFilterDelete (cf : CqfFilter) (hash : UInt64) : CqfErr × CqfFilter :=
  if cf.count = 0 then (.notFound, cf)
  else
    let q := cf.quotient hash
    let rem := cf.remainder hash
    match cf.findRun q with
    | none => (.notFound, cf)
    | some (rstart, rend) =>
      match cf.scanRun rend rem (rend + 1) (CqfFilter.scanStart rstart rend) (rend + 1) with
      | .missing _ => (.notFound, cf)
      | .found pos oldCount next =>
        if oldCount - 1 = 0 then (.ok, cf.removeEntry q rstart rend pos (next - pos))
        else (.ok, cf.decrement rem rstart rend pos (next - pos) oldCount)

/-! ## Queries -/

/-- `cqf_filter_lookup`. -/
def cqfFilterLookup (cf : CqfFilter) (hash : UInt64) : Bool :=
  if cf.count = 0 then false
  else
    match cf.findRun (cf.quotient hash) with
    | none => false
    | some (rstart, rend) =>
      lookupRun cf.remainderBits cf.tbl cf.phys rend (cf.remainder hash) (rend + 1)
      (CqfFilter.scanStart rstart rend)

/-- `cqf_filter_count_occurrences`. -/
def cqfFilterCountOccurrences (cf : CqfFilter) (hash : UInt64) : ℕ :=
  if cf.count = 0 then 0
  else
    match cf.findRun (cf.quotient hash) with
    | none => 0
    | some (rstart, rend) =>
      countRun cf.remainderBits cf.tbl cf.phys rend (cf.remainder hash) (rend + 1)
      (CqfFilter.scanStart rstart rend)

/-- `cqf_filter_validate`. -/
def cqfFilterValidate (cf : CqfFilter) : Bool :=
  let pop := fun bv => ((List.range cf.numBlocks).map fun b => popcount (word bv b)).sum
  if pop cf.occ ≠ pop cf.run then false
  else (List.range cf.numSlots).all fun q =>
    !cf.occ q || decide (cf.selectRun (cf.rankOcc q) < cf.numSlots)

/-- The pairs that `enumerate_pairs` finds in the run of `q`. -/
def CqfFilter.enumerateRun (cf : CqfFilter) (q : ℕ) : List (UInt64 × ℕ) :=
  let rk := cf.rankOcc q
  let rend := cf.selectRun rk
  let rstart := if 1 < rk then cf.selectRun (rk - 1) + 1 else 0
  (decodeRun cf.remainderBits cf.tbl cf.phys rend (rend + 1)
    (CqfFilter.scanStart rstart rend)).1.map fun p =>
    (UInt64.ofNat (q <<< cf.remainderBits ||| p.1), p.2)

/-- `enumerate_pairs`. -/
def enumeratePairs (cf : CqfFilter) : List (UInt64 × ℕ) :=
  (List.range cf.numSlots).flatMap fun q => if cf.occ q then cf.enumerateRun q else []

/-! ## Resizing and merging -/

/-- What `cqf_filter_resize` does: the filter that it returns, whether the old filter is destroyed,
and the number of the next call of `malloc`. -/
structure Resized where
  out : Option CqfFilter
  destroyed : Bool
  calls : ℕ

/-- The loops over the pairs that insert one occurrence after the other. -/
def replay (resize : CqfFilter → ℕ → ℕ → Option Resized) :
    List UInt64 → CqfFilter → ℕ → Option (Option CqfFilter × ℕ)
  | [], out, calls => some (some out, calls)
  | fp :: fps, out, calls =>
    let (e, out) := cqfFilterInsert out fp
    if e = .ok then replay resize fps out calls
    else
      (resize out (out.numSlots * 2 % 2 ^ 64) calls).bind fun r =>
        match r.out with
        | none => some (none, r.calls)
        | some newOut => replay resize fps (cqfFilterInsert newOut fp).2 r.calls

/-- The occurrences that pairs stand for. -/
def occurrences (pairs : List (UInt64 × ℕ)) : List UInt64 :=
  pairs.flatMap fun p => List.replicate p.2 p.1

/-- `cqf_filter_resize`, with at most `fuel` calls of it inside of each other; `malloc` says which
calls of `malloc` succeed. -/
def resizeLoop (malloc : ℕ → Bool) : ℕ → CqfFilter → ℕ → ℕ → Option Resized
  | 0, _, _, _ => none
  | fuel + 1, cf, newCapacity, calls =>
    let pairs := enumeratePairs cf
    let n := pairs.length
    -- an empty filter is given up whether or not the new one can be created
    if n = 0 then
      (cqfFilterCreate (malloc calls) newCapacity cf.remainderBits).map fun out =>
        ⟨out, true, calls + 1⟩
    else if ¬ (malloc calls ∧ malloc (calls + 1)) then some ⟨none, false, calls + 2⟩
    else
      let capacity := if 0 < newCapacity then newCapacity else n * 2
      if capacity < n then some ⟨none, false, calls + 2⟩
      else
        (cqfFilterCreate (malloc (calls + 2)) capacity cf.remainderBits).bind fun
          | none => some ⟨none, false, calls + 3⟩
          | some out =>
            (replay (resizeLoop malloc fuel) (occurrences pairs) out (calls + 3)).map fun
              | (none, calls) => ⟨none, false, calls⟩
              | (some out, calls) => ⟨some out, true, calls⟩

/-- `cqf_filter_resize`. A call inside of another one is for at least twice the slots. -/
def cqfFilterResize (malloc : ℕ → Bool) (cf : CqfFilter) (newCapacity : ℕ) : Option Resized :=
  resizeLoop malloc 64 cf newCapacity 0

/-- `cqf_filter_merge`. The pairs are enumerated twice, with the same result. -/
def cqfFilterMerge (malloc : ℕ → Bool) (cf₁ cf₂ : CqfFilter) : Option (Option CqfFilter) :=
  if cf₁.remainderBits ≠ cf₂.remainderBits then some none
  else if cf₁.compatVersion ≠ cf₂.compatVersion then some none
  else if cf₁.hashSeed ≠ cf₂.hashSeed then some none
  else if cf₁.numSlots ≠ cf₂.numSlots then some none
  else
    let pairs₁ := enumeratePairs cf₁
    let pairs₂ := enumeratePairs cf₂
    if pairs₁.length = 0 ∧ pairs₂.length = 0 then cqfFilterCreate (malloc 0) 64 cf₁.remainderBits
    -- the arrays for the pairs of both filters
    else if ¬ (malloc 0 ∧ malloc 1) then some none
    else
      (cqfFilterCreate (malloc 2) cf₁.numSlots cf₁.remainderBits).bind fun
        | none => some none
        | some out =>
          (replay (resizeLoop malloc 64) (occurrences (pairs₁ ++ pairs₂))
            { out with hashSeed := cf₁.hashSeed } 3).map
            Prod.fst

end Draugr.Cqf
