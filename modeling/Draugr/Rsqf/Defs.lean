import Draugr.Lib.Packed
import Draugr.Qf.RankSelect

/-!
# The rank-and-select quotient filter

Model of `src/rsqf_filter.c`. A fingerprint is a quotient and a remainder. The remainders of a
quotient are a run of slots; the occupied bit of the quotient says that there is one, the run-end
bit of a slot that a run ends there, and the run of the occupied quotient number `k` ends at the
run-end bit number `k`. The bit `phys` of a slot says whether data is in it.

* The bit vectors and the prefix sums are functions from places. The remainders are packed into
  words.
* A call that does not return is `none`: the scan of `rank_select` for the next run end does not
  stop when there is none.
* `rsqf_filter_create` gets its memory.
-/

namespace Draugr.Rsqf
open Draugr.Lib Draugr.Qf

/-- `rsqf_err_t`. -/
inductive RsqfErr where
  | ok | invalidParam | full | notFound | alloc
deriving DecidableEq, Repr

/-- `rsqf_filter_t` with the arrays behind it. -/
structure RsqfFilter where
  numSlots : ℕ
  numBlocks : ℕ
  count : ℕ
  remainderBits : ℕ
  occ : Bits
  run : Bits
  phys : Bits
  occPrefix : ℕ → ℕ
  runPrefix : ℕ → ℕ
  offsets : ℕ → ℕ
  remTable : Words

/-- `next_power_of_2`, in 64 bits. -/
def nextPowerOf2 (n : ℕ) : ℕ :=
  if n = 0 then 1
  else
    let n := n - 1
    let n := n ||| n >>> 1
    let n := n ||| n >>> 2
    let n := n ||| n >>> 4
    let n := n ||| n >>> 8
    let n := n ||| n >>> 16
    let n := n ||| n >>> 32
    (n + 1) % 2 ^ 64

/-- `rsqf_filter_create`. -/
def rsqfFilterCreate (capacity fpBits : ℕ) : Option RsqfFilter :=
  if capacity = 0 then none
  else
    let fpBits := if fpBits = 0 then 10 else fpBits
    let fpBits := if fpBits < 2 then 2 else fpBits
    let fpBits := if 32 < fpBits then 32 else fpBits
    let numBlocks := (nextPowerOf2 capacity + 63) / 64
    some
      { numSlots := numBlocks * 64
        numBlocks := numBlocks
        count := 0
        remainderBits := fpBits
        occ := fun _ => false
        run := fun _ => false
        phys := fun _ => false
        occPrefix := fun _ => 0
        runPrefix := fun _ => 0
        offsets := fun _ => 0
        remTable := fun _ => 0 }

namespace RsqfFilter

/-- The quotient of a hash. -/
def quotient (rf : RsqfFilter) (hash : UInt64) : ℕ :=
  (hash.toNat >>> rf.remainderBits) &&& (rf.numSlots - 1)

/-- The remainder of a hash. -/
def remainder (rf : RsqfFilter) (hash : UInt64) : ℕ := hash.toNat &&& (2 ^ rf.remainderBits - 1)

/-- `rem_get`. -/
def remGet (rf : RsqfFilter) (idx : ℕ) : ℕ :=
  getBits rf.remTable (idx * rf.remainderBits) rf.remainderBits

/-- `rem_set`. -/
def remSet (rf : RsqfFilter) (idx v : ℕ) : RsqfFilter :=
  { rf with
    remTable :=
      setBits rf.remTable (idx * rf.remainderBits) rf.remainderBits (v % 2 ^ rf.remainderBits) }

/-- `slot_is_free`. -/
def slotIsFree (rf : RsqfFilter) (pos : ℕ) : Bool := !rf.phys pos

/-- `rank_occ`. -/
def rankOcc (rf : RsqfFilter) (pos : ℕ) : ℕ := Qf.rankOcc rf.occ rf.occPrefix pos

/-- `select_run`. -/
def selectRun (rf : RsqfFilter) (k : ℕ) : ℕ :=
  Qf.selectRun rf.run rf.runPrefix rf.numBlocks rf.numSlots k

/-- The scan of `rank_select` for `need` more run ends behind `pos`. -/
def scanRunEnds (rf : RsqfFilter) : ℕ → ℕ → ℕ → Option ℕ
  | _, 0, pos => some pos
  | 0, _ + 1, _ => none
  | fuel + 1, need + 1, pos =>
    let pos := if rf.numSlots ≤ pos + 1 then 0 else pos + 1
    let wi := pos / 64
    if rf.numBlocks ≤ wi then some pos
    else
      match ctz fun i => decide (pos % 64 + i < 64) && word rf.run wi (pos % 64 + i) with
      | some skip => scanRunEnds rf fuel need (pos + skip)
      | none => scanRunEnds rf fuel (need + 1) ((wi + 1) * 64 - 1)

/-- `rank_select`. One run end is found in at most `num_blocks + 1` rounds of the scan, if there is
one. -/
def rankSelect (rf : RsqfFilter) (q : ℕ) : Option ℕ :=
  let b := q / 64
  let base := b * 64
  let offVal := rf.offsets b
  if offVal = 255 then some (rf.selectRun (rf.rankOcc q))
  else if q = base then some (q + offVal)
  else
    let rkBase := if 0 < base then rf.rankOcc (base - 1) else 0
    let d := rf.rankOcc (q - 1) - rkBase
    if d = 0 then some (base + offVal)
    else rf.scanRunEnds (d * (rf.numBlocks + 1)) d (base + offVal)

/-- `run_start`. -/
def runStart (rf : RsqfFilter) (k : ℕ) : ℕ :=
  if k = 1 then 0 else (rf.selectRun ((k + (2 ^ 64 - 1)) % 2 ^ 64) + 1) % rf.numSlots

/-- `find_run`: the first and the last slot, if there is a run. -/
def findRun (rf : RsqfFilter) (q : ℕ) : Option (Option (ℕ × ℕ)) :=
  if rf.occ q then (rf.rankSelect q).map fun rend => some (rf.runStart (rf.rankOcc q), rend)
  else if rf.run q then
    let rk := rf.rankOcc q
    let rk := if rk = 0 then rf.rankOcc (rf.numSlots - 1) else rk
    some (some (rf.runStart rk, rf.selectRun rk))
  else some none

/-- `move_slot_right`. -/
def moveSlotRight (rf : RsqfFilter) (dst src : ℕ) : RsqfFilter :=
  let v := rf.remGet src
  let run := if rf.run src then setBit rf.run dst else clearBit rf.run dst
  { (rf.remSet dst v).remSet src 0 with
    run := clearBit run src
    phys := clearBit (movePhysOcc rf.phys src dst) src }

/-- `for (i = s + k; i > s; i--) move_slot_right(rf, i, i - 1)`. -/
def shiftRight (rf : RsqfFilter) (s : ℕ) : ℕ → RsqfFilter
  | 0 => rf
  | k + 1 => shiftRight (rf.moveSlotRight (s + k + 1) (s + k)) s k

/-- The shift over the end of the table, from `s` to the free slot `n` before it. -/
def shiftWrapped (rf : RsqfFilter) (s n : ℕ) : RsqfFilter :=
  let lastRem := rf.remGet (rf.numSlots - 1)
  let lastRunBit := rf.run (rf.numSlots - 1)
  let rf := (rf.shiftRight s (rf.numSlots - 1 - s)).shiftRight 0 n
  { rf.remSet 0 lastRem with
    phys := setBit rf.phys 0
    run := if lastRunBit then setBit rf.run 0 else clearBit rf.run 0 }

/-- Pass 2 of `update_offsets_from` for one block. -/
def blockOffset (rf : RsqfFilter) (b : ℕ) : ℕ :=
  let o :=
    if rf.occPrefix b < rf.occPrefix (b + 1) then
      let rend := rf.selectRun (rf.occPrefix b + 1)
      if b * 64 < rend then rend - b * 64 else 0
    else 0
  if 254 < o then 255 else o

/-- `update_offsets_from`. -/
def updateOffsetsFrom (rf : RsqfFilter) (firstBlock : ℕ) : RsqfFilter :=
  let n := rf.numBlocks - firstBlock
  let occP := if firstBlock = 0 then Function.update rf.occPrefix 0 0 else rf.occPrefix
  let runP := if firstBlock = 0 then Function.update rf.runPrefix 0 0 else rf.runPrefix
  let rf :=
    { rf with
      occPrefix := sumBlocks rf.occ n firstBlock occP
      runPrefix := sumBlocks rf.run n firstBlock runP }
  { rf with
    offsets := (List.range' firstBlock n).foldl
      (fun off b => Function.update off b (rf.blockOffset b)) rf.offsets }

/-- `while (pos < pos + n && !slot_is_free(rf, pos)) pos++`. -/
def skipUsed (rf : RsqfFilter) : ℕ → ℕ → ℕ
  | 0, pos => pos
  | n + 1, pos => if rf.slotIsFree pos then pos else skipUsed rf n (pos + 1)

/-- The search for a free slot from `start` on, around the end of the table. -/
def firstFree (rf : RsqfFilter) (start : ℕ) : Option ℕ :=
  let pos := rf.skipUsed (rf.numSlots - start) start
  if rf.numSlots ≤ pos then
    let pos := rf.skipUsed start 0
    if start ≤ pos then none else some pos
  else some pos

/-- The search for the end of the cluster around `rend`, in at most `n` steps. -/
def clusterEnd (rf : RsqfFilter) : ℕ → ℕ → Option ℕ
  | 0, _ => none
  | n + 1, rend =>
    if rf.slotIsFree ((rend + 1) % rf.numSlots) then some rend
    else clusterEnd rf n ((rend + 1) % rf.numSlots)

/-- Moves `[s, n)` to the right, around the end of the table if `n` is before `s`. -/
def openSlot (rf : RsqfFilter) (s n : ℕ) : RsqfFilter :=
  if s < n then rf.shiftRight s (n - s) else if n < s then rf.shiftWrapped s n else rf

/-- The end of an insertion: the remainder goes to the slot `s`, which is the end of the run of
`q`. -/
def place (rf : RsqfFilter) (q rem s : ℕ) : RsqfFilter :=
  { rf.remSet s rem with
    phys := setBit rf.phys s
    run := setBit rf.run s
    occ := setBit rf.occ q
    count := rf.count + 1 }

/-- The part of `rsqf_filter_insert` for a quotient without a run. -/
def insertNew (rf : RsqfFilter) (q rem : ℕ) : RsqfErr × RsqfFilter :=
  let ns := rf.numSlots
  if rf.slotIsFree q then (.ok, (rf.place q rem q).updateOffsetsFrom (q / 64))
  else
    let rk := rf.rankOcc q
    let s := if 0 < rk then rf.selectRun rk else 0
    let insPos := if 0 < rk then (s + 1) % ns else 0
    -- no run starts at slot 0 behind another one
    if 0 < rk ∧ insPos = 0 then (.full, rf)
    else
      match rf.clusterEnd ns q with
      | none => (.full, rf)
      | some rend =>
        match rf.firstFree ((rend + 1) % ns) with
        | none => (.full, rf)
        | some n =>
          -- the free slot lies before the place, and the shift would carry the end of a run around
          if n < insPos ∧ rf.run (ns - 1) then (.full, rf)
          else
            let fb := if n < insPos then 0 else (if q < insPos then q else insPos) / 64
            (.ok, ((rf.openSlot insPos n).place q rem insPos).updateOffsetsFrom fb)

/-- The part of `rsqf_filter_insert` for a quotient for which a run was found. -/
def insertBehind (rf : RsqfFilter) (q rem rend : ℕ) : RsqfErr × RsqfFilter :=
  let ns := rf.numSlots
  let s := if ns ≤ rend + 1 then 0 else rend + 1
  match rf.firstFree s with
  | none => (.full, rf)
  | some n =>
    let occWasSet := rf.occ q
    if s = 0 ∧ rend = ns - 1 ∧ (occWasSet ∨ 0 < rf.rankOcc q) then (.full, rf)
    else if n < s ∧ rf.run (ns - 1) then (.full, rf)
    else
      let rf := rf.openSlot s n
      let prevSlot := if s = 0 then ns - 1 else s - 1
      -- the old end of the run is an end no more
      let rf := if occWasSet then { rf with run := clearBit rf.run prevSlot } else rf
      let fb := if n < s then 0 else (if q < s then q else s) / 64
      (.ok, (rf.place q rem s).updateOffsetsFrom fb)

end RsqfFilter

/-- `rsqf_filter_insert`. -/
def rsqfFilterInsert (rf : RsqfFilter) (hash : UInt64) : Option (RsqfErr × RsqfFilter) :=
  if rf.numSlots ≤ rf.count then some (.full, rf)
  else
    let q := rf.quotient hash
    let rem := rf.remainder hash
    (rf.findRun q).map fun
      | none => rf.insertNew q rem
      | some (_, rend) => rf.insertBehind q rem rend

/-- `rsqf_filter_lookup`. -/
def rsqfFilterLookup (rf : RsqfFilter) (hash : UInt64) : Option Bool :=
  if rf.count = 0 then some false
  else
    let q := rf.quotient hash
    let rem := rf.remainder hash
    if rf.numSlots ≤ q then some false
    else
      (rf.findRun q).map fun
        | none => false
        | some (rstart, rend) =>
          if rstart ≤ rend then (List.range' rstart (rend + 1 - rstart)).any fun i =>
            rf.remGet i == rem
          else
            ((List.range' rstart (rf.numSlots - rstart)).any fun i => rf.remGet i == rem) ||
              (List.range' 0 (rend + 1)).any fun i => rf.remGet i == rem

namespace RsqfFilter

/-- The body of the loop of `rsqf_filter_delete` that fills the gap. -/
def moveSlotLeft (rf : RsqfFilter) (src dst : ℕ) : RsqfFilter :=
  { rf.remSet dst (rf.remGet src) with
    phys := movePhysOcc rf.phys src dst
    run := if rf.run src then clearBit (setBit rf.run dst) src else rf.run }

/-- The part of `rsqf_filter_delete` behind the search: takes the slot `delPos` out of the run
`[rstart, rend]` of `q`. -/
def removeAt (rf : RsqfFilter) (q rstart rend delPos : ℕ) : RsqfFilter :=
  let ns := rf.numSlots
  let shiftCount := if delPos ≤ rend then rend - delPos else ns - delPos + rend
  let rf := (List.range shiftCount).foldl
    (fun rf k => rf.moveSlotLeft ((delPos + k + 1) % ns) ((delPos + k) % ns)) rf
  let rf := { rf.remSet rend 0 with phys := clearBit rf.phys rend, run := clearBit rf.run rend }
  let fullLen := if rstart ≤ rend then rend - rstart + 1 else ns - rstart + rend + 1
  let slots := (List.range fullLen).map fun k => (rstart + k) % ns
  let rf :=
    -- the last slot still in use becomes the end of the run; without one the run is gone
    match slots.reverse.find? fun idx => rf.phys idx with
    | none => { rf with occ := clearBit rf.occ q, run := clearBit rf.run rend }
    | some lastOccupied => { rf with run := setBit (slots.foldl clearBit rf.run) lastOccupied }
  let fb := if rend < rstart then 0 else (if q < rstart then q else rstart) / 64
  { rf with count := rf.count - 1 }.updateOffsetsFrom fb

end RsqfFilter

/-- `rsqf_filter_delete`. -/
def rsqfFilterDelete (rf : RsqfFilter) (hash : UInt64) : Option (RsqfErr × RsqfFilter) :=
  if rf.count = 0 then some (.notFound, rf)
  else
    let q := rf.quotient hash
    let rem := rf.remainder hash
    (rf.findRun q).map fun
      | none => (.notFound, rf)
      | some (rstart, rend) =>
        let scanCount :=
          if rstart ≤ rend then rend - rstart + 1 else rf.numSlots - rstart + rend + 1
        -- the first slot of the run with the remainder
        match ((List.range scanCount).map fun k => (rstart + k) % rf.numSlots).find? fun idx =>
          rf.remGet idx == rem with
        | none => (.notFound, rf)
        | some delPos => (.ok, rf.removeAt q rstart rend delPos)

end Draugr.Rsqf
