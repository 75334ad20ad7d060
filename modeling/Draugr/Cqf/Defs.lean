import Mathlib.Data.Int.Basic
import Mathlib.Data.Nat.Digits.Defs
import Mathlib.Logic.Function.Basic

/-!
# The run encoding of the counting quotient filter

Model of the counter encoding of `src/cqf_filter.c`: an entry of a run is a remainder with a count,
and its count is written as a list of symbols between copies of the remainder. `cqf_decode_entry`
reads one entry back.

* The remainder table is the array of its slots; `rem_set` cuts a value to `rbits` bits.
* A loop `while (i <= rend && ..) i++` is a recursion on the number of slots that are left.
* An entry is decoded in a run whose slots `[rstart, rend]` do not wrap around the table.
-/

namespace Draugr.Cqf

/-- `CQF_ENC_BUF`. -/
def encBuf : ℕ := 128

/-- The conversion to `int`. -/
def toInt (d : ℕ) : ℤ := Int.bmod d (2 ^ 32)

/-- The conversion of an `int` to `uint64_t`. -/
def ofInt (z : ℤ) : ℕ := (z % 2 ^ 64).toNat

/-- The sum of two `int`s, which wraps around at 32 bits. -/
def addInt (a b : ℤ) : ℤ := Int.bmod (a + b) (2 ^ 32)

/-- The digits of `val`, the least significant first: the `while` loop of `cqf_encode`, which stops
after `max_buf` of them. -/
def encDigits (base : ℕ) : ℕ → ℕ → List ℕ
  | 0, _ => []
  | n + 1, val => if val = 0 then [] else val % base :: encDigits base n (val / base)

/-- The symbol of a digit for the remainder `0`. -/
def zeroSymbol (d : ℕ) : ℕ := ofInt (addInt (toInt d) 1)

/-- The symbol of a digit for a remainder `x > 0`; `0` and `x` are skipped. -/
def symbol (x d : ℕ) : ℕ :=
  if ofInt (toInt d) < x - 1 then ofInt (addInt (toInt d) 1) else ofInt (addInt (toInt d) 2)

/-- The symbols for the remainder `0`, the most significant first. -/
def encodeZero (C rbits maxBuf : ℕ) : List ℕ :=
  if C - 3 = 0 then [1] else ((encDigits (2 ^ rbits - 1) maxBuf (C - 3)).map zeroSymbol).reverse

/-- The symbols for a remainder `x > 0`, the most significant first and without the zero that may be
put before them. -/
def encodeDigits (C x rbits maxBuf : ℕ) : List ℕ :=
  if C - 3 = 0 then [if 0 < x - 1 then 1 else 2]
  else ((encDigits (2 ^ rbits - 2) maxBuf (C - 3)).map (symbol x)).reverse

/-- Puts a zero before symbols whose first is not below `x`. -/
def prependZero (x maxBuf : ℕ) (syms : List ℕ) : List ℕ :=
  match syms with
  | [] => []
  | s :: rest => if x ≤ s then if maxBuf ≤ syms.length then [] else 0 :: s :: rest else s :: rest

/-- `cqf_encode`. -/
def cqfEncode (C x rbits : ℕ) : List ℕ :=
  if C ≤ 2 then []
  else if x = 0 then encodeZero C rbits encBuf
  else prependZero x encBuf (encodeDigits C x rbits encBuf)

/-- `cqf_enc_slots`. -/
def cqfEncSlots (C x rbits : ℕ) : ℕ :=
  if C ≤ 1 then 1
  else if C = 2 then 2
  else if x = 0 then 4 + (cqfEncode C x rbits).length
  else 2 + (cqfEncode C x rbits).length

/-- `rem_set` on the array of slots. -/
def remSet (rbits : ℕ) (tbl : ℕ → ℕ) (idx v : ℕ) : ℕ → ℕ := Function.update tbl idx (v % 2 ^ rbits)

/-- The loops that write symbols. -/
def remSetAll (rbits : ℕ) : (ℕ → ℕ) → ℕ → List ℕ → ℕ → ℕ
  | tbl, _, [] => tbl
  | tbl, idx, v :: vs => remSetAll rbits (remSet rbits tbl idx v) (idx + 1) vs

/-- `cqf_write_entry`: the table and the number of slots written. -/
def cqfWriteEntry (rbits : ℕ) (tbl : ℕ → ℕ) (pos x C : ℕ) : (ℕ → ℕ) × ℕ :=
  let tbl := remSet rbits tbl pos x
  if C ≤ 1 then (tbl, 1)
  else if C = 2 then (remSet rbits tbl (pos + 1) x, 2)
  else
    let enc := cqfEncode C x rbits
    let n := enc.length
    if x = 0 then
      let tbl := remSet rbits tbl (pos + 1) 0
      let tbl := remSetAll rbits tbl (pos + 2) enc
      let tbl := remSet rbits tbl (pos + 2 + n) 0
      (remSet rbits tbl (pos + 3 + n) 0, 4 + n)
    else
      let tbl := remSetAll rbits tbl (pos + 1) enc
      (remSet rbits tbl (pos + 1 + n) x, 2 + n)

/-- The digit of a symbol for a remainder `x > 0`. -/
def digitOf (x sym : ℕ) : ℕ := if sym = 0 then 0 else if sym < x then sym - 1 else sym - 2

/-- The value of digits, the most significant first, in 64 bits. -/
def evalDigits (base : ℕ) (ds : List ℕ) : ℕ := ds.foldl (fun val d => (val * base + d) % 2 ^ 64) 0

/-- `decode_count`; `enc_buf[i] - 1` wraps around for a zero symbol. -/
def decodeCount (enc : List ℕ) (x rbits : ℕ) : ℕ :=
  if enc.length = 0 then 3
  else if x = 0 then
    (evalDigits (2 ^ rbits - 1) (enc.map fun s => (s + (2 ^ 64 - 1)) % 2 ^ 64) + 3) % 2 ^ 64
  else (evalDigits (2 ^ rbits - 2) (enc.map (digitOf x)) + 3) % 2 ^ 64

/-- `while (i <= rend && p(tbl[i])) i++` with `n` slots left. -/
def scan (tbl : ℕ → ℕ) (p : ℕ → Bool) : ℕ → ℕ → ℕ
  | 0, i => i
  | n + 1, i => if p (tbl i) then scan tbl p n (i + 1) else i

/-- The slots `[i, i + n)`. -/
def slots (tbl : ℕ → ℕ) : ℕ → ℕ → List ℕ
  | 0, _ => []
  | n + 1, i => tbl i :: slots tbl n (i + 1)

/-- The loop that reads the symbols of a remainder `0` up to two zeros, with `n` slots left: the
symbols and the position after them. -/
def zeroSymbols (tbl : ℕ → ℕ) (rend : ℕ) : ℕ → ℕ → List ℕ × ℕ
  | 0, i => ([], i)
  | n + 1, i =>
    if tbl i = 0 ∧ i + 1 ≤ rend ∧ tbl (i + 1) = 0 then ([], i + 2)
    else
      let (syms, e) := zeroSymbols tbl rend n (i + 1)
      (tbl i :: syms, e)

/-- The branch of `cqf_decode_entry` for the remainder `0`: the count and the position after the
entry. -/
def decodeZero (rbits : ℕ) (tbl : ℕ → ℕ) (rend pos : ℕ) : ℕ × ℕ :=
  let i := scan tbl (· = 0) (rend + 1 - (pos + 1)) (pos + 1)
  let zeroCnt := i - pos
  if 2 < zeroCnt then (1, pos + 1)
  else if zeroCnt = 2 ∧ i ≤ rend ∧ tbl i ≠ 0 then
    let si := scan tbl (· ≠ 0) (rend + 1 - i) i
    if si ≤ rend ∧ si + 1 ≤ rend ∧ tbl (si + 1) = 0 then
      let (syms, e) := zeroSymbols tbl rend (rend + 1 - i) i
      (decodeCount (syms.take encBuf) 0 rbits, e)
    else (zeroCnt, i)
  else (zeroCnt, i)

/-- The branch of `cqf_decode_entry` for a remainder `val > 0`. -/
def decodeNonzero (rbits : ℕ) (tbl : ℕ → ℕ) (rend pos val : ℕ) : ℕ × ℕ :=
  let j := scan tbl (· ≠ val) (rend + 1 - (pos + 1)) (pos + 1)
  if rend < j then (1, pos + 1)
  else if j = pos + 1 then (2, j + 1)
  else (decodeCount ((slots tbl (j - (pos + 1)) (pos + 1)).take encBuf) val rbits, j + 1)

/-- The loop that skips slots whose `phys_occ` bit is clear. -/
def skipGaps (occ : ℕ → Bool) : ℕ → ℕ → ℕ
  | 0, pos => pos
  | n + 1, pos => if occ pos then pos else skipGaps occ n (pos + 1)

/-- `cqf_decode_entry`: the remainder, the count and the position after the entry. -/
def cqfDecodeEntry (rbits : ℕ) (tbl : ℕ → ℕ) (occ : ℕ → Bool) (rend pos : ℕ) : Option (ℕ × ℕ × ℕ) :=
  let pos := skipGaps occ (rend + 1 - pos) pos
  if rend < pos then none
  else
    let val := tbl pos
    let (cnt, i) :=
      if val = 0 then decodeZero rbits tbl rend pos else decodeNonzero rbits tbl rend pos val
    if i - pos ≠ cqfEncSlots cnt val rbits then none else some (val, cnt, i)

/-! ## Runs -/

/-- Writes entries one after the other: the table and the position after the last. -/
def writeRun (rbits : ℕ) : (ℕ → ℕ) → ℕ → List (ℕ × ℕ) → (ℕ → ℕ) × ℕ
  | tbl, pos, [] => (tbl, pos)
  | tbl, pos, (x, C) :: ps =>
    let (tbl, n) := cqfWriteEntry rbits tbl pos x C
    writeRun rbits tbl (pos + n) ps

/-- Calls `cqf_decode_entry` until it fails or the run ends, at most `n` times: the entries and the
position after them. -/
def decodeRun (rbits : ℕ) (tbl : ℕ → ℕ) (occ : ℕ → Bool) (rend : ℕ) : ℕ → ℕ → List (ℕ × ℕ) × ℕ
  | 0, pos => ([], pos)
  | n + 1, pos =>
    if rend < pos then ([], pos)
    else
      match cqfDecodeEntry rbits tbl occ rend pos with
      | none => ([], pos)
      | some (x, C, pos') =>
        let (ps, e) := decodeRun rbits tbl occ rend n pos'
        ((x, C) :: ps, e)

/-- The loop of `cqf_filter_lookup` over a run. -/
def lookupRun (rbits : ℕ) (tbl : ℕ → ℕ) (occ : ℕ → Bool) (rend rem : ℕ) : ℕ → ℕ → Bool
  | 0, _ => false
  | n + 1, pos =>
    if rend < pos then false
    else
      match cqfDecodeEntry rbits tbl occ rend pos with
      | none => false
      | some (x, _, pos') =>
        if x = rem then true else if rem < x then false else lookupRun rbits tbl occ rend rem n pos'

/-- The loop of `cqf_filter_count_occurrences` over a run. -/
def countRun (rbits : ℕ) (tbl : ℕ → ℕ) (occ : ℕ → Bool) (rend rem : ℕ) : ℕ → ℕ → ℕ
  | 0, _ => 0
  | n + 1, pos =>
    if rend < pos then 0
    else
      match cqfDecodeEntry rbits tbl occ rend pos with
      | none => 0
      | some (x, C, pos') =>
        if x = rem then C else if rem ≠ 0 ∧ rem < x then 0
        else countRun rbits tbl occ rend rem n pos'

end Draugr.Cqf
