import Draugr.Bare.Dress
import Draugr.Bare.Load
import Draugr.Lib.Extents
import Draugr.Table.Map

/-!
# The blocks of the table

Where the arrays of an `ht_table_t` lie: the main arrays, the spill lane and the entry array share
the block `table_block`, and the spill lane and the entry array move to blocks of their own when
they grow. `ht_rebuild` puts all three into a new block. `ht_clear` puts the spill lane and the
entry array back into the block, at offsets that it computes anew.

`laidIndex` is the bare table with its layout, as the index of a key/value table, and `laidBare`
forgets the layout again. A call of `bare_resize_table` from an insertion frees the table block; it
has no result here. The sizes are natural numbers: the capacity is at most `2 ^ 60` and there are
fewer than `2 ^ 32` entries, so that they fit into 64 bits.

With every allocation succeeding, nothing that the table returns depends on the layout: `laidPlain`
maps the index to one whose spill lane has no capacity.
-/

namespace Draugr
open Lib

/-- Rounded up to a multiple of 8. -/
def align8 (n : ℕ) : ℕ := (n + 7) / 8 * 8

/-- The layout of a table, in bytes. -/
structure HtBlocks where
  /-- the size of `table_block` -/
  tableSize : ℕ
  /-- `spill_block`, when it is in the table block -/
  spillAt : Option ℕ
  /-- the size of a spill block of its own -/
  spillSize : ℕ
  /-- `spill_vals - spill_block` -/
  spillVals : ℕ
  /-- `entries`, when they are in the table block -/
  entriesAt : Option ℕ
  /-- the size of an entry array of its own -/
  entriesSize : ℕ
  entryCap : ℕ
  entryCount : ℕ
  /-- for each `alloc_entry` to come that fails at a full entry array: whether the array has
  grown -/
  grown : List Bool
  deriving DecidableEq

namespace HtBlocks

/-- `ht_create`. -/
def create (capacity : ℕ) (grown : List Bool) : HtBlocks where
  tableSize := capacity * 12 + spillInitial * 12 + 64 * 16
  spillAt := some (capacity * 12)
  spillSize := 0
  spillVals := spillInitial * 8
  entriesAt := some (capacity * 12 + spillInitial * 12)
  entriesSize := 0
  entryCap := 64
  entryCount := 0
  grown := grown

/-- `bare_spill_grow` to a new capacity. -/
def spillGrow (s : HtBlocks) (newCap : ℕ) : HtBlocks :=
  { s with spillAt := none, spillSize := newCap * 12, spillVals := newCap * 8 }

/-- The entry array grows when it is full. -/
def growEntries (s : HtBlocks) : HtBlocks :=
  if s.entryCap ≤ s.entryCount then
    let newCap :=
      if s.entryCap = 0 then 64 else if s.entryCap > sizeMax / 2 then sizeMax else s.entryCap * 2
    { s with entriesAt := none, entriesSize := newCap * 16, entryCap := newCap }
  else s

/-- `alloc_entry`. -/
def allocEntry (s : HtBlocks) : HtBlocks :=
  let s := s.growEntries
  { s with entryCount := s.entryCount + 1 }

/-- An `alloc_entry` that fails: at a full array either the growth fails, or the copy after it. -/
def entryFailed (s : HtBlocks) : HtBlocks :=
  if s.entryCap ≤ s.entryCount then
    match s.grown with
    | [] => s
    | grown :: rest =>
      let s := { s with grown := rest }
      if grown then s.growEntries else s
  else s

/-- The new block of `ht_rebuild`; it has room for all entries. -/
def rebuild (s : HtBlocks) (spillLen newCapacity : ℕ) : HtBlocks :=
  let newSpillCap := max spillLen spillInitial
  let offEntries := align8 (newCapacity * 12 + newSpillCap * 12)
  { tableSize := offEntries + s.entryCap * 16
    spillAt := some (newCapacity * 12)
    spillSize := 0
    spillVals := newSpillCap * 8
    entriesAt := some offEntries
    entriesSize := 0
    entryCap := s.entryCap
    entryCount := 0
    grown := s.grown }

/-- `ht_clear` puts the spill lane back; `spill_vals` is computed with the old `spill_cap`. -/
def clearSpill (s : HtBlocks) (capacity spillCap : ℕ) : HtBlocks :=
  { s with spillAt := some (capacity * 12), spillSize := 0, spillVals := spillCap * 8 }

/-- `ht_clear` puts the entries back. -/
def clearEntries (s : HtBlocks) (capacity spillCap : ℕ) : HtBlocks :=
  let s :=
    match s.entriesAt with
    | some _ => s
    | none =>
      { s with
        entriesAt := some (align8 (capacity * 12 + spillCap * 12)), entriesSize := 0
        entryCap := 64 }
  { s with entryCount := 0 }

end HtBlocks

/-- The bare table with the layout. -/
structure LaidBare where
  bare : HtBare
  blocks : HtBlocks
  deriving DecidableEq

namespace LaidBare

/-- `bare_spill_insert` of a new entry. -/
def spillInsert (l : LaidBare) (h v : ℕ) : Bool × LaidBare :=
  let r := bareSpillInsert l.bare h v
  let blocks :=
    if l.bare.spillCap ≤ l.bare.spill.length ∧ r.1 = true then l.blocks.spillGrow r.2.spillCap
    else l.blocks
  (r.1, ⟨r.2, blocks.allocEntry⟩)

/-- The insertion of a new entry. -/
def insert (l : LaidBare) (h v : ℕ) : Option (Bool × LaidBare) :=
  if h < 2 then some (l.spillInsert h v)
  else (bareRhInsertBounded nestedResize l.bare h v).map fun r => (r.1, ⟨r.2, l.blocks.allocEntry⟩)

/-- `ht_clear`. -/
def clear (l : LaidBare) : LaidBare :=
  let bare := bareIndex.clear l.bare
  let blocks :=
    if l.bare.spillInBlock then l.blocks else l.blocks.clearSpill l.bare.capacity l.bare.spillCap
  ⟨bare, blocks.clearEntries bare.capacity bare.spillCap⟩

/-! ## Consistent layouts -/

/-- An area of the table block (block 0), of the spill block (1) or of the entry array (2). -/
def area (own : ℕ) (pos : Option ℕ) (start len : ℕ) : Extent :=
  match pos with
  | some o => ⟨0, o + start, len⟩
  | none => ⟨own, start, len⟩

/-- The main arrays, the hashes and the values of the spill lane, and the entries. -/
def areas (l : LaidBare) : List Extent :=
  [⟨0, 0, l.bare.capacity * 12⟩, area 1 l.blocks.spillAt 0 (l.bare.spillCap * 8),
    area 1 l.blocks.spillAt l.blocks.spillVals (l.bare.spillCap * 4),
    area 2 l.blocks.entriesAt 0 (l.blocks.entryCap * 16)]

/-- The allocated blocks. -/
def allocated (l : LaidBare) : ℕ → Extent
  | 0 => ⟨0, 0, l.blocks.tableSize⟩
  | 1 => ⟨1, 0, l.blocks.spillSize⟩
  | _ => ⟨2, 0, l.blocks.entriesSize⟩

/-- The values of the spill lane follow the hashes, no two areas overlap, and each is inside of its
block. -/
structure Consistent (l : LaidBare) : Prop where
  vals : l.blocks.spillVals = 8 * l.bare.spillCap
  apart : AllApart l.areas
  inside : ∀ a ∈ l.areas, a.Within (l.allocated a.block)

end LaidBare

/-- The bare table with the layout as the index of a key/value table. -/
def laidIndex : IndexOps LaidBare where
  findAll l := htBareFindAll l.bare
  insert := LaidBare.insert
  spillInsert := LaidBare.spillInsert
  removeVal l hash v := Prod.map id (⟨·, l.blocks⟩) (htBareRemoveVal l.bare hash v)
  main l := liveEntries l.bare.main
  spill l := l.bare.spill
  overflow l := l.bare.overflow
  size l := l.bare.size
  capacity l := l.bare.capacity
  maxLoadFactor l := l.bare.maxLoadFactor
  minLoadFactor l := l.bare.minLoadFactor
  resizing l := l.bare.resizing
  setResizing r l := { l with bare := bareIndex.setResizing r l.bare }
  fresh l c := ⟨freshBlocks l.bare c, l.blocks.rebuild l.bare.spill.length c⟩
  placeTombs l := { l with bare := bareIndex.placeTombs l.bare }
  resetCounters l := { l with bare := bareIndex.resetCounters l.bare }
  clear := LaidBare.clear
  malloc l := Prod.map id (⟨·, l.blocks⟩) (malloc l.bare)
  entryFailed l := { l with blocks := l.blocks.entryFailed }
  drawn l l' := { l with bare := bareIndex.drawn l.bare l'.bare }

/-- An empty table with the given capacity, as `ht_create` lays it out. -/
def freshLaid (cfg : HtConfig) (capacity : ℕ) (mem grown : List Bool) (fuel : ℕ) :
    HtTable LaidBare :=
  ⟨⟨{ emptyTable cfg capacity
    (min cfg.maxProbeDist (2 ^ 16 - 1)) mem fuel with spillInBlock := true },
    .create capacity grown⟩, []⟩

/-- `ht_create`. -/
def htCreateLaid (cfg : HtConfig) (mem grown : List Bool) (fuel : ℕ) : Option (HtTable LaidBare) :=
  let cap := nextPow2 (max cfg.initialCapacity 4)
  if cap > sizeMax / 12 then none else some (freshLaid cfg cap mem grown fuel)

/-! ## Layouts that are kept -/

variable {l : LaidBare} {b b' : HtBare} {k m n r h v c : ℕ} {ok : Bool} {p : Option ℕ}

/-- Rounding up does not make a size smaller. -/
lemma le_align8 (n : ℕ) : n ≤ align8 n := by
  unfold align8
  omega

/-- The layout of a table with `n` entries; `p` is the number of entries that a rebuild has room for
in the spill lane. -/
structure Laid (p : Option ℕ) (n : ℕ) (l : LaidBare) : Prop where
  spillAt : ∀ o, l.blocks.spillAt = some o → o = l.bare.capacity * 12
  spillOwn : l.blocks.spillAt = none → l.blocks.spillSize = l.bare.spillCap * 12
  main : l.bare.capacity * 12 ≤ l.blocks.tableSize
  room : l.blocks.spillAt ≠ none → align8 (l.bare.capacity * 12 + l.bare.spillCap * 12) + 64 * 16 ≤
    l.blocks.tableSize
  vals : l.blocks.spillVals = l.bare.spillCap * 8
  entriesAt : ∀ o, l.blocks.entriesAt = some o → l.bare.capacity * 12 ≤ o ∧
    (l.blocks.spillAt ≠ none → l.bare.capacity * 12 + l.bare.spillCap * 12 ≤ o) ∧
    o + l.blocks.entryCap * 16 ≤ l.blocks.tableSize
  entriesOwn : l.blocks.entriesAt = none → l.blocks.entriesSize = l.blocks.entryCap * 16
  count : l.blocks.entryCount = n
  entryCap : n ≤ l.blocks.entryCap ∧ 64 ≤ l.blocks.entryCap
  flag : p = none → l.bare.spillInBlock = l.blocks.spillAt.isSome
  filling : ∀ r, p = some r → l.blocks.spillAt ≠ none ∧ l.bare.spill.length + r ≤ l.bare.spillCap

/-- A kept layout is consistent. -/
lemma Laid.consistent (hP : Laid p n l) : l.Consistent := by
  obtain ⟨hat, hown, hmain, hroom, hvals, heat, heown, -, -, -, -⟩ := hP
  have hle := le_align8 (l.bare.capacity * 12 + l.bare.spillCap * 12)
  refine ⟨by omega, ?_, ?_⟩
  · unfold AllApart LaidBare.areas LaidBare.area
    simp only [List.pairwise_cons, List.mem_cons, List.not_mem_nil, or_false, forall_eq_or_imp,
      forall_eq, IsEmpty.forall_iff, implies_true, List.Pairwise.nil, and_true, Extent.Apart]
    cases hs : l.blocks.spillAt with
    | none =>
      cases he : l.blocks.entriesAt with
      | none =>
        simp only
        omega
      | some o =>
        obtain ⟨h1, -, -⟩ := heat o he
        simp only
        omega
    | some q =>
      have hq := hat q hs
      cases he : l.blocks.entriesAt with
      | none =>
        simp only
        omega
      | some o =>
        obtain ⟨h1, h2, -⟩ := heat o he
        have h2 := h2 (by rw [hs]; exact Option.some_ne_none q)
        simp only
        omega
  · unfold LaidBare.areas LaidBare.area
    simp only [List.mem_cons, List.not_mem_nil, or_false, forall_eq_or_imp, forall_eq]
    refine ⟨⟨rfl, le_rfl, ?_⟩, ?_, ?_, ?_⟩
    · show 0 + l.bare.capacity * 12 ≤ 0 + l.blocks.tableSize
      omega
    · cases hs : l.blocks.spillAt with
      | none =>
        refine ⟨rfl, le_rfl, ?_⟩
        show 0 + l.bare.spillCap * 8 ≤ 0 + l.blocks.spillSize
        have := hown hs
        omega
      | some q =>
        refine ⟨rfl, Nat.zero_le _, ?_⟩
        show q + 0 + l.bare.spillCap * 8 ≤ 0 + l.blocks.tableSize
        have := hat q hs
        have := hroom (by rw [hs]; exact Option.some_ne_none q)
        omega
    · cases hs : l.blocks.spillAt with
      | none =>
        refine ⟨rfl, Nat.zero_le _, ?_⟩
        show l.blocks.spillVals + l.bare.spillCap * 4 ≤ 0 + l.blocks.spillSize
        have := hown hs
        omega
      | some q =>
        refine ⟨rfl, Nat.zero_le _, ?_⟩
        show q + l.blocks.spillVals + l.bare.spillCap * 4 ≤ 0 + l.blocks.tableSize
        have := hat q hs
        have := hroom (by rw [hs]; exact Option.some_ne_none q)
        omega
    · cases he : l.blocks.entriesAt with
      | none =>
        refine ⟨rfl, le_rfl, ?_⟩
        show 0 + l.blocks.entryCap * 16 ≤ 0 + l.blocks.entriesSize
        have := heown he
        omega
      | some o =>
        refine ⟨rfl, Nat.zero_le _, ?_⟩
        show o + 0 + l.blocks.entryCap * 16 ≤ 0 + l.blocks.tableSize
        have := (heat o he).2.2
        omega

/-- The layout does not depend on the entries. -/
lemma Laid.stays (hP : Laid p n l) (hs : Stays m l.bare b) : Laid p n ⟨b, l.blocks⟩ := by
  obtain ⟨hat, hown, hmain, hroom, hvals, heat, heown, hcount, hcap, hflag, hfill⟩ := hP
  have hspill := hs.spill
  constructor <;> dsimp only <;> (try simp only [hs.capacity, hs.spillCap, hs.spillInBlock])
  · exact hat
  · exact hown
  · exact hmain
  · exact hroom
  · exact hvals
  · exact heat
  · exact heown
  · exact hcount
  · exact hcap
  · exact hflag
  · intro r hr
    obtain ⟨h1, h2⟩ := hfill r hr
    exact ⟨h1, by omega⟩

/-- A full entry array grows. -/
lemma Laid.growEntries (hP : Laid p n l) (hn : n < valNone) :
    Laid p n ⟨l.bare, l.blocks.growEntries⟩ ∧ n + 1 ≤ l.blocks.growEntries.entryCap := by
  obtain ⟨hat, hown, hmain, hroom, hvals, heat, heown, hcount, ⟨hcap, h64⟩, hflag, hfill⟩ := hP
  unfold HtBlocks.growEntries
  by_cases hfull : l.blocks.entryCap ≤ l.blocks.entryCount
  · have h0 : l.blocks.entryCap ≠ 0 := by omega
    have hbig : ¬ l.blocks.entryCap > sizeMax / 2 := by
      unfold valNone at hn
      unfold sizeMax
      omega
    simp only [if_pos hfull, if_neg h0, if_neg hbig]
    exact ⟨⟨hat, hown, hmain, hroom, hvals, nofun, fun _ => rfl, hcount,
      ⟨show n ≤ l.blocks.entryCap * 2 by omega, show 64 ≤ l.blocks.entryCap * 2 by omega⟩, hflag,
      hfill⟩, by omega⟩
  · simp only [if_neg hfull]
    exact ⟨⟨hat, hown, hmain, hroom, hvals, heat, heown, hcount, ⟨hcap, h64⟩, hflag,
      hfill⟩, by omega⟩

/-- A new entry. -/
lemma Laid.allocEntry (hP : Laid p n l) (hn : n < valNone) :
    Laid p (n + 1) ⟨l.bare, l.blocks.allocEntry⟩ := by
  obtain ⟨hL, hlt⟩ := hP.growEntries hn
  obtain ⟨hat, hown, hmain, hroom, hvals, heat, heown, hcount, hcap, hflag, hfill⟩ := hL
  exact ⟨hat, hown, hmain, hroom, hvals, heat, heown, congrArg (· + 1) hcount, ⟨hlt, hcap.2⟩, hflag,
    hfill⟩

/-- An entry that is not made: the array may have grown all the same. -/
lemma Laid.entryFailed (hP : Laid p n l) (hn : n < valNone) :
    Laid p n ⟨l.bare, l.blocks.entryFailed⟩ := by
  unfold HtBlocks.entryFailed
  split
  · split
    · exact hP
    · rename_i grown rest hgrown
      obtain ⟨hat, hown, hmain, hroom, hvals, heat, heown, hcount, hcap, hflag, hfill⟩ := hP
      have hrest : Laid p n ⟨l.bare, { l.blocks with grown := rest }⟩ :=
        ⟨hat, hown, hmain, hroom, hvals, heat, heown, hcount, hcap, hflag, hfill⟩
      cases grown with
      | false => exact hrest
      | true => exact (hrest.growEntries hn).1
  · exact hP

/-- What `bare_spill_insert` does. -/
lemma bareSpillInsert_cases (t : HtBare) (h v : ℕ) (hmin : spillInitial ≤ t.spillCap) :
    (t.spill.length < t.spillCap ∧
      bareSpillInsert t h v =
      (true, { t with spill := t.spill ++ [(h48 h, v)], size := t.size + 1 })) ∨
    (t.spillCap ≤ t.spill.length ∧ ∃ mem, (t.mem = [] → mem = []) ∧
      ((bareSpillInsert t h v = (false, { t with mem := mem }) ∧
          (t.mem = [] → sizeMax < t.spillCap * 2 * 12)) ∨
        bareSpillInsert t h v = (true, { t with
          mem := mem, spillCap := t.spillCap * 2, spillInBlock := false,
            spill := t.spill ++ [(h48 h, v)]
          size := t.size + 1 }))) := by
  have h0 : t.spillCap ≠ 0 := by
    unfold spillInitial at hmin
    omega
  unfold bareSpillInsert
  by_cases hfull : t.spill.length ≥ t.spillCap
  · refine .inr ⟨hfull, ?_⟩
    simp only [if_pos hfull]
    unfold bareSpillGrow malloc
    simp only [if_neg h0]
    by_cases hbig : t.spillCap * 2 * 12 > sizeMax
    · rw [if_pos hbig]
      exact ⟨t.mem, id, .inl ⟨rfl, fun _ => hbig⟩⟩
    · rw [if_neg hbig]
      cases hm : t.mem with
      | nil =>
        refine ⟨[], id, .inr ?_⟩
        simp only [hm]
      | cons ok rest =>
        refine ⟨rest, nofun, ?_⟩
        cases ok with
        | false => exact .inl ⟨rfl, nofun⟩
        | true => exact .inr rfl
  · rw [if_neg hfull]
    exact .inl ⟨not_le.mp hfull, rfl⟩

/-- A new entry of the spill lane; a rebuild has room for it. -/
lemma Laid.spillInsert {q : Option ℕ} (hP : Laid p n l) (hn : n < valNone)
    (hmin : spillInitial ≤ l.bare.spillCap)
    (hq : (p = none ∧ q = none) ∨ ∃ r, p = some (r + 1) ∧ q = some r) :
    Laid q (n + 1) (l.spillInsert h v).2 := by
  -- the layout before the entry is counted
  have hgoal : Laid q n ⟨(bareSpillInsert l.bare h v).2,
      if l.bare.spillCap ≤ l.bare.spill.length ∧ (bareSpillInsert l.bare h v).1 = true then
        l.blocks.spillGrow (bareSpillInsert l.bare h v).2.spillCap else l.blocks⟩ := by
    obtain ⟨hat, hown, hmain, hroom, hvals, heat, heown, hcount, hcap, hflag, hfill⟩ := hP
    rcases bareSpillInsert_cases l.bare h v hmin with ⟨hlt, he⟩ | ⟨hfull, mem, -, ⟨he, -⟩ | he⟩
    · rw [he, if_neg (by omega)]
      refine ⟨hat, hown, hmain, hroom, hvals, heat, heown, hcount, hcap, fun hq0 => ?_,
        fun r hr => ?_⟩
      · rcases hq with ⟨hp, -⟩ | ⟨r, -, hq⟩
        · exact hflag hp
        · rw [hq] at hq0
          cases hq0
      · rcases hq with ⟨-, hq⟩ | ⟨r', hp, hq⟩
        · rw [hq] at hr
          cases hr
        · rw [hq] at hr
          cases hr
          obtain ⟨h1, h2⟩ := hfill _ hp
          refine ⟨h1, ?_⟩
          show (l.bare.spill ++ [(h48 h, v)]).length + r ≤ l.bare.spillCap
          rw [List.length_append, List.length_singleton]
          omega
    all_goals
      -- a full lane is not that of a rebuild
      obtain ⟨hp, rfl⟩ : p = none ∧ q = none := by
        rcases hq with hq | ⟨r, hp, -⟩
        · exact hq
        · have := (hfill _ hp).2
          omega
      rw [he]
    · rw [if_neg (by rintro ⟨-, h⟩; cases h)]
      exact ⟨hat, hown, hmain, hroom, hvals, heat, heown, hcount, hcap, fun _ => hflag hp, nofun⟩
    · rw [if_pos ⟨hfull, rfl⟩]
      exact ⟨nofun, fun _ => rfl, hmain, fun h => absurd rfl h, rfl,
        fun o ho => ⟨(heat o ho).1, fun h => absurd rfl h, (heat o ho).2.2⟩, heown, hcount, hcap,
        fun _ => rfl, nofun⟩
  exact hgoal.allocEntry hn

/-- The new block of a rebuild. -/
lemma Laid.fresh (hP : Laid p n l) (c : ℕ) :
    Laid (some l.bare.spill.length) 0
      ⟨freshBlocks l.bare c, l.blocks.rebuild l.bare.spill.length c⟩ := by
  have hcapacity : (freshBlocks l.bare c).capacity = c := List.length_replicate
  have hle := le_align8 (c * 12 + max l.bare.spill.length spillInitial * 12)
  have h64 := hP.entryCap.2
  constructor <;> dsimp only [HtBlocks.rebuild] <;> try rw [hcapacity]
  · intro o ho
    cases ho
    rfl
  · exact nofun
  · omega
  · intro _
    show align8 (c * 12 + max l.bare.spill.length spillInitial * 12) + 64 * 16 ≤ _
    omega
  · rfl
  · intro o ho
    cases ho
    refine ⟨by omega, fun _ => hle, le_rfl⟩
  · exact nofun
  · exact ⟨Nat.zero_le _, h64⟩
  · exact nofun
  · intro r hr
    cases hr
    refine ⟨Option.some_ne_none _, ?_⟩
    show 0 + l.bare.spill.length ≤ max l.bare.spill.length spillInitial
    omega

/-- A rebuilt table. -/
lemma Laid.placeTombs (hP : Laid (some r) n l) :
    Laid none n { l with bare := bareIndex.placeTombs l.bare } := by
  obtain ⟨hat, hown, hmain, hroom, hvals, heat, heown, hcount, hcap, -, -⟩ :=
    hP.stays (barePlaceProphylacticTombstones_stays l.bare)
  refine ⟨hat, hown, hmain, hroom, hvals, heat, heown, hcount, hcap, fun _ => ?_, nofun⟩
  show true = l.blocks.spillAt.isSome
  exact (Option.isSome_iff_ne_none.mpr (hP.filling r rfl).1).symm

/-- `ht_clear` of a table whose spill lane is in the table block. -/
lemma Laid.clear (hP : Laid none n l) (hin : l.bare.spillInBlock = true) : Laid none 0 l.clear := by
  obtain ⟨hat, hown, hmain, hroom, hvals, heat, heown, hcount, hcap, hflag, -⟩ := hP
  have hsome : l.blocks.spillAt ≠ none := by
    rw [hflag rfl] at hin
    exact Option.isSome_iff_ne_none.mp hin
  have hcapacity : (htBareClear l.bare).capacity = l.bare.capacity := List.length_replicate
  have hclear : l.clear =
      ⟨htBareClear l.bare, l.blocks.clearEntries l.bare.capacity l.bare.spillCap⟩ := by
    have hbare : bareIndex.clear l.bare = htBareClear l.bare := if_pos hin
    unfold LaidBare.clear
    simp only [hbare, hcapacity, if_pos hin]
    rfl
  have hle := le_align8 (l.bare.capacity * 12 + l.bare.spillCap * 12)
  rw [hclear]
  unfold HtBlocks.clearEntries
  cases he : l.blocks.entriesAt with
  | some o =>
    refine ⟨?_, hown, ?_, ?_, hvals, ?_, heown, rfl, ⟨Nat.zero_le _, hcap.2⟩, hflag, nofun⟩
    all_goals dsimp only
    all_goals rw [hcapacity]
    · exact hat
    · exact hmain
    · exact hroom
    · exact heat
  | none =>
    refine ⟨?_, hown, ?_, ?_, hvals, ?_, nofun, rfl, ⟨Nat.zero_le _, le_rfl⟩, hflag, nofun⟩
    all_goals dsimp only
    all_goals rw [hcapacity]
    · exact hat
    · exact hmain
    · exact hroom
    · intro o ho
      cases ho
      exact ⟨by omega, fun _ => hle, hroom hsome⟩

/-- Putting the entries back leaves `spill_vals`. -/
lemma clearEntries_spillVals (s : HtBlocks) (capacity spillCap : ℕ) :
    (s.clearEntries capacity spillCap).spillVals = s.spillVals := by
  unfold HtBlocks.clearEntries
  cases s.entriesAt <;> rfl

/-- `ht_clear` of a table whose spill lane has a block of its own. -/
lemma clear_not_consistent (hout : l.bare.spillInBlock = false)
    (hbig : spillInitial < l.bare.spillCap) :
    ¬ l.clear.Consistent := by
  intro hC
  have hvals := hC.vals
  have hbare : (bareIndex.clear l.bare).spillCap = spillInitial := by
    show (if l.bare.spillInBlock then _ else _ : HtBare).spillCap = _
    rw [hout]
    rfl
  have hblocks : l.clear.blocks.spillVals = l.bare.spillCap * 8 := by
    unfold LaidBare.clear
    simp only [clearEntries_spillVals, hout]
    rfl
  rw [hblocks] at hvals
  have hcap : l.clear.bare.spillCap = spillInitial := hbare
  rw [hcap] at hvals
  omega

/-- The layout of a table that was just created. -/
lemma laid_create (hb : b.capacity = c) (heven : c % 2 = 0) (hs : b.spillCap = spillInitial)
    (hin : b.spillInBlock = true) {grown : List Bool} : Laid none 0 ⟨b, .create c grown⟩ := by
  constructor <;> dsimp only [HtBlocks.create] <;> (try rw [hb]) <;> (try rw [hs])
  · intro o ho
    cases ho
    rfl
  · exact nofun
  · omega
  · intro _
    unfold align8 spillInitial
    omega
  · intro o ho
    cases ho
    exact ⟨by omega, fun _ => le_rfl, le_rfl⟩
  · exact nofun
  · exact ⟨Nat.zero_le _, le_rfl⟩
  · intro _
    rw [hin]
    rfl
  · exact nofun

/-! ## What fits a table -/

/-- The configuration of a table. -/
def HtBare.config (t : HtBare) : HtBare :=
  { t with
    main := [], size := 0, tombstoneCnt := 0, spill := [], spillCap := 0, spillInBlock := true,
      overflow := []
    overflowViolated := false, mem := [] }

/-- The index of a table with `n` entries that was created with the configuration `cfg`; `calm` says
that all allocations from here on succeed. -/
structure LaidFits (cfg : HtBare) (calm : Prop) (p : Bool × Option ℕ) (n : ℕ) (l : LaidBare) :
    Prop where
  books : ∃ k, Books { l.bare with tombstoneCnt := k }
  size : l.bare.size ≤ n
  few : n ≤ valNone
  spillCap_ge : spillInitial ≤ l.bare.spillCap
  spillCap_le : l.bare.spillCap ≤ 2 * valNone
  own : p.2 = none → l.bare.spillInBlock = false → spillInitial < l.bare.spillCap
  config : l.bare.config = { cfg with resizing := p.1 }
  calm : calm → l.bare.mem = []
  laid : Laid p.2 n l

variable {cfg : HtBare} {calm : Prop} {z : Bool} {q : Bool × Option ℕ}

/-- The configuration stays. -/
lemma Stays.config (h : Stays m b b') : b'.config = b.config := by
  have := congrArg HtBare.config h.setup
  exact this

/-- The outcomes to come stay. -/
lemma Stays.mem (h : Stays m b b') : b'.mem = b.mem := by
  have := congrArg HtBare.mem h.setup
  exact this

/-- A step that leaves the setup alone. -/
lemma LaidFits.stays (hF : LaidFits cfg calm q n l) (hs : Stays m l.bare b) (hn : n + m ≤ valNone)
    {blocks : HtBlocks}
    (hB : ∃ k, Books { b with tombstoneCnt := k }) (hL : Laid q.2 (n + m) ⟨b, blocks⟩) :
    LaidFits cfg calm q (n + m) ⟨b, blocks⟩ := by
  refine ⟨hB, hs.size.trans (Nat.add_le_add_right hF.size m), hn, ?_, ?_, ?_,
    hs.config.trans hF.config, ?_, hL⟩
  · rw [hs.spillCap]
    exact hF.spillCap_ge
  · rw [hs.spillCap]
    exact hF.spillCap_le
  · rw [hs.spillCap, hs.spillInBlock]
    exact hF.own
  · rw [hs.mem]
    exact hF.calm

/-- The Robin-Hood insertion. -/
lemma LaidFits.rhInsert (hF : LaidFits cfg calm q n l) (h2 : 2 ≤ h) (h48 : h < 2 ^ 48)
    (hv : v < valNone) (hn : n < valNone)
    (hr : bareRhInsertBounded nestedResize l.bare h v = some (ok, b)) :
    LaidFits cfg calm q (n + 1) ⟨b, l.blocks.allocEntry⟩ := by
  have hs := bareRhInsertBounded_stays hr
  refine hF.stays hs hn ?_ ((hF.laid.allocEntry hn).stays hs)
  obtain ⟨k, hB⟩ := hF.books
  -- the same insertion with the right number of tombstones
  obtain ⟨k', hd⟩ :=
    bareRhInsertBounded_dress { l.bare with tombstoneCnt := k } h v l.bare.tombstoneCnt
      l.bare.spillCap l.bare.spillInBlock
  have hself :
      dress l.bare.tombstoneCnt l.bare.spillCap l.bare.spillInBlock
        { l.bare with tombstoneCnt := k } =
      l.bare := rfl
  rw [hself, hr] at hd
  cases hr₁ : bareRhInsertBounded nestedResize { l.bare with tombstoneCnt := k } h v with
  | none =>
    rw [hr₁] at hd
    cases hd
  | some x =>
    rw [hr₁] at hd
    obtain ⟨hB₁, -⟩ := bareRhInsertBounded_books nestedResize_books hB ⟨h2, h48, hv.ne⟩ hr₁
    obtain ⟨-, rfl⟩ := Prod.mk.inj (Option.some.inj hd)
    exact ⟨x.2.tombstoneCnt, hB₁.congr rfl rfl rfl rfl rfl⟩

/-- The insertion into the spill lane. -/
lemma LaidFits.spillInsert {o : Option ℕ} (hF : LaidFits cfg calm q n l) (h2 : h < 2)
    (hv : v < valNone)
    (hn : n < valNone) (hq : (q.2 = none ∧ o = none) ∨ ∃ r, q.2 = some (r + 1) ∧ o = some r) :
    LaidFits cfg calm (q.1, o) (n + 1) (l.spillInsert h v).2 := by
  have hL : Laid o (n + 1) (l.spillInsert h v).2 := hF.laid.spillInsert hn hF.spillCap_ge hq
  obtain ⟨k, hB⟩ := hF.books
  have hlen : l.bare.spill.length ≤ n := by
    have hsize := hB.size
    have := hF.size
    change l.bare.size = _ + l.bare.spill.length + _ at hsize
    omega
  have hpush : ∃ k, Books { l.bare with
      spill := l.bare.spill ++ [(h48 h, v)], size := l.bare.size + 1, tombstoneCnt := k } := by
    have hlt : h48 h < 2 := by rwa [h48, Nat.mod_eq_of_lt (by omega)]
    have hroom := bareSpillInsert_books (t := { l.bare with
      tombstoneCnt := k, spillCap := l.bare.spill.length + 1 })
        (hB.congr rfl rfl rfl rfl rfl) h2 hv.ne
    have heq : (bareSpillInsert
        { l.bare with tombstoneCnt := k, spillCap := l.bare.spill.length + 1 } h v).2 =
        { l.bare with
          spill := l.bare.spill ++ [(h48 h, v)], size := l.bare.size + 1, tombstoneCnt := k
          spillCap := l.bare.spill.length + 1 } := by
      unfold bareSpillInsert
      rw [if_neg (by show ¬ l.bare.spill.length ≥ l.bare.spill.length + 1; omega)]
    rw [heq] at hroom
    exact ⟨k, hroom.congr rfl rfl rfl rfl rfl⟩
  obtain ⟨hge, hle, hown, hconfig, hcalm⟩ :=
    (⟨hF.spillCap_ge, hF.spillCap_le, hF.own, hF.config, hF.calm⟩ : _ ∧ _ ∧ _ ∧ _ ∧ _)
  have hq2 : o = none → q.2 = none := by
    rintro rfl
    rcases hq with hq | ⟨r, -, hq⟩
    · exact hq.1
    · cases hq
  unfold LaidBare.spillInsert at hL ⊢
  rcases bareSpillInsert_cases l.bare h v hge with ⟨hlt, he⟩ | ⟨hfull, mem, hmem, ⟨he, -⟩ | he⟩ <;>
    simp only [he] at hL ⊢
  · exact ⟨hpush, Nat.succ_le_succ hF.size, hn, hge, hle, fun hp => hown (hq2 hp), hconfig,
      hcalm, hL⟩
  · exact ⟨⟨k, hB.congr rfl rfl rfl rfl rfl⟩, hF.size.trans (Nat.le_succ n), hn, hge, hle,
      fun hp => hown (hq2 hp), hconfig, fun hc => hmem (hcalm hc), hL⟩
  · obtain ⟨k₁, hB₁⟩ := hpush
    refine ⟨⟨k₁, hB₁.congr rfl rfl rfl rfl rfl⟩, Nat.succ_le_succ hF.size, hn, ?_, ?_, ?_, hconfig,
      fun hc => hmem (hcalm hc), hL⟩
    · show spillInitial ≤ l.bare.spillCap * 2
      omega
    · show l.bare.spillCap * 2 ≤ 2 * valNone
      omega
    · intro _ _
      show spillInitial < l.bare.spillCap * 2
      unfold spillInitial at *
      omega

/-- With every allocation succeeding the lane grows. -/
lemma LaidFits.spillInsert_ok (hF : LaidFits cfg calm q n l) (hc : calm) (h v : ℕ) :
    (bareSpillInsert l.bare h v).1 = true ∧ ∃ c s, (bareSpillInsert l.bare h v).2 =
      { l.bare with
        spill := l.bare.spill ++ [(h48 h, v)], size := l.bare.size + 1, spillCap := c,
          spillInBlock := s } := by
  have hmem := hF.calm hc
  have hlen : l.bare.spillCap * 2 * 12 ≤ sizeMax := by
    have := hF.spillCap_le
    unfold valNone at this
    unfold sizeMax
    omega
  rcases bareSpillInsert_cases l.bare h v hF.spillCap_ge with
    ⟨hlt, he⟩ | ⟨hfull, mem, hmem', ⟨-, hbig⟩ | he⟩
  · rw [he]
    exact ⟨rfl, l.bare.spillCap, l.bare.spillInBlock, rfl⟩
  · exact absurd (hbig hmem) (by omega)
  · rw [he, hmem' hmem]
    refine ⟨rfl, l.bare.spillCap * 2, false, ?_⟩
    rw [← hmem]

/-- The insertion of an entry. -/
lemma LaidFits.insert {l' : LaidBare} (hF : LaidFits cfg calm q n l) (hq : q.2 = none ∨ 2 ≤ h)
    (h48 : h < 2 ^ 48) (hv : v < valNone) (hn : n < valNone) (hr : l.insert h v = some (ok, l')) :
    LaidFits cfg calm q (n + 1) l' := by
  unfold LaidBare.insert at hr
  split at hr
  · rename_i hlt
    have hnone : q.2 = none := hq.resolve_right (by omega)
    have hins := hF.spillInsert hlt hv hn (o := none) (.inl ⟨hnone, rfl⟩)
    rw [Option.some.inj hr, ← hnone] at hins
    exact hins
  · rename_i hge
    cases hx : bareRhInsertBounded nestedResize l.bare h v with
    | none =>
      rw [hx] at hr
      cases hr
    | some x =>
      rw [hx] at hr
      cases hr
      exact hF.rhInsert (not_lt.mp hge) h48 hv hn hx

/-- `ht_bare_remove_val`. -/
lemma LaidFits.removeVal (hF : LaidFits cfg calm (z, none) n l) (hash v : ℕ) :
    LaidFits cfg calm (z, none) n ⟨(htBareRemoveVal l.bare hash v).2, l.blocks⟩ := by
  obtain ⟨k, hB⟩ := hF.books
  have hs := htBareRemoveVal_stays (t := l.bare) hB.capacity_pos hB.size hash v
  refine hF.stays hs hF.few ?_ (hF.laid.stays hs)
  obtain ⟨k', hd⟩ :=
    htBareRemoveVal_dress { l.bare with tombstoneCnt := k } hash v l.bare.tombstoneCnt
      l.bare.spillCap l.bare.spillInBlock
  have hself :
      dress l.bare.tombstoneCnt l.bare.spillCap l.bare.spillInBlock
        { l.bare with tombstoneCnt := k } =
      l.bare := rfl
  rw [hself] at hd
  have hB₁ := htBareRemoveVal_books hB hash v
  rw [hd]
  exact ⟨_, hB₁.congr rfl rfl rfl rfl rfl⟩

/-- The lanes hold at most as many values as there are entries. -/
lemma LaidFits.lanes (hF : LaidFits cfg calm q n l) :
    (liveEntries l.bare.main).length + l.bare.spill.length + l.bare.overflow.length ≤ n := by
  obtain ⟨k, hB⟩ := hF.books
  have hsize : l.bare.size = liveCount l.bare + l.bare.spill.length + l.bare.overflow.length :=
    hB.size
  have := hF.size
  rw [liveEntries_length]
  omega

/-- The new index of a rebuild. -/
lemma LaidFits.fresh (hF : LaidFits cfg calm (z, none) n l) (hc : ∃ k, c = 2 ^ k) :
    LaidFits cfg calm (z, some l.bare.spill.length) 0
      ⟨freshBlocks l.bare c, l.blocks.rebuild l.bare.spill.length c⟩ := by
  have hlanes := hF.lanes
  have hfew := hF.few
  refine ⟨⟨0, Books.of_fresh hc rfl rfl rfl rfl rfl⟩, le_rfl, Nat.zero_le _, le_max_right _ _, ?_,
    nofun, hF.config, hF.calm, hF.laid.fresh c⟩
  show max l.bare.spill.length spillInitial ≤ 2 * valNone
  unfold spillInitial valNone at *
  omega

/-- The new index takes the place of the old one. -/
lemma LaidFits.placeTombs (hF : LaidFits cfg calm (z, some r) n l) :
    LaidFits cfg calm (z, none) n { l with bare := bareIndex.placeTombs l.bare } := by
  have hs := barePlaceProphylacticTombstones_stays l.bare
  obtain ⟨k, hB⟩ := hF.books
  obtain ⟨k', hd⟩ :=
    barePlaceProphylacticTombstones_dress { l.bare with tombstoneCnt := k } l.bare.tombstoneCnt
      l.bare.spillCap l.bare.spillInBlock
  have hself :
      dress l.bare.tombstoneCnt l.bare.spillCap l.bare.spillInBlock
        { l.bare with tombstoneCnt := k } =
      l.bare := rfl
  rw [hself] at hd
  obtain ⟨hB₁, -⟩ := barePlaceProphylacticTombstones_books hB
  have hbooks : ∃ k, Books { barePlaceProphylacticTombstones l.bare with tombstoneCnt := k } := by
    rw [hd]
    exact ⟨_, hB₁.congr rfl rfl rfl rfl rfl⟩
  obtain ⟨k₁, hB₁⟩ := hbooks
  have hconfig :
      (bareIndex.placeTombs l.bare).config = (barePlaceProphylacticTombstones l.bare).config := rfl
  refine ⟨⟨k₁, hB₁.congr rfl rfl rfl rfl rfl⟩, hs.size.trans hF.size, hF.few, ?_, ?_, nofun,
    hconfig.trans (hs.config.trans hF.config), fun hc => hs.mem.trans (hF.calm hc),
    hF.laid.placeTombs⟩
  · exact hs.spillCap.symm ▸ hF.spillCap_ge
  · exact hs.spillCap.symm ▸ hF.spillCap_le

/-- `ht_clear`. -/
lemma LaidFits.clear (hF : LaidFits cfg calm (z, none) n l) (hin : l.bare.spillInBlock = true) :
    LaidFits cfg calm (z, none) 0 l.clear := by
  have hbare : l.clear.bare = htBareClear l.bare := if_pos hin
  obtain ⟨k, hB⟩ := hF.books
  have hpow : ∃ k, l.bare.capacity = 2 ^ k := hB.pow2
  refine ⟨⟨0, ?_⟩, ?_, Nat.zero_le _, ?_, ?_, fun _ => ?_, ?_, ?_, hF.laid.clear hin⟩
  all_goals rw [hbare]
  · exact Books.of_fresh hpow rfl rfl rfl rfl rfl
  · exact le_rfl
  · exact hF.spillCap_ge
  · exact hF.spillCap_le
  · exact hF.own rfl
  · exact hF.config
  · exact hF.calm

/-- An allocation keeps the layout. -/
lemma LaidFits.malloc (hF : LaidFits cfg calm q n l) :
    LaidFits cfg calm q n ⟨(malloc l.bare).2, l.blocks⟩ := by
  unfold Draugr.malloc
  cases hm : l.bare.mem with
  | nil => exact hF
  | cons ok rest =>
    obtain ⟨hat, hown, hmain, hroom, hvals, heat, heown, hcount, hcap, hflag, hfill⟩ := hF.laid
    obtain ⟨k, hB⟩ := hF.books
    exact ⟨⟨k, hB.congr rfl rfl rfl rfl rfl⟩, hF.size, hF.few, hF.spillCap_ge, hF.spillCap_le,
      hF.own, hF.config, fun hc => absurd (hF.calm hc) (by rw [hm]; exact List.cons_ne_nil _ _),
      ⟨hat, hown, hmain, hroom, hvals, heat, heown, hcount, hcap, hflag, hfill⟩⟩

/-- A failed `alloc_entry`. -/
lemma LaidFits.entryFailed (hF : LaidFits cfg calm q n l) (hn : n < valNone) :
    LaidFits cfg calm q n { l with blocks := l.blocks.entryFailed } :=
  ⟨hF.books, hF.size, hF.few, hF.spillCap_ge, hF.spillCap_le, hF.own, hF.config, hF.calm,
    hF.laid.entryFailed hn⟩

/-- The old index, with the allocations that the new one has drawn. -/
lemma LaidFits.drawn {l' : LaidBare} (hF : LaidFits cfg calm (z, none) n l)
    (hF' : LaidFits cfg calm q m l') :
    LaidFits cfg calm (z, none) n { l with bare := bareIndex.drawn l.bare l'.bare } := by
  obtain ⟨hat, hown, hmain, hroom, hvals, heat, heown, hcount, hcap, hflag, hfill⟩ := hF.laid
  obtain ⟨k, hB⟩ := hF.books
  exact ⟨⟨k, hB.congr rfl rfl rfl rfl rfl⟩, hF.size, hF.few, hF.spillCap_ge, hF.spillCap_le, hF.own,
    hF.config, hF'.calm, ⟨hat, hown, hmain, hroom, hvals, heat, heown, hcount, hcap, hflag, hfill⟩⟩

/-- Setting `resizing` keeps the layout. -/
lemma LaidFits.setResizing (hF : LaidFits cfg calm (z, none) n l) (r : Bool) :
    LaidFits cfg calm (r, none) n { l with bare := bareIndex.setResizing r l.bare } := by
  obtain ⟨hat, hown, hmain, hroom, hvals, heat, heown, hcount, hcap, hflag, hfill⟩ := hF.laid
  obtain ⟨k, hB⟩ := hF.books
  have hconfig := congrArg (fun t : HtBare => { t with resizing := r }) hF.config
  exact ⟨⟨k, hB.congr rfl rfl rfl rfl rfl⟩, hF.size, hF.few, hF.spillCap_ge, hF.spillCap_le, hF.own,
    hconfig, hF.calm, ⟨hat, hown, hmain, hroom, hvals, heat, heown, hcount, hcap, hflag, hfill⟩⟩

/-- Resetting the counters keeps the layout. -/
lemma LaidFits.resetCounters (hF : LaidFits cfg calm (z, none) n l) (h0 : l.bare.size = 0) :
    LaidFits cfg calm (z, none) n { l with bare := bareIndex.resetCounters l.bare } := by
  obtain ⟨hat, hown, hmain, hroom, hvals, heat, heown, hcount, hcap, hflag, hfill⟩ := hF.laid
  obtain ⟨k, hB⟩ := hF.books
  exact ⟨⟨k, hB.congr rfl rfl rfl h0.symm rfl⟩, Nat.zero_le _, hF.few, hF.spillCap_ge,
    hF.spillCap_le, hF.own,
    hF.config, hF.calm, ⟨hat, hown, hmain, hroom, hvals, heat, heown, hcount, hcap, hflag, hfill⟩⟩

/-- A rebuild may leave room. -/
lemma LaidFits.room_mono {r r' : ℕ} (hF : LaidFits cfg calm (z, some r) n l) (hr : r' ≤ r) :
    LaidFits cfg calm (z, some r') n l := by
  obtain ⟨hat, hown, hmain, hroom, hvals, heat, heown, hcount, hcap, -, hfill⟩ := hF.laid
  obtain ⟨h1, h2⟩ := hfill r rfl
  refine ⟨hF.books, hF.size, hF.few, hF.spillCap_ge, hF.spillCap_le, nofun, hF.config, hF.calm,
    ⟨hat, hown, hmain, hroom, hvals, heat, heown, hcount, hcap, nofun, fun s hs => ?_⟩⟩
  cases hs
  exact ⟨h1, by omega⟩

/-! ## The index without its layout -/

/-- The bare table as the index of a key/value table, without the calls of `bare_resize_table` that
free the table block. -/
def nestedIndex : IndexOps HtBare :=
  { bareIndex with
    insert := fun b h v =>
      if h < 2 then some (bareSpillInsert b h v) else bareRhInsertBounded nestedResize b h v }

/-- The layout is forgotten. -/
def laidBare (cfg : HtBare) (calm : Prop) : IndexMap laidIndex nestedIndex where
  map := LaidBare.bare
  Fits := LaidFits cfg calm
  clearOk l := l.bare.spillInBlock
  room_mono := LaidFits.room_mono
  findAll_map _ _ := rfl
  main_map _ := rfl
  spill_map _ := rfl
  overflow_map _ := rfl
  size_map _ := rfl
  capacity_map _ := rfl
  maxLoadFactor_map _ := rfl
  minLoadFactor_map _ := rfl
  resizing_map _ := rfl
  capacity_pow2 hF := by
    obtain ⟨k, hB⟩ := hF.books
    exact hB.pow2
  lanes_le hF := hF.lanes
  main_keys hF e he := by
    obtain ⟨k, hB⟩ := hF.books
    have hform := hB.toFormed.live he
    exact ⟨hform.hash2, hform.hash48⟩
  spill_keys hF e he := by
    obtain ⟨k, hB⟩ := hF.books
    exact (hB.spill e he).1
  overflow_keys hF e he := by
    obtain ⟨k, hB⟩ := hF.books
    have hform := hB.overflow e he
    exact ⟨hform.hash2, hform.hash48⟩
  insert_map := by
    intro p n l h v _ _ _ _ _
    show (if h < 2 then some (bareSpillInsert l.bare h v)
      else bareRhInsertBounded nestedResize l.bare h v) =
      (l.insert h v).map _
    unfold LaidBare.insert
    split
    · rfl
    · cases bareRhInsertBounded nestedResize l.bare h v <;> rfl
  insert_fits hF hq h48 hv hn hr := hF.insert hq h48 hv hn hr
  spillInsert_map _ _ _ _ := rfl
  spillInsert_fits hF h2 hv hn := hF.spillInsert h2 hv hn (.inr ⟨_, rfl, rfl⟩)
  removeVal_map _ _ _ := rfl
  removeVal_fits hash v hF := hF.removeVal hash v
  setResizing_map _ _ := rfl
  setResizing_fits r hF := hF.setResizing r
  setResizing_size _ _ := rfl
  fresh_map _ _ := rfl
  fresh_fits hF hc := hF.fresh hc
  placeTombs_map _ := rfl
  placeTombs_fits hF := hF.placeTombs
  resetCounters_map _ := rfl
  resetCounters_fits hF h0 := hF.resetCounters h0
  clear_map _ := rfl
  clear_fits hF hin := hF.clear hin
  malloc_map _ := rfl
  malloc_fits hF := hF.malloc
  entryFailed_map _ := rfl
  entryFailed_fits hF hn := hF.entryFailed hn
  drawn_map _ _ := rfl
  drawn_fits hF hF' := hF.drawn hF'

/-! ## The index without the capacity of its spill lane -/

/-- The table without tombstone count, `spill_cap` and `spill_in_block`. -/
def HtBare.plain (t : HtBare) : HtBare := dress 0 spillInitial true t

/-- The bare table with a spill lane that never runs out of space. -/
def plainIndex : IndexOps HtBare :=
  { bareIndex with
    insert := fun b h v =>
      if h < 2 then some (true, { b with spill := b.spill ++ [(h48 h, v)], size := b.size + 1 })
      else (bareRhInsertBounded nestedResize b h v).map (Prod.map id HtBare.plain)
    spillInsert :=
      fun b h v => (true, { b with spill := b.spill ++ [(h48 h, v)], size := b.size + 1 })
    removeVal := fun b hash v => Prod.map id HtBare.plain (htBareRemoveVal b hash v)
    fresh := fun b c => (freshBlocks b c).plain
    placeTombs := fun b => (barePlaceProphylacticTombstones b).plain
    clear := fun b => (htBareClear b).plain }

/-- With every allocation succeeding, the spill lane never runs out of space. -/
lemma spillInsert_plain (hF : LaidFits cfg True q n l) (h v : ℕ) :
    plainIndex.spillInsert l.bare.plain h v =
      Prod.map id (fun l : LaidBare => l.bare.plain) (l.spillInsert h v) := by
  obtain ⟨hok, c, s, he⟩ := hF.spillInsert_ok trivial h v
  unfold LaidBare.spillInsert
  simp only [Prod.map_apply, hok, he]
  rfl

/-- The layout and the capacity of the spill lane are forgotten. -/
def laidPlain (cfg : HtBare) : IndexMap laidIndex plainIndex :=
  { laidBare cfg True with
    map := fun l => l.bare.plain
    findAll_map := fun l hash => htBareFindAll_dress l.bare hash _ _ _
    main_map := fun _ => rfl
    spill_map := fun _ => rfl
    overflow_map := fun _ => rfl
    size_map := fun _ => rfl
    capacity_map := fun _ => rfl
    maxLoadFactor_map := fun _ => rfl
    minLoadFactor_map := fun _ => rfl
    resizing_map := fun _ => rfl
    insert_map := by
      intro p n l h v hF _ _ _ _
      show (if h < 2 then some (plainIndex.spillInsert l.bare.plain h v)
        else (bareRhInsertBounded nestedResize l.bare.plain h v).map (Prod.map id HtBare.plain)) =
          (l.insert h v).map _
      unfold LaidBare.insert
      split
      · rw [spillInsert_plain hF]
        rfl
      · obtain ⟨k, hd⟩ := bareRhInsertBounded_dress l.bare h v 0 spillInitial true
        rw [HtBare.plain, hd]
        cases bareRhInsertBounded nestedResize l.bare h v <;> rfl
    spillInsert_map := fun hF _ _ _ => spillInsert_plain hF _ _
    removeVal_map := by
      intro z n l hash v _
      obtain ⟨k, hd⟩ := htBareRemoveVal_dress l.bare hash v 0 spillInitial true
      show Prod.map id HtBare.plain (htBareRemoveVal (dress 0 spillInitial true l.bare) hash v) = _
      rw [hd]
      rfl
    setResizing_map := fun _ _ => rfl
    fresh_map := fun _ _ => rfl
    placeTombs_map := by
      intro l
      obtain ⟨k, hd⟩ := barePlaceProphylacticTombstones_dress l.bare 0 spillInitial true
      show (barePlaceProphylacticTombstones (dress 0 spillInitial true l.bare)).plain = _
      rw [hd]
      rfl
    resetCounters_map := fun _ => rfl
    clear_map := by
      intro l
      show (htBareClear l.bare.plain).plain = (bareIndex.clear l.bare).plain
      simp only [bareIndex]
      split <;> rfl
    malloc_map := by
      intro l
      show Draugr.malloc l.bare.plain = Prod.map id HtBare.plain (Draugr.malloc l.bare)
      unfold Draugr.malloc
      show (match l.bare.mem with | [] => _ | ok :: rest => _) = _
      cases l.bare.mem <;> rfl
    entryFailed_map := fun _ => rfl
    drawn_map := fun _ _ => rfl }

end Draugr
