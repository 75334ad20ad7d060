import Mathlib.Logic.Function.Basic
import Mathlib.Data.List.Nodup
import Mathlib.Tactic

/-!
# The record arena of the concurrent table

Model of `htc_arena_t` of `src/htc.c`: records in blocks of 1024, a free list of indices, and the
map `htc_arena_ptr` from an index to a record. Blocks form a linked list to which a new block is
*prepended*, while `htc_arena_ptr` walks `idx >> 10` blocks from the head; the block an index
denotes therefore changes when a block is added.

* `blocks` lists the blocks from `head` on; a block maps a slot number below 1024 to its record.
* `freeIdx` lists `free_idx[0 .. free_count)` from the top down.
* `mem` lists the outcomes of the allocations to come; an exhausted list stands for success.
* `lock` makes each call one step.
* `flags` and `generation` are kept because the calls write them; nothing here reads them.

`Steady` is the invariant of an arena of at most one block, and `runArena_steady` carries it over
every run that never has more than 1024 indices outstanding.
-/

namespace Draugr.Htc

/-- `htc_record_t`. -/
structure HtcRecord where
  identityHash : ℕ
  placementHash : ℕ
  generation : ℕ
  flags : ℕ
  userValue : ℕ
  deriving DecidableEq, Repr

/-- A record as `calloc` leaves it. -/
def HtcRecord.zero : HtcRecord := ⟨0, 0, 0, 0, 0⟩

/-- `HTC_ARENA_BLOCK_SHIFT`. -/
def arenaBlockShift : ℕ := 10

/-- `HTC_ARENA_BLOCK_SIZE`. -/
def arenaBlockSize : ℕ := 2 ^ arenaBlockShift

/-- `htc_arena_t`. -/
structure HtcArena where
  blocks : List (ℕ → HtcRecord)
  count : ℕ
  freeIdx : List ℕ
  freeCap : ℕ
  mem : List Bool

/-- A zeroed `htc_arena_t`. -/
def HtcArena.init (mem : List Bool) : HtcArena := ⟨[], 0, [], 0, mem⟩

/-- Where `htc_arena_ptr` ends: the block, numbered in the order of allocation, and the slot. -/
def htcArenaLoc (a : HtcArena) (idx : ℕ) : Option (ℕ × ℕ) :=
  let bi := idx >>> arenaBlockShift
  if bi < a.blocks.length then some (a.blocks.length - 1 - bi, idx % arenaBlockSize) else none

/-- `*htc_arena_ptr(a, idx)`; `none` is `NULL`. -/
def htcArenaPtr (a : HtcArena) (idx : ℕ) : Option HtcRecord :=
  (a.blocks[idx >>> arenaBlockShift]?).map fun b => b (idx % arenaBlockSize)

/-- Writes through `htc_arena_ptr(a, idx)`. -/
def HtcArena.writeRec (a : HtcArena) (idx : ℕ) (f : HtcRecord → HtcRecord) : HtcArena :=
  { a with blocks := a.blocks.modify (idx >>> arenaBlockShift) fun b =>
      Function.update b (idx % arenaBlockSize) (f (b (idx % arenaBlockSize))) }

/-- The outcome of the next allocation. -/
def HtcArena.malloc (a : HtcArena) : Bool × HtcArena :=
  match a.mem with
  | [] => (true, a)
  | ok :: rest => (ok, { a with mem := rest })

/-- The loop that adds blocks: `n` are still needed. -/
def addBlocks : ℕ → HtcArena → Bool × HtcArena
  | 0, a => (true, a)
  | n + 1, a =>
    match a.malloc with
    | (false, a) => (false, a)
    | (true, a) => addBlocks n { a with blocks := (fun _ => HtcRecord.zero) :: a.blocks }

/-- `htc_arena_alloc`; `none` is `UINT32_MAX`. -/
def htcArenaAlloc (a : HtcArena) (identityHash placementHash value : ℕ) : Option ℕ × HtcArena :=
  match a.freeIdx with
  | idx :: rest =>
    let a := a.writeRec idx fun r =>
      ⟨identityHash, placementHash, (r.generation + 1) % 2 ^ 32, 0, value⟩
    (some idx, { a with freeIdx := rest })
  | [] =>
    -- blocks for every index up to the new one
    let needed := (a.count >>> arenaBlockShift) + 1
    match addBlocks (needed - a.blocks.length) a with
    | (false, a) => (none, a)
    | (true, a) =>
      let idx := a.count
      let a := { a with count := (a.count + 1) % 2 ^ 32 }
      (some idx, a.writeRec idx fun r => ⟨identityHash, placementHash, r.generation, 0, value⟩)

/-- `htc_arena_rec_zero`. -/
def htcArenaRecZero (r : HtcRecord) : HtcRecord :=
  { r with
    identityHash := 0, placementHash := 0, generation := (r.generation + 1) % 2 ^ 32
    userValue := 0 }

/-- `htc_arena_free`. When the free list cannot be reallocated the index is lost. -/
def htcArenaFree (a : HtcArena) (idx : ℕ) : HtcArena :=
  let a := a.writeRec idx htcArenaRecZero
  if a.freeIdx.length ≥ a.freeCap then
    match a.malloc with
    | (false, a) => a
    | (true, a) =>
      { a with
        freeCap := if a.freeCap = 0 then 64 else a.freeCap * 2 % 2 ^ 32
        freeIdx := idx :: a.freeIdx }
  else { a with freeIdx := idx :: a.freeIdx }

/-! ## Runs -/

/-- What a client stores in a record: `identity_hash`, `placement_hash`, `user_value`. -/
abbrev Payload := ℕ × ℕ × ℕ

/-- The payload of a record. -/
def HtcRecord.payload (r : HtcRecord) : Payload := (r.identityHash, r.placementHash, r.userValue)

/-- A call of a client. -/
inductive ArenaOp where
  /-- `htc_arena_alloc` -/
  | alloc (p : Payload)
  /-- `htc_arena_free` -/
  | free (idx : ℕ)

/-- The arena, and for every allocated index the payload it was allocated with. -/
structure ArenaState where
  arena : HtcArena
  held : ℕ → Option Payload

/-- One call; `none` is a call that a client must not make, a failed allocation or a free of an
index that is not allocated. -/
def ArenaOp.run : ArenaOp → ArenaState → Option ArenaState
  | .alloc p, s =>
    match htcArenaAlloc s.arena p.1 p.2.1 p.2.2 with
    | (none, _) => none
    | (some idx, a) => some ⟨a, Function.update s.held idx (some p)⟩
  | .free idx, s =>
    if (s.held idx).isSome then
      some ⟨htcArenaFree s.arena idx, Function.update s.held idx none⟩
    else none

/-- A sequence of calls. -/
def runArena : List ArenaOp → ArenaState → Option ArenaState
  | [], s => some s
  | op :: ops, s => (op.run s).bind (runArena ops)

/-- The number of indices that are allocated. -/
def outstanding (a : HtcArena) : ℕ := a.count - a.freeIdx.length

/-- Every allocation of the sequence is made with fewer than 1024 indices outstanding. -/
def withinBlock : List ArenaOp → ArenaState → Prop
  | [], _ => True
  | op :: ops, s =>
    (match op with
      | .alloc _ => outstanding s.arena < arenaBlockSize
      | .free _ => True) ∧
    ∀ s', op.run s = some s' → withinBlock ops s'

/-- The start of a run, all allocations succeeding. -/
def ArenaState.start : ArenaState := ⟨HtcArena.init [], fun _ => none⟩

/-- What the arena promises: distinct allocated indices denote distinct records, and the record of
an allocated index holds the payload it was allocated with. -/
structure Stable (s : ArenaState) : Prop where
  distinct : ∀ i j, (s.held i).isSome → (s.held j).isSome → i ≠ j →
    htcArenaLoc s.arena i ≠ htcArenaLoc s.arena j
  holds : ∀ i p, s.held i = some p →
    ∃ r, htcArenaPtr s.arena i = some r ∧ r.payload = p

/-- The invariant of an arena of at most one block. -/
structure Steady (s : ArenaState) : Prop where
  mem : s.arena.mem = []
  count : s.arena.count ≤ arenaBlockSize
  block : s.arena.count = 0 ∧ s.arena.blocks = [] ∨ ∃ b, s.arena.blocks = [b] ∧
    ∀ i p, s.held i = some p → (b i).payload = p
  free : ∀ i ∈ s.arena.freeIdx, i < s.arena.count ∧ s.held i = none
  nodup : s.arena.freeIdx.Nodup
  held : ∀ i, (s.held i).isSome → i < s.arena.count

variable {s s' : ArenaState}

/-- The indices of the first block. -/
lemma idx_first {i : ℕ} (hi : i < arenaBlockSize) :
    i >>> arenaBlockShift = 0 ∧ i % arenaBlockSize = i :=
  ⟨by rw [Nat.shiftRight_eq_div_pow]; exact Nat.div_eq_of_lt hi, Nat.mod_eq_of_lt hi⟩

/-- Writing a record of the only block. -/
lemma writeRec_first {a : HtcArena} {b : ℕ → HtcRecord} {i : ℕ} (hb : a.blocks = [b])
    (hi : i < arenaBlockSize) (f : HtcRecord → HtcRecord) :
    (a.writeRec i f).blocks = [Function.update b i (f (b i))] := by
  obtain ⟨h1, h2⟩ := idx_first hi
  unfold HtcArena.writeRec
  simp only [h1, h2, hb]
  rfl

/-- The payloads of the other indices are kept by a write. -/
lemma payload_update {b : ℕ → HtcRecord} {H : ℕ → Option Payload} {i : ℕ} {r : HtcRecord}
    {o : Option Payload} (hb : ∀ j p, H j = some p → (b j).payload = p)
    (hr : ∀ p, o = some p → r.payload = p) :
    ∀ j p, Function.update H i o j = some p → (Function.update b i r j).payload = p := by
  intro j p hj
  by_cases hji : j = i
  · subst hji
    rw [Function.update_self] at hj ⊢
    exact hr p hj
  · rw [Function.update_of_ne hji] at hj ⊢
    exact hb j p hj

/-- Updating one index leaves the others as they are. -/
lemma isSome_of_update {H : ℕ → Option Payload} {i j : ℕ} {o : Option Payload} (hji : j ≠ i)
    (hj : (Function.update H i o j).isSome) : (H j).isSome := by
  rwa [Function.update_of_ne hji] at hj

/-- An allocation within the block keeps the arena steady. -/
lemma ArenaOp.alloc_steady {p : Payload} (h : Steady s) (hw : outstanding s.arena < arenaBlockSize)
    (hr : (ArenaOp.alloc p).run s = some s') : Steady s' := by
  rw [ArenaOp.run, htcArenaAlloc] at hr
  cases hf : s.arena.freeIdx with
  | cons idx rest =>
    -- an index from the free list
    rw [hf] at hr
    cases hr
    have hidx := h.free idx (by rw [hf]; exact List.mem_cons_self)
    have hnd := h.nodup
    rw [hf, List.nodup_cons] at hnd
    rcases h.block with ⟨h0, _⟩ | ⟨b, hb, hbp⟩
    · omega
    have hi : idx < arenaBlockSize := lt_of_lt_of_le hidx.1 h.count
    have hbl := writeRec_first hb hi fun r => ⟨p.1, p.2.1, (r.generation + 1) % 2 ^ 32, 0, p.2.2⟩
    refine ⟨h.mem, h.count, .inr ⟨_, hbl, ?_⟩, ?_, hnd.2, ?_⟩
    · exact payload_update hbp fun q hq => by cases hq; rfl
    · intro j hj
      have hji : j ≠ idx := fun e => hnd.1 (e ▸ hj)
      obtain ⟨h1, h2⟩ := h.free j (by rw [hf]; exact List.mem_cons_of_mem _ hj)
      exact ⟨h1, (Function.update_of_ne hji _ _).trans h2⟩
    · intro j hj
      by_cases hji : j = idx
      · rw [hji]
        exact hidx.1
      · exact h.held j (isSome_of_update hji hj)
  | nil =>
    -- the next index, in the block that exists or in the first one
    rw [hf] at hr
    have hcount : s.arena.count < arenaBlockSize := by
      unfold outstanding at hw
      rw [hf] at hw
      exact hw
    have h1 := (idx_first hcount).1
    have hinc : (s.arena.count + 1) % 2 ^ 32 = s.arena.count + 1 :=
      Nat.mod_eq_of_lt (by unfold arenaBlockSize arenaBlockShift at hcount; omega)
    obtain ⟨b, hadd, hbp⟩ : ∃ b, addBlocks (s.arena.count >>> arenaBlockShift + 1 -
        s.arena.blocks.length) s.arena = (true, { s.arena with blocks := [b] }) ∧
        ∀ i q, s.held i = some q → (b i).payload = q := by
      rcases h.block with ⟨h0, hbl⟩ | ⟨b, hb, hbp⟩
      · refine ⟨fun _ => HtcRecord.zero, ?_, fun i q hq => ?_⟩
        · rw [h1, hbl]
          simp only [List.length_nil, addBlocks, HtcArena.malloc, h.mem, hbl]
        · have := h.held i (by rw [hq]; rfl)
          omega
      · refine ⟨b, ?_, hbp⟩
        have hlen : s.arena.count >>> arenaBlockShift + 1 - s.arena.blocks.length = 0 := by
          rw [h1, hb]
          rfl
        rw [hlen, ← hb]
        rfl
    simp only [hadd] at hr
    cases hr
    have hbl := writeRec_first (a := { s.arena with
        blocks := [b], count := (s.arena.count + 1) % 2 ^ 32 }) rfl hcount
      fun r => ⟨p.1, p.2.1, r.generation, 0, p.2.2⟩
    refine ⟨h.mem, ?_, .inr ⟨_, hbl, ?_⟩, ?_, h.nodup, ?_⟩
    · show (s.arena.count + 1) % 2 ^ 32 ≤ arenaBlockSize
      rw [hinc]
      exact hcount
    · exact payload_update hbp fun q hq => by cases hq; rfl
    · intro j hj
      have hj' : j ∈ s.arena.freeIdx := hj
      rw [hf] at hj'
      cases hj'
    · intro j hj
      show j < (s.arena.count + 1) % 2 ^ 32
      rw [hinc]
      by_cases hji : j = s.arena.count
      · omega
      · exact Nat.lt_succ_of_lt (h.held j (isSome_of_update hji hj))

/-- A free of an allocated index keeps the arena steady. -/
lemma ArenaOp.free_steady {idx : ℕ} (h : Steady s)
    (hr : (ArenaOp.free idx).run s = some s') : Steady s' := by
  rw [ArenaOp.run] at hr
  split at hr
  · rename_i hheld
    cases hr
    have hidx := h.held idx hheld
    have hi : idx < arenaBlockSize := lt_of_lt_of_le hidx h.count
    rcases h.block with ⟨h0, _⟩ | ⟨b, hb, hbp⟩
    · omega
    have hm : (s.arena.writeRec idx htcArenaRecZero).malloc =
        (true, s.arena.writeRec idx htcArenaRecZero) := by
      unfold HtcArena.malloc
      rw [show (s.arena.writeRec idx htcArenaRecZero).mem = [] from h.mem]
    obtain ⟨cap, hfree⟩ : ∃ cap, htcArenaFree s.arena idx =
        { s.arena.writeRec idx htcArenaRecZero with
          freeCap := cap, freeIdx := idx :: s.arena.freeIdx } := by
      unfold htcArenaFree
      simp only [hm]
      split
      · exact ⟨_, rfl⟩
      · exact ⟨s.arena.freeCap, rfl⟩
    rw [hfree]
    have hbl := writeRec_first hb hi htcArenaRecZero
    refine ⟨h.mem, h.count, .inr ⟨_, hbl, ?_⟩, ?_, ?_, ?_⟩
    · exact payload_update hbp fun q hq => by cases hq
    · intro j hj
      rcases List.mem_cons.mp hj with rfl | hj
      · exact ⟨hidx, Function.update_self ..⟩
      · have hji : j ≠ idx := fun e => by
          rw [e] at hj
          rw [(h.free idx hj).2] at hheld
          cases hheld
        exact ⟨(h.free j hj).1, (Function.update_of_ne hji _ _).trans (h.free j hj).2⟩
    · refine List.nodup_cons.mpr ⟨fun hj => ?_, h.nodup⟩
      rw [(h.free idx hj).2] at hheld
      cases hheld
    · intro j hj
      by_cases hji : j = idx
      · rw [hji]
        exact hidx
      · exact h.held j (isSome_of_update hji hj)
  · cases hr

/-- A run within one block keeps the arena steady. -/
lemma runArena_steady {ops : List ArenaOp} (h : Steady s) (hw : withinBlock ops s)
    (hr : runArena ops s = some s') : Steady s' := by
  induction ops generalizing s with
  | nil =>
    cases hr
    exact h
  | cons op ops ih =>
    obtain ⟨s₁, h₁, hr⟩ := Option.bind_eq_some_iff.mp hr
    have hs₁ : Steady s₁ := by
      cases op with
      | alloc p => exact ArenaOp.alloc_steady h hw.1 h₁
      | free idx => exact ArenaOp.free_steady h h₁
    exact ih hs₁ (hw.2 s₁ h₁) hr

/-- A steady arena keeps its promise. -/
lemma Steady.stable (h : Steady s) : Stable s := by
  constructor
  · intro i j hi hj hij
    have h1 := idx_first (lt_of_lt_of_le (h.held i hi) h.count)
    have h2 := idx_first (lt_of_lt_of_le (h.held j hj) h.count)
    rcases h.block with ⟨h0, _⟩ | ⟨b, hb, _⟩
    · have := h.held i hi
      omega
    · unfold htcArenaLoc
      simp only [h1.1, h1.2, h2.1, h2.2, hb, List.length_singleton, Nat.zero_lt_one, if_true]
      intro e
      exact hij (by simpa using e)
  · intro i p hp
    have hi := h.held i (by rw [hp]; rfl)
    have h1 := idx_first (lt_of_lt_of_le hi h.count)
    rcases h.block with ⟨h0, _⟩ | ⟨b, hb, hbp⟩
    · omega
    · refine ⟨b i, ?_, hbp i p hp⟩
      unfold htcArenaPtr
      rw [h1.1, h1.2, hb]
      rfl

/-- A zeroed arena is steady. -/
lemma steady_start : Steady ArenaState.start where
  mem := rfl
  count := Nat.zero_le _
  block := .inl ⟨rfl, rfl⟩
  free i hi := absurd hi List.not_mem_nil
  nodup := List.nodup_nil
  held i hi := by cases hi

/-- The arena keeps its promise in every state of a run that never allocates with 1024 indices
outstanding. -/
theorem htcArena_stable (ops : List ArenaOp) (s : ArenaState)
    (hw : withinBlock ops ArenaState.start) (hr : runArena ops ArenaState.start = some s) :
    Stable s :=
  (runArena_steady steady_start hw hr).stable

/-- Two allocations and a free. -/
def sampleArenaOps : List ArenaOp := [.alloc (7, 8, 9), .alloc (1, 2, 3), .free 0]

/-- The run of `sampleArenaOps` stays within one block. -/
theorem htcArena_stable_sample : ∃ s, runArena sampleArenaOps ArenaState.start = some s ∧
    Stable s ∧ s.held 1 = some (1, 2, 3) := by
  refine ⟨_, rfl, htcArena_stable sampleArenaOps _ ?_ rfl, rfl⟩
  refine ⟨by decide, fun s h => ?_⟩
  cases h
  refine ⟨by decide, fun s h => ?_⟩
  cases h
  exact ⟨trivial, fun s h => trivial⟩

/-- 1025 allocations with distinct payloads. -/
def manyAllocs : List ArenaOp := (List.range 1025).map fun i => .alloc (i + 1, i + 1, i + 1)

/-- After the 1025th allocation index 0 denotes a record of the new block, which is zero. -/
theorem htcArena_stable_fails : ∃ s, runArena manyAllocs ArenaState.start = some s ∧
    s.held 0 = some (1, 1, 1) ∧ htcArenaPtr s.arena 0 = some HtcRecord.zero ∧ ¬ Stable s := by
  have hrun : (runArena manyAllocs ArenaState.start).map
      (fun s => (s.held 0, htcArenaPtr s.arena 0)) =
        some (some (1, 1, 1), some HtcRecord.zero) := by
    decide +kernel
  obtain ⟨s, hr, hs⟩ := Option.map_eq_some_iff.mp hrun
  obtain ⟨hheld, hptr⟩ := Prod.mk.inj hs
  refine ⟨s, hr, hheld, hptr, fun hst => ?_⟩
  obtain ⟨r, hr', hp⟩ := hst.holds 0 _ hheld
  rw [hptr] at hr'
  cases hr'
  cases hp

end Draugr.Htc
