import Draugr.Htc.Defs

/-!
# The record store and the arena

The calls of the table work on an ideal record store, in which an index denotes the record that it
was allocated for. `htc_arena_t` is such a store as long as no allocation is made with 1024 records
outstanding: a run of allocations and frees then hands out the same indices in both, and
`htc_arena_ptr` of an allocated index gives the record that the ideal store has there
(`arena_refines_store`). Beyond that the arena of the source is none (`htcArena_stable_fails`).
-/

namespace Draugr.Htc

variable {a : HtcArena} {b : ℕ → HtcRecord} {s s' : ArenaState} {t : Table} {idx x y z : ℕ}
  {rest : List ℕ}

/-- A call on the ideal store, with the index that it hands out. -/
def ArenaOp.store : ArenaOp → Table → Option ℕ × Table
  | .alloc p, t => t.arenaAlloc p.1 p.2.1 p.2.2
  | .free idx, t => (none, { t with toCore := t.toCore.arenaFree idx })

/-- The only block of the arena; before there is one, a block as `calloc` leaves it. -/
def HtcArena.firstBlock (a : HtcArena) : ℕ → HtcRecord := a.blocks.headD fun _ => HtcRecord.zero

/-! ## The calls on one block -/

/-- An allocation takes the index that was freed last. -/
lemma htcArenaAlloc_reuse (hb : a.blocks = [b]) (hf : a.freeIdx = idx :: rest)
    (hi : idx < arenaBlockSize) :
    htcArenaAlloc a x y z = (some idx, { a with
      blocks := [Function.update b idx ⟨x, y, ((b idx).generation + 1) % 2 ^ 32, 0, z⟩]
      freeIdx := rest }) := by
  have hw := writeRec_first hb hi fun r => ⟨x, y, (r.generation + 1) % 2 ^ 32, 0, z⟩
  rw [htcArenaAlloc, hf]
  dsimp only
  rw [← hw]
  rfl

/-- An allocation takes the next index, in the block that is there or in the first one. -/
lemma htcArenaAlloc_next (hm : a.mem = []) (hl : a.blocks.length ≤ 1) (hf : a.freeIdx = [])
    (hc : a.count < arenaBlockSize) : htcArenaAlloc a x y z = (some a.count, { a with
      blocks := [Function.update a.firstBlock a.count
        ⟨x, y, (a.firstBlock a.count).generation, 0, z⟩]
      count := a.count + 1 }) := by
  have hadd : addBlocks (a.count >>> arenaBlockShift + 1 - a.blocks.length) a =
      (true, { a with blocks := [a.firstBlock] }) := by
    rw [(idx_first hc).1, HtcArena.firstBlock]
    obtain ⟨blocks, count, freeIdx, freeCap, mem⟩ := a
    cases hm
    match blocks, hl with
    | [], _ => rfl
    | [b], _ => rfl
  have hinc : (a.count + 1) % 2 ^ 32 = a.count + 1 :=
    Nat.mod_eq_of_lt (by unfold arenaBlockSize arenaBlockShift at hc; omega)
  have hw := writeRec_first (a := { a with blocks := [a.firstBlock], count := a.count + 1 }) rfl hc
    fun r => ⟨x, y, r.generation, 0, z⟩
  simp only [htcArenaAlloc, hf, hadd, hinc]
  rw [← hw]
  simp only [hf]
  rfl

/-- A free zeroes the record and puts the index on top of the free list. -/
lemma htcArenaFree_first (hm : a.mem = []) (hb : a.blocks = [b]) (hi : idx < arenaBlockSize) :
    ∃ cap, htcArenaFree a idx = { a with
      blocks := [Function.update b idx (htcArenaRecZero (b idx))]
      freeIdx := idx :: a.freeIdx
      freeCap := cap } := by
  have hw := writeRec_first hb hi htcArenaRecZero
  have hmalloc :
      (a.writeRec idx htcArenaRecZero).malloc = (true, a.writeRec idx htcArenaRecZero) := by
    unfold HtcArena.malloc
    rw [show (a.writeRec idx htcArenaRecZero).mem = [] from hm]
  rw [← hw, htcArenaFree]
  split
  · rw [hmalloc]
    exact ⟨_, rfl⟩
  · exact ⟨a.freeCap, rfl⟩

/-! ## The two stores -/

/-- The ideal store has the indices of the arena, and the records of its block. -/
structure Stores (s : ArenaState) (t : Table) : Prop where
  mem : t.mem = []
  count : t.count = s.arena.count
  free : t.freeIdx = s.arena.freeIdx
  recs : ∀ i < arenaBlockSize, t.recs i = s.arena.firstBlock i

/-- A steady arena has at most one block. -/
lemma Steady.length_le (hs : Steady s) : s.arena.blocks.length ≤ 1 := by
  rcases hs.block with ⟨-, hb⟩ | ⟨b, hb, -⟩
  · rw [hb]
    exact Nat.zero_le 1
  · rw [hb]
    exact le_rfl

/-- A steady arena with an index has one block. -/
lemma Steady.block_of_lt (hs : Steady s) (hi : idx < s.arena.count) :
    ∃ b, s.arena.blocks = [b] := by
  rcases hs.block with ⟨h0, -⟩ | ⟨b, hb, -⟩
  · omega
  · exact ⟨b, hb⟩

/-- The same write on both sides. -/
lemma recs_update {g : ℕ → HtcRecord} {r r' : HtcRecord} (h : ∀ i < arenaBlockSize, g i = b i)
    (hr : r = r') :
    ∀ i < arenaBlockSize, Function.update g idx r i = Function.update b idx r' i := by
  intro i hi
  rw [Function.update_apply, Function.update_apply, hr, h i hi]

/-- One call hands out the same index in both stores. -/
lemma Stores.step {op : ArenaOp} (h : Stores s t) (hs : Steady s)
    (hw : ∀ p, op = .alloc p → outstanding s.arena < arenaBlockSize) (hr : op.run s = some s') :
    Stores s' (op.store t).2 ∧
      ∀ p, op = .alloc p → (op.store t).1 = (htcArenaAlloc s.arena p.1 p.2.1 p.2.2).1 := by
  cases op with
  | alloc p =>
    cases hf : s.arena.freeIdx with
    | cons idx rest =>
      obtain ⟨hlt, -⟩ := hs.free idx (by rw [hf]; exact List.mem_cons_self)
      have hi : idx < arenaBlockSize := lt_of_lt_of_le hlt hs.count
      obtain ⟨b, hb⟩ := hs.block_of_lt hlt
      have hfirst : s.arena.firstBlock = b := by rw [HtcArena.firstBlock, hb, List.headD_cons]
      have ha := htcArenaAlloc_reuse hb hf hi (x := p.1) (y := p.2.1) (z := p.2.2)
      rw [ArenaOp.run, ha] at hr
      cases hr
      rw [ArenaOp.store, Table.arenaAlloc, h.free, hf]
      refine ⟨⟨h.mem, h.count, rfl, ?_⟩, fun q hq => ?_⟩
      · exact recs_update (fun i hi => hfirst ▸ h.recs i hi) (by rw [h.recs idx hi, hfirst])
      · cases hq
        rw [ha]
    | nil =>
      have hc : s.arena.count < arenaBlockSize := by
        have := hw p rfl
        rwa [outstanding, hf] at this
      have ha := htcArenaAlloc_next hs.mem hs.length_le hf hc (x := p.1) (y := p.2.1) (z := p.2.2)
      rw [ArenaOp.run, ha] at hr
      cases hr
      have hmalloc : t.malloc = (true, t) := by rw [Table.malloc, h.mem]
      rw [ArenaOp.store, Table.arenaAlloc, h.free, hf]
      dsimp only
      rw [hmalloc]
      dsimp only
      rw [h.count]
      refine ⟨⟨h.mem, rfl, h.free.trans hf, recs_update h.recs (by rw [h.recs _ hc])⟩,
        fun q hq => ?_⟩
      cases hq
      rw [ha]
  | free idx =>
    obtain ⟨hheld, hr⟩ := Option.ite_none_right_eq_some.mp hr
    cases hr
    have hlt := hs.held idx hheld
    have hi : idx < arenaBlockSize := lt_of_lt_of_le hlt hs.count
    obtain ⟨b, hb⟩ := hs.block_of_lt hlt
    have hfirst : s.arena.firstBlock = b := by rw [HtcArena.firstBlock, hb, List.headD_cons]
    obtain ⟨cap, ha⟩ := htcArenaFree_first hs.mem hb hi
    rw [ha]
    refine ⟨⟨h.mem, h.count, congrArg (idx :: ·) h.free, ?_⟩, fun p hp => by cases hp⟩
    exact recs_update (fun i hi => hfirst ▸ h.recs i hi) (by rw [h.recs idx hi, hfirst])

/-- An index of a steady arena denotes the record of the ideal store. -/
lemma Stores.ptr (h : Stores s t) (hs : Steady s) (hi : idx < s.arena.count) :
    htcArenaPtr s.arena idx = some (t.recs idx) := by
  have hlt : idx < arenaBlockSize := lt_of_lt_of_le hi hs.count
  obtain ⟨b, hb⟩ := hs.block_of_lt hi
  obtain ⟨h1, h2⟩ := idx_first hlt
  rw [htcArenaPtr, h1, h2, h.recs idx hlt, HtcArena.firstBlock, hb]
  rfl

/-! ## Runs -/

/-- A run keeps the two stores together. -/
lemma Stores.run : ∀ {ops : List ArenaOp} {s s' : ArenaState} {t : Table},
    Stores s t → Steady s → withinBlock ops s →
    runArena ops s = some s' → Stores s' (ops.foldl (fun t op => (op.store t).2) t)
  | [], s, s', t, h, _, _, hr => by
    cases hr
    exact h
  | op :: ops, s, s', t, h, hs, hw, hr => by
    obtain ⟨s₁, h₁, hr⟩ := Option.bind_eq_some_iff.mp hr
    have hout : ∀ p, op = .alloc p → outstanding s.arena < arenaBlockSize := by
      rintro p rfl
      exact hw.1
    have hs₁ : Steady s₁ := by
      cases op with
      | alloc p => exact ArenaOp.alloc_steady hs hw.1 h₁
      | free idx => exact ArenaOp.free_steady hs h₁
    exact (h.step hs hout h₁).1.run hs₁ (hw.2 s₁ h₁) hr

/-- While no allocation is made with 1024 records outstanding, the record store of a new table
follows the arena: the same indices are free, and an allocated index denotes the same record. -/
theorem arena_refines_store (cfg : Option HtcConfig) (seedCtr : ℕ) (ops : List ArenaOp)
    (s : ArenaState)
    (hw : withinBlock ops ArenaState.start) (hr : runArena ops ArenaState.start = some s) :
    let t := ops.foldl (fun t op => (op.store t).2) (htcCreate cfg seedCtr [])
    t.count = s.arena.count ∧ t.freeIdx = s.arena.freeIdx ∧
      ∀ i, (s.held i).isSome → htcArenaPtr s.arena i = some (t.recs i) := by
  intro t
  have h₀ : Stores ArenaState.start (htcCreate cfg seedCtr []) := ⟨rfl, rfl, rfl, fun _ _ => rfl⟩
  have hs := runArena_steady steady_start hw hr
  have h : Stores s t := h₀.run steady_start hw hr
  exact ⟨h.count, h.free, fun i hi => h.ptr hs (hs.held i hi)⟩

end Draugr.Htc
