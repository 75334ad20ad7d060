import Draugr.Memory.Steps

/-!
# Runs of the arena

Two things in `src/arena.c` outlive their arena's view of a block. The deferred list is not emptied
by `arena_clear`: a block on it that lies in a segment is released a second time by the next flush,
when its cells may belong to another block (`arena_blocks_apart_fails`). And the thread cache is one
for all arenas: a block freed to one arena is handed out by another (`arena_isolated_fails`).

Apart from that the arena is sound. In a run that clears an arena only without such deferred blocks,
and allocates from the cache only what was freed to the same arena, the blocks of the caller do not
overlap and lie in memory of their own arenas.
-/

namespace Draugr.Memory
open Lib

/-- The memory of a block of the caller. -/
def Block.extent (b : Block) : Extent := ⟨b.ptr.map, b.ptr.off, b.size⟩

/-- No deferred block of the arena lies in a slab or segment. -/
def clearClean (w : Heap) (h : ℕ) : Bool :=
  match w.arena h with
  | none => true
  | some a => a.deferred.all fun e => !w.carved e.1

/-- The call clears an arena only when it is clean. -/
def Call.clearsClean (c : Client) : Call → Bool
  | .clear h => clearClean c.heap h
  | _ => true

/-- The block that the call may take from the thread cache was freed to the same arena. -/
def Call.takesOwn (c : Client) : Call → Bool
  | .alloc h size => decide (CacheOwn c.heap h size)
  | .realloc h _ _ newSize => decide (CacheOwn c.heap h newSize)
  | _ => true

/-- Every call of a run passes a test. -/
def callsPass (test : Client → Call → Bool) (c : Client) : List Call → Bool
  | [] => true
  | call :: calls =>
    test c call &&
      match call.run c with
      | none => true
      | some (_, c) => callsPass test c calls

/-- The pointer leads into mapped memory of the arena: one of its slabs or segments, or a block that
it got from the system allocator. -/
structure OwnedBy (w : Heap) (h : ℕ) (p : Ptr) : Prop where
  mapped : ∃ use, w.Maps p.map h use
  part : (∃ a, w.arena h = some a ∧ ((∃ sc, ∃ s ∈ a.slabs sc, slabContains s p) ∨
      ∃ j g, a.segs j = some g ∧ segContains g p)) ∨ w.Maps p.map h .system

/-- What the caller and the deferred lists hold does not overlap and has its place. -/
def Sound (c : Client) : Prop := Inv c.heap (c.heap.holds (c.live.map Block.held))

variable {c c' : Client} {call : Call} {calls : List Call} {w : Heap} {b : Block} {r : Option Ptr}
  {out : List Held} {h size : ℕ} {p : Ptr}

/-- The start is sound. -/
lemma initial_sound (mem : List Bool) : Sound (Client.initial mem) := by
  refine ⟨⟨nofun, nofun, nofun, nofun⟩, ?_, ?_⟩
  · exact List.Pairwise.nil
  · intro b hb
    exact absurd hb List.not_mem_nil

/-! ## What soundness means for the caller -/

/-- The bytes of a block are within those that the heap gave. -/
lemma Block.extent_within (b : Block) : b.extent.Within b.held.extent := by
  refine ⟨rfl, le_rfl, ?_⟩
  show b.ptr.off + b.size ≤ b.ptr.off + segGranularity * cells b.size
  unfold cells segGranularity
  omega

/-- The blocks of the caller do not overlap. -/
lemma Sound.live_apart (hS : Sound c) : c.live.Pairwise fun b b' => b.extent.Apart b'.extent := by
  have hsub : (c.live.map Block.held).Sublist
      (c.heap.holds (c.live.map Block.held) ++ c.heap.cachedHeld) :=
    (List.sublist_append_left _ _).trans (List.sublist_append_left _ _)
  have hpair := List.Pairwise.sublist (hsub.map Held.extent) (Inv.apart hS)
  rw [List.map_map, List.pairwise_map] at hpair
  exact hpair.imp fun h => h.within (Block.extent_within _) (Block.extent_within _)

/-- A placed block is memory of its arena. -/
lemma Heap.Placed.owned {b : Held} (hs : w.Shape) (hb : w.Placed b) : OwnedBy w b.arena b.ptr := by
  rcases hb.2 with ⟨a, j, g, start, ha, hg, hp, hfit, -⟩ | hsys
  · have hmaps := (hs.seg ha hg).2.1
    have hpos := hb.1
    rw [hp]
    refine ⟨⟨_, hmaps⟩, .inl ⟨a, ha, .inr ⟨j, g, hg, rfl, ?_⟩⟩⟩
    show segHdrSize + start * segGranularity < segSize
    have hslots : segSlots = 1021 := rfl
    unfold segHdrSize segGranularity segSize
    omega
  · exact ⟨⟨_, hsys.1⟩, .inr hsys.1⟩

/-- The blocks of the caller lie in their arenas. -/
lemma Sound.owned (hS : Sound c) (hb : b ∈ c.live) : OwnedBy c.heap b.arena b.ptr := by
  refine Heap.Placed.owned (b := b.held) hS.shape (hS.placed _ ?_)
  exact List.mem_append_left _ (List.mem_append_left _ (List.mem_map_of_mem hb))

/-! ## One call -/

/-- A step that keeps the deferred lists keeps what the heap holds for the client. -/
lemma Kept.holds {w w' : Heap} (hk : Kept w w') : w'.holds out = w.holds out := by
  unfold Heap.holds
  rw [hk.deferredHeld]

/-- `arena_alloc` of the caller: the block it gets is new, and memory of the arena. -/
lemma Client.alloc_sound (hS : Sound c) (ha : (c.heap.arena h).isSome)
    (hown : CacheOwn c.heap h size) (hr : c.alloc h size = some (r, c')) : Sound c' ∧
      Kept c.heap c'.heap ∧ ∀ p, r = some p → OwnedBy c'.heap h p := by
  obtain ⟨⟨r₀, w⟩, halloc, he⟩ := Option.map_eq_some_iff.mp hr
  cases he
  obtain ⟨a, ha⟩ := Option.isSome_iff_exists.mp ha
  obtain ⟨⟨hserved, hkept⟩, -⟩ := arenaAlloc_serves hS (Heap.arena_lt ha) hown halloc
  cases r₀ with
  | none =>
    refine ⟨?_, hkept, nofun⟩
    unfold Sound
    rw [hkept.holds]
    exact hserved
  | some p =>
    refine ⟨?_, hkept, ?_⟩
    · unfold Sound
      rw [hkept.holds]
      exact hserved
    · intro q hq
      cases hq
      exact Heap.Placed.owned hserved.shape hserved.head_placed

/-- A block of the caller stands in front of the others. -/
lemma live_perm (hb : b ∈ c.live) :
    (c.heap.holds (c.live.map Block.held)).Perm
      (b.held :: c.heap.holds ((c.live.erase b).map Block.held)) :=
  ((List.perm_cons_erase hb).map Block.held).append_right _

/-- `arena_free` of a block of the caller. -/
lemma Sound.free (hS : Sound c) (hb : b ∈ c.live) :
    Sound ⟨arenaFree c.heap b.arena b.ptr b.size, c.live.erase b⟩ ∧
      Kept c.heap (arenaFree c.heap b.arena b.ptr b.size) := by
  obtain ⟨h1, h2⟩ := arenaFree_inv (hS.perm (live_perm hb))
  refine ⟨?_, h2⟩
  unfold Sound
  rwa [h2.holds]

/-- Two sizes of one class take the same cells. -/
lemma cells_eq_of_class {s s' : ℕ} (h0 : 0 < s) (h0' : 0 < s') (h : s ≤ 128) (h' : s' ≤ 128)
    (hc : sizeToSlabClass s = sizeToSlabClass s') : cells s = cells s' := by
  rw [← cells_class h0 h, ← cells_class h0' h', hc]

/-- `arena_realloc` of a block of the caller. -/
lemma Client.realloc_sound {newSize : ℕ} (hS : Sound c) (hb : b ∈ c.live)
    (hown : CacheOwn c.heap b.arena newSize) (hr : c.realloc b newSize = some (r, c')) :
    Sound c' ∧ Kept c.heap c'.heap := by
  have hperm := hS.perm (live_perm hb)
  unfold Client.realloc at hr
  split at hr
  · cases hr
    exact hS.free hb
  rename_i hnew
  split at hr
  · rename_i hsame
    cases hr
    have hcells : cells b.size = cells newSize := cells_eq_of_class hperm.size_pos
      (Nat.pos_of_ne_zero hnew) hsame.1 hsame.2.1 hsame.2.2
    have hheld : b.held = Block.held { b with size := newSize } := by
      unfold Block.held
      rw [hcells]
    rw [hheld] at hperm
    exact ⟨hperm, Kept.refl _⟩
  · obtain ⟨⟨r₀, w⟩, halloc, he⟩ := Option.map_eq_some_iff.mp hr
    have hlt : b.arena < c.heap.arenas.length := hperm.head_placed.arena_lt hperm.shape
    obtain ⟨⟨hserved, hkept⟩, -⟩ := arenaAlloc_serves hS hlt hown halloc
    cases r₀ with
    | none =>
      cases he
      refine ⟨?_, hkept⟩
      unfold Sound
      rw [hkept.holds]
      exact hserved
    | some p =>
      cases he
      have hold : Inv w (b.held :: ⟨b.arena, p, cells newSize⟩ ::
          c.heap.holds ((c.live.erase b).map Block.held)) :=
        Inv.perm hserved (((live_perm hb).cons _).trans (.swap _ _ _))
      obtain ⟨h1, h2⟩ := arenaFree_inv hold
      refine ⟨?_, hkept.trans h2⟩
      unfold Sound
      rw [(hkept.trans h2).holds]
      exact h1

/-- `arena_create`. -/
lemma arenaCreate_sound (hS : Sound c) : Sound ⟨arenaCreate c.heap, c.live⟩ := by
  have hI := arenaCreate_inv hS
  unfold Sound
  exact hI

/-- A call on the arena 0 that is there already, and stays. -/
def Call.onOne : Call → Bool
  | .create | .destroy _ => false
  | .alloc h _ | .realloc h _ _ _ | .free h _ _ | .freeDeferred h _ _ | .flush h | .clear h => h = 0

/-- One call. -/
lemma Call.run_sound (hS : Sound c) (hclean : call.clearsClean c = true)
    (hown : call.takesOwn c = true) (hr : call.run c = some (r, c')) :
    Sound c' ∧ (call.onOne = true → c'.heap.arenas.length = c.heap.arenas.length) := by
  cases call with
  | create =>
    obtain ⟨-, rfl⟩ := Prod.mk.inj (Option.some.inj hr)
    exact ⟨arenaCreate_sound hS, nofun⟩
  | alloc h size =>
    obtain ⟨ha, hr⟩ := Option.ite_none_right_eq_some.mp hr
    obtain ⟨h1, h2, -⟩ := Client.alloc_sound hS ha (of_decide_eq_true hown) hr
    exact ⟨h1, fun _ => h2.length⟩
  | realloc h p oldSize newSize =>
    cases p with
    | none =>
      obtain ⟨ha, hr⟩ := Option.ite_none_right_eq_some.mp hr
      obtain ⟨h1, h2, -⟩ := Client.alloc_sound hS ha (of_decide_eq_true hown) hr
      exact ⟨h1, fun _ => h2.length⟩
    | some p =>
      obtain ⟨hb, hr⟩ := Option.ite_none_right_eq_some.mp hr
      obtain ⟨h1, h2⟩ := Client.realloc_sound hS hb (of_decide_eq_true hown) hr
      exact ⟨h1, fun _ => h2.length⟩
  | free h p size =>
    obtain ⟨hb, hr⟩ := Option.ite_none_right_eq_some.mp hr
    cases hr
    obtain ⟨h1, h2⟩ := hS.free hb
    exact ⟨h1, fun _ => h2.length⟩
  | freeDeferred h p size =>
    obtain ⟨hb, hr⟩ := Option.ite_none_right_eq_some.mp hr
    cases hr
    obtain ⟨h1, h2⟩ := arenaFreeDeferred_inv (hS.perm (live_perm hb))
    exact ⟨h1, fun _ => h2⟩
  | flush h =>
    obtain ⟨-, hr⟩ := Option.ite_none_right_eq_some.mp hr
    cases hr
    obtain ⟨h1, h2, -⟩ := arenaFlushDeferred_inv hS
    exact ⟨h1, fun _ => h2⟩
  | clear h =>
    obtain ⟨-, hr⟩ := Option.ite_none_right_eq_some.mp hr
    cases hr
    refine ⟨arenaClear_inv hS ?_ (List.filter_sublist.map _) ?_,
      fun _ => (arenaClear_kept _ _).length⟩
    · intro b hb
      have hclean : clearClean c.heap h = true := hclean
      unfold clearClean at hclean
      unfold Heap.deferredOf at hb
      cases ha : c.heap.arena h with
      | none =>
        rw [ha] at hb
        exact absurd hb List.not_mem_nil
      | some a =>
        rw [ha] at hb hclean
        obtain ⟨e, he, rfl⟩ := List.mem_map.mp hb
        simpa using List.all_eq_true.mp hclean e he
    · intro b hb hbh
      obtain ⟨b₀, hb₀, rfl⟩ := List.mem_map.mp hb
      have htest := of_decide_eq_true (List.mem_filter.mp hb₀).2
      have hsys := htest.resolve_left fun hne => hne hbh
      rwa [Bool.not_eq_true] at hsys
  | destroy h =>
    obtain ⟨-, hr⟩ := Option.ite_none_right_eq_some.mp hr
    cases hr
    refine ⟨arenaDestroy_inv hS (List.filter_sublist.map _) ?_, nofun⟩
    intro b hb
    obtain ⟨b₀, hb₀, rfl⟩ := List.mem_map.mp hb
    exact of_decide_eq_true (List.mem_filter.mp hb₀).2

/-- A test that no call fails. -/
lemma callsPass_of_forall {test : Client → Call → Bool} (h : ∀ c call, test c call = true) :
    callsPass test c calls = true := by
  induction calls generalizing c with
  | nil => rfl
  | cons call calls ih =>
    rw [callsPass, h, Bool.true_and]
    split
    · rfl
    · exact ih

/-- What every call of a run keeps, if it is of a kind and passes a test, holds at the end. -/
lemma runCalls_keeps {I : Client → Prop} {p : Call → Bool} {test : Client → Call → Bool}
    (hstep : ∀ {c call r c'},
      I c → p call = true → test c call = true → call.run c = some (r, c') → I c')
    (hc : I c) (hcalls : ∀ call ∈ calls, p call = true) (htest : callsPass test c calls = true)
    (hr : runCalls c calls = some c') : I c' := by
  induction calls generalizing c with
  | nil =>
    cases hr
    exact hc
  | cons call calls ih =>
    rw [callsPass, Bool.and_eq_true] at htest
    rw [runCalls] at hr
    cases h₁ : call.run c with
    | none =>
      rw [h₁] at hr
      cases hr
    | some x =>
      rw [h₁] at hr htest
      exact ih (hstep hc (hcalls call List.mem_cons_self) htest.1 h₁)
        (fun call h => hcalls call (List.mem_cons_of_mem _ h)) htest.2 hr

/-! ## One arena -/

/-- A heap with one arena. -/
def oneArena (mem : List Bool) : Client := ⟨arenaCreate (Heap.initial mem), []⟩

/-- A heap with one arena is sound. -/
lemma oneArena_sound (mem : List Bool) : Sound (oneArena mem) := by
  have hS := arenaCreate_sound (initial_sound mem)
  unfold Client.initial at hS
  unfold oneArena
  exact hS

/-- There is one arena. -/
lemma oneArena_length (mem : List Bool) : (oneArena mem).heap.arenas.length = 1 := by
  unfold oneArena
  exact arenaCreate_length (Heap.initial mem)

/-- With one arena, every block of the thread cache was freed to it. -/
lemma Sound.takesOwn (hS : Sound c) (hone : c.heap.arenas.length = 1) (hcall : call.onOne = true) :
    call.takesOwn c = true := by
  have hown : ∀ size, CacheOwn c.heap 0 size := by
    intro size _ e he
    have hmem : (⟨e.2, e.1, cells (slabSizes.getD (sizeToSlabClass size) 0)⟩ : Held) ∈
        c.heap.cachedHeld := by
      refine List.mem_flatMap.mpr ⟨_, List.mem_range.mpr (sizeToSlabClass_lt size), ?_⟩
      exact List.mem_map_of_mem (List.mem_of_mem_head? he)
    have hlt := (hS.placed _ (List.mem_append_right _ hmem)).arena_lt hS.shape
    rw [hone] at hlt
    exact Nat.lt_one_iff.mp hlt
  cases call with
  | alloc h size =>
    rw [show h = 0 from of_decide_eq_true hcall]
    exact decide_eq_true (hown size)
  | realloc h p oldSize newSize =>
    rw [show h = 0 from of_decide_eq_true hcall]
    exact decide_eq_true (hown newSize)
  | _ => rfl

/-- A run on one arena. -/
lemma runCalls_one (hS : Sound c) (hone : c.heap.arenas.length = 1)
    (hcalls : ∀ call ∈ calls, call.onOne = true)
    (hclean : callsPass (fun c call => call.clearsClean c) c calls = true)
    (hr : runCalls c calls = some c') : Sound c' ∧ c'.heap.arenas.length = 1 := by
  refine runCalls_keeps (I := fun c => Sound c ∧ c.heap.arenas.length = 1) ?_
    ⟨hS, hone⟩ hcalls hclean hr
  intro c call r c' hc hcall hclean hrun
  obtain ⟨hS', hlen⟩ := Call.run_sound hc.1 hclean (hc.1.takesOwn hc.2 hcall) hrun
  exact ⟨hS', (hlen hcall).trans hc.2⟩

/-- In every run on one arena that clears it only when no deferred block lies in one of its
segments, the blocks that are allocated and neither released nor invalidated do not overlap. -/
theorem arena_blocks_apart (mem : List Bool) (calls : List Call)
    (hcalls : ∀ call ∈ calls, call.onOne = true)
    (hclean : callsPass (fun c call => call.clearsClean c) (oneArena mem) calls = true) {c : Client}
    (hr : runCalls (oneArena mem) calls = some c) :
    c.live.Pairwise fun b b' => b.extent.Apart b'.extent :=
  (runCalls_one (oneArena_sound mem) (oneArena_length mem) hcalls hclean hr).1.live_apart

/-- Blocks from the segments, the thread cache and the system allocator, over a flush and a
clear. -/
def cleanCalls : List Call :=
  [.alloc 0 10, .alloc 0 200, .freeDeferred 0 ⟨28, 152⟩ 200, .free 0 ⟨4, 152⟩ 10, .flush 0,
    .clear 0, .alloc 0 16, .alloc 0 16, .alloc 0 5000, .free 0 ⟨4, 152⟩ 16, .alloc 0 9]

/-- The last run of blocks. -/
theorem arena_blocks_apart_sample : ∃ c, runCalls (oneArena []) cleanCalls = some c ∧
    c.live.length = 3 ∧ c.live.Pairwise fun b b' => b.extent.Apart b'.extent := by
  have hlen : (runCalls (oneArena []) cleanCalls).map (fun c => c.live.length) = some 3 := by
    decide +kernel
  obtain ⟨c, hr, h3⟩ := Option.map_eq_some_iff.mp hlen
  exact ⟨c, hr, h3, arena_blocks_apart [] cleanCalls (by decide) (by decide +kernel) hr⟩

/-- A block is released with `arena_free_deferred`, the arena is cleared, the block is allocated
again and the deferred list flushed: the next allocation returns the same block. -/
def staleCalls : List Call :=
  [.alloc 0 200, .freeDeferred 0 ⟨28, 152⟩ 200, .clear 0, .alloc 0 200, .flush 0, .alloc 0 200]

/-- A flush after a clear releases a block that is in use. -/
theorem arena_blocks_apart_fails : (∀ call ∈ staleCalls, call.onOne = true) ∧
    ∃ c, runCalls (oneArena []) staleCalls = some c ∧
      ¬ c.live.Pairwise fun b b' => b.extent.Apart b'.extent := by
  refine ⟨by decide, ?_⟩
  have hlive : (runCalls (oneArena []) staleCalls).map Client.live =
      some [⟨0, ⟨28, 152⟩, 200⟩, ⟨0, ⟨28, 152⟩, 200⟩] := by decide +kernel
  obtain ⟨c, hr, hc⟩ := Option.map_eq_some_iff.mp hlive
  refine ⟨c, hr, ?_⟩
  rw [hc]
  decide

/-! ## Several arenas -/

/-- A call without deferred frees. -/
def Call.plain : Call → Bool
  | .create | .alloc _ _ | .free _ _ _ | .clear _ | .destroy _ => true
  | _ => false

/-- The deferred lists are empty. -/
def NoDeferred (w : Heap) : Prop := ∀ {k a}, w.arena k = some a → a.deferred = []

/-- A step that keeps the deferred lists defers nothing. -/
lemma Kept.noDeferred {w w' : Heap} (hk : Kept w w') (hd : NoDeferred w) : NoDeferred w' := by
  intro k a ha
  have heq := hk.deferred k
  rw [ha] at heq
  obtain ⟨a₀, ha₀, he⟩ := Option.map_eq_some_iff.mp heq.symm
  rw [← he]
  exact hd ha₀

/-- With empty deferred lists every arena is clean. -/
lemma NoDeferred.clearsClean (hd : NoDeferred c.heap) (call : Call) :
    call.clearsClean c = true := by
  cases call with
  | clear h =>
    show clearClean c.heap h = true
    unfold clearClean
    cases ha : c.heap.arena h with
    | none => rfl
    | some a =>
      dsimp only
      rw [hd ha]
      rfl
  | _ => rfl

/-- A new arena has no deferred frees. -/
lemma arenaCreate_noDeferred (hd : NoDeferred w) : NoDeferred (arenaCreate w) := by
  intro k a ha
  rcases arenaCreate_arena ha with ⟨-, hnew⟩ | hold
  · exact hnew
  · exact hd hold

/-- The deferred lists stay empty. -/
lemma Call.run_noDeferred (hS : Sound c) (hplain : call.plain = true) (hd : NoDeferred c.heap)
    (hown : call.takesOwn c = true) (hr : call.run c = some (r, c')) : NoDeferred c'.heap := by
  cases call with
  | create =>
    obtain ⟨-, rfl⟩ := Prod.mk.inj (Option.some.inj hr)
    exact arenaCreate_noDeferred hd
  | alloc h size =>
    obtain ⟨ha, hr⟩ := Option.ite_none_right_eq_some.mp hr
    exact (Client.alloc_sound hS ha (of_decide_eq_true hown) hr).2.1.noDeferred hd
  | free h p size =>
    obtain ⟨hb, hr⟩ := Option.ite_none_right_eq_some.mp hr
    cases hr
    exact (hS.free hb).2.noDeferred hd
  | clear h =>
    obtain ⟨-, hr⟩ := Option.ite_none_right_eq_some.mp hr
    cases hr
    exact (arenaClear_kept _ h).noDeferred hd
  | destroy h =>
    obtain ⟨-, hr⟩ := Option.ite_none_right_eq_some.mp hr
    cases hr
    intro k a ha
    have hflush : Kept c.heap (arenaFlushDeferred c.heap h) := by
      unfold arenaFlushDeferred
      cases ha : c.heap.arena h with
      | none => exact Kept.refl _
      | some a =>
        dsimp only
        rw [hd ha]
        exact .setArena ha (hd ha).symm
    exact hflush.noDeferred hd (arenaDestroy_arena ha)
  | _ => cases hplain

/-- A run without deferred frees. -/
lemma runCalls_plain (hS : Sound c) (hd : NoDeferred c.heap)
    (hcalls : ∀ call ∈ calls, call.plain = true)
    (hown : callsPass (fun c call => call.takesOwn c) c calls = true)
    (hr : runCalls c calls = some c') : Sound c' ∧ NoDeferred c'.heap := by
  refine runCalls_keeps (I := fun c => Sound c ∧ NoDeferred c.heap) ?_ ⟨hS, hd⟩ hcalls hown hr
  rintro c call r c' ⟨hS, hd⟩ hcall hown hrun
  exact ⟨(Call.run_sound hS (hd.clearsClean call) hown hrun).1,
    Call.run_noDeferred hS hcall hd hown hrun⟩

/-- In every run over any number of arenas in which each allocation that takes a block from the
thread cache takes one that was freed to the same arena: the next such allocation returns memory of
its arena, the blocks of the caller are memory of their arenas and do not overlap, and clearing or
destroying an arena leaves the blocks of the others as they are. -/
theorem arena_isolated (mem : List Bool) (calls : List Call)
    (hcalls : ∀ call ∈ calls, call.plain = true)
    (hown : callsPass (fun c call => call.takesOwn c) (Client.initial mem) calls = true)
    {c : Client} (hr : runCalls (Client.initial mem) calls = some c) :
    (∀ h size p c', CacheOwn c.heap h size → (Call.alloc h size).run c = some (some p, c') →
      OwnedBy c'.heap h p) ∧
    (∀ b ∈ c.live, OwnedBy c.heap b.arena b.ptr) ∧
    (c.live.Pairwise fun b b' => b.extent.Apart b'.extent) ∧
    ∀ (h : ℕ) (call : Call) r c',
    (call = .clear h ∨ call = .destroy h) → call.run c = some (r, c') →
      ∀ b ∈ c.live, b.arena ≠ h → b ∈ c'.live ∧ OwnedBy c'.heap b.arena b.ptr := by
  obtain ⟨hS, hd⟩ := runCalls_plain (initial_sound mem) nofun hcalls hown hr
  refine ⟨?_, fun b hb => hS.owned hb, hS.live_apart, ?_⟩
  · intro h size p c' hcache halloc
    obtain ⟨ha, halloc⟩ := Option.ite_none_right_eq_some.mp halloc
    exact (Client.alloc_sound hS ha hcache halloc).2.2 p rfl
  · intro h call r c' hcall hrun b hb hne
    have hlive : b ∈ c'.live := by
      rcases hcall with rfl | rfl
      · obtain ⟨-, hrun⟩ := Option.ite_none_right_eq_some.mp hrun
        cases hrun
        exact List.mem_filter.mpr ⟨hb, decide_eq_true (.inl hne)⟩
      · obtain ⟨-, hrun⟩ := Option.ite_none_right_eq_some.mp hrun
        cases hrun
        exact List.mem_filter.mpr ⟨hb, decide_eq_true hne⟩
    have hown : call.takesOwn c = true := by rcases hcall with rfl | rfl <;> rfl
    exact ⟨hlive, (Call.run_sound hS (hd.clearsClean call) hown hrun).1.owned hlive⟩

/-- Two arenas; the thread cache is empty when the second one allocates. -/
def apartCalls : List Call :=
  [.create, .create, .alloc 0 16, .free 0 ⟨4, 152⟩ 16, .alloc 0 12, .alloc 1 16, .alloc 1 100]

/-- The first arena is destroyed. -/
theorem arena_isolated_sample : ∃ c c', runCalls (Client.initial []) apartCalls = some c ∧
    (Call.destroy 0).run c = some (none, c') ∧
    ∀ b ∈ c.live, b.arena ≠ 0 → b ∈ c'.live ∧ OwnedBy c'.heap b.arena b.ptr := by
  have hsome : ((runCalls (Client.initial []) apartCalls).bind (Call.destroy 0).run).map Prod.fst =
      some none := by decide +kernel
  obtain ⟨⟨r, c'⟩, hbind, rfl⟩ := Option.map_eq_some_iff.mp hsome
  obtain ⟨c, hr, hrun⟩ := Option.bind_eq_some_iff.mp hbind
  exact ⟨c, c', hr, hrun, (arena_isolated [] apartCalls (by decide) (by decide +kernel) hr).2.2.2
    0 (.destroy 0) none c' (.inr rfl) hrun⟩

/-- A block is freed to arena 0 and the same size allocated from arena 1. -/
def crossingCalls : List Call := [.create, .create, .alloc 0 16, .free 0 ⟨4, 152⟩ 16]

/-- Arena 1 hands out memory of arena 0, and destroying arena 0 unmaps it. -/
theorem arena_isolated_fails : ∃ c c' c'' p, runCalls (Client.initial []) crossingCalls = some c ∧
    (Call.alloc 1 16).run c = some (some p, c') ∧ ¬ OwnedBy c'.heap 1 p ∧
    (Call.destroy 0).run c' = some (none, c'') ∧ (⟨1, p, 16⟩ : Block) ∈ c''.live ∧
    ∀ h use, ¬ c''.heap.Maps p.map h use := by
  have hrun : ((runCalls (Client.initial []) crossingCalls).bind (Call.alloc 1 16).run).bind
      (fun r => ((Call.destroy 0).run r.2).map fun r' =>
        (r.1, r.2.heap.maps[4]?, r'.1, r'.2.live, r'.2.heap.maps[4]?)) =
      some (some ⟨4, 152⟩, some ⟨0, .segment, true⟩, none, [⟨1, ⟨4, 152⟩, 16⟩],
        some ⟨0, .segment, false⟩) := by decide +kernel
  obtain ⟨⟨r, c'⟩, hbind, hrest⟩ := Option.bind_eq_some_iff.mp hrun
  obtain ⟨c, hr, halloc⟩ := Option.bind_eq_some_iff.mp hbind
  obtain ⟨⟨r', c''⟩, hdestroy, heq⟩ := Option.map_eq_some_iff.mp hrest
  simp only [Prod.mk.injEq] at heq
  obtain ⟨rfl, hmap, rfl, hlive, hdead⟩ := heq
  refine ⟨c, c', c'', ⟨4, 152⟩, hr, halloc, ?_, hdestroy, ?_, ?_⟩
  · rintro ⟨⟨use, hm⟩, -⟩
    have hm : c'.heap.maps[4]? = some ⟨1, use, true⟩ := hm
    rw [hmap] at hm
    cases hm
  · rw [hlive]
    exact List.mem_singleton_self _
  · intro h use hm
    have hm : c''.heap.maps[4]? = some ⟨h, use, true⟩ := hm
    rw [hdead] at hm
    cases hm

end Draugr.Memory
