import Draugr.Memory.Held

/-!
# One call of the arena

Each function of `src/arena.c` in terms of the held blocks: `arena_alloc` adds a block, whichever
source it comes from, `arena_free` takes one away, `arena_clear` and `arena_destroy` keep the blocks
that do not lie in the memory they reuse or unmap. An allocation takes the block on top of a bin of
the thread cache, so that block has to belong to the arena that allocates (`CacheOwn`).
-/

namespace Draugr.Memory
open Lib

/-- The block on top of the bin that `arena_alloc` looks into was freed to this arena. -/
def CacheOwn (w : Heap) (h size : ℕ) : Prop :=
  size ≤ 128 → ∀ e ∈ (w.bins (sizeToSlabClass size)).head?, e.2 = h

instance (w : Heap) (h size : ℕ) : Decidable (CacheOwn w h size) := by
  unfold CacheOwn
  infer_instance

/-- The arenas that there are and their deferred lists stay. -/
structure Kept (w w' : Heap) : Prop where
  length : w'.arenas.length = w.arenas.length
  deferred : ∀ k, (w'.arena k).map Arena.deferred = (w.arena k).map Arena.deferred

/-- What an allocation of `n` cells for an arena comes to: a block is added, or there is none. -/
def Served (out : List Held) (h n : ℕ) : Option Ptr × Heap → Prop
  | (none, w) => Inv w out
  | (some p, w) => Inv w (⟨h, p, n⟩ :: out)

/-- An allocation keeps the deferred lists. -/
structure Serves (w : Heap) (out : List Held) (h n : ℕ) (r : Option Ptr × Heap) : Prop where
  served : Served out h n r
  kept : Kept w r.2

variable {w w' w'' : Heap} {out out' : List Held} {a a' : Arena} {h n size : ℕ} {p : Ptr}
  {r : Option Ptr × Heap} {next : Heap → Option Ptr × Heap}

/-- A heap keeps its own deferred lists. -/
lemma Kept.refl (w : Heap) : Kept w w := ⟨rfl, fun _ => rfl⟩

/-- Two steps that keep the deferred lists keep them. -/
lemma Kept.trans (h1 : Kept w w') (h2 : Kept w' w'') : Kept w w'' :=
  ⟨h2.length.trans h1.length, fun k => (h2.deferred k).trans (h1.deferred k)⟩

/-- A step that keeps the arenas keeps the deferred lists. -/
lemma Kept.of_arenas (h : w'.arenas = w.arenas) : Kept w w' := by
  refine ⟨congrArg List.length h, fun k => ?_⟩
  unfold Heap.arena
  rw [h]

/-- A written arena with the same deferred list keeps them. -/
lemma Kept.setArena (ha : w.arena h = some a) (hd : a'.deferred = a.deferred) :
    Kept w (w.setArena h a') := by
  refine ⟨List.length_set, fun k => ?_⟩
  rw [Heap.arena_setArena ha]
  split
  · rename_i hk
    rw [hk, ha, Option.map_some, Option.map_some, hd]
  · rfl

/-! ## Allocation -/

/-- A refused request. -/
lemma Serves.refused (hI : Inv w' out) (hk : Kept w w') : Serves w out h n (none, w') := ⟨hI, hk⟩

/-- The next source of memory. -/
lemma Serves.orElse (hr : Serves w out h n r)
    (hnext : ∀ {w'}, Inv w' out → Kept w w' → Serves w' out h n (next w')) :
    Serves w out h n (orElse r next) := by
  obtain ⟨p, w'⟩ := r
  cases p with
  | none =>
    have hs := hnext hr.served hr.kept
    exact ⟨hs.served, hr.kept.trans hs.kept⟩
  | some p => exact hr

/-- A request is served if it is for every arena that exists. -/
lemma Serves.withArena {f : Arena → Option Ptr × Heap} (hI : Inv w out)
    (hf : ∀ {a}, w.arena h = some a → Serves w out h n (f a)) :
    Serves w out h n (withArena w h f) := by
  unfold Memory.withArena
  cases ha : w.arena h with
  | none => exact .refused hI (Kept.refl w)
  | some a => exact hf ha

/-- Drawing an outcome changes nothing else. -/
lemma Heap.draw_fields (w : Heap) : w.draw.2.arenas = w.arenas ∧ w.draw.2.maps = w.maps ∧
    w.draw.2.bins = w.bins := by
  unfold Heap.draw
  cases w.mem <;> exact ⟨rfl, rfl, rfl⟩

/-- Drawing the outcome of an allocation changes nothing else. -/
lemma Inv.draw (hI : Inv w out) : Inv w.draw.2 out := by
  obtain ⟨h1, h2, h3⟩ := w.draw_fields
  refine hI.congr h1 (fun hm => ?_) (fun m hm => .inl (h2 ▸ hm)) h3
  unfold Heap.Maps at *
  rwa [h2]

/-- A new mapping, if there is one, is behind the others. -/
lemma Heap.mmap_cases (w : Heap) (h : ℕ) (use : MapUse) :
    w.mmap h use = (none, w.draw.2) ∨ w.mmap h use =
      (some w.draw.2.maps.length, { w.draw.2 with maps := w.draw.2.maps ++ [⟨h, use, true⟩] }) := by
  unfold Heap.mmap
  rcases hd : w.draw with ⟨ok, w'⟩
  cases ok
  · exact .inl rfl
  · exact .inr rfl

/-- `tcache_get` changes neither arenas nor mappings nor bins. -/
lemma tcacheGet_fields (w : Heap) : (tcacheGet w).2.arenas = w.arenas ∧
    (tcacheGet w).2.maps = w.maps ∧ (tcacheGet w).2.bins = w.bins := by
  unfold tcacheGet
  split
  · exact ⟨rfl, rfl, rfl⟩
  · have hfields := w.draw_fields
    rcases hd : w.draw with ⟨ok, w'⟩
    rw [hd] at hfields
    cases ok <;> exact hfields

/-- `tcache_get` keeps the invariant. -/
lemma tcacheGet_inv (hI : Inv w out) : Inv (tcacheGet w).2 out := by
  obtain ⟨h1, h2, h3⟩ := tcacheGet_fields w
  refine hI.congr h1 (fun hm => ?_) (fun m hm => .inl (h2 ▸ hm)) h3
  unfold Heap.Maps at *
  rwa [h2]

/-- The slab class of a size is one of those there are. -/
lemma sizeToSlabClass_lt (size : ℕ) : sizeToSlabClass size < slabClasses := by
  unfold sizeToSlabClass
  cases hf : slabSizes.findIdx? (size ≤ ·) with
  | none => decide
  | some i => exact (List.findIdx?_eq_some_iff_findIdx_eq.mp hf).1

/-- A block has as many cells as the largest one of its class. -/
lemma cells_class (h0 : 0 < size) (h : size ≤ 128) :
    cells (slabSizes.getD (sizeToSlabClass size) 0) = cells size := by
  have hall : ∀ s < 129, 0 < s → cells (slabSizes.getD (sizeToSlabClass s) 0) = cells s := by decide
  exact hall size (by omega) h0

/-- `tcache_try_get`. -/
lemma tcacheTryGet_serves (hI : Inv w out) (h0 : 0 < size) (hsmall : size ≤ 128)
    (hown : CacheOwn w h size) :
    Serves w out h (cells size) (tcacheTryGet w (sizeToSlabClass size)) := by
  obtain ⟨h1, -, h3⟩ := tcacheGet_fields w
  have hI' := tcacheGet_inv hI
  unfold tcacheTryGet
  rcases hg : tcacheGet w with ⟨ok, w'⟩
  rw [hg] at h1 h3 hI'
  cases ok with
  | false => exact .refused hI' (.of_arenas h1)
  | true =>
    dsimp only at h1 h3 hI' ⊢
    cases hbin : w'.bins (sizeToSlabClass size) with
    | nil => exact .refused hI' (.of_arenas h1)
    | cons e bin =>
      obtain ⟨p, k⟩ := e
      have hk : k = h := hown hsmall (p, k) (by rw [← h3, hbin, List.head?_cons]; rfl)
      subst hk
      have hpop := hI'.pop (sizeToSlabClass_lt size) hbin
      rw [cells_class h0 hsmall] at hpop
      exact ⟨hpop, .of_arenas h1⟩

/-- The slabs that were written last. -/
lemma Arena.setSlabs_setSlabs (a : Arena) (sc : ℕ) (ss ss' : List Slab) :
    (a.setSlabs sc ss).setSlabs sc ss' = a.setSlabs sc ss' := by
  unfold Arena.setSlabs
  rw [Function.update_idem]

/-- `slab_set_alloc`: no slab has a slot to give, but a new slab may be mapped. -/
lemma slabSetAlloc_serves (hI : Inv w out) (ha : w.arena h = some a) (sc : ℕ) :
    Serves w out h n (slabSetAlloc w h a sc) := by
  have hblank : ∀ s ∈ a.slabs sc, s.Blank ∧ w.Maps s.map h .slab := fun s hs => hI.shape.slab ha hs
  unfold slabSetAlloc
  rw [slabsAlloc_blank fun s hs => (hblank s hs).1]
  dsimp only
  set w₁ := w.setArena h (a.setSlabs sc (a.slabs sc)) with hw₁
  have hI₁ : Inv w₁ out := hI.setSlabs ha hblank
  have hk₁ : Kept w w₁ := .setArena ha rfl
  have ha₁ : w₁.arena h = some (a.setSlabs sc (a.slabs sc)) := Heap.arena_setArena_self ha _
  change Serves w out h n (if (a.slabs sc).length ≥ 8 then (none, w₁) else _)
  split
  · exact .refused hI₁ hk₁
  · obtain ⟨hd1, -, -⟩ := w₁.draw_fields
    rcases w₁.mmap_cases h .slab with hm | hm
    · rw [hm]
      exact .refused hI₁.draw (hk₁.trans (.of_arenas hd1))
    · rw [hm]
      dsimp only
      rw [slabAllocSlot_blank (newSlab_blank _ _), ← Arena.setSlabs_setSlabs a sc (a.slabs sc)]
      have ha₂ : Heap.arena { w₁.draw.2 with maps := w₁.draw.2.maps ++ [⟨h, .slab, true⟩] } h =
          some (a.setSlabs sc (a.slabs sc)) := by
        unfold Heap.arena at *
        rw [show _ = w₁.arenas from hd1]
        exact ha₁
      have hI₂ := hI₁.draw.mmap (m := ⟨h, .slab, true⟩) (hd1 ▸ Heap.arena_lt ha₁)
      have hk₂ : Kept w { w₁.draw.2 with maps := w₁.draw.2.maps ++ [⟨h, .slab, true⟩] } :=
        hk₁.trans (.of_arenas hd1)
      refine .refused (hI₂.setSlabs ha₂ ?_) (hk₂.trans (.setArena ha₂ rfl))
      intro s hs
      rcases List.mem_append.mp hs with hs | hs
      · refine (@Heap.Shape.slab _ hI₂.shape _ _ sc) ha₂ ?_
        rwa [Arena.setSlabs_self]
      · rw [List.mem_singleton] at hs
        subst hs
        refine ⟨newSlab_blank _ _, ?_⟩
        show (w₁.draw.2.maps ++ [_])[w₁.draw.2.maps.length]? = _
        rw [List.getElem?_concat_length]

/-- The loop over segments in `arena_alloc`. -/
lemma segsAlloc_serves (hI : Inv w out) (ha : w.arena h = some a) (h0 : 0 < size) (h1 : size ≤ 4096)
    (js : List ℕ) : Serves w out h (cells size) (segsAlloc w h a size js) := by
  have hslots : slotsNeeded size = cells size := slotsNeeded_eq (by omega)
  induction js with
  | nil => exact .refused hI (Kept.refl w)
  | cons j js ih =>
    rw [segsAlloc]
    cases hj : (a.segs j).bind (segAlloc · size) with
    | none => exact ih
    | some r =>
      obtain ⟨p, g'⟩ := r
      obtain ⟨g, hg, hs⟩ := Option.bind_eq_some_iff.mp hj
      obtain ⟨start, -, rfl, hv, hfit, rfl⟩ := segAlloc_spec hs
      rw [hslots] at hv hfit ⊢
      exact ⟨hI.take ha hg (cells_pos h0) hv hfit _, .setArena ha rfl⟩

/-- `sys_alloc`. -/
lemma sysAlloc_serves (hI : Inv w out) (hn : 0 < n) (hh : h < w.arenas.length) :
    Serves w out h n (sysAlloc w h) := by
  obtain ⟨hd1, -, -⟩ := w.draw_fields
  unfold sysAlloc
  rcases w.mmap_cases h .system with hm | hm
  · rw [hm]
    exact .refused hI.draw (.of_arenas hd1)
  · rw [hm]
    exact ⟨hI.draw.system hn (hd1 ▸ hh), .of_arenas hd1⟩

/-- The branch for at most 128 bytes. -/
lemma allocSmall_serves (hI : Inv w out) (h0 : 0 < size) (hsmall : size ≤ 128)
    (hown : CacheOwn w h size) : Serves w out h (cells size) (allocSmall w h size) := by
  have hcached : Serves w out h (cells size) (withArena w h fun a =>
      if a.enableThreadCache then tcacheTryGet w (sizeToSlabClass size) else (none, w)) := by
    refine .withArena hI fun _ => ?_
    split
    · exact tcacheTryGet_serves hI h0 hsmall hown
    · exact .refused hI (Kept.refl w)
  refine (hcached.orElse fun hI' _ => ?_).orElse fun hI' _ => ?_
  · exact .withArena hI' fun ha => slabSetAlloc_serves hI' ha _
  · exact .withArena hI' fun ha => segsAlloc_serves hI' ha h0 (by omega) _

/-- `arena_alloc`. -/
lemma arenaAlloc_serves (hI : Inv w out) (hh : h < w.arenas.length) (hown : CacheOwn w h size)
    (hr : arenaAlloc w h size = some r) : Serves w out h (cells size) r ∧
      (r.1.isSome → 0 < size) := by
  unfold arenaAlloc at hr
  split at hr
  · cases hr
    exact ⟨.refused hI (Kept.refl w), nofun⟩
  rename_i h0
  split at hr
  · cases hr
  cases hr
  refine ⟨?_, fun _ => Nat.pos_of_ne_zero h0⟩
  have hpos := Nat.pos_of_ne_zero h0
  have hsmall : Serves w out h (cells size)
      (if size ≤ 128 then allocSmall w h size else (none, w)) := by
    split
    · exact allocSmall_serves hI hpos ‹_› hown
    · exact .refused hI (Kept.refl w)
  refine (hsmall.orElse fun {w'} hI' _ => ?_).orElse fun hI' hk =>
    sysAlloc_serves hI' (cells_pos hpos) (hk.length ▸ hh)
  split
  · exact .withArena hI' fun ha => segsAlloc_serves hI' ha hpos ‹_› _
  · exact .refused hI' (Kept.refl w')

/-! ## Release -/

/-- No slab takes a placed block. -/
lemma slabsFree_none {b : Held} (hs : w.Shape) (ha : w.arena h = some a) (hb : w.Placed b)
    (scs : List ℕ) : slabsFree a b.ptr scs = none := by
  induction scs with
  | nil => rfl
  | cons sc scs ih =>
    have hne : ∀ s ∈ a.slabs sc, s.map ≠ b.ptr.map := by
      intro s hmem hmap
      have hslab := (hs.slab ha hmem).2
      rw [hmap] at hslab
      rcases hb.maps hs with hm | hm
      · cases (hslab.unique hm).2
      · cases (hslab.unique hm).2
    rw [slabsFree, slabSetFree_none hne]
    exact ih

/-- A segment that takes a block. -/
lemma segsFree_some {js : List ℕ} (h : segsFree a p size js = some a') :
    ∃ j g g', a.segs j = some g ∧ segFree g p size = some g' ∧ a' = a.setSeg j g' := by
  induction js with
  | nil => cases h
  | cons j js ih =>
    rw [segsFree] at h
    cases hj : (a.segs j).bind (segFree · p size) with
    | none =>
      rw [hj] at h
      exact ih h
    | some g' =>
      rw [hj] at h
      cases h
      obtain ⟨g, hg, hf⟩ := Option.bind_eq_some_iff.mp hj
      exact ⟨j, g, g', hg, hf, rfl⟩

/-- `sys_free` of a block. -/
lemma sysFree_inv {b : Held} (hI : Inv w (b :: out)) : Inv (sysFree w b.ptr) out := by
  unfold sysFree
  rcases hI.head_placed.2 with ⟨a, j, g, start, -, -, hp, -, -⟩ | hsys
  · have hoff : b.ptr.off ≠ 0 := by
      rw [hp]
      exact Nat.ne_of_gt (Nat.add_pos_left (by decide) _)
    rw [if_neg hoff]
    exact hI.tail
  · rw [if_pos hsys.2]
    exact hI.unmap hsys

/-- A held block is not empty. -/
lemma Inv.size_pos (hI : Inv w (⟨h, p, cells size⟩ :: out)) : 0 < size := by
  have hpos : 0 < cells size := hI.head_placed.1
  by_contra h0
  rw [Nat.eq_zero_of_not_pos h0] at hpos
  exact absurd hpos (by decide)

/-- `arena_free` behind the thread cache. -/
lemma arenaRelease_inv (hI : Inv w (⟨h, p, cells size⟩ :: out)) (ha : w.arena h = some a) :
    Inv (arenaRelease w h a p size) out ∧ Kept w (arenaRelease w h a p size) := by
  have hplaced := hI.head_placed
  have hpos := hI.size_pos
  unfold arenaRelease
  dsimp only
  have hslabs : (if size ≤ 128 then slabsFree a p (sizeToSlabClass size ::
      (List.range slabClasses).filter (· ≠ sizeToSlabClass size)) else none) = none := by
    split
    · exact slabsFree_none hI.shape ha hplaced _
    · rfl
  rw [hslabs, Option.none_or]
  split
  · rename_i a' hr
    split at hr
    · rename_i hmedium
      have hslots : slotsNeeded size = cells size := slotsNeeded_eq (by omega)
      obtain ⟨j, g, g', hg, hf, rfl⟩ := segsFree_some hr
      obtain ⟨hflags, hmaps, -⟩ := hI.shape.seg ha hg
      have hmap : p.map = g.map := by
        by_contra hne
        rw [segFree_none hflags hne] at hf
        cases hf
      -- the segment that takes the block is the one the block lies in
      rcases hplaced.2 with ⟨a₀, i, g₀, start, h1, h2, h3, h4, -⟩ | hsys
      · rw [ha] at h1
        cases h1
        have hij := hI.shape.inj ha h2 hg ((congrArg Ptr.map h3).symm.trans hmap)
        subst hij
        rw [hg] at h2
        cases h2
        simp only at h3
        subst h3
        have hcells := cells_pos hpos
        have hstart : start < segSlots := by
          have h4 : start + cells size ≤ segSlots := h4
          omega
        rw [segFree_ptr hflags hstart (by rw [hslots]; exact h4), hslots] at hf
        cases hf
        exact ⟨hI.give ha hg _, .setArena ha rfl⟩
      · rw [← hmap] at hmaps
        cases (hmaps.unique hsys.1).2
    · cases hr
  · refine ⟨sysFree_inv hI, .of_arenas ?_⟩
    unfold sysFree
    split <;> rfl

/-- `tcache_put` refuses, or puts the pointer first in its bin. -/
lemma tcachePut_cases (w : Heap) (h : ℕ) (p : Ptr) (sc : ℕ) :
    tcachePut w h p sc = (false, (tcacheGet w).2) ∨ tcachePut w h p sc =
      (true, (tcacheGet w).2.setBin sc ((p, h) :: (tcacheGet w).2.bins sc)) := by
  unfold tcachePut
  rcases tcacheGet w with ⟨ok, w'⟩
  cases ok with
  | false => exact .inl rfl
  | true =>
    dsimp only
    split
    · exact .inr rfl
    · exact .inl rfl

/-- `arena_free`. -/
lemma arenaFree_inv (hI : Inv w (⟨h, p, cells size⟩ :: out)) :
    Inv (arenaFree w h p size) out ∧ Kept w (arenaFree w h p size) := by
  unfold arenaFree
  cases ha : w.arena h with
  | none => exact ⟨hI.tail, Kept.refl w⟩
  | some a =>
    dsimp only
    split
    · rename_i hsmall
      have hI' := tcacheGet_inv hI
      have hk : Kept w (tcacheGet w).2 := .of_arenas (tcacheGet_fields w).1
      rcases tcachePut_cases w h p (sizeToSlabClass size) with hp | hp
      · rw [hp]
        have ha' : (tcacheGet w).2.arena h = some a := by
          unfold Heap.arena at *
          rw [(tcacheGet_fields w).1]
          exact ha
        obtain ⟨h1, h2⟩ := arenaRelease_inv hI' ha'
        exact ⟨h1, hk.trans h2⟩
      · rw [hp]
        rw [← cells_class hI.size_pos hsmall.1] at hI'
        exact ⟨hI'.push (sizeToSlabClass_lt size), .of_arenas (tcacheGet_fields w).1⟩
    · exact arenaRelease_inv hI ha

/-! ## Deferred frees -/

/-- The blocks on the deferred list of an arena. -/
def Heap.deferredOf (w : Heap) (h : ℕ) : List Held :=
  (((w.arena h).map Arena.deferred).getD []).map fun e => ⟨h, e.1, cells e.2⟩

/-- The blocks on the deferred lists. -/
def Heap.deferredHeld (w : Heap) : List Held := (List.range w.arenas.length).flatMap w.deferredOf

/-- The blocks on the deferred lists stay. -/
lemma Kept.deferredHeld (hk : Kept w w') : w'.deferredHeld = w.deferredHeld := by
  unfold Heap.deferredHeld
  rw [hk.length]
  refine List.flatMap_congr fun k _ => ?_
  unfold Heap.deferredOf
  rw [hk.deferred]

/-- A deferred list stands for itself among the deferred blocks. -/
lemma Heap.deferredHeld_split (ha : w.arena h = some a) : ∃ rest, ∀ d,
    (w.setArena h { a with deferred := d }).deferredHeld.Perm
      (d.map (fun e => ⟨h, e.1, cells e.2⟩) ++ rest) := by
  obtain ⟨rest, hrest⟩ := range_flatMap_split w.deferredOf (Heap.arena_lt ha)
  refine ⟨rest, fun d => ?_⟩
  have hperm := hrest (w.setArena h { a with deferred := d }).deferredOf fun i hi => by
    unfold Heap.deferredOf
    rw [Heap.arena_setArena ha, if_neg hi]
  have hself : (w.setArena h { a with deferred := d }).deferredOf h =
      d.map (fun e => ⟨h, e.1, cells e.2⟩) := by
    unfold Heap.deferredOf
    rw [Heap.arena_setArena_self ha]
    rfl
  rw [hself] at hperm
  unfold Heap.deferredHeld
  rwa [show (w.setArena h { a with deferred := d }).arenas.length = w.arenas.length from
    List.length_set]

/-- Writing an arena back changes nothing. -/
lemma Heap.setArena_self (ha : w.arena h = some a) : w.setArena h a = w := by
  have hget := List.getElem?_eq_some_iff.mp (Option.join_eq_some_iff.mp ha)
  obtain ⟨hlt, hget⟩ := hget
  unfold Heap.setArena
  rw [← hget, List.set_getElem_self]

/-- The frees of `arena_flush_deferred`. -/
lemma foldl_arenaFree_inv {d : List (Ptr × ℕ)}
    (hI : Inv w (d.map (fun e => ⟨h, e.1, cells e.2⟩) ++ out)) :
    Inv (d.foldl (fun w e => arenaFree w h e.1 e.2) w) out ∧
      Kept w (d.foldl (fun w e => arenaFree w h e.1 e.2) w) := by
  induction d generalizing w with
  | nil => exact ⟨hI, Kept.refl w⟩
  | cons e d ih =>
    obtain ⟨h1, h2⟩ := arenaFree_inv hI
    obtain ⟨h3, h4⟩ := ih h1
    exact ⟨h3, h2.trans h4⟩

/-- What the caller and the deferred lists hold. -/
def Heap.holds (w : Heap) (out : List Held) : List Held := out ++ w.deferredHeld

/-- `arena_free_deferred`. -/
lemma arenaFreeDeferred_inv (hI : Inv w (w.holds (⟨h, p, cells size⟩ :: out))) :
    Inv (arenaFreeDeferred w h p size) ((arenaFreeDeferred w h p size).holds out) ∧
      (arenaFreeDeferred w h p size).arenas.length = w.arenas.length := by
  unfold arenaFreeDeferred
  cases ha : w.arena h with
  | none => exact ⟨hI.tail, rfl⟩
  | some a =>
    dsimp only
    split
    · refine ⟨?_, List.length_set⟩
      obtain ⟨rest, hrest⟩ := w.deferredHeld_split ha
      have hold := hrest a.deferred
      rw [show w.setArena h { a with deferred := a.deferred } =
        w from Heap.setArena_self ha] at hold
      refine (hI.setDeferred ha _).perm ?_
      refine List.Perm.trans ?_ ((hrest (a.deferred ++ [(p, size)])).symm.append_left out)
      rw [List.map_append, List.append_assoc]
      refine ((hold.append_left out).cons _).trans ?_
      rw [← List.append_assoc, ← List.append_assoc out]
      exact List.perm_middle.symm
    · obtain ⟨h1, h2⟩ := arenaFree_inv hI
      refine ⟨?_, h2.length⟩
      unfold Heap.holds
      rwa [h2.deferredHeld]

/-- `arena_flush_deferred`. -/
lemma arenaFlushDeferred_inv (hI : Inv w (w.holds out)) :
    Inv (arenaFlushDeferred w h) ((arenaFlushDeferred w h).holds out) ∧
      (arenaFlushDeferred w h).arenas.length = w.arenas.length ∧
      (arenaFlushDeferred w h).deferredOf h = [] := by
  unfold arenaFlushDeferred
  cases ha : w.arena h with
  | none =>
    refine ⟨hI, rfl, ?_⟩
    unfold Heap.deferredOf
    rw [ha]
    rfl
  | some a =>
    dsimp only
    obtain ⟨rest, hrest⟩ := w.deferredHeld_split ha
    have hold := hrest a.deferred
    rw [show w.setArena h { a with deferred := a.deferred } = w from Heap.setArena_self ha] at hold
    have hnew := hrest []
    have hperm : (w.holds out).Perm (a.deferred.map (fun e => ⟨h, e.1, cells e.2⟩) ++
        (w.setArena h { a with deferred := [] }).holds out) := by
      refine (hold.append_left out).trans ?_
      refine List.Perm.trans ?_ ((hnew.symm.append_left out).append_left _)
      rw [List.map_nil, List.nil_append, ← List.append_assoc, ← List.append_assoc]
      exact List.perm_append_comm.append_right rest
    obtain ⟨h1, h2⟩ := foldl_arenaFree_inv ((hI.setDeferred ha []).perm hperm)
    refine ⟨?_, h2.length.trans List.length_set, ?_⟩
    · unfold Heap.holds
      rwa [h2.deferredHeld]
    · unfold Heap.deferredOf
      rw [h2.deferred, Heap.arena_setArena_self ha]
      rfl

/-! ## Clearing and destruction -/

/-- A deferred block is on the list of its arena. -/
lemma Heap.mem_deferredHeld {b : Held} (hb : b ∈ w.deferredHeld) : b ∈ w.deferredOf b.arena := by
  obtain ⟨k, -, hb⟩ := List.mem_flatMap.mp hb
  obtain ⟨e, he, rfl⟩ := List.mem_map.mp hb
  exact List.mem_map_of_mem he

/-- `tcache_clear`. -/
lemma tcacheClear_inv (hI : Inv w out) : Inv (tcacheClear w) out := by
  have hnil : (tcacheClear w).cachedHeld = [] := Heap.cachedHeld_nil rfl
  have hsub : (out ++ (tcacheClear w).cachedHeld).Sublist (out ++ w.cachedHeld) := by
    rw [hnil]
    exact (List.nil_sublist _).append_left out
  exact ⟨⟨hI.shape.slab, hI.shape.seg, hI.shape.inj, hI.shape.owner⟩,
    List.Pairwise.sublist (hsub.map _) hI.apart, fun b hb => hI.placed b (hsub.subset hb)⟩

/-- A segment's memory is carved. -/
lemma Heap.Shape.carved {j : ℕ} {g : Segment} (hs : w.Shape) (ha : w.arena h = some a)
    (hg : a.segs j = some g) (start : ℕ) : w.carved (g.ptr start) = true := by
  unfold Heap.carved
  rw [show w.maps[(g.ptr start).map]? = _ from (hs.seg ha hg).2.1]
  rfl

/-- `arena_clear` keeps the deferred lists. -/
lemma arenaClear_kept (w : Heap) (h : ℕ) : Kept w (arenaClear w h) := by
  unfold arenaClear
  cases ha : w.arena h with
  | none => exact Kept.refl w
  | some a =>
    dsimp only
    have hk : Kept w (tcacheClear w) := .of_arenas rfl
    refine hk.trans (.setArena (show (tcacheClear w).arena h = some a from ha) ?_)
    rfl

/-- `arena_clear`, when no deferred block lies in a slab or segment of the arena. -/
lemma arenaClear_inv (hI : Inv w (w.holds out))
    (hclean : ∀ b ∈ w.deferredOf h, w.carved b.ptr = false) (hsub : out'.Sublist out)
    (hout : ∀ b ∈ out', b.arena = h → w.carved b.ptr = false) :
    Inv (arenaClear w h) ((arenaClear w h).holds out') := by
  have hI₁ : Inv w (w.holds out') := hI.sublist (hsub.append_right _)
  unfold Heap.holds
  rw [(arenaClear_kept w h).deferredHeld]
  unfold arenaClear
  cases ha : w.arena h with
  | none => exact hI₁
  | some a =>
    dsimp only
    have hI₂ := tcacheClear_inv hI₁
    have ha₂ : (tcacheClear w).arena h = some a := ha
    refine hI₂.setArena ha₂ ?_ ?_ ?_
    · intro sc s hs
      obtain ⟨s₀, hs₀, rfl⟩ := List.mem_map.mp hs
      exact ⟨s₀.clear_blank, (hI₂.shape.slab ha₂ hs₀).2⟩
    · intro j g' hg'
      obtain ⟨g, hg, rfl⟩ := Option.map_eq_some_iff.mp hg'
      exact ⟨g, hg, rfl, rfl⟩
    · intro b hb hbh j g start hg hp _
      have hcarved := hI₁.shape.carved ha hg start
      rw [← hp] at hcarved
      have hfree : w.carved b.ptr = false := by
        rw [Heap.cachedHeld_nil rfl, List.append_nil] at hb
        rcases List.mem_append.mp hb with hb | hb
        · exact hout b hb hbh
        · exact hclean b (hbh ▸ Heap.mem_deferredHeld hb)
      rw [hcarved] at hfree
      cases hfree

/-- Unmapping regions leaves arenas and bins. -/
lemma foldl_munmap_fields (l : List ℕ) : (l.foldl Heap.munmap w).arenas = w.arenas ∧
    (l.foldl Heap.munmap w).bins = w.bins := by
  induction l generalizing w with
  | nil => exact ⟨rfl, rfl⟩
  | cons m l ih => exact ih (w := w.munmap m)

/-- Unmapping regions leaves the others. -/
lemma Heap.maps_foldl_munmap {l : List ℕ} {map k : ℕ} {use : MapUse} (hm : map ∉ l) :
    (l.foldl Heap.munmap w).Maps map k use ↔ w.Maps map k use := by
  induction l generalizing w with
  | nil => exact Iff.rfl
  | cons m l ih =>
    rw [List.mem_cons, not_or] at hm
    exact (ih (w := w.munmap m) hm.2).trans (Heap.maps_munmap hm.1)

/-- Unmapping regions keeps the owners. -/
lemma owner_foldl_munmap {l : List ℕ} (ho : ∀ m ∈ w.maps, m.owner < n) :
    ∀ m ∈ (l.foldl Heap.munmap w).maps, m.owner < n := by
  induction l generalizing w with
  | nil => exact ho
  | cons m l ih => exact ih (Heap.owner_munmap ho)

/-- The mappings of an arena belong to it. -/
lemma Heap.Shape.mappings (hs : w.Shape) (ha : w.arena h = some a) {map k : ℕ} {use : MapUse}
    (hmem : map ∈ a.mappings) (hm : w.Maps map k use) : k = h := by
  rcases List.mem_append.mp hmem with hmem | hmem
  · obtain ⟨sc, -, hmem⟩ := List.mem_flatMap.mp hmem
    obtain ⟨s, hs', rfl⟩ := List.mem_map.mp hmem
    exact (hm.unique (hs.slab ha hs').2).1
  · obtain ⟨j, -, hmem⟩ := List.mem_filterMap.mp hmem
    obtain ⟨g, hg, rfl⟩ := Option.map_eq_some_iff.mp hmem
    exact (hm.unique (hs.seg ha hg).2.1).1

/-- An arena without deferred blocks is removed with its mappings. -/
lemma Inv.remove (hI : Inv w out) (ha : w.arena h = some a)
    (hout : ∀ b ∈ out ++ w.cachedHeld, b.arena ≠ h) :
    Inv { a.mappings.foldl Heap.munmap w with arenas := w.arenas.set h none } out := by
  set w' : Heap := { a.mappings.foldl Heap.munmap w with arenas := w.arenas.set h none } with hw'
  have harena : ∀ {k a₀}, w'.arena k = some a₀ → k ≠ h ∧ w.arena k = some a₀ := by
    intro k a₀ hk
    by_cases hkh : k = h
    · subst hkh
      have hnone : w'.arena k = none := by
        show ((w.arenas.set k none)[k]?).join = none
        rw [List.getElem?_set_self (Heap.arena_lt ha)]
        rfl
      rw [hnone] at hk
      cases hk
    · refine ⟨hkh, ?_⟩
      have hsame : w'.arena k = w.arena k := by
        show ((w.arenas.set h none)[k]?).join = _
        rw [List.getElem?_set_ne (Ne.symm hkh)]
        rfl
      rwa [hsame] at hk
  have hmaps : ∀ {map k use}, k ≠ h → w.Maps map k use → w'.Maps map k use := by
    intro map k use hk hm
    have hmem : map ∉ a.mappings := fun hmem => hk (hI.shape.mappings ha hmem hm)
    exact (Heap.maps_foldl_munmap hmem).mpr hm
  have hcached : w'.cachedHeld = w.cachedHeld := Heap.cachedHeld_congr (foldl_munmap_fields _).2
  refine ⟨⟨?_, ?_, ?_, ?_⟩, ?_, ?_⟩
  · intro k a₀ sc s hk hs
    obtain ⟨hne, hk⟩ := harena hk
    obtain ⟨h1, h2⟩ := hI.shape.slab hk hs
    exact ⟨h1, hmaps hne h2⟩
  · intro k a₀ j g hk hg
    obtain ⟨hne, hk⟩ := harena hk
    obtain ⟨h1, h2, h3⟩ := hI.shape.seg hk hg
    exact ⟨h1, hmaps hne h2, h3⟩
  · intro k a₀ j j' g g' hk
    exact hI.shape.inj (harena hk).2
  · intro m hm
    rw [show w'.arenas.length = w.arenas.length from List.length_set]
    exact owner_foldl_munmap hI.shape.owner m hm
  · rw [hcached]
    exact hI.apart
  · intro b hb
    rw [hcached] at hb
    have hne := hout b hb
    obtain ⟨hpos, hplace⟩ := hI.placed b hb
    refine ⟨hpos, hplace.imp ?_ fun hs => ⟨hmaps hne hs.1, hs.2⟩⟩
    rintro ⟨a₀, j, g, s, h1, h2⟩
    refine ⟨a₀, j, g, s, ?_, h2⟩
    show ((w.arenas.set h none)[b.arena]?).join = _
    rw [List.getElem?_set_ne (Ne.symm hne)]
    exact h1

/-- `arena_destroy`. -/
lemma arenaDestroy_inv (hI : Inv w (w.holds out)) (hsub : out'.Sublist out)
    (hout : ∀ b ∈ out', b.arena ≠ h) :
    Inv (arenaDestroy w h) ((arenaDestroy w h).holds out') := by
  obtain ⟨h1, -, h3⟩ := arenaFlushDeferred_inv (h := h) hI
  have hI₁ := tcacheClear_inv (h1.sublist (hsub.append_right _))
  unfold arenaDestroy
  dsimp only
  cases ha : (tcacheClear (arenaFlushDeferred w h)).arena h with
  | none => exact hI₁
  | some a =>
    dsimp only
    set w₁ := tcacheClear (arenaFlushDeferred w h) with hw₁
    have hdeferred : w₁.deferredHeld = (arenaFlushDeferred w h).deferredHeld := rfl
    rw [← hdeferred] at hI₁
    have hempty : w₁.deferredOf h = [] := h3
    have hne : ∀ b ∈ out' ++ w₁.deferredHeld, b.arena ≠ h := by
      intro b hb
      rcases List.mem_append.mp hb with hb | hb
      · exact hout b hb
      · intro hbh
        have hmem := Heap.mem_deferredHeld hb
        rw [hbh, hempty] at hmem
        exact List.not_mem_nil hmem
    have hfields := foldl_munmap_fields (w := w₁) a.mappings
    rw [hfields.1]
    have hlist : Heap.deferredHeld { a.mappings.foldl Heap.munmap w₁ with
        arenas := w₁.arenas.set h none } = w₁.deferredHeld := by
      unfold Heap.deferredHeld
      rw [show _ = w₁.arenas.length from List.length_set]
      refine List.flatMap_congr fun k _ => ?_
      by_cases hk : k = h
      · subst hk
        rw [hempty]
        unfold Heap.deferredOf Heap.arena
        rw [show _ = _ from List.getElem?_set_self (Heap.arena_lt ha)]
        rfl
      · unfold Heap.deferredOf Heap.arena
        rw [show _ = _ from List.getElem?_set_ne (Ne.symm hk)]
    unfold Heap.holds
    rw [hlist]
    refine hI₁.remove ha ?_
    rwa [show w₁.cachedHeld = [] from Heap.cachedHeld_nil rfl, List.append_nil]

/-- The arenas after `arena_destroy` were there before. -/
lemma arenaDestroy_arena {k : ℕ} (hk : (arenaDestroy w h).arena k = some a) :
    (arenaFlushDeferred w h).arena k = some a := by
  unfold arenaDestroy at hk
  dsimp only at hk
  cases ha : (tcacheClear (arenaFlushDeferred w h)).arena h with
  | none =>
    rw [ha] at hk
    exact hk
  | some a₀ =>
    rw [ha] at hk
    dsimp only at hk
    unfold Heap.arena at hk
    rw [(foldl_munmap_fields _).1] at hk
    by_cases hkh : k = h
    · rw [hkh, show _ = _ from List.getElem?_set_self (Heap.arena_lt ha)] at hk
      cases hk
    · rwa [show _ = _ from List.getElem?_set_ne (Ne.symm hkh)] at hk

/-! ## Creation -/

/-- The segments that `arena_create` has made so far. -/
structure Making (w w' : Heap) (h : ℕ) (segs : ℕ → Option Segment) : Prop where
  arenas : w'.arenas = w.arenas
  bins : w'.bins = w.bins
  maps : ∀ {map k use}, w.Maps map k use → w'.Maps map k use
  seg : ∀ {j g}, segs j = some g →
    g.flags = false ∧ w'.Maps g.map h .segment ∧ j < coldSegsPerClass * slabClasses
  inj : ∀ {j j' g g'}, segs j = some g → segs j' = some g' → g.map = g'.map → j = j'
  owner : ∀ m ∈ w'.maps, m ∈ w.maps ∨ m.owner = h

/-- The segments of a class are made one after the other. -/
lemma createSegs_making {js : List ℕ} {segs : ℕ → Option Segment}
    (hjs : ∀ j ∈ js, j < coldSegsPerClass * slabClasses) (hM : Making w w' h segs) :
    Making w (createSegs h js w' segs).1 h (createSegs h js w' segs).2 := by
  induction js generalizing w' segs with
  | nil => exact hM
  | cons j js ih =>
    rw [createSegs]
    obtain ⟨hd1, hd2, hd3⟩ := w'.draw_fields
    have hdraw : ∀ {map k use}, w'.Maps map k use → w'.draw.2.Maps map k use := by
      intro map k use hm
      unfold Heap.Maps at *
      rwa [hd2]
    have hjs' : ∀ i ∈ js, i < coldSegsPerClass * slabClasses :=
      fun i hi => hjs i (List.mem_cons_of_mem _ hi)
    -- without a mapping the class has no segment here, otherwise it is a new one
    rcases w'.mmap_cases h .segment with hm | hm
    · rw [hm]
      refine ih hjs' ?_
      have hseg : ∀ {i g}, Function.update segs j none i = some g → segs i = some g := by
        intro i g hg
        by_cases hi : i = j
        · rw [hi, Function.update_self] at hg
          cases hg
        · rwa [Function.update_of_ne hi] at hg
      refine ⟨hd1.trans hM.arenas, hd3.trans hM.bins, fun hm => hdraw (hM.maps hm), ?_, ?_,
        fun m hm => hM.owner m (hd2 ▸ hm)⟩
      · intro i g hg
        obtain ⟨h1, h2, h3⟩ := hM.seg (hseg hg)
        exact ⟨h1, hdraw h2, h3⟩
      · intro i i' g g' hg hg'
        exact hM.inj (hseg hg) (hseg hg')
    · rw [hm]
      refine ih hjs' ?_
      set w₁ : Heap := { w'.draw.2 with maps := w'.draw.2.maps ++ [⟨h, .segment, true⟩] } with hw₁
      have hmore : ∀ {map k use}, w'.Maps map k use → w₁.Maps map k use :=
        fun hm => Heap.maps_append _ _ (hdraw hm)
      have hcases : ∀ {i g}, Function.update segs j (some (newSegment w'.draw.2.maps.length)) i =
          some g → (i = j ∧ g = newSegment w'.draw.2.maps.length) ∨ segs i = some g := by
        intro i g hg
        by_cases hi : i = j
        · rw [hi, Function.update_self] at hg
          cases hg
          exact .inl ⟨hi, rfl⟩
        · rw [Function.update_of_ne hi] at hg
          exact .inr hg
      have hold : ∀ {i g}, segs i = some g → g.map ≠ w'.draw.2.maps.length := by
        intro i g hg
        rw [hd2]
        exact Nat.ne_of_lt (hM.seg hg).2.1.lt
      refine ⟨hd1.trans hM.arenas, hd3.trans hM.bins, fun hm => hmore (hM.maps hm), ?_, ?_, ?_⟩
      · intro i g hg
        rcases hcases hg with ⟨rfl, rfl⟩ | hg
        · refine ⟨rfl, ?_, hjs i List.mem_cons_self⟩
          show (w'.draw.2.maps ++ [_])[w'.draw.2.maps.length]? = _
          rw [List.getElem?_concat_length]
        · obtain ⟨h1, h2, h3⟩ := hM.seg hg
          exact ⟨h1, hmore h2, h3⟩
      · intro i i' g g' hg hg' hmap
        rcases hcases hg with ⟨hi, hnew⟩ | hseg
        · rcases hcases hg' with ⟨hi', -⟩ | hseg'
          · rw [hi, hi']
          · rw [hnew] at hmap
            exact absurd hmap.symm (hold hseg')
        · rcases hcases hg' with ⟨-, hnew'⟩ | hseg'
          · rw [hnew'] at hmap
            exact absurd hmap (hold hseg)
          · exact hM.inj hseg hseg' hmap
      · intro m hm
        rcases List.mem_append.mp hm with hm | hm
        · exact hM.owner m (hd2 ▸ hm)
        · rw [List.mem_singleton.mp hm]
          exact .inr rfl

/-- `arena_create` adds an arena without deferred blocks. -/
lemma arenaCreate_spec (w : Heap) : ∃ a w₁, a.deferred = [] ∧ a.slabs = (fun _ => []) ∧
    Making w w₁ w.arenas.length a.segs ∧
    arenaCreate w = { w₁ with arenas := w.arenas ++ [some a] } := by
  have hM : Making w w w.arenas.length fun _ => none :=
    ⟨rfl, rfl, id, nofun, nofun, fun _ hm => .inl hm⟩
  have hmade := (@createSegs_making _ _ _ (List.range (coldSegsPerClass * slabClasses)))
    (fun j hj => List.mem_range.mp hj) hM
  unfold arenaCreate
  dsimp only
  generalize createSegs w.arenas.length (List.range (coldSegsPerClass * slabClasses)) w
    (fun _ => none) = made at hmade ⊢
  obtain ⟨w₁, segs⟩ := made
  simp only at hmade ⊢
  rw [hmade.arenas]
  exact ⟨⟨fun _ => [], segs, [], true⟩, w₁, rfl, rfl, hmade, rfl⟩

/-- There is one arena more. -/
lemma arenaCreate_length (w : Heap) : (arenaCreate w).arenas.length = w.arenas.length + 1 := by
  obtain ⟨a, w₁, -, -, -, hc⟩ := arenaCreate_spec w
  rw [hc, List.length_append, List.length_singleton]

/-- One more arena. -/
lemma Heap.arena_append {x : Option Arena} {k : ℕ} (hw : w'.arenas = w.arenas ++ [x])
    (hk : w'.arena k = some a) : (k = w.arenas.length ∧ x = some a) ∨ w.arena k = some a := by
  have hk : w'.arenas[k]? = some (some a) := Option.join_eq_some_iff.mp hk
  rw [hw] at hk
  rcases Nat.lt_trichotomy k w.arenas.length with hlt | heq | hgt
  · rw [List.getElem?_append_left hlt] at hk
    exact .inr (Option.join_eq_some_iff.mpr hk)
  · rw [heq, List.getElem?_concat_length] at hk
    cases hk
    exact .inl ⟨heq, rfl⟩
  · rw [List.getElem?_eq_none (by rw [List.length_append, List.length_singleton]; omega)] at hk
    cases hk

/-- The arenas after `arena_create`. -/
lemma arenaCreate_arena {k : ℕ} (hk : (arenaCreate w).arena k = some a) :
    (k = w.arenas.length ∧ a.deferred = []) ∨ w.arena k = some a := by
  obtain ⟨a', w₁, hd, -, -, hc⟩ := arenaCreate_spec w
  rcases Heap.arena_append (congrArg Heap.arenas hc) hk with ⟨h1, h2⟩ | hold
  · cases h2
    exact .inl ⟨h1, hd⟩
  · exact .inr hold

/-- `arena_create`. -/
lemma arenaCreate_inv (hI : Inv w (w.holds out)) :
    Inv (arenaCreate w) ((arenaCreate w).holds out) := by
  obtain ⟨a, w₁, hd, hslabs, hmade, hc⟩ := arenaCreate_spec w
  rw [hc]
  set w' : Heap := { w₁ with arenas := w.arenas ++ [some a] } with hw'
  have harena : ∀ {k a₀}, w'.arena k = some a₀ →
      (k = w.arenas.length ∧ some a = some a₀) ∨ w.arena k = some a₀ := fun hk =>
    Heap.arena_append rfl hk
  have hmaps : ∀ {map k use}, w.Maps map k use → w'.Maps map k use := hmade.maps
  have hcached : w'.cachedHeld = w.cachedHeld := Heap.cachedHeld_congr hmade.bins
  have hdeferred : w'.deferredHeld = w.deferredHeld := by
    unfold Heap.deferredHeld
    rw [show w'.arenas.length = w.arenas.length + 1 from List.length_append, List.range_succ,
      List.flatMap_append, List.flatMap_singleton]
    have hnew : w'.deferredOf w.arenas.length = [] := by
      unfold Heap.deferredOf Heap.arena
      rw [show w'.arenas[w.arenas.length]? = some (some a) from List.getElem?_concat_length ..]
      show a.deferred.map _ = []
      rw [hd, List.map_nil]
    rw [hnew, List.append_nil]
    refine List.flatMap_congr fun k hk => ?_
    unfold Heap.deferredOf Heap.arena
    rw [show w'.arenas[k]? = w.arenas[k]? from List.getElem?_append_left (List.mem_range.mp hk)]
  unfold Heap.holds
  rw [hdeferred]
  refine ⟨⟨?_, ?_, ?_, ?_⟩, ?_, ?_⟩
  · intro k a₀ sc s hk hs
    rcases harena hk with ⟨-, heq⟩ | hk
    · cases heq
      rw [hslabs] at hs
      exact absurd hs List.not_mem_nil
    · obtain ⟨h1, h2⟩ := hI.shape.slab hk hs
      exact ⟨h1, hmaps h2⟩
  · intro k a₀ j g hk hg
    rcases harena hk with ⟨rfl, heq⟩ | hk
    · cases heq
      exact hmade.seg hg
    · obtain ⟨h1, h2, h3⟩ := hI.shape.seg hk hg
      exact ⟨h1, hmaps h2, h3⟩
  · intro k a₀ j j' g g' hk
    rcases harena hk with ⟨-, heq⟩ | hk
    · cases heq
      exact hmade.inj
    · exact hI.shape.inj hk
  · intro m hm
    rw [show w'.arenas.length = w.arenas.length + 1 from List.length_append]
    rcases hmade.owner m hm with hm | hm
    · exact Nat.lt_succ_of_lt (hI.shape.owner m hm)
    · rw [hm]
      exact Nat.lt_succ_self _
  · rw [hcached]
    exact hI.apart
  · intro b hb
    rw [hcached] at hb
    obtain ⟨hpos, hplace⟩ := hI.placed b hb
    refine ⟨hpos, hplace.imp ?_ fun hs => ⟨hmaps hs.1, hs.2⟩⟩
    rintro ⟨a₀, j, g, s, h1, h2⟩
    refine ⟨a₀, j, g, s, ?_, h2⟩
    show ((w.arenas ++ [some a])[b.arena]?).join = _
    rw [List.getElem?_append_left (Heap.arena_lt h1)]
    exact h1

end Draugr.Memory
