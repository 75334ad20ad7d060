import Draugr.Memory.Parts

/-!
# One segment

A segment on its own: `seg_alloc` and `seg_free` are called in any order, `seg_free` on outstanding
blocks. `Exact` ties the bitmap, the counter in the control word and the outstanding blocks
together. The counter has 16 bits and a segment 1021 cells, so it neither overflows nor is clamped.

`seg_alloc` computes `size + 63` in 64 bits. For the 63 largest sizes the sum wraps around and the
block gets no cells at all; the callers pass at most 4096.
-/

namespace Draugr.Memory
open Lib

/-- A block of a segment. -/
structure SegBlock where
  ptr : Ptr
  size : ℕ
  deriving DecidableEq

/-- The first cell of the block. -/
def SegBlock.start (b : SegBlock) : ℕ := (b.ptr.off - segHdrSize) / segGranularity

/-- A cell of the block. -/
def SegBlock.Covers (b : SegBlock) (i : ℕ) : Prop := b.start ≤ i ∧ i < b.start + slotsNeeded b.size

instance (b : SegBlock) (i : ℕ) : Decidable (b.Covers i) := inferInstanceAs (Decidable (_ ∧ _))

/-- A segment, and the blocks that were allocated and not freed. -/
structure SegUse where
  seg : Segment
  outstanding : List SegBlock

/-- A call of `seg_alloc` or `seg_free`. -/
inductive SegCall where
  | alloc (size : ℕ)
  | free (b : SegBlock)

/-- Runs one call; `none` when it may not be made: a size is a positive `size_t`, and a block that
is freed is outstanding. -/
def SegCall.run (u : SegUse) : SegCall → Option SegUse
  | .alloc size =>
    if 0 < size ∧ size < 2 ^ 64 then
      match segAlloc u.seg size with
      | some (p, s) => some ⟨s, ⟨p, size⟩ :: u.outstanding⟩
      | none => some u
    else none
  | .free b =>
    if b ∈ u.outstanding then
      some ⟨(segFree u.seg b.ptr b.size).getD u.seg, u.outstanding.erase b⟩
    else none

/-- Runs a list of calls. -/
def runSeg (u : SegUse) : List SegCall → Option SegUse
  | [] => some u
  | call :: calls => (call.run u).bind (runSeg · calls)

/-- The segment is not flagged, all its cells are free and the counter is 0. -/
structure Segment.Unused (g : Segment) : Prop where
  flags : g.flags = false
  free : ∀ i, g.freeBitmap i = true
  used : g.used = 0

/-- The outstanding blocks share no cell and lie in the segment, the taken cells are theirs, and the
counter is the number of taken cells. -/
structure SegUse.Exact (u : SegUse) : Prop where
  flags : u.seg.flags = false
  apart : u.outstanding.Pairwise fun b b' => ∀ i, ¬ (b.Covers i ∧ b'.Covers i)
  inside : ∀ b ∈ u.outstanding, b.start < segSlots ∧ b.ptr = u.seg.ptr b.start ∧
    b.start + slotsNeeded b.size ≤ segSlots
  bitmap : ∀ i, u.seg.freeBitmap i = false ↔ ∃ b ∈ u.outstanding, b.Covers i
  used : u.seg.used = taken u.seg.freeBitmap segSlots

variable {g : Segment} {u u' : SegUse} {b : SegBlock} {call : SegCall} {calls : List SegCall}
  {p : Ptr} {size start : ℕ}

/-! ## The control word -/

/-- A counter of 16 bits is read back. -/
lemma Segment.used_eq {control used : ℕ} (hc : g.control = setUsed control used)
    (h : used < 2 ^ 16) :
    g.used = used := by
  unfold Segment.used
  rw [hc, setUsed, Nat.mod_eq_of_lt h, Nat.add_mul_div_right _ _ (Nat.two_pow_pos 48),
    Nat.div_eq_of_lt (Nat.mod_lt _ (Nat.two_pow_pos 48)), Nat.zero_add, Nat.mod_eq_of_lt h]

/-- A new segment is unused. -/
lemma newSegment_unused (map : ℕ) : (newSegment map).Unused := by
  refine ⟨rfl, fun _ => rfl, ?_⟩
  unfold Segment.used newSegment
  rw [Nat.zero_div, Nat.zero_mod]

/-- The free slots of a segment fit 16 bits. -/
lemma taken_lt (free : ℕ → Bool) : taken free segSlots < 2 ^ 16 := by
  have hle := taken_le free segSlots
  have hslots : segSlots = 1021 := rfl
  omega

/-- An address depends on the mapping alone. -/
lemma Segment.ptr_congr {g' : Segment} (h : g'.map = g.map) (cell : ℕ) :
    g.ptr cell = g'.ptr cell := by
  unfold Segment.ptr
  rw [h]

/-- The fields of a segment with another bitmap and control word. -/
lemma Segment.with_fields {s : Segment} {free : ℕ → Bool} {control : ℕ}
    (hs : s = { g with freeBitmap := free, control := control }) :
    s.map = g.map ∧ s.flags = g.flags ∧ s.freeBitmap = free ∧ s.control = control := by
  subst hs
  exact ⟨rfl, rfl, rfl, rfl⟩

/-- The first slot of a block is read back from its pointer. -/
lemma Segment.start_ptr (g : Segment) (start size : ℕ) :
    (⟨g.ptr start, size⟩ : SegBlock).start = start := by
  show (segHdrSize + start * segGranularity - segHdrSize) / segGranularity = start
  rw [Nat.add_sub_cancel_left, Nat.mul_div_cancel _ (by decide)]

/-! ## One call -/

/-- An unused segment is exact without blocks. -/
lemma Segment.Unused.exact (hg : g.Unused) : SegUse.Exact ⟨g, []⟩ := by
  refine ⟨hg.flags, List.Pairwise.nil, nofun, fun i => ?_, ?_⟩
  · rw [hg.free i]
    exact ⟨nofun, fun ⟨_, h, _⟩ => absurd h List.not_mem_nil⟩
  · have hempty : taken g.freeBitmap segSlots = 0 := by
      unfold taken
      refine Finset.card_eq_zero.mpr (Finset.filter_eq_empty_iff.mpr fun i _ => ?_)
      rw [hg.free i]
      exact Bool.noConfusion
    rw [hempty]
    exact hg.used

/-- `seg_alloc`. -/
lemma SegUse.Exact.alloc {s : Segment} (hu : u.Exact) (h : segAlloc u.seg size = some (p, s)) :
    SegUse.Exact ⟨s, ⟨p, size⟩ :: u.outstanding⟩ ∧ s.used = u.seg.used + slotsNeeded size := by
  obtain ⟨start, hlt, rfl, hv, hfit, hs⟩ := segAlloc_spec h
  obtain ⟨hmap, hflags, hfree, hctrl⟩ := Segment.with_fields hs
  have hstart := u.seg.start_ptr start size
  have hcovers : ∀ i, (⟨u.seg.ptr start, size⟩ : SegBlock).Covers i ↔
      start ≤ i ∧ i < start + slotsNeeded size := by
    intro i
    unfold SegBlock.Covers
    rw [hstart]
  have hcount := taken_take hv hfit
  rw [← hu.used, ← hfree] at hcount
  have hused : s.used = u.seg.used + slotsNeeded size :=
    Segment.used_eq hctrl (hcount ▸ taken_lt s.freeBitmap)
  refine ⟨⟨hflags.trans hu.flags, List.pairwise_cons.mpr ⟨?_, hu.apart⟩, ?_, fun i => ?_,
    hused.trans hcount.symm⟩, hused⟩
  · rintro b hb i ⟨hnew, hold⟩
    rw [hcovers] at hnew
    have htaken := (hu.bitmap i).mpr ⟨b, hb, hold⟩
    rw [hv i hnew.1 hnew.2] at htaken
    cases htaken
  · intro b hb
    rcases List.mem_cons.mp hb with rfl | hb
    · rw [hstart]
      exact ⟨hlt, Segment.ptr_congr hmap start, hfit⟩
    · obtain ⟨h1, h2, h3⟩ := hu.inside b hb
      exact ⟨h1, h2.trans (Segment.ptr_congr hmap b.start), h3⟩
  · rw [List.exists_mem_cons_iff, hcovers, hfree]
    simp only [setRun]
    split
    · rename_i hin
      exact ⟨fun _ => .inl hin, fun _ => rfl⟩
    · rename_i hout
      rw [hu.bitmap i]
      exact ⟨.inr, fun h => h.resolve_left hout⟩

/-- `seg_free` of an outstanding block: it is taken back, and the counter is not clamped. -/
lemma SegUse.Exact.free (hu : u.Exact) (hb : b ∈ u.outstanding) :
    ∃ s, segFree u.seg b.ptr b.size = some s ∧ SegUse.Exact ⟨s, u.outstanding.erase b⟩ ∧
      u.seg.used = s.used + slotsNeeded b.size := by
  obtain ⟨hlt, hptr, hfit⟩ := hu.inside b hb
  have hsome := segFree_ptr hu.flags hlt hfit
  rw [← hptr] at hsome
  obtain ⟨s, hs⟩ : ∃ s, s = { u.seg with
      freeBitmap := setRun u.seg.freeBitmap b.start (slotsNeeded b.size) true
      control := setUsed u.seg.control (u.seg.used - slotsNeeded b.size) } := ⟨_, rfl⟩
  rw [← hs] at hsome
  obtain ⟨hmap, hflags, hfree, hctrl⟩ := Segment.with_fields hs
  have hfilled : Filled u.seg.freeBitmap b.start (slotsNeeded b.size) :=
    fun i h1 h2 => (hu.bitmap i).mpr ⟨b, hb, h1, h2⟩
  have hcount := taken_give hfilled hfit
  rw [← hu.used, ← hfree] at hcount
  rw [hcount, Nat.add_sub_cancel] at hctrl
  have hused : s.used = taken s.freeBitmap segSlots := Segment.used_eq hctrl (taken_lt s.freeBitmap)
  -- the freed block shares no cell with another one
  have hperm := List.perm_cons_erase hb
  have hapart : ∀ b' ∈ u.outstanding.erase b, ∀ i, ¬ (b.Covers i ∧ b'.Covers i) := by
    have hpair := hperm.pairwise (R := fun b b' : SegBlock => ∀ i, ¬ (b.Covers i ∧ b'.Covers i))
      hu.apart fun h i hc => h i hc.symm
    exact (List.pairwise_cons.mp hpair).1
  refine ⟨s, hsome, ⟨hflags.trans hu.flags, hu.apart.sublist List.erase_sublist,
    fun b' hb' => ?_, fun i => ?_, hused⟩, hused ▸ hcount⟩
  · obtain ⟨h1, h2, h3⟩ := hu.inside b' (List.mem_of_mem_erase hb')
    exact ⟨h1, h2.trans (Segment.ptr_congr hmap b'.start), h3⟩
  · rw [hfree]
    simp only [setRun]
    split
    · rename_i hin
      refine iff_of_false Bool.false_ne_true.symm ?_
      rintro ⟨b', hb', hc⟩
      exact hapart b' hb' i ⟨hin, hc⟩
    · rename_i hout
      rw [hu.bitmap i]
      constructor
      · rintro ⟨b', hb', hc⟩
        rcases List.mem_cons.mp (hperm.mem_iff.mp hb') with rfl | hrest
        · exact absurd hc hout
        · exact ⟨b', hrest, hc⟩
      · rintro ⟨b', hb', hc⟩
        exact ⟨b', List.mem_of_mem_erase hb', hc⟩

/-- One call. -/
lemma SegCall.run_exact (hu : u.Exact) (hr : call.run u = some u') : u'.Exact := by
  cases call with
  | alloc size =>
    obtain ⟨-, hr⟩ := Option.ite_none_right_eq_some.mp hr
    cases ha : segAlloc u.seg size with
    | none =>
      rw [ha] at hr
      cases hr
      exact hu
    | some r =>
      rw [ha] at hr
      cases hr
      exact (hu.alloc ha).1
  | free b =>
    obtain ⟨hb, hr⟩ := Option.ite_none_right_eq_some.mp hr
    obtain ⟨s, hs, hexact, -⟩ := hu.free hb
    rw [hs, Option.getD_some] at hr
    cases hr
    exact hexact

/-- A run. -/
lemma runSeg_exact (hu : u.Exact) (hr : runSeg u calls = some u') : u'.Exact := by
  induction calls generalizing u with
  | nil =>
    cases hr
    exact hu
  | cons call calls ih =>
    obtain ⟨u₁, h₁, hr⟩ := Option.bind_eq_some_iff.mp hr
    exact ih (SegCall.run_exact hu h₁) hr

/-- After every run on a segment the outstanding blocks share no cell and lie in the segment, the
taken cells are theirs and the counter is their number. The next allocation adds its cells to the
counter, or fails because there is no run of free cells that is long enough; the next free is
accepted and subtracts its cells without being clamped. A block has room for its size, unless the
sum wraps around. -/
theorem seg_exact (hg : g.Unused) (hr : runSeg ⟨g, []⟩ calls = some u) :
    u.Exact ∧
    (∀ size p s, segAlloc u.seg size = some (p, s) → s.used = u.seg.used + slotsNeeded size) ∧
    (∀ size, 0 < size → size < 2 ^ 64 → segAlloc u.seg size = none →
      ∀ start, start + cells size ≤ segSlots → ¬ Vacant u.seg.freeBitmap start (cells size)) ∧
    (∀ b ∈ u.outstanding, ∃ s, segFree u.seg b.ptr b.size = some s ∧
      u.seg.used = s.used + slotsNeeded b.size) ∧
    ∀ size ≤ 2 ^ 64 - 64, size ≤ segGranularity * slotsNeeded size := by
  have hu := runSeg_exact hg.exact hr
  refine ⟨hu, fun size p s ha => (hu.alloc ha).2, fun size h0 hsize ha start hfit => ?_,
    fun b hb => ?_, fun size hsize => ?_⟩
  · have hbound : size ≤ 2 ^ 64 - 64 := by
      unfold cells segGranularity at hfit
      have hslots : segSlots = 1021 := rfl
      omega
    rw [← slotsNeeded_eq hbound] at hfit ⊢
    exact segAlloc_none ha (slotsNeeded_eq hbound ▸ cells_pos h0) hfit
  · obtain ⟨s, hs, -, hused⟩ := hu.free hb
    exact ⟨s, hs, hused⟩
  · rw [slotsNeeded_eq hsize]
    unfold cells segGranularity
    omega

/-- Blocks are freed and their cells used again. -/
def segCalls : List SegCall :=
  [.alloc 4096, .alloc 100, .alloc 64, .free ⟨⟨0, 152⟩, 4096⟩, .alloc 130,
    .free ⟨⟨0, 152 + 64 * 64⟩, 100⟩, .alloc 4096]

/-- The last run. -/
theorem seg_exact_sample : ∃ u, runSeg ⟨newSegment 0, []⟩ segCalls = some u ∧
    u.outstanding.length = 3 ∧ u.Exact := by
  have hlen : (runSeg ⟨newSegment 0, []⟩ segCalls).map (fun u => u.outstanding.length) =
      some 3 := by
    decide +kernel
  obtain ⟨u, hr, h3⟩ := Option.map_eq_some_iff.mp hlen
  exact ⟨u, hr, h3, (seg_exact (newSegment_unused 0) hr).1⟩

end Draugr.Memory
