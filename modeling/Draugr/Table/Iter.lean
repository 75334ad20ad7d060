import Draugr.Bare.Formed
import Draugr.Lib.Cursor
import Draugr.Table.Preserve

/-!
# Iteration

`ht_bare_iter_next` runs one index through the main array, the spill lane and the overflow stash;
`ht_iter_next` looks up the entry. Both are cursors into one array with holes (`cells`): a dead slot
or an entry with the value `VAL_NONE` is a hole.
-/

namespace Draugr
open Lib

/-- `ht_iter_t`. -/
structure HtIter where
  idx : ℕ
  started : Bool
  deriving DecidableEq, Repr

/-- `ht_bare_iter_begin` and `ht_iter_begin`. -/
def htBareIterBegin : HtIter := ⟨0, false⟩

/-- `a - b` on a `size_t`. -/
def sizeSub (a b : ℕ) : ℕ := if b ≤ a then a - b else a + 2 ^ 64 - b

/-- The loop over the main array, `n` more slots from `idx` on: what is returned, and
`iter->idx`. -/
def iterMain (t : HtBare) : ℕ → ℕ → Option (ℕ × ℕ) × ℕ
  | 0, idx => (none, idx)
  | n + 1, idx =>
    let s := t.slot idx
    if s.Live ∧ s.val ≠ valNone then (some (s.hash, s.val), idx + 1) else iterMain t n (idx + 1)

/-- The loop over a lane that starts at `off`, `n` more entries from the `k`-th on. -/
def iterLane (lane : List (ℕ × ℕ)) (off : ℕ) : ℕ → ℕ → ℕ → Option (ℕ × ℕ) × ℕ
  | 0, _, idx => (none, idx)
  | n + 1, k, _ =>
    let e := lane.getD k (0, valNone)
    let idx := off + (k + 1)
    if e.2 ≠ valNone then (some e, idx) else iterLane lane off n (k + 1) idx

/-- `ht_bare_iter_next`. -/
def htBareIterNext (t : HtBare) (iter : HtIter) : Option (ℕ × ℕ) × HtIter :=
  match iterMain t (t.capacity - iter.idx) iter.idx with
  | (some e, idx) => (some e, { iter with idx := idx })
  | (none, idx) =>
    -- one index runs through the main array, the spill lane and the stash
    let spillOff := t.capacity
    let overflowOff := spillOff + t.spill.length
    let spillIdx := sizeSub idx spillOff
    match if idx < overflowOff then
        iterLane t.spill spillOff (t.spill.length - spillIdx) spillIdx idx
      else (none, idx) with
    | (some e, idx) => (some e, { iter with idx := idx })
    | (none, idx) =>
      let overflowIdx := sizeSub idx overflowOff
      let (r, idx) :=
        iterLane t.overflow overflowOff (t.overflow.length - overflowIdx) overflowIdx idx
      (r, { iter with idx := idx })

/-- The loop of `ht_iter_next`: `n` more calls of `ht_bare_iter_next`. -/
def htIterNextFrom (t : HtTable HtBare) : ℕ → HtIter → Option (Bytes × Bytes) × HtIter
  | 0, iter => (none, iter)
  | n + 1, iter =>
    match htBareIterNext t.bare iter with
    | (none, iter) => (none, iter)
    | (some e, iter) =>
      if e.2 = valNone then htIterNextFrom t n iter else (some (t.entry e.2).pair, iter)

/-- `ht_iter_next`. Every call of `ht_bare_iter_next` passes at least one cell. -/
def htIterNext (t : HtTable HtBare) (iter : HtIter) : Option (Bytes × Bytes) × HtIter :=
  htIterNextFrom t (t.bare.capacity + t.bare.spill.length + t.bare.overflow.length + 1) iter

/-! ## The array a cursor runs through -/

/-- An entry that is handed out, unless its value is `VAL_NONE`. -/
def laneCell (e : ℕ × ℕ) : Option (ℕ × ℕ) := if e.2 ≠ valNone then some e else none

/-- A slot whose entry is handed out. -/
def slotCell (s : Slot) : Option (ℕ × ℕ) := s.entry.bind laneCell

/-- Main array, spill lane and overflow stash as one array. -/
def cells (t : HtBare) : List (Option (ℕ × ℕ)) :=
  t.main.map slotCell ++ (t.spill.map laneCell ++ t.overflow.map laneCell)

/-- The entries of the three lanes that carry a value. -/
def iterEntries (t : HtBare) : List (ℕ × ℕ) :=
  (liveEntries t.main ++ t.spill ++ t.overflow).filter (·.2 ≠ valNone)

variable {t : HtBare} {idx : ℕ}

/-- The cells of a lane that are shown. -/
lemma filterMap_laneCell (l : List (ℕ × ℕ)) : l.filterMap laneCell = l.filter (·.2 ≠ valNone) := by
  rw [← List.filterMap_eq_filter]
  refine List.filterMap_congr fun e _ => ?_
  unfold laneCell Option.guard
  split <;> simp_all

/-- From the start, the cursor has all entries in front of it. -/
lemma ahead_cells (t : HtBare) : ahead (cells t) 0 = iterEntries t := by
  unfold ahead cells iterEntries liveEntries slotCell
  rw [List.drop_zero, List.filterMap_append, List.filterMap_append, List.filter_append,
    List.filter_append, List.filterMap_map, List.filterMap_map, List.filterMap_map,
    ← filterMap_laneCell, ← filterMap_laneCell, ← filterMap_laneCell, List.filterMap_filterMap,
    List.append_assoc]
  rfl

/-- The table has a cell for each slot and each value of a lane. -/
lemma cells_length (t : HtBare) :
    (cells t).length = t.capacity + t.spill.length + t.overflow.length := by
  unfold cells HtBare.capacity
  rw [List.length_append, List.length_append, List.length_map, List.length_map, List.length_map,
    Nat.add_assoc]

/-- The cells of the main array. -/
lemma cells_main (h : idx < t.capacity) : (cells t)[idx]? = some (slotCell (t.slot idx)) := by
  have hlen : idx < (t.main.map slotCell).length := by rwa [List.length_map]
  unfold cells
  rw [List.getElem?_append_left hlen, List.getElem?_map, HtBare.slot, List.getD_eq_getElem?_getD,
    List.getElem?_eq_getElem h]
  rfl

/-- The cells of the spill lane. -/
lemma cells_spill {k : ℕ} (h : k < t.spill.length) :
    (cells t)[t.capacity + k]? = some (laneCell (t.spill.getD k (0, valNone))) := by
  have hlen : (t.main.map slotCell).length ≤ t.capacity + k := by
    rw [List.length_map]
    exact Nat.le_add_right _ _
  have hk : k < (t.spill.map laneCell).length := by rwa [List.length_map]
  unfold cells
  rw [List.getElem?_append_right hlen, List.length_map, HtBare.capacity, Nat.add_sub_cancel_left,
    List.getElem?_append_left hk, List.getElem?_map, List.getD_eq_getElem?_getD,
    List.getElem?_eq_getElem h]
  rfl

/-- The cells of the overflow stash. -/
lemma cells_overflow {k : ℕ} (h : k < t.overflow.length) :
    (cells t)[t.capacity + t.spill.length + k]? =
      some (laneCell (t.overflow.getD k (0, valNone))) := by
  have hlen : (t.main.map slotCell).length ≤ t.capacity + t.spill.length + k := by
    rw [List.length_map, HtBare.capacity]
    omega
  have hlen' : (t.spill.map laneCell).length ≤ t.spill.length + k := by
    rw [List.length_map]
    exact Nat.le_add_right _ _
  unfold cells
  rw [List.getElem?_append_right hlen, List.length_map, HtBare.capacity, Nat.add_assoc,
    Nat.add_sub_cancel_left, List.getElem?_append_right hlen', List.length_map,
    Nat.add_sub_cancel_left, List.getElem?_map, List.getD_eq_getElem?_getD,
    List.getElem?_eq_getElem h]
  rfl

/-! ## One call -/

/-- A loop that started at `idx` has passed over holes, and either returns the next entry or has
reached `stop`. -/
structure Scans (cs : List (Option (ℕ × ℕ))) (idx stop : ℕ) (r : Option (ℕ × ℕ) × ℕ) : Prop where
  found : ∀ e, r.1 = some e → ahead cs idx = e :: ahead cs r.2
  missed : r.1 = none → ahead cs idx = ahead cs r.2 ∧ r.2 = stop

/-- Passing a hole first. -/
lemma Scans.hole {cs : List (Option (ℕ × ℕ))} {stop : ℕ} {r : Option (ℕ × ℕ) × ℕ}
    (hc : cs[idx]? = some none) (h : Scans cs (idx + 1) stop r) : Scans cs idx stop r := by
  refine ⟨fun e he => ?_, fun hn => ?_⟩
  · rw [ahead_hole hc]
    exact h.found e he
  · rw [ahead_hole hc]
    exact h.missed hn

/-- The loop over the main array. -/
lemma iterMain_scans {n : ℕ} (h : idx + n = t.capacity) :
    Scans (cells t) idx t.capacity (iterMain t n idx) := by
  induction n generalizing idx with
  | zero => exact ⟨nofun, fun _ => ⟨rfl, h⟩⟩
  | succ n ih =>
    have hcell := (@cells_main t idx) (by omega)
    rw [iterMain]
    split
    · rename_i hs
      have hsome : slotCell (t.slot idx) = some ((t.slot idx).hash, (t.slot idx).val) := by
        unfold slotCell laneCell
        rw [Slot.entry_live hs.1, Option.bind_some, if_pos hs.2]
      rw [hsome] at hcell
      refine ⟨fun e he => ?_, nofun⟩
      cases he
      exact ahead_cell hcell
    · rename_i hs
      have hnone : slotCell (t.slot idx) = none := by
        unfold slotCell laneCell
        by_cases hl : (t.slot idx).Live
        · rw [Slot.entry_live hl, Option.bind_some, if_neg fun hv => hs ⟨hl, hv⟩]
        · rw [Slot.entry_not_live hl, Option.bind_none]
      rw [hnone] at hcell
      exact (ih (by omega)).hole hcell

/-- The loop over a lane. -/
lemma iterLane_scans {cs : List (Option (ℕ × ℕ))} {lane : List (ℕ × ℕ)} {off : ℕ}
    (hcs : ∀ k, k < lane.length → cs[off + k]? = some (laneCell (lane.getD k (0, valNone))))
    {n k : ℕ} (h : k + n = lane.length) :
    Scans cs (off + k) (off + lane.length) (iterLane lane off n k (off + k)) := by
  induction n generalizing k with
  | zero => exact ⟨nofun, fun _ => ⟨rfl, by rw [← h]; rfl⟩⟩
  | succ n ih =>
    have hcell := hcs k (by omega)
    unfold laneCell at hcell
    rw [iterLane]
    split
    · rename_i hv
      rw [if_pos hv] at hcell
      refine ⟨fun e he => ?_, nofun⟩
      cases he
      exact ahead_cell hcell
    · rename_i hv
      rw [if_neg hv] at hcell
      exact Scans.hole hcell (ih (k := k + 1) (by omega))

/-- The loop over the main array, from any index. -/
lemma iterMain_scans_from (t : HtBare) (idx : ℕ) :
    Scans (cells t) idx (max idx t.capacity) (iterMain t (t.capacity - idx) idx) := by
  rcases Nat.le_total idx t.capacity with h | h
  · rw [Nat.max_eq_right h]
    exact iterMain_scans (Nat.add_sub_cancel' h)
  · rw [Nat.max_eq_left h, Nat.sub_eq_zero_of_le h]
    exact ⟨nofun, fun _ => ⟨rfl, rfl⟩⟩

/-- The loop over a lane, from any index that has reached it. -/
lemma iterLane_scans_from {cs : List (Option (ℕ × ℕ))} {lane : List (ℕ × ℕ)} {off : ℕ}
    (hcs : ∀ k, k < lane.length → cs[off + k]? = some (laneCell (lane.getD k (0, valNone))))
    (h : off ≤ idx) : Scans cs idx (max idx (off + lane.length))
      (iterLane lane off (lane.length - sizeSub idx off) (sizeSub idx off) idx) := by
  obtain ⟨k, rfl⟩ := Nat.exists_eq_add_of_le h
  have hk : sizeSub (off + k) off = k := by
    unfold sizeSub
    rw [if_pos h, Nat.add_sub_cancel_left]
  rw [hk]
  rcases Nat.le_total k lane.length with hle | hle
  · rw [Nat.max_eq_right (Nat.add_le_add_left hle off)]
    exact iterLane_scans hcs (Nat.add_sub_cancel' hle)
  · rw [Nat.max_eq_left (Nat.add_le_add_left hle off), Nat.sub_eq_zero_of_le hle]
    exact ⟨nofun, fun _ => ⟨rfl, rfl⟩⟩

/-- What one loop after another returns. -/
lemma Scans.trans {cs : List (Option (ℕ × ℕ))} {idx' stop stop' : ℕ} {r : Option (ℕ × ℕ) × ℕ}
    (h : Scans cs idx stop (none, idx')) (h' : Scans cs idx' stop' r) : Scans cs idx stop' r := by
  have hahead := (h.missed rfl).1
  refine ⟨fun e he => ?_, fun hn => ?_⟩
  · rw [hahead]
    exact h'.found e he
  · rw [hahead]
    exact h'.missed hn

/-- The three loops of `ht_bare_iter_next`. -/
lemma htBareIterNext_scans (t : HtBare) (iter : HtIter) : ∃ stop, (cells t).length ≤ stop ∧
    Scans (cells t) iter.idx stop
      ((htBareIterNext t iter).1, (htBareIterNext t iter).2.idx) := by
  rw [cells_length]
  have h₁ := iterMain_scans_from t iter.idx
  unfold htBareIterNext
  rcases hm : iterMain t (t.capacity - iter.idx) iter.idx with ⟨_ | e, idx₁⟩
  · rw [hm] at h₁
    have hidx₁ : t.capacity ≤ idx₁ := (Nat.le_max_right _ _).trans_eq (h₁.missed rfl).2.symm
    have h₂ := iterLane_scans_from (fun k => cells_spill (t := t)) hidx₁
    -- past the spill lane its loop does not start
    have hskip : (if idx₁ < t.capacity + t.spill.length then iterLane t.spill t.capacity
        (t.spill.length - sizeSub idx₁ t.capacity) (sizeSub idx₁ t.capacity) idx₁
        else (none, idx₁)) = iterLane t.spill t.capacity
        (t.spill.length - sizeSub idx₁ t.capacity) (sizeSub idx₁ t.capacity) idx₁ := by
      split
      · rfl
      · rename_i hge
        have : t.spill.length - sizeSub idx₁ t.capacity = 0 := by
          unfold sizeSub
          rw [if_pos hidx₁]
          omega
        rw [this]
        rfl
    dsimp only
    rw [hskip]
    rcases hs : iterLane t.spill t.capacity (t.spill.length - sizeSub idx₁ t.capacity)
      (sizeSub idx₁ t.capacity) idx₁ with ⟨_ | e, idx₂⟩
    · rw [hs] at h₂
      have hidx₂ : t.capacity + t.spill.length ≤ idx₂ :=
        (Nat.le_max_right _ _).trans_eq (h₂.missed rfl).2.symm
      have h₃ := iterLane_scans_from (fun k => cells_overflow (t := t)) hidx₂
      exact ⟨_, Nat.le_max_right _ _, (h₁.trans h₂).trans h₃⟩
    · rw [hs] at h₂
      refine ⟨_, le_rfl, fun e' he => ?_, nofun⟩
      exact (h₁.trans h₂).found e' he
  · rw [hm] at h₁
    exact ⟨_, le_rfl, fun e' he => h₁.found e' he, nofun⟩

/-- `ht_bare_iter_next` hands out the entries one by one. -/
lemma htBareIterNext_yields (t : HtBare) :
    Yields (htBareIterNext t) fun iter => ahead (cells t) iter.idx := by
  intro iter
  obtain ⟨stop, hstop, h⟩ := htBareIterNext_scans t iter
  rcases hr : (htBareIterNext t iter).1 with _ | e
  · rw [hr] at h
    obtain ⟨h1, h2⟩ := h.missed rfl
    have hend : ahead (cells t) (htBareIterNext t iter).2.idx = [] :=
      ahead_of_le (hstop.trans_eq h2.symm)
    dsimp only at h1 ⊢
    rw [h1, hend]
    exact ⟨rfl, rfl⟩
  · rw [hr] at h
    have hcons := h.found e rfl
    dsimp only at hcons ⊢
    rw [hcons]
    exact ⟨rfl, rfl⟩

/-- The cursor only ever has entries with a value in front of it. -/
lemma ahead_val {e : ℕ × ℕ} {k : ℕ} (he : e ∈ ahead (cells t) k) : e.2 ≠ valNone := by
  have hmem : e ∈ ahead (cells t) 0 := by
    unfold ahead at he ⊢
    exact (List.Sublist.filterMap id (List.drop_sublist k (cells t))).subset (by simpa using he)
  rw [ahead_cells] at hmem
  exact of_decide_eq_true (List.mem_filter.mp hmem).2

/-- `ht_iter_next` hands out the pairs of the entries one by one. -/
lemma htIterNext_yields (t : HtTable HtBare) :
    Yields (htIterNext t) fun iter =>
      (ahead (cells t.bare) iter.idx).map fun e => (t.entry e.2).pair := by
  intro iter
  obtain ⟨hhead, htail⟩ := htBareIterNext_yields t.bare iter
  unfold htIterNext
  rw [htIterNextFrom]
  rcases hr : htBareIterNext t.bare iter with ⟨_ | e, iter'⟩
  · rw [hr] at hhead htail
    have hnil : ahead (cells t.bare) iter.idx = [] := List.head?_eq_none_iff.mp hhead.symm
    have hend : ahead (cells t.bare) iter'.idx = [] := by
      have := htail
      dsimp only at this
      rw [this, hnil]
      rfl
    dsimp only
    rw [hend, hnil]
    exact ⟨rfl, rfl⟩
  · rw [hr] at hhead htail
    have hcons : ahead (cells t.bare) iter.idx = e :: ahead (cells t.bare) iter'.idx := by
      have := htail
      dsimp only at this
      rw [this]
      exact (List.cons_head?_tail hhead.symm).symm
    have hv : e.2 ≠ valNone := ahead_val (by rw [hcons]; exact List.mem_cons_self)
    dsimp only
    rw [if_neg hv, hcons]
    exact ⟨rfl, rfl⟩

/-! ## Reachable tables -/

/-- Every entry of a reachable bare table carries a value. -/
lemma Formed.iterEntries (hF : Formed t) :
    iterEntries t = liveEntries t.main ++ t.spill ++ t.overflow := by
  refine List.filter_eq_self.mpr fun e he => decide_eq_true ?_
  rcases List.mem_append.mp he with he | he
  · rcases List.mem_append.mp he with he | he
    · exact (hF.live he).val
    · exact (hF.spill e he).2
  · exact (hF.overflow e he).val

/-- Repeated calls of `ht_bare_iter_next` on a reachable table return the live slots of the main
array, the spill lane and the overflow stash in this order, each entry once, then false for ever;
and repeated calls of `ht_iter_next` return the pairs of the entries of these lanes in the same
way. -/
theorem htIter_exact :
    (∀ (cfg : HtConfig) (mem : List Bool) (fuel : ℕ) (ops : List BareCall) (t t' : HtBare),
      htBareCreate cfg mem fuel = some t → runCalls ops t = some t' →
      ∀ n, calls (htBareIterNext t') n htBareIterBegin =
        (List.range n).map fun i => (liveEntries t'.main ++ t'.spill ++ t'.overflow)[i]?) ∧
    (∀ (cfg : HtConfig) (fns : HtFns) (mem : List Bool) (fuel : ℕ) (ops : List HtOp)
        (t t' : HtTable HtBare),
      htCreate cfg mem fuel = some t → runHt bareIndex fns t ops = some t' →
      ∀ n, calls (htIterNext t') n htBareIterBegin =
        (List.range n).map fun i => (htIterAll bareIndex t')[i]?) := by
  constructor
  · intro cfg mem fuel ops t t' hc hr n
    have hF := runCalls_formed (htBareCreate_formed hc) hr
    rw [(htBareIterNext_yields t').calls, ← hF.iterEntries, ← ahead_cells]
    rfl
  · intro cfg fns mem fuel ops t t' _ _ n
    rw [(htIterNext_yields t').calls]
    refine List.map_congr_left fun i _ => ?_
    show ((ahead (cells t'.bare) 0).map _)[i]? = _
    rw [ahead_cells]
    rfl

/-- Two live slots and one entry of the spill lane, then the end. -/
theorem htIter_exact_sample : (∃ t', runCalls [.op (.insert 5 10), .op (.insert 1 12),
      .op (.insert 69 13), .op (.insert 6 14), .remove 6] defaultTable = some t' ∧
      ∀ n, calls (htBareIterNext t') n htBareIterBegin =
        (List.range n).map fun i => [(5, 10), (69, 13), (1, 12)][i]?) ∧
    ∃ t', runHt bareIndex byteFns smallTable sampleRun = some t' ∧
      ∀ n, calls (htIterNext t') n htBareIterBegin =
        (List.range n).map fun i => (htIterAll bareIndex t')[i]? := by
  constructor
  · have hrun : (runCalls [.op (.insert 5 10), .op (.insert 1 12), .op (.insert 69 13),
        .op (.insert 6 14), .remove 6] defaultTable).map
        (fun t' => liveEntries t'.main ++ t'.spill ++ t'.overflow) =
          some [(5, 10), (69, 13), (1, 12)] := by decide +kernel
    obtain ⟨t', hr, hentries⟩ := Option.map_eq_some_iff.mp hrun
    refine ⟨t', hr, fun n => ?_⟩
    rw [← hentries]
    exact htIter_exact.1 defaultCfg [] 0 _ defaultTable t' (by decide +kernel) hr n
  · have hrun : (runHt bareIndex byteFns smallTable sampleRun).isSome = true := by decide +kernel
    obtain ⟨t', hr⟩ := Option.isSome_iff_exists.mp hrun
    exact ⟨t', hr, htIter_exact.2 smallCfg byteFns [] 0 _ smallTable t' (by decide +kernel) hr⟩

end Draugr
