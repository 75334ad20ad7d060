import Draugr.Table.Ops

/-!
# Rebuilding keeps the pairs

The table of `src/ht.c` over the bare index. In every run of safe calls each call changes the pairs
that iteration and lookup report by exactly what the call itself adds, updates or removes: the
rebuilds inside `ht_resize`, `ht_compact` and behind the automatic growing and shrinking change
nothing (`htTable_keeps_pairs`). A rebuild of a table with an empty key is not safe: `ht_rebuild`
skips the entry (`htTable_keeps_pairs_fails`).
-/

namespace Draugr
open Lib

/-- `ht_create` with its own allocations succeeding; `mem` are the outcomes of later ones. An
initial capacity whose block size overflows is left out: `ht_create` does not test for it. Other
than for `ht_bare_create`, a `max_probe_dist` of 0 stays 0 and means no limit. -/
def htCreate (cfg : HtConfig) (mem : List Bool) (fuel : ℕ) : Option (HtTable HtBare) :=
  let cap := nextPow2 (max cfg.initialCapacity 4)
  if cap > sizeMax / 12 then none
  else
    let b := emptyTable cfg cap (min cfg.maxProbeDist (2 ^ 16 - 1)) mem fuel
    some ⟨{ b with spillInBlock := true }, []⟩

/-- The call is safe: the index keeps its promise in it, a new entry gets a number below `VAL_NONE`,
and no table with an empty key is rebuilt. -/
def HtOp.keepsSafe (fns : HtFns) (t : HtTable HtBare) (op : HtOp) : Bool :=
  op.safe bareLaws fns (noEmptyKey bareIndex) t

/-- Lookup reports the pairs of the key that iteration reports. -/
def Reports (fns : HtFns) (t : HtTable HtBare) : Prop :=
  ∀ key, ¬ Laps t.bare (fns.hash key) →
    (htFindKeyAll bareIndex fns t key : Multiset (Bytes × Bytes)) =
        (htIterAll bareIndex t : Multiset (Bytes × Bytes)).filter
        (fun p => keyIs fns p.1 key = true) ∧
      ((htFind bareIndex fns t key).isSome ↔
        ∃ p ∈ htIterAll bareIndex t, keyIs fns p.1 key = true)

/-- A good table reports its pairs. -/
lemma Good.reports {fns : HtFns} {t : HtTable HtBare} (hG : Good bareLaws fns t) :
    Reports fns t := by
  intro key hlap
  have hfind : (htFindKeyAll bareIndex fns t key : Multiset (Bytes × Bytes)) =
      (htIterAll bareIndex t : Multiset (Bytes × Bytes)).filter fun p => keyIs fns p.1 key =
      true := by
    rw [htIterAll_eq hG.inv]
    exact htFindKeyAll_eq hG (by simpa [bareLaws] using hlap)
  refine ⟨hfind, ?_⟩
  have hmem : ∀ p, p ∈ htFindKeyAll bareIndex fns t key ↔
      p ∈ htIterAll bareIndex t ∧ keyIs fns p.1 key = true := by
    intro p
    rw [← Multiset.mem_coe, hfind, Multiset.mem_filter, Multiset.mem_coe]
  rw [htFind_eq, Option.isSome_map, List.isSome_head?]
  constructor
  · intro h
    obtain ⟨p, hp⟩ := List.exists_mem_of_ne_nil _ h
    exact ⟨p, (hmem p).mp hp⟩
  · rintro ⟨p, hp⟩
    exact List.ne_nil_of_mem ((hmem p).mpr hp)

/-- The table `ht_create` returns is good. -/
lemma htCreate_good (fns : HtFns) {cfg : HtConfig} {mem : List Bool} {fuel : ℕ}
    {t : HtTable HtBare} (h : htCreate cfg mem fuel = some t) : Good bareLaws fns t := by
  unfold htCreate at h
  simp only at h
  split at h
  · cases h
  · cases h
    have hzero := contents_fresh (t := { emptyTable cfg (nextPow2 (max cfg.initialCapacity 4))
      (min cfg.maxProbeDist (2 ^ 16 - 1)) mem fuel with spillInBlock := true }) rfl rfl rfl
    refine Good.of_empty ⟨⟨_, Sound.of_fresh (nextPow2_pos _) rfl rfl rfl⟩, ?_⟩ hzero
    exact (congrArg Multiset.card hzero).symm

/-- In a run of safe calls from `ht_create`, under any outcome of the allocations, every call
returns, and iteration and lookup report after it what they reported before, changed by what the
call itself adds, updates or removes. `ht_resize` and `ht_compact` change nothing. -/
theorem htTable_keeps_pairs (cfg : HtConfig) (fns : HtFns) (mem : List Bool) (fuel : ℕ)
    (t₀ : HtTable HtBare) (hc : htCreate cfg mem fuel = some t₀) (ops : List HtOp)
    (hs : safeHt bareLaws fns (noEmptyKey bareIndex) t₀ ops = true) :
    ∃ t, runHt bareIndex fns t₀ ops = some t ∧ Reports fns t ∧
      ∀ op : HtOp, op.keepsSafe fns t = true → ∃ r t', op.run bareIndex fns t = some (r, t') ∧
        Reports fns t' ∧ op.Own fns r (htIterAll bareIndex t) (htIterAll bareIndex t') := by
  obtain ⟨t, hrun, hG⟩ := runHt_good (htCreate_good fns hc) hs
  refine ⟨t, hrun, hG.reports, ?_⟩
  intro op hop
  obtain ⟨r, t', h1, h2, h3⟩ := HtOp.run_spec hG hop
  refine ⟨r, t', h1, h2.reports, ?_⟩
  rw [htIterAll_eq hG.inv, htIterAll_eq h2.inv]
  exact h3 fun _ h => h

/-- A table of 4 slots. -/
def smallCfg : HtConfig := ⟨4, 3 / 4, 1 / 5, 255⟩

/-- The empty table `ht_create` makes of it. -/
def smallTable : HtTable HtBare :=
  ⟨{ emptyTable smallCfg 4 255 [] 0 with spillInBlock := true }, []⟩

/-- A run with duplicates, an update and a removal; the fourth insertion grows the table. -/
def sampleRun : List HtOp :=
  [.insert (some [1]) (some [10]), .insert (some [2]) (some [20]), .insert (some [1]) (some [11]),
    .insert (some [3]) (some [30]), .upsert (some [1]) (some [12]), .remove (some [2])]

/-- The table after it. -/
def sampleTable : HtTable HtBare := (runHt bareIndex byteFns smallTable sampleRun).getD smallTable

/-- After the sample run a compaction keeps the two pairs. -/
theorem htTable_keeps_pairs_sample :
    safeHt bareLaws byteFns (noEmptyKey bareIndex) smallTable sampleRun = true ∧
      htIterAll bareIndex sampleTable = [([1], [12]), ([3], [30])] ∧
      ∃ r t', HtOp.compact.run bareIndex byteFns sampleTable = some (r, t') ∧
        (htIterAll bareIndex t' : Multiset (Bytes × Bytes)) = htIterAll bareIndex sampleTable := by
  have hsafe : safeHt bareLaws byteFns (noEmptyKey bareIndex) smallTable sampleRun = true := by
    decide +kernel
  refine ⟨hsafe, by decide +kernel, ?_⟩
  obtain ⟨t, hrun, -, hops⟩ :=
    htTable_keeps_pairs smallCfg byteFns [] 0 smallTable (by decide +kernel) sampleRun hsafe
  have ht : t = sampleTable := by
    unfold sampleTable
    rw [hrun]
    rfl
  subst ht
  obtain ⟨r, t', h1, -, h2⟩ := hops .compact (by decide +kernel)
  exact ⟨r, t', h1, h2⟩

/-- With an empty key in the table, a successful compaction loses the pair. -/
theorem htTable_keeps_pairs_fails :
    ∃ t t', runHt bareIndex byteFns smallTable [.insert (some []) (some [7])] = some t ∧
      HtOp.compact.run bareIndex byteFns t = some (.done true, t') ∧
      htIterAll bareIndex t = [([], [7])] ∧ htFind bareIndex byteFns t [] = some [7] ∧
      htIterAll bareIndex t' = [] ∧ htFind bareIndex byteFns t' [] = none := by
  set t := (runHt bareIndex byteFns smallTable [.insert (some []) (some [7])]).getD smallTable with
    ht
  set t' := ((HtOp.compact.run bareIndex byteFns t).getD (.done true, smallTable)).2 with ht'
  exact ⟨t, t', by decide +kernel, by decide +kernel, by decide +kernel, by decide +kernel,
    by decide +kernel, by decide +kernel⟩

end Draugr
