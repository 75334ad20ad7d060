import Draugr.Table.Blocks
import Draugr.Table.Preserve

/-!
# Clearing a table

`ht_clear` gives a consistent layout if and only if the spill lane is in the table block: otherwise
it computes `spill_vals` with the old `spill_cap`, and the values of the lane lie in the entry
array. When the layout is consistent, the cleared table answers every later sequence of calls as a
fresh table of its capacity does.
-/

namespace Draugr
open Lib

/-- What can be asked of a table. -/
structure SameAnswers (fns : HtFns) (t u : HtTable LaidBare) : Prop where
  find : ∀ key, htFind laidIndex fns t key = htFind laidIndex fns u key
  findKeyAll : ∀ key, htFindKeyAll laidIndex fns t key = htFindKeyAll laidIndex fns u key
  iter : htIterAll laidIndex t = htIterAll laidIndex u
  size : htSize laidIndex t = htSize laidIndex u

/-- The configuration of the tables that `ht_create` makes. -/
def configOf (cfg : HtConfig) (fuel : ℕ) : HtBare :=
  (emptyTable cfg 0 (min cfg.maxProbeDist (2 ^ 16 - 1)) [] fuel).config

variable {fns : HtFns} {cfg : HtConfig} {mem grown : List Bool} {fuel n c : ℕ}
  {t u : HtTable LaidBare} {calm : Prop}
  {l : LaidBare}

/-- Without its layout, `ht_create` is that of the table model. -/
lemma htCreateLaid_bare (b : HtBare) (cfg : HtConfig) (mem grown : List Bool) (fuel : ℕ) :
    (htCreateLaid cfg mem grown fuel).map (laidBare b False).table = htCreate cfg mem fuel := by
  unfold htCreateLaid htCreate
  dsimp only
  split <;> rfl

/-- A table that was just created. -/
lemma freshLaid_fits (hc : ∃ k, c = 2 ^ k) (heven : c % 2 = 0) :
    LaidFits (configOf cfg fuel) (mem = []) (false, none) 0
      (freshLaid cfg c mem grown fuel).bare where
  books := ⟨0, Books.of_fresh hc rfl rfl rfl rfl rfl⟩
  size := le_rfl
  few := Nat.zero_le _
  spillCap_ge := le_rfl
  spillCap_le := (by decide : spillInitial ≤ 2 * valNone)
  own := fun _ h => nomatch h
  config := rfl
  calm := id
  laid := laid_create
    (b := (freshLaid cfg c mem grown fuel).bare.bare) List.length_replicate heven rfl rfl

/-- What `ht_create` gives. -/
lemma htCreateLaid_eq (hc : htCreateLaid cfg mem grown fuel = some t) :
    t = freshLaid cfg t.bare.bare.capacity mem grown fuel ∧
      LaidFits (configOf cfg fuel) (mem = []) (false, none) t.entries.length t.bare := by
  unfold htCreateLaid at hc
  dsimp only at hc
  split at hc
  · cases hc
  rename_i hsize
  cases hc
  have hcap :
    (freshLaid cfg (nextPow2 (max cfg.initialCapacity 4)) mem grown fuel).bare.bare.capacity =
      nextPow2 (max cfg.initialCapacity 4) := List.length_replicate
  obtain ⟨k, hk⟩ := nextPow2_pow2 (not_lt.mp hsize)
  have h4 : 4 ≤ 2 ^ k := hk ▸ (le_max_right _ 4).trans (le_nextPow2 _)
  have heven : nextPow2 (max cfg.initialCapacity 4) % 2 = 0 := by
    rw [hk]
    cases k with
    | zero => omega
    | succ k => rw [Nat.pow_succ, Nat.mul_mod_left]
  exact ⟨by rw [hcap], freshLaid_fits ⟨k, hk⟩ heven⟩

/-- From here on all allocations succeed. -/
lemma LaidFits.calm_of (hF : LaidFits (configOf cfg fuel) calm (false, none) n l)
    (hmem : l.bare.mem = []) :
    LaidFits (configOf cfg fuel) True (false, none) n l :=
  ⟨hF.books, hF.size, hF.few, hF.spillCap_ge, hF.spillCap_le, hF.own, hF.config, fun _ => hmem,
    hF.laid⟩

/-- A cleared index and a fresh one differ in the layout only. -/
lemma LaidFits.plain_clear (hF : LaidFits (configOf cfg fuel) calm (false, none) n l)
    (hin : l.bare.spillInBlock = true) (hmem : l.bare.mem = []) {i : ℕ} :
    l.clear.bare.plain =
      (freshLaid { cfg with initialCapacity := i } l.bare.capacity [] [] fuel).bare.bare.plain := by
  have hbare : l.clear.bare = htBareClear l.bare := if_pos hin
  have hconfig := hF.config
  simp only [HtBare.config, configOf, emptyTable, HtBare.mk.injEq, true_and] at hconfig
  obtain ⟨hres, hmax, hmin, hprobe, hfuel⟩ := hconfig
  rw [hbare]
  simp only [HtBare.plain, dress, htBareClear, freshLaid, emptyTable, hres, hmax, hmin, hprobe,
    hfuel, hmem]

/-- Tables that differ in the layout only answer alike. -/
lemma sameAnswers_of_plain {b : HtBare} (h : (laidPlain b).table t = (laidPlain b).table u) :
    SameAnswers fns t u := by
  obtain ⟨hbare, hentries⟩ := HtTable.mk.inj h
  change t.bare.bare.plain = u.bare.bare.plain at hbare
  have hplain := hbare
  have hfind :
      ∀ hash, htBareFindAll t.bare.bare hash = htBareFindAll u.bare.bare hash := fun hash => by
    have h1 := htBareFindAll_dress t.bare.bare hash 0 spillInitial true
    have h2 := htBareFindAll_dress u.bare.bare hash 0 spillInitial true
    rw [← h1, ← h2]
    exact congrArg (htBareFindAll · hash) hplain
  simp only [HtBare.plain, dress, HtBare.mk.injEq, true_and] at hbare
  obtain ⟨hmain, hsize, hspill, hover, -⟩ := hbare
  have hentry : t.entry = u.entry := by
    funext i
    unfold HtTable.entry
    rw [hentries]
  have hkeys : ∀ i hi key, keysMatch fns t i hi key = keysMatch fns u i hi key := fun i hi key => by
    unfold keysMatch
    rw [hentry]
  constructor
  · intro key
    unfold htFind
    simp only [laidIndex, hfind, hkeys, hentry]
  · intro key
    unfold htFindKeyAll
    simp only [laidIndex, hfind, hkeys, hentry]
  · unfold htIterAll
    simp only [laidIndex, hmain, hspill, hover, hentry]
  · exact hsize

/-- In every run from `ht_create` whose calls of `ht_clear` find the spill lane in the table block,
the layout after a further `ht_clear` is consistent if and only if the lane is there once more. It
then answers all later calls as a fresh table of its capacity, when the allocations succeed. -/
theorem clear_consistent_iff (fns : HtFns) (cfg : HtConfig) (mem grown : List Bool) (fuel : ℕ)
    (t₀ t : HtTable LaidBare)
    (ops : List HtOp) (replies : List HtReply) (hc : htCreateLaid cfg mem grown fuel = some t₀)
    (hgentle : gentleRun laidIndex fns (fun l => l.bare.spillInBlock) t₀ ops = true)
    (hrun : runReplies laidIndex fns t₀ ops = some (replies, t)) :
    ((htClear laidIndex t).bare.Consistent ↔ t.bare.bare.spillInBlock = true) ∧
    (t.bare.bare.spillInBlock = true → t.bare.bare.mem = [] →
      ∀ t₁, htCreateLaid { cfg with initialCapacity := t.bare.bare.capacity } [] [] fuel = some t₁ →
        t₁.bare.bare.capacity = t.bare.bare.capacity →
        ∀ later, gentleRun laidIndex fns (fun l => l.bare.spillInBlock)
        (htClear laidIndex t) later = true →
          gentleRun laidIndex fns (fun l => l.bare.spillInBlock) t₁ later = true →
          ∀ rs u, runReplies laidIndex fns (htClear laidIndex t) later = some (rs, u) →
            ∃ u₁, runReplies laidIndex fns t₁ later = some (rs, u₁) ∧ SameAnswers fns u u₁) := by
  obtain ⟨-, hfit₀⟩ := htCreateLaid_eq hc
  obtain ⟨-, hfits⟩ :=
    runReplies_map fns (M := laidBare (configOf cfg fuel) (mem = [])) hfit₀ hgentle
  have hfit : LaidFits (configOf cfg fuel) (mem = []) (false, none) t.entries.length t.bare :=
    hfits replies t hrun
  refine ⟨⟨fun hC => ?_, fun hin => (hfit.laid.clear hin).consistent⟩, ?_⟩
  · by_contra hout
    have hout' := Bool.eq_false_iff.mpr hout
    exact clear_not_consistent hout' (hfit.own rfl hout') hC
  intro hin hmem t₁ hc₁ hcap later hg hg₁ rs u hlater
  obtain ⟨heq₁, hfit₁⟩ := htCreateLaid_eq hc₁
  have hclear := (hfit.calm_of hmem).clear hin
  have hsame : (laidPlain (configOf cfg fuel)).table (htClear laidIndex t) =
      (laidPlain (configOf cfg fuel)).table t₁ := by
    rw [hcap] at heq₁
    rw [heq₁]
    exact congrArg (fun b => (⟨b, []⟩ : HtTable HtBare)) (hfit.plain_clear hin hmem)
  obtain ⟨hmap, -⟩ :=
    runReplies_map fns (M := laidPlain (configOf cfg fuel)) (t := htClear laidIndex t) hclear hg
  have hfit₁' : LaidFits (configOf cfg fuel) True (false, none) t₁.entries.length t₁.bare :=
    ⟨hfit₁.books, hfit₁.size, hfit₁.few, hfit₁.spillCap_ge, hfit₁.spillCap_le, hfit₁.own,
      hfit₁.config, fun _ => hfit₁.calm rfl, hfit₁.laid⟩
  obtain ⟨hmap₁, -⟩ := runReplies_map fns (M := laidPlain (configOf cfg fuel)) hfit₁' hg₁
  rw [hsame, hmap₁, hlater] at hmap
  cases hr : runReplies laidIndex fns t₁ later with
  | none =>
    rw [hr] at hmap
    cases hmap
  | some x =>
    rw [hr] at hmap
    obtain ⟨hrs, htab⟩ := Prod.mk.inj (Option.some.inj hmap)
    refine ⟨x.2, ?_, sameAnswers_of_plain htab.symm⟩
    rw [show rs = x.1 from hrs.symm]

/-- A hash function that is 0, with `memcmp` as equality. -/
def zeroFns : HtFns := ⟨fun _ => 0, fun a b => a == b⟩

/-- A run on four slots that ends with a test of the spill lane. -/
def fourSlotRun (ops : List HtOp) (inBlock : Bool) : Bool :=
  (htCreateLaid ⟨4, 3 / 4, 1 / 5, 255⟩ [] [] 0).any fun t₀ =>
    gentleRun laidIndex zeroFns (fun l => l.bare.spillInBlock) t₀ ops &&
      (runReplies laidIndex zeroFns t₀ ops).any fun x => x.2.bare.bare.spillInBlock == inBlock

/-- A run that passes its test, with its table and its replies. -/
lemma fourSlotRun_eq {ops : List HtOp} {s : Bool} (h : fourSlotRun ops s = true) :
    ∃ t₀ t rs, htCreateLaid ⟨4, 3 / 4, 1 / 5, 255⟩ [] [] 0 = some t₀ ∧
      gentleRun laidIndex zeroFns (fun l => l.bare.spillInBlock) t₀ ops = true ∧
      runReplies laidIndex zeroFns t₀ ops = some (rs, t) ∧ t.bare.bare.spillInBlock = s := by
  obtain ⟨t₀, hc, h⟩ := (Option.any_eq_true ..).mp h
  obtain ⟨hg, h⟩ := Bool.and_eq_true_iff.mp h
  obtain ⟨x, hr, h⟩ := (Option.any_eq_true ..).mp h
  exact ⟨t₀, x.2, x.1, hc, hg, hr, beq_iff_eq.mp h⟩

/-- Two entries in the spill lane. -/
theorem clear_consistent_iff_two :
    ∃ t₀ t rs, htCreateLaid ⟨4, 3 / 4, 1 / 5, 255⟩ [] [] 0 = some t₀ ∧
    runReplies laidIndex zeroFns t₀ [.insert (some [1]) (some [2]), .insert (some [3]) none] =
    some (rs, t) ∧
    (htClear laidIndex t).bare.Consistent := by
  obtain ⟨t₀, t, rs, hc, hg, hr, hin⟩ := (fourSlotRun_eq
    (by decide +kernel :
      fourSlotRun [.insert (some [1]) (some [2]), .insert (some [3]) none] true = true))
  exact ⟨t₀, t, rs, hc, hr, (clear_consistent_iff zeroFns _ _ _ _ t₀ t _ rs hc hg hr).1.mpr hin⟩

/-- Nine entries in the spill lane: the lane moves to a block of its own, and `ht_clear` computes
`spill_vals` with its capacity there. -/
theorem clear_consistent_fails : ∃ t₀ t rs, htCreateLaid ⟨4, 3 / 4, 1 / 5, 255⟩ [] [] 0 = some t₀ ∧
    runReplies laidIndex zeroFns t₀ (List.replicate 9 (.insert (some [1]) none)) = some (rs, t) ∧
    ¬ (htClear laidIndex t).bare.Consistent := by
  obtain ⟨t₀, t, rs, hc, hg, hr, hout⟩ := (fourSlotRun_eq
    (by decide +kernel : fourSlotRun (List.replicate 9 (.insert (some [1]) none)) false = true))
  obtain ⟨-, hfit₀⟩ := htCreateLaid_eq hc
  obtain ⟨-, hfits⟩ :=
    runReplies_map zeroFns (M := laidBare (configOf ⟨4, 3 / 4, 1 / 5, 255⟩ 0) ([] = [])) hfit₀ hg
  have hfit : LaidFits _ _ (false, none) t.entries.length t.bare := hfits rs t hr
  exact ⟨t₀, t, rs, hc, hr, clear_not_consistent hout (hfit.own rfl hout)⟩

end Draugr
