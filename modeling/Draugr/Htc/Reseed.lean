import Mathlib.Data.Nat.Bitwise
import Mathlib.Data.Nat.ModEq
import Draugr.Htc.Loss

/-!
# Growing with a new seed

A reseeding grow places the words of the buckets by the new seed, but it leaves `placement_hash` in
the records and the words of the shard stashes as they were. Since `htc_seed` never returns a value
twice and `htc_mix64` is injective, the placement hash of every live record is stale afterwards: on
the tables that the calls reach, the grow does what it is meant to do exactly when there is no
entry.
-/

namespace Draugr.Htc
open Draugr.Lib

/-! ## The mixer is injective -/

/-- A word is determined by its exclusive or with its own shift. -/
lemma xorShift_inj {k x y : ℕ} (hk : 0 < k) (h : x ^^^ (x >>> k) = y ^^^ (y >>> k)) : x = y := by
  -- the difference is its own shift, so it is zero
  have hd : x ^^^ y = (x ^^^ y) >>> k := by
    rw [Nat.shiftRight_xor_distrib]
    calc x ^^^ y = x ^^^ (x >>> k) ^^^ (x >>> k) ^^^ y := by rw [Nat.xor_xor_cancel_right]
      _ = y ^^^ (y >>> k) ^^^ (x >>> k) ^^^ y := by rw [h]
      _ = x >>> k ^^^ y >>> k := by
        rw [Nat.xor_comm _ y, Nat.xor_assoc y, Nat.xor_xor_cancel_left, Nat.xor_comm]
  rw [← Nat.xor_eq_zero_iff]
  by_contra hne
  have hlt : (x ^^^ y) >>> k < x ^^^ y := by
    rw [Nat.shiftRight_eq_div_pow]
    exact Nat.div_lt_self (Nat.pos_of_ne_zero hne) (Nat.one_lt_two_pow hk.ne')
  exact absurd hd hlt.ne'

/-- A word is determined by its product with an odd number. -/
lemma mulMod_inj {n m x y : ℕ} (hm : Nat.Coprime n m) (hx : x < n) (hy : y < n)
    (h : x * m % n = y * m % n) :
    x = y :=
  (Nat.ModEq.cancel_right_of_coprime hm h).eq_of_lt_of_lt hx hy

/-- The exclusive or of a word with its own shift is a word. -/
lemma xorShift_lt {x : ℕ} (k : ℕ) (hx : x < 2 ^ 64) : x ^^^ (x >>> k) < 2 ^ 64 :=
  Nat.xor_lt_two_pow hx ((Nat.shiftRight_le x k).trans_lt hx)

/-- `htc_mix64` returns a word. -/
lemma mix64_lt (x : ℕ) : mix64 x < 2 ^ 64 := xorShift_lt 31 (Nat.mod_lt _ (by norm_num))

/-- `htc_mix64` is injective. -/
lemma mix64_inj {x y : ℕ} (hx : x < 2 ^ 64) (hy : y < 2 ^ 64) (h : mix64 x = mix64 y) : x = y := by
  have h₁ := xorShift_inj (by norm_num) h
  have h₂ := mulMod_inj (by norm_num) (xorShift_lt 27 (Nat.mod_lt _ (by norm_num)))
    (xorShift_lt 27 (Nat.mod_lt _ (by norm_num))) h₁
  have h₃ := xorShift_inj (by norm_num) h₂
  have h₄ := mulMod_inj (by norm_num) (xorShift_lt 30 hx) (xorShift_lt 30 hy) h₃
  exact xorShift_inj (by norm_num) h₄

/-- `htc_seed` never returns a value twice before its counter wraps. -/
lemma htcSeed_inj {j k : ℕ} (hj : j < 2 ^ 64) (hk : k < 2 ^ 64) (h : htcSeed j = htcSeed k) :
    j = k :=
  mulMod_inj (by norm_num) hj hk
    (mix64_inj (Nat.mod_lt _ (by norm_num)) (Nat.mod_lt _ (by norm_num)) h)

/-- Different seeds give a key different placement hashes. -/
lemma placementHash_seed_inj {h s s' : ℕ} (hh : h < 2 ^ 64) (hs : s < 2 ^ 64) (hs' : s' < 2 ^ 64)
    (he : placementHash h s = placementHash h s') : s = s' :=
  Nat.xor_right_injective (mix64_inj (Nat.xor_lt_two_pow hh hs) (Nat.xor_lt_two_pow hh hs') he)

/-! ## A reseeding grow -/

/-- The records carry the placement hash of the current seed. -/
def Rekeyed (t : Table) : Prop :=
  ∀ p w, t.wordAt p = some w →
    (t.recs w.idx).placementHash = placementHash (t.recs w.idx).identityHash t.gen.seed

/-- A reseeding grow keeps every answer and leaves every live record keyed by the new seed. -/
def ReseedOk (t : Table) : Prop :=
  (∀ h want, findReply h want (htcGrow true t).2 = findReply h want t) ∧ Rekeyed (htcGrow true t).2

variable {t t' : Table} {h : ℕ}

/-- What a successful reseeding grow leaves of a table. -/
structure Reseeded (t t' : Table) : Prop where
  seed : t'.gen.seed = htcSeed t.seedCtr
  recs : t'.recs = t.recs
  live : t'.live = (t.emptied (t.gen.numBuckets * 2) (htcSeed t.seedCtr)).live ∪
    {j | j ∈ t.gen.words.map Word.idx}

/-- A grow that succeeds. -/
lemma Grown.reseeded {e : HtcError} (hg : Grown true t e t') (hs : Stored t.toCore) (he : e = .ok) :
    Reseeded t t' := by
  rcases hg.core with ⟨-, -, g, s, hr, hc⟩ | ⟨he', -⟩
  · have hre := (hs.emptied (t.gen.numBuckets * 2) (growSeed true t)).rehash (hs.remaining _ _) hr
    have hseed : g.seed = growSeed true t := hre.frame.seed
    have hgen : t'.gen = g := congrArg Core.gen hc
    have hnew : growSeed true t = htcSeed t.seedCtr := if_pos rfl
    refine ⟨?_, ?_, ?_⟩
    · rw [hgen, hseed, hnew]
    · rw [hc]
    · rw [← hnew, hc]
      exact hre.live
  · rw [he] at he'
    cases he'

/-- The live records after a reseeding grow were live before. -/
lemma Reseeded.live_subset (hr : Reseeded t t') : t'.live ⊆ t.live := by
  rw [hr.live]
  rintro j (hj | hj)
  · exact emptied_live_subset _ _ hj
  · obtain ⟨w, hw, rfl⟩ := List.mem_map.mp hj
    obtain ⟨b, i, -, -, hw⟩ := mem_words.mp hw
    exact mem_live (p := .slot (b, i)) hw

/-- A live record cannot be keyed by the new seed. -/
lemma Sound.live_empty_of_rekeyed (hs : Sound t) (hctr : t.seedCtr < 2 ^ 64) (hr : Reseeded t t')
    (hk : Rekeyed t') :
    t'.live = ∅ := by
  rw [Set.eq_empty_iff_forall_notMem]
  rintro i ⟨p, w, hw, rfl⟩
  have hl : w.idx ∈ t.live := hr.live_subset (mem_live hw)
  have hnew := hk p w hw
  rw [hr.recs, hs.settled.keyed _ hl, hr.seed] at hnew
  obtain ⟨k, hlt, hseed⟩ := hs.seed
  have he : t.gen.seed = htcSeed t.seedCtr := by
    refine placementHash_seed_inj (hs.keys _ hl) ?_ (mix64_lt _) hnew
    rw [hseed]
    exact mix64_lt _
  rw [hseed] at he
  exact hlt.ne (htcSeed_inj (hlt.trans hctr) hctr he)

/-- A reseeding grow that does what it is meant to do found no entry. -/
lemma Sound.no_word_of_reseedOk (hs : Sound t) (hctr : t.seedCtr < 2 ^ 64)
    (hok : (htcGrow true t).1 = .ok) (hr : ReseedOk t) (p : Place) : t.wordAt p = none := by
  have hre := (htcGrow_grown true t).reseeded hs.settled.toStored hok
  have hl := hs.live_empty_of_rekeyed hctr hre hr.2
  rw [Option.eq_none_iff_forall_ne_some]
  intro w hw
  have hnot : w.idx ∉ (htcGrow true t).2.live := by
    rw [hl]
    exact Set.notMem_empty _
  rw [hre.live] at hnot
  cases p with
  | slot x =>
    refine hnot
      (.inr (List.mem_map_of_mem
        (mem_words.mpr ⟨x.1, x.2, ?_, (hs.settled.seat (.slot x) w hw).1, hw⟩)))
    exact hs.settled.placed.slot_lt hs.buckets hw
  | shard s j => exact hnot (.inl ⟨.shard s j, w, hw, rfl⟩)
  | global j =>
    -- the entry is dropped, which a `htc_find` that does not ask for the value notices
    have hp : ¬ t.Absent (t.keyOf w.idx) := fun ha => ha _ (mem_live hw) rfl
    have hf := hr.1 (t.keyOf w.idx) false
    have hbefore : (findReply (t.keyOf w.idx) false t).1 = .ok := by
      rcases hs.findReply_eq (h := t.keyOf w.idx) false with ⟨u, he, -⟩ | ⟨-, ha⟩
      · rw [he]
      · exact absurd ha hp
    have habs : (htcGrow true t).2.Absent (t.keyOf w.idx) := by
      intro i hi
      rw [hl] at hi
      exact hi.elim
    have hafter : (findReply (t.keyOf w.idx) false (htcGrow true t).2).1 = .notFound := by
      rw [findReply, htcFind, Bool.false_and, if_neg Bool.false_ne_true]
      dsimp only
      rw [findTable, habs.search]
    rw [hf, hbefore] at hafter
    cases hafter

/-- A reseeding grow of a table without entries. -/
lemma Sound.reseedOk_of_no_word (hs : Sound t) (hn : ∀ p, t.wordAt p = none) : ReseedOk t := by
  have hl : t.live = ∅ := by
    rw [Set.eq_empty_iff_forall_notMem]
    rintro i ⟨p, w, hw, -⟩
    rw [hn] at hw
    cases hw
  have hsafe : GrowSafe true t.toCore := by
    refine ⟨fun i => hn (.global i), fun s i w hw => ?_, fun _ => hl⟩
    rw [show (t.shards s).slots i = none from hn (.shard s i)] at hw
    cases hw
  obtain ⟨hs', hsame⟩ := hs.grown (htcGrow_grown true t) hsafe
  exact ⟨hs.findReply_same hs' hsame, fun p w hw => hs'.settled.keyed _ (mem_live hw)⟩

/-- In the states that runs reach whose calls all meet their conditions, a successful reseeding grow
does what it is meant to do exactly when the table has no entry. -/
theorem reseed_ok_iff_no_word (cfg : Option HtcConfig) (seedCtr : ℕ) (mem : List Bool)
    (ops : List HtcOp) (t : Table) (hsafe : SafeRun ops (htcCreate cfg seedCtr mem))
    (hrun : runOps ops (htcCreate cfg seedCtr mem) = some t) (hok : (htcGrow true t).1 = .ok) :
    ((∀ p, t.wordAt p = none) → ReseedOk t) ∧
      (t.seedCtr < 2 ^ 64 → ReseedOk t → ∀ p, t.wordAt p = none) := by
  obtain ⟨t₁, hrun₁, hs⟩ := (htcCreate_sound cfg seedCtr mem).run hsafe
  rw [hrun] at hrun₁
  cases hrun₁
  exact ⟨hs.reseedOk_of_no_word, fun hctr hr => hs.no_word_of_reseedOk hctr hok hr⟩

/-- A sound table of size `0` has no word. -/
lemma Sound.no_word (hs : Sound t) (h0 : t.size = 0) (p : Place) : t.wordAt p = none := by
  have hlive : t.live = ∅ := by
    rw [← Set.encard_eq_zero, ← hs.size, h0, Nat.cast_zero]
  cases hw : t.wordAt p with
  | none => rfl
  | some w => exact absurd (mem_live hw) (by rw [hlive]; exact Set.notMem_empty _)

/-- The keys of a crowded table, that in the stash included, are all removed before the grow. -/
theorem reseed_ok_emptied :
    ∃ t, runOps
      (crowdedOps ++ [278, 295, 1568, 1717, 2647, 2787, 2844, 2889, 2274, 1, 23, 40].map .remove)
        crowdedNew =
      some t ∧ (htcGrow true t).1 = .ok ∧ ReseedOk t := by
  have hcomp :
    (runOps (crowdedOps ++ [278, 295, 1568, 1717, 2647, 2787, 2844, 2889, 2274, 1, 23,
      40].map .remove)
      crowdedNew).map (fun t => (t.size, (htcGrow true t).1)) = some (0, .ok) := by decide +kernel
  obtain ⟨t, ht, hcomp⟩ := Option.map_eq_some_iff.mp hcomp
  obtain ⟨h0, hok⟩ := Prod.mk.inj hcomp
  have hs := htcCreate_sound (some ⟨16, 1, 4, false⟩) 0 []
  have hsafe :
    SafeRun (crowdedOps ++ [278, 295, 1568, 1717, 2647, 2787, 2844, 2889, 2274, 1, 23,
      40].map .remove)
      crowdedNew := .of_calm hs (by decide +kernel)
  obtain ⟨t₁, ht₁, hs₁⟩ := hs.run hsafe
  obtain rfl := Option.some.inj (ht.symm.trans ht₁)
  exact ⟨t, ht, hok, (reseed_ok_iff_no_word _ _ _ _ t hsafe ht hok).1 (hs₁.no_word h0)⟩

/-- The key in the stash is lost by a reseeding grow. -/
theorem reseed_loses_key :
    (runOps ([278, 295, 1568, 1717, 2647, 2787, 2844, 2889, 2274].map (HtcOp.insert · 1))
        (htcCreate (some ⟨16, 1, 4, false⟩) 0 [])).map
      (fun t => ((findReply 2274 true t).1, (htcGrow true t).1,
        (findReply 2274 true (htcGrow true t).2).1)) =
    some (.ok, .ok, .notFound) := by
  decide +kernel

end Draugr.Htc
