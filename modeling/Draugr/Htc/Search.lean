import Draugr.Htc.Displace

/-!
# Searching

The search of the calls and the slow search of `htc_debug_slow_find` return a word of the key,
whatever the table. Where the words are placed both find a word of a key that has one: no control
byte, remap hint or stash count hides it.
-/

namespace Draugr.Htc
open Draugr.Lib

variable {c : Core} {p q : Place} {w v : Word} {h i tag : ℕ}

/-- What a scan asks of a word. -/
lemma isFor_iff {recs : ℕ → HtcRecord} :
    w.isFor recs h tag = true ↔ w.tag = tag ∧ (recs w.idx).identityHash = h ∧
      (recs w.idx).flags = 0 := by
  simp only [Word.isFor, Bool.and_eq_true, beq_iff_eq, and_assoc]

/-- The word of a key passes the check of a scan. -/
lemma Placed.isFor (hs : Placed c) (hp : c.wordAt p = some w) :
    w.isFor c.recs (c.keyOf w.idx) (tag16 (c.hashOf w.idx)) = true :=
  isFor_iff.mpr ⟨hs.tag p w hp, rfl, hs.flags _ (mem_live hp)⟩

/-- A key has one word. -/
lemma Settled.unique (hs : Settled c) (hp : c.wordAt p = some w) (hq : c.wordAt q = some v)
    (hk : c.keyOf w.idx = c.keyOf v.idx) : p = q :=
  hs.separate p q w v hp hq (hs.keys (mem_live hp) (mem_live hq) hk)

/-! ## Scans without hints, and stashes -/

/-- What a slow scan finds. -/
lemma slowScan_some {n : ℕ} {slots : ℕ → Option Word} {ok : Word → Bool}
    (hf : slowScan n slots ok = some i) :
    ∃ w, i < n ∧ slots i = some w ∧ ok w = true := by
  have hm := List.mem_of_find?_eq_some hf
  have hp := List.find?_some hf
  obtain ⟨w, hw, hq⟩ := Option.any_eq_true _ _ |>.mp hp
  exact ⟨w, List.mem_range.mp hm, hw, hq⟩

/-- What a slow scan misses. -/
lemma slowScan_none {n : ℕ} {slots : ℕ → Option Word} {ok : Word → Bool}
    (hf : slowScan n slots ok = none) (hi : i < n) (hw : slots i = some w) : ok w = false := by
  have hn := List.find?_eq_none.mp hf i (List.mem_range.mpr hi)
  rw [hw, Option.any_some, Bool.not_eq_true] at hn
  exact hn

/-- What a stash search finds. -/
lemma htcStashFind_some {s : Stash} (hf : htcStashFind s c.recs h tag = some i) :
    ∃ w, i < stashMax ∧ s.slots i = some w ∧ w.isFor c.recs h tag = true := by
  rw [htcStashFind] at hf
  split at hf
  · cases hf
  · exact slowScan_some hf

/-- What a stash search misses. -/
lemma htcStashFind_none {s : Stash} (hs : s.Counted) (hf : htcStashFind s c.recs h tag = none)
    (hi : i < stashMax) (hw : s.slots i = some w) : w.isFor c.recs h tag = false := by
  rw [htcStashFind, if_neg (hs.ne_zero hw)] at hf
  exact slowScan_none hf hi hw

/-! ## The search of the calls -/

/-- The four places of the search, each with what makes the search stop there. -/
lemma htcSearch_cases (c : Core) (h : ℕ) (all : Bool) :
    (∃ i, htcSearch c h all = some (.slot (c.gen.primary (placementHash h c.gen.seed), i)) ∧
      htcBucketScan c.gen c.recs (c.gen.primary (placementHash h c.gen.seed)) h
        (tag16 (placementHash h c.gen.seed)) false = some i) ∨
    (∃ i, htcSearch c h all = some (.slot (c.gen.secondary (placementHash h c.gen.seed), i)) ∧
      htcBucketScan c.gen c.recs (c.gen.secondary (placementHash h c.gen.seed)) h
        (tag16 (placementHash h c.gen.seed)) true = some i) ∨
    (∃ i, htcSearch c h all = some (.shard (c.shardAt (placementHash h c.gen.seed)) i) ∧
      htcStashFind (c.shards (c.shardAt (placementHash h c.gen.seed))) c.recs h
        (tag16 (placementHash h c.gen.seed)) = some i) ∨
    (∃ i, htcSearch c h all = some (.global i) ∧ all = true ∧
      htcStashFind c.stash c.recs h (tag16 (placementHash h c.gen.seed)) = some i) ∨
    htcSearch c h all = none ∧
      htcBucketScan c.gen c.recs (c.gen.primary (placementHash h c.gen.seed)) h
        (tag16 (placementHash h c.gen.seed)) false = none ∧
      (c.gen.mustCheckSecondary (c.gen.primary (placementHash h c.gen.seed))
          (tag16 (placementHash h c.gen.seed)) = true →
        htcBucketScan c.gen c.recs (c.gen.secondary (placementHash h c.gen.seed)) h
          (tag16 (placementHash h c.gen.seed)) true = none) ∧
      htcStashFind (c.shards (c.shardAt (placementHash h c.gen.seed))) c.recs h
        (tag16 (placementHash h c.gen.seed)) = none ∧
      (all = true → htcStashFind c.stash c.recs h (tag16 (placementHash h c.gen.seed)) = none) := by
  simp only [htcSearch]
  split
  · next i hi => exact .inl ⟨i, rfl, hi⟩
  · next hp =>
    split
    · next i hi =>
      split at hi
      · exact .inr (.inl ⟨i, rfl, hi⟩)
      · cases hi
    · next hsec =>
      have hsec' : c.gen.mustCheckSecondary (c.gen.primary (placementHash h c.gen.seed))
          (tag16 (placementHash h c.gen.seed)) = true →
          htcBucketScan c.gen c.recs (c.gen.secondary (placementHash h c.gen.seed)) h
            (tag16 (placementHash h c.gen.seed)) true = none := by
        intro hm
        rw [if_pos hm] at hsec
        exact hsec
      split
      · next i hi => exact .inr (.inr (.inl ⟨i, rfl, hi⟩))
      · next hsh =>
        cases all with
        | false => exact .inr (.inr (.inr (.inr ⟨rfl, hp, hsec', hsh, fun hf => by cases hf⟩)))
        | true =>
          cases hg : htcStashFind c.stash c.recs h (tag16 (placementHash h c.gen.seed)) with
          | none => exact .inr (.inr (.inr (.inr ⟨rfl, hp, hsec', hsh, fun _ => rfl⟩)))
          | some i => exact .inr (.inr (.inr (.inl ⟨i, rfl, rfl, rfl⟩)))

/-- A search that hits returns a word of the key. -/
lemma htcSearch_sound {all : Bool} (hf : htcSearch c h all = some p) :
    ∃ w, c.wordAt p = some w ∧ w.isFor c.recs h (tag16 (placementHash h c.gen.seed)) = true := by
  rcases htcSearch_cases c h all with
    ⟨i, he, hs⟩ | ⟨i, he, hs⟩ | ⟨i, he, hs⟩ | ⟨i, he, -, hs⟩ | ⟨he, -⟩
  · rw [hf] at he
    cases he
    obtain ⟨w, -, hw, -, hq⟩ := htcBucketScan_some hs
    exact ⟨w, hw, hq⟩
  · rw [hf] at he
    cases he
    obtain ⟨w, -, hw, -, hq⟩ := htcBucketScan_some hs
    exact ⟨w, hw, hq⟩
  · rw [hf] at he
    cases he
    obtain ⟨w, -, hw, hq⟩ := htcStashFind_some hs
    exact ⟨w, hw, hq⟩
  · rw [hf] at he
    cases he
    obtain ⟨w, -, hw, hq⟩ := htcStashFind_some hs
    exact ⟨w, hw, hq⟩
  · rw [hf] at he
    cases he

/-- The key of a word that a search returns. -/
lemma htcSearch_key {all : Bool} (hf : htcSearch c h all = some p) :
    ∃ w, c.wordAt p = some w ∧ c.keyOf w.idx = h := by
  obtain ⟨w, hw, hq⟩ := htcSearch_sound hf
  exact ⟨w, hw, (isFor_iff.mp hq).2.1⟩

/-- Where words are placed a search without the global stash misses words of the global stash
only. -/
lemma Placed.search_none {all : Bool} (hs : Placed c) (hf : htcSearch c h all = none)
    (hp : c.wordAt p = some w) (hk : c.keyOf w.idx = h) : all = false ∧ ∃ i, p = .global i := by
  have hq : w.isFor c.recs h (tag16 (placementHash h c.gen.seed)) = true := by
    have hi := hs.isFor hp
    rw [Core.hashOf, hk] at hi
    exact hi
  have hseat := hs.seat p w hp
  rw [Core.hashOf, hk] at hseat
  rcases htcSearch_cases c h all with ⟨i, he, -⟩ | ⟨i, he, -⟩ | ⟨i, he, -⟩ | ⟨i, he, -⟩ |
    ⟨-, h1, h2, h3, h4⟩
  · rw [hf] at he
    cases he
  · rw [hf] at he
    cases he
  · rw [hf] at he
    cases he
  · rw [hf] at he
    cases he
  · cases p with
    | slot x =>
      obtain ⟨hlt, hx⟩ := hseat
      have hmiss : w.isFor c.recs h (tag16 (placementHash h c.gen.seed)) = false := by
        cases hsec : w.inSec with
        | true =>
          rw [if_pos hsec] at hx
          have hm := hs.hinted.mustCheckSecondary (x := x) hp hsec
          rw [hs.tag _ w hp, Core.hashOf, hk] at hm
          refine htcBucketScan_none hs.hinted.ctrl (h2 hm) hlt ?_ hsec
          rw [← hx.1]
          exact hp
        | false =>
          rw [if_neg (by rw [hsec]; exact Bool.false_ne_true)] at hx
          refine htcBucketScan_none hs.hinted.ctrl h1 hlt ?_ hsec
          rw [← hx]
          exact hp
      rw [hq] at hmiss
      cases hmiss
    | shard s j =>
      obtain ⟨hlt, rfl⟩ := hseat
      have hmiss := htcStashFind_none (hs.shards _) h3 hlt hp
      rw [hq] at hmiss
      cases hmiss
    | global j =>
      refine ⟨?_, j, rfl⟩
      by_contra ha
      have hmiss := htcStashFind_none hs.stash (h4 (Bool.not_eq_false _ ▸ ha)) hseat hp
      rw [hq] at hmiss
      cases hmiss

/-- In a settled table the search finds exactly the word of the key. -/
lemma Settled.search_eq_some (hs : Settled c) :
    htcSearch c h true = some p ↔ ∃ w, c.wordAt p = some w ∧ c.keyOf w.idx = h := by
  constructor
  · exact htcSearch_key
  · rintro ⟨w, hw, hk⟩
    cases hf : htcSearch c h true with
    | none =>
      obtain ⟨ha, -⟩ := hs.placed.search_none hf hw hk
      cases ha
    | some q =>
      obtain ⟨v, hv, hkv⟩ := htcSearch_key hf
      rw [hs.unique hw hv (hk.trans hkv.symm)]

/-- A search that misses means that the key is absent. -/
lemma Placed.search_eq_none (hs : Placed c) : htcSearch c h true = none ↔ c.Absent h := by
  constructor
  · rintro hf j ⟨q, w, hw, rfl⟩ hk
    obtain ⟨ha, -⟩ := hs.search_none hf hw hk
    cases ha
  · intro ha
    cases hf : htcSearch c h true with
    | none => rfl
    | some q =>
      obtain ⟨w, hw, hk⟩ := htcSearch_key hf
      exact absurd hk (ha _ (mem_live hw))

/-- A search that misses means that the key is absent. -/
lemma Settled.search_eq_none (hs : Settled c) : htcSearch c h true = none ↔ c.Absent h :=
  hs.placed.search_eq_none

/-! ## The slow search -/

/-- The four places of the slow search, each with what makes the search stop there. -/
lemma slowSearch_sound (hf : slowSearch c h = some p) :
    ∃ w, c.wordAt p = some w ∧ c.keyOf w.idx = h := by
  simp only [slowSearch] at hf
  split at hf
  · next i hi =>
    cases hf
    obtain ⟨w, -, hw, hq⟩ := slowScan_some hi
    exact ⟨w, hw, (isFor_iff.mp (Bool.and_eq_true _ _ ▸ hq).1).2.1⟩
  · split at hf
    · next i hi =>
      cases hf
      obtain ⟨w, -, hw, hq⟩ := slowScan_some hi
      exact ⟨w, hw, (isFor_iff.mp (Bool.and_eq_true _ _ ▸ hq).1).2.1⟩
    · split at hf
      · next i hi =>
        cases hf
        obtain ⟨w, -, hw, hq⟩ := slowScan_some hi
        exact ⟨w, hw, (isFor_iff.mp hq).2.1⟩
      · obtain ⟨i, hi, rfl⟩ := Option.map_eq_some_iff.mp hf
        obtain ⟨w, -, hw, hq⟩ := slowScan_some hi
        exact ⟨w, hw, (isFor_iff.mp hq).2.1⟩

/-- In a settled table a slow search that misses means that the key is absent. -/
lemma Settled.slowSearch_none (hs : Settled c) (hf : slowSearch c h = none) : c.Absent h := by
  rintro j ⟨p, w, hp, rfl⟩ hk
  have hq : w.isFor c.recs h (tag16 (placementHash h c.gen.seed)) = true := by
    have hi := hs.placed.isFor hp
    rw [Core.hashOf, hk] at hi
    exact hi
  have hseat := hs.seat p w hp
  rw [Core.hashOf, hk] at hseat
  simp only [slowSearch] at hf
  split at hf
  · cases hf
  next h1 =>
  split at hf
  · cases hf
  next h2 =>
  split at hf
  · cases hf
  next h3 =>
  have h4 := Option.map_eq_none_iff.mp hf
  cases p with
  | slot x =>
    obtain ⟨hlt, hx⟩ := hseat
    cases hsec : w.inSec with
    | true =>
      rw [if_pos hsec] at hx
      have hmiss := slowScan_none h2 hlt (w := w) (by rw [← hx.1]; exact hp)
      rw [hq, hsec] at hmiss
      cases hmiss
    | false =>
      rw [if_neg (by rw [hsec]; exact Bool.false_ne_true)] at hx
      have hmiss := slowScan_none h1 hlt (w := w) (by rw [← hx]; exact hp)
      rw [hq, hsec] at hmiss
      cases hmiss
  | shard s j =>
    obtain ⟨hlt, rfl⟩ := hseat
    have hmiss := slowScan_none h3 hlt hp
    rw [hq] at hmiss
    cases hmiss
  | global j =>
    have hmiss := slowScan_none h4 hseat hp
    rw [hq] at hmiss
    cases hmiss

/-- In a settled table both searches agree. -/
lemma Settled.slowSearch_eq (hs : Settled c) (h : ℕ) : slowSearch c h = htcSearch c h true := by
  cases hf : slowSearch c h with
  | none => exact (hs.search_eq_none.mpr (hs.slowSearch_none hf)).symm
  | some p => exact (hs.search_eq_some.mpr (slowSearch_sound hf)).symm

end Draugr.Htc
