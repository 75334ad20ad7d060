import Draugr.Table.Ops

/-!
# The table over an exact index

With an index that is an exact multimap and allocations that succeed (`IndexLaws.Exact`), the
operations of `src/ht.c` are those of a multimap from keys to values: `HtOp.Spec` is what each of
them does to the multiset of pairs and what it returns. `htTable_multimap` proves it for every call
that does not resize the table, in every state that a run reaches.

Two bounds of the entry array show: `val_len` has 32 bits, so a longer value is cut
(`htTable_multimap_fails`), and entry numbers have 32 bits, `VAL_NONE` excluded.
-/

namespace Draugr
open Lib

/-- The assumptions on `eq_fn` and `hash_fn`. -/
structure Respects (fns : HtFns) : Prop where
  refl : ∀ a, fns.eq a a = true
  symm : ∀ {a b}, fns.eq a b = true → fns.eq b a = true
  trans : ∀ {a b c}, fns.eq a b = true → fns.eq b c = true → fns.eq a c = true
  length : ∀ {a b}, fns.eq a b = true → a.length = b.length
  hash : ∀ {a b}, fns.eq a b = true → fns.hash a = fns.hash b

/-- The pair has the key. -/
def hasKey (fns : HtFns) (key : Bytes) (p : Bytes × Bytes) : Prop := fns.eq p.1 key = true

/-- The pair has the key and the value. -/
def hasPair (fns : HtFns) (key value : Bytes) (p : Bytes × Bytes) : Prop :=
  fns.eq p.1 key = true ∧ p.2 = value

instance (fns : HtFns) (key : Bytes) : DecidablePred (hasKey fns key) :=
  fun _ => inferInstanceAs (Decidable (_ = _))
instance (fns : HtFns) (key value : Bytes) : DecidablePred (hasPair fns key value) :=
  fun _ => inferInstanceAs (Decidable (_ ∧ _))

/-- What the operations of a multimap do to its pairs, and what they return. -/
def HtOp.Spec (fns : HtFns) :
    HtOp → HtReply → Multiset (Bytes × Bytes) → Multiset (Bytes × Bytes) → Prop
  | .insert (some key) value, r, p, p' => r = .inserted .ok ∧ p' = (key, value.getD []) ::ₘ p
  | .upsert (some key) value, r, p, p' =>
    (∃ k, fns.eq k key = true ∧ p' = (k, value.getD []) ::ₘ p.filter fun q => ¬ hasKey fns key q) ∧
      ((r = .inserted .update ∧ ∃ q ∈ p, hasKey fns key q) ∨
        (r = .inserted .ok ∧ ∀ q ∈ p, ¬ hasKey fns key q))
  | .unsert (some key) value, r, p, p' =>
    (r = .inserted .update ∧ (∃ q ∈ p, hasPair fns key (value.getD []) q) ∧ p' = p) ∨
      (r = .inserted .ok ∧ (∀ q ∈ p, ¬ hasPair fns key (value.getD []) q) ∧
        p' = (key, value.getD []) ::ₘ p)
  | .remove (some key), r, p, p' =>
    r = .removed (p.filter (hasKey fns key)).card ∧ p' = p.filter fun q => ¬ hasKey fns key q
  | .removeKv (some key) (some value), r, p, p' =>
    r = .removed (p.filter (hasPair fns key value)).card ∧
      p' = p.filter fun q => ¬ hasPair fns key value q
  | .removeKvOne (some key) (some value), r, p, p' =>
    (r = .done true ∧ ∃ q, hasPair fns key value q ∧ p = q ::ₘ p') ∨
      (r = .done false ∧ p' = p ∧ ∀ q ∈ p, ¬ hasPair fns key value q)
  | _, _, _, _ => True

section
variable {B : Type} (ix : IndexOps B) (fns : HtFns)

/-- The call comes to `ht_resize`, or is a rebuild itself. -/
def HtOp.triggersResize (t : HtTable B) : HtOp → Bool
  | .insert (some _) _ => decide (growNeeded ix t)
  | .upsert (some key) _ =>
    match keyMatches ix fns t (fns.hash key) key with
    | ([], t) => decide (growNeeded ix t)
    | _ => false
  | .unsert (some key) value =>
    !(ix.findAll t.bare (fns.hash key)).any (fun i =>
        keysMatch fns t i (hashHi (fns.hash key)) key && valsMatch t i (value.getD [])) &&
      decide (growNeeded ix t)
  | .remove (some key) =>
    let (ms, t) := keyMatches ix fns t (fns.hash key) key
    !ms.isEmpty && decide (shrinkNeeded ix (removeMatches ix (fns.hash key) ms t))
  | .removeKvOne (some key) (some value) =>
    let (ms, t) := keyMatches ix fns t (fns.hash key) key
    match ms.find? fun i => valsMatch t i value with
    | none => false
    | some i => decide (shrinkNeeded ix (removeMatches ix (fns.hash key) [i] t))
  | .resize _ => true
  | .compact => true
  | _ => false

/-- The length of the key of a call. -/
def HtOp.keyLen : HtOp → ℕ
  | .insert key _ | .upsert key _ | .unsert key _ | .remove key | .removeKv key _
  | .removeKvOne key _ => (key.getD []).length
  | _ => 0

/-- What the entry array can hold: the value of the call is shorter than `2 ^ 32` bytes, and there
are fewer than `2 ^ 32 - 1` entries. -/
def HtOp.fits (t : HtTable B) : HtOp → Bool
  | .insert _ value | .upsert _ value | .unsert _ value =>
    decide (t.entries.length < valNone) && decide ((value.getD []).length < 2 ^ 32)
  | _ => true

/-- Every call of the run fits where it is made. -/
def fitsHt (t : HtTable B) : List HtOp → Bool
  | [] => true
  | op :: ops =>
    op.fits t &&
      match op.run ix fns t with
      | some (_, t) => fitsHt t ops
      | none => true

end

section
variable {B : Type} {ix : IndexOps B} {L : IndexLaws ix} {fns : HtFns} {t t' : HtTable B}

/-! ## The invariant in every run -/

/-- An exact index makes every rebuild safe. -/
lemma rebuildSafe_exact (hE : L.Exact) {n : ℕ} {x : Bool × HtTable B}
    (h : htRebuild ix t n = some x) : rebuildSafe L noTest t n = true := by
  have hfit : n ≤ sizeMax / 12 := by
    by_contra hn
    rw [htRebuild, if_pos (not_le.mp hn)] at h
    cases h
  unfold rebuildSafe
  rw [decide_eq_true hfit]
  simp only [noTest, Bool.true_and]
  split
  · rfl
  · rw [laneSafe_of ix hE.insertSafe, Bool.true_and]
    split
    · split
      · exact laneSafe_of ix hE.insertSafe _ _ _ _
      · rfl
    · rfl

/-- An exact index makes every resize safe. -/
lemma htResizeSafe_exact (hE : L.Exact) {n : ℕ} {x : Bool × HtTable B}
    (h : htResize ix t n = some x) : htResizeSafe L noTest t n = true := by
  unfold htResizeSafe
  simp only [Bool.or_eq_true, decide_eq_true_eq]
  unfold htResize at h
  split at h
  · rename_i h1
    exact Or.inl (Or.inl (Or.inl h1))
  split at h
  · rename_i h2
    exact Or.inl (Or.inl (Or.inr h2))
  split at h
  · rename_i h3
    exact Or.inl (Or.inr h3)
  split at h
  · cases h
  · rename_i hr
    exact Or.inr (rebuildSafe_exact hE hr)

/-- An exact index makes the resize after a removal safe. -/
lemma shrinkSafe_exact (hE : L.Exact) {x : HtTable B} (h : shrinkAfter ix t = some x) :
    shrinkSafe L noTest t = true := by
  unfold shrinkSafe
  simp only [Bool.or_eq_true, Bool.not_eq_true', decide_eq_false_iff_not]
  unfold shrinkAfter at h
  split at h
  · obtain ⟨r, hr, -⟩ := Option.map_eq_some_iff.mp h
    exact Or.inr (htResizeSafe_exact hE hr)
  · rename_i hn
    exact Or.inl hn

/-- An exact index makes every insertion of a new entry safe. -/
lemma insertNewSafe_exact (hE : L.Exact) {hash : ℕ} {key value : Bytes}
    {x : HtInsertResult × HtTable B} (h : insertNew ix t hash key value = some x)
    (hcount : t.entries.length < valNone) : insertNewSafe L noTest t hash key value = true := by
  have hgrow : growSafe L noTest t = true := by
    unfold growSafe
    simp only [Bool.or_eq_true, Bool.not_eq_true', decide_eq_true_eq, decide_eq_false_iff_not]
    unfold insertNew growForInsert at h
    by_cases hn : growNeeded ix t
    · rw [if_pos hn] at h
      by_cases hc : ix.capacity t.bare > sizeMax / 2
      · exact Or.inl (Or.inr hc)
      · rw [if_neg hc] at h
        cases hr : htResize ix t (ix.capacity t.bare * 2) with
        | none =>
          rw [hr] at h
          cases h
        | some r => exact Or.inr (htResizeSafe_exact hE hr)
    · exact Or.inl (Or.inl hn)
  unfold insertNewSafe
  rw [hgrow, decide_eq_true hcount, Bool.true_and, Bool.true_and]
  split
  · rw [Bool.or_eq_true]
    exact Or.inr (hE.insertSafe _ _ _)
  · rfl

/-- An exact index always has memory. -/
lemma malloc_exact (hE : L.Exact) (t : HtTable B) : t.malloc ix = (true, t) := by
  unfold HtTable.malloc
  rw [hE.malloc_ok]

/-- With allocations that succeed, the scan takes every match. -/
lemma keyScan_exact (hE : L.Exact) (hi : ℕ) (key : Bytes) (is ms : List ℕ) (cap : ℕ) :
    keyScan ix fns hi key is ms cap t = (ms ++ is.filter fun i => keysMatch fns t i hi key, t) := by
  induction is generalizing ms cap with
  | nil => rw [keyScan, List.filter_nil, List.append_nil]
  | cons i is ih =>
    rw [keyScan, List.filter_cons]
    by_cases hm : keysMatch fns t i hi key = true
    · rw [if_pos hm, if_pos hm, malloc_exact hE]
      simp only [ih, ite_self, List.append_assoc, List.singleton_append]
    · rw [if_neg hm, if_neg hm, ih]

/-- The entries that hold the key. -/
def matchesOf (ix : IndexOps B) (fns : HtFns) (t : HtTable B) (key : Bytes) : List ℕ :=
  (ix.findAll t.bare (fns.hash key)).filter fun i => keysMatch fns t i (hashHi (fns.hash key)) key

/-- Over an exact index the matches of a key are complete. -/
lemma keyMatches_exact (hE : L.Exact) (t : HtTable B) (key : Bytes) :
    keyMatches ix fns t (fns.hash key) key = (matchesOf ix fns t key, t) :=
  keyScan_exact hE _ _ _ [] 64

/-- Over an exact index, a call that returns and fits is safe. -/
lemma HtOp.safe_exact (hE : L.Exact) {op : HtOp} {x : HtReply × HtTable B}
    (h : op.run ix fns t = some x) (hfit : op.fits t = true) : op.safe L fns noTest t = true := by
  cases op with
  | insert key value =>
    cases key with
    | none => rfl
    | some key =>
      obtain ⟨y, hy, -⟩ := Option.map_eq_some_iff.mp h
      rw [HtOp.fits, Bool.and_eq_true, decide_eq_true_eq] at hfit
      exact insertNewSafe_exact hE hy hfit.1
  | upsert key value =>
    cases key with
    | none => rfl
    | some key =>
      rw [HtOp.fits, Bool.and_eq_true, decide_eq_true_eq] at hfit
      obtain ⟨y, hy, -⟩ := Option.map_eq_some_iff.mp h
      unfold htUpsert insertKey doInsertWithHash at hy
      simp only [Option.getD_some, keyMatches_exact hE] at hy
      rw [HtOp.safe, hE.findSafe, Bool.true_and, keyMatches_exact hE]
      -- only a new entry can make the table grow
      cases hm : matchesOf ix fns t key with
      | nil =>
        rw [hm] at hy
        exact insertNewSafe_exact hE hy hfit.1
      | cons m ms => rfl
  | unsert key value =>
    cases key with
    | none => rfl
    | some key =>
      rw [HtOp.fits, Bool.and_eq_true, decide_eq_true_eq] at hfit
      obtain ⟨y, hy, -⟩ := Option.map_eq_some_iff.mp h
      unfold htUnsert insertKey doInsertWithHash at hy
      simp only [Option.getD_some] at hy
      rw [HtOp.safe, hE.findSafe, Bool.true_and, Bool.or_eq_true]
      split at hy
      · rename_i hany
        exact Or.inl hany
      · exact Or.inr (insertNewSafe_exact hE hy hfit.1)
  | remove key =>
    cases key with
    | none => rfl
    | some key =>
      obtain ⟨y, hy, -⟩ := Option.map_eq_some_iff.mp h
      unfold htRemove at hy
      simp only [keyMatches_exact hE] at hy
      rw [HtOp.safe, hE.findSafe, Bool.true_and, keyMatches_exact hE]
      simp only [Bool.or_eq_true]
      split at hy
      · obtain ⟨z, hz, -⟩ := Option.map_eq_some_iff.mp hy
        exact Or.inr (shrinkSafe_exact hE hz)
      · rename_i hlen
        left
        rw [List.isEmpty_iff_length_eq_zero]
        omega
  | removeKv key value =>
    cases key with
    | none => rfl
    | some key =>
      cases value with
      | none => rfl
      | some value => exact hE.findSafe _ _
  | removeKvOne key value =>
    cases key with
    | none => rfl
    | some key =>
      cases value with
      | none => rfl
      | some value =>
        obtain ⟨y, hy, -⟩ := Option.map_eq_some_iff.mp h
        unfold htRemoveKvOne at hy
        simp only [keyMatches_exact hE] at hy
        rw [HtOp.safe, hE.findSafe, Bool.true_and, keyMatches_exact hE]
        simp only
        cases hf : (matchesOf ix fns t key).find? fun i => valsMatch t i value with
        | none => rfl
        | some i =>
          rw [hf] at hy
          obtain ⟨z, hz, -⟩ := Option.map_eq_some_iff.mp hy
          exact shrinkSafe_exact hE hz
  | resize n =>
    obtain ⟨y, hy, -⟩ := Option.map_eq_some_iff.mp h
    exact htResizeSafe_exact hE hy
  | compact =>
    obtain ⟨y, hy, -⟩ := Option.map_eq_some_iff.mp h
    exact rebuildSafe_exact hE hy
  | clear => exact hE.clearSafe _

/-- The invariant holds in every state that a run reaches. -/
lemma runHt_exact_good (hE : L.Exact) (hG : Good L fns t) {ops : List HtOp}
    (hfit : fitsHt ix fns t ops = true) (h : runHt ix fns t ops = some t') : Good L fns t' := by
  induction ops generalizing t with
  | nil =>
    cases h
    exact hG
  | cons op ops ih =>
    rw [fitsHt, Bool.and_eq_true] at hfit
    rw [runHt] at h
    cases hr : op.run ix fns t with
    | none =>
      rw [hr] at h
      cases h
    | some x =>
      obtain ⟨r, t₁, h1, h2, -⟩ := HtOp.run_spec hG (HtOp.safe_exact hE hr hfit.1)
      rw [hr] at h1
      cases h1
      rw [hr] at h hfit
      exact ih h2 hfit.2 h

/-! ## One call -/

/-- With a lawful equality, `keys_match` tests the equality only. -/
lemma Respects.keyIs_eq (hR : Respects fns) (k key : Bytes) : keyIs fns k key = fns.eq k key := by
  rw [Bool.eq_iff_iff, keyIs_iff]
  refine ⟨fun h => h.2.2.2, fun h => ?_⟩
  rw [hR.hash h]
  exact ⟨rfl, rfl, hR.length h, h⟩

/-- The pairs that `ht_find_key_all` reports, by the equality of keys. -/
lemma findKeyAll_hasKey (hR : Respects fns) (hG : Good L fns t) {key : Bytes}
    (hs : L.findSafe t.bare (fns.hash key) = true) :
    (htFindKeyAll ix fns t key : Multiset (Bytes × Bytes)) = (pairs L t).filter
    (hasKey fns key) := by
  rw [htFindKeyAll_eq hG hs]
  refine Multiset.filter_congr fun q _ => ?_
  rw [hR.keyIs_eq]
  rfl

/-- The matches of a key are the pairs that have it. -/
lemma matchesOf_spec (hE : L.Exact) (hR : Respects fns) (hG : Good L fns t) (key : Bytes) :
    Matched L fns t key (matchesOf ix fns t key) ∧
      ((matchesOf ix fns t key).map (fun i => (t.entry i).pair) : Multiset (Bytes × Bytes)) =
        (pairs L t).filter (hasKey fns key) := by
  exact ⟨matched_filter hG (hE.findSafe _ _), findKeyAll_hasKey hR hG (hE.findSafe _ _)⟩

/-- The pairs that are left when those with a property are gone. -/
lemma rest_eq {p p' : Multiset (Bytes × Bytes)} {P : Bytes × Bytes → Prop} [DecidablePred P]
    (h : p.filter P + p' = p) : p' = p.filter fun q => ¬ P q := by
  have := (Multiset.filter_add_not P p).trans h.symm
  exact (Multiset.add_right_inj.mp this).symm

/-- The second phase of `do_insert_with_hash` without growth: the pair is added. -/
lemma insertNew_exact (hE : L.Exact) (hG : Good L fns t) {key : Bytes} (value : Bytes)
    (hkey : key.length ≤ 65535) (hcount : t.entries.length < valNone) (hgrow : ¬ growNeeded ix t) :
    ∃ t', insertNew ix t (fns.hash key) key value = some (.ok, t') ∧ Good L fns t' ∧
      pairs L t' = (key, storedVal value) ::ₘ pairs L t := by
  have hg : growForInsert ix t = some (true, t) := by rw [growForInsert, if_neg hgrow]
  have hsafe : insertNewSafe L (noEmptyKey ix) t (fns.hash key) key value = true := by
    unfold insertNewSafe growSafe
    rw [decide_eq_true hcount, decide_eq_false hgrow, hg]
    simp only [Bool.not_false, Bool.true_or, Bool.true_and, Bool.or_eq_true]
    exact Or.inr (hE.insertSafe _ _ _)
  obtain ⟨r, t', h1, h2, h3, h4⟩ := insertNew_spec hG hsafe
  have hr : r = .ok := by
    unfold insertNew at h1
    rw [hg] at h1
    have ha : (allocEntry ix t (hashHi (fns.hash key)) key value).1 ≠ valNone := by
      unfold allocEntry
      rw [if_neg (by omega), malloc_exact hE]
      have : t.entries.length % 2 ^ 32 ≤ t.entries.length := Nat.mod_le _ _
      simp only
      omega
    simp only [if_neg ha] at h1
    split at h1
    · cases h1
    · rename_i ok b hi
      rw [hE.insert_ok hi] at h1
      cases h1
      rfl
  subst hr
  exact ⟨t', h1, h2, h4 fun _ h => h⟩

/-- `update_entry_value` succeeds. -/
lemma updateEntryValue_exact (hE : L.Exact) (i : ℕ) (key value : Bytes) :
    (updateEntryValue ix t i key value).1 = true := by
  unfold updateEntryValue
  simp only
  split
  · rfl
  · rw [malloc_exact hE]

/-- The matches of a key that have the value are the pairs that have both. -/
lemma matchesOf_vals (hE : L.Exact) (hR : Respects fns) (hG : Good L fns t) (key value : Bytes) :
    (((matchesOf ix fns t key).filter fun i => valsMatch t i value).map
      (fun i => (t.entry i).pair) :
        Multiset (Bytes × Bytes)) = (pairs L t).filter (hasPair fns key value) := by
  obtain ⟨hM, hp⟩ := matchesOf_spec hE hR hG key
  have hfil : ((matchesOf ix fns t key).filter fun i => valsMatch t i value) =
      (matchesOf ix fns t key).filter
      ((fun q => decide (q.2 = value)) ∘ fun i => (t.entry i).pair) :=
    List.filter_congr fun i hi => by
      rw [Bool.eq_iff_iff, (hG.holds _ (hM.mem i hi)).ok.valsMatch_iff, Function.comp_apply,
        decide_eq_true_eq]
      rfl
  rw [hfil, ← List.filter_map, ← Multiset.filter_coe, hp, Multiset.filter_filter]
  exact Multiset.filter_congr fun q _ => and_comm

/-- Some match has the value exactly if some pair has both. -/
lemma exists_match_iff (hE : L.Exact) (hR : Respects fns) (hG : Good L fns t) (key value : Bytes) :
    (∃ i ∈ matchesOf ix fns t key, valsMatch t i value = true) ↔
      ∃ q ∈ pairs L t, hasPair fns key value q := by
  have hv := matchesOf_vals hE hR hG key value
  constructor
  · rintro ⟨i, hi, hval⟩
    have hmem : (t.entry i).pair ∈ (pairs L t).filter (hasPair fns key value) := by
      rw [← hv]
      exact Multiset.mem_coe.mpr (List.mem_map.mpr ⟨i, List.mem_filter.mpr ⟨hi, hval⟩, rfl⟩)
    exact ⟨_, Multiset.mem_filter.mp hmem⟩
  · rintro ⟨q, hq, hqv⟩
    have hmem := Multiset.mem_filter.mpr ⟨hq, hqv⟩
    rw [← hv] at hmem
    obtain ⟨i, hi, -⟩ := List.mem_map.mp (Multiset.mem_coe.mp hmem)
    exact ⟨i, List.mem_filter.mp hi⟩

/-- The key that an update of the first match leaves is equal to the key of the call. -/
lemma Matched.eq_key (hR : Respects fns) {key k : Bytes} {m : ℕ} {ms : List ℕ}
    (hM : Matched L fns t key (m :: ms))
    (hk : k = key ∨ k = (t.entry m).key) : fns.eq k key = true := by
  rcases hk with rfl | rfl
  · exact hR.refl _
  · rw [← hR.keyIs_eq]
    exact hM.key m List.mem_cons_self

/-- The pairs after an update: those of other keys, and the new one. -/
lemma updated_eq {p p' : Multiset (Bytes × Bytes)} {q : Bytes × Bytes} {P : Bytes × Bytes → Prop}
    [DecidablePred P]
    (h : p.filter P + p' = q ::ₘ p) : p' = q ::ₘ p.filter fun q => ¬ P q := by
  have hsplit := Multiset.filter_add_not P p
  rw [← hsplit, ← Multiset.add_cons, Multiset.filter_add_not] at h
  exact Multiset.add_right_inj.mp h

/-- `ht_upsert`. -/
lemma upsert_exact (hE : L.Exact) (hR : Respects fns) (hG : Good L fns t) {key : Bytes}
    {value : Option Bytes} (hkey : key.length ≤ 65535)
    (hfit : (HtOp.upsert (some key) value).fits t = true)
    (hno : (HtOp.upsert (some key) value).triggersResize ix fns t = false) :
    ∃ r t', (HtOp.upsert (some key) value).run ix fns t = some (r, t') ∧ Good L fns t' ∧
      (HtOp.upsert (some key) value).Spec fns r (pairs L t) (pairs L t') := by
  rw [HtOp.fits, Bool.and_eq_true, decide_eq_true_eq, decide_eq_true_eq] at hfit
  obtain ⟨hM, hp⟩ := matchesOf_spec hE hR hG key
  rw [HtOp.triggersResize, keyMatches_exact hE] at hno
  unfold HtOp.run htUpsert insertKey doInsertWithHash
  simp only [Option.getD_some, keyMatches_exact hE]
  cases hm : matchesOf ix fns t key with
  | nil =>
    -- no pair has the key
    rw [hm] at hno hp
    obtain ⟨t', h1, h2, h3⟩ :=
      insertNew_exact hE hG (value.getD []) hkey hfit.1 (by simpa using hno)
    have hnone : ∀ q ∈ pairs L t, ¬ hasKey fns key q := Multiset.filter_eq_nil.mp hp.symm
    refine ⟨.inserted .ok, t', congrArg (Option.map _) h1, h2, ⟨key, hR.refl key, ?_⟩,
      Or.inr ⟨rfl, hnone⟩⟩
    rw [h3, storedVal_eq hfit.2, Multiset.filter_eq_self.mpr hnone]
  | cons m ms =>
    rw [hm] at hM hp
    rcases upsertFound_spec hG hM (value.getD []) with ⟨t', h1, -⟩ | ⟨t', k', h1, h2, h3, h4⟩
    · have := updateEntryValue_exact hE (t := t) m key (value.getD [])
      rw [h1] at this
      cases this
    · simp only [h1]
      have hmem : (t.entry m).pair ∈ (pairs L t).filter (hasKey fns key) := by
        rw [← hp]
        exact List.mem_cons_self
      rw [hp, storedVal_eq hfit.2] at h4
      exact ⟨_, _, rfl, h2, ⟨k', hM.eq_key hR h3, updated_eq h4⟩,
        Or.inl ⟨rfl, _, Multiset.mem_filter.mp hmem⟩⟩

/-- `ht_unsert`. -/
lemma unsert_exact (hE : L.Exact) (hR : Respects fns) (hG : Good L fns t) {key : Bytes}
    {value : Option Bytes} (hkey : key.length ≤ 65535)
    (hfit : (HtOp.unsert (some key) value).fits t = true)
    (hno : (HtOp.unsert (some key) value).triggersResize ix fns t = false) :
    ∃ r t', (HtOp.unsert (some key) value).run ix fns t = some (r, t') ∧ Good L fns t' ∧
      (HtOp.unsert (some key) value).Spec fns r (pairs L t) (pairs L t') := by
  rw [HtOp.fits, Bool.and_eq_true, decide_eq_true_eq, decide_eq_true_eq] at hfit
  rw [HtOp.triggersResize] at hno
  have hany : (ix.findAll t.bare (fns.hash key)).any (fun i =>
      keysMatch fns t i (hashHi (fns.hash key)) key && valsMatch t i (value.getD [])) = true ↔
      ∃ q ∈ pairs L t, hasPair fns key (value.getD []) q := by
    rw [← exists_match_iff hE hR hG, List.any_eq_true]
    unfold matchesOf
    simp only [List.mem_filter, Bool.and_eq_true, and_assoc]
  unfold HtOp.run htUnsert insertKey doInsertWithHash
  simp only [Option.getD_some]
  split
  · rename_i h
    exact ⟨_, t, rfl, hG, Or.inl ⟨rfl, hany.mp h, rfl⟩⟩
  · rename_i h
    rw [Bool.not_eq_true] at h
    rw [h] at hno
    obtain ⟨t', h1, h2, h3⟩ :=
      insertNew_exact hE hG (value.getD []) hkey hfit.1 (by simpa using hno)
    refine ⟨.inserted .ok, t', congrArg (Option.map _) h1, h2, Or.inr ⟨rfl, ?_, ?_⟩⟩
    · intro q hq hqv
      rw [hany.mpr ⟨q, hq, hqv⟩] at h
      cases h
    · rw [h3, storedVal_eq hfit.2]

/-- `ht_remove`. -/
lemma remove_exact (hE : L.Exact) (hR : Respects fns) (hG : Good L fns t) {key : Bytes}
    (hno : (HtOp.remove (some key)).triggersResize ix fns t = false) :
    ∃ r t', (HtOp.remove (some key)).run ix fns t = some (r, t') ∧ Good L fns t' ∧
      (HtOp.remove (some key)).Spec fns r (pairs L t) (pairs L t') := by
  obtain ⟨hM, hp⟩ := matchesOf_spec hE hR hG key
  obtain ⟨h1, h2⟩ := removeMatches_spec hG hM.nodup hM.mem
  rw [HtOp.triggersResize, keyMatches_exact hE] at hno
  have hcard : (matchesOf ix fns t key).length = ((pairs L t).filter (hasKey fns key)).card := by
    rw [← hp, Multiset.coe_card, List.length_map]
  refine ⟨.removed (matchesOf ix fns t key).length, _, ?_, h1, by rw [hcard], ?_⟩
  · unfold HtOp.run htRemove
    simp only [keyMatches_exact hE]
    split
    · rename_i hlen
      have hne : (matchesOf ix fns t key).isEmpty = false := by
        rw [List.isEmpty_eq_false_iff]
        exact List.ne_nil_of_length_pos hlen
      have hns : ¬ shrinkNeeded ix
          (removeMatches ix (fns.hash key) (matchesOf ix fns t key) t) := by simpa [hne] using hno
      rw [shrinkAfter, if_neg hns]
      rfl
    · rename_i hlen
      have hz : (matchesOf ix fns t key).length = 0 := by omega
      rw [hz]
      rfl
  · rw [hp] at h2
    exact rest_eq h2.symm

/-- `ht_remove_kv`. -/
lemma removeKv_exact (hE : L.Exact) (hR : Respects fns) (hG : Good L fns t) (key value : Bytes) :
    ∃ r t', (HtOp.removeKv (some key) (some value)).run ix fns t = some (r, t') ∧ Good L fns t' ∧
      (HtOp.removeKv (some key) (some value)).Spec fns r (pairs L t) (pairs L t') := by
  obtain ⟨hM, -⟩ := matchesOf_spec hE hR hG key
  obtain ⟨n', t', h1, h2, h3, h4⟩ := removeKvLoop_spec hG value hM.nodup hM.mem 0
  have hrun : htRemoveKv ix fns t (some key) (some value) = (n', t') := by
    unfold htRemoveKv
    simp only [keyMatches_exact hE]
    rw [zero_add] at h1
    exact h1
  have hv := matchesOf_vals hE hR hG key value
  refine ⟨.removed n', t', ?_, h2, ?_, ?_⟩
  · rw [HtOp.run, hrun]
  · rw [h3, ← hv, Multiset.coe_card, List.length_map]
  · rw [hv] at h4
    exact rest_eq h4

/-- `ht_remove_kv_one`. -/
lemma removeKvOne_exact (hE : L.Exact) (hR : Respects fns) (hG : Good L fns t) {key value : Bytes}
    (hno : (HtOp.removeKvOne (some key) (some value)).triggersResize ix fns t = false) :
    ∃ r t', (HtOp.removeKvOne (some key) (some value)).run ix fns t = some (r, t') ∧ Good L fns t' ∧
      (HtOp.removeKvOne (some key) (some value)).Spec fns r (pairs L t) (pairs L t') := by
  obtain ⟨hM, -⟩ := matchesOf_spec hE hR hG key
  rw [HtOp.triggersResize, keyMatches_exact hE] at hno
  unfold HtOp.run htRemoveKvOne
  simp only [keyMatches_exact hE] at hno ⊢
  cases hf : (matchesOf ix fns t key).find? fun i => valsMatch t i value with
  | none =>
    refine ⟨_, t, rfl, hG, Or.inr ⟨rfl, rfl, ?_⟩⟩
    intro q hq hqv
    obtain ⟨i, hi, hval⟩ := (exists_match_iff hE hR hG key value).mpr ⟨q, hq, hqv⟩
    have := List.find?_eq_none.mp hf i hi
    exact this hval
  | some i =>
    rw [hf] at hno
    have hi := List.mem_of_find?_eq_some hf
    have hval : valsMatch t i value = true := by simpa using List.find?_some hf
    obtain ⟨h1, h2, -, -⟩ := removeOne_spec hG (hM.mem i hi)
    have hns : ¬ shrinkNeeded ix (removeMatches ix (fns.hash key) [i] t) := by simpa using hno
    have hs : shrinkAfter ix (removeMatches ix (fns.hash key) [i] t) =
        some (removeMatches ix (fns.hash key) [i] t) := by rw [shrinkAfter, if_neg hns]
    simp only [hs]
    refine ⟨_, _, rfl, h1, Or.inl ⟨rfl, _, ⟨?_, ?_⟩, h2⟩⟩
    · rw [← hR.keyIs_eq]
      exact hM.key i hi
    · exact (hG.holds _ (hM.mem i hi)).ok.valsMatch_iff.mp hval

/-- A call that does not resize does what a multimap does. -/
lemma HtOp.run_exact (hE : L.Exact) (hR : Respects fns) (hG : Good L fns t) {op : HtOp}
    (hkey : op.keyLen ≤ 65535) (hfit : op.fits t = true)
    (hno : op.triggersResize ix fns t = false) :
    ∃ r t', op.run ix fns t = some (r, t') ∧ Good L fns t' ∧
      op.Spec fns r (pairs L t) (pairs L t') := by
  cases op with
  | insert key value =>
    cases key with
    | none => exact ⟨_, t, rfl, hG, trivial⟩
    | some key =>
      rw [HtOp.fits, Bool.and_eq_true, decide_eq_true_eq, decide_eq_true_eq] at hfit
      rw [HtOp.triggersResize, decide_eq_false_iff_not] at hno
      have hkey : key.length ≤ 65535 := hkey
      obtain ⟨t', h1, h2, h3⟩ := insertNew_exact hE hG (value.getD []) hkey hfit.1 hno
      refine ⟨.inserted .ok, t', congrArg (Option.map _) h1, h2, rfl, ?_⟩
      rw [h3, storedVal_eq hfit.2]
  | upsert key value =>
    cases key with
    | none => exact ⟨_, t, rfl, hG, trivial⟩
    | some key => exact upsert_exact hE hR hG hkey hfit hno
  | unsert key value =>
    cases key with
    | none => exact ⟨_, t, rfl, hG, trivial⟩
    | some key => exact unsert_exact hE hR hG hkey hfit hno
  | remove key =>
    cases key with
    | none => exact ⟨_, t, rfl, hG, trivial⟩
    | some key => exact remove_exact hE hR hG hno
  | removeKv key value =>
    cases key with
    | none => exact ⟨_, t, rfl, hG, trivial⟩
    | some key =>
      cases value with
      | none => exact ⟨_, t, rfl, hG, trivial⟩
      | some value => exact removeKv_exact hE hR hG key value
  | removeKvOne key value =>
    cases key with
    | none => exact ⟨_, t, rfl, hG, trivial⟩
    | some key =>
      cases value with
      | none => exact ⟨_, t, rfl, hG, trivial⟩
      | some value => exact removeKvOne_exact hE hR hG hno
  | resize n => cases hno
  | compact => cases hno
  | clear =>
    obtain ⟨h1, h2⟩ := L.clear_keeps hG.inv
    exact ⟨_, _, rfl, Good.of_empty h1 h2, trivial⟩

end

/-- The hash of a byte string is that of every equal one. -/
lemma byteFns_respects : Respects byteFns where
  refl := fun a => beq_self_eq_true a
  symm := fun h => by rw [beq_iff_eq.mp h]; exact beq_self_eq_true _
  trans := fun h h' => by rw [beq_iff_eq.mp h]; exact h'
  length := fun h => by rw [beq_iff_eq.mp h]
  hash := fun h => by rw [beq_iff_eq.mp h]

/-- The first insertion over the list index stores what `val_len` can count of the value. -/
lemma insert_list (value : Bytes) :
    ∃ t', htInsert listIndex byteFns ⟨[], []⟩ (some [1]) (some value) = some (.ok, t') ∧
      (htIterAll listIndex t' : Multiset (Bytes × Bytes)) = {([1], storedVal value)} := by
  have hI : listLaws.Inv [] := fun _ he => absurd he List.not_mem_nil
  have hG : Good listLaws byteFns ⟨[], []⟩ := Good.of_empty hI rfl
  have hgrow : ¬ growNeeded listIndex ⟨[], []⟩ := by decide +kernel
  have hkey : ([1] : Bytes).length ≤ 65535 := by decide
  obtain ⟨t', h1, h2, h3⟩ := insertNew_exact listLaws_exact hG value hkey (Nat.zero_lt_succ _) hgrow
  refine ⟨t', h1, ?_⟩
  rw [htIterAll_eq h2.inv, h3, pairs_of_empty rfl]
  rfl

end Draugr
