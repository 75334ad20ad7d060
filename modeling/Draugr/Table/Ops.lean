import Draugr.Table.Rebuild

/-!
# The operations of a key/value table

`HtOp` is one call of the interface of `ht_table_t` and `HtOp.run` runs it. `HtOp.safe` follows the
call and collects what it needs: the promise of the index at its insertions and lookups, an entry
number below `VAL_NONE` for a new entry, and the test `W` at the start of a rebuild.

`HtOp.Own` is what the call itself is meant to do to the pairs. `HtOp.run_spec` says that a safe
call returns, keeps the invariant and, when `W` keeps empty keys away from rebuilds, does to the
pairs exactly that, whether or not it grew or shrank the table on the way.
-/

namespace Draugr
open Lib

/-- One call. -/
inductive HtOp where
  | insert (key value : Option Bytes)
  | upsert (key value : Option Bytes)
  | unsert (key value : Option Bytes)
  | remove (key : Option Bytes)
  | removeKv (key value : Option Bytes)
  | removeKvOne (key value : Option Bytes)
  | resize (newCapacity : ℕ)
  | compact
  | clear
  deriving DecidableEq

/-- What a call returns. -/
inductive HtReply where
  | inserted (r : HtInsertResult)
  | removed (n : ℕ)
  | done (ok : Bool)
  deriving DecidableEq

section
variable {B : Type} (ix : IndexOps B) (fns : HtFns)

/-- Runs one call. -/
def HtOp.run (t : HtTable B) : HtOp → Option (HtReply × HtTable B)
  | .insert key value => (htInsert ix fns t key value).map fun r => (.inserted r.1, r.2)
  | .upsert key value => (htUpsert ix fns t key value).map fun r => (.inserted r.1, r.2)
  | .unsert key value => (htUnsert ix fns t key value).map fun r => (.inserted r.1, r.2)
  | .remove key => (htRemove ix fns t key).map fun r => (.removed r.1, r.2)
  | .removeKv key value =>
    some (.removed (htRemoveKv ix fns t key value).1, (htRemoveKv ix fns t key value).2)
  | .removeKvOne key value => (htRemoveKvOne ix fns t key value).map fun r => (.done r.1, r.2)
  | .resize newCapacity => (htResize ix t newCapacity).map fun r => (.done r.1, r.2)
  | .compact => (htCompact ix t).map fun r => (.done r.1, r.2)
  | .clear => some (.done true, htClear ix t)

/-- Runs a list of calls. -/
def runHt (t : HtTable B) : List HtOp → Option (HtTable B)
  | [] => some t
  | op :: ops =>
    match op.run ix fns t with
    | none => none
    | some (_, t) => runHt t ops

end

section
variable {B : Type} {ix : IndexOps B} (L : IndexLaws ix) (fns : HtFns) (W : HtTable B → Bool)

/-! ## When a call is safe -/

/-- The rebuild of `ht_resize`, if it comes to that. -/
def htResizeSafe (t : HtTable B) (newCapacity : ℕ) : Bool :=
  decide (newCapacity < t.mainLive ix) || ix.resizing t.bare ||
    decide (nextPow2 newCapacity = ix.capacity t.bare) ||
    rebuildSafe L W { t with bare := ix.setResizing true t.bare } (nextPow2 newCapacity)

/-- The growth before an insertion. -/
def growSafe (t : HtTable B) : Bool :=
  !decide (growNeeded ix t) || decide (ix.capacity t.bare > sizeMax / 2) ||
    htResizeSafe L W t (ix.capacity t.bare * 2)

/-- The second phase of `do_insert_with_hash`. -/
def insertNewSafe (t : HtTable B) (hash : ℕ) (key value : Bytes) : Bool :=
  decide (t.entries.length < valNone) && growSafe L W t &&
    match growForInsert ix t with
    | some (true, t) =>
      let (eidx, t) := allocEntry ix t (hashHi hash) key value
      decide (eidx = valNone) || L.insertSafe t.bare (h48 hash) eidx
    | _ => true

/-- The shrinking after a removal. -/
def shrinkSafe (t : HtTable B) : Bool :=
  !decide (shrinkNeeded ix t) || htResizeSafe L W t (ix.capacity t.bare / 2)

/-- The call is safe in this table. -/
def HtOp.safe (t : HtTable B) : HtOp → Bool
  | .insert (some key) value => insertNewSafe L W t (fns.hash key) key (value.getD [])
  | .upsert (some key) value =>
    L.findSafe t.bare (fns.hash key) &&
      match keyMatches ix fns t (fns.hash key) key with
      | ([], t) => insertNewSafe L W t (fns.hash key) key (value.getD [])
      | _ => true
  | .unsert (some key) value =>
    L.findSafe t.bare (fns.hash key) &&
      ((ix.findAll t.bare (fns.hash key)).any (fun i =>
          keysMatch fns t i (hashHi (fns.hash key)) key && valsMatch t i (value.getD [])) ||
        insertNewSafe L W t (fns.hash key) key (value.getD []))
  | .remove (some key) =>
    L.findSafe t.bare (fns.hash key) &&
      let (ms, t) := keyMatches ix fns t (fns.hash key) key
      ms.isEmpty || shrinkSafe L W (removeMatches ix (fns.hash key) ms t)
  | .removeKv (some key) (some _) => L.findSafe t.bare (fns.hash key)
  | .removeKvOne (some key) (some value) =>
    L.findSafe t.bare (fns.hash key) &&
      let (ms, t) := keyMatches ix fns t (fns.hash key) key
      match ms.find? fun i => valsMatch t i value with
      | none => true
      | some i => shrinkSafe L W (removeMatches ix (fns.hash key) [i] t)
  | .resize newCapacity => htResizeSafe L W t newCapacity
  | .compact => rebuildSafe L W t (ix.capacity t.bare)
  | .clear => L.clearSafe t.bare
  | _ => true

/-- Every call of the run is safe where it is made. -/
def safeHt (t : HtTable B) : List HtOp → Bool
  | [] => true
  | op :: ops =>
    op.safe L fns W t &&
      match op.run ix fns t with
      | some (_, t) => safeHt t ops
      | none => true

end

/-! ## What a call does to the pairs -/

/-- What the call itself adds, updates or removes, given its reply. -/
def HtOp.Own (fns : HtFns) :
    HtOp → HtReply → Multiset (Bytes × Bytes) → Multiset (Bytes × Bytes) → Prop
  | .insert key value, .inserted .ok, p, p' =>
    ∃ k, key = some k ∧ p' = (k, storedVal (value.getD [])) ::ₘ p
  | .upsert key value, .inserted .ok, p, p' =>
    ∃ k, key = some k ∧ p' = (k, storedVal (value.getD [])) ::ₘ p
  | .unsert key value, .inserted .ok, p, p' =>
    ∃ k, key = some k ∧ p' = (k, storedVal (value.getD [])) ::ₘ p
  | .upsert key value, .inserted .update, p, p' =>
    ∃ k k' gone, key = some k ∧ (∀ q ∈ gone, keyIs fns q.1 k = true) ∧
      (k' = k ∨ keyIs fns k' k = true) ∧ gone ≠ 0 ∧
      gone + p' = (k', storedVal (value.getD [])) ::ₘ p
  | .remove key, .removed n, p, p' =>
    ∃ gone, (∀ q ∈ gone, ∃ k, key = some k ∧ keyIs fns q.1 k = true) ∧ gone.card = n ∧ gone + p' = p
  | .removeKv key value, .removed n, p, p' =>
    ∃ gone, (∀ q ∈ gone, ∃ k, key = some k ∧ keyIs fns q.1 k = true ∧ value = some q.2) ∧
      gone.card = n ∧ gone + p' = p
  | .removeKvOne key value, .done true, p, p' =>
    ∃ q k, key = some k ∧ keyIs fns q.1 k = true ∧ value = some q.2 ∧ q ::ₘ p' = p
  | .clear, _, _, p' => p' = 0
  | _, _, p, p' => p' = p

section
variable {B : Type} {ix : IndexOps B} {L : IndexLaws ix} {fns : HtFns} {W : HtTable B → Bool}
  {t t' : HtTable B}

/-! ## Growing and shrinking -/

/-- Setting `resizing` changes no entry. -/
lemma setResizing_idle (hI : L.Inv t.bare) (r : Bool) :
    Idle L t { t with bare := ix.setResizing r t.bare } :=
  ⟨(L.setResizing_keeps r hI).1, (L.setResizing_keeps r hI).2, rfl⟩

/-- A power of two is positive. -/
lemma nextPow2_pos (n : ℕ) : 0 < nextPow2 n := by
  unfold nextPow2
  split
  · exact Nat.one_pos
  · split
    · exact Nat.two_pow_pos _
    · omega

/-- `ht_resize`. -/
lemma htResize_spec (hG : Good L fns t) {n : ℕ} (hs : htResizeSafe L W t n = true) :
    ∃ ok t', htResize ix t n = some (ok, t') ∧ Rebuilt L fns W t t' := by
  unfold htResizeSafe at hs
  simp only [Bool.or_eq_true, decide_eq_true_eq] at hs
  unfold htResize
  split
  · exact ⟨false, t, rfl, Rebuilt.refl hG⟩
  split
  · exact ⟨true, t, rfl, Rebuilt.refl hG⟩
  split
  · exact ⟨true, t, rfl, Rebuilt.refl hG⟩
  rename_i h1 h2 h3
  have hs : rebuildSafe L W { t with bare := ix.setResizing true t.bare } (nextPow2 n) = true := by
    rcases hs with ((h | h) | h) | h
    · exact absurd h h1
    · exact absurd h h2
    · exact absurd h h3
    · exact h
  have hid := setResizing_idle (L := L) hG.inv true
  obtain ⟨ok, t₁, hr, hR, -⟩ := htRebuild_spec (hid.good hG) (nextPow2_pos n) hs
  rw [hr]
  refine ⟨ok, _, rfl, ?_⟩
  exact ((hid.rebuilt hG).trans hR).trans ((setResizing_idle hR.good.inv false).rebuilt hR.good)

/-- The growth before an insertion. -/
lemma growForInsert_spec (hG : Good L fns t) (hs : growSafe L W t = true) :
    ∃ ok t', growForInsert ix t = some (ok, t') ∧ Rebuilt L fns W t t' := by
  unfold growSafe at hs
  simp only [Bool.or_eq_true, Bool.not_eq_true', decide_eq_true_eq, decide_eq_false_iff_not] at hs
  unfold growForInsert
  split
  · rename_i hg
    split
    · exact ⟨false, t, rfl, Rebuilt.refl hG⟩
    rename_i hc
    have hs : htResizeSafe L W t (ix.capacity t.bare * 2) = true := by
      rcases hs with (h | h) | h
      · exact absurd hg h
      · exact absurd h hc
      · exact h
    obtain ⟨ok, t₁, hr, hR⟩ := htResize_spec hG hs
    rw [hr]
    cases ok with
    | false => exact ⟨false, t₁, rfl, hR⟩
    | true =>
      simp only
      split
      · -- the table is empty: the counters are set again and the insertion fails
        rename_i hz
        obtain ⟨h1, h2⟩ := L.setResizing_keeps false hR.good.inv
        have hz' : ix.size (ix.setResizing false t₁.bare) = 0 := by
          rw [L.size_eq h1, h2, ← L.size_eq hR.good.inv, hz]
        obtain ⟨h3, h4⟩ := L.resetCounters_keeps h1 hz'
        have hid : Idle L t₁ { t₁ with bare := ix.resetCounters (ix.setResizing false t₁.bare) } :=
          ⟨h3, h4.trans h2, rfl⟩
        exact ⟨false, _, rfl, hR.trans (hid.rebuilt hR.good)⟩
      · exact ⟨true, t₁, rfl, hR⟩
  · exact ⟨true, t, rfl, Rebuilt.refl hG⟩

/-- The shrinking after a removal. -/
lemma shrinkAfter_spec (hG : Good L fns t) (hs : shrinkSafe L W t = true) :
    ∃ t', shrinkAfter ix t = some t' ∧ Rebuilt L fns W t t' := by
  unfold shrinkSafe at hs
  simp only [Bool.or_eq_true, Bool.not_eq_true', decide_eq_false_iff_not] at hs
  unfold shrinkAfter
  split
  · rename_i hn
    obtain ⟨ok, t₁, hr, hR⟩ := htResize_spec hG (hs.resolve_left (not_not.mpr hn))
    rw [hr]
    exact ⟨t₁, rfl, hR⟩
  · exact ⟨t, rfl, Rebuilt.refl hG⟩

/-! ## Insertion -/

/-- The pairs of a key and a value, as they are read back. -/
lemma newEntry_pair (key value : Bytes) (hi : ℕ) :
    (⟨key.length, hi, value.length % 2 ^ 32, some (key, value)⟩ : HtEntry).pair =
      (key, storedVal value) :=
  Prod.ext (List.take_length) rfl

/-- A new entry agrees with its hash. -/
lemma newEntry_ok (fns : HtFns) (key value : Bytes) :
    (⟨key.length, hashHi (fns.hash key), value.length % 2 ^ 32, some (key, value)⟩ :
      HtEntry).Ok fns (h48 (fns.hash key)) := by
  set e : HtEntry :=
    ⟨key.length, hashHi (fns.hash key), value.length % 2 ^ 32, some (key, value)⟩ with he
  have hkey : e.key = key := List.take_length
  refine ⟨by rw [hkey], by rw [hkey], by rw [hkey], ?_, Nat.mod_lt _ (by decide)⟩
  exact (storedVal_length value).symm

/-- The second phase of `do_insert_with_hash`: the pair comes to those that the growth left. -/
lemma insertNew_adds (hG : Good L fns t) {key value : Bytes}
    (hs : insertNewSafe L W t (fns.hash key) key value = true) :
    ∃ r t₁ t', insertNew ix t (fns.hash key) key value = some (r, t') ∧ Good L fns t' ∧
      r ≠ .update ∧
      Rebuilt L fns W t t₁ ∧
      pairs L t' = if r = .ok then (key, storedVal value) ::ₘ pairs L t₁ else pairs L t₁ := by
  unfold insertNewSafe at hs
  rw [Bool.and_eq_true, Bool.and_eq_true, decide_eq_true_eq] at hs
  obtain ⟨⟨hcount, hgrow⟩, hs⟩ := hs
  obtain ⟨ok, t₁, hg, hR⟩ := growForInsert_spec hG hgrow
  unfold insertNew
  rw [hg] at hs ⊢
  cases ok with
  | false => exact ⟨.failed, t₁, t₁, rfl, hR.good, by decide, hR, rfl⟩
  | true =>
    have hcount₁ : t₁.entries.length < valNone := lt_of_le_of_lt hR.count hcount
    rcases allocEntry_spec hR.good.inv hcount₁ (hashHi (fns.hash key)) key value with
      ⟨t₂, ha, hid⟩ | ⟨b, ha, hI, hc, -⟩
    · simp only [ha, if_true]
      exact ⟨.failed, t₁, t₂, rfl, hid.good hR.good, by decide, hR, hid.pairs⟩
    · simp only [ha] at hs ⊢
      rw [if_neg (ne_of_lt hcount₁)]
      rw [decide_eq_false (ne_of_lt hcount₁), Bool.false_or] at hs
      have hlt : h48 (fns.hash key) < 2 ^ 48 := Nat.mod_lt _ (by decide)
      obtain ⟨ok, b', hi, hI', hc'⟩ := L.insert_keeps hI hlt (ne_of_lt hcount₁) hs
      rw [hi]
      rw [hc] at hc'
      obtain ⟨hG', hp⟩ := hR.good.push hI' hc' hcount₁ (newEntry_ok fns key value)
      rw [newEntry_pair] at hp
      cases ok with
      | false => exact ⟨.failed, t₁, _, rfl, hG', by decide, hR, hp⟩
      | true => exact ⟨.ok, t₁, _, rfl, hG', by decide, hR, hp⟩

/-- The second phase of `do_insert_with_hash`. -/
lemma insertNew_spec (hG : Good L fns t) {key value : Bytes}
    (hs : insertNewSafe L W t (fns.hash key) key value = true) :
    ∃ r t', insertNew ix t (fns.hash key) key value = some (r, t') ∧ Good L fns t' ∧ r ≠ .update ∧
      (Strict ix W →
        pairs L t' = if r = .ok then (key, storedVal value) ::ₘ pairs L t else pairs L t) := by
  obtain ⟨r, t₁, t', h1, h2, h3, hR, hp⟩ := insertNew_adds hG hs
  refine ⟨r, t', h1, h2, h3, fun hst => ?_⟩
  rw [hp, hR.pairs hst]

/-- `ht_upsert` on a key that is there: the first match gets the value, the others go. -/
lemma upsertFound_spec (hG : Good L fns t) {key : Bytes} {m : ℕ} {ms : List ℕ}
    (hm : Matched L fns t key (m :: ms)) (value : Bytes) :
    (∃ t', updateEntryValue ix t m key value = (false, t') ∧ Idle L t t') ∨
    ∃ t' k', updateEntryValue ix t m key value = (true, t') ∧
      Good L fns (removeMatches ix (fns.hash key) ms t') ∧
      (k' = key ∨ k' = (t.entry m).key) ∧
      (((m :: ms).map fun i => (t.entry i).pair : List _) : Multiset (Bytes × Bytes)) +
        pairs L (removeMatches ix (fns.hash key) ms t') = (k', storedVal value) ::ₘ pairs L t := by
  have hmem := hm.mem m List.mem_cons_self
  obtain ⟨hnotin, hnd⟩ := List.nodup_cons.mp hm.nodup
  rcases updateEntryValue_spec hG hmem (hm.key m List.mem_cons_self) value with
    h | ⟨t', k', h1, h2, h3, h4, h5, h6⟩
  · exact Or.inl h
  · refine Or.inr ⟨t', k', h1, ?_⟩
    obtain ⟨h7, h8⟩ := removeMatches_spec h2 hnd fun i hi => by
      rw [h5]
      exact hm.mem i (List.mem_cons_of_mem _ hi)
    refine ⟨h7, h3, ?_⟩
    have hsame : (ms.map fun i => (t'.entry i).pair) = ms.map fun i => (t.entry i).pair :=
      List.map_congr_left fun i hi => by rw [h6 i fun h => hnotin (h ▸ hi)]
    have hrw := pairs_rewrite hG hmem h5 h6
    rw [hsame] at h8
    rw [List.map_cons, ← Multiset.cons_coe, Multiset.cons_add, ← h8, hrw, h4]

/-! ## Removal -/

/-- `vals_match` tests the value. -/
lemma HtEntry.Ok.valsMatch_iff {h i : ℕ} (hok : (t.entry i).Ok fns h) {value : Bytes} :
    valsMatch t i value = true ↔ (t.entry i).val = value := by
  unfold valsMatch
  simp only [Bool.and_eq_true, beq_iff_eq]
  refine ⟨fun h => h.2, fun h => ⟨?_, h⟩⟩
  rw [hok.valLen, h]

/-- The loop of `ht_remove_kv` over the matches. -/
def removeKvLoop (ix : IndexOps B) (hash : ℕ) (value : Bytes) (ms : List ℕ) (r : ℕ × HtTable B) :
    ℕ × HtTable B :=
  ms.foldl (fun r i =>
    if valsMatch r.2 i value then (r.1 + 1, removeMatches ix hash [i] r.2) else r) r

/-- It removes the matches that have the value. -/
lemma removeKvLoop_spec (hG : Good L fns t) {hash : ℕ} (value : Bytes) {ms : List ℕ}
    (hnd : ms.Nodup) (hms : ∀ i ∈ ms, (h48 hash, i) ∈ L.contents t.bare) (n : ℕ) :
    ∃ n' t', removeKvLoop ix hash value ms (n, t) = (n + n', t') ∧ Good L fns t' ∧
      n' = (ms.filter fun i => valsMatch t i value).length ∧
      (((ms.filter fun i => valsMatch t i value).map fun i => (t.entry i).pair : List _) :
        Multiset (Bytes × Bytes)) + pairs L t' = pairs L t := by
  induction ms generalizing t n with
  | nil => exact ⟨0, t, rfl, hG, rfl, zero_add _⟩
  | cons i ms ih =>
    obtain ⟨hi, hnd⟩ := List.nodup_cons.mp hnd
    have hnotin : ∀ j ∈ ms, j ≠ i := fun j hj h => hi (h ▸ hj)
    have hstep : removeKvLoop ix hash value (i :: ms) (n, t) = removeKvLoop ix hash value ms
        (if valsMatch t i value then (n + 1, removeMatches ix hash [i] t) else (n, t)) := rfl
    rw [hstep, List.filter_cons]
    by_cases hv : valsMatch t i value = true
    · rw [if_pos hv, if_pos hv]
      obtain ⟨h1, h2, h3, h4⟩ := removeOne_spec hG (hms i List.mem_cons_self)
      obtain ⟨n', t', h5, h6, h7, h8⟩ := ih h1 hnd (by
        intro j hj
        rw [h3]
        refine (Multiset.mem_erase_of_ne ?_).mpr (hms j (List.mem_cons_of_mem _ hj))
        exact fun h => hnotin j hj (Prod.ext_iff.mp h).2) (n + 1)
      have hfil : (ms.filter fun j => valsMatch (removeMatches ix hash [i] t) j value) =
          ms.filter fun j => valsMatch t j value :=
        List.filter_congr fun j hj => by
          unfold valsMatch
          rw [h4 j (hnotin j hj)]
      have hmap : ((ms.filter fun j => valsMatch t j value).map
          fun j => ((removeMatches ix hash [i] t).entry j).pair) =
          (ms.filter fun j => valsMatch t j value).map fun j => (t.entry j).pair :=
        List.map_congr_left fun j hj => by rw [h4 j (hnotin j (List.mem_of_mem_filter hj))]
      rw [hfil] at h7 h8
      rw [hmap] at h8
      refine ⟨n' + 1, t', by rw [h5]; congr 1; omega, h6, by rw [List.length_cons, h7], ?_⟩
      rw [List.map_cons, ← Multiset.cons_coe, Multiset.cons_add, h8, h2]
    · rw [if_neg hv, if_neg hv]
      exact ih hG hnd (fun j hj => hms j (List.mem_cons_of_mem _ hj)) n

/-! ## One call -/

/-- Adding a pair, or failing to, is what the three insertions do to a key that is not there. -/
lemma own_added {r : HtInsertResult} {key : Bytes} {value : Option Bytes}
    {p p' : Multiset (Bytes × Bytes)} (hr : r ≠ .update)
    (hp : p' = if r = .ok then (key, storedVal (value.getD [])) ::ₘ p else p) :
    (HtOp.insert (some key) value).Own fns (.inserted r) p p' ∧
      (HtOp.upsert (some key) value).Own fns (.inserted r) p p' ∧
      (HtOp.unsert (some key) value).Own fns (.inserted r) p p' := by
  cases r with
  | ok => exact ⟨⟨key, rfl, hp⟩, ⟨key, rfl, hp⟩, ⟨key, rfl, hp⟩⟩
  | update => exact absurd rfl hr
  | failed => exact ⟨hp, hp, hp⟩

/-- `ht_insert`. -/
lemma run_insert (hG : Good L fns t) {key value : Option Bytes}
    (hs : (HtOp.insert key value).safe L fns W t = true) :
    ∃ r t', (HtOp.insert key value).run ix fns t = some (r, t') ∧ Good L fns t' ∧
      (Strict ix W → (HtOp.insert key value).Own fns r (pairs L t) (pairs L t')) := by
  cases key with
  | none => exact ⟨_, t, rfl, hG, fun _ => rfl⟩
  | some key =>
    obtain ⟨r, t', h1, h2, h3, h4⟩ := insertNew_spec hG hs
    exact ⟨.inserted r, t', congrArg (Option.map _) h1, h2, fun hst => (own_added h3 (h4 hst)).1⟩

/-- `ht_upsert`. -/
lemma run_upsert (hG : Good L fns t) {key value : Option Bytes}
    (hs : (HtOp.upsert key value).safe L fns W t = true) :
    ∃ r t', (HtOp.upsert key value).run ix fns t = some (r, t') ∧ Good L fns t' ∧
      (Strict ix W → (HtOp.upsert key value).Own fns r (pairs L t) (pairs L t')) := by
  cases key with
  | none => exact ⟨_, t, rfl, hG, fun _ => rfl⟩
  | some key =>
    unfold HtOp.safe at hs
    rw [Bool.and_eq_true] at hs
    obtain ⟨ms, t₁, hms, hid, hM⟩ := keyMatches_spec hG hs.1
    rw [hms] at hs
    have hG₁ : Good L fns t₁ := hid.good hG
    unfold HtOp.run htUpsert insertKey doInsertWithHash
    simp only [Option.getD_some, hms]
    cases ms with
    | nil =>
      obtain ⟨r, t', h1, h2, h3, h4⟩ := insertNew_spec hG₁ hs.2
      rw [hid.pairs] at h4
      exact ⟨.inserted r, t', congrArg (Option.map _) h1, h2,
        fun hst => (own_added h3 (h4 hst)).2.1⟩
    | cons m ms =>
      rcases upsertFound_spec hG₁ hM (value.getD []) with ⟨t', h1, h2⟩ | ⟨t', k', h1, h2, h3, h4⟩
      · simp only [h1]
        exact ⟨_, t', rfl, h2.good hG₁, fun _ => h2.pairs.trans hid.pairs⟩
      · simp only [h1]
        refine ⟨_, _, rfl, h2, fun _ => ?_⟩
        rw [hid.pairs] at h4
        refine ⟨key, k', _, rfl, ?_, ?_, ?_, h4⟩
        · intro q hq
          obtain ⟨i, hi, rfl⟩ := List.mem_map.mp (Multiset.mem_coe.mp hq)
          exact hM.key i hi
        · refine h3.imp id fun h => ?_
          rw [h]
          exact hM.key m List.mem_cons_self
        · exact fun h => by cases Multiset.coe_eq_zero _ |>.mp h

/-- `ht_unsert`. -/
lemma run_unsert (hG : Good L fns t) {key value : Option Bytes}
    (hs : (HtOp.unsert key value).safe L fns W t = true) :
    ∃ r t', (HtOp.unsert key value).run ix fns t = some (r, t') ∧ Good L fns t' ∧
      (Strict ix W → (HtOp.unsert key value).Own fns r (pairs L t) (pairs L t')) := by
  cases key with
  | none => exact ⟨_, t, rfl, hG, fun _ => rfl⟩
  | some key =>
    unfold HtOp.safe at hs
    rw [Bool.and_eq_true, Bool.or_eq_true] at hs
    unfold HtOp.run htUnsert insertKey doInsertWithHash
    simp only [Option.getD_some]
    split
    · exact ⟨_, t, rfl, hG, fun _ => rfl⟩
    · rename_i hno
      obtain ⟨r, t', h1, h2, h3, h4⟩ := insertNew_spec hG (hs.2.resolve_left hno)
      exact ⟨.inserted r, t', congrArg (Option.map _) h1, h2,
        fun hst => (own_added h3 (h4 hst)).2.2⟩

/-- `ht_remove`. -/
lemma run_remove (hG : Good L fns t) {key : Option Bytes}
    (hs : (HtOp.remove key).safe L fns W t = true) :
    ∃ r t', (HtOp.remove key).run ix fns t = some (r, t') ∧ Good L fns t' ∧
      (Strict ix W → (HtOp.remove key).Own fns r (pairs L t) (pairs L t')) := by
  cases key with
  | none => exact ⟨_, t, rfl, hG, fun _ => ⟨0, by simp, rfl, zero_add _⟩⟩
  | some key =>
    unfold HtOp.safe at hs
    rw [Bool.and_eq_true] at hs
    obtain ⟨ms, t₁, hms, hid, hM⟩ := keyMatches_spec hG hs.1
    simp only [hms] at hs
    obtain ⟨h1, h2⟩ := removeMatches_spec (hid.good hG) hM.nodup hM.mem
    rw [hid.pairs] at h2
    unfold HtOp.run htRemove
    simp only [hms]
    have hown : ∀ t', pairs L t' = pairs L (removeMatches ix (fns.hash key) ms t₁) →
        (HtOp.remove (some key)).Own fns (.removed ms.length) (pairs L t) (pairs L t') := by
      intro t' hp
      refine ⟨(ms.map fun i => (t₁.entry i).pair : List _), ?_, ?_, ?_⟩
      · intro q hq
        obtain ⟨i, hi, rfl⟩ := List.mem_map.mp (Multiset.mem_coe.mp hq)
        exact ⟨key, rfl, hM.key i hi⟩
      · rw [Multiset.coe_card, List.length_map]
      · rw [hp, ← h2]
    split
    · rename_i hlen
      have hne : ms.isEmpty = false := by
        cases ms with
        | nil => cases hlen
        | cons m ms => rfl
      rw [hne, Bool.false_or] at hs
      obtain ⟨t', h3, h4⟩ := shrinkAfter_spec h1 hs.2
      rw [h3]
      exact ⟨_, t', rfl, h4.good, fun hst => hown _ (h4.pairs hst)⟩
    · rename_i hlen
      have hz : ms.length = 0 := by omega
      refine ⟨_, _, rfl, h1, fun _ => ?_⟩
      have := hown _ rfl
      rwa [hz] at this

/-- `ht_remove_kv`. -/
lemma run_removeKv (hG : Good L fns t) {key value : Option Bytes}
    (hs : (HtOp.removeKv key value).safe L fns W t = true) :
    ∃ r t', (HtOp.removeKv key value).run ix fns t = some (r, t') ∧ Good L fns t' ∧
      (Strict ix W → (HtOp.removeKv key value).Own fns r (pairs L t) (pairs L t')) := by
  refine ⟨_, _, rfl, ?_⟩
  have hnone : Good L fns t ∧ (Strict ix W →
      (HtOp.removeKv key value).Own fns (.removed 0) (pairs L t) (pairs L t)) :=
    ⟨hG, fun _ => ⟨0, by simp, rfl, zero_add _⟩⟩
  cases key with
  | none => exact hnone
  | some key =>
    cases value with
    | none => exact hnone
    | some value =>
      obtain ⟨ms, t₁, hms, hid, hM⟩ := keyMatches_spec hG hs
      have hG₁ : Good L fns t₁ := hid.good hG
      obtain ⟨n', t', h1, h2, h3, h4⟩ := removeKvLoop_spec hG₁ value hM.nodup hM.mem 0
      have hrun : htRemoveKv ix fns t (some key) (some value) = (n', t') := by
        unfold htRemoveKv
        simp only [hms]
        rw [zero_add] at h1
        exact h1
      rw [hrun]
      rw [hid.pairs] at h4
      refine ⟨h2, fun _ => ⟨_, ?_, ?_, h4⟩⟩
      · intro q hq
        obtain ⟨i, hi, rfl⟩ := List.mem_map.mp (Multiset.mem_coe.mp hq)
        obtain ⟨hi, hv⟩ := List.mem_filter.mp hi
        refine ⟨key, rfl, hM.key i hi, ?_⟩
        rw [← (hG₁.holds _ (hM.mem i hi)).ok.valsMatch_iff.mp hv]
        rfl
      · rw [Multiset.coe_card, List.length_map, h3]

/-- `ht_remove_kv_one`. -/
lemma run_removeKvOne (hG : Good L fns t) {key value : Option Bytes}
    (hs : (HtOp.removeKvOne key value).safe L fns W t = true) :
    ∃ r t', (HtOp.removeKvOne key value).run ix fns t = some (r, t') ∧ Good L fns t' ∧
      (Strict ix W → (HtOp.removeKvOne key value).Own fns r (pairs L t) (pairs L t')) := by
  cases key with
  | none => exact ⟨_, t, rfl, hG, fun _ => rfl⟩
  | some key =>
    cases value with
    | none => exact ⟨_, t, rfl, hG, fun _ => rfl⟩
    | some value =>
      unfold HtOp.safe at hs
      rw [Bool.and_eq_true] at hs
      obtain ⟨ms, t₁, hms, hid, hM⟩ := keyMatches_spec hG hs.1
      have hG₁ : Good L fns t₁ := hid.good hG
      simp only [hms] at hs
      unfold HtOp.run htRemoveKvOne
      simp only [hms]
      cases hf : ms.find? fun i => valsMatch t₁ i value with
      | none => exact ⟨_, t₁, rfl, hG₁, fun _ => hid.pairs⟩
      | some i =>
        rw [hf] at hs
        have hi := List.mem_of_find?_eq_some hf
        have hv : valsMatch t₁ i value = true := by simpa using List.find?_some hf
        obtain ⟨h1, h2, -, -⟩ := removeOne_spec hG₁ (hM.mem i hi)
        obtain ⟨t', h3, h4⟩ := shrinkAfter_spec h1 hs.2
        simp only [h3]
        refine ⟨_, t', rfl, h4.good, fun hst => ⟨(t₁.entry i).pair, key, rfl, hM.key i hi, ?_, ?_⟩⟩
        · rw [← (hG₁.holds _ (hM.mem i hi)).ok.valsMatch_iff.mp hv]
          rfl
        · rw [h4.pairs hst, ← h2, hid.pairs]

/-- A safe call returns, keeps the invariant and changes the pairs as it should. -/
lemma HtOp.run_spec (hG : Good L fns t) {op : HtOp} (hs : op.safe L fns W t = true) :
    ∃ r t', op.run ix fns t = some (r, t') ∧ Good L fns t' ∧
      (Strict ix W → op.Own fns r (pairs L t) (pairs L t')) := by
  cases op with
  | insert key value => exact run_insert hG hs
  | upsert key value => exact run_upsert hG hs
  | unsert key value => exact run_unsert hG hs
  | remove key => exact run_remove hG hs
  | removeKv key value => exact run_removeKv hG hs
  | removeKvOne key value => exact run_removeKvOne hG hs
  | resize n =>
    obtain ⟨ok, t', h1, h2⟩ := htResize_spec hG hs
    exact ⟨.done ok, t', congrArg (Option.map _) h1, h2.good, h2.pairs⟩
  | compact =>
    obtain ⟨ok, t', h1, h2, -⟩ := htRebuild_spec hG (L.capacity_pos hG.inv) hs
    exact ⟨.done ok, t', congrArg (Option.map _) h1, h2.good, h2.pairs⟩
  | clear =>
    obtain ⟨h1, h2⟩ := L.clear_keeps hG.inv
    exact ⟨_, _, rfl, Good.of_empty h1 h2, fun _ => pairs_of_empty h2 []⟩

/-- A run of safe calls. -/
lemma runHt_good (hG : Good L fns t) {ops : List HtOp} (hs : safeHt L fns W t ops = true) :
    ∃ t', runHt ix fns t ops = some t' ∧ Good L fns t' := by
  induction ops generalizing t with
  | nil => exact ⟨t, rfl, hG⟩
  | cons op ops ih =>
    rw [safeHt, Bool.and_eq_true] at hs
    obtain ⟨r, t₁, h1, h2, -⟩ := HtOp.run_spec hG hs.1
    rw [runHt]
    rw [h1] at hs ⊢
    exact ih h2 hs.2

end

end Draugr
