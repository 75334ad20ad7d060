import Draugr.Table.Index

/-!
# The pairs of a key/value table

The abstract value of an `ht_table_t` is the multiset of its (key, value) pairs. `Good` is the
invariant that ties the entry array to the index: an index entry `(h, i)` names an entry `i` whose
key hashes to `h` (48 bits) and to the entry's `hash_hi` (the 16 others), and no entry is named
twice.

Every operation of `src/ht.c` is a sequence of a few moves, and there is one lemma for each: drawing
an allocation (`Idle`), a scan for the matches of a key (`keyScan_spec`), removing matches
(`removeMatches_spec`), rewriting a value (`updateEntryValue_spec`) and adding an entry
(`addEntry_spec`).
-/

namespace Draugr
open Lib

section
variable {B : Type} {ix : IndexOps B} (L : IndexLaws ix) (fns : HtFns)

/-- The pairs the table holds. -/
def pairs (t : HtTable B) : Multiset (Bytes × Bytes) :=
  (L.contents t.bare).map fun e => (t.entry e.2).pair

/-- An entry stored under the 48-bit hash `h`: its fields agree with its key and its value. -/
structure HtEntry.Ok (h : ℕ) (e : HtEntry) : Prop where
  hash : h = h48 (fns.hash e.key)
  hi : e.hashHi = Draugr.hashHi (fns.hash e.key)
  keyLen : e.keyLen = e.key.length
  valLen : e.valLen = e.val.length
  valLt : e.valLen < 2 ^ 32

/-- The entry an index entry names is the one its hash says. -/
structure Holds (t : HtTable B) (e : ℕ × ℕ) : Prop where
  lt : e.2 < t.entries.length
  ok : (t.entry e.2).Ok fns e.1

/-- The invariant of the table. -/
structure Good (t : HtTable B) : Prop where
  inv : L.Inv t.bare
  holds : ∀ e ∈ L.contents t.bare, Holds fns t e
  nodup : ((L.contents t.bare).map Prod.snd).Nodup
  count : t.entries.length ≤ valNone

/-- The table is the same but for the allocations drawn. -/
structure Idle (t t' : HtTable B) : Prop where
  inv : L.Inv t'.bare
  contents : L.contents t'.bare = L.contents t.bare
  entries : t'.entries = t.entries

/-- `keys_match` against a key that is stored with its own hash. -/
def keyIs (k key : Bytes) : Bool :=
  h48 (fns.hash k) == h48 (fns.hash key) && hashHi (fns.hash k) == hashHi (fns.hash key) &&
    k.length == key.length && fns.eq k key

end

section
variable {B : Type} {ix : IndexOps B} {L : IndexLaws ix} {fns : HtFns} {t t' t'' : HtTable B}

/-- Doing nothing is idle. -/
lemma Idle.refl (h : L.Inv t.bare) : Idle L t t := ⟨h, rfl, rfl⟩

/-- Idle steps compose. -/
lemma Idle.trans (h : Idle L t t') (h' : Idle L t' t'') : Idle L t t'' :=
  ⟨h'.inv, h'.contents.trans h.contents, h'.entries.trans h.entries⟩

/-- An idle step changes no entry. -/
lemma Idle.entry (h : Idle L t t') (i : ℕ) : t'.entry i = t.entry i := by
  unfold HtTable.entry
  rw [h.entries]

/-- An idle step changes no pair. -/
lemma Idle.pairs (h : Idle L t t') : pairs L t' = pairs L t := by
  unfold Draugr.pairs
  rw [h.contents]
  exact Multiset.map_congr rfl fun e _ => by rw [h.entry]

/-- An idle step keeps the table good. -/
lemma Idle.good (h : Idle L t t') (hG : Good L fns t) : Good L fns t' := by
  refine ⟨h.inv, ?_, ?_, ?_⟩
  · intro e he
    rw [h.contents] at he
    obtain ⟨h1, h2⟩ := hG.holds e he
    exact ⟨by rwa [h.entries], by rwa [h.entry]⟩
  · rw [h.contents]
    exact hG.nodup
  · rw [h.entries]
    exact hG.count

/-- Drawing an allocation. -/
lemma HtTable.malloc_idle (hI : L.Inv t.bare) : Idle L t (t.malloc ix).2 := by
  obtain ⟨h1, h2⟩ := L.malloc_keeps hI
  exact ⟨h1, h2, rfl⟩

/-- A failed `alloc_entry`. -/
lemma HtTable.entryFailed_idle (hI : L.Inv t.bare) :
    Idle L t { t with bare := ix.entryFailed t.bare } := by
  obtain ⟨h1, h2⟩ := L.entryFailed_keeps hI
  exact ⟨h1, h2, rfl⟩

/-- No two index entries share an entry number. -/
lemma Good.unique (hG : Good L fns t) {e e' : ℕ × ℕ} (he : e ∈ L.contents t.bare)
    (he' : e' ∈ L.contents t.bare) (h : e.2 = e'.2) : e = e' :=
  Multiset.inj_on_of_nodup_map hG.nodup e he e' he' h

/-- There are no more index entries than entries. -/
lemma Good.card_le (hG : Good L fns t) : (L.contents t.bare).card ≤ t.entries.length := by
  have hsub : (L.contents t.bare).map Prod.snd ≤ Multiset.range t.entries.length := by
    rw [Multiset.le_iff_subset hG.nodup]
    intro i hi
    obtain ⟨e, he, rfl⟩ := Multiset.mem_map.mp hi
    exact Multiset.mem_range.mpr (hG.holds e he).lt
  simpa using Multiset.card_le_card hsub

/-- `ht_size` counts the pairs. -/
lemma Good.size_eq (hG : Good L fns t) : htSize ix t = (pairs L t).card := by
  unfold htSize pairs
  rw [Multiset.card_map, L.size_eq hG.inv]

/-! ## Iteration and lookup -/

/-- Iteration reports the pairs. -/
lemma htIterAll_eq (hI : L.Inv t.bare) :
    (htIterAll ix t : Multiset (Bytes × Bytes)) = pairs L t := by
  have hlanes : ((ix.main t.bare ++ ix.spill t.bare ++ ix.overflow t.bare : List (ℕ × ℕ)) :
      Multiset (ℕ × ℕ)) = L.contents t.bare := by
    rw [L.lanes hI, ← Multiset.coe_add, ← Multiset.coe_add]
  unfold htIterAll pairs
  rw [← Multiset.map_coe, ← Multiset.filter_coe, hlanes, Multiset.filter_eq_self.mpr (L.val_ne hI)]

/-- On the entries a lookup visits, `keys_match` tests the key. -/
lemma Holds.keysMatch_eq {e : ℕ × ℕ} (he : Holds fns t e) {key : Bytes}
    (h : e.1 = h48 (fns.hash key)) :
    keysMatch fns t e.2 (hashHi (fns.hash key)) key = keyIs fns (t.entry e.2).key key := by
  unfold keysMatch keyIs
  simp only
  rw [he.ok.hi, he.ok.keyLen, ← he.ok.hash, h]
  simp

/-- A key matches only under its own hash. -/
lemma Holds.hash_of_keyIs {e : ℕ × ℕ} (he : Holds fns t e) {key : Bytes}
    (h : keyIs fns (t.entry e.2).key key = true) : e.1 = h48 (fns.hash key) := by
  rw [he.ok.hash]
  unfold keyIs at h
  simp only [Bool.and_eq_true, beq_iff_eq] at h
  exact h.1.1.1

/-- A Boolean filter of a list, as a filter of its multiset. -/
lemma coe_filter_bool {α : Type} (p : α → Bool) (l : List α) :
    (l.filter p : Multiset α) = (l : Multiset α).filter fun a => p a = true := by
  rw [Multiset.filter_coe]
  simp

/-- The visits of a lookup that match the key. -/
lemma findAll_filter (hG : Good L fns t) {key : Bytes}
    (hs : L.findSafe t.bare (fns.hash key) = true) :
    ((ix.findAll t.bare (fns.hash key)).filter
        fun i => keysMatch fns t i (hashHi (fns.hash key)) key : Multiset ℕ) =
      ((L.contents t.bare).filter fun e => keyIs fns (t.entry e.2).key key =
        true).map Prod.snd := by
  rw [coe_filter_bool, L.findAll_eq hG.inv hs, valuesOf, Multiset.filter_map,
    Multiset.filter_filter]
  refine congrArg (Multiset.map Prod.snd) (Multiset.filter_congr ?_)
  intro e he
  constructor
  · rintro ⟨h1, h2⟩
    rwa [← (hG.holds e he).keysMatch_eq h2]
  · intro h
    have h1 := (hG.holds e he).hash_of_keyIs h
    exact ⟨by rwa [Function.comp_apply, (hG.holds e he).keysMatch_eq h1], h1⟩

/-- `ht_find_key_all` reports the pairs of the key. -/
lemma htFindKeyAll_eq (hG : Good L fns t) {key : Bytes}
    (hs : L.findSafe t.bare (fns.hash key) = true) :
    (htFindKeyAll ix fns t key : Multiset (Bytes × Bytes)) =
      (pairs L t).filter fun p => keyIs fns p.1 key = true := by
  unfold htFindKeyAll pairs
  simp only
  rw [← Multiset.map_coe, findAll_filter hG hs, Multiset.map_map, Multiset.filter_map]
  rfl

/-- `ht_find` returns the value of the first pair `ht_find_key_all` reports. -/
lemma htFind_eq (t : HtTable B) (key : Bytes) :
    htFind ix fns t key = ((htFindKeyAll ix fns t key).head?).map Prod.snd := by
  unfold htFind htFindKeyAll
  simp only
  rw [List.head?_map, List.head?_filter, Option.map_map]
  rfl

/-! ## Scanning for the matches of a key -/

/-- An idle step matches the same keys. -/
lemma Idle.keysMatch (h : Idle L t t') (i hi : ℕ) (key : Bytes) :
    keysMatch fns t' i hi key = keysMatch fns t i hi key := by
  unfold Draugr.keysMatch
  rw [h.entry]

/-- The scan takes matches in order, as far as the array of matches can grow. -/
lemma keyScan_spec (fns : HtFns) (hI : L.Inv t.bare) (hi : ℕ) (key : Bytes) (is ms : List ℕ)
    (cap : ℕ) :
    ∃ taken t', keyScan ix fns hi key is ms cap t = (ms ++ taken, t') ∧ Idle L t t' ∧
      taken <+: is.filter fun i => keysMatch fns t i hi key := by
  induction is generalizing ms cap t with
  | nil => exact ⟨[], t, by rw [List.append_nil]; rfl, Idle.refl hI, List.nil_prefix⟩
  | cons i is ih =>
    rw [keyScan]
    by_cases hm : keysMatch fns t i hi key = true
    · rw [if_pos hm, List.filter_cons, if_pos hm]
      by_cases hroom : ms.length < cap
      · rw [if_pos hroom]
        obtain ⟨taken, t', h1, h2, h3⟩ := ih hI (ms ++ [i]) cap
        exact ⟨i :: taken, t', by rw [← List.append_cons] at h1; exact h1, h2,
          List.cons_prefix_cons.mpr ⟨rfl, h3⟩⟩
      · rw [if_neg hroom]
        have hid := HtTable.malloc_idle (L := L) hI
        rcases hmal : t.malloc ix with ⟨ok, t₁⟩
        rw [hmal] at hid
        cases ok with
        | false => exact ⟨[], t₁, by rw [List.append_nil], hid, List.nil_prefix⟩
        | true =>
          obtain ⟨taken, t', h1, h2, h3⟩ := ih hid.inv (ms ++ [i]) (cap * 2)
          simp only [hid.keysMatch] at h3
          exact ⟨i :: taken, t', by rw [← List.append_cons] at h1; exact h1, hid.trans h2,
            List.cons_prefix_cons.mpr ⟨rfl, h3⟩⟩
    · rw [if_neg hm, List.filter_cons, if_neg hm]
      exact ih hI ms cap

/-- Entry numbers that hold the key. -/
structure Matched (L : IndexLaws ix) (fns : HtFns) (t : HtTable B) (key : Bytes) (ms : List ℕ) :
    Prop where
  nodup : ms.Nodup
  mem : ∀ i ∈ ms, (h48 (fns.hash key), i) ∈ L.contents t.bare
  key : ∀ i ∈ ms, keyIs fns (t.entry i).key key = true

/-- The matches a lookup visits. -/
lemma matched_filter (hG : Good L fns t) {key : Bytes}
    (hs : L.findSafe t.bare (fns.hash key) = true) :
    Matched L fns t key ((ix.findAll t.bare (fns.hash key)).filter
      fun i => keysMatch fns t i (hashHi (fns.hash key)) key) := by
  have hf := findAll_filter hG hs
  have hmem : ∀ i ∈ (ix.findAll t.bare (fns.hash key)).filter
      (fun i => keysMatch fns t i (hashHi (fns.hash key)) key),
      (h48 (fns.hash key), i) ∈ L.contents t.bare ∧ keyIs fns (t.entry i).key key = true := by
    intro i hi
    rw [← Multiset.mem_coe, hf] at hi
    obtain ⟨e, he, rfl⟩ := Multiset.mem_map.mp hi
    obtain ⟨he, hk⟩ := Multiset.mem_filter.mp he
    rw [← (hG.holds e he).hash_of_keyIs hk]
    exact ⟨he, hk⟩
  refine ⟨?_, fun i hi => (hmem i hi).1, fun i hi => (hmem i hi).2⟩
  rw [← Multiset.coe_nodup, hf]
  exact Multiset.nodup_of_le (Multiset.map_le_map (Multiset.filter_le _ _)) hG.nodup

/-- Fewer matches are matches. -/
lemma Matched.sublist {key : Bytes} {ms ms' : List ℕ} (h : Matched L fns t key ms)
    (hs : ms'.Sublist ms) : Matched L fns t key ms' :=
  ⟨h.nodup.sublist hs, fun i hi => h.mem i (hs.subset hi), fun i hi => h.key i (hs.subset hi)⟩

/-- Matches in a table that is the same but for allocations. -/
lemma Idle.matched (h : Idle L t t') {key : Bytes} {ms : List ℕ} (hm : Matched L fns t key ms) :
    Matched L fns t' key ms := by
  refine ⟨hm.nodup, ?_, ?_⟩
  · rw [h.contents]
    exact hm.mem
  · intro i hi
    rw [h.entry]
    exact hm.key i hi

/-- The matches of a key. -/
lemma keyMatches_spec (hG : Good L fns t) {key : Bytes}
    (hs : L.findSafe t.bare (fns.hash key) = true) :
    ∃ ms t', keyMatches ix fns t (fns.hash key) key = (ms, t') ∧ Idle L t t' ∧
      Matched L fns t' key ms := by
  obtain ⟨ms, t', h1, h2, h3⟩ := keyScan_spec fns hG.inv (hashHi (fns.hash key)) key
    (ix.findAll t.bare (fns.hash key)) [] 64
  exact ⟨ms, t', h1, h2, h2.matched ((matched_filter hG hs).sublist h3.sublist)⟩

/-! ## Removing matches -/

/-- Writing an entry leaves the others. -/
lemma HtTable.entry_setEntry_ne (t : HtTable B) {i j : ℕ} (h : j ≠ i) (e : HtEntry) :
    (t.setEntry i e).entry j = t.entry j := by
  unfold HtTable.entry HtTable.setEntry
  simp only [List.getD_eq_getElem?_getD]
  rw [List.getElem?_set_ne (Ne.symm h)]

/-- Reading an entry back. -/
lemma HtTable.entry_setEntry (t : HtTable B) {i : ℕ} (h : i < t.entries.length) (e : HtEntry) :
    (t.setEntry i e).entry i = e := by
  unfold HtTable.entry HtTable.setEntry
  simp [h]

/-- A table with other entries where the index names none of them. -/
lemma Holds.of_entry {e : ℕ × ℕ} (h : Holds fns t e) (hl : t'.entries.length = t.entries.length)
    (he : t'.entry e.2 = t.entry e.2) : Holds fns t' e :=
  ⟨hl ▸ h.lt, he ▸ h.ok⟩

/-- Removing one entry removes its pair. -/
lemma removeOne_spec (hG : Good L fns t) {hash i : ℕ} (hi : (h48 hash, i) ∈ L.contents t.bare) :
    Good L fns (removeMatches ix hash [i] t) ∧
      pairs L t = (t.entry i).pair ::ₘ pairs L (removeMatches ix hash [i] t) ∧
      L.contents (removeMatches ix hash [i] t).bare = (L.contents t.bare).erase (h48 hash, i) ∧
      (∀ j, j ≠ i → (removeMatches ix hash [i] t).entry j = t.entry j) := by
  set t' := removeMatches ix hash [i] t with ht'
  obtain ⟨hinv, hcon⟩ := L.removeVal_keeps hash i hG.inv
  have hbare : t'.bare = (ix.removeVal t.bare hash i).2 := rfl
  rw [← hbare] at hinv hcon
  have hentry : ∀ j, j ≠ i → t'.entry j = t.entry j := fun j hj => t.entry_setEntry_ne hj _
  have hlen : t'.entries.length = t.entries.length := List.length_set
  have hnd : (L.contents t.bare).Nodup := Multiset.Nodup.of_map _ hG.nodup
  have hne : ∀ e ∈ L.contents t'.bare, e ∈ L.contents t.bare ∧ e.2 ≠ i := by
    intro e he
    rw [hcon, hnd.mem_erase_iff] at he
    exact ⟨he.2, fun h => he.1 (hG.unique he.2 hi h)⟩
  refine ⟨⟨hinv, ?_, ?_, by rw [hlen]; exact hG.count⟩, ?_, hcon, hentry⟩
  · intro e he
    exact (hG.holds e (hne e he).1).of_entry hlen (hentry _ (hne e he).2)
  · rw [hcon]
    exact Multiset.nodup_of_le (Multiset.map_le_map (Multiset.erase_le _ _)) hG.nodup
  · unfold pairs
    rw [← Multiset.cons_erase hi, Multiset.map_cons, ← hcon]
    refine congrArg _ (Multiset.map_congr rfl fun e he => ?_)
    rw [hentry _ (hne e he).2]

/-- Removing matches removes exactly their pairs. -/
lemma removeMatches_spec (hG : Good L fns t) {hash : ℕ} {ms : List ℕ} (hnd : ms.Nodup)
    (hms : ∀ i ∈ ms, (h48 hash, i) ∈ L.contents t.bare) :
    Good L fns (removeMatches ix hash ms t) ∧
      pairs L t = (ms.map fun i => (t.entry i).pair : List _) +
      pairs L (removeMatches ix hash ms t) := by
  induction ms generalizing t with
  | nil => exact ⟨hG, (zero_add _).symm⟩
  | cons i ms ih =>
    obtain ⟨h1, h2, h3, h4⟩ := removeOne_spec hG (hms i List.mem_cons_self)
    obtain ⟨hi, hnd⟩ := List.nodup_cons.mp hnd
    have hnotin : ∀ j ∈ ms, j ≠ i := fun j hj h => hi (h ▸ hj)
    obtain ⟨h5, h6⟩ := ih h1 hnd (by
      intro j hj
      rw [h3]
      refine (Multiset.mem_erase_of_ne ?_).mpr (hms j (List.mem_cons_of_mem _ hj))
      exact fun h => hnotin j hj (Prod.ext_iff.mp h).2)
    refine ⟨h5, ?_⟩
    have hmap : (ms.map fun j => ((removeMatches ix hash [i] t).entry j).pair) =
        ms.map fun j => (t.entry j).pair :=
      List.map_congr_left fun j hj => by rw [h4 j (hnotin j hj)]
    rw [h2, h6, hmap, List.map_cons, ← Multiset.cons_coe, Multiset.cons_add]
    rfl

/-! ## Rewriting a value -/

/-- The part of a value that is read back: `val_len` has 32 bits. -/
def storedVal (value : Bytes) : Bytes := value.take (value.length % 2 ^ 32)

/-- A value whose length has 32 bits is stored whole. -/
lemma storedVal_eq {value : Bytes} (h : value.length < 2 ^ 32) : storedVal value = value := by
  unfold storedVal
  rw [Nat.mod_eq_of_lt h, List.take_length]

/-- The length of a stored value is cut to 32 bits. -/
lemma storedVal_length (value : Bytes) : (storedVal value).length = value.length % 2 ^ 32 := by
  unfold storedVal
  rw [List.length_take]
  exact min_eq_left (Nat.mod_le _ _)

/-- Rewriting an entry that the index names. -/
lemma Good.setEntry (hG : Good L fns t) {h i : ℕ} (hi : (h, i) ∈ L.contents t.bare) {e : HtEntry}
    (hok : e.Ok fns h) : Good L fns (t.setEntry i e) := by
  have hlen : (t.setEntry i e).entries.length = t.entries.length := List.length_set
  refine ⟨hG.inv, ?_, hG.nodup, by rw [hlen]; exact hG.count⟩
  intro e' he'
  by_cases h' : e'.2 = i
  · have heq : e' = (h, i) := hG.unique he' hi h'
    rw [heq]
    refine ⟨hlen ▸ (hG.holds _ hi).lt, ?_⟩
    rwa [t.entry_setEntry (hG.holds _ hi).lt e]
  · exact (hG.holds e' he').of_entry hlen (t.entry_setEntry_ne h' e)

/-- What `keyIs` tests. -/
lemma keyIs_iff {k key : Bytes} : keyIs fns k key = true ↔ h48 (fns.hash k) = h48 (fns.hash key) ∧
    hashHi (fns.hash k) = hashHi (fns.hash key) ∧ k.length = key.length ∧ fns.eq k key = true := by
  unfold keyIs
  simp only [Bool.and_eq_true, beq_iff_eq, and_assoc]

/-- `update_entry_value` on a match replaces its pair by one with the new value. -/
lemma updateEntryValue_spec (hG : Good L fns t) {key : Bytes} {i : ℕ}
    (hi : (h48 (fns.hash key), i) ∈ L.contents t.bare)
    (hk : keyIs fns (t.entry i).key key = true) (value : Bytes) :
    (∃ t', updateEntryValue ix t i key value = (false, t') ∧ Idle L t t') ∨
    ∃ t' k, updateEntryValue ix t i key value = (true, t') ∧ Good L fns t' ∧
      (k = key ∨ k = (t.entry i).key) ∧ (t'.entry i).pair = (k, storedVal value) ∧
      L.contents t'.bare = L.contents t.bare ∧ ∀ j, j ≠ i → t'.entry j = t.entry j := by
  obtain ⟨hlt, hhash, hhi, hkl, hvl, hv32⟩ := hG.holds _ hi
  obtain ⟨-, hk2, hk3, -⟩ := keyIs_iff.mp hk
  simp only at hlt hhash hhi hkl hvl hv32
  unfold updateEntryValue
  simp only
  split
  · -- the value is written in place, the key bytes stay
    rename_i hlen
    right
    set e : HtEntry :=
      { t.entry i with kv := some (((t.entry i).kv.getD ([], [])).1, value) } with he
    have hekey : e.key = (t.entry i).key := rfl
    have heval : e.val = storedVal value := by
      unfold storedVal
      rw [hlen, Nat.mod_eq_of_lt hv32]
      rfl
    have hok : e.Ok fns (h48 (fns.hash key)) := by
      refine ⟨hhash, hhi, hkl, ?_, hv32⟩
      rw [heval, storedVal_length, hlen, Nat.mod_eq_of_lt hv32]
    refine ⟨_, (t.entry i).key, rfl, hG.setEntry hi hok, Or.inr rfl, ?_, rfl,
      fun j hj => t.entry_setEntry_ne hj e⟩
    rw [t.entry_setEntry hlt]
    exact Prod.ext hekey heval
  · -- a new block with the new key bytes and value
    have hid := HtTable.malloc_idle (L := L) hG.inv
    rcases hmal : t.malloc ix with ⟨ok, t₁⟩
    rw [hmal] at hid
    cases ok with
    | false => exact Or.inl ⟨t₁, rfl, hid⟩
    | true =>
      right
      set e : HtEntry :=
        { t.entry i with valLen := value.length % 2 ^ 32, kv := some (key, value) } with he
      have hekey : e.key = key := by
        show key.take (t.entry i).keyLen = key
        rw [hkl, hk3, List.take_length]
      have hG₁ : Good L fns t₁ := hid.good hG
      have hi₁ : (h48 (fns.hash key), i) ∈ L.contents t₁.bare := by rwa [hid.contents]
      have hok : e.Ok fns (h48 (fns.hash key)) := by
        refine ⟨by rw [hekey], ?_, ?_, (storedVal_length value).symm, Nat.mod_lt _ (by decide)⟩
        · rw [hekey, ← hk2]
          exact hhi
        · rw [hekey, ← hk3]
          exact hkl
      refine ⟨_, key, rfl, hG₁.setEntry hi₁ hok, Or.inl rfl, ?_, hid.contents, ?_⟩
      · rw [t₁.entry_setEntry (by rwa [hid.entries])]
        exact Prod.ext hekey rfl
      · intro j hj
        rw [t₁.entry_setEntry_ne hj, hid.entry]

/-- The pairs after a rewrite of one entry. -/
lemma pairs_rewrite (hG : Good L fns t) {h i : ℕ} (hi : (h, i) ∈ L.contents t.bare)
    (hcon : L.contents t'.bare = L.contents t.bare) (hentry : ∀ j, j ≠ i → t'.entry j = t.entry j) :
    (t.entry i).pair ::ₘ pairs L t' = (t'.entry i).pair ::ₘ pairs L t := by
  have hnd : (L.contents t.bare).Nodup := Multiset.Nodup.of_map _ hG.nodup
  unfold pairs
  rw [hcon, ← Multiset.cons_erase hi, Multiset.map_cons, Multiset.map_cons, Multiset.cons_swap]
  refine congrArg _ (congrArg _ (Multiset.map_congr rfl fun e he => ?_))
  rw [hnd.mem_erase_iff] at he
  rw [hentry _ fun h' => he.1 (hG.unique he.2 hi h')]

/-! ## Adding an entry -/

/-- A new entry at the end of the array, and its number in the index if it got there. -/
lemma Good.push (hG : Good L fns t) {b : B} {h : ℕ} {e : HtEntry} {ok : Bool} (hinv : L.Inv b)
    (hcon : L.contents b =
      if ok then (h, t.entries.length) ::ₘ L.contents t.bare else L.contents t.bare)
    (hcount : t.entries.length < valNone) (hok : e.Ok fns h) :
    Good L fns ⟨b, t.entries ++ [e]⟩ ∧
      pairs L ⟨b, t.entries ++ [e]⟩ = if ok then e.pair ::ₘ pairs L t else pairs L t := by
  set t' : HtTable B := ⟨b, t.entries ++ [e]⟩ with ht'
  have hlen : t'.entries.length = t.entries.length + 1 := List.length_append
  have hold : ∀ i, i < t.entries.length → t'.entry i = t.entry i := by
    intro i hi
    unfold HtTable.entry
    simp only [ht', List.getD_eq_getElem?_getD]
    rw [List.getElem?_append_left hi]
  have hnew : t'.entry t.entries.length = e := by
    unfold HtTable.entry
    simp [ht']
  have hkeep : ∀ e' ∈ L.contents t.bare, Holds fns t' e' := by
    intro e' he'
    obtain ⟨h1, h2⟩ := hG.holds e' he'
    exact ⟨by rw [hlen]; omega, by rwa [hold _ h1]⟩
  have hmap : (L.contents t.bare).map (fun e' => (t'.entry e'.2).pair) = pairs L t :=
    Multiset.map_congr rfl fun e' he' => by rw [hold _ (hG.holds e' he').lt]
  cases ok with
  | false =>
    have hcon : L.contents t'.bare = L.contents t.bare := hcon
    refine ⟨⟨hinv, ?_, ?_, by rw [hlen]; exact hcount⟩, ?_⟩
    · rw [hcon]
      exact hkeep
    · rw [hcon]
      exact hG.nodup
    · unfold pairs
      rw [hcon]
      exact hmap
  | true =>
    have hcon : L.contents t'.bare = (h, t.entries.length) ::ₘ L.contents t.bare := hcon
    refine ⟨⟨hinv, ?_, ?_, by rw [hlen]; exact hcount⟩, ?_⟩
    · rw [hcon]
      intro e' he'
      rcases Multiset.mem_cons.mp he' with rfl | he'
      · exact ⟨by rw [hlen]; exact Nat.lt_succ_self _, by rwa [hnew]⟩
      · exact hkeep e' he'
    · rw [hcon, Multiset.map_cons, Multiset.nodup_cons]
      refine ⟨fun hmem => ?_, hG.nodup⟩
      obtain ⟨e', he', heq⟩ := Multiset.mem_map.mp hmem
      have := (hG.holds e' he').lt
      omega
    · have : pairs L t' = (t'.entry t.entries.length).pair ::ₘ
          (L.contents t.bare).map fun e' => (t'.entry e'.2).pair := by
        unfold pairs
        rw [hcon, Multiset.map_cons]
      rw [this, hnew, hmap]
      rfl

/-- `alloc_entry`. -/
lemma allocEntry_spec (hI : L.Inv t.bare) (hcount : t.entries.length < valNone) (hi : ℕ)
    (key value : Bytes) :
    (∃ t', allocEntry ix t hi key value = (valNone, t') ∧ Idle L t t') ∨
    ∃ b, allocEntry ix t hi key value = (t.entries.length,
        ⟨b, t.entries ++ [⟨key.length, hi, value.length % 2 ^ 32, some (key, value)⟩]⟩) ∧
      L.Inv b ∧ L.contents b = L.contents t.bare ∧ b = (ix.malloc t.bare).2 := by
  have hlt : t.entries.length % 2 ^ 32 = t.entries.length := by
    refine Nat.mod_eq_of_lt ?_
    unfold valNone at hcount
    omega
  unfold allocEntry
  split
  · exact Or.inl ⟨t, rfl, Idle.refl hI⟩
  · rename_i hkey
    have hid := HtTable.malloc_idle (L := L) hI
    have hb : (t.malloc ix).2.bare = (ix.malloc t.bare).2 := rfl
    rcases hmal : t.malloc ix with ⟨ok, t₁⟩
    rw [hmal] at hid hb
    cases ok with
    | false => exact Or.inl ⟨_, rfl, hid.trans (HtTable.entryFailed_idle hid.inv)⟩
    | true =>
      right
      refine ⟨t₁.bare, ?_, hid.inv, hid.contents, hb⟩
      simp only
      rw [hid.entries, hlt, Nat.mod_eq_of_lt (by omega : key.length < 2 ^ 16)]
      congr 2
      simp

end

end Draugr
