import Draugr.Table.Pairs

/-!
# Rebuilding a key/value table

`ht_rebuild` copies the three lanes into a new index and a new entry array, leaving out every entry
with an empty key. So a successful rebuild keeps the pairs whose key is not empty
(`htRebuild_spec`), and a failed one keeps the table.

`rebuildSafe` follows `ht_rebuild` and asks the index for its promise at every insertion. It takes a
further test `W` of the table that is rebuilt: `noEmptyKey` where the pairs have to be kept
(`Strict W`), nothing where only the invariant matters.
-/

namespace Draugr
open Lib

section
variable {B : Type} (ix : IndexOps B)

/-- The index is ready for one entry of `ht_rebuild`. -/
def entrySafe (S : B → ℕ → ℕ → Bool) (old t : HtTable B) (he : ℕ × ℕ) : Bool :=
  decide ((old.entry he.2).keyLen = 0) || !(ix.malloc t.bare).1 ||
    S (ix.malloc t.bare).2 he.1 (t.entries.length % 2 ^ 32)

/-- The index is ready for each entry of one lane. -/
def laneSafe (S : B → ℕ → ℕ → Bool) (ins : B → ℕ → ℕ → Option (Bool × B)) (old : HtTable B) :
    List (ℕ × ℕ) → HtTable B → Bool
  | [], _ => true
  | he :: hes, t =>
    entrySafe ix S old t he &&
      match rebuildEntry ix ins old t he with
      | some (true, t) => laneSafe S ins old hes t
      | _ => true

/-- An index that is always ready is ready for a lane. -/
lemma laneSafe_of {S : B → ℕ → ℕ → Bool} (hS : ∀ b h v, S b h v = true)
    (ins : B → ℕ → ℕ → Option (Bool × B)) (old : HtTable B) (hes : List (ℕ × ℕ)) (t : HtTable B) :
    laneSafe ix S ins old hes t = true := by
  induction hes generalizing t with
  | nil => rfl
  | cons he hes ih =>
    rw [laneSafe, Bool.and_eq_true]
    constructor
    · unfold entrySafe
      rw [hS, Bool.or_true]
    · split
      · exact ih _
      · rfl

/-- The spill lane of `ht_rebuild`. -/
def spillIns (b : B) (h v : ℕ) : Option (Bool × B) := some (ix.spillInsert b h v)

/-- The index is ready for each entry of `ht_rebuild`, and the table passes `W`. -/
def rebuildSafe {ix : IndexOps B} (L : IndexLaws ix) (W : HtTable B → Bool) (t : HtTable B)
    (newCapacity : ℕ) : Bool :=
  W t && decide (newCapacity ≤ sizeMax / 12) &&
    match t.malloc ix with
    | (false, _) => true
    | (true, t) =>
      let t₀ : HtTable B := ⟨ix.fresh t.bare newCapacity, []⟩
      laneSafe ix L.insertSafe ix.insert t (ix.main t.bare) t₀ &&
        match rebuildLane ix ix.insert t (ix.main t.bare) t₀ with
        | some (true, t₁) =>
          match rebuildLane ix (spillIns ix) t ((ix.spill t.bare).filter (·.2 ≠ valNone)) t₁ with
          | some (true, t₂) =>
            laneSafe ix L.insertSafe ix.insert t (ix.overflow t.bare) t₂
          | _ => true
        | _ => true

/-- No pair has an empty key. -/
def noEmptyKey (t : HtTable B) : Bool := (htIterAll ix t).all fun p => p.1 ≠ []

/-- No test at the start of a rebuild. -/
def noTest (_ : HtTable B) : Bool := true

/-- The test keeps empty keys away from a rebuild. -/
def Strict (W : HtTable B → Bool) : Prop := ∀ t, W t = true → noEmptyKey ix t = true

end

section
variable {B : Type} {ix : IndexOps B} {L : IndexLaws ix} {fns : HtFns} {t t' old : HtTable B}

/-! ## One lane -/

/-- What `ht_rebuild` needs of the insertion into the new index, for hashes in `C`. -/
def InsLaw (L : IndexLaws ix) (C : ℕ → Prop) (S : B → ℕ → ℕ → Bool)
    (ins : B → ℕ → ℕ → Option (Bool × B)) : Prop :=
  ∀ {b h v}, L.Inv b → C h → v ≠ valNone → S b h v = true →
    ∃ ok b', ins b h v = some (ok, b') ∧ L.Inv b' ∧
      L.contents b' = if ok then (h, v) ::ₘ L.contents b else L.contents b

/-- The insertion of an index obeys the law. -/
lemma insLaw_insert (L : IndexLaws ix) : InsLaw L (· < 2 ^ 48) L.insertSafe ix.insert :=
  fun hI hh hv hs => L.insert_keeps hI hh hv hs

/-- The insertion into the spill lane obeys the law. -/
lemma insLaw_spill (L : IndexLaws ix) : InsLaw L (· < 2) (fun _ _ _ => true) (spillIns ix) :=
  fun hI hh hv _ => ⟨_, _, rfl, L.spillInsert_keeps hI hh hv⟩

/-- The copy of an entry that `ht_rebuild` makes. -/
lemma HtEntry.copy_pair (e : HtEntry) :
    ({ e with kv := some (e.key, e.val) } : HtEntry).pair = e.pair := by
  refine Prod.ext ?_ ?_
  · show e.key.take e.keyLen = e.key
    unfold HtEntry.key
    rw [List.take_take, min_self]
  · show e.val.take e.valLen = e.val
    unfold HtEntry.val
    rw [List.take_take, min_self]

/-- A copied entry agrees with its hash. -/
lemma HtEntry.Ok.copy {h : ℕ} {e : HtEntry} (he : e.Ok fns h) :
    ({ e with kv := some (e.key, e.val) } : HtEntry).Ok fns h := by
  have hkey : ({ e with kv := some (e.key, e.val) } : HtEntry).key = e.key :=
    congrArg Prod.fst e.copy_pair
  have hval : ({ e with kv := some (e.key, e.val) } : HtEntry).val = e.val :=
    congrArg Prod.snd e.copy_pair
  refine ⟨?_, ?_, ?_, ?_, he.valLt⟩
  · rw [hkey]
    exact he.hash
  · rw [hkey]
    exact he.hi
  · rw [hkey]
    exact he.keyLen
  · rw [hval]
    exact he.valLen

/-- One entry of `ht_rebuild`. -/
lemma rebuildEntry_spec {C : ℕ → Prop} {S : B → ℕ → ℕ → Bool}
    {ins : B → ℕ → ℕ → Option (Bool × B)} (hins : InsLaw L C S ins) (hG : Good L fns t)
    (hcount : t.entries.length < valNone) {he : ℕ × ℕ} (hH : Holds fns old he) (hC : C he.1)
    (hs : entrySafe ix S old t he = true) :
    ∃ ok t', rebuildEntry ix ins old t he = some (ok, t') ∧ Good L fns t' ∧
      t'.entries.length ≤ t.entries.length + 1 ∧
      (ok = true → pairs L t' =
        ([(old.entry he.2).pair].filter fun p => p.1 ≠ [] : List _) + pairs L t) := by
  have hempty : (old.entry he.2).keyLen = 0 ↔ (old.entry he.2).pair.1 = [] := by
    rw [hH.ok.keyLen, List.length_eq_zero_iff]
    rfl
  unfold rebuildEntry
  simp only
  by_cases hk : (old.entry he.2).keyLen = 0
  · -- an empty key is skipped
    rw [if_pos hk]
    refine ⟨true, t, rfl, hG, Nat.le_succ _, fun _ => ?_⟩
    rw [List.filter_cons, if_neg (by simpa using hempty.mp hk)]
    exact (zero_add _).symm
  · rw [if_neg hk]
    have hid := HtTable.malloc_idle (L := L) hG.inv
    have hfst : (t.malloc ix).1 = (ix.malloc t.bare).1 := rfl
    have hbare : (t.malloc ix).2.bare = (ix.malloc t.bare).2 := rfl
    rcases hmal : t.malloc ix with ⟨ok, t₁⟩
    rw [hmal] at hid hfst hbare
    cases ok with
    | false =>
      refine ⟨false, t₁, rfl, hid.good hG, by rw [hid.entries]; omega, fun h => by cases h⟩
    | true =>
      simp only at hfst hbare
      have hlen : t₁.entries.length % 2 ^ 32 = t.entries.length := by
        rw [hid.entries]
        refine Nat.mod_eq_of_lt ?_
        unfold valNone at hcount
        omega
      have hS : S t₁.bare he.1 t.entries.length = true := by
        unfold entrySafe at hs
        rw [← hbare, ← hfst, ← hid.entries, hlen] at hs
        simpa [hk] using hs
      obtain ⟨ok, b', hb, hinv, hcon⟩ := hins hid.inv hC (ne_of_lt hcount) hS
      have hG₁ : Good L fns t₁ := hid.good hG
      have hlen₁ : t₁.entries.length = t.entries.length := by rw [hid.entries]
      obtain ⟨hG', hp⟩ := hG₁.push hinv (by rw [hlen₁]; exact hcon) (by rw [hlen₁]; exact hcount)
        hH.ok.copy
      simp only
      rw [hlen, hb]
      refine ⟨ok, _, rfl, hG', ?_, ?_⟩
      · rw [List.length_append, hlen₁]
        exact le_rfl
      · intro hok
        rw [hok] at hp
        have hone :
            [(old.entry he.2).pair].filter (fun p => p.1 ≠ []) = [(old.entry he.2).pair] := by
          rw [List.filter_eq_self]
          intro p hp'
          rw [List.mem_singleton.mp hp']
          exact decide_eq_true fun h => hk (hempty.mpr h)
        rw [hp, hone, hid.pairs, HtEntry.copy_pair]
        rfl

/-- One lane of `ht_rebuild`. -/
lemma rebuildLane_spec {C : ℕ → Prop} {S : B → ℕ → ℕ → Bool}
    {ins : B → ℕ → ℕ → Option (Bool × B)} (hins : InsLaw L C S ins) (hG : Good L fns t)
    {hes : List (ℕ × ℕ)} (hcount : t.entries.length + hes.length ≤ valNone)
    (hH : ∀ he ∈ hes, Holds fns old he) (hC : ∀ he ∈ hes, C he.1)
    (hs : laneSafe ix S ins old hes t = true) :
    ∃ ok t', rebuildLane ix ins old hes t = some (ok, t') ∧ Good L fns t' ∧
      t'.entries.length ≤ t.entries.length + hes.length ∧
      (ok = true → pairs L t' =
        ((hes.map fun he => (old.entry he.2).pair).filter fun p => p.1 ≠ [] : List _) +
        pairs L t) := by
  induction hes generalizing t with
  | nil => exact ⟨true, t, rfl, hG, le_rfl, fun _ => (zero_add _).symm⟩
  | cons he hes ih =>
    rw [List.length_cons] at hcount
    rw [laneSafe, Bool.and_eq_true] at hs
    obtain ⟨ok, t₁, h1, h2, h3, h4⟩ := rebuildEntry_spec hins hG (by omega)
      (hH he List.mem_cons_self) (hC he List.mem_cons_self) hs.1
    rw [rebuildLane]
    rw [h1] at hs ⊢
    cases ok with
    | false => exact ⟨false, t₁, rfl, h2, by rw [List.length_cons]; omega, fun h => by cases h⟩
    | true =>
      obtain ⟨ok, t₂, h5, h6, h7, h8⟩ :=
        ih h2 (by omega) (fun e h => hH e (List.mem_cons_of_mem _ h))
          (fun e h => hC e (List.mem_cons_of_mem _ h)) hs.2
      refine ⟨ok, t₂, h5, h6, by rw [List.length_cons]; omega, fun hok => ?_⟩
      have hsplit : ((he :: hes).map fun he => (old.entry he.2).pair) =
          [(old.entry he.2).pair] ++ hes.map fun he => (old.entry he.2).pair := rfl
      rw [h8 hok, h4 rfl, hsplit, List.filter_append, ← Multiset.coe_add]
      abel

/-! ## The whole table -/

/-- What a rebuild, or an operation that may include one, leaves of a table. -/
structure Rebuilt (L : IndexLaws ix) (fns : HtFns) (W : HtTable B → Bool) (t t' : HtTable B) :
    Prop where
  good : Good L fns t'
  count : t'.entries.length ≤ t.entries.length
  pairs : Strict ix W → pairs L t' = pairs L t

variable {W : HtTable B → Bool}

/-- A table that is not rebuilt. -/
lemma Rebuilt.refl (hG : Good L fns t) : Rebuilt L fns W t t := ⟨hG, le_rfl, fun _ => rfl⟩

/-- Rebuilds compose. -/
lemma Rebuilt.trans {t''} (h : Rebuilt L fns W t t') (h' : Rebuilt L fns W t' t'') :
    Rebuilt L fns W t t'' :=
  ⟨h'.good, h'.count.trans h.count, fun hW => (h'.pairs hW).trans (h.pairs hW)⟩

/-- An idle step is a rebuild that changes nothing. -/
lemma Idle.rebuilt (h : Idle L t t') (hG : Good L fns t) : Rebuilt L fns W t t' :=
  ⟨h.good hG, by rw [h.entries], fun _ => h.pairs⟩

/-- Without empty keys, leaving them out changes nothing. -/
lemma filter_of_noEmptyKey (hI : L.Inv t.bare) (h : noEmptyKey ix t = true) :
    ((pairs L t).filter fun p => p.1 ≠ []) = pairs L t := by
  rw [Multiset.filter_eq_self, ← htIterAll_eq hI]
  intro p hp
  have := List.all_eq_true.mp h p (Multiset.mem_coe.mp hp)
  simpa using this

/-- A failed rebuild. -/
lemma Idle.drawn (h : Idle L t t') (b : B) : Idle L t { t' with bare := ix.drawn t'.bare b } := by
  obtain ⟨h1, h2⟩ := L.drawn_keeps b h.inv
  exact ⟨h1, h2.trans h.contents, h.entries⟩

/-- An empty table is good. -/
lemma Good.of_empty {b : B} (hI : L.Inv b) (h0 : L.contents b = 0) : Good L fns ⟨b, []⟩ := by
  refine ⟨hI, ?_, ?_, Nat.zero_le _⟩
  · intro e he
    rw [h0] at he
    exact absurd he (Multiset.notMem_zero e)
  · rw [h0]
    exact Multiset.nodup_zero

/-- It has no pairs. -/
lemma pairs_of_empty {b : B} (h0 : L.contents b = 0) (es : List HtEntry) : pairs L ⟨b, es⟩ = 0 := by
  unfold pairs
  rw [h0]
  rfl

/-- The pairs, lane by lane. -/
lemma pairs_lanes (hI : L.Inv t.bare) : pairs L t =
    ((ix.main t.bare).map fun e => (t.entry e.2).pair : List _) +
      ((ix.spill t.bare).map fun e => (t.entry e.2).pair : List _) +
      ((ix.overflow t.bare).map fun e => (t.entry e.2).pair : List _) := by
  unfold pairs
  rw [L.lanes hI, Multiset.map_add, Multiset.map_add, Multiset.map_coe, Multiset.map_coe,
    Multiset.map_coe]

/-- The copying of the three lanes. -/
lemma rebuildLanes_spec (hG : Good L fns t) {c : ℕ} (hpos : 0 < c)
    (hs : (laneSafe ix L.insertSafe ix.insert t (ix.main t.bare) ⟨ix.fresh t.bare c, []⟩ &&
        match rebuildLane ix ix.insert t (ix.main t.bare) ⟨ix.fresh t.bare c, []⟩ with
        | some (true, t₁) =>
          match rebuildLane ix (spillIns ix) t ((ix.spill t.bare).filter (·.2 ≠ valNone)) t₁ with
          | some (true, t₂) => laneSafe ix L.insertSafe ix.insert t (ix.overflow t.bare) t₂
          | _ => true
        | _ => true) = true) :
    ∃ ok₁ t₁, rebuildLane ix ix.insert t (ix.main t.bare) ⟨ix.fresh t.bare c, []⟩ = some (ok₁, t₁) ∧
      (ok₁ = true → ∃ ok₂ t₂,
        rebuildLane ix (spillIns ix) t ((ix.spill t.bare).filter (·.2 ≠ valNone)) t₁ =
          some (ok₂, t₂) ∧
        (ok₂ = true → ∃ ok₃ t₃,
          rebuildLane ix ix.insert t (ix.overflow t.bare) t₂ = some (ok₃, t₃) ∧
          (ok₃ = true → Good L fns t₃ ∧ t₃.entries.length ≤ t.entries.length ∧
            pairs L t₃ = (pairs L t).filter fun p => p.1 ≠ []))) := by
  have hmem : ∀ {l : List (ℕ × ℕ)}, (l : Multiset (ℕ × ℕ)) ≤ L.contents t.bare →
      ∀ e ∈ l, Holds fns t e ∧ e.1 < 2 ^ 48 := fun hle e he =>
    ⟨hG.holds e (Multiset.mem_of_le hle he), L.hash_lt hG.inv e (Multiset.mem_of_le hle he)⟩
  have hlanes := L.lanes hG.inv
  -- each lane is a part of the contents
  have hmain : (ix.main t.bare : Multiset (ℕ × ℕ)) ≤ L.contents t.bare := by
    rw [hlanes, add_assoc]
    exact Multiset.le_add_right _ _
  have hspill : (ix.spill t.bare : Multiset (ℕ × ℕ)) ≤ L.contents t.bare := by
    rw [hlanes, add_right_comm]
    exact Multiset.le_add_left _ _
  have hover : (ix.overflow t.bare : Multiset (ℕ × ℕ)) ≤ L.contents t.bare := by
    rw [hlanes]
    exact Multiset.le_add_left _ _
  have hself : (ix.spill t.bare).filter (·.2 ≠ valNone) = ix.spill t.bare := by
    rw [List.filter_eq_self]
    intro e he
    exact decide_eq_true (L.val_ne hG.inv e (Multiset.mem_of_le hspill he))
  have hcard : (ix.main t.bare).length + (ix.spill t.bare).length + (ix.overflow t.bare).length ≤
      t.entries.length := by
    have := hG.card_le
    rwa [hlanes, Multiset.card_add, Multiset.card_add, Multiset.coe_card, Multiset.coe_card,
      Multiset.coe_card] at this
  have hbound := hG.count
  obtain ⟨hfI, hf0⟩ := L.fresh_keeps (b := t.bare) hpos
  have hF : Good L fns ⟨ix.fresh t.bare c, []⟩ := Good.of_empty hfI hf0
  have hF0 : pairs L ⟨ix.fresh t.bare c, []⟩ = 0 := pairs_of_empty hf0 []
  rw [Bool.and_eq_true] at hs
  rw [hself] at hs ⊢
  -- main array, spill lane and stash go into the fresh index one after the other
  obtain ⟨ok₁, t₁, h1, hG₁, hl₁, hp₁⟩ := rebuildLane_spec (insLaw_insert L) hF
    (by rw [List.length_nil]; omega) (fun e he => (hmem hmain e he).1)
    (fun e he => (hmem hmain e he).2) hs.1
  rw [List.length_nil] at hl₁
  refine ⟨ok₁, t₁, h1, fun ho₁ => ?_⟩
  subst ho₁
  rw [h1] at hs
  have hlane := laneSafe_of ix (S := fun _ _ _ => true) (fun _ _ _ => rfl) (spillIns ix) t
    (ix.spill t.bare) t₁
  obtain ⟨ok₂, t₂, h2, hG₂, hl₂, hp₂⟩ := rebuildLane_spec (insLaw_spill L) hG₁ (by omega)
    (fun e he => (hmem hspill e he).1) (L.spill_lt hG.inv) hlane
  refine ⟨ok₂, t₂, h2, fun ho₂ => ?_⟩
  subst ho₂
  simp only [h2] at hs
  obtain ⟨ok₃, t₃, h3, hG₃, hl₃, hp₃⟩ := rebuildLane_spec (insLaw_insert L) hG₂ (by omega)
    (fun e he => (hmem hover e he).1) (fun e he => (hmem hover e he).2) hs.2
  refine ⟨ok₃, t₃, h3, fun ho₃ => ⟨hG₃, by omega, ?_⟩⟩
  rw [hp₃ ho₃, hp₂ rfl, hp₁ rfl, hF0, pairs_lanes hG.inv, Multiset.filter_add, Multiset.filter_add,
    Multiset.filter_coe, Multiset.filter_coe, Multiset.filter_coe]
  abel

/-- `ht_rebuild`. -/
lemma htRebuild_spec (hG : Good L fns t) {newCapacity : ℕ} (hpos : 0 < newCapacity)
    (hs : rebuildSafe L W t newCapacity = true) :
    ∃ ok t', htRebuild ix t newCapacity = some (ok, t') ∧ Rebuilt L fns W t t' ∧
      pairs L t' = if ok then (pairs L t).filter fun p => p.1 ≠ [] else pairs L t := by
  unfold rebuildSafe at hs
  rw [Bool.and_eq_true, Bool.and_eq_true, decide_eq_true_eq] at hs
  obtain ⟨⟨hW, hfit⟩, hs⟩ := hs
  unfold htRebuild
  rw [if_neg (not_lt.mpr hfit)]
  have hid := HtTable.malloc_idle (L := L) hG.inv
  rcases hmal : t.malloc ix with ⟨ok, t₀⟩
  rw [hmal] at hid hs
  cases ok with
  | false => exact ⟨false, t₀, rfl, hid.rebuilt hG, hid.pairs⟩
  | true =>
    have hfail : ∀ b, ∃ ok t', some (false, ({ t₀ with bare := ix.drawn t₀.bare b } : HtTable B)) =
        some (ok, t') ∧ Rebuilt L fns W t t' ∧
        pairs L t' = if ok then (pairs L t).filter fun p => p.1 ≠ [] else pairs L t := fun b =>
      ⟨false, _, rfl, (hid.drawn b).rebuilt hG, (hid.drawn b).pairs⟩
    obtain ⟨ok₁, t₁, h1, hr₁⟩ := rebuildLanes_spec (hid.good hG) hpos hs
    simp only [h1]
    cases ok₁ with
    | false => exact hfail _
    | true =>
      obtain ⟨ok₂, t₂, h2, hr₂⟩ := hr₁ rfl
      have h2' : rebuildLane ix (fun b h v => some (ix.spillInsert b h v)) t₀
          ((ix.spill t₀.bare).filter (·.2 ≠ valNone)) t₁ = some (ok₂, t₂) := h2
      simp only [h2']
      cases ok₂ with
      | false => exact hfail _
      | true =>
        obtain ⟨ok₃, t₃, h3, hr₃⟩ := hr₂ rfl
        simp only [h3]
        cases ok₃ with
        | false => exact hfail _
        | true =>
          obtain ⟨hG₃, hl₃, hp₃⟩ := hr₃ rfl
          obtain ⟨h5, h6⟩ := L.placeTombs_keeps hG₃.inv
          have hid₃ : Idle L t₃ { t₃ with bare := ix.placeTombs t₃.bare } := ⟨h5, h6, rfl⟩
          rw [hid.pairs] at hp₃
          refine ⟨true, _, rfl, ⟨hid₃.good hG₃, ?_, fun hst => ?_⟩, hid₃.pairs.trans hp₃⟩
          · rwa [hid.entries] at hl₃
          · rw [hid₃.pairs, hp₃, filter_of_noEmptyKey hG.inv (hst t hW)]

end

end Draugr
