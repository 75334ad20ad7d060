import Draugr.Table.Exact

/-!
# One index in place of another

An `IndexMap` turns one index into another: each operation the table makes on the mapped index is
the mapped operation. A table over the one index then answers every call as the table over the other
does (`runReplies_map`). The map may assume that the index fits the table, `Fits p n b`: `n` is the
number of entries of the table, so that the lanes of the index hold at most `n` values and none of
them is `VAL_NONE`. Every call keeps this, as long as there are fewer than `VAL_NONE` entries. The
phase `p` is the flag `resizing` and tells the index of a table (`none`) from one that `ht_rebuild`
is filling (`some r`, with at most `r` entries still to come for the spill lane).
-/

namespace Draugr
open Lib

/-- A map from one index to another. -/
structure IndexMap {B B' : Type} (ix : IndexOps B) (ix' : IndexOps B') where
  map : B → B'
  /-- the index of a table with so many entries, in a phase -/
  Fits : Bool × Option ℕ → ℕ → B → Prop
  /-- the test before `ht_clear` -/
  clearOk : B → Bool
  room_mono : ∀ {z r r' n b}, Fits (z, some r) n b → r' ≤ r → Fits (z, some r') n b
  findAll_map : ∀ b hash, ix'.findAll (map b) hash = ix.findAll b hash
  main_map : ∀ b, ix'.main (map b) = ix.main b
  spill_map : ∀ b, ix'.spill (map b) = ix.spill b
  overflow_map : ∀ b, ix'.overflow (map b) = ix.overflow b
  size_map : ∀ b, ix'.size (map b) = ix.size b
  capacity_map : ∀ b, ix'.capacity (map b) = ix.capacity b
  maxLoadFactor_map : ∀ b, ix'.maxLoadFactor (map b) = ix.maxLoadFactor b
  minLoadFactor_map : ∀ b, ix'.minLoadFactor (map b) = ix.minLoadFactor b
  resizing_map : ∀ b, ix'.resizing (map b) = ix.resizing b
  capacity_pow2 : ∀ {z n b}, Fits (z, none) n b → ∃ k, ix.capacity b = 2 ^ k
  lanes_le : ∀ {z n b}, Fits (z, none) n b →
    (ix.main b).length + (ix.spill b).length + (ix.overflow b).length ≤ n
  main_keys : ∀ {z n b}, Fits (z, none) n b → ∀ e ∈ ix.main b, 2 ≤ e.1 ∧ e.1 < 2 ^ 48
  spill_keys : ∀ {z n b}, Fits (z, none) n b → ∀ e ∈ ix.spill b, e.1 < 2
  overflow_keys : ∀ {z n b}, Fits (z, none) n b → ∀ e ∈ ix.overflow b, 2 ≤ e.1 ∧ e.1 < 2 ^ 48
  insert_map : ∀ {p n b h v}, Fits p n b → p.2 = none ∨ 2 ≤ h → h < 2 ^ 48 → v < valNone →
    n < valNone →
    ix'.insert (map b) h v = (ix.insert b h v).map (Prod.map id map)
  insert_fits : ∀ {p n b h v ok b'}, Fits p n b → p.2 = none ∨ 2 ≤ h → h < 2 ^ 48 → v < valNone →
    n < valNone → ix.insert b h v = some (ok, b') → Fits p (n + 1) b'
  spillInsert_map :
    ∀ {z r n b h v}, Fits (z, some (r + 1)) n b → h < 2 → v < valNone → n < valNone →
    ix'.spillInsert (map b) h v = Prod.map id map (ix.spillInsert b h v)
  spillInsert_fits :
    ∀ {z r n b h v}, Fits (z, some (r + 1)) n b → h < 2 → v < valNone → n < valNone →
    Fits (z, some r) (n + 1) (ix.spillInsert b h v).2
  removeVal_map : ∀ {z n b} hash v, Fits (z, none) n b →
    ix'.removeVal (map b) hash v = Prod.map id map (ix.removeVal b hash v)
  removeVal_fits : ∀ {z n b} hash v, Fits (z, none) n b → Fits (z, none) n (ix.removeVal b hash v).2
  setResizing_map : ∀ r b, ix'.setResizing r (map b) = map (ix.setResizing r b)
  setResizing_fits : ∀ {z n b} r, Fits (z, none) n b → Fits (r, none) n (ix.setResizing r b)
  setResizing_size : ∀ r b, ix.size (ix.setResizing r b) = ix.size b
  fresh_map : ∀ b c, ix'.fresh (map b) c = map (ix.fresh b c)
  fresh_fits : ∀ {z n b c}, Fits (z, none) n b → (∃ k, c = 2 ^ k) →
    Fits (z, some (ix.spill b).length) 0 (ix.fresh b c)
  placeTombs_map : ∀ b, ix'.placeTombs (map b) = map (ix.placeTombs b)
  placeTombs_fits : ∀ {z r n b}, Fits (z, some r) n b → Fits (z, none) n (ix.placeTombs b)
  resetCounters_map : ∀ b, ix'.resetCounters (map b) = map (ix.resetCounters b)
  resetCounters_fits :
    ∀ {z n b}, Fits (z, none) n b → ix.size b = 0 → Fits (z, none) n (ix.resetCounters b)
  clear_map : ∀ b, ix'.clear (map b) = map (ix.clear b)
  clear_fits : ∀ {z n b}, Fits (z, none) n b → clearOk b = true → Fits (z, none) 0 (ix.clear b)
  malloc_map : ∀ b, ix'.malloc (map b) = Prod.map id map (ix.malloc b)
  malloc_fits : ∀ {p n b}, Fits p n b → Fits p n (ix.malloc b).2
  entryFailed_map : ∀ b, ix'.entryFailed (map b) = map (ix.entryFailed b)
  entryFailed_fits : ∀ {p n b}, Fits p n b → n < valNone → Fits p n (ix.entryFailed b)
  drawn_map : ∀ b b₁, ix'.drawn (map b) (map b₁) = map (ix.drawn b b₁)
  drawn_fits : ∀ {z p m n b b₁}, Fits (z, none) n b → Fits p m b₁ → Fits (z, none) n (ix.drawn b b₁)

/-- The replies of a run of calls, and the table it leaves. -/
def runReplies {B : Type} (ix : IndexOps B) (fns : HtFns) (t : HtTable B) :
    List HtOp → Option (List HtReply × HtTable B)
  | [] => some ([], t)
  | op :: ops =>
    match op.run ix fns t with
    | none => none
    | some (r, t) => (runReplies ix fns t ops).map fun x => (r :: x.1, x.2)

/-- The run never finds `VAL_NONE` entries in the table, and every `ht_clear` finds an index that
passes a test. -/
def gentleRun {B : Type} (ix : IndexOps B) (fns : HtFns) (clearOk : B → Bool) (t : HtTable B) :
    List HtOp → Bool
  | [] => true
  | op :: ops =>
    decide (t.entries.length < valNone ∧ (op = .clear → clearOk t.bare = true)) &&
      match op.run ix fns t with
      | some (_, t) => gentleRun ix fns clearOk t ops
      | none => true

section
variable {B B' : Type} {ix : IndexOps B} {ix' : IndexOps B'} (M : IndexMap ix ix')

/-- The table over the other index. -/
def IndexMap.table (t : HtTable B) : HtTable B' := ⟨M.map t.bare, t.entries⟩

/-- A table of at most `n` entries whose index fits it. -/
structure Fit (p : Bool × Option ℕ) (n : ℕ) (t : HtTable B) : Prop where
  fits : M.Fits p t.entries.length t.bare
  count : t.entries.length ≤ n

/-- The result over the mapped index is the mapped result, and its table fits. -/
def Maps {α : Type} (p : Bool × Option ℕ) (n : ℕ) (r' : Option (α × HtTable B'))
    (r : Option (α × HtTable B)) : Prop :=
  r' = r.map (Prod.map id M.table) ∧ ∀ a t, r = some (a, t) → Fit M p n t

end

section
variable {B B' : Type} {ix : IndexOps B} {ix' : IndexOps B'} {M : IndexMap ix ix'} (fns : HtFns)
  {m n r s : ℕ} {z : Bool} {p : Bool × Option ℕ} {α β : Type} {t t' : HtTable B}

/-- A bound on the entries may be raised. -/
lemma Fit.mono (h : Fit M p m t) (hmn : m ≤ n) : Fit M p n t := ⟨h.fits, h.count.trans hmn⟩

/-- A bound on the entries for the spill lane may be lowered. -/
lemma Fit.room (h : Fit M (z, some s) n t) (hr : r ≤ s) : Fit M (z, some r) n t :=
  ⟨M.room_mono h.fits hr, h.count⟩

/-- A change of the index only. -/
lemma Fit.bare {b : B} (h : Fit M p n t) {q : Bool × Option ℕ} (hb : M.Fits q t.entries.length b) :
    Fit M q n { t with bare := b } := ⟨hb, h.count⟩

/-- A bound on the entries of the result may be raised. -/
lemma Maps.mono {r' : Option (α × HtTable B')} {r : Option (α × HtTable B)} (h : Maps M p m r' r)
    (hmn : m ≤ n) : Maps M p n r' r := ⟨h.1, fun a t hr => (h.2 a t hr).mono hmn⟩

/-- A result that is there. -/
lemma Maps.some {a : α} (h : Fit M p n t) : Maps M p n (some (a, M.table t)) (some (a, t)) :=
  ⟨rfl, fun _ _ he => by cases he; exact h⟩

/-- Two runs that do not end. -/
lemma Maps.none : Maps M p n (none : Option (α × HtTable B')) none := ⟨rfl, nofun⟩

/-- The reply is rewritten. -/
lemma Maps.map {r' : Option (α × HtTable B')} {r : Option (α × HtTable B)} (h : Maps M p n r' r)
    (f : α → β) : Maps M p n (r'.map fun x => (f x.1, x.2)) (r.map fun x => (f x.1, x.2)) := by
  obtain ⟨h1, h2⟩ := h
  rw [h1]
  cases r with
  | none => exact Maps.none
  | some x => exact Maps.some (h2 x.1 x.2 rfl)

/-- The two ways a mapped result can be. -/
lemma Maps.cases {r' : Option (α × HtTable B')} {r : Option (α × HtTable B)} (h : Maps M p n r' r) :
    (r = Option.none ∧ r' = Option.none) ∨
      ∃ a t, r = Option.some (a, t) ∧ r' = Option.some (a, M.table t) ∧ Fit M p n t := by
  obtain ⟨h1, h2⟩ := h
  cases r with
  | none => exact .inl ⟨rfl, h1⟩
  | some x => exact .inr ⟨x.1, x.2, rfl, h1, h2 x.1 x.2 rfl⟩

/-! ## Allocation and scans -/

/-- An allocation over the two indices. -/
lemma malloc_map (h : Fit M p n t) :
    (M.table t).malloc ix' = Prod.map id M.table (t.malloc ix) ∧ Fit M p n (t.malloc ix).2 := by
  refine ⟨?_, h.bare (M.malloc_fits h.fits)⟩
  unfold HtTable.malloc
  rw [show (M.table t).bare = M.map t.bare from rfl, M.malloc_map]
  rfl

/-- An allocation leaves the entries. -/
lemma malloc_entries (t : HtTable B) : (t.malloc ix).2.entries = t.entries := rfl

/-- The scan for the matches of a key. -/
lemma keyScan_map (h : Fit M (z, none) n t) (hi : ℕ) (key : Bytes) (is ms : List ℕ) (cap : ℕ) :
    keyScan ix' fns hi key is ms cap (M.table t) =
        Prod.map id M.table (keyScan ix fns hi key is ms cap t) ∧
      Fit M (z, none) n (keyScan ix fns hi key is ms cap t).2 := by
  induction is generalizing ms cap t with
  | nil => exact ⟨rfl, h⟩
  | cons i is ih =>
    have hkeys : keysMatch fns (M.table t) i hi key = keysMatch fns t i hi key := rfl
    rw [keyScan, keyScan, hkeys]
    split
    · split
      · exact ih h (ms ++ [i]) cap
      · obtain ⟨hmap, hfit⟩ := malloc_map h
        rw [hmap]
        rcases ha : t.malloc ix with ⟨ok, t₁⟩
        rw [ha] at hfit
        cases ok with
        | false => exact ⟨rfl, hfit⟩
        | true => exact ih hfit (ms ++ [i]) (cap * 2)
    · exact ih h ms cap

/-- The matches of a key over the two indices. -/
lemma keyMatches_map (h : Fit M (z, none) n t) (hash : ℕ) (key : Bytes) :
    keyMatches ix' fns (M.table t) hash key =
        Prod.map id M.table (keyMatches ix fns t hash key) ∧
      Fit M (z, none) n (keyMatches ix fns t hash key).2 := by
  unfold keyMatches
  show keyScan ix' fns (hashHi hash) key (ix'.findAll (M.map t.bare) hash) [] 64 (M.table t) = _ ∧ _
  rw [M.findAll_map]
  exact keyScan_map fns h _ _ _ _ _

/-- Freeing matches. -/
lemma removeMatches_map (h : Fit M (z, none) n t) (hash : ℕ) (ms : List ℕ) :
    removeMatches ix' hash ms (M.table t) = M.table (removeMatches ix hash ms t) ∧
      Fit M (z, none) n (removeMatches ix hash ms t) := by
  unfold removeMatches
  induction ms generalizing t with
  | nil => exact ⟨rfl, h⟩
  | cons i ms ih =>
    rw [List.foldl_cons, List.foldl_cons]
    have hlen : (t.kvFree i).entries.length = t.entries.length := List.length_set
    have hone : ({ (M.table t).kvFree i with
        bare := (ix'.removeVal (M.table t).bare hash i).2 } : HtTable B') =
        M.table { t.kvFree i with bare := (ix.removeVal t.bare hash i).2 } := by
      show HtTable.mk (ix'.removeVal (M.map t.bare) hash i).2 _ = _
      rw [M.removeVal_map hash i h.fits]
      rfl
    have hfit : Fit M (z, none) n { t.kvFree i with bare := (ix.removeVal t.bare hash i).2 } := by
      refine ⟨?_, ?_⟩
      · show M.Fits (z, none) (t.kvFree i).entries.length _
        rw [hlen]
        exact M.removeVal_fits hash i h.fits
      · show (t.kvFree i).entries.length ≤ n
        rw [hlen]
        exact h.count
    rw [hone]
    exact ih hfit

/-- A change of one entry. -/
lemma Fit.setEntry (h : Fit M (z, none) n t) (i : ℕ) (e : HtEntry) :
    Fit M (z, none) n (t.setEntry i e) := by
  have hlen : (t.setEntry i e).entries.length = t.entries.length := List.length_set
  refine ⟨?_, hlen.le.trans h.count⟩
  rw [hlen]
  exact h.fits

/-- `update_entry_value` over the two indices. -/
lemma updateEntryValue_map (h : Fit M (z, none) n t) (i : ℕ) (key value : Bytes) :
    updateEntryValue ix' (M.table t) i key value =
        Prod.map id M.table (updateEntryValue ix t i key value) ∧
      Fit M (z, none) n (updateEntryValue ix t i key value).2 := by
  unfold updateEntryValue
  rw [show (M.table t).entry i = t.entry i from rfl]
  dsimp only
  by_cases hlen : value.length = (t.entry i).valLen
  · rw [if_pos hlen, if_pos hlen]
    exact ⟨rfl, h.setEntry i _⟩
  · rw [if_neg hlen, if_neg hlen]
    obtain ⟨hmap, hfit⟩ := malloc_map h
    rw [hmap]
    rcases ha : t.malloc ix with ⟨ok, t₁⟩
    rw [ha] at hfit
    cases ok with
    | false => exact ⟨rfl, hfit⟩
    | true => exact ⟨rfl, hfit.setEntry i _⟩

/-- `alloc_entry` over the two indices: it fails, or the new entry is the last one. -/
lemma allocEntry_map (h : Fit M (z, none) n t) (hn : n < valNone) (hi : ℕ) (key value : Bytes) :
    (∃ t', allocEntry ix t hi key value = (valNone, t') ∧
      allocEntry ix' (M.table t) hi key value = (valNone, M.table t') ∧ Fit M (z, none) n t') ∨
    ∃ b e, allocEntry ix t hi key value = (t.entries.length, ⟨b, t.entries ++ [e]⟩) ∧
      allocEntry ix' (M.table t) hi key value = (t.entries.length, ⟨M.map b, t.entries ++ [e]⟩) ∧
      M.Fits (z, none) t.entries.length b := by
  have hcount : t.entries.length < 2 ^ 32 := by
    have := h.count
    unfold valNone at hn
    omega
  unfold allocEntry
  split
  · exact .inl ⟨t, rfl, rfl, h⟩
  · obtain ⟨hmap, hfit⟩ := malloc_map h
    have hentries := (@malloc_entries _ ix) t
    rw [hmap]
    rcases ha : t.malloc ix with ⟨ok, t₁⟩
    rw [ha] at hfit hentries
    cases ok with
    | false =>
      have hb := M.entryFailed_fits hfit.fits (hfit.count.trans_lt hn)
      refine .inl ⟨{ t₁ with bare := ix.entryFailed t₁.bare }, rfl, ?_, hb, hfit.count⟩
      exact congrArg (fun b => (valNone, HtTable.mk b t₁.entries)) (M.entryFailed_map t₁.bare)
    | true =>
      have hmod : t₁.entries.length % 2 ^ 32 = t.entries.length := by
        rw [show t₁.entries = t.entries from hentries, Nat.mod_eq_of_lt hcount]
      have hset :
          ∀ e, (t₁.entries ++ [HtEntry.zero]).set t.entries.length e = t.entries ++ [e] := by
        intro e
        rw [show t₁.entries = t.entries from hentries, List.set_append_right _ _ le_rfl,
          Nat.sub_self]
        rfl
      refine .inr ⟨t₁.bare, ⟨key.length % 2 ^ 16, hi, value.length % 2 ^ 32, some (key, value)⟩,
        ?_, ?_, ?_⟩
      · show (t₁.entries.length % 2 ^ 32, _) = _
        rw [hmod, hset]
      · show (t₁.entries.length % 2 ^ 32, HtTable.mk (M.map t₁.bare) _) = _
        rw [hmod, show (M.table t₁).entries.length % 2 ^ 32 = t.entries.length from hmod]
        exact congrArg (fun es => (t.entries.length, HtTable.mk (M.map t₁.bare) es)) (hset _)
      · have := hfit.fits
        rwa [show t₁.entries = t.entries from hentries] at this

/-! ## Rebuilding -/

/-- What an insertion into the index has to do, where `d` entries come to the spill lane. -/
def InsMaps (M : IndexMap ix ix') (C : ℕ → Prop) (d : ℕ) (ins' : B' → ℕ → ℕ → Option (Bool × B'))
    (ins : B → ℕ → ℕ → Option (Bool × B)) : Prop :=
  ∀ {z r n b h v}, M.Fits (z, some (r + d)) n b → C h → v < valNone → n < valNone →
    ins' (M.map b) h v = (ins b h v).map (Prod.map id M.map) ∧
      ∀ ok b', ins b h v = some (ok, b') → M.Fits (z, some r) (n + 1) b'

/-- The insertion into the two indices. -/
lemma insMaps_insert (M : IndexMap ix ix') :
    InsMaps M (fun h => 2 ≤ h ∧ h < 2 ^ 48) 0 ix'.insert ix.insert :=
  fun hb hh hv hn =>
    ⟨M.insert_map hb (.inr hh.1) hh.2 hv hn,
      fun _ _ hr => M.insert_fits hb (.inr hh.1) hh.2 hv hn hr⟩

/-- The insertion into the spill lanes of the two indices. -/
lemma insMaps_spill (M : IndexMap ix ix') : InsMaps M (· < 2) 1 (spillIns ix') (spillIns ix) := by
  intro z r n b h v hb hh hv hn
  refine ⟨congrArg some (M.spillInsert_map hb hh hv hn), fun ok b' hr => ?_⟩
  have hfit := M.spillInsert_fits hb hh hv hn
  rwa [Option.some.inj hr] at hfit

/-- One entry of a rebuild. -/
lemma rebuildEntry_map {C : ℕ → Prop} {d : ℕ} {ins' : B' → ℕ → ℕ → Option (Bool × B')}
    {ins : B → ℕ → ℕ → Option (Bool × B)} (hins : InsMaps M C d ins' ins)
    (h : Fit M (z, some (r + d)) n t)
    (hn : n < valNone) (old : HtTable B) {he : ℕ × ℕ} (hC : C he.1) :
    Maps M (z, some r) (n + 1) (rebuildEntry ix' ins' (M.table old) (M.table t) he)
      (rebuildEntry ix ins old t he) := by
  unfold rebuildEntry
  rw [show (M.table old).entry he.2 = old.entry he.2 from rfl]
  dsimp only
  by_cases hz : (old.entry he.2).keyLen = 0
  · rw [if_pos hz, if_pos hz]
    exact Maps.some ((h.room (Nat.le_add_right r d)).mono (Nat.le_succ n))
  · rw [if_neg hz, if_neg hz]
    obtain ⟨hmap, hfit⟩ := malloc_map h
    rw [hmap]
    rcases ha : t.malloc ix with ⟨ok, t₁⟩
    rw [ha] at hfit
    cases ok with
    | false => exact Maps.some ((hfit.room (Nat.le_add_right r d)).mono (Nat.le_succ n))
    | true =>
      have hcount := hfit.count
      have hlt : t₁.entries.length < valNone := lt_of_le_of_lt hcount hn
      have hmod : t₁.entries.length % 2 ^ 32 = t₁.entries.length :=
        Nat.mod_eq_of_lt (by unfold valNone at hlt; omega)
      obtain ⟨hi, hf⟩ := hins hfit.fits hC hlt hlt
      dsimp only [IndexMap.table, Prod.map, id] at hi ⊢
      rw [hmod, hi]
      cases hr : ins t₁.bare he.1 t₁.entries.length with
      | none => exact Maps.none
      | some r =>
        refine Maps.some (t := ⟨r.2, _⟩) ⟨?_, ?_⟩
        · rw [List.length_append, List.length_singleton]
          exact hf r.1 r.2 hr
        · rw [List.length_append, List.length_singleton]
          exact Nat.succ_le_succ hcount

/-- One lane of a rebuild. -/
lemma rebuildLane_map {C : ℕ → Prop} {d : ℕ} {ins' : B' → ℕ → ℕ → Option (Bool × B')}
    {ins : B → ℕ → ℕ → Option (Bool × B)} (hins : InsMaps M C d ins' ins) {hes : List (ℕ × ℕ)}
    (h : Fit M (z, some (r + d * hes.length)) n t) (old : HtTable B) (hn : n + hes.length < valNone)
    (hC : ∀ e ∈ hes, C e.1) :
    Maps M (z, some r) (n + hes.length) (rebuildLane ix' ins' (M.table old) hes (M.table t))
      (rebuildLane ix ins old hes t) := by
  induction hes generalizing n t with
  | nil => exact Maps.some h
  | cons he hes ih =>
    rw [List.length_cons] at hn h ⊢
    rw [rebuildLane, rebuildLane]
    rw [Nat.mul_succ, ← Nat.add_assoc] at h
    have hone := rebuildEntry_map hins h (by omega) old (hC he List.mem_cons_self)
    rcases hone.cases with ⟨h1, h2⟩ | ⟨ok, t₁, h1, h2, hfit⟩
    · rw [h1, h2]
      exact Maps.none
    · rw [h1, h2]
      cases ok with
      | false => exact Maps.some ((hfit.room (Nat.le_add_right r _)).mono (by omega))
      | true =>
        have hrest := ih hfit (by omega) fun e he' => hC e (List.mem_cons_of_mem _ he')
        rwa [Nat.add_right_comm, Nat.add_assoc] at hrest

/-- `ht_rebuild`. -/
lemma htRebuild_map (h : Fit M (z, none) n t) (hn : n < valNone) {c : ℕ}
    (hc : c ≤ sizeMax / 12 → ∃ k, c = 2 ^ k) :
    Maps M (z, none) n (htRebuild ix' (M.table t) c) (htRebuild ix t c) := by
  unfold htRebuild
  by_cases hbig : c > sizeMax / 12
  · rw [if_pos hbig, if_pos hbig]
    exact Maps.none
  rw [if_neg hbig, if_neg hbig]
  obtain ⟨hmap, hfit⟩ := malloc_map h
  rw [hmap]
  rcases ha : t.malloc ix with ⟨ok, t₁⟩
  rw [ha] at hfit
  cases ok with
  | false => exact Maps.some hfit
  | true =>
    replace hfit : Fit M (z, none) n t₁ := hfit
    have hlanes := M.lanes_le hfit.fits
    have hcount := hfit.count
    have hfresh :
        Fit M (z, some (ix.spill t₁.bare).length) 0 (⟨ix.fresh t₁.bare c, []⟩ : HtTable B) :=
      ⟨M.fresh_fits hfit.fits (hc (not_lt.mp hbig)), le_rfl⟩
    -- a failure leaves the old table, with the allocations drawn
    have hfail : ∀ {p : Bool × Option ℕ} {m : ℕ} {t₂ : HtTable B}, Fit M p m t₂ →
        Maps M (z, none) n (some (false, M.table { t₁ with bare := ix.drawn t₁.bare t₂.bare }))
          (some (false, { t₁ with bare := ix.drawn t₁.bare t₂.bare })) :=
      fun h₂ => Maps.some (hfit.bare (M.drawn_fits hfit.fits h₂.fits))
    have hdrawn : ∀ t₂ : HtTable B, ({ M.table t₁ with
        bare := ix'.drawn (M.table t₁).bare (M.table t₂).bare } : HtTable B') =
        M.table { t₁ with bare := ix.drawn t₁.bare t₂.bare } := fun t₂ =>
      congrArg (fun b => (⟨b, t₁.entries⟩ : HtTable B')) (M.drawn_map t₁.bare t₂.bare)
    have hstart : (⟨ix'.fresh (M.table t₁).bare c, []⟩ : HtTable B') =
        M.table ⟨ix.fresh t₁.bare c, []⟩ :=
      congrArg (fun b => (⟨b, []⟩ : HtTable B')) (M.fresh_map t₁.bare c)
    have hmain : ix'.main (M.table t₁).bare = ix.main t₁.bare := M.main_map _
    have hspill : ix'.spill (M.table t₁).bare = ix.spill t₁.bare := M.spill_map _
    have hover : ix'.overflow (M.table t₁).bare = ix.overflow t₁.bare := M.overflow_map _
    have hfilter :=
      List.length_filter_le (fun e : ℕ × ℕ => decide (e.2 ≠ valNone)) (ix.spill t₁.bare)
    simp only [Prod.map_apply, id_eq, hstart, hmain, hspill, hover]
    replace hfresh :
        Fit M (z, some ((ix.spill t₁.bare).length + 0 * (ix.main t₁.bare).length)) 0 _ :=
      hfresh.room (by rw [Nat.zero_mul, Nat.add_zero])
    have h₁ := rebuildLane_map (insMaps_insert M) hfresh t₁ (by omega) (M.main_keys hfit.fits)
    rcases h₁.cases with ⟨e1, e2⟩ | ⟨ok, t₂, e1, e2, hfit₁⟩
    · rw [e1, e2]
      exact Maps.none
    rw [e1, e2]
    cases ok with
    | false =>
      dsimp only
      rw [hdrawn]
      exact hfail hfit₁
    | true =>
      dsimp only
      have hroom :
          Fit M (z, some
            (0 + 1 * ((ix.spill t₁.bare).filter fun e => e.2 ≠ valNone).length)) _ t₂ :=
        hfit₁.room (by rw [Nat.zero_add, Nat.one_mul]; exact hfilter)
      have h₂ := rebuildLane_map (insMaps_spill M) hroom t₁ (by omega)
        fun e he => M.spill_keys hfit.fits e (List.mem_of_mem_filter he)
      unfold spillIns at h₂
      rcases h₂.cases with ⟨e1, e2⟩ | ⟨ok, t₃, e1, e2, hfit₂⟩
      · rw [e1, e2]
        exact Maps.none
      rw [e1, e2]
      cases ok with
      | false =>
        dsimp only
        rw [hdrawn]
        exact hfail hfit₂
      | true =>
        dsimp only
        have hroom : Fit M (z, some (0 + 0 * (ix.overflow t₁.bare).length)) _ t₃ :=
          hfit₂.room (by rw [Nat.zero_add, Nat.zero_mul])
        have h₃ := rebuildLane_map (insMaps_insert M) hroom t₁ (by omega)
          (M.overflow_keys hfit.fits)
        rcases h₃.cases with ⟨e1, e2⟩ | ⟨ok, t₄, e1, e2, hfit₃⟩
        · rw [e1, e2]
          exact Maps.none
        rw [e1, e2]
        cases ok with
        | false =>
          dsimp only
          rw [hdrawn]
          exact hfail hfit₃
        | true =>
          dsimp only
          have hplace :
              ({ M.table t₄ with bare := ix'.placeTombs (M.table t₄).bare } : HtTable B') =
              M.table { t₄ with bare := ix.placeTombs t₄.bare } :=
            congrArg (fun b => (⟨b, t₄.entries⟩ : HtTable B')) (M.placeTombs_map t₄.bare)
          rw [hplace]
          exact Maps.some
            ((@Fit.mono _ _ _ _ _ _ n _ _ hfit₃ (by omega)).bare (M.placeTombs_fits hfit₃.fits))

/-! ## Growing and shrinking -/

/-- The live slots of the two indices. -/
lemma mainLive_map (t : HtTable B) : (M.table t).mainLive ix' = t.mainLive ix := by
  unfold HtTable.mainLive
  show ix'.size (M.map t.bare) - (ix'.spill (M.map t.bare)).length -
    (ix'.overflow (M.map t.bare)).length = _
  rw [M.size_map, M.spill_map, M.overflow_map]

/-- The flag `resizing` of the two indices. -/
lemma setResizing_map (r : Bool) (t : HtTable B) :
    ({ M.table t with bare := ix'.setResizing r (M.table t).bare } : HtTable B') =
      M.table { t with bare := ix.setResizing r t.bare } :=
  congrArg (fun b => (⟨b, t.entries⟩ : HtTable B')) (M.setResizing_map r t.bare)

/-- `ht_resize`. -/
lemma htResize_map (h : Fit M (false, none) n t) (hn : n < valNone) (c : ℕ) :
    Maps M (false, none) n (htResize ix' (M.table t) c) (htResize ix t c) := by
  unfold htResize
  have hres : ix'.resizing (M.table t).bare = ix.resizing t.bare := M.resizing_map t.bare
  have hcap : ix'.capacity (M.table t).bare = ix.capacity t.bare := M.capacity_map t.bare
  rw [mainLive_map, hres, hcap, setResizing_map]
  split
  · exact Maps.some h
  split
  · exact Maps.some h
  split
  · exact Maps.some h
  have hone := htRebuild_map (h.bare (M.setResizing_fits true h.fits)) hn
    (c := nextPow2 c) nextPow2_pow2
  rcases hone.cases with ⟨h1, h2⟩ | ⟨ok, t₁, h1, h2, hfit⟩
  · rw [h1, h2]
    exact Maps.none
  · rw [h1, h2]
    dsimp only
    rw [setResizing_map]
    exact Maps.some (hfit.bare (M.setResizing_fits false hfit.fits))

/-- `ht_compact`. -/
lemma htCompact_map (h : Fit M (false, none) n t) (hn : n < valNone) :
    Maps M (false, none) n (htCompact ix' (M.table t)) (htCompact ix t) := by
  unfold htCompact
  rw [show ix'.capacity (M.table t).bare = ix.capacity t.bare from M.capacity_map t.bare]
  exact htRebuild_map h hn fun _ => M.capacity_pow2 h.fits

/-- Both tables grow, or none. -/
lemma growNeeded_map (t : HtTable B) : growNeeded ix' (M.table t) ↔ growNeeded ix t := by
  unfold growNeeded
  rw [mainLive_map, show ix'.resizing (M.table t).bare = ix.resizing t.bare from M.resizing_map _,
    show ix'.capacity (M.table t).bare = ix.capacity t.bare from M.capacity_map _,
    show ix'.maxLoadFactor (M.table t).bare = ix.maxLoadFactor t.bare from M.maxLoadFactor_map _]

/-- The growth before an insertion. -/
lemma growForInsert_map (h : Fit M (false, none) n t) (hn : n < valNone) :
    Maps M (false, none) n (growForInsert ix' (M.table t)) (growForInsert ix t) := by
  unfold growForInsert
  have hcap : ix'.capacity (M.table t).bare = ix.capacity t.bare := M.capacity_map t.bare
  simp only [growNeeded_map, hcap]
  split
  · split
    · exact Maps.some h
    have hone := htResize_map h hn (ix.capacity t.bare * 2)
    rcases hone.cases with ⟨h1, h2⟩ | ⟨ok, t₁, h1, h2, hfit⟩
    · rw [h1, h2]
      exact Maps.none
    rw [h1, h2]
    cases ok with
    | false => exact Maps.some hfit
    | true =>
      dsimp only
      rw [show ix'.size (M.table t₁).bare = ix.size t₁.bare from M.size_map _]
      by_cases hz : ix.size t₁.bare = 0
      · rw [if_pos hz, if_pos hz]
        have hreset : ({ M.table t₁ with
            bare := ix'.resetCounters (ix'.setResizing false (M.table t₁).bare) } : HtTable B') =
            M.table { t₁ with bare := ix.resetCounters (ix.setResizing false t₁.bare) } := by
          show HtTable.mk (ix'.resetCounters (ix'.setResizing false (M.map t₁.bare))) _ = _
          rw [M.setResizing_map, M.resetCounters_map]
          rfl
        rw [hreset]
        refine Maps.some (hfit.bare (M.resetCounters_fits (M.setResizing_fits false hfit.fits) ?_))
        rw [M.setResizing_size]
        exact hz
      · rw [if_neg hz, if_neg hz]
        exact Maps.some hfit
  · exact Maps.some h

/-! ## The calls -/

/-- The second phase of `do_insert_with_hash`. -/
lemma insertNew_map (h : Fit M (false, none) n t) (hn : n < valNone) (hash : ℕ)
    (key value : Bytes) :
    Maps M (false, none) (n + 1) (insertNew ix' (M.table t) hash key value)
      (insertNew ix t hash key value) := by
  unfold insertNew
  rcases (growForInsert_map h hn).cases with ⟨h1, h2⟩ | ⟨ok, t₁, h1, h2, hfit⟩
  · rw [h1, h2]
    exact Maps.none
  rw [h1, h2]
  cases ok with
  | false => exact Maps.some (hfit.mono (Nat.le_succ n))
  | true =>
    dsimp only
    rcases allocEntry_map hfit hn (hashHi hash) key value with
      ⟨t₂, e1, e2, hfit₂⟩ | ⟨b, e, e1, e2, hb⟩
    · rw [e1, e2]
      simp only [if_true]
      exact Maps.some (hfit₂.mono (Nat.le_succ n))
    · rw [e1, e2]
      have hcount := hfit.count
      have hlt : t₁.entries.length < valNone := lt_of_le_of_lt hcount hn
      have hh : h48 hash < 2 ^ 48 := Nat.mod_lt _ (Nat.two_pow_pos 48)
      simp only [if_neg hlt.ne, M.insert_map hb (.inl rfl) hh hlt hlt]
      cases hr : ix.insert b (h48 hash) t₁.entries.length with
      | none => exact Maps.none
      | some r =>
        refine Maps.some (t := ⟨r.2, _⟩) ⟨?_, ?_⟩
        · rw [List.length_append, List.length_singleton]
          exact M.insert_fits hb (.inl rfl) hh hlt hlt hr
        · rw [List.length_append, List.length_singleton]
          exact Nat.succ_le_succ hcount

/-- `do_insert_with_hash`. -/
lemma doInsertWithHash_map (h : Fit M (false, none) n t) (hn : n < valNone) (hash : ℕ)
    (key value : Option Bytes) (mode : InsertMode) :
    Maps M (false, none) (n + 1) (doInsertWithHash ix' fns (M.table t) hash key value mode)
      (doInsertWithHash ix fns t hash key value mode) := by
  unfold doInsertWithHash
  cases key with
  | none => exact Maps.some (h.mono (Nat.le_succ n))
  | some key =>
    cases mode with
    | upsert =>
      obtain ⟨hm, hfit⟩ := keyMatches_map fns h hash key
      dsimp only
      rw [hm]
      rcases hk : keyMatches ix fns t hash key with ⟨_ | ⟨m, ms⟩, t₁⟩
      · rw [hk] at hfit
        exact insertNew_map hfit hn hash key (value.getD [])
      · rw [hk] at hfit
        obtain ⟨hu, hfit₂⟩ := updateEntryValue_map hfit m key (value.getD [])
        dsimp only [Prod.map_apply, id_eq]
        rw [hu]
        rcases hv : updateEntryValue ix t₁ m key (value.getD []) with ⟨ok, t₂⟩
        rw [hv] at hfit₂
        cases ok with
        | false => exact Maps.some (hfit₂.mono (Nat.le_succ n))
        | true =>
          obtain ⟨hr, hfit₃⟩ := removeMatches_map hfit₂ hash ms
          dsimp only [Prod.map_apply, id_eq]
          rw [hr]
          exact Maps.some (hfit₃.mono (Nat.le_succ n))
    | unique =>
      dsimp only
      rw [show ix'.findAll (M.table t).bare hash = ix.findAll t.bare hash from M.findAll_map _ _]
      show Maps M (false, none) (n + 1) (if ((ix.findAll t.bare hash).any fun i =>
        keysMatch fns t i (hashHi hash) key && valsMatch t i (value.getD [])) = true then _
          else _) _
      split
      · exact Maps.some (h.mono (Nat.le_succ n))
      · exact insertNew_map h hn hash key (value.getD [])
    | always => exact insertNew_map h hn hash key (value.getD [])

/-- The shrinking after a removal, with a reply. -/
lemma shrinkAfter_map (h : Fit M (false, none) n t) (hn : n < valNone) (a : α) :
    Maps M (false, none) n ((shrinkAfter ix' (M.table t)).map fun t => (a, t))
      ((shrinkAfter ix t).map fun t => (a, t)) := by
  unfold shrinkAfter
  have hcap : ix'.capacity (M.table t).bare = ix.capacity t.bare := M.capacity_map t.bare
  have hneed : shrinkNeeded ix' (M.table t) ↔ shrinkNeeded ix t := by
    unfold shrinkNeeded
    rw [hcap, show ix'.size (M.table t).bare = ix.size t.bare from M.size_map _,
      show ix'.minLoadFactor (M.table t).bare = ix.minLoadFactor t.bare from M.minLoadFactor_map _]
  simp only [hneed, hcap]
  split
  · rcases (htResize_map h hn (ix.capacity t.bare / 2)).cases with ⟨h1, h2⟩ | ⟨ok, t₁, h1, h2, hfit⟩
    · rw [h1, h2]
      exact Maps.none
    · rw [h1, h2]
      exact Maps.some hfit
  · exact Maps.some h

/-- `ht_remove`. -/
lemma htRemove_map (h : Fit M (false, none) n t) (hn : n < valNone) (key : Option Bytes) :
    Maps M (false, none) n (htRemove ix' fns (M.table t) key) (htRemove ix fns t key) := by
  unfold htRemove
  cases key with
  | none => exact Maps.some h
  | some key =>
    obtain ⟨hm, hfit⟩ := keyMatches_map fns h (fns.hash key) key
    dsimp only
    rw [hm]
    rcases hk : keyMatches ix fns t (fns.hash key) key with ⟨ms, t₁⟩
    rw [hk] at hfit
    obtain ⟨hr, hfit₂⟩ := removeMatches_map hfit (fns.hash key) ms
    dsimp only [Prod.map_apply, id_eq]
    rw [hr]
    split
    · exact shrinkAfter_map hfit₂ hn ms.length
    · exact Maps.some hfit₂

/-- The loop of `ht_remove_kv`. -/
lemma removeKvLoop_map (h : Fit M (false, none) n t) (hash : ℕ) (value : Bytes) (ms : List ℕ)
    (k : ℕ) :
    removeKvLoop ix' hash value ms (k, M.table t) =
        Prod.map id M.table (removeKvLoop ix hash value ms (k, t)) ∧
      Fit M (false, none) n (removeKvLoop ix hash value ms (k, t)).2 := by
  unfold removeKvLoop
  induction ms generalizing t k with
  | nil => exact ⟨rfl, h⟩
  | cons i ms ih =>
    rw [List.foldl_cons, List.foldl_cons]
    dsimp only
    rw [show valsMatch (M.table t) i value = valsMatch t i value from rfl]
    split
    · obtain ⟨hr, hfit⟩ := removeMatches_map h hash [i]
      rw [hr]
      exact ih hfit (k + 1)
    · exact ih h k

/-- `ht_remove_kv`. -/
lemma htRemoveKv_map (h : Fit M (false, none) n t) (key value : Option Bytes) :
    htRemoveKv ix' fns (M.table t) key value =
        Prod.map id M.table (htRemoveKv ix fns t key value) ∧
      Fit M (false, none) n (htRemoveKv ix fns t key value).2 := by
  unfold htRemoveKv
  cases key with
  | none => exact ⟨rfl, h⟩
  | some key =>
    cases value with
    | none => exact ⟨rfl, h⟩
    | some value =>
      obtain ⟨hm, hfit⟩ := keyMatches_map fns h (fns.hash key) key
      dsimp only
      rw [hm]
      exact removeKvLoop_map hfit (fns.hash key) value _ 0

/-- `ht_remove_kv_one`. -/
lemma htRemoveKvOne_map (h : Fit M (false, none) n t) (hn : n < valNone)
    (key value : Option Bytes) :
    Maps M (false, none) n (htRemoveKvOne ix' fns (M.table t) key value)
      (htRemoveKvOne ix fns t key value) := by
  unfold htRemoveKvOne
  cases key with
  | none => exact Maps.some h
  | some key =>
    cases value with
    | none => exact Maps.some h
    | some value =>
      obtain ⟨hm, hfit⟩ := keyMatches_map fns h (fns.hash key) key
      dsimp only
      rw [hm]
      rcases hk : keyMatches ix fns t (fns.hash key) key with ⟨ms, t₁⟩
      rw [hk] at hfit
      dsimp only [Prod.map_apply, id_eq]
      rw [show (fun i => valsMatch (M.table t₁) i value) = fun i => valsMatch t₁ i value from rfl]
      cases ms.find? fun i => valsMatch t₁ i value with
      | none => exact Maps.some hfit
      | some i =>
        obtain ⟨hr, hfit₂⟩ := removeMatches_map hfit (fns.hash key) [i]
        dsimp only
        rw [hr]
        exact shrinkAfter_map hfit₂ hn true

/-- One call. -/
lemma HtOp.run_map (h : Fit M (false, none) n t) (hn : n < valNone) (op : HtOp)
    (hclear : op = .clear → M.clearOk t.bare = true) :
    Maps M (false, none) (n + 1) (op.run ix' fns (M.table t)) (op.run ix fns t) := by
  cases op with
  | insert key value =>
    exact (doInsertWithHash_map fns h hn _ key value .always).map HtReply.inserted
  | upsert key value =>
    exact (doInsertWithHash_map fns h hn _ key value .upsert).map HtReply.inserted
  | unsert key value =>
    exact (doInsertWithHash_map fns h hn _ key value .unique).map HtReply.inserted
  | remove key => exact ((htRemove_map fns h hn key).mono (Nat.le_succ n)).map HtReply.removed
  | removeKv key value =>
    obtain ⟨hr, hfit⟩ := htRemoveKv_map fns h key value
    rw [HtOp.run, HtOp.run, hr]
    exact Maps.some (hfit.mono (Nat.le_succ n))
  | removeKvOne key value =>
    exact ((htRemoveKvOne_map fns h hn key value).mono (Nat.le_succ n)).map HtReply.done
  | resize c => exact ((htResize_map h hn c).mono (Nat.le_succ n)).map HtReply.done
  | compact => exact ((htCompact_map h hn).mono (Nat.le_succ n)).map HtReply.done
  | clear =>
    have hmap : htClear ix' (M.table t) = M.table (htClear ix t) :=
      congrArg (fun b => (⟨b, []⟩ : HtTable B')) (M.clear_map t.bare)
    rw [HtOp.run, HtOp.run, hmap]
    exact Maps.some ⟨M.clear_fits h.fits (hclear rfl), Nat.zero_le _⟩

/-- A run of calls. -/
lemma runReplies_map (h : M.Fits (false, none) t.entries.length t.bare) {ops : List HtOp}
    (hgentle : gentleRun ix fns M.clearOk t ops = true) :
    runReplies ix' fns (M.table t) ops = (runReplies ix fns t ops).map (Prod.map id M.table) ∧
      ∀ rs t', runReplies ix fns t ops = some (rs, t') →
      M.Fits (false, none) t'.entries.length t'.bare := by
  induction ops generalizing t with
  | nil => exact ⟨rfl, fun rs t' hr => by cases hr; exact h⟩
  | cons op ops ih =>
    rw [gentleRun, Bool.and_eq_true, decide_eq_true_eq] at hgentle
    obtain ⟨⟨hlt, hclear⟩, hgentle⟩ := hgentle
    rw [runReplies, runReplies]
    rcases (HtOp.run_map fns ⟨h, le_rfl⟩ hlt op hclear).cases with ⟨h1, h2⟩ | ⟨r, t₁, h1, h2, hfit⟩
    · rw [h1, h2]
      exact ⟨rfl, nofun⟩
    · rw [h1] at hgentle
      rw [h1, h2]
      obtain ⟨hmap, hfits⟩ := ih hfit.fits hgentle
      dsimp only
      rw [hmap]
      cases hr : runReplies ix fns t₁ ops with
      | none => exact ⟨rfl, nofun⟩
      | some x =>
        refine ⟨rfl, fun rs t' he => ?_⟩
        cases he
        exact hfits x.1 x.2 hr

end

end Draugr
