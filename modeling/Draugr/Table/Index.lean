import Draugr.Bare.Multimap
import Draugr.Table.Defs

/-!
# What the key/value table needs of its index

`IndexLaws` says what an index has to do for the table: it holds a multiset of `(hash, number)`
entries (`contents`), lookups report it, and each operation changes it as expected. Two tests tell
when an index keeps this promise: `insertSafe` before an insertion, `findSafe` before a lookup.
`IndexLaws.Exact` is an index that always does, with every allocation succeeding.

`bareLaws` is the bare table of `Draugr.Bare`, whose promise is `HeadSafe` along the insertion and
no lap of the lookup. `listLaws` is the plain list of entries, an exact multimap.
-/

namespace Draugr
open Lib

/-- The promise of an index. -/
structure IndexLaws {B : Type} (ix : IndexOps B) where
  /-- the invariant of the index -/
  Inv : B → Prop
  /-- the entries it holds -/
  contents : B → Multiset (ℕ × ℕ)
  /-- the test before an insertion -/
  insertSafe : B → ℕ → ℕ → Bool
  /-- the test before a lookup -/
  findSafe : B → ℕ → Bool
  /-- the test before `ht_clear` -/
  clearSafe : B → Bool
  findAll_eq : ∀ {b hash}, Inv b → findSafe b hash = true →
    (ix.findAll b hash : Multiset ℕ) = valuesOf (contents b) (h48 hash)
  insert_keeps : ∀ {b h v}, Inv b → h < 2 ^ 48 → v ≠ valNone → insertSafe b h v = true →
    ∃ ok b', ix.insert b h v = some (ok, b') ∧ Inv b' ∧
      contents b' = if ok then (h, v) ::ₘ contents b else contents b
  spillInsert_keeps : ∀ {b h v}, Inv b → h < 2 → v ≠ valNone →
    Inv (ix.spillInsert b h v).2 ∧ contents (ix.spillInsert b h v).2 =
      if (ix.spillInsert b h v).1 then (h, v) ::ₘ contents b else contents b
  removeVal_keeps : ∀ {b} (hash v : ℕ), Inv b →
    Inv (ix.removeVal b hash v).2 ∧
      contents (ix.removeVal b hash v).2 = (contents b).erase (h48 hash, v)
  lanes : ∀ {b}, Inv b → contents b =
    (ix.main b : Multiset (ℕ × ℕ)) + (ix.spill b : Multiset (ℕ × ℕ)) +
      (ix.overflow b : Multiset (ℕ × ℕ))
  spill_lt : ∀ {b}, Inv b → ∀ e ∈ ix.spill b, e.1 < 2
  hash_lt : ∀ {b}, Inv b → ∀ e ∈ contents b, e.1 < 2 ^ 48
  val_ne : ∀ {b}, Inv b → ∀ e ∈ contents b, e.2 ≠ valNone
  size_eq : ∀ {b}, Inv b → ix.size b = (contents b).card
  capacity_pos : ∀ {b}, Inv b → 0 < ix.capacity b
  fresh_keeps : ∀ {b c}, 0 < c → Inv (ix.fresh b c) ∧ contents (ix.fresh b c) = 0
  clear_keeps : ∀ {b}, Inv b → Inv (ix.clear b) ∧ contents (ix.clear b) = 0
  placeTombs_keeps : ∀ {b}, Inv b → Inv (ix.placeTombs b) ∧ contents (ix.placeTombs b) = contents b
  setResizing_keeps : ∀ {b} (r : Bool), Inv b →
    Inv (ix.setResizing r b) ∧ contents (ix.setResizing r b) = contents b
  resetCounters_keeps : ∀ {b}, Inv b → ix.size b = 0 →
    Inv (ix.resetCounters b) ∧ contents (ix.resetCounters b) = contents b
  malloc_keeps : ∀ {b}, Inv b → Inv (ix.malloc b).2 ∧ contents (ix.malloc b).2 = contents b
  entryFailed_keeps :
    ∀ {b}, Inv b → Inv (ix.entryFailed b) ∧ contents (ix.entryFailed b) = contents b
  drawn_keeps : ∀ {b} (b' : B), Inv b → Inv (ix.drawn b b') ∧ contents (ix.drawn b b') = contents b

/-- An index that always keeps its promise, with every allocation succeeding. -/
structure IndexLaws.Exact {B : Type} {ix : IndexOps B} (L : IndexLaws ix) : Prop where
  insertSafe : ∀ b h v, L.insertSafe b h v = true
  findSafe : ∀ b hash, L.findSafe b hash = true
  clearSafe : ∀ b, L.clearSafe b = true
  insert_ok : ∀ {b h v ok b'}, ix.insert b h v = some (ok, b') → ok = true
  spillInsert_ok : ∀ b h v, (ix.spillInsert b h v).1 = true
  malloc_ok : ∀ b, ix.malloc b = (true, b)

/-! ## The bare table -/

/-- The bare table as the index of a key/value table. -/
def bareIndex : IndexOps HtBare where
  findAll := htBareFindAll
  insert b h v :=
    if h < 2 then some (bareSpillInsert b h v) else bareRhInsertBounded bareResizeTable b h v
  spillInsert := bareSpillInsert
  removeVal := htBareRemoveVal
  main b := liveEntries b.main
  spill b := b.spill
  overflow b := b.overflow
  size b := b.size
  capacity b := b.capacity
  maxLoadFactor b := b.maxLoadFactor
  minLoadFactor b := b.minLoadFactor
  resizing b := b.resizing
  setResizing r b := { b with resizing := r }
  fresh := freshBlocks
  placeTombs b := { barePlaceProphylacticTombstones b with spillInBlock := true }
  resetCounters b := { b with size := 0, tombstoneCnt := 0 }
  clear b :=
    let b := htBareClear b
    if b.spillInBlock then b else { b with spillCap := spillInitial, spillInBlock := true }
  malloc := malloc
  entryFailed b := b
  drawn b b' := { b with mem := b'.mem }

/-- The invariant of the bare table as an index. -/
structure BareInv (b : HtBare) : Prop where
  sound : ∃ n, Sound n b
  size : b.size = b.contents.card

/-- Fields the invariant does not read. -/
lemma BareInv.congr {b b' : HtBare} (h : BareInv b) (hm : b'.main = b.main)
    (hs : b'.spill = b.spill)
    (ho : b'.overflow = b.overflow) (hv : b'.overflowViolated = b.overflowViolated)
    (hp : b'.maxProbeDist = b.maxProbeDist) (hz : b'.size = b.size) :
    BareInv b' ∧ b'.contents = b.contents := by
  have hcon : b'.contents = b.contents := by
    unfold HtBare.contents
    rw [hm, hs, ho]
  obtain ⟨n, hS⟩ := h.sound
  refine ⟨⟨⟨n, hS.congr hm hs ho hv hp⟩, ?_⟩, hcon⟩
  rw [hz, hcon, h.size]

/-- An insertion into the spill lane, whether or not the lane can grow. -/
lemma bareSpillInsert_inv {b : HtBare} (hI : BareInv b) {h v : ℕ} (hh : h < 2) (hv : v ≠ valNone) :
    BareInv (bareSpillInsert b h v).2 ∧ (bareSpillInsert b h v).2.contents =
      if (bareSpillInsert b h v).1 then (h, v) ::ₘ b.contents else b.contents := by
  have hh48 : h48 h = h := Nat.mod_eq_of_lt (by omega)
  have hpush : ∀ {b : HtBare}, BareInv b →
      BareInv { b with spill := b.spill ++ [(h, v)], size := b.size + 1 } ∧
      ({ b with spill := b.spill ++ [(h, v)], size := b.size + 1 } : HtBare).contents =
        (h, v) ::ₘ b.contents := by
    intro b hI
    obtain ⟨n, hS⟩ := hI.sound
    have hcon : ({ b with spill := b.spill ++ [(h, v)], size := b.size + 1 } : HtBare).contents =
        (h, v) ::ₘ b.contents := by
      have := contents_spill_append b [(h, v)] (b.size + 1) b.spillCap
      rwa [Multiset.coe_singleton, Multiset.singleton_add] at this
    refine ⟨⟨⟨n, hS.spill_append ?_ _ b.spillCap⟩, ?_⟩, hcon⟩
    · intro e he
      rw [List.mem_singleton] at he
      rw [he]
      exact ⟨hh, hv⟩
    · rw [hcon, Multiset.card_cons, ← hI.size]
  have hgrow : BareInv (bareSpillGrow b).2 ∧ (bareSpillGrow b).2.contents = b.contents := by
    unfold bareSpillGrow malloc
    generalize (if b.spillCap = 0 then spillInitial else b.spillCap * 2) = newCap
    simp only
    split
    · exact ⟨hI, rfl⟩
    · cases b.mem with
      | nil => exact hI.congr rfl rfl rfl rfl rfl rfl
      | cons ok rest => cases ok <;> exact hI.congr rfl rfl rfl rfl rfl rfl
  unfold bareSpillInsert
  rw [hh48]
  split
  · rcases hg : bareSpillGrow b with ⟨ok, b₁⟩
    rw [hg] at hgrow
    cases ok with
    | false => exact hgrow
    | true =>
      obtain ⟨h1, h2⟩ := hpush hgrow.1
      exact ⟨h1, h2.trans (by rw [hgrow.2]; rfl)⟩
  · exact hpush hI

/-- A lookup whose walk is safe. -/
lemma bareFindAll_keeps {b : HtBare} {hash : ℕ} (hI : BareInv b)
    (hs : (!decide (Laps b hash)) = true) :
    (htBareFindAll b hash : Multiset ℕ) = valuesOf b.contents (h48 hash) := by
  obtain ⟨n, hS⟩ := hI.sound
  have hlap : ¬ Laps b hash := by simpa using hs
  exact htBareFindAll_eq hS hlap

/-- An insertion whose walk is safe. -/
lemma bareInsert_keeps {b : HtBare} {h v : ℕ} (hI : BareInv b) (hh : h < 2 ^ 48) (hv : v ≠ valNone)
    (hs : (decide (h < 2) || insertWalk headSafe bareResizeTable b h v) = true) :
    ∃ ok b', bareIndex.insert b h v = some (ok, b') ∧ BareInv b' ∧
      b'.contents = if ok then (h, v) ::ₘ b.contents else b.contents := by
  simp only [bareIndex]
  split
  · rename_i hsmall
    obtain ⟨h1, h2⟩ := bareSpillInsert_inv hI hsmall hv
    exact ⟨_, _, rfl, h1, h2⟩
  · rename_i hbig
    obtain ⟨n, hS⟩ := hI.sound
    have hw : insertWalk headSafe bareResizeTable b h v = true := by simpa [hbig] using hs
    obtain ⟨b', hr, hIns⟩ := bareRhInsertBounded_inserts hS (not_lt.mp hbig) hh hv hw
    refine ⟨true, b', hr, ⟨⟨n, hIns.sound⟩, ?_⟩, hIns.contents⟩
    rw [hIns.size, hIns.contents, Multiset.card_cons, hI.size]

/-- A removal takes the entry out, if it is there. -/
lemma bareRemoveVal_keeps {b : HtBare} (hash v : ℕ) (hI : BareInv b) :
    BareInv (htBareRemoveVal b hash v).2 ∧
      (htBareRemoveVal b hash v).2.contents = b.contents.erase (h48 hash, v) := by
  obtain ⟨n, hS⟩ := hI.sound
  rcases htBareRemoveVal_spec hS hash v with ⟨he, hno⟩ | ⟨b', he, hD⟩
  · rw [he, Multiset.erase_of_notMem hno]
    exact ⟨hI, rfl⟩
  · rw [he]
    have hcard : b.size = b'.contents.card + 1 := by
      rw [hI.size, ← hD.contents, Multiset.card_cons]
    refine ⟨⟨⟨n, hD.sound⟩, ?_⟩, ?_⟩
    · rw [hD.size, sizeDec, if_neg (by omega), hcard]
      rfl
    · rw [← hD.contents, Multiset.erase_cons_head]

/-- The bare table keeps the promise of an index. -/
def bareLaws : IndexLaws bareIndex where
  Inv := BareInv
  contents b := b.contents
  insertSafe b h v := decide (h < 2) || insertWalk headSafe bareResizeTable b h v
  findSafe b hash := !decide (Laps b hash)
  clearSafe b := b.spillInBlock
  findAll_eq := bareFindAll_keeps
  insert_keeps := bareInsert_keeps
  spillInsert_keeps := fun hI hh hv => bareSpillInsert_inv hI hh hv
  removeVal_keeps := bareRemoveVal_keeps
  lanes := fun _ => rfl
  spill_lt := by
    intro b hI
    obtain ⟨n, hS⟩ := hI.sound
    exact hS.spill
  hash_lt := by
    intro b hI e he
    obtain ⟨n, hS⟩ := hI.sound
    rcases Multiset.mem_add.mp he with he | he
    · rcases Multiset.mem_add.mp he with he | he
      · exact (hS.mem_main he).2.1
      · have := hS.spill e he
        omega
    · exact (hS.overflow e he).2
  val_ne := by
    intro b hI
    obtain ⟨n, hS⟩ := hI.sound
    exact hS.vals
  size_eq := fun hI => hI.size
  capacity_pos := by
    intro b hI
    obtain ⟨n, hS⟩ := hI.sound
    show 0 < b.capacity
    rw [hS.cap]
    exact hS.pos
  fresh_keeps := by
    intro b c hc
    have hzero : (freshBlocks b c).contents = 0 := contents_fresh rfl rfl rfl
    exact ⟨⟨⟨c, Sound.of_fresh hc rfl rfl rfl⟩, (congrArg Multiset.card hzero).symm⟩, hzero⟩
  clear_keeps := by
    intro b hI
    obtain ⟨n, hS⟩ := hI.sound
    have hpos : 0 < b.capacity := by
      rw [hS.cap]
      exact hS.pos
    have hzero : (htBareClear b).contents = 0 := contents_fresh (n := b.capacity) rfl rfl rfl
    have hclear : BareInv (htBareClear b) :=
      ⟨⟨_, Sound.of_fresh hpos rfl rfl rfl⟩, (congrArg Multiset.card hzero).symm⟩
    simp only [bareIndex]
    split
    · exact ⟨hclear, hzero⟩
    · rw [← hzero]
      exact hclear.congr rfl rfl rfl rfl rfl rfl
  placeTombs_keeps := by
    intro b hI
    obtain ⟨n, hS⟩ := hI.sound
    obtain ⟨h1, h2, h3, _⟩ := barePlaceProphylacticTombstones_keeps hS
    have hplaced : BareInv (barePlaceProphylacticTombstones b) :=
      ⟨⟨n, h1⟩, h3.trans (hI.size.trans (congrArg Multiset.card h2).symm)⟩
    rw [← h2]
    exact hplaced.congr rfl rfl rfl rfl rfl rfl
  setResizing_keeps := fun _ hI => hI.congr rfl rfl rfl rfl rfl rfl
  resetCounters_keeps := fun hI hz => hI.congr rfl rfl rfl rfl rfl hz.symm
  malloc_keeps := by
    intro b hI
    show BareInv (malloc b).2 ∧ (malloc b).2.contents = b.contents
    unfold malloc
    cases b.mem with
    | nil => exact ⟨hI, rfl⟩
    | cons ok rest => exact hI.congr rfl rfl rfl rfl rfl rfl
  entryFailed_keeps := fun hI => ⟨hI, rfl⟩
  drawn_keeps := fun _ hI => hI.congr rfl rfl rfl rfl rfl rfl

/-! ## The plain list -/

/-- Equality of entries decides as it should. -/
local instance entryLawful : LawfulBEq (ℕ × ℕ) := inferInstance

/-- A list of entries as an index, of the default capacity and load factors. -/
def listIndex : IndexOps (List (ℕ × ℕ)) where
  findAll l hash := laneVals l (h48 hash)
  insert l h v := some (true, l ++ [(h, v)])
  spillInsert l h v := (true, l ++ [(h, v)])
  removeVal l hash v :=
    (decide ((h48 hash, v) ∈ l), @List.erase _ instBEqOfDecidableEq l (h48 hash, v))
  main l := l.filter fun e => !decide (e.1 < 2)
  spill l := l.filter fun e => e.1 < 2
  overflow _ := []
  size l := l.length
  capacity _ := 64
  maxLoadFactor _ := 3 / 4
  minLoadFactor _ := 1 / 5
  resizing _ := false
  setResizing _ l := l
  fresh _ _ := []
  placeTombs l := l
  resetCounters l := l
  clear _ := []
  malloc l := (true, l)
  entryFailed l := l
  drawn l _ := l

/-- Appending to a list index. -/
lemma list_append_keeps {l : List (ℕ × ℕ)} {h v : ℕ}
    (hI : ∀ e ∈ l, e.1 < 2 ^ 48 ∧ e.2 ≠ valNone) (hh : h < 2 ^ 48) (hv : v ≠ valNone) :
    (∀ e ∈ l ++ [(h, v)], e.1 < 2 ^ 48 ∧ e.2 ≠ valNone) ∧
      ((l ++ [(h, v)] : List (ℕ × ℕ)) : Multiset (ℕ × ℕ)) = (h, v) ::ₘ (l : Multiset (ℕ × ℕ)) := by
  constructor
  · intro e he
    rcases List.mem_append.mp he with he | he
    · exact hI e he
    · rw [List.mem_singleton] at he
      rw [he]
      exact ⟨hh, hv⟩
  · rw [← Multiset.coe_add, Multiset.coe_singleton, add_comm, Multiset.singleton_add]

/-- A list keeps the promise of an index. -/
def listLaws : IndexLaws listIndex where
  Inv l := ∀ e ∈ l, e.1 < 2 ^ 48 ∧ e.2 ≠ valNone
  contents l := l
  insertSafe _ _ _ := true
  findSafe _ _ := true
  clearSafe _ := true
  findAll_eq := fun _ _ => coe_laneVals _ _
  insert_keeps := by
    intro l h v hI hh hv _
    obtain ⟨h1, h2⟩ := list_append_keeps hI hh hv
    exact ⟨true, _, rfl, h1, h2⟩
  spillInsert_keeps := fun hI hh hv => list_append_keeps hI (by omega) hv
  removeVal_keeps := by
    intro l hash v hI
    have hc : ((listIndex.removeVal l hash v).2 : Multiset (ℕ × ℕ)) =
        (l : Multiset (ℕ × ℕ)).erase (h48 hash, v) := (Multiset.coe_erase l (h48 hash, v)).symm
    refine ⟨fun e he => hI e (Multiset.mem_coe.mp ?_), hc⟩
    rw [← Multiset.mem_coe, hc] at he
    exact Multiset.mem_of_mem_erase he
  lanes := by
    intro l _
    have hp := Multiset.coe_eq_coe.mpr
      (List.filter_append_perm (fun e : ℕ × ℕ => decide (e.1 < 2)) l)
    rw [← Multiset.coe_add, add_comm] at hp
    exact hp.symm.trans (add_zero _).symm
  spill_lt := by
    intro l _ e he
    simpa using List.of_mem_filter he
  hash_lt := fun hI e he => (hI e he).1
  val_ne := fun hI e he => (hI e he).2
  size_eq := fun _ => rfl
  capacity_pos := fun _ => Nat.zero_lt_succ 63
  fresh_keeps := fun _ => ⟨fun _ he => absurd he List.not_mem_nil, rfl⟩
  clear_keeps := fun _ => ⟨fun _ he => absurd he List.not_mem_nil, rfl⟩
  placeTombs_keeps := fun hI => ⟨hI, rfl⟩
  setResizing_keeps := fun _ hI => ⟨hI, rfl⟩
  resetCounters_keeps := fun hI _ => ⟨hI, rfl⟩
  malloc_keeps := fun hI => ⟨hI, rfl⟩
  entryFailed_keeps := fun hI => ⟨hI, rfl⟩
  drawn_keeps := fun _ hI => ⟨hI, rfl⟩

/-- The plain list is exact. -/
lemma listLaws_exact : listLaws.Exact :=
  ⟨fun _ _ _ => rfl, fun _ _ => rfl, fun _ => rfl, fun h => by cases h; rfl, fun _ _ _ => rfl,
    fun _ => rfl⟩

end Draugr
