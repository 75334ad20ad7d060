import Draugr.Table.Preserve
import Draugr.Bare.Remove

/-!
# When an insertion into a key/value table fails

With allocations that succeed, an insertion over the bare index can fail in one place only: the
growth that precedes it. `ht_rebuild` itself succeeds then (`htRebuild_calm`), so the growth comes
to the test `size == 0` behind `ht_resize`. As `ht_rebuild` leaves out the entries with an empty
key, the test makes every insertion fail that grows a table without other entries
(`growForInsert_calm`). `htInsert_succeeds_iff` is the exact condition.
-/

namespace Draugr
open Lib

variable {fns : HtFns} {t t' old : HtTable HtBare} {b b' : HtBare} {n k : ℕ}

/-! ## The index, with allocations that succeed -/

/-- The next allocations succeed, and the spill lane has room for `k` entries. -/
structure Roomy (k : ℕ) (b : HtBare) : Prop where
  mem : b.mem = []
  room : b.spill.length + k ≤ b.spillCap

/-- Room for some values is room for fewer. -/
lemma Roomy.mono {m : ℕ} (h : Roomy k b) (hm : m ≤ k) : Roomy m b :=
  ⟨h.mem, by have := h.room; omega⟩

/-- An insertion into the main array or the overflow stash of the index. -/
lemma insert_calm {h v : ℕ} (hI : BareInv b) (hR : Roomy k b) (h2 : 2 ≤ h) (hh : h < 2 ^ 48)
    (hv : v ≠ valNone) (hs : bareLaws.insertSafe b h v = true) :
    ∃ b', bareIndex.insert b h v = some (true, b') ∧ Roomy k b' := by
  obtain ⟨n, hS⟩ := hI.sound
  have hw : insertWalk headSafe bareResizeTable b h v = true := by
    rcases (Bool.or_eq_true _ _).mp hs with hc | hc
    · exact absurd (of_decide_eq_true hc) (not_lt.mpr h2)
    · exact hc
  obtain ⟨b', hr, hIns⟩ := bareRhInsertBounded_inserts hS h2 hh hv hw
  refine ⟨b', (if_neg (not_lt.mpr h2)).trans hr, hIns.frame.mem.trans hR.mem, ?_⟩
  rw [hIns.frame.spill, hIns.frame.spillCap]
  exact hR.room

/-- An insertion into a spill lane with room. -/
lemma spillInsert_calm {h v : ℕ} (hR : Roomy (k + 1) b) :
    ∃ b', bareSpillInsert b h v = (true, b') ∧ Roomy k b' := by
  have hroom := hR.room
  refine ⟨_, if_neg (by omega), hR.mem, ?_⟩
  show (b.spill ++ [_]).length + k ≤ b.spillCap
  rw [List.length_append, List.length_singleton]
  omega

/-- An insertion into a spill lane whose growth fits the address space. -/
lemma spillInsert_grows {h v : ℕ} (hm : b.mem = []) (hlen : b.spill.length < 2 ^ 31) :
    ∃ b', bareSpillInsert b h v = (true, b') := by
  unfold bareSpillInsert
  split
  · rename_i hfull
    have hgrow : ∃ b₁, bareSpillGrow b = (true, b₁) := by
      unfold bareSpillGrow
      dsimp only
      rw [if_neg, malloc_nil hm]
      · exact ⟨_, rfl⟩
      · unfold sizeMax spillInitial
        split <;> omega
    obtain ⟨b₁, hg⟩ := hgrow
    rw [hg]
    exact ⟨_, rfl⟩
  · exact ⟨_, rfl⟩

/-! ## A rebuild -/

/-- An insertion that succeeds from `P (k + 1)` on and leaves `P k`, for hashes in `C`. -/
structure CalmIns (P : ℕ → HtBare → Prop) (C : ℕ → Prop) (S : HtBare → ℕ → ℕ → Bool)
    (ins : HtBare → ℕ → ℕ → Option (Bool × HtBare)) : Prop where
  mem : ∀ k b, P k b → b.mem = []
  mono : ∀ k b, P (k + 1) b → P k b
  step : ∀ k b h v, BareInv b → P (k + 1) b → C h → v ≠ valNone → S b h v = true →
    ∃ b', ins b h v = some (true, b') ∧ P k b'

section
variable {P : ℕ → HtBare → Prop} {C : ℕ → Prop} {S : HtBare → ℕ → ℕ → Bool}
  {ins : HtBare → ℕ → ℕ → Option (Bool × HtBare)}

/-- One entry of `ht_rebuild`. -/
lemma rebuildEntry_calm (hins : CalmIns P C S ins) (hI : BareInv t.bare) (hP : P (k + 1) t.bare)
    (hcount : t.entries.length < valNone) {he : ℕ × ℕ} (hC : C he.1)
    (hs : entrySafe bareIndex S old t he = true) :
    ∃ t', rebuildEntry bareIndex ins old t he = some (true, t') ∧ P k t'.bare := by
  unfold rebuildEntry
  dsimp only
  by_cases hk : (old.entry he.2).keyLen = 0
  · rw [if_pos hk]
    exact ⟨t, rfl, hins.mono _ _ hP⟩
  · rw [if_neg hk]
    have hmal : bareIndex.malloc t.bare = (true, t.bare) := malloc_nil (hins.mem _ _ hP)
    have hlen : t.entries.length % 2 ^ 32 = t.entries.length := by
      refine Nat.mod_eq_of_lt ?_
      unfold valNone at hcount
      omega
    have hS : S t.bare he.1 t.entries.length = true := by
      unfold entrySafe at hs
      rw [hmal, hlen] at hs
      simpa [hk] using hs
    obtain ⟨b', hb, hP'⟩ := hins.step _ _ _ _ hI hP hC (ne_of_lt hcount) hS
    unfold HtTable.malloc
    rw [hmal]
    dsimp only
    rw [hlen, hb]
    exact ⟨_, rfl, hP'⟩

/-- One lane of `ht_rebuild`. -/
lemma rebuildLane_calm (hlaw : InsLaw bareLaws C S ins) (hins : CalmIns P C S ins)
    (hG : Good bareLaws fns t) {hes : List (ℕ × ℕ)} (hP : P (k + hes.length) t.bare)
    (hcount : t.entries.length + hes.length ≤ valNone) (hH : ∀ he ∈ hes, Holds fns old he)
    (hC : ∀ he ∈ hes, C he.1) (hs : laneSafe bareIndex S ins old hes t = true) :
    ∃ t', rebuildLane bareIndex ins old hes t = some (true, t') ∧ P k t'.bare := by
  induction hes generalizing t with
  | nil => exact ⟨t, rfl, hP⟩
  | cons he hes ih =>
    rw [List.length_cons] at hcount hP
    rw [laneSafe, Bool.and_eq_true] at hs
    obtain ⟨ok, t₁, h1, hG₁, hlen, -⟩ := rebuildEntry_spec hlaw hG (by omega)
      (hH he List.mem_cons_self) (hC he List.mem_cons_self) hs.1
    obtain ⟨t₂, h2, hP₂⟩ := rebuildEntry_calm (k := k + hes.length) hins hG.inv hP (by omega)
      (hC he List.mem_cons_self) hs.1
    rw [h1] at h2
    cases h2
    rw [rebuildLane]
    rw [h1] at hs ⊢
    exact ih hG₁ hP₂ (by omega) (fun e h => hH e (List.mem_cons_of_mem _ h))
      (fun e h => hC e (List.mem_cons_of_mem _ h)) hs.2

end

/-- The main array and the overflow stash of a good table hold hashes from 2 on. -/
lemma BareInv.lanes_big (hI : BareInv b) :
    (∀ e ∈ liveEntries b.main, 2 ≤ e.1 ∧ e.1 < 2 ^ 48) ∧ ∀ e ∈ b.overflow,
      2 ≤ e.1 ∧ e.1 < 2 ^ 48 := by
  obtain ⟨n, hS⟩ := hI.sound
  exact ⟨fun e he => ⟨(hS.mem_main he).1, (hS.mem_main he).2.1⟩, hS.overflow⟩

/-- The insertions of `ht_rebuild` outside the spill lane. -/
lemma calmIns_main (m : ℕ) : CalmIns (fun _ => Roomy m) (fun h => 2 ≤ h ∧ h < 2 ^ 48)
    bareLaws.insertSafe bareIndex.insert where
  mem := fun _ _ h => h.mem
  mono := fun _ _ h => h
  step := fun _ _ _ _ hI hP hC hv hs => insert_calm hI hP hC.1 hC.2 hv hs

/-- The insertions of `ht_rebuild` into the spill lane. -/
lemma calmIns_spill : CalmIns Roomy (· < 2) (fun _ _ _ => true) (spillIns bareIndex) where
  mem := fun _ _ h => h.mem
  mono := fun k _ h => h.mono (Nat.le_succ k)
  step := by
    intro k b h v _ hP _ _ _
    obtain ⟨b', hb, hP'⟩ := spillInsert_calm (h := h) (v := v) hP
    exact ⟨b', congrArg some hb, hP'⟩

/-- One lane of `ht_rebuild`: what it leaves, and that it succeeds. -/
lemma rebuildLane_done {P : ℕ → HtBare → Prop} {C : ℕ → Prop} {S : HtBare → ℕ → ℕ → Bool}
    {ins : HtBare → ℕ → ℕ → Option (Bool × HtBare)} (hlaw : InsLaw bareLaws C S ins)
    (hins : CalmIns P C S ins) (hG : Good bareLaws fns t) {hes : List (ℕ × ℕ)}
    (hP : P (k + hes.length) t.bare) (hcount : t.entries.length + hes.length ≤ valNone)
    (hH : ∀ he ∈ hes, Holds fns old he) (hC : ∀ he ∈ hes, C he.1)
    (hs : laneSafe bareIndex S ins old hes t = true) :
    ∃ t', rebuildLane bareIndex ins old hes t = some (true, t') ∧ P k t'.bare ∧
      Good bareLaws fns t' ∧ t'.entries.length ≤ t.entries.length + hes.length := by
  obtain ⟨ok, t₁, h₁, hG₁, hlen, -⟩ := rebuildLane_spec hlaw hG hcount hH hC hs
  obtain ⟨t₂, h₂, hP₂⟩ := rebuildLane_calm hlaw hins hG hP hcount hH hC hs
  rw [h₁] at h₂
  cases h₂
  exact ⟨t₁, h₁, hP₂, hG₁, hlen⟩

/-- `ht_rebuild` succeeds when the allocations do. -/
lemma htRebuild_calm {W : HtTable HtBare → Bool} (hG : Good bareLaws fns t) {c : ℕ} (hpos : 0 < c)
    (hm : t.bare.mem = []) (hs : rebuildSafe bareLaws W t c = true) :
    ∃ t', htRebuild bareIndex t c = some (true, t') ∧ t'.bare.mem = [] := by
  unfold rebuildSafe at hs
  rw [Bool.and_eq_true, Bool.and_eq_true, decide_eq_true_eq] at hs
  obtain ⟨⟨-, hfit⟩, hs⟩ := hs
  have hmal : t.malloc bareIndex = (true, t) := by
    unfold HtTable.malloc
    have h : bareIndex.malloc t.bare = (true, t.bare) := malloc_nil hm
    rw [h]
  rw [hmal] at hs
  simp only [Bool.and_eq_true] at hs
  obtain ⟨hs₁, hs₂⟩ := hs
  -- what the lanes hold
  have hmain : ∀ e ∈ liveEntries t.bare.main, e ∈ t.bare.contents := by
    intro e he
    unfold HtBare.contents
    simp [he]
  have hspill : ∀ e ∈ t.bare.spill, e ∈ t.bare.contents := by
    intro e he
    unfold HtBare.contents
    simp [he]
  have hover : ∀ e ∈ t.bare.overflow, e ∈ t.bare.contents := by
    intro e he
    unfold HtBare.contents
    simp [he]
  obtain ⟨hbig, hbig'⟩ := hG.inv.lanes_big
  obtain ⟨n, hS⟩ := hG.inv.sound
  have hself : (bareIndex.spill t.bare).filter (·.2 ≠ valNone) = t.bare.spill :=
    List.filter_eq_self.mpr fun e he => decide_eq_true (hS.vals e (hspill e he))
  have hcount := hG.count
  have hlen : (liveEntries t.bare.main).length + t.bare.spill.length + t.bare.overflow.length ≤
      t.entries.length := by
    refine le_trans (le_of_eq ?_) hG.card_le
    show _ = t.bare.contents.card
    unfold HtBare.contents
    rw [Multiset.card_add, Multiset.card_add, Multiset.coe_card, Multiset.coe_card,
      Multiset.coe_card]
  have hins : InsLaw bareLaws (fun h => 2 ≤ h ∧ h < 2 ^ 48) bareLaws.insertSafe bareIndex.insert :=
    fun hI hC => insLaw_insert bareLaws hI hC.2
  -- the main array
  obtain ⟨hfI, hf0⟩ := bareLaws.fresh_keeps (b := t.bare) hpos
  have hF : Good bareLaws fns ⟨freshBlocks t.bare c, []⟩ := Good.of_empty hfI hf0
  have hroom : Roomy t.bare.spill.length (freshBlocks t.bare c) := by
    refine ⟨hm, ?_⟩
    show 0 + t.bare.spill.length ≤ max t.bare.spill.length spillInitial
    omega
  obtain ⟨t₁, h₁, hR₁, hG₁, hl₁⟩ := rebuildLane_done (k := 0) hins
    (calmIns_main t.bare.spill.length) hF hroom (by rw [List.length_nil]; omega)
    (fun e he => hG.holds e (hmain e he)) hbig hs₁
  rw [List.length_nil, Nat.zero_add] at hl₁
  have h₁' : rebuildLane bareIndex bareIndex.insert t (bareIndex.main t.bare)
    ⟨bareIndex.fresh t.bare c, []⟩ = some (true, t₁) := h₁
  rw [h₁', hself] at hs₂
  -- the spill lane
  have hlane := laneSafe_of bareIndex (fun _ _ _ => rfl) (spillIns bareIndex) t t.bare.spill t₁
  obtain ⟨t₂, h₂, hR₂, hG₂, hl₂⟩ := rebuildLane_done (k := 0) (insLaw_spill bareLaws) calmIns_spill
    hG₁ (by rw [Nat.zero_add]; exact hR₁) (by omega) (fun e he => hG.holds e (hspill e he)) hS.spill
    hlane
  simp only [h₂] at hs₂
  -- the overflow stash
  obtain ⟨t₃, h₃, hR₃, hG₃, -⟩ := rebuildLane_done (k := 0) hins (calmIns_main 0) hG₂ hR₂ (by omega)
    (fun e he => hG.holds e (hover e he)) hbig' hs₂
  have h₃' : rebuildLane bareIndex bareIndex.insert t (bareIndex.overflow t.bare) t₂ =
      some (true, t₃) := h₃
  have h₂' : rebuildLane bareIndex (fun b h v => some (bareIndex.spillInsert b h v)) t
      t.bare.spill t₁ = some (true, t₂) := h₂
  unfold htRebuild
  rw [if_neg (not_lt.mpr hfit), hmal]
  simp only [h₁', hself, h₂', h₃']
  obtain ⟨n₃, hS₃⟩ := hG₃.inv.sound
  obtain ⟨-, -, -, hfr⟩ := barePlaceProphylacticTombstones_keeps hS₃
  exact ⟨_, rfl, hfr.mem.trans hR₃.mem⟩

/-! ## The growth before an insertion -/

/-- The growth before an insertion fails: the capacity cannot be doubled, or the table holds nothing
but empty keys, so that the rebuild empties it. -/
def GrowFails (t : HtTable HtBare) : Prop :=
  growNeeded bareIndex t ∧ (t.bare.capacity > sizeMax / 2 ∨ ∀ p ∈ htIterAll bareIndex t, p.1 = [])

instance (t : HtTable HtBare) : Decidable (GrowFails t) := inferInstanceAs (Decidable (_ ∧ _))

/-- The main array has at most as many entries as slots. -/
lemma BareInv.mainLive_le (hI : BareInv b) : b.mainLive ≤ b.capacity := by
  have hcard :
      b.contents.card = (liveEntries b.main).length + b.spill.length + b.overflow.length := by
    unfold HtBare.contents
    rw [Multiset.card_add, Multiset.card_add, Multiset.coe_card, Multiset.coe_card,
      Multiset.coe_card]
  have hlen : (liveEntries b.main).length ≤ b.capacity := List.length_filterMap_le _ _
  have := hI.size
  unfold HtBare.mainLive
  omega

/-- `ht_resize` to another capacity that is large enough rebuilds the table when the allocations
succeed. -/
lemma htResize_calm {W : HtTable HtBare → Bool} (hG : Good bareLaws fns t) (hm : t.bare.mem = [])
    (hn : t.bare.mainLive ≤ n) (hz : t.bare.resizing = false) (hne : nextPow2 n ≠ t.bare.capacity)
    (hs : htResizeSafe bareLaws W t n = true) :
    ∃ t', htResize bareIndex t n = some (true, t') ∧ t'.bare.mem = [] ∧
      pairs bareLaws t' = (pairs bareLaws t).filter fun p => p.1 ≠ [] := by
  unfold htResizeSafe at hs
  simp only [Bool.or_eq_true, decide_eq_true_eq] at hs
  have hlive : ¬ n < t.mainLive bareIndex := not_lt.mpr hn
  have hres : ¬ bareIndex.resizing t.bare = true := by
    show ¬ t.bare.resizing = true
    rw [hz]
    exact Bool.false_ne_true
  have hs : rebuildSafe bareLaws W { t with bare := bareIndex.setResizing true t.bare }
    (nextPow2 n) =
      true := by
    rcases hs with ((h | h) | h) | h
    · exact absurd h hlive
    · exact absurd h hres
    · exact absurd h hne
    · exact h
  have hid := setResizing_idle (L := bareLaws) hG.inv true
  obtain ⟨t₁, hr, hm₁⟩ := htRebuild_calm (hid.good hG) (nextPow2_pos n) hm hs
  obtain ⟨ok, t₁', hr', hR, hp⟩ := htRebuild_spec (hid.good hG) (nextPow2_pos n) hs
  rw [hr] at hr'
  cases hr'
  rw [if_pos rfl, hid.pairs] at hp
  have hcap : ¬ nextPow2 n = bareIndex.capacity t.bare := hne
  unfold htResize
  rw [if_neg hlive, if_neg hres, if_neg hcap, hr]
  exact ⟨_, rfl, hm₁, (setResizing_idle hR.good.inv false).pairs.trans hp⟩

/-- A table is empty after a rebuild when it held nothing but empty keys. -/
lemma size_filter_eq_zero (hG : Good bareLaws fns t) (hG' : Good bareLaws fns t')
    (hp : pairs bareLaws t' = (pairs bareLaws t).filter fun p => p.1 ≠ []) :
    t'.bare.size = 0 ↔ ∀ p ∈ htIterAll bareIndex t, p.1 = [] := by
  have hsize : t'.bare.size = (pairs bareLaws t').card := hG'.size_eq
  rw [hsize, Multiset.card_eq_zero, hp, Multiset.filter_eq_nil, ← htIterAll_eq hG.inv]
  exact forall₂_congr fun p _ => not_not

/-- The growth before an insertion, when the allocations succeed. -/
lemma growForInsert_calm {W : HtTable HtBare → Bool} (hG : Good bareLaws fns t)
    (hm : t.bare.mem = []) (hs : growSafe bareLaws W t = true) :
    (GrowFails t ∧ ∃ t', growForInsert bareIndex t = some (false, t')) ∨
    (¬ GrowFails t ∧ ∃ t', growForInsert bareIndex t = some (true, t') ∧ t'.bare.mem = [] ∧
      Rebuilt bareLaws fns W t t' ∧ t'.bare.size ≤ t.bare.size) := by
  have hs' := hs
  unfold growSafe at hs'
  simp only [Bool.or_eq_true, Bool.not_eq_true', decide_eq_true_eq, decide_eq_false_iff_not] at hs'
  by_cases hg : growNeeded bareIndex t
  · by_cases hc : t.bare.capacity > sizeMax / 2
    · left
      refine ⟨⟨hg, .inl hc⟩, t, ?_⟩
      unfold growForInsert
      rw [if_pos hg]
      exact if_pos hc
    · have hs'' : htResizeSafe bareLaws W t (t.bare.capacity * 2) = true := by
        rcases hs' with (h | h) | h
        · exact absurd hg h
        · exact absurd h hc
        · exact h
      have hlive := hG.inv.mainLive_le
      have hpos : 0 < t.bare.capacity := bareLaws.capacity_pos hG.inv
      have hlarger := le_nextPow2 (t.bare.capacity * 2)
      obtain ⟨t₁, hr, hm₁, hp⟩ := htResize_calm hG hm (by omega) hg.1 (by omega) hs''
      obtain ⟨ok, t₁', hr', hR⟩ := htResize_spec hG hs''
      rw [hr] at hr'
      cases hr'
      have hsize : t₁.bare.size ≤ t.bare.size := by
        have h₁ : t₁.bare.size = (pairs bareLaws t₁).card := hR.good.size_eq
        have h₀ : t.bare.size = (pairs bareLaws t).card := hG.size_eq
        rw [h₁, h₀, hp]
        exact Multiset.card_le_card (Multiset.filter_le _ _)
      have hgrow : growForInsert bareIndex t = if t₁.bare.size = 0 then
          some (false, { t₁ with bare :=
            bareIndex.resetCounters (bareIndex.setResizing false t₁.bare) })
              else some (true, t₁) := by
        unfold growForInsert
        rw [if_pos hg]
        refine (if_neg hc).trans ?_
        have hr'' : htResize bareIndex t (bareIndex.capacity t.bare * 2) = some (true, t₁) := hr
        rw [hr'']
        rfl
      have hempty := size_filter_eq_zero hG hR.good hp
      by_cases hz : t₁.bare.size = 0
      · left
        exact ⟨⟨hg, .inr (hempty.mp hz)⟩, _, hgrow.trans (if_pos hz)⟩
      · right
        exact ⟨fun hf => hf.2.elim hc fun h => hz (hempty.mpr h), t₁, hgrow.trans (if_neg hz), hm₁,
          hR, hsize⟩
  · right
    refine ⟨fun hf => hg hf.1, t, ?_, hm, Rebuilt.refl hG, le_rfl⟩
    unfold growForInsert
    rw [if_neg hg]

/-- The second phase of `do_insert_with_hash`, when the allocations succeed. -/
lemma insertNew_calm {W : HtTable HtBare → Bool} (hG : Good bareLaws fns t) (hm : t.bare.mem = [])
    (hz : t.bare.size < 2 ^ 31) {key value : Bytes}
    (hkey : key.length < 2 ^ 16) (hs : insertNewSafe bareLaws W t (fns.hash key) key value = true) :
    ∃ t', insertNew bareIndex t (fns.hash key) key value =
      some (if GrowFails t then .failed else .ok, t') := by
  unfold insertNewSafe at hs
  rw [Bool.and_eq_true, Bool.and_eq_true, decide_eq_true_eq] at hs
  obtain ⟨⟨hcount, hgrow⟩, hs⟩ := hs
  unfold insertNew
  rcases growForInsert_calm hG hm hgrow with ⟨hf, t₁, hg⟩ | ⟨hf, t₁, hg, hm₁, hR, hsize⟩
  · rw [hg, if_pos hf]
    exact ⟨t₁, rfl⟩
  rw [hg] at hs ⊢
  rw [if_neg hf]
  have hcount₁ : t₁.entries.length < valNone := lt_of_le_of_lt hR.count hcount
  have hmal : t₁.malloc bareIndex = (true, t₁) := by
    unfold HtTable.malloc
    have h : bareIndex.malloc t₁.bare = (true, t₁.bare) := malloc_nil hm₁
    rw [h]
  obtain ⟨es, ha⟩ : ∃ es, allocEntry bareIndex t₁ (hashHi (fns.hash key)) key value =
      (t₁.entries.length, ⟨t₁.bare, es⟩) := by
    have hlt : t₁.entries.length % 2 ^ 32 = t₁.entries.length := by
      refine Nat.mod_eq_of_lt ?_
      unfold valNone at hcount₁
      omega
    unfold allocEntry
    rw [if_neg (by omega), hmal]
    dsimp only
    rw [hlt]
    exact ⟨_, rfl⟩
  simp only [ha] at hs ⊢
  rw [if_neg (ne_of_lt hcount₁)]
  rw [decide_eq_false (ne_of_lt hcount₁), Bool.false_or] at hs
  obtain ⟨ok, b', hi⟩ : ∃ ok b', bareIndex.insert t₁.bare (h48 (fns.hash key)) t₁.entries.length =
      some (ok, b') ∧ ok = true := by
    by_cases hh : h48 (fns.hash key) < 2
    · have hlen : t₁.bare.spill.length < 2 ^ 31 := by
        have hcard := hR.good.inv.size
        unfold HtBare.contents at hcard
        rw [Multiset.card_add, Multiset.card_add, Multiset.coe_card, Multiset.coe_card,
          Multiset.coe_card] at hcard
        omega
      obtain ⟨b', hb⟩ :=
        spillInsert_grows (h := h48 (fns.hash key)) (v := t₁.entries.length) hm₁ hlen
      exact ⟨true, b', (if_pos hh).trans (congrArg some hb), rfl⟩
    · obtain ⟨n, hS⟩ := hR.good.inv.sound
      rcases (Bool.or_eq_true _ _).mp hs with hc | hc
      · exact absurd (of_decide_eq_true hc) hh
      · obtain ⟨b', hr, -⟩ := bareRhInsertBounded_inserts hS (not_lt.mp hh)
          (Nat.mod_lt _ (Nat.two_pow_pos 48)) (ne_of_lt hcount₁) hc
        exact ⟨true, b', (if_neg hh).trans hr, rfl⟩
  rw [hi.1, hi.2]
  exact ⟨_, rfl⟩

/-! ## What is found -/

/-- In a sound table `ht_bare_find_all` reports a value exactly when it is stored under the hash. -/
lemma mem_htBareFindAll_iff {hash v : ℕ} (hS : Sound n b) :
    v ∈ htBareFindAll b hash ↔ (h48 hash, v) ∈ b.contents := by
  have hS' : Sound n b.unlimited :=
    ⟨hS.pos, hS.cap, hS.reach, hS.slots, nofun, hS.spill, hS.overflow, hS.vals⟩
  rw [← List.count_pos_iff, ← Multiset.count_pos, count_contents]
  by_cases hh : h48 hash < 2
  · have hmain : (b.main.countP fun s => decide (s.Holds (h48 hash) v)) = 0 := by
      rw [List.countP_eq_zero]
      intro s _ hs
      obtain ⟨hl, hs, -⟩ := of_decide_eq_true hs
      unfold Slot.Live at hl
      omega
    have hover : b.overflow.count (h48 hash, v) = 0 :=
      List.count_eq_zero.mpr fun hm => absurd (hS.overflow _ hm).1 (not_le.mpr hh)
    rw [count_htBareFindAll_spill hh, hmain, hover]
    omega
  · have hspill : b.spill.count (h48 hash, v) = 0 :=
      List.count_eq_zero.mpr fun hm => hh (hS.spill _ hm)
    rw [count_htBareFindAll hS' hh, seenCount_eq hS, hspill]
    by_cases hl : Laps b hash ∧ (b.slot (h48 hash % b.capacity)).Holds (h48 hash) v
    · rw [if_pos hl]
      have hpos : 0 < b.main.countP fun s => decide (s.Holds (h48 hash) v) := by
        have hi : h48 hash % b.capacity < b.capacity := Nat.mod_lt _ (hS.cap.symm ▸ hS.pos)
        refine List.countP_pos_iff.mpr ⟨b.slot (h48 hash % b.capacity), ?_, decide_eq_true hl.2⟩
        unfold HtBare.slot
        rw [List.getD_eq_getElem?_getD, List.getElem?_eq_getElem hi]
        exact List.getElem_mem hi
      omega
    · rw [if_neg hl]
      omega

/-- The entries that a lookup of a key comes to. -/
lemma Good.visited (hG : Good bareLaws fns t) {key : Bytes} {i : ℕ} :
    (i ∈ htBareFindAll t.bare (fns.hash key) ∧
      keysMatch fns t i (hashHi (fns.hash key)) key = true) ↔
    ((h48 (fns.hash key), i) ∈ t.bare.contents ∧ keyIs fns (t.entry i).key key = true) := by
  obtain ⟨n, hS⟩ := hG.inv.sound
  rw [mem_htBareFindAll_iff hS]
  refine and_congr_right fun hi => ?_
  rw [(hG.holds _ hi).keysMatch_eq rfl]

/-- `ht_find_key_all` reports the pairs of the key, whether or not the lookup laps the array. -/
lemma Good.mem_findKeyAll (hG : Good bareLaws fns t) {key : Bytes} {p : Bytes × Bytes} :
    p ∈ htFindKeyAll bareIndex fns t key ↔ p ∈ pairs bareLaws t ∧ keyIs fns p.1 key = true := by
  unfold htFindKeyAll pairs
  rw [List.mem_map, Multiset.mem_map]
  constructor
  · rintro ⟨i, hi, rfl⟩
    obtain ⟨hc, hk⟩ := hG.visited.mp (List.mem_filter.mp hi)
    exact ⟨⟨_, hc, rfl⟩, hk⟩
  · rintro ⟨⟨e, he, rfl⟩, hk⟩
    have hh := (hG.holds e he).hash_of_keyIs hk
    exact ⟨e.2, List.mem_filter.mpr (hG.visited.mpr ⟨hh ▸ he, hk⟩), rfl⟩

/-- The pair of the key and the value is found: `ht_find_key_all` reports it, and `ht_find` returns
a value. -/
def Found (fns : HtFns) (t : HtTable HtBare) (key value : Bytes) : Prop :=
  (∃ k, fns.eq k key = true ∧ (k, value) ∈ htFindKeyAll bareIndex fns t key) ∧
    (htFind bareIndex fns t key).isSome

/-- A pair of the key that the table holds is found. -/
lemma Good.found (hG : Good bareLaws fns t) {key value k : Bytes} (hk : keyIs fns k key = true)
    (hp : (k, value) ∈ pairs bareLaws t) : Found fns t key value := by
  have hmem := hG.mem_findKeyAll.mpr ⟨hp, hk⟩
  refine ⟨⟨k, (keyIs_iff.mp hk).2.2.2, hmem⟩, ?_⟩
  rw [htFind_eq, Option.isSome_map, List.isSome_head?]
  exact List.ne_nil_of_mem hmem

/-- What is found is shorter than `2 ^ 32` bytes. -/
lemma Good.found_length (hG : Good bareLaws fns t) {key value : Bytes}
    (hf : Found fns t key value) :
    value.length < 2 ^ 32 := by
  obtain ⟨⟨k, -, hk⟩, -⟩ := hf
  obtain ⟨e, he, hp⟩ := Multiset.mem_map.mp (hG.mem_findKeyAll.mp hk).1
  have hval : (t.entry e.2).val = value := congrArg Prod.snd hp
  have hok := (hG.holds e he).ok
  have := hok.valLt
  rwa [hok.valLen, hval] at this

/-! ## The three insertions -/

/-- `ht_insert`, `ht_upsert` or `ht_unsert`. -/
def insertCall (key : Bytes) (value : Option Bytes) : InsertMode → HtOp
  | .always => .insert (some key) value
  | .upsert => .upsert (some key) value
  | .unique => .unsert (some key) value

/-- The insertion finds nothing to update and makes a new entry. -/
def AddsEntry (fns : HtFns) (t : HtTable HtBare) (key value : Bytes) : InsertMode → Prop
  | .always => True
  | .upsert => htFindKeyAll bareIndex fns t key = []
  | .unique => ∀ p ∈ htFindKeyAll bareIndex fns t key, p.2 ≠ value

/-- The insertion does not fail, and the pair is found afterwards. -/
def Inserts (fns : HtFns) (t : HtTable HtBare) (key : Bytes) (value : Option Bytes)
    (mode : InsertMode) : Prop :=
  ∃ r t', (insertCall key value mode).run bareIndex fns t = some (.inserted r, t') ∧ r ≠ .failed ∧
    Found fns t' key (value.getD [])

/-- With allocations that succeed, the scan takes every match and draws nothing. -/
lemma keyScan_calm (hm : t.bare.mem = []) (hi : ℕ) (key : Bytes) (is ms : List ℕ) (cap : ℕ) :
    keyScan bareIndex fns hi key is ms cap t =
      (ms ++ is.filter fun i => keysMatch fns t i hi key, t) := by
  have hmal : t.malloc bareIndex = (true, t) := by
    unfold HtTable.malloc
    have h : bareIndex.malloc t.bare = (true, t.bare) := malloc_nil hm
    rw [h]
  induction is generalizing ms cap with
  | nil =>
    rw [List.filter_nil, List.append_nil]
    rfl
  | cons i is ih =>
    rw [keyScan, List.filter_cons]
    by_cases hk : keysMatch fns t i hi key = true
    · rw [if_pos hk, if_pos hk, hmal]
      simp only [ih, ite_self, List.append_assoc, List.singleton_append]
    · rw [if_neg hk, if_neg hk, ih]

section
variable {W : HtTable HtBare → Bool} {key : Bytes} {value : Option Bytes}

/-- A new entry, when the allocations succeed. -/
lemma insertNew_inserts (hrefl : ∀ a, fns.eq a a = true) (hG : Good bareLaws fns t)
    (hm : t.bare.mem = []) (hz : t.bare.size < 2 ^ 31)
    (hkey : key.length < 2 ^ 16) {v : Bytes}
    (hs : insertNewSafe bareLaws W t (fns.hash key) key v = true) :
    ∃ r t', insertNew bareIndex t (fns.hash key) key v = some (r, t') ∧
      (r ≠ .failed ∧ Found fns t' key v ↔ v.length < 2 ^ 32 ∧ ¬ GrowFails t) := by
  obtain ⟨t', hr⟩ := insertNew_calm hG hm hz hkey hs
  obtain ⟨r, t₁, t'', hr', hG', -, -, hp⟩ := insertNew_adds hG hs
  rw [hr] at hr'
  cases hr'
  refine ⟨_, t', hr, ?_⟩
  by_cases hf : GrowFails t
  · rw [if_pos hf]
    exact iff_of_false (fun h => h.1 rfl) fun h => h.2 hf
  · rw [if_neg hf, if_pos rfl] at hp
    rw [if_neg hf]
    refine ⟨fun h => ⟨hG'.found_length h.2, hf⟩, fun h => ⟨by decide, ?_⟩⟩
    have hself : keyIs fns key key = true := keyIs_iff.mpr ⟨rfl, rfl, rfl, hrefl key⟩
    refine hG'.found hself ?_
    rw [hp, storedVal_eq h.1]
    exact Multiset.mem_cons_self _ _

/-- `ht_upsert` on a key that is there, when the allocations succeed. -/
lemma upsertFound_inserts (hrefl : ∀ a, fns.eq a a = true) (hG : Good bareLaws fns t)
    (hm : t.bare.mem = []) {m : ℕ} {ms : List ℕ} (hM : Matched bareLaws fns t key (m :: ms))
    (v : Bytes) :
    ∃ t', updateEntryValue bareIndex t m key v = (true, t') ∧
      (Found fns (removeMatches bareIndex (fns.hash key) ms t') key v ↔ v.length < 2 ^ 32) := by
  rcases upsertFound_spec hG hM v with ⟨t', h, -⟩ | ⟨t', k', h, hG', hk', hp⟩
  · -- the allocation of a longer or shorter value succeeds
    have hmal : t.malloc bareIndex = (true, t) := by
      unfold HtTable.malloc
      have h : bareIndex.malloc t.bare = (true, t.bare) := malloc_nil hm
      rw [h]
    unfold updateEntryValue at h
    dsimp only at h
    rw [hmal] at h
    split at h <;> cases h
  · refine ⟨t', h, fun hf => hG'.found_length hf, fun hv => ?_⟩
    obtain ⟨-, hrest⟩ := removeMatches_spec hG hM.nodup hM.mem
    rw [hrest, ← Multiset.add_cons, storedVal_eq hv] at hp
    have hp := Multiset.add_right_inj.mp hp
    refine hG'.found (k := k') ?_ ?_
    · rcases hk' with rfl | rfl
      · exact keyIs_iff.mpr ⟨rfl, rfl, rfl, hrefl k'⟩
      · exact hM.key m List.mem_cons_self
    · rw [hp]
      exact Multiset.mem_cons_self _ _

/-- The matches of a key, when the allocations succeed. -/
lemma keyMatches_calm (hm : t.bare.mem = []) : keyMatches bareIndex fns t (fns.hash key) key =
    ((htBareFindAll t.bare (fns.hash key)).filter
      fun i => keysMatch fns t i (hashHi (fns.hash key)) key, t) :=
  keyScan_calm hm _ _ _ [] 64

/-- When an insertion does not fail and the pair is found. -/
lemma inserts_iff (hrefl : ∀ a, fns.eq a a = true) (hG : Good bareLaws fns t) (hm : t.bare.mem = [])
    (hz : t.bare.size < 2 ^ 31) (hkey : key.length < 2 ^ 16) {mode : InsertMode}
    (hs : (insertCall key value mode).safe bareLaws fns W t = true) :
    Inserts fns t key value mode ↔ (value.getD []).length < 2 ^ 32 ∧
      ¬ (AddsEntry fns t key (value.getD []) mode ∧ GrowFails t) := by
  -- the table determines the reply
  have hone : ∀ {r t'}, (insertCall key value mode).run bareIndex fns t = some (.inserted r, t') →
      (Inserts fns t key value mode ↔ r ≠ .failed ∧ Found fns t' key (value.getD [])) := by
    intro r t' hr
    constructor
    · rintro ⟨r', t'', hr', h⟩
      rw [hr] at hr'
      cases hr'
      exact h
    · exact fun h => ⟨r, t', hr, h⟩
  cases mode with
  | always =>
    obtain ⟨r, t', hr, hiff⟩ := insertNew_inserts hrefl hG hm hz hkey hs
    rw [hone (congrArg (Option.map _) hr), hiff]
    exact and_congr_right fun _ => not_congr ⟨fun h => ⟨trivial, h⟩, fun h => h.2⟩
  | upsert =>
    change (HtOp.upsert (some key) value).safe bareLaws fns W t = true at hs
    unfold HtOp.safe at hs
    rw [Bool.and_eq_true, keyMatches_calm hm] at hs
    obtain ⟨hlap, hs⟩ := hs
    have hM := matched_filter hG hlap
    have hadds : AddsEntry fns t key (value.getD []) .upsert ↔
        ((htBareFindAll t.bare (fns.hash key)).filter
          fun i => keysMatch fns t i (hashHi (fns.hash key)) key) = [] := List.map_eq_nil_iff
    have hrun : ∀ x, htUpsert bareIndex fns t (some key) value = some x →
        (insertCall key value .upsert).run bareIndex fns t = some (.inserted x.1, x.2) :=
      fun x hx => congrArg (Option.map _) hx
    have hup : htUpsert bareIndex fns t (some key) value =
        doInsertWithHash bareIndex fns t (fns.hash key) (some key) value .upsert := rfl
    unfold doInsertWithHash at hup
    simp only [keyMatches_calm hm] at hup
    rw [hadds]
    change Matched bareLaws fns t key ((htBareFindAll t.bare (fns.hash key)).filter
      fun i => keysMatch fns t i (hashHi (fns.hash key)) key) at hM
    generalize ((htBareFindAll t.bare (fns.hash key)).filter
      fun i => keysMatch fns t i (hashHi (fns.hash key)) key) = ms at hM hs hup ⊢
    -- without a match the entry is new, with one it is overwritten
    cases ms with
    | nil =>
      obtain ⟨r, t', hr, hiff⟩ := insertNew_inserts hrefl hG hm hz hkey hs
      rw [hone (hrun _ (hup.trans hr)), hiff]
      exact and_congr_right fun _ => not_congr ⟨fun h => ⟨rfl, h⟩, fun h => h.2⟩
    | cons m ms =>
      obtain ⟨t', hr, hiff⟩ := upsertFound_inserts hrefl hG hm hM (value.getD [])
      simp only [hr] at hup
      rw [hone (hrun _ hup), hiff]
      exact ⟨fun h => ⟨h.2, fun hc => absurd hc.1 (List.cons_ne_nil _ _)⟩, fun h => ⟨nofun, h.1⟩⟩
  | unique =>
    change (HtOp.unsert (some key) value).safe bareLaws fns W t = true at hs
    unfold HtOp.safe at hs
    rw [Bool.and_eq_true, Bool.or_eq_true] at hs
    have hrun : ∀ x, htUnsert bareIndex fns t (some key) value = some x →
        (insertCall key value .unique).run bareIndex fns t = some (.inserted x.1, x.2) :=
      fun x hx => congrArg (Option.map _) hx
    have hun : htUnsert bareIndex fns t (some key) value =
        doInsertWithHash bareIndex fns t (fns.hash key) (some key) value .unique := rfl
    unfold doInsertWithHash at hun
    simp only at hun
    -- the scan of the index for the pair sees every entry that is a pair of the table
    have hadds : AddsEntry fns t key (value.getD []) .unique ↔
        ¬ (htBareFindAll t.bare (fns.hash key)).any (fun i =>
          keysMatch fns t i (hashHi (fns.hash key)) key && valsMatch t i (value.getD [])) =
            true := by
      unfold AddsEntry htFindKeyAll
      rw [List.any_eq_true]
      simp only [List.mem_map, List.mem_filter, Bool.and_eq_true]
      constructor
      · rintro hno ⟨i, hi, hk, hv⟩
        have hc := hG.visited.mp ⟨hi, hk⟩
        exact hno _ ⟨i, ⟨hi, hk⟩, rfl⟩ (((hG.holds _ hc.1).ok.valsMatch_iff).mp hv)
      · rintro hno p ⟨i, ⟨hi, hk⟩, rfl⟩ hv
        have hc := hG.visited.mp ⟨hi, hk⟩
        exact hno ⟨i, hi, hk, ((hG.holds _ hc.1).ok.valsMatch_iff).mpr hv⟩
    rw [hadds]
    by_cases hany : (htBareFindAll t.bare (fns.hash key)).any (fun i =>
        keysMatch fns t i (hashHi (fns.hash key)) key && valsMatch t i (value.getD [])) = true
    · -- the pair is there already
      have hr : htUnsert bareIndex fns t (some key) value = some (.update, t) :=
        hun.trans (if_pos hany)
      obtain ⟨i, hi, hkv⟩ := List.any_eq_true.mp hany
      obtain ⟨hk, hv⟩ := Bool.and_eq_true_iff.mp hkv
      obtain ⟨hc, hki⟩ := hG.visited.mp ⟨hi, hk⟩
      have hval := ((hG.holds _ hc).ok.valsMatch_iff).mp hv
      have hf : Found fns t key (value.getD []) := by
        refine hG.found hki ?_
        rw [← hval]
        exact Multiset.mem_map.mpr ⟨_, hc, rfl⟩
      rw [hone (hrun _ hr)]
      exact iff_of_true ⟨nofun, hf⟩ ⟨hG.found_length hf, fun h => h.1 hany⟩
    · obtain ⟨r, t', hr, hiff⟩ := insertNew_inserts hrefl hG hm hz hkey (hs.2.resolve_left hany)
      rw [hone (hrun _ ((hun.trans (if_neg hany)).trans hr)), hiff]
      exact and_congr_right fun _ => not_congr ⟨fun h => ⟨hany, h⟩, fun h => h.2⟩

end

end Draugr
