import Draugr.Bare.Rebuild

/-!
# The bare index as a multimap

The public operations of the bare table against the multiset of entries they are meant to maintain.
`BareOp.run` is the operation of the source, `BareOp.apply` what it does to the multiset, and
`BareOp.safe` the condition on the table before the operation under which the two agree: every loop
head of every insertion the operation makes is safe (`HeadSafe`), and the blocks it asks for have a
size that fits a `size_t`. `BareOp.run_keeps` is the step lemma and `runOps_keeps` the run lemma.

Without the condition the agreement fails: after a long run of deletions an insertion reuses a
tombstone that entries beyond the 16-slot look-ahead still travel past, and a lookup stops there.
-/

namespace Draugr
open Lib

/-- The operations of the bare table that a client calls. -/
inductive BareOp where
  /-- `ht_bare_insert` -/
  | insert (hash val : ℕ)
  /-- `ht_bare_remove_val` -/
  | removeVal (hash val : ℕ)
  /-- `ht_bare_resize` -/
  | resize (newCapacity : ℕ)
  /-- `ht_bare_compact` -/
  | compact
  /-- `ht_bare_clear` -/
  | clear
  deriving DecidableEq, Repr

/-- The table after the operation. -/
def BareOp.run : BareOp → HtBare → Option HtBare
  | .insert hash val, t => (htBareInsert t hash val).map (·.2)
  | .removeVal hash val, t => some (htBareRemoveVal t hash val).2
  | .resize newCapacity, t => (htBareResize t newCapacity).map (·.2)
  | .compact, t => htBareCompact t
  | .clear, t => some (htBareClear t)

/-- The multiset of entries after the operation. -/
def BareOp.apply : BareOp → Multiset (ℕ × ℕ) → Multiset (ℕ × ℕ)
  | .insert hash val, c => (h48 hash, val) ::ₘ c
  | .removeVal hash val, c => c.erase (h48 hash, val)
  | .resize _, c => c
  | .compact, c => c
  | .clear, _ => 0

/-- Inserted values differ from `UINT32_MAX`. -/
def BareOp.Valid : BareOp → Prop
  | .insert _ val => val ≠ valNone
  | _ => True

instance (op : BareOp) : Decidable op.Valid := by
  cases op <;> unfold BareOp.Valid <;> infer_instance

/-- The spill lane has room, or a block for it that fits a `size_t`. -/
def spillFits (t : HtBare) : Bool :=
  decide (t.spill.length < t.spillCap) ||
    decide ((if t.spillCap = 0 then spillInitial else t.spillCap * 2) * 12 ≤ sizeMax)

/-- The condition on the table before the operation. -/
def BareOp.safe : BareOp → HtBare → Bool
  | .insert hash val, t =>
    if h48 hash < 2 then spillFits t
    else prepareWalk resizeSafe t &&
      match insertPrepare t with
      | some (true, t) => insertWalk headSafe bareResizeTable t (h48 hash) val
      | _ => true
  | .removeVal _ _, _ => true
  | .resize newCapacity, t => decide (newCapacity < t.mainLive) || resizeSafe t
  | .compact, t => compactWalk headSafe t
  | .clear, _ => true

/-- A sequence of operations. -/
def runOps : List BareOp → HtBare → Option HtBare
  | [], t => some t
  | op :: ops, t =>
    match op.run t with
    | none => none
    | some t => runOps ops t

/-- Every operation of the sequence meets its condition. -/
def safeOps : List BareOp → HtBare → Bool
  | [], _ => true
  | op :: ops, t =>
    op.safe t &&
      match op.run t with
      | none => true
      | some t => safeOps ops t

/-- The multiset of entries after a sequence of operations. -/
def applyOps (ops : List BareOp) (c : Multiset (ℕ × ℕ)) : Multiset (ℕ × ℕ) :=
  ops.foldl (fun c op => op.apply c) c

variable {n : ℕ} {t : HtBare}

/-! ## One operation -/

/-- An insertion into the spill lane. -/
lemma bareSpillInsert_keeps (hR : Ready t) {h v : ℕ} (hh : h < 2) (hv : v ≠ valNone)
    (hfit : spillFits t = true) :
    ∃ t', bareSpillInsert t h v = (true, t') ∧ Ready t' ∧ t'.contents = (h, v) ::ₘ t.contents := by
  have hh48 : h48 h = h := Nat.mod_eq_of_lt (by omega)
  obtain ⟨n, hS⟩ := hR.sound
  have hpush : ∀ c i, Ready { t with
        spill := t.spill ++ [(h, v)], size := t.size + 1, spillCap := c, spillInBlock := i } ∧
      ({ t with
        spill := t.spill ++ [(h, v)], size := t.size + 1, spillCap := c, spillInBlock := i } :
        HtBare).contents = (h, v) ::ₘ t.contents := by
    intro c i
    have hcon : ({ t with
        spill := t.spill ++ [(h, v)], size := t.size + 1, spillCap := c, spillInBlock := i } :
        HtBare).contents = (h, v) ::ₘ t.contents := by
      have := contents_spill_append { t with spillInBlock := i } [(h, v)] (t.size + 1) c
      rwa [Multiset.coe_singleton, Multiset.singleton_add] at this
    have hS' : Sound n { t with spillInBlock := i } := hS.congr rfl rfl rfl rfl rfl
    refine ⟨⟨⟨n, hS'.spill_append ?_ _ _⟩, hR.cap, ?_, hR.mem, hR.resizing⟩, hcon⟩
    · intro e he
      rw [List.mem_singleton] at he
      rw [he]
      exact ⟨hh, hv⟩
    · rw [hcon, Multiset.card_cons, ← hR.size]
  unfold bareSpillInsert
  rw [hh48]
  split
  · -- the block grows first
    rename_i hfull
    have hgrow : bareSpillGrow t = (true, { t with
        spillCap := if t.spillCap = 0 then spillInitial else t.spillCap * 2
        spillInBlock := false }) := by
      unfold spillFits at hfit
      rw [Bool.or_eq_true, decide_eq_true_eq, decide_eq_true_eq] at hfit
      unfold bareSpillGrow
      simp only
      rw [if_neg (by omega), malloc_nil hR.mem]
    rw [hgrow]
    exact ⟨_, rfl, hpush _ _⟩
  · exact ⟨_, rfl, hpush t.spillCap t.spillInBlock⟩

/-- `ht_bare_insert` adds the entry. -/
lemma htBareInsert_keeps (hR : Ready t) {hash v : ℕ} (hv : v ≠ valNone)
    (hw : (BareOp.insert hash v).safe t = true) :
    ∃ t', htBareInsert t hash v = some (true, t') ∧ Ready t' ∧
      t'.contents = (h48 hash, v) ::ₘ t.contents := by
  unfold htBareInsert
  rw [if_neg hv]
  rw [BareOp.safe] at hw
  split
  · rename_i hsmall
    rw [if_pos hsmall] at hw
    obtain ⟨t', hr, hR', hcon⟩ := bareSpillInsert_keeps hR hsmall hv hw
    exact ⟨t', congrArg some hr, hR', hcon⟩
  · rename_i hbig
    rw [if_neg hbig, Bool.and_eq_true] at hw
    obtain ⟨hw₁, hw₂⟩ := hw
    obtain ⟨t₁, hr₁, hR₁, hcon₁⟩ := insertPrepare_keeps hR hw₁
    rw [hr₁] at hw₂ ⊢
    obtain ⟨n, hS₁⟩ := hR₁.sound
    obtain ⟨t', hr, hI⟩ := bareRhInsertBounded_inserts hS₁ (not_lt.mp hbig)
      (Nat.mod_lt _ (Nat.two_pow_pos 48)) hv hw₂
    refine ⟨t', hr, ⟨⟨n, hI.sound⟩, ?_, ?_, ?_, ?_⟩, ?_⟩
    · rw [hI.sound.cap, ← hS₁.cap]
      exact hR₁.cap
    · rw [hI.size, hI.contents, Multiset.card_cons, hR₁.size]
    · exact hI.frame.mem.trans hR₁.mem
    · exact hI.frame.resizing.trans hR₁.resizing
    · rw [hI.contents, hcon₁]

/-- `ht_bare_remove_val` drops one entry if there is one. -/
lemma htBareRemoveVal_keeps (hR : Ready t) (hash v : ℕ) :
    Ready (htBareRemoveVal t hash v).2 ∧
      (htBareRemoveVal t hash v).2.contents = t.contents.erase (h48 hash, v) := by
  obtain ⟨n, hS⟩ := hR.sound
  rcases htBareRemoveVal_spec hS hash v with ⟨he, hno⟩ | ⟨t', he, hD⟩
  · rw [he, Multiset.erase_of_notMem hno]
    exact ⟨hR, rfl⟩
  · rw [he]
    have hcon : t'.contents = t.contents.erase (h48 hash, v) := by
      rw [← hD.contents, Multiset.erase_cons_head]
    refine ⟨⟨⟨n, hD.sound⟩, ?_, ?_, ?_, ?_⟩, hcon⟩
    · rw [hD.sound.cap, ← hS.cap]
      exact hR.cap
    · have hcard : t.size = t'.contents.card + 1 := by
        rw [hR.size, ← hD.contents, Multiset.card_cons]
      rw [hD.size, sizeDec, if_neg (by omega), hcard]
      rfl
    · exact hD.mem.trans hR.mem
    · exact hD.resizing.trans hR.resizing

/-- `ht_bare_clear` drops every entry. -/
lemma htBareClear_keeps (hR : Ready t) : Ready (htBareClear t) ∧ (htBareClear t).contents = 0 := by
  obtain ⟨n, hS⟩ := hR.sound
  have hpos : 0 < t.capacity := by
    rw [hS.cap]
    exact hS.pos
  have hzero : (htBareClear t).contents = 0 := contents_fresh (n := t.capacity) rfl rfl rfl
  refine ⟨⟨⟨t.capacity, Sound.of_fresh hpos rfl rfl rfl⟩, ?_, ?_, hR.mem, hR.resizing⟩, hzero⟩
  · unfold HtBare.capacity htBareClear
    rw [List.length_replicate]
    exact hR.cap
  · rw [hzero]
    rfl

/-- One operation does to the entries what it is meant to do. -/
lemma BareOp.run_keeps (hR : Ready t) {op : BareOp} (hv : op.Valid) (hw : op.safe t = true) :
    ∃ t', op.run t = some t' ∧ Ready t' ∧ t'.contents = op.apply t.contents := by
  cases op with
  | insert hash val =>
    obtain ⟨t', hr, hR', hcon⟩ := htBareInsert_keeps hR hv hw
    exact ⟨t', by rw [BareOp.run, hr]; rfl, hR', hcon⟩
  | removeVal hash val => exact ⟨_, rfl, htBareRemoveVal_keeps hR hash val⟩
  | resize newCapacity =>
    have hw' : ¬ newCapacity < t.mainLive → resizeSafe t = true := by
      intro hge
      rw [BareOp.safe, Bool.or_eq_true, decide_eq_true_eq] at hw
      exact hw.resolve_left hge
    obtain ⟨ok, t', hr, hR', hcon, _⟩ := htBareResize_keeps hR newCapacity hw'
    exact ⟨t', by rw [BareOp.run, hr]; rfl, hR', hcon⟩
  | compact => exact htBareCompact_keeps hR hw
  | clear => exact ⟨_, rfl, htBareClear_keeps hR⟩

/-! ## Whole runs -/

/-- A sequence of operations that all meet their condition does to the entries what it is meant
to do. -/
lemma runOps_keeps {ops : List BareOp} (hR : Ready t) (hv : ∀ op ∈ ops, op.Valid)
    (hw : safeOps ops t = true) :
    ∃ t', runOps ops t = some t' ∧ Ready t' ∧ t'.contents = applyOps ops t.contents := by
  induction ops generalizing t with
  | nil => exact ⟨t, rfl, hR, rfl⟩
  | cons op ops ih =>
    rw [safeOps, Bool.and_eq_true] at hw
    obtain ⟨hw₁, hw₂⟩ := hw
    obtain ⟨t₁, hr₁, hR₁, hcon₁⟩ := BareOp.run_keeps hR (hv op List.mem_cons_self) hw₁
    rw [hr₁] at hw₂
    obtain ⟨t', hr, hR', hcon⟩ := ih hR₁ (fun o ho => hv o (List.mem_cons_of_mem _ ho)) hw₂
    refine ⟨t', ?_, hR', ?_⟩
    · rw [runOps, hr₁]
      exact hr
    · rw [hcon, hcon₁]
      rfl

/-- A table as `ht_bare_create` returns it. -/
lemma htBareCreate_ready {cfg : HtConfig} {fuel : ℕ} (hc : htBareCreate cfg [] fuel = some t) :
    Ready t ∧ t.contents = 0 := by
  unfold htBareCreate at hc
  simp only at hc
  split at hc
  · cases hc
  rename_i hcap
  cases hc
  have hpos : 0 < nextPow2 (max cfg.initialCapacity 4) := by
    unfold nextPow2
    split
    · exact Nat.one_pos
    · split
      · exact Nat.two_pow_pos _
      · omega
  have hzero : ∀ c m mem fuel, (emptyTable cfg c m mem fuel).contents = 0 :=
    fun c _ _ _ => contents_fresh (n := c) rfl rfl rfl
  refine ⟨⟨⟨_, Sound.of_fresh hpos rfl rfl rfl⟩, ?_, ?_, rfl, rfl⟩, hzero _ _ _ _⟩
  · unfold HtBare.capacity emptyTable
    rw [List.length_replicate]
    exact not_lt.mp hcap
  · rw [hzero]
    rfl

/-- The bare index is a multimap along every run of safe operations: `ht_bare_find_all` visits
exactly the values that were inserted under the hash and not removed, and `ht_bare_find` succeeds
exactly when there is one. -/
theorem htBare_multimap (cfg : HtConfig) (fuel : ℕ) (ops : List BareOp) (t : HtBare)
    (hc : htBareCreate cfg [] fuel = some t) (hv : ∀ op ∈ ops, op.Valid)
    (hw : safeOps ops t = true) :
    ∃ t', runOps ops t = some t' ∧ ∀ hash, ¬ Laps t' hash →
      (htBareFindAll t' hash : Multiset ℕ) = valuesOf (applyOps ops 0) (h48 hash) ∧
      ((htBareFind t' hash).isSome ↔ valuesOf (applyOps ops 0) (h48 hash) ≠ 0) := by
  obtain ⟨hR, hzero⟩ := htBareCreate_ready hc
  obtain ⟨t', hr, hR', hcon⟩ := runOps_keeps hR hv hw
  refine ⟨t', hr, fun hash hlap => ?_⟩
  obtain ⟨n, hS⟩ := hR'.sound
  have hfind := htBareFindAll_eq hS hlap
  rw [hcon, hzero] at hfind
  refine ⟨hfind, ?_⟩
  rw [← hfind, htBareFind_eq, List.isSome_head?]
  simp

/-- The table of the default configuration. -/
def defaultTable : HtBare := emptyTable defaultCfg 64 255 [] 0

/-- A small run: both lanes, a removal and a resize. -/
def sampleOps : List BareOp :=
  [.insert 5 10, .insert (5 + 2 ^ 48) 11, .insert 1 12, .removeVal 5 10, .resize 64, .insert 69 13]

/-- The run of `sampleOps` is safe. -/
theorem htBare_multimap_sample : ∃ t', runOps sampleOps defaultTable = some t' ∧
    (htBareFindAll t' 5 : Multiset ℕ) = valuesOf (applyOps sampleOps 0) (h48 5) := by
  obtain ⟨t', hr, hall⟩ := htBare_multimap defaultCfg 0 sampleOps defaultTable
    (by decide +kernel) (by decide) (by decide +kernel)
  refine ⟨t', hr, (hall 5 ?_).1⟩
  have hlap : (runOps sampleOps defaultTable).all (fun t => !decide (Laps t 5)) = true := by
    decide +kernel
  rw [hr] at hlap
  simpa using hlap

/-- Forty entries of one hash, seventeen of them removed, and one entry of another hash. -/
def buriedOps : List BareOp :=
  ((List.range 40).map fun v => .insert 322 v) ++
    ((List.range 17).map fun v => .removeVal 322 (v + 1)) ++ [.insert 451 100]

/-- After seventeen deletions an insertion cuts off the entries behind the look-ahead: of the 23
entries that were not removed, `ht_bare_find_all` visits one. -/
theorem htBare_multimap_fails : ∃ t', htBareCreate defaultCfg [] 0 = some defaultTable ∧
    (∀ op ∈ buriedOps, op.Valid) ∧ runOps buriedOps defaultTable = some t' ∧
    htBareFindAll t' 322 = [0] ∧ (valuesOf (applyOps buriedOps 0) (h48 322)).card = 23 ∧
    (htBareFindAll t' 322 : Multiset ℕ) ≠ valuesOf (applyOps buriedOps 0) (h48 322) := by
  have hrun : (runOps buriedOps defaultTable).map (htBareFindAll · 322) = some [0] := by
    decide +kernel
  obtain ⟨t', hr, hfind⟩ := Option.map_eq_some_iff.mp hrun
  have hcard : (valuesOf (applyOps buriedOps 0) (h48 322)).card = 23 := by decide +kernel
  refine ⟨t', by decide +kernel, by decide, hr, hfind, hcard, ?_⟩
  intro he
  rw [← he, hfind] at hcard
  cases hcard

end Draugr
