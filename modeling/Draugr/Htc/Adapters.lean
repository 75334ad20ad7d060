import Draugr.Amq.Vacuum
import Draugr.Htc.Filter

/-!
# The wrappers of the built-in filters

`htc_amq_cuckoo` and `htc_amq_vacuum` wrap a fingerprint filter for `htc_set_filter`. Such a filter
keeps its promise only while nobody deletes a hash that was not inserted: the deletion of a strange
hash may take the fingerprint of another key. So it is not `AmqFilter.Lawful`, but the table never
asks for such a deletion.

`AmqFilter.guarded` is the filter with the account of its hashes beside it, which refuses the
deletions that the account does not cover. A run with the filter itself is, as long as nothing is
refused, a run with the guarded one.
-/

namespace Draugr.Htc
open Draugr.Lib Draugr.Amq

/-! ## A filter with its account -/

section

variable {σ : Type*} {F : AmqFilter σ} {f₀ : σ} {t : Table} {h v : ℕ} {ops : List HtcOp}

/-- The filter `F` with the number of insertions of each hash less that of the removals. Hashes of
more than 64 bits and removals of a hash that is not accounted for are refused. -/
def AmqFilter.guarded (F : AmqFilter σ) : AmqFilter (σ × (ℕ → ℤ)) where
  insert f h :=
    if h < 2 ^ 64 then
      ((F.insert f.1 h).1, (F.insert f.1 h).2,
        if (F.insert f.1 h).1 then Function.update f.2 h (f.2 h + 1) else f.2)
    else (false, f)
  lookup f h := F.lookup f.1 h
  delete f h :=
    if 0 < f.2 h then
      ((F.delete f.1 h).1, (F.delete f.1 h).2,
        if (F.delete f.1 h).1 then Function.update f.2 h (f.2 h - 1) else f.2)
    else (false, f)

/-- The guarded filter when `f₀` is new. -/
def guard (f₀ : σ) : σ × (ℕ → ℤ) := (f₀, fun _ => 0)

/-- The account of the guarded filter is that of its history. -/
lemma guarded_account {f : σ × (ℕ → ℤ)} {n : ℕ → ℤ} (hh : F.guarded.History (guard f₀) f n) :
    f.2 = n := by
  induction hh with
  | start => rfl
  | @insert f n h _ ih =>
    subst ih
    unfold AmqFilter.guarded
    by_cases hlt : h < 2 ^ 64
    · simp only [if_pos hlt]
    · simp only [if_neg hlt]
      rfl
  | @delete f n h _ ih =>
    subst ih
    unfold AmqFilter.guarded
    by_cases hpos : 0 < f.2 h
    · simp only [if_pos hpos]
    · simp only [if_neg hpos]
      rfl

/-- The table and the filter without the account. -/
def Filtered.forget (s : Filtered (σ × (ℕ → ℤ))) : Filtered σ := ⟨s.tbl, s.filter.1, s.refused⟩

variable {s : Filtered (σ × (ℕ → ℤ))} {s' : Filtered σ}

/-- A key of 64 bits is entered as without the account. -/
lemma forget_entered (hh : h < 2 ^ 64) : (s.entered F.guarded h).forget = s.forget.entered F h := by
  unfold Filtered.entered Filtered.forget AmqFilter.guarded
  simp only [if_pos hh]

/-- `htc_insert` does not look at the account. -/
lemma insertWith_forget (hh : h < 2 ^ 64) (v : ℕ) (s : Filtered (σ × (ℕ → ℤ))) :
    insertWith F h v s.forget =
      ((insertWith F.guarded h v s).1, (insertWith F.guarded h v s).2.forget) := by
  rw [insertWith, insertWith, show s.forget.tbl = s.tbl from rfl]
  rcases htcInsert h v s.tbl with ⟨e, t⟩
  cases e with
  | ok => exact Prod.ext rfl (forget_entered (s := { s with tbl := t }) hh).symm
  | _ => rfl

/-- `htc_upsert` does not look at the account. -/
lemma upsertLoopWith_forget (hh : h < 2 ^ 64) (v k : ℕ) (s : Filtered (σ × (ℕ → ℤ))) :
    upsertLoopWith F h v k s.forget =
      ((upsertLoopWith F.guarded h v k s).1, (upsertLoopWith F.guarded h v k s).2.forget) := by
  induction k generalizing s with
  | zero => rfl
  | succ k ih =>
    rw [upsertLoopWith, upsertLoopWith, show s.forget.tbl = s.tbl from rfl]
    cases htcSearch s.tbl.toCore h true with
    | some p => rfl
    | none =>
      dsimp only
      rw [insertWith_forget hh]
      rcases insertWith F.guarded h v s with ⟨e, s₁⟩
      cases e with
      | duplicate => exact ih s₁
      | _ => rfl

/-- `htc_remove` asks only for deletions that the account covers. -/
lemma removeWith_forget (hk : Known F.guarded (guard f₀) s) (h : ℕ) :
    removeWith F h s.forget = (removeWith F.guarded h s).map fun r => (r.1, r.2.forget) := by
  obtain ⟨n, b, hn, hb, hle⟩ := hk
  have hacc := guarded_account hn
  rw [removeWith, removeWith, show s.forget.tbl = s.tbl from rfl]
  obtain he | ⟨t', he, -, hpos⟩ | he := hb.remove h
  · rw [he]
    rfl
  · have hcov : 0 < s.filter.2 h := by
      have := hle h
      rw [hacc]
      omega
    rw [he]
    simp only [Option.map_some, Filtered.forget, AmqFilter.guarded, if_pos hcov]
  · rw [he]
    rfl

/-- `htc_find` does not look at the account. -/
lemma findWith_forget (h : ℕ) (want : Bool) (s : Filtered (σ × (ℕ → ℤ))) :
    findWith F h want s.forget =
      ((findWith F.guarded h want s).1, (findWith F.guarded h want s).2.1,
        (findWith F.guarded h want s).2.2.forget) := by
  rw [findWith, findWith, show F.guarded.lookup s.filter h = F.lookup s.forget.filter h from rfl]
  split <;> rfl

/-- A call on a table with the filter is the call with the guarded filter. -/
lemma runWith_forget_step (hk : Known F.guarded (guard f₀) s) (op : HtcOp) :
    op.runWith F s.forget = (op.runWith F.guarded s).map Filtered.forget := by
  cases op with
  | insert key value =>
    rw [HtcOp.runWith, insertWith_forget key.toNat_lt]
    rfl
  | upsert key value =>
    rw [HtcOp.runWith, upsertLoopWith_forget key.toNat_lt]
    rfl
  | update key value => rfl
  | remove key =>
    rw [HtcOp.runWith, HtcOp.runWith, removeWith_forget hk, Option.map_map, Option.map_map]
    rfl
  | find key want =>
    rw [HtcOp.runWith, findWith_forget]
    rfl
  | grow reseed => rfl

/-- A run with the filter in which it refuses no insertion is a run with the guarded filter. -/
lemma runWith_forget (hF : F.guarded.Lawful (guard f₀)) (hk : Known F.guarded (guard f₀) s)
    (hs : runWith F ops s.forget = some s') (hr : s'.refused = 0) :
    ∃ s₁, runWith F.guarded ops s = some s₁ ∧ s₁.forget = s' := by
  induction ops generalizing s with
  | nil =>
    cases hs
    exact ⟨s, rfl, rfl⟩
  | cons op ops ih =>
    obtain ⟨s₁, hs₁, hs⟩ := Option.bind_eq_some_iff.mp hs
    rw [runWith_forget_step hk] at hs₁
    obtain ⟨g, hg, rfl⟩ := Option.map_eq_some_iff.mp hs₁
    have hr₁ : g.refused = 0 := Nat.le_zero.mp (hr ▸ runWith_refused hs)
    obtain ⟨s₂, hs₂, he⟩ := ih (hk.step hF hg hr₁).1 hs
    exact ⟨s₂, by rw [runWith, hg, Option.bind_some, hs₂], he⟩

/-- A filter that keeps its promise while the deletions are covered changes no answer in any run in
which it refuses no insertion. -/
lemma guarded_transparent (hF : F.guarded.Lawful (guard f₀)) (he : t.Empty)
    (hs : runWith F ops (htcSetFilter f₀ t) = some s') (hr : s'.refused = 0) :
    runOps ops t = some s'.tbl ∧ ∀ (key : UInt64) (want : Bool),
      foundValue (findWith F key.toNat want s').1 (findWith F key.toNat want s').2.1 =
        foundValue (htcFind key.toNat want s'.tbl).1 (htcFind key.toNat want s'.tbl).2.1 := by
  have hk : Known F.guarded (guard f₀) (htcSetFilter (guard f₀) t) := known_setFilter he
  obtain ⟨s, hrun, rfl⟩ := runWith_forget hF hk hs hr
  obtain ⟨hk', hplain⟩ := hk.run hF hrun hr
  refine ⟨hplain, fun key want => ?_⟩
  rw [findWith_forget]
  exact (hk'.find hF key.toNat want).1

end

/-! ## The built-in filters -/

section

variable {σ : Type} {insert delete : σ → UInt64 → AmqErr × σ} {lookup : σ → UInt64 → Bool}
  {table : σ → FpTable}
  {cnt : σ → ℕ} {Inv : σ → Prop} {nb f : ℕ} {alt : ℕ → ℕ → ℕ} {home : UInt64 → ℕ}

/-- The wrappers of a filter: `insert` and `delete` tell whether the filter returned its OK code. -/
def amqFilter (insert delete : σ → UInt64 → AmqErr × σ) (lookup : σ → UInt64 → Bool) :
    AmqFilter σ where
  insert s h := ((insert s (.ofNat h)).1 = .ok, (insert s (.ofNat h)).2)
  lookup s h := lookup s (.ofNat h)
  delete s h := ((delete s (.ofNat h)).1 = .ok, (delete s (.ofNat h)).2)

/-- `htc_amq_cuckoo`. -/
def htcAmqCuckoo : AmqFilter CuckooFilter :=
  amqFilter cuckooFilterInsert cuckooFilterDelete cuckooFilterLookup

/-- `htc_amq_vacuum`. -/
def htcAmqVacuum : AmqFilter VacuumFilter :=
  amqFilter vacuumFilterInsert vacuumFilterDelete vacuumFilterLookup

/-- Hashes of 64 bits are told apart by their words. -/
lemma ofNat_eq_iff {h k : ℕ} (hh : h < 2 ^ 64) (hk : k < 2 ^ 64) : UInt64.ofNat h = UInt64.ofNat k ↔
    h = k := by
  refine ⟨fun he => ?_, fun he => congrArg _ he⟩
  have := congrArg UInt64.toNat he
  rwa [UInt64.toNat_ofNat_of_lt' hh, UInt64.toNat_ofNat_of_lt' hk] at this

/-- The account `n` is that of the calls `evs`, which tally with the entries. -/
structure Booked (insert delete : σ → UInt64 → AmqErr × σ) (table : σ → FpTable) (cnt : σ → ℕ)
    (Inv : σ → Prop) (nb f : ℕ) (alt : ℕ → ℕ → ℕ) (home : UInt64 → ℕ) (s : σ) (n : ℕ → ℤ)
    (evs : List (CountEvent UInt64)) : Prop where
  inv : Inv s ∧ cnt s = (table s).number nb isEntry
  tallied : Lib.Tallied
    (fun (Q : { Q // Closed nb f alt Q }) hash => Q.1 (home hash) (fingerprint hash f))
    (fun Q s => (table s).number nb Q.1) s evs
  account : ∀ h < 2 ^ 64,
    n h = (added (· = UInt64.ofNat h) evs : ℤ) - removed (· = UInt64.ofNat h) evs
  rest : ∀ h, 2 ^ 64 ≤ h → n h = 0

variable {s : σ} {n : ℕ → ℤ} {evs : List (CountEvent UInt64)} {h : ℕ}

/-- An insertion is booked. -/
lemma Booked.enter (hl : FilterLaws insert delete table cnt Inv nb f alt home)
    (hb : Booked insert delete table cnt Inv nb f alt home s n evs) (hh : h < 2 ^ 64) :
    ∃ evs', Booked insert delete table cnt Inv nb f alt home (insert s (.ofNat h)).2
      (if (insert s (.ofNat h)).1 = .ok then Function.update n h (n h + 1) else n) evs' := by
  have hinv := hl.counts.keeps s (.insert (.ofNat h)) hb.inv
  have htal := hb.tallied.call hl.counts hb.inv (.insert (.ofNat h)) trivial
  refine ⟨_, hinv, htal, fun k hk => ?_, fun k hk => ?_⟩
  · have := hb.account k hk
    have hiff := ofNat_eq_iff hh hk
    rw [added_append, removed_append, added_single_insert, removed_single_insert]
    by_cases hok : (insert s (.ofNat h)).1 = .ok
    · by_cases hkh : k = h
      · subst hkh
        simp only [filterStep, hok, if_true, Function.update_self]
        simp
        omega
      · simp only [filterStep, hok, if_true, Function.update_of_ne hkh]
        simp [hiff, Ne.symm hkh]
        omega
    · simp only [filterStep, hok, if_false]
      simp
      omega
  · rw [← hb.rest k hk]
    split
    · exact Function.update_of_ne (by omega) ..
    · rfl

/-- A covered deletion is booked, and it succeeds. -/
lemma Booked.leave (hl : FilterLaws insert delete table cnt Inv nb f alt home)
    (hb : Booked insert delete table cnt Inv nb f alt home s n evs) (hpos : 0 < n h) :
    (delete s (.ofNat h)).1 = .ok ∧ ∃ evs',
      Booked insert delete table cnt Inv nb f alt home (delete s (.ofNat h)).2
      (Function.update n h (n h - 1)) evs' := by
  have hh : h < 2 ^ 64 := by
    by_contra hge
    have := hb.rest h (by omega)
    omega
  have hcov : removed (· = UInt64.ofNat h) evs < added (· = UInt64.ofNat h) evs := by
    have := hb.account h hh
    omega
  have htal := hb.tallied.call hl.counts hb.inv (.delete (.ofNat h)) hcov
  have hok : (filterStep insert delete s (.delete (.ofNat h))).1 = true :=
    htal.deletes _ (List.mem_append_right _ (List.mem_singleton_self _)) _ rfl
  refine ⟨by simpa [filterStep] using hok, _, hl.counts.keeps s (.delete (.ofNat h)) hb.inv, htal,
    fun k hk => ?_, fun k hk => ?_⟩
  · have := hb.account k hk
    have hiff := ofNat_eq_iff hh hk
    rw [added_append, removed_append, added_single_delete, removed_single_delete, hok]
    by_cases hkh : k = h
    · subst hkh
      rw [Function.update_self]
      simp
      omega
    · rw [Function.update_of_ne hkh]
      simp [hiff, Ne.symm hkh]
      omega
  · rw [Function.update_of_ne (by omega), hb.rest k hk]

/-- Every history of the guarded wrappers is booked. -/
lemma booked_of_history (hl : FilterLaws insert delete table cnt Inv nb f alt home) {s₀ : σ}
    (hs : Inv s₀)
    (h0 : ∀ Q, Closed nb f alt Q → (table s₀).number nb Q = 0) (hcnt : cnt s₀ = 0) {g : σ × (ℕ → ℤ)}
    (hh : (amqFilter insert delete lookup).guarded.History (guard s₀) g n) :
    ∃ evs, Booked insert delete table cnt Inv nb f alt home g.1 n evs := by
  induction hh with
  | start =>
    refine ⟨[], ⟨hs, by rw [guard, hcnt, h0 _ closed_isEntry]⟩,
      ⟨fun Q => ?_, fun _ => le_rfl, fun _ h => by cases h⟩, fun _ _ => rfl, fun _ _ => rfl⟩
    exact (h0 Q.1 Q.2).trans rfl
  | @insert g n h hist ih =>
    obtain ⟨evs, hb⟩ := ih
    unfold AmqFilter.guarded amqFilter
    by_cases hlt : h < 2 ^ 64
    · simp only [if_pos hlt, decide_eq_true_eq]
      exact hb.enter hl hlt
    · simp only [if_neg hlt]
      exact ⟨evs, hb⟩
  | @delete g n h hist ih =>
    obtain ⟨evs, hb⟩ := ih
    have hacc := guarded_account hist
    unfold AmqFilter.guarded amqFilter
    by_cases hpos : 0 < g.2 h
    · obtain ⟨hok, evs', hb'⟩ := hb.leave hl (hacc ▸ hpos)
      simp only [if_pos hpos, hok]
      exact ⟨evs', hb'⟩
    · simp only [if_neg hpos]
      exact ⟨evs, hb⟩

/-- The guarded wrappers find every hash of the account. -/
lemma amqFilter_lawful (hl : FilterLaws insert delete table cnt Inv nb f alt home) {s₀ : σ}
    (hs : Inv s₀) (h0 : ∀ Q, Closed nb f alt Q → (table s₀).number nb Q = 0) (hcnt : cnt s₀ = 0)
    (hlook : ∀ s hash, Inv s → lookup s hash =
      (table s).lookupIn (home hash) (alt (home hash) (fingerprint hash f)) (fingerprint hash f)) :
    (amqFilter insert delete lookup).guarded.Lawful (guard s₀) := by
  intro g n hh h hpos
  obtain ⟨evs, hb⟩ := booked_of_history hl hs h0 hcnt hh
  have hlt : h < 2 ^ 64 := by
    by_contra hge
    have := hb.rest h (by omega)
    omega
  have hcov : removed (· = UInt64.ofNat h) evs < added (· = UInt64.ofNat h) evs := by
    have := hb.account h hlt
    omega
  change lookup g.1 (.ofNat h) = true
  rw [hlook g.1 _ hb.inv.1]
  have hfp := fingerprint_ne_zero (.ofNat h) f
  have hin :=
    hb.tallied.pos hcov (c := ⟨_, closed_inClass hl.altLaws (hl.home_lt (.ofNat h)) hfp⟩)
    (by simp [inClass])
  have := (FpTable.number_inClass_pos hl.altLaws (hl.home_lt (.ofNat h)) hfp
    (fingerprint_lt (.ofNat h) hl.bits)).mp hin
  unfold FpTable.lookupIn
  rwa [Bool.or_eq_true]

end

variable {t : Table} {ops : List HtcOp}

/-- A created cuckoo filter attached to an empty table changes no answer in any run in which it
refuses no insertion. -/
theorem cuckoo_transparent (capacity bucketSize fpBits maxKicks : ℕ) {cf : CuckooFilter}
    (hc : cuckooFilterCreate capacity bucketSize fpBits maxKicks = some cf) (he : t.Empty)
    (ops : List HtcOp)
    {s : Filtered CuckooFilter} (hs : runWith htcAmqCuckoo ops (htcSetFilter cf t) = some s)
    (hr : s.refused = 0) :
    runOps ops t = some s.tbl ∧ ∀ (key : UInt64) (want : Bool),
      foundValue (findWith htcAmqCuckoo key.toNat want s).1
      (findWith htcAmqCuckoo key.toNat want s).2.1 =
        foundValue (htcFind key.toNat want s.tbl).1 (htcFind key.toNat want s.tbl).2.1 := by
  obtain ⟨k, f, hf, hgood, hcnt, hwords⟩ := cuckoo_create hc
  refine guarded_transparent (amqFilter_lawful (cuckoo_laws k hf) hgood
    (fun Q hQ => hgood.wf.number_zero hwords hQ) hcnt fun cf hash hg => ?_) he hs hr
  unfold cuckooFilterLookup
  simp only [hg.mask, hg.bits]

/-- Two keys are inserted and one is removed. -/
theorem cuckoo_transparent_two :
    ∃ cf s, cuckooFilterCreate 3 1 8 2 = some cf ∧
      runWith htcAmqCuckoo [.insert 5 50, .insert 6 60, .remove 5]
      (htcSetFilter cf (htcCreate none 0 [])) = some s ∧
      s.refused = 0 ∧
      foundValue (findWith htcAmqCuckoo 6 true s).1 (findWith htcAmqCuckoo 6 true s).2.1 =
        foundValue (htcFind 6 true s.tbl).1 (htcFind 6 true s.tbl).2.1 := by
  obtain ⟨cf, hc⟩ :=
    Option.isSome_iff_exists.mp (by decide +kernel : (cuckooFilterCreate 3 1 8 2).isSome = true)
  have hr : ((cuckooFilterCreate 3 1 8 2).bind fun cf =>
    (runWith htcAmqCuckoo [.insert 5 50, .insert 6 60, .remove 5]
      (htcSetFilter cf (htcCreate none 0 []))).map Filtered.refused) = some 0 := by decide +kernel
  rw [hc, Option.bind_some] at hr
  obtain ⟨s, hs, hr⟩ := Option.map_eq_some_iff.mp hr
  exact ⟨cf, s, hc, hs, hr, (cuckoo_transparent 3 1 8 2 hc (htcCreate_empty none 0 [])
    [.insert 5 50, .insert 6 60, .remove 5] hs hr).2 6 true⟩

/-- A created vacuum filter whose ranges are powers of two that divide the number of buckets changes
no answer in any run in which it refuses no insertion. -/
theorem vacuum_transparent (rangeSelection : ℕ → ℕ → ℕ → ℕ) (bucketsFor : ℕ → ℕ → ℕ)
    (capacity bucketSize fpBits maxEvicts : ℕ) {vf : VacuumFilter}
    (hc : vacuumFilterCreate rangeSelection bucketsFor capacity bucketSize fpBits maxEvicts =
      some vf)
    (hra : RangesOk vf.ar vf.numBuckets) (he : t.Empty) (ops : List HtcOp)
    {s : Filtered VacuumFilter} (hs : runWith htcAmqVacuum ops (htcSetFilter vf t) = some s)
    (hr : s.refused = 0) :
    runOps ops t = some s.tbl ∧ ∀ (key : UInt64) (want : Bool),
      foundValue (findWith htcAmqVacuum key.toNat want s).1
      (findWith htcAmqVacuum key.toNat want s).2.1 =
        foundValue (htcFind key.toNat want s.tbl).1 (htcFind key.toNat want s.tbl).2.1 := by
  obtain ⟨hf, hnb, hwf, hcnt, hwords⟩ := vacuum_create hc
  have hgood : vf.Good vf.ar vf.numBuckets vf.fingerprintBits := ⟨hwf, rfl, rfl, rfl⟩
  refine guarded_transparent (amqFilter_lawful (vacuum_laws hra hnb hf) hgood
    (fun Q hQ => hwf.number_zero hwords hQ) hcnt fun vf hash hg => ?_) he hs hr
  unfold vacuumFilterLookup
  simp only [hg.buckets, hg.ranges, hg.bits]

/-- Two keys are inserted and one is removed, in four buckets of one entry with ranges of two. -/
theorem vacuum_transparent_two :
    ∃ vf s, vacuumFilterCreate (fun _ _ _ => 1) (fun _ _ => 4) 3 1 8 2 = some vf ∧
      runWith htcAmqVacuum [.insert 5 50, .insert 6 60, .remove 5]
      (htcSetFilter vf (htcCreate none 0 [])) = some s ∧
      s.refused = 0 ∧
      foundValue (findWith htcAmqVacuum 6 true s).1 (findWith htcAmqVacuum 6 true s).2.1 =
        foundValue (htcFind 6 true s.tbl).1 (htcFind 6 true s.tbl).2.1 := by
  obtain ⟨vf, hc⟩ := Option.isSome_iff_exists.mp
    (by decide +kernel : (vacuumFilterCreate (fun _ _ _ => 1) (fun _ _ => 4) 3 1 8 2).isSome = true)
  have hra : RangesOk vf.ar vf.numBuckets := by
    cases hc
    exact fun _ _ => ⟨1, le_rfl, rfl, 2, rfl⟩
  have hr : ((vacuumFilterCreate (fun _ _ _ => 1) (fun _ _ => 4) 3 1 8 2).bind fun vf =>
      (runWith htcAmqVacuum [.insert 5 50, .insert 6 60, .remove 5]
        (htcSetFilter vf (htcCreate none 0 []))).map Filtered.refused) = some 0 := by decide +kernel
  rw [hc, Option.bind_some] at hr
  obtain ⟨s, hs, hr⟩ := Option.map_eq_some_iff.mp hr
  exact ⟨vf, s, hc, hs, hr, (vacuum_transparent (fun _ _ _ => 1) (fun _ _ => 4) 3 1 8 2 hc hra
    (htcCreate_empty none 0 []) [.insert 5 50, .insert 6 60, .remove 5] hs hr).2 6 true⟩

end Draugr.Htc
