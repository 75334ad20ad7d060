import Draugr.Htc.Interleave

/-!
# A removal among grows

One thread removes a key while others grow the table and write other keys. `htc_remove` looks under
its locks whether the generation it loaded is still the current one and active; if it is not, the
call returns `HTC_ERR_NOT_FOUND` where `htc_insert` and `htc_upsert` try again. `Machine.Current` is
the condition that excludes this; `Machine.Removes` is the invariant of the schedules that meet it.
-/

namespace Draugr.Htc
open Draugr.Lib

/-- A removal finds its generation unchanged. -/
def Local.current (s : Shared) : Local → Bool
  | .remLock _ v => !decide (s.Stale v.gen)
  | _ => true

/-- The removal by thread `i` finds its generation unchanged. -/
def Machine.Current (i : ℕ) (m : Machine) : Act → Prop
  | .call _ _ => True
  | .go j => j = i → (m.loc j).current m.toShared = true

/-- `idx` is the only live record with key `h`. -/
structure Core.Sole (c : Core) (h idx : ℕ) : Prop where
  live : idx ∈ c.live
  key : c.keyOf idx = h
  only : ∀ j ∈ c.live, c.keyOf j = h → j = idx

/-- The thread is in `htc_remove` for the key. -/
def Local.removing (h : ℕ) : Local → Bool
  | .remLoad k => k == h
  | .remLock k _ => k == h
  | _ => false

/-- `htc_find` does not find the key `h`, whatever the front cache of its thread holds; the entries
for `h` denote the record `idx` that held it. A record that was freed carries the key `0`. -/
def Machine.Misses (m : Machine) (h idx : ℕ) : Prop :=
  ∀ cache want, (∀ k e, cache k = some e → e.hash = h → h ≠ 0 ∧ e.idx = idx) →
    (htcFind h want { m.tbl with cache := cache }).1 = .notFound

/-- The invariant of schedules in which thread `i` removes the key `h`, which the record `idx`
holds. -/
structure Machine.Removes (m : Machine) (i h idx : ℕ) : Prop extends m.Sane where
  others : ∀ j, j ≠ i → (m.loc j).writes ≠ some h
  phase : ((m.loc i).removing h = true ∧ m.tbl.Sole h idx) ∨
    ((m.loc i).writes ≠ some h ∧ m.tbl.Absent h ∧ (h ≠ 0 → m.tbl.keyOf idx ≠ h) ∧
      ∀ e, m.loc i = .returned (.remove h) e → e = .ok)

variable {m m' : Machine} {s : Shared} {l : Local} {act : Act} {c c' : Core} {h i idx : ℕ}
  {ent rem : Option ℕ}

instance (i : ℕ) (m : Machine) : ∀ act, Decidable (m.Current i act)
  | .call _ _ => isTrue trivial
  | .go _ => inferInstanceAs (Decidable (_ → _))

/-! ## The records of the key -/

/-- The record of a key stays the only one while other keys come and go. -/
lemma Core.Sole.delta (hs : c.Sole h idx) (hd : Delta c c' ent rem) (he : ent ≠ some h)
    (hr : rem ≠ some h) :
    c'.Sole h idx := by
  have hl : idx ∈ c'.live := by
    rcases hd.live with hl | ⟨j, -, hl, -⟩ | ⟨j, hj, hrem, hl⟩
    · exact hl ▸ hs.live
    · rw [hl]
      exact Set.mem_insert_of_mem _ hs.live
    · rw [hl]
      refine ⟨hs.live, ?_⟩
      rintro rfl
      exact hr (hrem.trans (congrArg some hs.key))
  refine ⟨hl, (hd.keys idx hs.live hl).trans hs.key, fun j hj hk => ?_⟩
  have hj' := hd.live_of_ne he hj hk
  exact hs.only j hj' ((hd.keys j hj' hj).symm.trans hk)

/-- A key stays absent while other keys come. -/
lemma Core.Absent.delta (ha : c.Absent h) (hd : Delta c c' ent rem) (he : ent ≠ some h) :
    c'.Absent h := by
  intro j hj hk
  have hj' := hd.live_of_ne he hj hk
  exact ha j hj' ((hd.keys j hj' hj).symm.trans hk)

/-- A key that no record in the table has, and the record that had it no more, is not found. -/
lemma Machine.Sane.misses (hm : m.Sane) (ha : m.tbl.Absent h) (hk : h ≠ 0 → m.tbl.keyOf idx ≠ h) :
    m.Misses h idx := by
  intro cache want hc
  have hlook : htcFrontCacheLookup { m.tbl with cache := cache } h = none := by
    rw [htcFrontCacheLookup, List.findSome?_eq_none_iff]
    intro k _
    dsimp only
    split
    · rfl
    · next e he =>
      refine if_neg ?_
      rintro ⟨hh, -, -, hid, -⟩
      obtain ⟨h0, hidx⟩ := hc k e he hh
      rw [hidx] at hid
      exact hk h0 hid
  rw [htcFind, hlook, ite_self]
  dsimp only
  rw [findTable, show htcSearch _ h true = none from hm.placed.search_eq_none.mpr ha]

/-- The record that the search finds is the only one of its key when no two live records have one
key. -/
lemma Machine.Filling.sole {p : Place} (hm : m.Filling)
    (hp : htcSearch m.tbl.toCore h true = some p) :
    m.tbl.Sole h (m.tbl.idxAt p) := by
  obtain ⟨hl, hk⟩ := search_hit hp
  exact ⟨hl, hk, fun j hj hkj => hm.keys hj hl (hkj.trans hk.symm)⟩

/-! ## Steps -/

/-- The section of the removal. -/
lemma removeSection_current {r : Shared × Local} {v : View} (hp : Placed s.tbl.toCore)
    (hs : s.tbl.Sole h idx)
    (hc : (Local.remLock h v).current s = true) (hr : s.exec (.remLock h v) = some r) :
    r.2 = .returned (.remove h) .ok ∧ r.1.tbl.Absent h ∧ (h ≠ 0 → r.1.tbl.keyOf idx ≠ h) := by
  have hst : ¬ s.Stale v.gen := by simpa [Local.current] using hc
  rw [Shared.exec, Shared.removeSection, if_neg hst] at hr
  rcases htcRemove_placed hp h with ⟨t', he, hd⟩ | ⟨-, ha⟩
  · rw [he] at hr
    cases hr
    obtain ⟨j, hj, hk, hl⟩ := hd.removed.live
    have hji : j = idx := hs.only j hj hk
    subst hji
    have hnl : j ∉ t'.live := by
      rw [hl]
      exact fun hm => hm.2 rfl
    refine ⟨rfl, fun k hk' he => ?_, fun h0 => ?_⟩
    · have hk'' : k ∈ s.tbl.live \ {j} := hl ▸ hk'
      refine hk''.2 (hs.only k hk''.1 ?_)
      rw [← he]
      exact (congrArg HtcRecord.identityHash (hd.removed.recs k hk')).symm
    · change t'.keyOf j ≠ h
      rw [hd.key j hj hnl]
      exact h0.symm
  · exact absurd hs.key (ha idx hs.live)

/-- The removal can always take its next step. -/
lemma Machine.Removes.next (hm : m.Removes i h idx) (hr : (m.loc i).removing h = true) :
    (m.step (.go i)).isSome := by
  rw [Machine.step, Option.isSome_map]
  cases hl : m.loc i <;> rw [hl] at hr <;> first | cases hr | skip
  · rfl
  · next k v =>
    rw [Shared.exec, Shared.removeSection]
    split
    · rfl
    · rcases htcRemove_placed hm.placed k with ⟨t', he, -⟩ | ⟨he, -⟩ <;> rw [he] <;> rfl

/-- A thread that does not write the key goes on not writing it. -/
lemma exec_writes {r : Shared × Local} (hr : s.exec l = some r) (hw : l.writes ≠ some h) :
    r.2.writes ≠ some h := by
  rcases exec_follows hr with ⟨hf | hf, -⟩ | ⟨k, v, e, -, hf⟩
  · rw [hf]
    exact hw
  · rw [hf]
    exact nofun
  · rw [hf]
    exact nofun

/-- A thread that does not write the key leaves it alone. -/
lemma calm_step {r : Shared × Local} (he : Effect s l r.1 r.2) (hr : s.exec l = some r)
    (hw : l.writes ≠ some h) :
    (s.tbl.Sole h idx → r.1.tbl.Sole h idx) ∧
      (s.tbl.Absent h → r.1.tbl.Absent h) ∧
      ((h ≠ 0 → s.tbl.keyOf idx ≠ h) → h ≠ 0 → r.1.tbl.keyOf idx ≠ h) ∧ ∀ e,
      r.2 ≠ .returned (.remove h) e := by
  have hent : l.enters ≠ some h := fun h' => hw (writes_of_enters h')
  have hrem : l.removes ≠ some h := fun h' => hw (writes_of_removes h')
  refine ⟨fun hs => hs.delta he.delta hent hrem, fun ha => ha.delta he.delta hent,
    fun hk h0 => ?_, fun e => ?_⟩
  · rcases he.keys idx with hj | hj | hj
    · rw [hj]
      exact hk h0
    · intro heq
      rw [heq] at hj
      exact hent hj
    · rw [hj]
      exact h0.symm
  · rcases exec_follows hr with ⟨-, hf⟩ | ⟨k, v, e', rfl, hf⟩
    · exact hf h e
    · rw [hf]
      intro heq
      cases heq
      exact hw rfl

/-- A new call keeps the invariant. -/
lemma Machine.Removes.call {j : ℕ} {k : Call} (hm : m.Removes i h idx) (hk : k.writes ≠ some h)
    (h' : m.step (.call j k) = some m') : m'.Removes i h idx := by
  have hsane := (@Machine.Sane.step _ _ (.call j k)) hm.toSane trivial h'
  obtain ⟨hfree, rfl⟩ := step_call h'
  have hw : k.start.writes ≠ some h := by cases k <;> exact hk
  refine ⟨hsane, fun n hn => ?_, ?_⟩
  · dsimp only
    by_cases hnj : n = j
    · rw [hnj, Function.update_self]
      exact hw
    · rw [Function.update_of_ne hnj]
      exact hm.others n hn
  · dsimp only
    by_cases hij : i = j
    · -- the thread has left its removal
      subst hij
      rw [Function.update_self]
      rcases hm.phase with ⟨hr, -⟩ | ⟨-, ha, hkey, -⟩
      · cases hl : m.loc i <;> rw [hl] at hr hfree <;> first | cases hr | cases hfree
      · refine .inr ⟨hw, ha, hkey, fun e he => ?_⟩
        cases k <;> cases he
    · rw [Function.update_of_ne hij]
      exact hm.phase

/-- The next step of a thread keeps the invariant. -/
lemma Machine.Removes.go {j : ℕ} (hm : m.Removes i h idx) (hg : m.GrowsSafely (.go j))
    (hc : m.Current i (.go j)) (h' : m.step (.go j) = some m') : m'.Removes i h idx := by
  have hsane := hm.toSane.step hg h'
  obtain ⟨r, hr, rfl⟩ := step_go h'
  have he := exec_effect hm.placed hm.buckets (hm.ok j) hg hr
  by_cases hij : i = j
  · subst hij
    refine ⟨hsane, fun n hn => ?_, ?_⟩
    · dsimp only
      rw [Function.update_of_ne hn]
      exact hm.others n hn
    dsimp only
    rw [Function.update_self]
    rcases hm.phase with ⟨hrem, hsole⟩ | ⟨hw, ha, hkey, -⟩
    · have hcur := hc rfl
      cases hl : m.loc i <;> rw [hl] at hrem hr hcur <;> first | cases hrem | skip
      · next k =>
        cases hr
        exact .inl ⟨hrem, hsole⟩
      · next k v =>
        obtain rfl : k = h := by simpa [Local.removing] using hrem
        obtain ⟨hret, ha, hkey⟩ := removeSection_current hm.placed hsole hcur hr
        rw [hret]
        refine .inr ⟨nofun, ha, hkey, fun e he => ?_⟩
        cases he
        rfl
    · obtain ⟨-, ha', hkey', hret⟩ := calm_step he hr hw
      exact .inr ⟨exec_writes hr hw, ha' ha, hkey' hkey, fun e he => absurd he (hret e)⟩
  · have hw := hm.others j (Ne.symm hij)
    obtain ⟨hsole', ha', hkey', -⟩ := calm_step he hr hw
    refine ⟨hsane, fun n hn => ?_, ?_⟩
    · dsimp only
      by_cases hnj : n = j
      · rw [hnj, Function.update_self]
        exact exec_writes hr hw
      · rw [Function.update_of_ne hnj]
        exact hm.others n hn
    · dsimp only
      rw [Function.update_of_ne hij]
      rcases hm.phase with ⟨hrem, hsole⟩ | ⟨hwi, ha, hkey, hret⟩
      · exact .inl ⟨hrem, hsole' hsole⟩
      · exact .inr ⟨hwi, ha' ha, hkey' hkey, hret⟩

/-! ## Schedules -/

/-- The conditions on a schedule keep the invariant. -/
lemma Machine.Removes.run : ∀ {as : List Act} {m m' : Machine},
    m.Removes i h idx → m.Along Machine.GrowsSafely as →
    m.Along (Machine.Current i) as → (∀ a ∈ as, a.writes ≠ some h) → m.run as = some m' →
    m'.Removes i h idx
  | [], m, m', hm, _, _, _, hr => by
    cases hr
    exact hm
  | act :: as, m, m', hm, hg, hc, hcalls, hr => by
    obtain ⟨m₁, h₁, hr⟩ := Option.bind_eq_some_iff.mp hr
    have hm₁ : m₁.Removes i h idx := by
      cases act with
      | call j c => exact hm.call (hcalls (.call j c) (List.mem_cons_self ..)) h₁
      | go j => exact hm.go hg.1 hc.1 h₁
    exact hm₁.run (hg.2 m₁ h₁) (hc.2 m₁ h₁) (fun a ha => hcalls a (List.mem_cons_of_mem _ ha)) hr

/-- No grow of a schedule loses anything. -/
lemma Machine.Sane.run {as : List Act} (hm : m.Sane) (hg : m.Along Machine.GrowsSafely as)
    (hr : m.run as = some m') :
    m'.Sane :=
  Schedule.run_keeps (P := Machine.GrowsSafely) (I := Machine.Sane)
    (fun _ _ _ hi hp hs => hi.step hp hs) hm hg hr

/-- A new table. -/
lemma Machine.Sane.start (cfg : Option HtcConfig) (seedCtr : ℕ) (mem : List Bool) :
    (Machine.start (htcCreate cfg seedCtr mem)).Sane where
  placed := (htcCreate_sound cfg seedCtr mem).settled.placed
  buckets := (htcCreate_sound cfg seedCtr mem).buckets
  ok _ := trivial
  apart i j idx hi := by cases hi

/-- In a schedule of one thread, the others write nothing. -/
lemma writes_of_start {t : Table} {as : List Act} {k : ℕ} (hm : (Machine.start t).run as = some m)
    (ha : ∀ a ∈ as, a.thread = k) (hk : (m.loc k).writes ≠ some h) (j : ℕ) :
    (m.loc j).writes ≠ some h := by
  by_cases hj : j = k
  · rw [hj]
    exact hk
  · have hother : ∀ a ∈ as, a.thread ≠ j := by
      intro a hmem
      rw [ha a hmem]
      exact Ne.symm hj
    rw [Machine.run_other hother hm]
    exact nofun

/-- A removal of a key that one record holds, in a schedule in which no grow loses anything and the
removal finds its generation unchanged: it takes all its steps, returns `HTC_OK`, and the key is not
found afterwards. -/
theorem removal_survives_grow (cfg : Option HtcConfig) (seedCtr : ℕ) (mem : List Bool)
    (as bs : List Act) (i h idx : ℕ) (m m' : Machine)
    (hgrow : (Machine.start (htcCreate cfg seedCtr mem)).Along Machine.GrowsSafely
      (as ++ .call i (.remove h) :: bs))
    (hm : (Machine.start (htcCreate cfg seedCtr mem)).run as = some m) (hsole : m.tbl.Sole h idx)
    (hothers : ∀ j, (m.loc j).writes ≠ some h) (hcalls : ∀ a ∈ bs, a.writes ≠ some h)
    (hcur : m.Along (Machine.Current i) (.call i (.remove h) :: bs))
    (hm' : m.run (.call i (.remove h) :: bs) = some m') :
    (∀ e, m'.loc i = .returned (.remove h) e → e = .ok) ∧
    ((m'.loc i).removing h = true → (m'.step (.go i)).isSome) ∧
    ((m'.loc i).removing h = false → m'.Misses h idx) := by
  obtain ⟨hg, hg'⟩ := hgrow.append
  have hsane := (Machine.Sane.start cfg seedCtr mem).run hg hm
  have hg' := hg' m hm
  obtain ⟨m₁, h₁, hr⟩ := Option.bind_eq_some_iff.mp hm'
  have hm₁ : m₁.Removes i h idx := by
    have hs₁ := hsane.step hg'.1 h₁
    obtain ⟨-, rfl⟩ := step_call h₁
    refine ⟨hs₁, fun j hj => ?_, .inl ⟨?_, hsole⟩⟩
    · dsimp only
      rw [Function.update_of_ne hj]
      exact hothers j
    · dsimp only
      rw [Function.update_self]
      exact beq_self_eq_true h
  have hfin := hm₁.run (hg'.2 m₁ h₁) (hcur.2 m₁ h₁) hcalls hr
  refine ⟨fun e he => ?_, hfin.next, fun hno => ?_⟩
  · rcases hfin.phase with ⟨hrem, -⟩ | ⟨-, -, -, hret⟩
    · rw [he] at hrem
      cases hrem
    · exact hret e he
  · rcases hfin.phase with ⟨hrem, -⟩ | ⟨-, ha, hkey, -⟩
    · rw [hno] at hrem
      cases hrem
    · exact hfin.toSane.misses ha hkey

/-- A grow before the load of the generation, and an insertion around the section of the removal. -/
theorem removal_survives_grow_five :
    ∃ m' : Machine, m'.loc 1 = .returned (.remove 5) .ok ∧ m'.loc 0 = .returned (.insert 6 60) .ok ∧
    m'.genNo = 1 ∧ ∃ idx, m'.Misses 5 idx := by
  let as : List Act := [.call 0 (.insert 5 50), .go 0, .go 0, .go 0]
  let bs : List Act :=
    [.call 2 (.grow false), .go 2, .go 2, .call 0 (.insert 6 60), .go 0, .go 1, .go 0, .go 1, .go 0]
  obtain ⟨m, hm, hloc⟩ := Option.map_eq_some_iff.mp
    (by decide +kernel : ((Machine.start (htcCreate none 0 [])).run as).map (·.loc 0) =
      some (.returned (.insert 5 50) .ok))
  obtain ⟨m', hm', hret⟩ := Option.map_eq_some_iff.mp
    (by decide +kernel :
      ((Machine.start (htcCreate none 0 [])).run (as ++ .call 1 (.remove 5) :: bs)).map
        (fun m => (m.loc 1, m.loc 0, m.genNo)) =
      some (.returned (.remove 5) .ok, .returned (.insert 6 60) .ok, 1))
  rw [Prod.mk.injEq, Prod.mk.injEq] at hret
  have hbs : m.run (.call 1 (.remove 5) :: bs) = some m' := Schedule.run_of_append hm hm'
  have hstart := Machine.Filling.start none 0 [] (k := 2) (by decide)
  have hsafe : (Machine.start (htcCreate none 0 [])).Along Machine.Safe as := by decide +kernel
  obtain ⟨hf, -⟩ := hstart.run hsafe hm
  obtain ⟨p, hp⟩ := hf.search (hf.entered 0 5 (by rw [hloc]; rfl))
  have hgrow :
      (Machine.start (htcCreate none 0 [])).Along Machine.GrowsSafely
        (as ++ .call 1 (.remove 5) :: bs) :=
    hstart.toSane.growsSafely hstart.shards (by decide +kernel)
  have hcur :
      (Machine.start (htcCreate none 0 [])).Along (Machine.Current 1)
        (as ++ .call 1 (.remove 5) :: bs) := by
    decide +kernel
  have hothers : ∀ j, (m.loc j).writes ≠ some 5 :=
    writes_of_start (k := 0) hm (by decide) (by rw [hloc]; exact nofun)
  obtain ⟨-, -, hmiss⟩ :=
    removal_survives_grow none 0 [] as bs 1 5 (m.tbl.idxAt p) m m' hgrow hm (hf.sole hp) hothers
      (by decide) (hcur.append.2 m hm) hbs
  exact ⟨m', hret.1, hret.2.1, hret.2.2, _, hmiss (by rw [hret.1]; rfl)⟩

/-- A grow between the load of the generation and the section of the removal: the removal misses a
key that is there. -/
theorem removal_lost_to_grow :
    ((Machine.start (htcCreate none 0 [])).run
        [.call 0 (.insert 5 50), .go 0, .go 0, .go 0, .call 1 (.remove 5), .go 1,
          .call 2 (.grow false), .go 2, .go 2,
          .go 1]).map (fun m => (m.loc 0, m.loc 1, (htcFind 5 true m.tbl).1)) =
    some (.returned (.insert 5 50) .ok, .returned (.remove 5) .notFound, .ok) := by decide +kernel

end Draugr.Htc
