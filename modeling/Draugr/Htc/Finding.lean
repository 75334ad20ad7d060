import Draugr.Htc.Reader

/-!
# A search among insertions and removals

One thread looks for a key that stays in the table while others insert and remove other keys. Its
scans of the two buckets are steps of their own, so a displacement that carries the key from the
secondary bucket back to the primary one between them hides it from both scans
(`find_misses_moved_key`). `Machine.Spares` is the condition that excludes this, and a grow during
the search; `Machine.Looking` is the invariant of the schedules that meet it.
-/

namespace Draugr.Htc
open Draugr.Lib

/-- The search of thread `i` does not miss the step, and no step replaces the generation. -/
def Machine.Spares (i : ℕ) (m : Machine) : Act → Prop
  | .call _ _ => True
  | .go j => (m.loc j).replaces = false ∧ (m.loc j).spares m.toShared (m.loc i) = true

/-- Where a search is that has not left its key behind. -/
inductive Seeks (s : Shared) (h : ℕ) : Local → Prop where
  | load : Seeks s h (.findLoad h)
  | scan {l : Local} : l.searches = some h → (∀ v, l.searchView = some v → v.gen = s.genNo) →
    Unpassed s l h →
      Seeks s h l
  | hit (idx : ℕ) : Seeks s h (.findHit h idx)
  | found : Seeks s h (.returned (.find h) .ok)

/-- The invariant of schedules in which thread `i` looks for the key `h`. -/
structure Machine.Looking (m : Machine) (i h : ℕ) : Prop extends m.Sane where
  others : ∀ j, (m.loc j).writes ≠ some h
  present : ¬ m.tbl.Absent h
  seeks : Seeks m.toShared h (m.loc i)

variable {m m' : Machine} {s s' : Shared} {l l' : Local} {c c' : Core} {h i idx : ℕ}
  {ent rem : Option ℕ} {r : Shared × Local}

instance (i : ℕ) (m : Machine) : ∀ act, Decidable (m.Spares i act)
  | .call _ _ => isTrue trivial
  | .go _ => inferInstanceAs (Decidable (_ ∧ _))

/-! ## Steps -/

/-- A key stays present while other keys go. -/
lemma Delta.present (hd : Delta c c' ent rem) (hr : rem ≠ some h) (ha : ¬ c.Absent h) :
    ¬ c'.Absent h := by
  intro ha'
  refine ha fun j hj hk => ?_
  have hj' : j ∈ c'.live := by
    rcases hd.live with hl | ⟨n, -, hl, -⟩ | ⟨n, -, hrem, hl⟩
    · exact hl ▸ hj
    · rw [hl]
      exact Set.mem_insert_of_mem _ hj
    · rw [hl]
      refine ⟨hj, ?_⟩
      rintro rfl
      exact hr (hrem.trans (congrArg some hk))
  exact ha' j hj' ((hd.keys j hj hj').trans hk)

/-- A step of the search. -/
lemma Seeks.step (hp : Placed s.tbl.toCore) (hl : l.Ok s) (hs : Seeks s h l) (ha : ¬ s.tbl.Absent h)
    (hr : s.exec l = some r) : Seeks r.1 h r.2 := by
  cases hs with
  | load =>
    cases hr
    -- nothing is behind a search that begins
    refine .scan rfl (fun v hv => ?_) fun p w hw hk hpass => hpass
    cases hv
    rfl
  | scan hsr hg hu =>
    obtain ⟨hsame, hlook⟩ := exec_looked hp hl hsr hg hr
    rw [hsame]
    generalize r.2 = l' at hlook
    cases hlook with
    | on hs' hv hu' => exact .scan hs' (fun v hv' => hg v (hv ▸ hv')) (hu' hu)
    | hit j hj => exact .hit j
    | missed hmiss => exact absurd (hmiss hu) ha
  | hit idx =>
    cases hr
    dsimp only
    split
    · exact .found
    · exact .load
  | found => cases hr

/-- A step of another thread. -/
lemma Seeks.other (hs : Seeks s h l') (hl : l.Ok s) (hr : s.exec l = some r)
    (he : Effect s l r.1 r.2) (hrep : l.replaces = false) (hsp : l.spares s l' = true)
    (hl' : l'.Ok s) (hent : l.enters ≠ some h) : Seeks r.1 h l' := by
  cases hs with
  | load => exact .load
  | scan hsr hg hu =>
    refine .scan hsr (fun v hv => ?_) ?_
    · rw [exec_genNo hrep hr]
      exact hg v hv
    · exact unpassed_step hl hr he (fun j hj hk => he.delta.live_of_ne hent hj hk) hsp hl' hsr hg hu
  | hit idx => exact .hit idx
  | found => exact .found

/-- A step that does not replace the generation is no grow that loses something. -/
lemma growsSafely_of_replaces (hrep : l.replaces = false) : l.GrowsSafely s := by
  cases l with
  | growRehash reseed k => cases hrep
  | _ => trivial

/-- A call of another thread, for another key. -/
lemma Machine.Looking.call {j : ℕ} {k : Call} (hm : m.Looking i h) (hij : i ≠ j)
    (hk : k.writes ≠ some h) (h' : m.step (.call j k) = some m') : m'.Looking i h := by
  have hsane := (@Machine.Sane.step _ _ (.call j k)) hm.toSane trivial h'
  obtain ⟨-, rfl⟩ := step_call h'
  have hw : k.start.writes ≠ some h := by cases k <;> exact hk
  refine ⟨hsane, fun n => ?_, hm.present, ?_⟩
  · dsimp only
    by_cases hnj : n = j
    · rw [hnj, Function.update_self]
      exact hw
    · rw [Function.update_of_ne hnj]
      exact hm.others n
  · dsimp only
    rw [Function.update_of_ne hij]
    exact hm.seeks

/-- The next step of a thread keeps the invariant. -/
lemma Machine.Looking.go {j : ℕ} (hm : m.Looking i h) (hsp : m.Spares i (.go j))
    (h' : m.step (.go j) = some m') : m'.Looking i h := by
  have hgrow : m.GrowsSafely (.go j) := growsSafely_of_replaces hsp.1
  have hsane := hm.toSane.step hgrow h'
  obtain ⟨r, hr, rfl⟩ := step_go h'
  have he := exec_effect hm.placed hm.buckets (hm.ok j) hgrow hr
  have hent : (m.loc j).enters ≠ some h := fun h' => hm.others j (writes_of_enters h')
  have hrem : (m.loc j).removes ≠ some h := fun h' => hm.others j (writes_of_removes h')
  refine ⟨hsane, fun n => ?_, he.delta.present hrem hm.present, ?_⟩
  · dsimp only
    by_cases hnj : n = j
    · rw [hnj, Function.update_self]
      exact exec_writes hr (hm.others j)
    · rw [Function.update_of_ne hnj]
      exact hm.others n
  · dsimp only
    by_cases hij : i = j
    · subst hij
      rw [Function.update_self]
      exact hm.seeks.step hm.placed (hm.ok i) hm.present hr
    · rw [Function.update_of_ne hij]
      exact hm.seeks.other (hm.ok j) hr he hsp.1 hsp.2 (hm.ok i) hent

/-! ## Schedules -/

/-- Schedules that meet the condition keep the invariant. -/
lemma Machine.Looking.run : ∀ {as : List Act} {m m' : Machine},
    m.Looking i h → m.Along (Machine.Spares i) as → (∀ c, .call i c ∉ as) →
    (∀ a ∈ as, a.writes ≠ some h) → m.run as = some m' → m'.Looking i h
  | [], m, m', hm, _, _, _, hr => by
    cases hr
    exact hm
  | act :: as, m, m', hm, hsp, hown, hcalls, hr => by
    obtain ⟨m₁, h₁, hr⟩ := Option.bind_eq_some_iff.mp hr
    have hm₁ : m₁.Looking i h := by
      cases act with
      | call j c =>
        refine hm.call ?_ (hcalls (.call j c) (List.mem_cons_self ..)) h₁
        rintro rfl
        exact hown c (List.mem_cons_self ..)
      | go j => exact hm.go hsp.1 h₁
    exact hm₁.run (hsp.2 m₁ h₁) (fun c hc => hown c (List.mem_cons_of_mem _ hc))
      (fun a ha => hcalls a (List.mem_cons_of_mem _ ha)) hr

/-- A search for a key that is in the table, in a schedule whose other calls are for other keys: it
does not return `HTC_ERR_NOT_FOUND` if no step replaces the generation and no displacement carries
the key back to its primary bucket while the search is between its scans of the two buckets. -/
theorem find_keeps_present (cfg : Option HtcConfig) (seedCtr : ℕ) (mem : List Bool)
    (as bs : List Act) (i h : ℕ) (m m' : Machine)
    (hgrow : (Machine.start (htcCreate cfg seedCtr mem)).Along Machine.GrowsSafely as)
    (hm : (Machine.start (htcCreate cfg seedCtr mem)).run as = some m)
    (hpresent : ¬ m.tbl.Absent h) (hothers : ∀ j, (m.loc j).writes ≠ some h)
    (hown : ∀ c, .call i c ∉ bs) (hcalls : ∀ a ∈ bs, a.writes ≠ some h)
    (hsp : m.Along (Machine.Spares i) (.call i (.find h) :: bs))
    (hm' : m.run (.call i (.find h) :: bs) = some m') :
    ¬ m'.tbl.Absent h ∧ m'.loc i ≠ .returned (.find h) .notFound := by
  have hsane := (Machine.Sane.start cfg seedCtr mem).run hgrow hm
  obtain ⟨m₁, h₁, hr⟩ := Option.bind_eq_some_iff.mp hm'
  have hm₁ : m₁.Looking i h := by
    have hs₁ := (@Machine.Sane.step _ _ (.call i (.find h))) hsane trivial h₁
    obtain ⟨-, rfl⟩ := step_call h₁
    refine ⟨hs₁, fun j => ?_, hpresent, ?_⟩
    · dsimp only
      by_cases hji : j = i
      · rw [hji, Function.update_self]
        exact fun hw => by cases hw
      · rw [Function.update_of_ne hji]
        exact hothers j
    · dsimp only
      rw [Function.update_self]
      exact .load
  have hfin := hm₁.run (hsp.2 m₁ h₁) hown hcalls hr
  refine ⟨hfin.present, fun hret => ?_⟩
  have hseeks := hfin.seeks
  rw [hret] at hseeks
  cases hseeks with
  | scan hsr => cases hsr

/-- Sixteen insertions: the last of them fill the buckets 5 and 8, and the key 23 of bucket 5 goes
to bucket 8. Then a slot of bucket 5 becomes free. -/
def twoFull : List Act :=
  [1, 31, 32, 40, 41, 60, 63, 68, 23, 8, 24, 25, 37, 58, 77, 112].flatMap (fun k =>
    [.call 0 (.insert k 1), .go 0, .go 0, .go 0]) ++ [.call 0 (.remove 1), .go 0, .go 0]

/-- An insertion into the full bucket 8 carries the key back before the search scans its primary
bucket, and another key is removed before the search ends. -/
theorem find_keeps_present_moved :
    ∃ m' : Machine, m'.loc 1 = .returned (.find 23) .ok ∧ m'.loc 0 = .returned (.insert 246 1) .ok ∧
      m'.loc 2 = .returned (.remove 40) .ok ∧
      htcSearch m'.tbl.toCore 23 true = some (.slot (5, 0)) ∧
      m'.loc 1 ≠ .returned (.find 23) .notFound := by
  let start := Machine.start (htcCreate (some ⟨16, 1, 4, false⟩) 0 [])
  let bs : List Act := [.go 1, .call 0 (.insert 246 1), .go 0, .go 0, .go 0, .go 0, .go 1,
    .call 2 (.remove 40), .go 2, .go 2, .go 0, .go 1]
  obtain ⟨m, hm, hat⟩ := Option.map_eq_some_iff.mp
    (by decide +kernel : (start.run twoFull).map (fun m =>
      (htcSearch m.tbl.toCore 23 true, m.loc 0)) =
      some (some (.slot (8, 0)), .returned (.remove 1) .ok))
  obtain ⟨m', hm', hret⟩ := Option.map_eq_some_iff.mp
    (by decide +kernel : (start.run (twoFull ++ .call 1 (.find 23) :: bs)).map (fun m =>
      (m.loc 1, m.loc 0, m.loc 2, htcSearch m.tbl.toCore 23 true)) =
      some (.returned (.find 23) .ok, .returned (.insert 246 1) .ok, .returned (.remove 40) .ok,
        some (.slot (5, 0))))
  simp only [Prod.mk.injEq] at hat hret
  have hbs : m.run (.call 1 (.find 23) :: bs) = some m' := Schedule.run_of_append hm hm'
  have hstart := Machine.Filling.start (some ⟨16, 1, 4, false⟩) 0 [] (k := 2) (by decide)
  have hgrow : start.Along Machine.GrowsSafely twoFull :=
    hstart.toSane.growsSafely hstart.shards (by decide +kernel)
  have hsp : start.Along (Machine.Spares 1) (twoFull ++ .call 1 (.find 23) :: bs) := by
    decide +kernel
  obtain ⟨hlive, hkey⟩ := search_hit hat.1
  have hothers : ∀ j, (m.loc j).writes ≠ some 23 :=
    writes_of_start (k := 0) hm (by decide) (by rw [hat.2]; exact nofun)
  obtain ⟨-, hne⟩ :=
    find_keeps_present _ 0 [] twoFull bs 1 23 m m' hgrow hm (fun ha => ha _ hlive hkey) hothers
      (fun c => by simp [bs]) (by decide) (hsp.append.2 m hm) hbs
  exact ⟨m', hret.1, hret.2.1, hret.2.2.1, hret.2.2.2, hne⟩

/-- The same insertion while the search is between its scans of the two buckets: it misses a key
that is there. -/
theorem find_misses_moved_key :
    ((Machine.start (htcCreate (some ⟨16, 1, 4, false⟩) 0 [])).run (twoFull ++
        [.call 1 (.find 23), .go 1, .go 1, .call 0 (.insert 246 1), .go 0, .go 0, .go 0, .go 1,
          .go 1, .go 1])).map (fun m => (m.loc 1, (htcFind 23 true m.tbl).1)) =
    some (.returned (.find 23) .notFound, .ok) := by
  decide +kernel

end Draugr.Htc
