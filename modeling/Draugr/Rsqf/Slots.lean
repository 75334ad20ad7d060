import Draugr.Lib.Rank

/-!
# The layout of the slots

The slots of a rank-and-select quotient filter, seen as bit arrays: the occupied quotients, the run
ends and the slots with data. The slots from behind one run end up to the next one are the range of
a run; `Laid` says that the data of a run is the end part of its range and that no data is before
its quotient.

An insertion opens a place behind the run, or a new range, and moves what is behind up to the next
free slot (`Laid.newRun`, `Laid.extend`). A deletion closes a place inside of the range of a run
(`Laid.shrink`, `Laid.dropRun`). `holds` marks the slots that hold a fingerprint; each of the four
adds one mark or takes one away.
-/

namespace Draugr.Rsqf
open Draugr.Lib

/-- The layout of `ns` slots. -/
structure Laid (ns : ℕ) (occ run phys : Bits) : Prop where
  occ_lt : ∀ p, occ p = true → p < ns
  phys_lt : ∀ p, phys p = true → p < ns
  total : cnt occ ns = cnt run ns
  run_phys : ∀ p, run p = true → phys p = true
  behind : ∀ p, phys p = true → cnt run p < cnt occ (p + 1)
  joined : ∀ p, phys p = true → run p = false → phys (p + 1) = true

/-- The slots that hold the fingerprint `(q, r)`. -/
def holds (occ run phys : Bits) (rem : ℕ → ℕ) (q r : ℕ) : Bits := fun p =>
  occ q && phys p && decide (rem p = r) && decide (cnt run p = cnt occ q)

variable {ns : ℕ} {occ run phys : Bits} {rem rem' : ℕ → ℕ} {p q q' r e s n i k v : ℕ}

/-- A slot that holds a fingerprint: its run is that of the quotient. -/
lemma holds_iff : holds occ run phys rem q r p = true ↔
    occ q = true ∧ phys p = true ∧ rem p = r ∧ cnt run p = cnt occ q := by
  simp [holds, and_assoc]

namespace Laid

/-- There are never more run ends than quotients before a place. -/
lemma run_le (h : Laid ns occ run phys) (p : ℕ) : cnt run p ≤ cnt occ p := by
  by_contra hlt
  obtain ⟨e, he, hs⟩ := exists_isSelect (k := cnt occ p) (not_le.mp hlt)
  have h1 := h.behind e (h.run_phys e hs.1)
  have h2 := cnt_mono (b := occ) (show e + 1 ≤ p from he)
  rw [hs.2] at h1
  omega

/-- Every occupied quotient has a run end. -/
lemma exists_end (h : Laid ns occ run phys) (hk : k < cnt occ ns) : ∃ e < ns, IsSelect run k e :=
  exists_isSelect (h.total ▸ hk)

/-- A quotient is not behind the end of its run. -/
lemma le_end (h : Laid ns occ run phys) (hs : IsSelect run (cnt occ q) e) : q ≤ e := by
  by_contra hlt
  have h1 := hs.lt_iff.mp (not_le.mp hlt)
  have h2 := h.run_le q
  omega

/-- A run end is one of the slots. -/
lemma end_lt (h : Laid ns occ run phys) (hs : IsSelect run k e) : e < ns :=
  h.phys_lt e (h.run_phys e hs.1)

/-- Data in one range goes on up to its end. -/
lemma phys_of_le (h : Laid ns occ run phys) (hp : phys p = true) (hpe : p ≤ e)
    (hc : cnt run p = cnt run e) :
    phys e = true := by
  induction e, hpe using Nat.le_induction with
  | base => exact hp
  | succ e hpe ih =>
    have h1 := cnt_mono (b := run) hpe
    have h2 := cnt_mono (b := run) (show e ≤ e + 1 by omega)
    exact h.joined e (ih (by omega))
      (clear_of_cnt_eq (m := e) (n := e + 1) (by omega) le_rfl (Nat.lt_succ_self e))

/-- Data before a free slot belongs to an earlier range. -/
lemma front_of_free (h : Laid ns occ run phys) (hs : phys s = false) (hp : phys p = true)
    (hps : p < s) :
    cnt run p < cnt run s := by
  refine lt_of_le_of_ne (cnt_mono hps.le) fun hc => ?_
  rw [h.phys_of_le hp hps.le hc] at hs
  cases hs

/-- The bit of a run end is clear at a free slot. -/
lemma run_of_free (h : Laid ns occ run phys) (hn : phys n = false) : run n = false := by
  refine Bool.eq_false_iff.mpr fun hr => ?_
  rw [h.run_phys n hr] at hn
  cases hn

end Laid

/-! ## A new run -/

/-- Where a new run of `q` may be put: into a place `s` before the free slot `n`. -/
structure NewRun (ns : ℕ) (occ run phys : Bits) (q s n : ℕ) : Prop where
  unset : occ q = false
  le : q ≤ s
  le_free : s ≤ n
  lt : n < ns
  free : phys n = false
  used : ∀ p, s ≤ p → p < n → phys p = true
  rank : cnt run s = cnt occ q
  front : ∀ p < s, phys p = true → cnt run p < cnt run s

namespace NewRun

/-- The occupied quotients with the new one. -/
lemma cnt_occ (w : NewRun ns occ run phys q s n) (p : ℕ) :
    cnt (Function.update occ q true) p = cnt occ p + if q < p then 1 else 0 := cnt_set w.unset p

variable (h : Laid ns occ run phys) (w : NewRun ns occ run phys q s n)
include h w

/-- The number of run ends before a slot, after the insertion. -/
lemma cnt_run : cnt (openAt run s n true) p =
    if p ≤ s then cnt run p else if p ≤ n then cnt run (p - 1) + 1 else cnt run p + 1 := by
  have := w.le_free
  split_ifs with h1 h2
  · exact cnt_openAt_of_le h1
  · obtain ⟨p, rfl⟩ := Nat.exists_eq_add_of_lt (show 0 < p by omega)
    rw [Nat.zero_add, cnt_openAt_succ (by omega) (by omega)]
    rfl
  · exact cnt_openAt_of_gt w.le_free (h.run_of_free w.free) (by omega)

/-- The layout with the new run. -/
lemma laid : Laid ns (Function.update occ q true) (openAt run s n true) (openAt phys s n true) := by
  have hsn := w.le_free
  have hn := w.lt
  have hq := w.le
  refine ⟨fun p hp => ?_, fun p hp => ?_, ?_, fun p hp => ?_, fun p hp => ?_, fun p hp hr => ?_⟩
  · by_cases hpq : p = q
    · omega
    · rw [Function.update_of_ne hpq] at hp
      exact h.occ_lt p hp
  · rcases openAt_cases s n p with hps | rfl | ⟨p, rfl, h1, h2⟩ | ⟨h1, h2⟩
    · omega
    · omega
    · omega
    · rw [openAt_of_gt hsn h2] at hp
      exact h.phys_lt p hp
  · rw [w.cnt_occ, if_pos (by omega), w.cnt_run h, if_neg (by omega), if_neg (by omega), h.total]
  · rcases openAt_cases s n p with hps | rfl | ⟨p, rfl, h1, h2⟩ | ⟨h1, h2⟩
    · rw [openAt_of_lt hps] at hp ⊢
      exact h.run_phys p hp
    · exact openAt_self
    · rw [openAt_succ h1 h2]
      exact w.used p h1 h2
    · rw [openAt_of_gt hsn h2] at hp ⊢
      exact h.run_phys p hp
  · rw [w.cnt_occ, w.cnt_run h]
    rcases openAt_cases s n p with hps | rfl | ⟨p, rfl, h1, h2⟩ | ⟨h1, h2⟩
    · rw [openAt_of_lt hps] at hp
      have := h.behind p hp
      rw [if_pos hps.le]
      omega
    · have := cnt_mono (b := occ) (show q ≤ p + 1 by omega)
      rw [if_pos le_rfl, w.rank, if_pos (by omega)]
      omega
    · have h3 := h.behind p (w.used p h1 h2)
      have h4 := cnt_mono (b := occ) (show p + 1 ≤ p + 1 + 1 by omega)
      rw [if_neg (by omega), if_pos (by omega), if_pos (by omega), Nat.add_sub_cancel]
      omega
    · rw [openAt_of_gt hsn h2] at hp
      have := h.behind p hp
      rw [if_neg (by omega), if_neg (by omega), if_pos (by omega)]
      omega
  · rcases openAt_cases s n p with hps | rfl | ⟨p, rfl, h1, h2⟩ | ⟨h1, h2⟩
    · rw [openAt_of_lt hps] at hp hr
      rcases Nat.lt_or_eq_of_le (show p + 1 ≤ s from hps) with hlt | heq
      · rw [openAt_of_lt hlt]
        exact h.joined p hp hr
      · rw [heq]
        exact openAt_self
    · rw [openAt_self] at hr
      cases hr
    · rw [openAt_succ h1 h2] at hr
      have := h.joined p (w.used p h1 h2) hr
      rcases Nat.lt_or_eq_of_le (show p + 1 ≤ n from h2) with hlt | heq
      · rw [openAt_succ (by omega) hlt]
        exact this
      · rw [heq, w.free] at this
        cases this
    · rw [openAt_of_gt hsn h2] at hp hr
      rw [openAt_of_gt hsn (by omega)]
      exact h.joined p hp hr

/-- The new run holds the new fingerprint; the others hold what they held. -/
lemma holds_eq (hrem : ∀ p, rem' p = openAt rem s n v p) (q' r p : ℕ) :
    holds (Function.update occ q true) (openAt run s n true) (openAt phys s n true) rem' q' r p =
      openAt (holds occ run phys rem q' r) s n (decide (q' = q ∧ v = r)) p := by
  have hsn := w.le_free
  have hq := w.le
  have hrank := w.rank
  by_cases hqq : q' = q
  · -- the quotient of the new run: only its slot has its number
    subst hqq
    have hold : ∀ p, holds occ run phys rem q' r p = false := fun p => by simp [holds, w.unset]
    have hc : cnt (Function.update occ q' true) q' = cnt occ q' := by
      rw [w.cnt_occ, if_neg (lt_irrefl _), Nat.add_zero]
    unfold holds
    rw [Function.update_self, hrem, hc, w.cnt_run h]
    rcases openAt_cases s n p with hps | rfl | ⟨p, rfl, h1, h2⟩ | ⟨h1, h2⟩
    · simp only [openAt_of_lt hps, if_pos hps.le]
      rw [show (occ q' && phys p && decide (rem p = r) && decide (cnt run p = cnt occ q')) =
        false from hold p]
      cases hp : phys p with
      | false => simp
      | true =>
        have := w.front p hps hp
        simp [show cnt run p ≠ cnt occ q' by omega]
    · simp [openAt_self, hrank]
    · have := cnt_mono (b := run) h1
      simp [openAt_succ h1 h2, show ¬ p + 1 ≤ s by omega, show p + 1 ≤ n by omega, w.unset,
        show cnt run p + 1 ≠ cnt occ q' by omega]
    · have := cnt_mono (b := run) h1.le
      simp [openAt_of_gt hsn h2, show ¬ p ≤ s by omega, show ¬ p ≤ n by omega, w.unset,
        show cnt run p + 1 ≠ cnt occ q' by omega]
  · -- another quotient: its number and the numbers of its slots move together
    unfold holds
    rw [Function.update_of_ne hqq, hrem, w.cnt_occ, w.cnt_run h]
    cases ho : occ q' with
    | false =>
      rcases openAt_cases s n p with hps | rfl | ⟨p, rfl, h1, h2⟩ | ⟨h1, h2⟩
      · simp [openAt_of_lt hps]
      · simp [openAt_self, hqq]
      · simp [openAt_succ h1 h2]
      · simp [openAt_of_gt hsn h2]
    | true =>
      -- how the number of the quotient compares with that of the new one
      have hlt : q' < q → cnt occ q' < cnt occ q := cnt_lt_of_set ho
      have hge : q < q' → cnt occ q ≤ cnt occ q' := fun h => cnt_mono h.le
      rcases openAt_cases s n p with hps | rfl | ⟨p, rfl, h1, h2⟩ | ⟨h1, h2⟩
      · simp only [openAt_of_lt hps, if_pos hps.le]
        cases hp : phys p with
        | false => simp
        | true =>
          have := w.front p hps hp
          congr 1
          refine decide_eq_decide.mpr ?_
          split_ifs with hql
          · have := hge hql
            omega
          · omega
      · simp only [openAt_self, if_pos le_rfl]
        have : cnt run p ≠ cnt occ q' + if q < q' then 1 else 0 := by
          split_ifs with hql
          · have := hge hql
            omega
          · have := hlt (by omega)
            omega
        simp [hqq, this]
      · have := cnt_mono (b := run) h1
        simp only [openAt_succ h1 h2, if_neg (show ¬ p + 1 ≤ s by omega),
          if_pos (show p + 1 ≤ n by omega), Nat.add_sub_cancel]
        congr 1
        refine decide_eq_decide.mpr ?_
        split_ifs with hql
        · omega
        · have := hlt (by omega)
          omega
      · have := cnt_mono (b := run) h1.le
        simp only [openAt_of_gt hsn h2, if_neg (show ¬ p ≤ s by omega),
          if_neg (show ¬ p ≤ n by omega)]
        congr 1
        refine decide_eq_decide.mpr ?_
        split_ifs with hql
        · omega
        · have := hlt (by omega)
          omega

end NewRun

/-! ## One more slot for a run -/

/-- Where the run of `q` with the end `e` gets one more slot, before the free slot `n`. -/
structure Extension (ns : ℕ) (occ run phys : Bits) (q e n : ℕ) : Prop where
  set : occ q = true
  select : IsSelect run (cnt occ q) e
  lt_free : e < n
  lt : n < ns
  free : phys n = false
  used : ∀ p, e < p → p < n → phys p = true

namespace Extension

variable (h : Laid ns occ run phys) (w : Extension ns occ run phys q e n)
include h w

/-- The number of run ends before a slot, after the insertion. -/
lemma cnt_run : cnt (Function.update (openAt run (e + 1) n true) e false) p =
    if p ≤ e then cnt run p else if p ≤ n then cnt run (p - 1) else cnt run p := by
  have := w.lt_free
  have hset : openAt run (e + 1) n true e = true := by
    rw [openAt_of_lt (Nat.lt_succ_self e)]
    exact w.select.1
  have hc := cnt_clear hset p
  split_ifs with h1 h2
  · rw [if_neg (by omega), Nat.add_zero, cnt_openAt_of_le (by omega)] at hc
    exact hc
  · obtain ⟨p, rfl⟩ := Nat.exists_eq_add_of_lt (show 0 < p by omega)
    rw [Nat.zero_add] at hc h1 h2 ⊢
    rw [if_pos (by omega)] at hc
    rcases Nat.lt_or_eq_of_le (show e ≤ p by omega) with hlt | heq
    · rw [cnt_openAt_succ (by omega) (by omega), if_pos rfl] at hc
      rw [Nat.add_sub_cancel]
      omega
    · rw [cnt_openAt_of_le (by omega), cnt_succ_of_set (b := run) (heq ▸ w.select.1)] at hc
      rw [Nat.add_sub_cancel]
      omega
  · rw [if_pos (by omega), cnt_openAt_of_gt (by omega) (h.run_of_free w.free) (by omega),
      if_pos rfl] at hc
    omega

/-- The layout with the longer run. -/
lemma laid :
    Laid ns occ (Function.update (openAt run (e + 1) n true) e false)
      (openAt phys (e + 1) n true) := by
  have hen := w.lt_free
  have hn := w.lt
  have hsel := w.select
  refine ⟨h.occ_lt, fun p hp => ?_, ?_, fun p hp => ?_, fun p hp => ?_, fun p hp hr => ?_⟩
  · rcases openAt_cases (e + 1) n p with hps | rfl | ⟨p, rfl, h1, h2⟩ | ⟨h1, h2⟩
    · omega
    · omega
    · omega
    · rw [openAt_of_gt hen h2] at hp
      exact h.phys_lt p hp
  · rw [w.cnt_run h, if_neg (by omega), if_neg (by omega), h.total]
  · by_cases hpe : p = e
    · rw [hpe, Function.update_self] at hp
      cases hp
    rw [Function.update_of_ne hpe] at hp
    rcases openAt_cases (e + 1) n p with hps | rfl | ⟨p, rfl, h1, h2⟩ | ⟨h1, h2⟩
    · rw [openAt_of_lt hps] at hp ⊢
      exact h.run_phys p hp
    · exact openAt_self
    · rw [openAt_succ h1 h2]
      exact w.used p h1 h2
    · rw [openAt_of_gt hen h2] at hp ⊢
      exact h.run_phys p hp
  · rw [w.cnt_run h]
    rcases openAt_cases (e + 1) n p with hps | rfl | ⟨p, rfl, h1, h2⟩ | ⟨h1, h2⟩
    · rw [openAt_of_lt hps] at hp
      rw [if_pos (by omega)]
      exact h.behind p hp
    · have h3 := h.behind e (h.run_phys e hsel.1)
      have h4 := cnt_mono (b := occ) (show e + 1 ≤ e + 1 + 1 by omega)
      rw [if_neg (by omega), if_pos (by omega), Nat.add_sub_cancel]
      omega
    · have h3 := h.behind p (w.used p h1 h2)
      have h4 := cnt_mono (b := occ) (show p + 1 ≤ p + 1 + 1 by omega)
      rw [if_neg (by omega), if_pos (by omega), Nat.add_sub_cancel]
      omega
    · rw [openAt_of_gt hen h2] at hp
      rw [if_neg (by omega), if_neg (by omega)]
      exact h.behind p hp
  · by_cases hpe : p = e
    · rw [hpe]
      exact openAt_self
    rw [Function.update_of_ne hpe] at hr
    rcases openAt_cases (e + 1) n p with hps | rfl | ⟨p, rfl, h1, h2⟩ | ⟨h1, h2⟩
    · rw [openAt_of_lt hps] at hp hr
      rw [openAt_of_lt (by omega)]
      exact h.joined p hp hr
    · rw [openAt_self] at hr
      cases hr
    · rw [openAt_succ h1 h2] at hr
      have := h.joined p (w.used p h1 h2) hr
      rcases Nat.lt_or_eq_of_le (show p + 1 ≤ n from h2) with hlt | heq
      · rw [openAt_succ (by omega) hlt]
        exact this
      · rw [heq, w.free] at this
        cases this
    · rw [openAt_of_gt hen h2] at hp hr
      rw [openAt_of_gt hen (by omega)]
      exact h.joined p hp hr

/-- The run holds the new fingerprint too; the others hold what they held. -/
lemma holds_eq (hrem : ∀ p, rem' p = openAt rem (e + 1) n v p) (q' r p : ℕ) :
    holds occ (Function.update (openAt run (e + 1) n true) e false)
      (openAt phys (e + 1) n true) rem' q' r p =
      openAt (holds occ run phys rem q' r) (e + 1) n (decide (q' = q ∧ v = r)) p := by
  have hen := w.lt_free
  have hsel := w.select
  unfold holds
  rw [hrem, w.cnt_run h]
  rcases openAt_cases (e + 1) n p with hps | rfl | ⟨p, rfl, h1, h2⟩ | ⟨h1, h2⟩
  · simp only [openAt_of_lt hps, if_pos (show p ≤ e by omega)]
  · simp only [openAt_self, if_neg (show ¬ e + 1 ≤ e by omega), if_pos (show e + 1 ≤ n by omega),
      Nat.add_sub_cancel, hsel.2]
    cases ho : occ q' with
    | false =>
      have : q' ≠ q := by
        rintro rfl
        rw [w.set] at ho
        cases ho
      simp [this]
    | true =>
      have : cnt occ q = cnt occ q' ↔ q' = q := by
        refine ⟨fun hc => ?_, fun hc => by rw [hc]⟩
        exact IsSelect.unique ⟨ho, hc.symm⟩ ⟨w.set, rfl⟩
      simp [this, and_comm]
  · simp only [openAt_succ h1 h2, if_neg (show ¬ p + 1 ≤ e by omega),
      if_pos (show p + 1 ≤ n by omega), Nat.add_sub_cancel]
  · simp only [openAt_of_gt (show e + 1 ≤ n from hen) h2, if_neg (show ¬ p ≤ e by omega),
      if_neg (show ¬ p ≤ n by omega)]

end Extension

/-! ## One slot less for a run -/

/-- A slot `i` of the run of `q` with the end `e`. -/
structure InRun (occ run phys : Bits) (q e i : ℕ) : Prop where
  set : occ q = true
  select : IsSelect run (cnt occ q) e
  le : i ≤ e
  used : phys i = true
  same : cnt run i = cnt run e

namespace InRun

variable (h : Laid ns occ run phys) (w : InRun occ run phys q e i)
include h w

/-- From the slot on, the slots up to the end belong to the run. -/
lemma range (hip : i ≤ p) (hpe : p ≤ e) : phys p = true ∧ cnt run p = cnt occ q := by
  have h1 := cnt_mono (b := run) hip
  have h2 := cnt_mono (b := run) hpe
  have := w.same
  have := w.select.2
  exact ⟨h.phys_of_le w.used hip (by omega), by omega⟩

/-- Which slots hold a fingerprint once the run is shorter, as long as the number of a range is what
it was. -/
lemma holds_closed {occ' run' : Bits} (hrem : ∀ p, rem' p = closeAt rem i e 0 p)
    (hin : ∀ p < e,
      phys p = true →
      (occ' q' = true ∧ cnt run' p = cnt occ' q' ↔ occ q' = true ∧ cnt run p = cnt occ q'))
    (hout : ∀ p,
      e < p → (occ' q' = true ∧ cnt run' p = cnt occ' q' ↔ occ q' = true ∧ cnt run p = cnt occ q'))
        (r p : ℕ) :
    holds occ' run' (Function.update phys e false) rem' q' r p =
      closeAt (holds occ run phys rem q' r) i e false p := by
  have hie := w.le
  have hiff :
    ∀ {x y : ℕ},
      (occ' q' = true ∧ cnt run' x = cnt occ' q' ↔ occ q' = true ∧ cnt run y = cnt occ q') →
      (occ' q' && decide (cnt run' x = cnt occ' q')) =
      (occ q' && decide (cnt run y = cnt occ q')) := by
    intro x y hxy
    rw [Bool.eq_iff_iff]
    simpa using hxy
  have hsplit : ∀ (o p rm c : Bool), (o && p && rm && c) = (p && rm && (o && c)) := by decide
  rcases Nat.lt_trichotomy p e with hpe | rfl | hpe
  · by_cases hpi : p < i
    · rw [closeAt, if_pos hpi]
      unfold holds
      rw [hrem, closeAt, if_pos hpi, Function.update_of_ne hpe.ne, hsplit, hsplit]
      cases hp : phys p with
      | false => simp
      | true => rw [hiff (hin p hpe hp)]
    · rw [closeAt, if_neg hpi, if_pos hpe]
      unfold holds
      obtain ⟨hp, hc⟩ := w.range h (not_lt.mp hpi) hpe.le
      obtain ⟨hp1, hc1⟩ := w.range h (by omega : i ≤ p + 1) hpe
      rw [hrem, closeAt, if_neg hpi, if_pos hpe, Function.update_of_ne hpe.ne, hp, hp1,
        hsplit, hsplit, hiff (hin p hpe hp), hc, hc1]
  · simp [closeAt, not_lt.mpr hie, holds]
  · rw [closeAt, if_neg (by omega), if_neg (by omega), if_neg (by omega)]
    unfold holds
    rw [hrem, closeAt, if_neg (by omega), if_neg (by omega), if_neg (by omega),
      Function.update_of_ne hpe.ne', hsplit, hsplit, hiff (hout p hpe)]

omit h in
/-- The number of run ends before a slot when the end of the run moves down by one. -/
lemma cnt_run_shrink (he : 0 < e) (hlast : run (e - 1) = false) :
    cnt (Function.update (Function.update run e false) (e - 1) true) p =
      if p = e then cnt run e + 1 else cnt run p := by
  have h1 := cnt_set (b := Function.update run e false) (q := e - 1)
    (by rwa [Function.update_of_ne (show e - 1 ≠ e by omega)]) p
  have h2 := cnt_clear w.select.1 p
  split_ifs with hp
  · subst hp
    rw [if_pos (by omega)] at h1
    rw [if_neg (by omega)] at h2
    omega
  · by_cases hpe : e < p
    · rw [if_pos (by omega)] at h1 h2
      omega
    · rw [if_neg (by omega)] at h1 h2
      omega

/-- The layout when the run gets one slot less. -/
lemma laid_shrink (he : 0 < e) (hphys : phys (e - 1) = true) (hlast : run (e - 1) = false) :
    Laid ns occ (Function.update (Function.update run e false) (e - 1) true)
      (Function.update phys e false) := by
  have hens := h.end_lt w.select
  refine ⟨h.occ_lt, fun p hp => ?_, ?_, fun p hp => ?_, fun p hp => ?_, fun p hp hr => ?_⟩
  · by_cases hpe : p = e
    · omega
    · rw [Function.update_of_ne hpe] at hp
      exact h.phys_lt p hp
  · rw [w.cnt_run_shrink he hlast, if_neg (by omega), h.total]
  · by_cases hp1 : p = e - 1
    · rw [hp1, Function.update_of_ne (by omega)]
      exact hphys
    · rw [Function.update_of_ne hp1] at hp
      by_cases hpe : p = e
      · rw [hpe, Function.update_self] at hp
        cases hp
      · rw [Function.update_of_ne hpe] at hp ⊢
        exact h.run_phys p hp
  · by_cases hpe : p = e
    · rw [hpe, Function.update_self] at hp
      cases hp
    · rw [Function.update_of_ne hpe] at hp
      rw [w.cnt_run_shrink he hlast, if_neg hpe]
      exact h.behind p hp
  · by_cases hpe : p = e
    · rw [hpe, Function.update_self] at hp
      cases hp
    · by_cases hp1 : p = e - 1
      · rw [hp1, Function.update_self] at hr
        cases hr
      · rw [Function.update_of_ne hpe] at hp
        rw [Function.update_of_ne hp1, Function.update_of_ne hpe] at hr
        rw [Function.update_of_ne (by omega)]
        exact h.joined p hp hr

/-- The layout when the run goes with its last slot. -/
lemma laid_drop (hlast : ∀ p < e, phys p = true → cnt run p < cnt run e) :
    Laid ns (Function.update occ q false) (Function.update run e false)
      (Function.update phys e false) := by
  have hens := h.end_lt w.select
  have hqe := h.le_end w.select
  have hr : ∀ p,
      cnt (Function.update run e false) p + (if e < p then 1 else 0) = cnt run p :=
        cnt_clear w.select.1
  have ho : ∀ p,
      cnt (Function.update occ q false) p + (if q < p then 1 else 0) = cnt occ p := cnt_clear w.set
  have hk := w.select.2
  refine ⟨fun p hp => ?_, fun p hp => ?_, ?_, fun p hp => ?_, fun p hp => ?_, fun p hp hrp => ?_⟩
  · by_cases hpq : p = q
    · rw [hpq, Function.update_self] at hp
      cases hp
    · rw [Function.update_of_ne hpq] at hp
      exact h.occ_lt p hp
  · by_cases hpe : p = e
    · omega
    · rw [Function.update_of_ne hpe] at hp
      exact h.phys_lt p hp
  · have h1 := hr ns
    have h2 := ho ns
    have := h.total
    rw [if_pos (by omega)] at h1 h2
    omega
  · by_cases hpe : p = e
    · rw [hpe, Function.update_self] at hp
      cases hp
    · rw [Function.update_of_ne hpe] at hp ⊢
      exact h.run_phys p hp
  · by_cases hpe : p = e
    · rw [hpe, Function.update_self] at hp
      cases hp
    rw [Function.update_of_ne hpe] at hp
    have h1 := hr p
    have h2 := ho (p + 1)
    have h3 := h.behind p hp
    by_cases hlt : e < p
    · rw [if_pos hlt] at h1
      rw [if_pos (by omega)] at h2
      omega
    · rw [if_neg hlt] at h1
      have h4 := hlast p (by omega) hp
      by_cases hqp : q ≤ p
      · have h5 := cnt_lt_of_set w.set (show q < p + 1 by omega)
        rw [if_pos (by omega)] at h2
        omega
      · rw [if_neg (by omega)] at h2
        omega
  · by_cases hpe : p = e
    · rw [hpe, Function.update_self] at hp
      cases hp
    · rw [Function.update_of_ne hpe] at hp hrp
      by_cases hp1 : p + 1 = e
      · -- the data before the dropped slot belongs to the range before
        have h4 := hlast p (by omega) hp
        rw [← hp1, cnt_succ_of_clear hrp] at h4
        omega
      · rw [Function.update_of_ne hp1]
        exact h.joined p hp hrp

/-- The shorter run has lost the fingerprint in its slot `i`. -/
lemma holds_shrink (he : 0 < e) (hlast : run (e - 1) = false)
    (hrem : ∀ p, rem' p = closeAt rem i e 0 p) (r p : ℕ) :
    holds occ (Function.update (Function.update run e false) (e - 1) true)
      (Function.update phys e false) rem' q' r p =
      closeAt (holds occ run phys rem q' r) i e false p := by
  refine w.holds_closed h hrem (fun p hp _ => ?_) (fun p hp => ?_) r p
  · rw [w.cnt_run_shrink he hlast, if_neg (by omega)]
  · rw [w.cnt_run_shrink he hlast, if_neg (by omega)]

/-- The dropped run has lost its fingerprint; the others hold what they held. -/
lemma holds_drop (hlast : ∀ p < e, phys p = true → cnt run p < cnt run e)
    (hrem : ∀ p, rem' p = closeAt rem i e 0 p) (r p : ℕ) :
    holds (Function.update occ q false) (Function.update run e false)
      (Function.update phys e false) rem' q' r p =
      closeAt (holds occ run phys rem q' r) i e false p := by
  have hr : ∀ p,
      cnt (Function.update run e false) p + (if e < p then 1 else 0) = cnt run p :=
        cnt_clear w.select.1
  have ho : ∀ p,
      cnt (Function.update occ q false) p + (if q < p then 1 else 0) = cnt occ p := cnt_clear w.set
  have hk := w.select.2
  refine w.holds_closed h hrem (fun p hp hphys => ?_) (fun p hp => ?_) r p
  · have h1 := hr p
    have h2 := ho q'
    have h3 := hlast p hp hphys
    rw [if_neg (by omega), Nat.add_zero] at h1
    rw [h1]
    by_cases hqq : q' = q
    · subst hqq
      rw [Function.update_self]
      exact ⟨nofun, fun hc => by omega⟩
    · rw [Function.update_of_ne hqq]
      refine and_congr_right fun hq' => ?_
      by_cases hlt : q < q'
      · have := cnt_lt_of_set w.set hlt
        rw [if_pos hlt] at h2
        omega
      · rw [if_neg hlt] at h2
        omega
  · have h1 := hr p
    have h2 := ho q'
    have h3 := cnt_lt_of_set w.select.1 hp
    rw [if_pos hp] at h1
    by_cases hqq : q' = q
    · subst hqq
      rw [Function.update_self]
      exact ⟨nofun, fun hc => by omega⟩
    · rw [Function.update_of_ne hqq]
      refine and_congr_right fun hq' => ?_
      by_cases hlt : q < q'
      · have := cnt_lt_of_set w.set hlt
        rw [if_pos hlt] at h2
        omega
      · have := cnt_lt_of_set hq' (show q' < q by omega)
        rw [if_neg hlt] at h2
        omega

end InRun

end Draugr.Rsqf
