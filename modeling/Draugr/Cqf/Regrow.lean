import Draugr.Cqf.Filled

/-!
# Resizing with a replay that grows

When an insertion of a replay is refused, `cqf_filter_resize` calls itself for twice the slots and
goes on with what it gets. `Grows` is the condition under which this keeps every fingerprint: none
has more bits than the filter that it is put into, and every run on the way can be read back. It is
about the list of the fingerprints only. The filters of the theorem are those that insertions built
(`Built`), also with a hash seed, which a caller may set: a new filter has none.
-/

namespace Draugr.Cqf
open Draugr.Lib Draugr.Qf CqfFilter Bag

variable {rbits k n q rem : ℕ} {fp : UInt64} {fps pre : List UInt64} {cf cf₀ cur out : CqfFilter}

/-! ## Replays that double the filter -/

/-- The number of slots after fingerprints were put one after the other into a filter that has `n`
slots and holds `pre`. It is doubled for each one that it refuses. -/
def grownSlots (rbits : ℕ) : ℕ → List UInt64 → List UInt64 → ℕ
  | n, _, [] => n
  | n, pre, fp :: fps =>
    grownSlots rbits (if Fitting rbits n (bagOf rbits (pre ++ [fp])) then n else n * 2)
      (pre ++ [fp]) fps

/-- A filter that has `n` slots and holds `pre` takes the fingerprints one after the other: none has
more bits than the filter that it is put into, and every run can be read back, also when a refusal
doubles the slots and what is there is put into the new filter in increasing order. A filter whose
quotients have no room for a further bit is not doubled. -/
def Grows (rbits : ℕ) : ℕ → List UInt64 → List UInt64 → Prop
  | _, _, [] => True
  | n, pre, fp :: fps =>
    fp.toNat < n * 2 ^ rbits ∧ Readable rbits (bagOf rbits (pre ++ [fp]) (fp.toNat / 2 ^ rbits)) ∧
      if Fitting rbits n (bagOf rbits (pre ++ [fp])) then Grows rbits n (pre ++ [fp]) fps
      else n * 2 * 2 ^ rbits ≤ 2 ^ 64 → n * 2 ≤ 2 ^ 59 ∧ Reads rbits (sorted pre) ∧
        Grows rbits (n * 2) (pre ++ [fp]) fps

instance Grows.decide (rbits : ℕ) : ∀ n pre fps, Decidable (Grows rbits n pre fps)
  | _, _, [] => isTrue trivial
  | n, pre, fp :: fps =>
    have := Grows.decide rbits n (pre ++ [fp]) fps
    have := Grows.decide rbits (n * 2) (pre ++ [fp]) fps
    inferInstanceAs (Decidable (_ ∧ _ ∧ if Fitting _ _ _ then _ else _ → _ ∧ _ ∧ _))

/-- The number of slots stays or is doubled. -/
lemma dvd_grownSlots (rbits : ℕ) : ∀ (n : ℕ) (pre fps : List UInt64), n ∣ grownSlots rbits n pre fps
  | _, _, [] => dvd_rfl
  | n, pre, fp :: fps => by
    rw [grownSlots]
    refine dvd_trans ?_ (dvd_grownSlots rbits ..)
    split_ifs
    · exact dvd_rfl
    · exact Nat.dvd_mul_right n 2

/-- A filter with twice as many slots is created, if there is memory and room for the bits. -/
lemma Filled.create (h : Filled cur k rbits pre) (malloc : Bool) :
    ∃ o, cqfFilterCreate malloc (cur.numSlots * 2 % 2 ^ 64) rbits = some o ∧
      ∀ new, o = some new → 2 ^ k * 2 * 2 ^ rbits ≤ 2 ^ 64 ∧ Fresh new (k + 1) rbits := by
  have hk := h.lt_bits
  have h64 := h.le_slots
  have hpow : cur.numSlots * 2 % 2 ^ 64 = 2 ^ (k + 1) := by
    rw [h.numSlots, ← Nat.pow_succ]
    exact Nat.mod_eq_of_lt (Nat.pow_lt_pow_right Nat.one_lt_two (by omega))
  have hq : quotientBits (2 ^ (k + 1)) = k + 1 :=
    quotientBits_pow (h64.trans (Nat.pow_le_pow_right Nat.two_pos (Nat.le_succ k)))
  obtain ⟨o, he, hnone, hsome⟩ := create_eq malloc rbits
    (Nat.two_pow_pos (k + 1)).ne' (Nat.pow_le_pow_right Nat.two_pos (by omega))
  rw [hq, clampBits_width h.width] at hnone hsome
  refine ⟨o, hpow ▸ he, fun new hnew => ⟨?_, hsome new hnew⟩⟩
  rw [← Nat.pow_succ, ← Nat.pow_add]
  refine Nat.pow_le_pow_right Nat.two_pos ?_
  by_contra hlt
  rw [hnone.mpr (.inl (by omega))] at hnew
  cases hnew

/-- The fingerprints of a filter go into one with twice as many slots. -/
lemma Filled.resize_double (h : Filled cur k rbits pre) (hne : pre ≠ []) (hk : 2 ^ k * 2 ≤ 2 ^ 59)
    (hread : Reads rbits (sorted pre)) (malloc : ℕ → Bool) (fuel calls : ℕ) :
    ∃ r, resizeLoop malloc (fuel + 1) cur (cur.numSlots * 2 % 2 ^ 64) calls = some r ∧
      ∀ new, r.out = some new → Filled new (k + 1) rbits pre ∧ new.hashSeed = 0 := by
  have hpairs : (enumeratePairs cur).length ≠ 0 := by
    intro h0
    obtain ⟨fp, hfp⟩ := List.exists_mem_of_ne_nil pre hne
    have hmem := h.mem_enumerate.mpr ⟨List.count_pos_iff.mpr hfp, rfl⟩
    rw [List.length_eq_zero_iff.mp h0] at hmem
    cases hmem
  have hpos : 0 < cur.numSlots * 2 % 2 ^ 64 := by
    have := h.le_slots
    rw [h.numSlots]
    omega
  obtain ⟨o, he, hsome⟩ := h.create (malloc (calls + 2))
  rw [resizeLoop]
  dsimp only
  rw [if_neg hpairs, if_pos hpos, h.remainderBits]
  split_ifs
  · exact ⟨_, rfl, fun new hnew => by cases hnew⟩
  · rw [he, Option.bind_some]
    cases o with
    | none => exact ⟨_, rfl, fun new hnew => by cases hnew⟩
    | some out₀ =>
      obtain ⟨hbits, hf⟩ := hsome out₀ rfl
      have hperm : (sorted pre).Perm pre := List.mergeSort_perm ..
      have hbelow : ∀ fp ∈ sorted pre, fp.toNat < 2 ^ k * 2 ^ rbits :=
        fun fp hfp => h.below fp (hperm.mem_iff.mp hfp)
      have hle : 2 ^ k ≤ 2 ^ (k + 1) := Nat.pow_le_pow_right Nat.two_pos (Nat.le_succ k)
      have hbelow' : ∀ fp ∈ sorted pre, fp.toNat < 2 ^ (k + 1) * 2 ^ rbits :=
        fun fp hfp => (hbelow fp hfp).trans_le (Nat.mul_le_mul_right _ hle)
      have hfit : Fitting rbits (2 ^ (k + 1)) (bagOf rbits (sorted pre)) := by
        have hold := (fitting_bagOf h.below).mp h.fitting
        rw [fitting_bagOf hbelow', used_eq hbelow hle, used, bagOf_perm hperm, hperm.length_eq,
          Nat.pow_succ]
        rw [used] at hold
        omega
      have hbits' : k + 1 + rbits ≤ 64 := by
        rw [← Nat.pow_succ, ← Nat.pow_add] at hbits
        exact (Nat.pow_le_pow_iff_right Nat.one_lt_two).mp hbits
      have hrep := (@Filled.replay_fit rbits (k + 1) (resizeLoop malloc fuel) (calls + 3)
        (sorted pre)) (hf.filled hbits') hread hbelow' hfit
      obtain ⟨out, hout, hfill, hseed⟩ := hrep
      dsimp only
      rw [h.occurrences_eq, hout]
      refine ⟨_, rfl, fun new hnew => ?_⟩
      obtain rfl := Option.some.inj hnew
      exact ⟨hfill.perm hperm, hseed.trans hf.hashSeed⟩
  · exact ⟨_, rfl, fun new hnew => by cases hnew⟩

/-- A filter whose quotients have no room for a further bit is not doubled. -/
lemma Filled.resize_narrow (h : Filled cur k rbits pre) (hbits : ¬ 2 ^ k * 2 * 2 ^ rbits ≤ 2 ^ 64)
    (malloc : ℕ → Bool) (fuel calls : ℕ) :
    ∃ r, resizeLoop malloc (fuel + 1) cur (cur.numSlots * 2 % 2 ^ 64) calls = some r ∧
      r.out = none := by
  have hpos : 0 < cur.numSlots * 2 % 2 ^ 64 := by
    have := h.lt_bits
    have := h.le_slots
    have := Nat.pow_le_pow_right Nat.two_pos h.lt_bits
    rw [h.numSlots]
    omega
  have hnone : ∀ m, cqfFilterCreate m (cur.numSlots * 2 % 2 ^ 64) rbits = some none := by
    intro m
    obtain ⟨o, he, hsome⟩ := h.create m
    cases o with
    | none => exact he
    | some new => exact absurd (hsome new rfl).1 hbits
  rw [resizeLoop]
  dsimp only
  rw [if_pos hpos, h.remainderBits]
  split_ifs
  · rw [hnone]
    exact ⟨_, rfl, rfl⟩
  · exact ⟨_, rfl, rfl⟩
  · rw [hnone]
    exact ⟨_, rfl, rfl⟩
  · exact ⟨_, rfl, rfl⟩

/-- A replay into a filter that is doubled for each fingerprint that it refuses. -/
lemma Filled.replay_grows (malloc : ℕ → Bool) (fuel : ℕ) :
    ∀ {fps pre : List UInt64} {cur : CqfFilter} {k : ℕ} (calls : ℕ), Filled cur k rbits pre →
    Grows rbits (2 ^ k) pre fps →
    ∃ o calls', replay (resizeLoop malloc (fuel + 1)) fps cur calls = some (o, calls') ∧
      ∀ out, o = some out → (∃ k', Filled out k' rbits (pre ++ fps)) ∧
        out.numSlots = grownSlots rbits (2 ^ k) pre fps ∧
        (cur.hashSeed = 0 → out.hashSeed = 0)
  | [], pre, cur, k, calls, h, _ => by
    refine ⟨some cur, calls, rfl, fun out hout => ?_⟩
    obtain rfl := Option.some.inj hout
    exact ⟨⟨k, by rwa [List.append_nil]⟩, h.numSlots, id⟩
  | fp :: fps, pre, cur, k, calls, h, hgrow => by
    have happ : pre ++ fp :: fps = pre ++ [fp] ++ fps := by rw [List.append_assoc]; rfl
    obtain ⟨hfp, hread, hgrow⟩ := hgrow
    rw [replay, grownSlots, happ]
    rcases h.insert hfp hread with ⟨hfit, cur', hins, h', hseed⟩ | ⟨hno, e, he, hins⟩
    · rw [if_pos hfit] at hgrow
      rw [hins, if_pos hfit]
      obtain ⟨o, calls', hrep, hall⟩ := h'.replay_grows malloc fuel calls hgrow
      refine ⟨o, calls', hrep, fun out hout => ?_⟩
      obtain ⟨hfill, hslots, hseed'⟩ := hall out hout
      exact ⟨hfill, hslots, fun h0 => hseed' (hseed.trans h0)⟩
    · rw [if_neg hno] at hgrow
      rw [hins, if_neg hno]
      dsimp only
      rw [if_neg he]
      by_cases hbits : 2 ^ k * 2 * 2 ^ rbits ≤ 2 ^ 64
      · obtain ⟨hk, hsorted, hgrow⟩ := hgrow hbits
        have hfit := h.fitting_double hfp hread hk
        have hne : pre ≠ [] := by
          rintro rfl
          exact hno (h.fitting_one hfp hread hk)
        obtain ⟨r, hres, hout⟩ := h.resize_double hne hk hsorted malloc fuel calls
        rw [hres, Option.bind_some]
        cases hro : r.out with
        | none => exact ⟨none, r.calls, rfl, fun out hout => by cases hout⟩
        | some new =>
          obtain ⟨hnew, hseed⟩ := hout new hro
          have hle : 2 ^ k ≤ 2 ^ (k + 1) := Nat.pow_le_pow_right Nat.two_pos (Nat.le_succ k)
          have hfp' : fp.toNat < 2 ^ (k + 1) * 2 ^ rbits :=
            hfp.trans_le (Nat.mul_le_mul_right _ hle)
          rcases hnew.insert hfp' hread with ⟨-, new', hins', h', hseed'⟩ | ⟨hno', -⟩
          · dsimp only
            rw [hins', ← Nat.pow_succ]
            rw [← Nat.pow_succ] at hgrow
            obtain ⟨o, calls', hrep, hall⟩ := h'.replay_grows malloc fuel r.calls hgrow
            refine ⟨o, calls', hrep, fun out hout => ?_⟩
            obtain ⟨hfill, hslots, hseed''⟩ := hall out hout
            exact ⟨hfill, hslots, fun _ => hseed'' (hseed'.trans hseed)⟩
          · exact absurd hfit hno'
      · obtain ⟨r, hres, hout⟩ := h.resize_narrow hbits malloc fuel calls
        rw [hres, Option.bind_some, hout]
        exact ⟨none, r.calls, rfl, fun out hout => by cases hout⟩

/-! ## Filters built by insertions -/

/-- The filter with a hash seed. -/
def CqfFilter.seeded (cf : CqfFilter) (seed : ℕ) : CqfFilter := { cf with hashSeed := seed }

/-- Insertions built the filter from a new one with some hash seed, and no insertion left a run that
cannot be read back. -/
def Built (cf : CqfFilter) : Prop :=
  ∃ malloc capacity fpBits cf₀ seed, ∃ fps : List UInt64,
    cqfFilterCreate malloc capacity fpBits = some (some cf₀) ∧
    Always cqfStep (Sound (cf₀.seeded seed)) (cf₀.seeded seed) [] (fps.map CountOp.insert) ∧
    (Lib.countRun cqfStep (cf₀.seeded seed) (fps.map CountOp.insert)).2 = cf

/-- The hash seed has nothing to do with the contents. -/
lemma Rep.seeded {c : ℕ → List (ℕ × ℕ)} (h : Rep cf c) (seed : ℕ) : Rep (cf.seeded seed) c where
  holds :=
    { slots := h.holds.slots
      power := h.holds.power
      width := h.holds.width
      narrow := h.holds.narrow
      lt := h.holds.lt
      occ := h.holds.occ
      tbl := h.holds.tbl
      run := h.holds.run
      phys := h.holds.phys
      rest := h.holds.rest
      room := h.holds.room
      occSums := h.holds.occSums
      runSums := h.holds.runSums }
  readable := h.readable
  count := h.count

/-- Insertions are no deletions of absent fingerprints. -/
lemma always_insert : ∀ (fps : List UInt64) (cf : CqfFilter) (evs : List (CountEvent UInt64)),
    Always cqfStep (fun _ evs op => OfPresent cf₀ evs op) cf evs (fps.map CountOp.insert)
  | [], _, _ => trivial
  | _ :: fps, _, _ => ⟨trivial, always_insert fps _ _⟩

/-- The contents of a filter are the occurrences of its pairs. -/
lemma Rep.eq_bagOf {c : ℕ → List (ℕ × ℕ)} (h : Rep cf c) (hs : Sized cf k) :
    c = bagOf cf.remainderBits (occurrences (enumeratePairs cf)) := by
  have hsorted := h.enumerate_sorted hs
  funext q
  have hpos : ∀ p ∈ c q, 0 < p.2 := fun p hp => ((h.readable q).fits p hp).pos
  refine (h.readable q).ordered.ext (ordered_bagOf ..).1 hpos (ordered_bagOf ..).2 fun rem => ?_
  by_cases hin : q < cf.numSlots ∧ rem < 2 ^ cf.remainderBits
  · have hfp := fingerprintOf_toNat (hs.numSlots ▸ hin.1) hin.2 hs.bits
    obtain ⟨hq, hrem⟩ := hs.split hin.1 hin.2
    have hdiv : (fingerprintOf cf.remainderBits q rem).toNat / 2 ^ cf.remainderBits = q ∧
        (fingerprintOf cf.remainderBits q rem).toNat % 2 ^ cf.remainderBits = rem := by
      rw [hfp, Nat.mul_comm, Nat.mul_add_div (Nat.two_pow_pos _), Nat.div_eq_of_lt hin.2,
        Nat.mul_add_mod, Nat.mod_eq_of_lt hin.2]
      exact ⟨rfl, rfl⟩
    have hcount := mult_bagOf_self cf.remainderBits (occurrences (enumeratePairs cf))
      (fingerprintOf cf.remainderBits q rem)
    rw [hdiv.1, hdiv.2] at hcount
    rw [hcount]
    have hlt : (fingerprintOf cf.remainderBits q rem).toNat < cf.numSlots * 2 ^ cf.remainderBits :=
      (Nat.div_lt_iff_lt_mul (Nat.two_pow_pos _)).mp (hdiv.1.symm ▸ hin.1)
    refine (count_occurrences_eq hsorted fun n => ?_).symm
    rw [h.mem_enumerate hs, hq, hrem, and_iff_right hlt]
  · -- no fingerprint has such a quotient or remainder
    have hzero : mult rem (c q) = 0 := by
      by_contra hne
      have hpair : (rem, mult rem (c q)) ∈ c q :=
        (mem_iff_mult (h.readable q).ordered hpos).mpr ⟨Nat.pos_of_ne_zero hne, rfl⟩
      refine hin ⟨?_, ((h.readable q).fits _ hpair).lt⟩
      exact h.holds.lt q (h.ne_nil_iff.mpr (List.ne_nil_of_mem hpair))
    rw [hzero, mult_bagOf, eq_comm, List.countP_eq_zero]
    intro fp hfp hdec
    obtain ⟨hq, hrem⟩ := of_decide_eq_true hdec
    have hlt := h.lt_of_mem hs hfp
    refine hin ⟨hq ▸ Nat.div_lt_of_lt_mul (by rwa [Nat.mul_comm]), ?_⟩
    rw [← hrem]
    exact Nat.mod_lt _ (Nat.two_pow_pos _)

/-- What is known of a filter that was built by insertions. -/
lemma Built.rep (h : Built cf) :
    Rep cf (bagOf cf.remainderBits (occurrences (enumeratePairs cf))) ∧ ∃ k, Sized cf k := by
  obtain ⟨malloc, capacity, fpBits, cf₀, seed, fps, hc, hsound, rfl⟩ := h
  obtain ⟨hf, -, -, hbits⟩ := create_eq_some hc
  have hstart : Accounted (cf₀.seeded seed) (cf₀.seeded seed) [] :=
    ⟨.refl _, hf.rep.seeded seed, fun _ => rfl, congrArg (· + 0) hf.count, fun _ h => by cases h⟩
  have hacc := Always.run (I := Accounted (cf₀.seeded seed))
    (fun _ _ op h hop => h.call op hop.1 hop.2) _ _ [] hstart
    ((always_insert fps _ []).and hsound)
  have hs₀ : Sized (cf₀.seeded seed) (quotientBits capacity) := by
    refine ⟨hf.numSlots, ?_⟩
    change quotientBits capacity + cf₀.remainderBits ≤ 64
    rw [hf.remainderBits]
    exact hbits
  have hs := hs₀.alike hacc.alike
  exact ⟨hacc.rep.eq_bagOf hs ▸ hacc.rep, _, hs⟩

/-! ## Resizing -/

end Draugr.Cqf
