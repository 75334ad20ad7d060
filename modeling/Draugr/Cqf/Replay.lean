import Draugr.Cqf.Enumerate

/-!
# Resizing and merging

`cqf_filter_resize` and `cqf_filter_merge` enumerate the pairs of their filters and insert every
occurrence into a new one. `Replays` is the condition under which no insertion is refused and no run
becomes unreadable on the way: it is about the contents only, for every number of occurrences that
are in already.

A fingerprint is split anew by the filter that it goes to. It comes back from there if it fits the
bits that the new quotients and the remainders have together, and a smaller filter may not have
them.
-/

namespace Draugr.Cqf
open Draugr.Lib Draugr.Qf CqfFilter Bag

variable {c : ℕ → List (ℕ × ℕ)} {cf cf₀ cur out : CqfFilter} {k n : ℕ} {fp : UInt64}
  {pairs pairs' : List (UInt64 × ℕ)} {fps pre : List UInt64}
  {resize : CqfFilter → ℕ → ℕ → Option Resized}

/-! ## Occurrences -/

/-- The occurrences of the first pair come first. -/
lemma occurrences_cons (p : UInt64 × ℕ) (pairs : List (UInt64 × ℕ)) :
    occurrences (p :: pairs) = List.replicate p.2 p.1 ++ occurrences pairs := rfl

/-- The occurrences of a list are those of its parts. -/
lemma occurrences_append (pairs pairs' : List (UInt64 × ℕ)) :
    occurrences (pairs ++ pairs') = occurrences pairs ++ occurrences pairs' := List.flatMap_append

/-- An occurrence is of a fingerprint of the pairs. -/
lemma exists_pair_of_mem (h : fp ∈ occurrences pairs) : ∃ n, (fp, n) ∈ pairs := by
  obtain ⟨⟨x, n⟩, hp, hm⟩ := List.mem_flatMap.mp h
  obtain rfl := (List.mem_replicate.mp hm).2
  exact ⟨n, hp⟩

/-- The occurrences of a fingerprint of the pairs. -/
lemma count_occurrences (hs : pairs.Pairwise fun p p' => p.1.toNat < p'.1.toNat)
    (hp : (fp, n) ∈ pairs) :
    (occurrences pairs).count fp = n := by
  induction pairs with
  | nil => cases hp
  | cons p pairs ih =>
    obtain ⟨hlt, hs⟩ := List.pairwise_cons.mp hs
    rw [occurrences_cons, List.count_append, List.count_replicate]
    rcases List.mem_cons.mp hp with rfl | hp
    · have hno : fp ∉ occurrences pairs := by
        intro hmem
        obtain ⟨m, hm⟩ := exists_pair_of_mem hmem
        exact absurd (hlt _ hm) (lt_irrefl _)
      rw [List.count_eq_zero_of_not_mem hno, if_pos (beq_self_eq_true fp), Nat.add_zero]
    · have hne : p.1 ≠ fp := by
        intro he
        have := hlt _ hp
        rw [he] at this
        exact absurd this (lt_irrefl _)
      rw [if_neg (by simpa using hne), Nat.zero_add, ih hs hp]

/-- The number of occurrences of a fingerprint when it is known which pairs it has. -/
lemma count_occurrences_eq {m : ℕ} (hs : pairs.Pairwise fun p p' => p.1.toNat < p'.1.toNat)
    (hmem : ∀ n, (fp, n) ∈ pairs ↔ 0 < n ∧ m = n) : (occurrences pairs).count fp = m := by
  rcases Nat.eq_zero_or_pos m with h0 | hpos
  · rw [h0, List.count_eq_zero]
    intro hin
    obtain ⟨n, hn⟩ := exists_pair_of_mem hin
    obtain ⟨h1, h2⟩ := (hmem n).mp hn
    omega
  · exact count_occurrences hs ((hmem m).mpr ⟨hpos, rfl⟩)

/-- Pairs in increasing order are given by their members. -/
lemma pairs_ext (hs : pairs.Pairwise fun p p' => p.1.toNat < p'.1.toNat)
    (hs' : pairs'.Pairwise fun p p' => p.1.toNat < p'.1.toNat)
    (h : ∀ p, p ∈ pairs ↔ p ∈ pairs') : pairs = pairs' := by
  have : Std.Irrefl fun p p' : UInt64 × ℕ => p.1.toNat < p'.1.toNat := ⟨fun p => lt_irrefl _⟩
  have : Std.Antisymm fun p p' : UInt64 × ℕ => p.1.toNat < p'.1.toNat :=
    ⟨fun p p' h1 h2 => absurd (h1.trans h2) (lt_irrefl _)⟩
  exact hs.eq_of_mem_iff hs' h

/-- The fingerprints with their numbers of occurrences are the pairs. -/
lemma mem_iff_count (hs : pairs.Pairwise fun p p' => p.1.toNat < p'.1.toNat)
    (hpos : ∀ p ∈ pairs, 0 < p.2) :
    (fp, n) ∈ pairs ↔ 0 < n ∧ (occurrences pairs).count fp = n := by
  constructor
  · exact fun hp => ⟨hpos _ hp, count_occurrences hs hp⟩
  · rintro ⟨hn, rfl⟩
    obtain ⟨m, hm⟩ := exists_pair_of_mem (List.count_pos_iff.mp hn)
    rw [count_occurrences hs hm]
    exact hm

/-! ## The replay -/

/-- Successful insertions. -/
def entered (fps : List UInt64) : List (CountEvent UInt64) := fps.map fun fp => ⟨.insert fp, true⟩

/-- From nothing up to all hashes `fps`, the contents fit the filter and its runs can be read
back. -/
def Replays (cf₀ : CqfFilter) (fps : List UInt64) : Prop :=
  ∀ n ≤ fps.length, Fitting cf₀.remainderBits cf₀.numSlots (contents cf₀ (entered (fps.take n))) ∧
    ∀ q, Readable cf₀.remainderBits (contents cf₀ (entered (fps.take n)) q)

/-- Only the quotients of the hashes need to be looked at. -/
lemma replays_iff : Replays cf₀ fps ↔
    ∀ n ≤ fps.length, Fitting cf₀.remainderBits cf₀.numSlots (contents cf₀ (entered (fps.take n))) ∧
      ∀ q ∈ fps.map cf₀.quotient,
      Readable cf₀.remainderBits (contents cf₀ (entered (fps.take n)) q) := by
  refine forall_congr' fun n => imp_congr_right fun _ => and_congr_right fun _ =>
    ⟨fun h q _ => h q, fun h q => ?_⟩
  by_cases hq : q ∈ fps.map cf₀.quotient
  · exact h q hq
  · rw [contents_eq_nil fun ev hev he => ?_]
    · exact readable_nil _
    · obtain ⟨fp, hm, rfl⟩ := List.mem_map.mp hev
      exact hq (List.mem_map.mpr ⟨fp, List.mem_of_mem_take hm, he⟩)

instance (cf₀ : CqfFilter) (fps : List UInt64) : Decidable (Replays cf₀ fps) :=
  decidable_of_iff _ replays_iff.symm

/-- Entering a list of fingerprints adds each of them. -/
lemma added_entered (p : UInt64 → Bool) (fps : List UInt64) :
    added p (entered fps) = fps.countP p := by
  induction fps with
  | nil => rfl
  | cons fp fps ih =>
    rw [show entered (fp :: fps) = [⟨.insert fp, true⟩] ++ entered fps from rfl, added_append,
      added_single_insert, ih, List.countP_cons, Bool.true_and]
    cases p fp <;> simp [Nat.add_comm]

/-- Entering a list of fingerprints removes none. -/
lemma removed_entered (p : UInt64 → Bool) (fps : List UInt64) : removed p (entered fps) = 0 := by
  induction fps with
  | nil => rfl
  | cons fp fps ih =>
    rw [show entered (fp :: fps) = [⟨.insert fp, true⟩] ++ entered fps from rfl, removed_append,
      removed_single_insert, ih]

/-- No insertion of a replay is refused. -/
lemma replay_eq (hacc : Accounted cf₀ cur (entered pre))
    (hclean : CqfFilter.Clean cur (layout cf₀.remainderBits (contents cf₀ (entered pre))))
    (hr : Replays cf₀ (pre ++ fps))
    (calls : ℕ) : ∃ out, replay resize fps cur calls = some (some out, calls) ∧
      Accounted cf₀ out (entered (pre ++ fps)) := by
  induction fps generalizing pre cur with
  | nil => exact ⟨cur, rfl, by rwa [List.append_nil]⟩
  | cons fp fps ih =>
    have happ : pre ++ fp :: fps = pre ++ [fp] ++ fps := by rw [List.append_assoc]; rfl
    have hnext :
      contents cf₀ (entered (pre ++ [fp])) = Function.update (contents cf₀ (entered pre))
        (cf₀.quotient fp)
        (add (cf₀.remainder fp) (contents cf₀ (entered pre) (cf₀.quotient fp))) := by
      rw [entered, List.map_append]
      exact contents_append ..
    obtain ⟨hfit, hread⟩ :=
      hr (pre ++ [fp]).length
      (by rw [happ, @List.length_append _ (pre ++ [fp]) fps]; exact Nat.le_add_right ..)
    rw [happ, List.take_left, hnext] at hfit hread
    have hreadq := hread (cf₀.quotient fp)
    rw [Function.update_self] at hreadq
    have hins := (@Rep.insert _ _ fp) hacc.rep
    rw [hacc.alike.quotient, hacc.alike.remainder, hacc.alike.remainderBits] at hins
    obtain ⟨e, -, -, hno⟩ | ⟨cur', he, -, -, -, hclean'⟩ := hins hreadq
    · rw [hacc.alike.numSlots, hacc.alike.remainderBits] at hno
      exact absurd hfit (hno hclean)
    · have hcall := hacc.call (.insert fp) trivial fun _ => hreadq
      rw [show cqfStep cur (.insert fp) =
        (true, cur') by rw [cqfStep, he, decide_eq_true rfl]] at hcall
      have hacc' : Accounted cf₀ cur' (entered (pre ++ [fp])) := by
        rw [entered, List.map_append]
        exact hcall
      rw [hacc.alike.remainderBits, ← hnext] at hclean'
      obtain ⟨out, hout, hend⟩ := ih hacc' (hclean' hclean) (happ ▸ hr)
      refine ⟨out, ?_, happ ▸ hend⟩
      rw [replay, he]
      exact hout

/-- The replay of some fingerprints into a new filter. -/
lemma Fresh.replay {rbits : ℕ} (resize : CqfFilter → ℕ → ℕ → Option Resized)
    (hf : Fresh cf₀ k rbits) (hr : Replays cf₀ fps) (calls : ℕ) :
    ∃ out, replay resize fps cf₀ calls = some (some out, calls) ∧
      Accounted cf₀ out (entered fps) := by
  have hacc : Accounted cf₀ cf₀ (entered []) :=
    ⟨.refl cf₀, hf.rep, fun _ => rfl, congrArg (· + 0) hf.count, fun _ h => by cases h⟩
  exact replay_eq hacc hf.clean (by rwa [List.nil_append]) calls

/-- The pairs after a replay: a fingerprint that fits is there as often as in the replay, if all of
them fit. -/
lemma Accounted.mem_replayed (h : Accounted cf₀ out (entered fps)) (hs : Sized cf₀ k)
    (hfit : ∀ fp ∈ fps, fp.toNat < cf₀.numSlots * 2 ^ cf₀.remainderBits) :
    (fp, n) ∈ enumeratePairs out ↔ 0 < n ∧ fps.count fp = n := by
  rw [h.mem_enumerate hs, added_entered, removed_entered, Nat.add_zero]
  have hcount : fp.toNat < cf₀.numSlots * 2 ^ cf₀.remainderBits →
      fps.countP (cf₀.same fp) = fps.count fp := by
    intro hfp
    rw [List.count]
    refine List.countP_congr fun fp' hfp' => ?_
    rw [hs.same_iff hfp (hfit fp' hfp'), beq_iff_eq]
  constructor
  · rintro ⟨hn, hfp, rfl⟩
    exact ⟨hn, (hcount hfp).symm⟩
  · rintro ⟨hn, rfl⟩
    have hfp := hfit fp (List.count_pos_iff.mp hn)
    exact ⟨hn, hfp, (hcount hfp).symm⟩

/-! ## Resizing -/

/-- The capacity that `cqf_filter_resize` asks for. -/
def resizeCapacity (cf : CqfFilter) (newCapacity : ℕ) : ℕ :=
  if 0 < newCapacity then newCapacity else (enumeratePairs cf).length * 2

/-- `cqf_filter_resize` case by case: an empty filter is given up in any case, another one if there
is a new one only. -/
lemma cqfFilterResize_eq (malloc : ℕ → Bool) (cf : CqfFilter) (newCapacity : ℕ) :
    cqfFilterResize malloc cf newCapacity =
      let capacity := resizeCapacity cf newCapacity
      if enumeratePairs cf = [] then
        (cqfFilterCreate (malloc 0) capacity cf.remainderBits).map fun o => ⟨o, true, 1⟩
      else if ¬ (malloc 0 ∧ malloc 1) ∨ capacity < (enumeratePairs cf).length then
        some ⟨none, false, 2⟩
      else
        (cqfFilterCreate (malloc 2) capacity cf.remainderBits).bind fun o =>
          o.elim (some ⟨none, false, 3⟩) fun out =>
            (replay (resizeLoop malloc 63) (occurrences (enumeratePairs cf)) out 3).map fun x =>
              ⟨x.1, x.1.isSome, x.2⟩ := by
  rw [cqfFilterResize, resizeLoop]
  dsimp only
  by_cases hnil : enumeratePairs cf = []
  · have hcap : resizeCapacity cf newCapacity = newCapacity := by
      unfold resizeCapacity
      split
      · rfl
      · next h => rw [hnil, List.length_nil, Nat.zero_mul, Nat.eq_zero_of_not_pos h]
    rw [if_pos hnil, if_pos (List.length_eq_zero_iff.mpr hnil), hcap]
  · rw [if_neg hnil, if_neg fun h => hnil (List.length_eq_zero_iff.mp h)]
    by_cases hm : malloc 0 = true ∧ malloc (0 + 1) = true
    · rw [if_neg (not_not.mpr hm)]
      change (if resizeCapacity cf newCapacity < _ then _ else _) = _
      by_cases hlt : resizeCapacity cf newCapacity < (enumeratePairs cf).length
      · rw [if_pos hlt, if_pos (.inr hlt)]
      · rw [if_neg hlt, if_neg (not_or.mpr ⟨not_not.mpr hm, hlt⟩)]
        refine congrArg (Option.bind _) (funext fun o => ?_)
        cases o with
        | none => rfl
        | some out =>
          refine congrArg (Option.map · _) (funext fun x => ?_)
          obtain ⟨o, calls⟩ := x
          cases o <;> rfl
    · rw [if_pos hm, if_pos (.inl hm)]

/-- An allocation of a filter that can be made. -/
lemma create_of_malloc {capacity fpBits : ℕ}
    (ho : cqfFilterCreate true capacity fpBits = some (some out)) (malloc : Bool) :
    cqfFilterCreate malloc capacity fpBits = some (if malloc then some out else none) := by
  cases malloc with
  | true => exact ho
  | false =>
    obtain ⟨-, h0, hc, hbits⟩ := create_eq_some ho
    obtain ⟨o, he, hnone, -⟩ := create_eq false fpBits (by omega) hc
    rw [he, hnone.mpr (.inr rfl)]
    rfl

/-- A width that the filter can have is not clamped. -/
lemma clampBits_width {rbits : ℕ} (h : Width rbits) : clampBits rbits = rbits := by
  have h1 := h.two_le
  have h2 := h.le
  unfold clampBits
  dsimp only
  split_ifs <;> omega

/-- The filter counts its occurrences. -/
lemma Rep.length_occurrences (h : Rep cf c) :
    (occurrences (enumeratePairs cf)).length = cf.count := by
  have hsum : ∀ n, (occurrences ((List.range n).flatMap fun q =>
      (c q).map fun p => (fingerprintOf cf.remainderBits q p.1, p.2))).length = total n c := by
    intro n
    induction n with
    | zero => rfl
    | succ n ih =>
      rw [List.range_succ, List.flatMap_append, occurrences_append, List.length_append, ih,
        total, total, Finset.sum_range_succ, List.flatMap_singleton]
      refine congrArg (_ + ·) ?_
      rw [occurrences, List.length_flatMap, List.map_map]
      simp [size, Function.comp_def]
  rw [h.enumerate, hsum, h.count]

/-- The occurrences of a filter have no more bits than its quotients and remainders. -/
lemma Rep.lt_of_mem (h : Rep cf c) (hs : Sized cf k) (hfp : fp ∈ occurrences (enumeratePairs cf)) :
    fp.toNat < cf.numSlots * 2 ^ cf.remainderBits := by
  obtain ⟨n, hn⟩ := exists_pair_of_mem hfp
  exact ((h.mem_enumerate hs).mp hn).2.1

/-- A replay of all occurrences of a filter. -/
lemma Accounted.replayed (h : Accounted cf₀ out (entered (occurrences (enumeratePairs cf))))
    (hs : Sized cf₀ k) (hrep : Rep cf c) {k' : ℕ} (hs' : Sized cf k') : out.count = cf.count ∧
      (enumeratePairs out = enumeratePairs cf ↔
      ∀ p ∈ enumeratePairs cf, p.1.toNat < cf₀.numSlots * 2 ^ cf₀.remainderBits) := by
  have hsorted := hrep.enumerate_sorted hs'
  have hpos : ∀ p ∈ enumeratePairs cf, 0 < p.2 := fun p hp => ((hrep.mem_enumerate hs').mp hp).1
  refine ⟨?_, fun he p hp => ?_, fun hfit => ?_⟩
  · have := h.count
    rw [added_entered, removed_entered, List.countP_true, hrep.length_occurrences] at this
    exact this
  · rw [← he] at hp
    exact ((h.mem_enumerate hs).mp hp).2.1
  · refine pairs_ext (h.rep.enumerate_sorted (hs.alike h.alike)) hsorted fun p => ?_
    rw [h.mem_replayed hs fun fp hfp => ?_]
    · exact (mem_iff_count hsorted hpos).symm
    · obtain ⟨n, hn⟩ := exists_pair_of_mem hfp
      exact hfit _ hn

/-- Of a filter that some run of calls left, `cqf_filter_resize` makes one with as many occurrences
that enumerates the same pairs if and only if every fingerprint fits the new quotients and
remainders, whatever the allocator does; and when it makes none, a filter that is not empty is still
there. The condition is that every run on the way can be read back and no insertion finds the new
filter full. -/
theorem resize_keeps_pairs_iff (malloc₀ : Bool) (capacity fpBits : ℕ) (cf₀ : CqfFilter)
    (hc : cqfFilterCreate malloc₀ capacity fpBits = some (some cf₀)) (ops : List (CountOp UInt64))
    (hpresent : Always cqfStep (fun _ evs op => OfPresent cf₀ evs op) cf₀ [] ops)
    (hsound : Always cqfStep (Sound cf₀) cf₀ [] ops) (malloc : ℕ → Bool) (newCapacity : ℕ)
    (out₀ : CqfFilter) :
    let cf := (Lib.countRun cqfStep cf₀ ops).2
    cqfFilterCreate true (resizeCapacity cf newCapacity) cf.remainderBits = some (some out₀) →
    Replays out₀ (occurrences (enumeratePairs cf)) →
    ∃ r, cqfFilterResize malloc cf newCapacity = some r ∧
      (∀ out, r.out = some out → out.count = cf.count ∧ (enumeratePairs out = enumeratePairs cf ↔
        ∀ p ∈ enumeratePairs cf, p.1.toNat < out₀.numSlots * 2 ^ out₀.remainderBits)) ∧
      (r.out = none → enumeratePairs cf ≠ [] → r.destroyed = false) := by
  intro cf ho hr
  obtain ⟨k, hs⟩ := sized_create hc
  have hacc : Accounted cf₀ cf _ := accounted_run hc hpresent hsound
  obtain ⟨k', hs'⟩ := sized_create ho
  obtain ⟨hf, -⟩ := create_eq_some ho
  obtain ⟨out, hout, hend⟩ := hf.replay (resizeLoop malloc 63) hr 3
  have hreplayed := hend.replayed hs' hacc.rep (hs.alike hacc.alike)
  have hkept : ∀ calls, ∃ r, some (⟨none, false, calls⟩ : Resized) = some r ∧
      (∀ out, r.out = some out → out.count = cf.count ∧ (enumeratePairs out = enumeratePairs cf ↔
        ∀ p ∈ enumeratePairs cf, p.1.toNat < out₀.numSlots * 2 ^ out₀.remainderBits)) ∧
      (r.out = none → enumeratePairs cf ≠ [] → r.destroyed = false) :=
    fun calls => ⟨_, rfl, fun out h => (by cases h), fun _ _ => rfl⟩
  have hcreate := create_of_malloc ho
  rw [cqfFilterResize_eq]
  dsimp only
  rw [hcreate, hcreate]
  by_cases hnil : enumeratePairs cf = []
  · rw [if_pos hnil]
    refine ⟨_, rfl, fun out' h => ?_, fun _ hne => absurd hnil hne⟩
    have hout' : out' = out₀ := by
      change (if malloc 0 = true then some out₀ else none) = some out' at h
      split at h
      · exact (Option.some.inj h).symm
      · cases h
    -- nothing is replayed
    have hsame : out = out₀ := by
      rw [hnil] at hout
      exact (Option.some.inj (congrArg Prod.fst (Option.some.inj hout))).symm
    rw [hsame] at hreplayed
    rw [hout']
    exact hreplayed
  · rw [if_neg hnil]
    split
    · exact hkept _
    cases malloc 2 with
    | false => exact hkept _
    | true =>
      rw [if_pos rfl, Option.bind_some, Option.elim_some, hout]
      exact ⟨_, rfl, fun out' h => Option.some.inj h ▸ hreplayed, fun h => by cases h⟩

/-- Calls that leave the fingerprint `259` three times and two other ones once. -/
def someOps : List (CountOp UInt64) :=
  [.insert 3, .insert 5, .delete 5, .insert 259, .insert 259, .insert 259, .insert 259, .delete 259,
    .insert 700]

/-- A filter of 64 slots with three fingerprints gets 128 slots. -/
theorem resize_keeps_pairs_iff_three : ∃ cf₀ r out, cqfFilterCreate true 64 8 = some (some cf₀) ∧
    enumeratePairs (Lib.countRun cqfStep cf₀ someOps).2 = [(3, 1), (259, 3), (700, 1)] ∧
    cqfFilterResize (fun _ => true) (Lib.countRun cqfStep cf₀ someOps).2 128 = some r ∧
    r.out = some out ∧
      out.numSlots = 128 ∧
      enumeratePairs out = enumeratePairs (Lib.countRun cqfStep cf₀ someOps).2 := by
  obtain ⟨cf₀, hc⟩ : ∃ cf₀, cqfFilterCreate true 64 8 = some (some cf₀) := ⟨_, rfl⟩
  obtain ⟨out₀, ho⟩ : ∃ out₀, cqfFilterCreate true 128 8 = some (some out₀) := ⟨_, rfl⟩
  have hpairs :
      enumeratePairs (Lib.countRun cqfStep cf₀ someOps).2 = [(3, 1), (259, 3), (700, 1)] := by
    cases hc
    decide +kernel
  have hslots :
    ((cqfFilterResize (fun _ => true) (Lib.countRun cqfStep cf₀ someOps).2 128).bind
      Resized.out).map
      CqfFilter.numSlots = some 128 := by
    cases hc
    decide +kernel
  have hsize : resizeCapacity (Lib.countRun cqfStep cf₀ someOps).2 128 = 128 ∧
      (Lib.countRun cqfStep cf₀ someOps).2.remainderBits = 8 := by
    cases hc
    decide +kernel
  have hreplays :
      Replays out₀ (occurrences (enumeratePairs (Lib.countRun cqfStep cf₀ someOps).2)) := by
    rw [hpairs]
    cases ho
    decide +kernel
  obtain ⟨out, hout, hn⟩ := Option.map_eq_some_iff.mp hslots
  obtain ⟨r, hr, hout⟩ := Option.bind_eq_some_iff.mp hout
  obtain ⟨r', hr', hsame, -⟩ :=
    resize_keeps_pairs_iff true 64 8 cf₀ hc someOps (by cases hc; decide +kernel)
      (by cases hc; decide +kernel) (fun _ => true) 128 out₀ (by rw [hsize.1, hsize.2, ho]) hreplays
  obtain rfl := Option.some.inj (hr.symm.trans hr')
  refine ⟨cf₀, r, out, hc, hpairs, hr, hout, hn, (hsame out hout).2.mpr ?_⟩
  rw [hpairs]
  cases ho
  decide +kernel

/-! ## Merging -/

/-- `cf` is what a run of calls leaves of the created filter `cf₀`; the run deletes fingerprints
that are present only, no call leaves a run that cannot be read back, and no deletion a hole in
front of another run. -/
def Reached (cf₀ cf : CqfFilter) : Prop :=
  ∃ malloc capacity fpBits ops, cqfFilterCreate malloc capacity fpBits = some (some cf₀) ∧
    Always cqfStep (fun _ evs op => OfPresent cf₀ evs op) cf₀ [] ops ∧
    Always cqfStep (Sound cf₀) cf₀ [] ops ∧
    (Lib.countRun cqfStep cf₀ ops).2 = cf

/-- A new filter has no pairs. -/
lemma Fresh.enumerate {rbits : ℕ} (h : Fresh cf k rbits) : enumeratePairs cf = [] := by
  rw [h.rep.enumerate]
  exact List.flatMap_eq_nil_iff.mpr fun _ _ => rfl

/-- The contents depend on the bits of the filter only. -/
lemma Replays.congr (h : Replays cf₀ fps) (hn : cf.numSlots = cf₀.numSlots)
    (hb : cf.remainderBits = cf₀.remainderBits) :
    Replays cf fps := by
  have hcall : contentsCall cf = contentsCall cf₀ := by
    funext c ev
    unfold contentsCall quotient remainder
    rw [hn, hb]
  intro n hle
  unfold contents
  rw [hn, hb, hcall]
  exact h n hle

/-- The occurrences after a replay are those of the replay. -/
lemma Accounted.count_replayed (h : Accounted cf₀ out (entered fps)) (hs : Sized cf₀ k)
    (hfit : ∀ fp ∈ fps, fp.toNat < cf₀.numSlots * 2 ^ cf₀.remainderBits) (fp : UInt64) :
    (occurrences (enumeratePairs out)).count fp = fps.count fp :=
  count_occurrences_eq (h.rep.enumerate_sorted (hs.alike h.alike)) fun _ => h.mem_replayed hs hfit

/-- A filter of the size of another one can be created if there is memory. -/
lemma Fresh.create_again {capacity fpBits : ℕ}
    (hf : Fresh cf₀ (quotientBits capacity) (clampBits fpBits))
    (hb : quotientBits capacity + clampBits fpBits ≤ 64) (h63 : capacity ≤ 2 ^ 63) :
    ∃ out₀, cqfFilterCreate true cf₀.numSlots cf₀.remainderBits = some (some out₀) ∧
      Fresh out₀ (quotientBits capacity) cf₀.remainderBits := by
  have hk : quotientBits capacity ≤ 63 := max_le (by norm_num) (Nat.clog_le_of_le_pow h63)
  have hq : quotientBits cf₀.numSlots = quotientBits capacity := by
    rw [hf.numSlots]
    exact quotientBits_pow (Nat.pow_le_pow_right Nat.two_pos (le_max_left 6 _))
  have hc : clampBits cf₀.remainderBits = cf₀.remainderBits := clampBits_width hf.holds.width
  obtain ⟨o, he, hnone, hsome⟩ := (@create_eq cf₀.numSlots) true cf₀.remainderBits
    (by rw [hf.numSlots]; exact (Nat.two_pow_pos _).ne')
      (by rw [hf.numSlots]; exact Nat.pow_le_pow_right Nat.two_pos hk)
  rw [hq, hc] at hnone hsome
  cases o with
  | none =>
    rcases hnone.mp rfl with h | h
    · rw [hf.remainderBits] at h
      omega
    · cases h
  | some out₀ => exact ⟨out₀, he, hsome out₀ rfl⟩

/-- The filter that `cqf_filter_merge` makes of two filters has every fingerprint as often as the
two have it together, if every run on the way can be read back and no insertion finds the filter
full. -/
theorem merge_adds_occurrences {cf₁ cf₂ base₁ base₂ : CqfFilter} (h₁ : Reached base₁ cf₁)
    (h₂ : Reached base₂ cf₂)
    (hr : Replays base₁ (occurrences (enumeratePairs cf₁ ++ enumeratePairs cf₂)))
    (malloc : ℕ → Bool) :
    ∃ r, cqfFilterMerge malloc cf₁ cf₂ = some r ∧ ∀ out,
      r = some out → out.count = cf₁.count + cf₂.count ∧
      ∀ fp, (occurrences (enumeratePairs out)).count fp =
        (occurrences (enumeratePairs cf₁)).count fp +
        (occurrences (enumeratePairs cf₂)).count fp := by
  obtain ⟨m₁, cap₁, bits₁, ops₁, hc₁, hp₁, hs₁, rfl⟩ := h₁
  obtain ⟨m₂, cap₂, bits₂, ops₂, hc₂, hp₂, hs₂, rfl⟩ := h₂
  have hacc₁ := accounted_run hc₁ hp₁ hs₁
  have hacc₂ := accounted_run hc₂ hp₂ hs₂
  obtain ⟨k₁, hz₁⟩ := sized_create hc₁
  obtain ⟨k₂, hz₂⟩ := sized_create hc₂
  generalize (Lib.countRun cqfStep base₁ ops₁).2 = cf₁ at *
  generalize (Lib.countRun cqfStep base₂ ops₂).2 = cf₂ at *
  have hnone : ∃ r, some (none : Option CqfFilter) = some r ∧ ∀ out,
    r = some out → out.count = cf₁.count + cf₂.count ∧
      ∀ fp, (occurrences (enumeratePairs out)).count fp =
        (occurrences (enumeratePairs cf₁)).count fp + (occurrences (enumeratePairs cf₂)).count fp :=
    ⟨none, rfl, fun out h => by cases h⟩
  rw [cqfFilterMerge]
  by_cases hbits : cf₁.remainderBits = cf₂.remainderBits
  swap
  · rw [if_pos hbits]
    exact hnone
  rw [if_neg (not_not.mpr hbits)]
  split
  · exact hnone
  split
  · exact hnone
  by_cases hslots : cf₁.numSlots = cf₂.numSlots
  swap
  · rw [if_pos hslots]
    exact hnone
  rw [if_neg (not_not.mpr hslots)]
  dsimp only
  by_cases hnil : (enumeratePairs cf₁).length = 0 ∧ (enumeratePairs cf₂).length = 0
  · rw [if_pos hnil]
    obtain ⟨o, he, -, hsome⟩ :=
      (@create_eq 64) (malloc 0) cf₁.remainderBits (by norm_num) (by norm_num)
    refine ⟨o, he, fun out ho => ?_⟩
    have hf := hsome out ho
    have hn₁ := List.length_eq_zero_iff.mp hnil.1
    have hn₂ := List.length_eq_zero_iff.mp hnil.2
    rw [hf.enumerate, hn₁, hn₂, hf.count, ← hacc₁.rep.length_occurrences,
      ← hacc₂.rep.length_occurrences, hn₁, hn₂]
    exact ⟨rfl, fun fp => rfl⟩
  rw [if_neg hnil]
  split
  · exact hnone
  obtain ⟨hf, -, h63, hb64⟩ := create_eq_some hc₁
  obtain ⟨out₀, ho, hf₀⟩ := hf.create_again hb64 h63
  have hs₀ : Sized out₀ (quotientBits cap₁) := (sized_create ho).elim fun k h =>
    ⟨hf₀.numSlots, by rw [hf₀.remainderBits, hf.remainderBits]; exact hb64⟩
  have hn₀ : out₀.numSlots = base₁.numSlots := hf₀.numSlots.trans hf.numSlots.symm
  rw [hacc₁.alike.numSlots, hacc₁.alike.remainderBits, create_of_malloc ho]
  cases malloc 2 with
  | false => exact hnone
  | true =>
    rw [if_pos rfl, Option.bind_some]
    dsimp only
    have hseed : ({ out₀ with hashSeed := cf₁.hashSeed } : CqfFilter) = out₀ := by
      rw [hacc₁.alike.hashSeed, hf.hashSeed, ← hf₀.hashSeed]
    obtain ⟨out, hout, hend⟩ := hf₀.replay (resizeLoop malloc 64) (hr.congr hn₀ hf₀.remainderBits) 3
    rw [hseed, hout]
    refine ⟨some out, rfl, fun out' ho' => ?_⟩
    obtain rfl := Option.some.inj ho'
    constructor
    · have hcount := hend.count
      rw [added_entered, removed_entered, List.countP_true, occurrences_append, List.length_append,
        hacc₁.rep.length_occurrences, hacc₂.rep.length_occurrences] at hcount
      exact hcount
    · intro fp
      rw [hend.count_replayed hs₀ fun fp hfp => ?_, occurrences_append, List.count_append]
      -- the fingerprints of both filters have as many bits as those of the new one
      rw [hn₀, hf₀.remainderBits]
      rw [occurrences_append] at hfp
      rcases List.mem_append.mp hfp with hm | hm
      · have := hacc₁.rep.lt_of_mem (hz₁.alike hacc₁.alike) hm
        rwa [hacc₁.alike.numSlots, hacc₁.alike.remainderBits] at this
      · have := hacc₂.rep.lt_of_mem (hz₂.alike hacc₂.alike) hm
        rwa [← hslots, ← hbits, hacc₁.alike.numSlots, hacc₁.alike.remainderBits] at this

/-- Two filters of 64 slots that share the fingerprint `259` are merged. -/
theorem merge_adds_occurrences_shared : ∃ cf₀ out, cqfFilterCreate true 64 8 = some (some cf₀) ∧
    let cf₁ := (Lib.countRun cqfStep cf₀ someOps).2
    let cf₂ := (Lib.countRun cqfStep cf₀ [.insert 259, .insert 2000, .insert 259]).2
    enumeratePairs cf₁ = [(3, 1), (259, 3), (700, 1)] ∧ enumeratePairs cf₂ = [(259, 2), (2000, 1)] ∧
      cqfFilterMerge (fun _ => true) cf₁ cf₂ = some (some out) ∧ out.count = 8 ∧
      (occurrences (enumeratePairs out)).count 259 = 5 := by
  obtain ⟨cf₀, hc⟩ : ∃ cf₀, cqfFilterCreate true 64 8 = some (some cf₀) := ⟨_, rfl⟩
  have h₁ : Reached cf₀ (Lib.countRun cqfStep cf₀ someOps).2 :=
    ⟨true, 64, 8, someOps, hc, by cases hc; decide +kernel, by cases hc; decide +kernel, rfl⟩
  have h₂ : Reached cf₀ (Lib.countRun cqfStep cf₀ [.insert 259, .insert 2000, .insert 259]).2 :=
    ⟨true, 64, 8, _, hc, by cases hc; decide +kernel, by cases hc; decide +kernel, rfl⟩
  have hp₁ : enumeratePairs (Lib.countRun cqfStep cf₀ someOps).2 =
      [(3, 1), (259, 3), (700, 1)] := by
    cases hc
    decide +kernel
  have hp₂ : enumeratePairs (Lib.countRun cqfStep cf₀ [.insert 259, .insert 2000, .insert 259]).2 =
      [(259, 2), (2000, 1)] := by
    cases hc
    decide +kernel
  have hsome : (cqfFilterMerge (fun _ => true) (Lib.countRun cqfStep cf₀ someOps).2
      (Lib.countRun cqfStep cf₀ [.insert 259, .insert 2000, .insert 259]).2).map Option.isSome =
        some true := by
    cases hc
    decide +kernel
  have hcounts : (Lib.countRun cqfStep cf₀ someOps).2.count +
      (Lib.countRun cqfStep cf₀ [.insert 259, .insert 2000, .insert 259]).2.count = 8 := by
    cases hc
    decide +kernel
  obtain ⟨r, hm, hall⟩ :=
    merge_adds_occurrences h₁ h₂ (by rw [hp₁, hp₂]; cases hc; decide +kernel) fun _ => true
  rw [hm, Option.map_some, Option.some_inj] at hsome
  obtain ⟨out, rfl⟩ := Option.isSome_iff_exists.mp hsome
  refine ⟨cf₀, out, hc, hp₁, hp₂, hm, (hall out rfl).1.trans hcounts,
    ((hall out rfl).2 259).trans ?_⟩
  rw [hp₁, hp₂]
  decide +kernel

end Draugr.Cqf
