import Draugr.Cqf.Replay

/-!
# Filters as lists of fingerprints

A fingerprint is the quotient shifted by the width of a remainder, plus the remainder, and this does
not depend on the number of slots. So the contents of a filter are given by a list of fingerprints
(`Filled`), where their order does not matter. An insertion adds one to the list if the list fits
the slots of the filter, and changes nothing otherwise (`Filled.insert`). One fingerprint takes no
more than four slots; twice as many slots are enough for it.
-/

namespace Draugr.Cqf
open Draugr.Lib Draugr.Qf CqfFilter Bag

variable {rbits k n q rem : ℕ} {fp : UInt64} {fps l l' pre : List UInt64}
  {cf cur out : CqfFilter}

/-! ## Fingerprints as bags -/

/-- The remainders of the fingerprints with each quotient, whatever the number of slots. -/
def bagOf (rbits : ℕ) (fps : List UInt64) : ℕ → List (ℕ × ℕ) :=
  fps.foldl (fun c fp => Function.update c (fp.toNat / 2 ^ rbits)
    (add (fp.toNat % 2 ^ rbits) (c (fp.toNat / 2 ^ rbits)))) fun _ => []

/-- One fingerprint more. -/
lemma bagOf_append (rbits : ℕ) (fps : List UInt64) (fp : UInt64) :
    bagOf rbits (fps ++ [fp]) = Function.update (bagOf rbits fps) (fp.toNat / 2 ^ rbits)
      (add (fp.toNat % 2 ^ rbits) (bagOf rbits fps (fp.toNat / 2 ^ rbits))) := by
  rw [bagOf, bagOf, List.foldl_append]
  rfl

/-- The run of a quotient with one fingerprint more. -/
lemma bagOf_append_apply (rbits : ℕ) (fps : List UInt64) (fp : UInt64) (q : ℕ) :
    bagOf rbits (fps ++ [fp]) q = if q = fp.toNat / 2 ^ rbits then
      add (fp.toNat % 2 ^ rbits) (bagOf rbits fps q) else bagOf rbits fps q := by
  rw [bagOf_append]
  split_ifs with hq
  · rw [hq, Function.update_self]
  · rw [Function.update_of_ne hq]

/-- The remainders are in order, with positive counts. -/
lemma ordered_bagOf (rbits : ℕ) (fps : List UInt64) (q : ℕ) :
    Ordered (bagOf rbits fps q) ∧ ∀ p ∈ bagOf rbits fps q, 0 < p.2 := by
  induction fps using List.reverseRecOn with
  | nil => exact ⟨.nil, fun p hp => by cases hp⟩
  | append_singleton fps fp ih =>
    rw [bagOf_append_apply]
    split_ifs
    · exact ⟨ih.1.add _, pos_add ih.2 _⟩
    · exact ih

/-- A remainder is counted as often as there are fingerprints with it. -/
lemma mult_bagOf (rbits : ℕ) (fps : List UInt64) (q rem : ℕ) : mult rem (bagOf rbits fps q) =
    fps.countP fun fp => decide (fp.toNat / 2 ^ rbits = q ∧ fp.toNat % 2 ^ rbits = rem) := by
  induction fps using List.reverseRecOn with
  | nil => rfl
  | append_singleton fps fp ih =>
    rw [bagOf_append_apply, List.countP_append, List.countP_singleton, ← ih]
    simp only [decide_eq_true_iff]
    by_cases hq : q = fp.toNat / 2 ^ rbits
    · rw [if_pos hq, mult_add (ordered_bagOf ..).1]
      exact congrArg _ (if_congr (by rw [and_iff_right hq.symm]) rfl rfl)
    · rw [if_neg hq, if_neg fun h => hq h.1.symm, Nat.add_zero]

/-- The order of the fingerprints does not matter. -/
lemma bagOf_perm (h : l.Perm l') (rbits : ℕ) : bagOf rbits l = bagOf rbits l' := by
  funext q
  refine (ordered_bagOf ..).1.ext (ordered_bagOf ..).1 (ordered_bagOf ..).2 (ordered_bagOf ..).2
    fun rem => ?_
  rw [mult_bagOf, mult_bagOf, h.countP_eq]

/-- The count of a fingerprint is that of its remainder in the run of its quotient. -/
lemma mult_bagOf_self (rbits : ℕ) (fps : List UInt64) (fp : UInt64) :
    mult (fp.toNat % 2 ^ rbits) (bagOf rbits fps (fp.toNat / 2 ^ rbits)) = fps.count fp := by
  rw [mult_bagOf, List.count]
  refine List.countP_congr fun fp' _ => ?_
  rw [decide_eq_true_iff, beq_iff_eq]
  constructor
  · rintro ⟨hq, hr⟩
    refine UInt64.toNat_inj.mp ?_
    rw [← Nat.div_add_mod fp'.toNat (2 ^ rbits), hq, hr, Nat.div_add_mod]
  · rintro rfl
    exact ⟨rfl, rfl⟩

/-- Only quotients of the fingerprints have a run. -/
lemma bagOf_eq_nil (h : ∀ fp ∈ fps, fp.toNat / 2 ^ rbits ≠ q) : bagOf rbits fps q = [] := by
  induction fps using List.reverseRecOn with
  | nil => rfl
  | append_singleton fps fp ih =>
    have hq := h fp (List.mem_append_right _ (List.mem_singleton_self fp))
    rw [bagOf_append_apply, if_neg (Ne.symm hq)]
    exact ih fun fp' hfp' => h fp' (List.mem_append_left _ hfp')

/-! ## What a filter holds -/

/-- The filter has `2 ^ k` slots and holds the fingerprints `fps`, which have no more bits than its
quotients and remainders. -/
structure Filled (cf : CqfFilter) (k rbits : ℕ) (fps : List UInt64) : Prop where
  numSlots : cf.numSlots = 2 ^ k
  remainderBits : cf.remainderBits = rbits
  bits : k + rbits ≤ 64
  rep : Rep cf (bagOf rbits fps)
  clean : CqfFilter.Clean cf (layout rbits (bagOf rbits fps))
  below : ∀ fp ∈ fps, fp.toNat < 2 ^ k * 2 ^ rbits
  fitting : Fitting rbits (2 ^ k) (bagOf rbits fps)

/-- Fingerprints in increasing order. -/
def sorted (fps : List UInt64) : List UInt64 :=
  fps.mergeSort fun fp fp' => decide (fp.toNat ≤ fp'.toNat)

/-- The order of the fingerprints does not matter. -/
lemma Filled.perm (h : Filled cf k rbits l) (hp : l.Perm l') : Filled cf k rbits l' := by
  have hbag := bagOf_perm hp rbits
  exact ⟨h.numSlots, h.remainderBits, h.bits, hbag ▸ h.rep, hbag ▸ h.clean,
    fun fp hfp => h.below fp (hp.mem_iff.mpr hfp), hbag ▸ h.fitting⟩

/-- The size of such a filter. -/
lemma Filled.sized (h : Filled cf k rbits fps) : Sized cf k :=
  ⟨h.numSlots, by rw [h.remainderBits]; exact h.bits⟩

/-- A fingerprint with no further bits has its own quotient. -/
lemma Filled.quotient (h : Filled cf k rbits fps) (hfp : fp.toNat < 2 ^ k * 2 ^ rbits) :
    cf.quotient fp = fp.toNat / 2 ^ rbits := by
  rw [h.sized.quotient_eq, h.remainderBits]
  exact Nat.mod_eq_of_lt (Nat.div_lt_of_lt_mul (by rwa [Nat.mul_comm]))

/-- The remainder of a fingerprint. -/
lemma Filled.remainder (h : Filled cf k rbits fps) (fp : UInt64) :
    cf.remainder fp = fp.toNat % 2 ^ rbits := by
  rw [remainder_eq, h.remainderBits]

/-- The width of such a filter. -/
lemma Filled.width (h : Filled cf k rbits fps) : Width rbits :=
  h.remainderBits ▸ h.rep.holds.width

/-- It has at least one block. -/
lemma Filled.le_slots (h : Filled cf k rbits fps) : 64 ≤ 2 ^ k := by
  have := h.rep.holds.slots
  have := h.numSlots
  have := Nat.two_pow_pos k
  omega

/-- It has less than `2 ^ 63` slots. -/
lemma Filled.lt_bits (h : Filled cf k rbits fps) : k ≤ 62 := by
  have := h.width.two_le
  have := h.bits
  omega

/-- The pairs of such a filter. -/
lemma Filled.mem_enumerate (h : Filled cf k rbits fps) : (fp, n) ∈ enumeratePairs cf ↔
    0 < n ∧ fps.count fp = n := by
  rw [h.rep.mem_enumerate h.sized, h.numSlots, h.remainderBits, h.remainder]
  refine and_congr_right fun hn => ?_
  by_cases hfp : fp.toNat < 2 ^ k * 2 ^ rbits
  · rw [h.quotient hfp, mult_bagOf_self, and_iff_right hfp]
  · refine iff_of_false (fun hc => hfp hc.1) fun hc => ?_
    rw [List.count_eq_zero_of_not_mem fun hm => hfp (h.below fp hm)] at hc
    omega

/-- The occurrences are those of the fingerprints. -/
lemma Filled.count_occurrences (h : Filled cf k rbits fps) (fp : UInt64) :
    (occurrences (enumeratePairs cf)).count fp = fps.count fp :=
  count_occurrences_eq (h.rep.enumerate_sorted h.sized) fun _ => h.mem_enumerate

/-- Pairs in increasing order have their occurrences in increasing order. -/
lemma occurrences_sorted {pairs : List (UInt64 × ℕ)}
    (hs : pairs.Pairwise fun p p' => p.1.toNat < p'.1.toNat) :
    (occurrences pairs).Pairwise fun fp fp' => fp.toNat ≤ fp'.toNat := by
  rw [occurrences, List.pairwise_flatMap]
  constructor
  · intro p _
    exact List.pairwise_replicate.mpr (.inr le_rfl)
  · refine hs.imp fun {p p'} hlt fp hfp fp' hfp' => ?_
    rw [(List.mem_replicate.mp hfp).2, (List.mem_replicate.mp hfp').2]
    exact hlt.le

/-- The occurrences of the pairs are the fingerprints in increasing order. -/
lemma Filled.occurrences_eq (h : Filled cf k rbits fps) :
    occurrences (enumeratePairs cf) = sorted fps := by
  have hsorted : (sorted fps).Pairwise fun fp fp' => fp.toNat ≤ fp'.toNat := by
    refine (List.pairwise_mergeSort ?_ ?_ fps).imp fun {a b} hab => of_decide_eq_true hab
    · intro a b c hab hbc
      exact decide_eq_true ((of_decide_eq_true hab).trans (of_decide_eq_true hbc))
    · intro a b
      simp only [Bool.or_eq_true, decide_eq_true_eq]
      exact le_total _ _
  refine List.Perm.eq_of_pairwise (fun a b _ _ hab hba => ?_)
    (occurrences_sorted (h.rep.enumerate_sorted h.sized)) hsorted ?_
  · exact UInt64.toNat_inj.mp (le_antisymm hab hba)
  · exact (List.perm_iff_count.mpr h.count_occurrences).trans (List.mergeSort_perm ..).symm

/-- A filter that holds the occurrences of another one has its pairs. -/
lemma Filled.enumerate_eq (h : Filled out k rbits (occurrences (enumeratePairs cf)))
    (hs : (enumeratePairs cf).Pairwise fun p p' => p.1.toNat < p'.1.toNat)
    (hpos : ∀ p ∈ enumeratePairs cf, 0 < p.2) : enumeratePairs out = enumeratePairs cf := by
  refine pairs_ext (h.rep.enumerate_sorted h.sized) hs fun p => ?_
  rw [show p = (p.1, p.2) from rfl, h.mem_enumerate]
  exact (mem_iff_count hs hpos).symm

/-- An insertion adds the fingerprint if the new contents fit the filter, and changes nothing
otherwise. -/
lemma Filled.insert (h : Filled cur k rbits pre) (hfp : fp.toNat < 2 ^ k * 2 ^ rbits)
    (hr : Readable rbits (bagOf rbits (pre ++ [fp]) (fp.toNat / 2 ^ rbits))) :
    (Fitting rbits (2 ^ k) (bagOf rbits (pre ++ [fp])) ∧ ∃ cur',
      cqfFilterInsert cur fp = (.ok, cur') ∧ Filled cur' k rbits (pre ++ [fp]) ∧
      cur'.hashSeed = cur.hashSeed) ∨
    (¬ Fitting rbits (2 ^ k) (bagOf rbits (pre ++ [fp])) ∧ ∃ e, e ≠ .ok ∧
      cqfFilterInsert cur fp = (e, cur)) := by
  have hins := (@Rep.insert _ _ fp) h.rep
  rw [h.quotient hfp, h.remainder, h.remainderBits] at hins
  rw [bagOf_append_apply, if_pos rfl] at hr
  have hins := hins hr
  rw [Added, h.remainderBits, h.numSlots, ← bagOf_append] at hins
  rcases hins with ⟨e, he, hcall, hno⟩ | ⟨cur', hcall, ha, hrep, hfit, hclean⟩
  · exact .inr ⟨hno h.clean, e, he, hcall⟩
  · refine .inl ⟨hfit, cur', hcall, ⟨ha.numSlots.trans h.numSlots,
      ha.remainderBits.trans h.remainderBits, h.bits, hrep, hclean h.clean, fun fp' hfp' => ?_,
      hfit⟩, ha.hashSeed⟩
    rcases List.mem_append.mp hfp' with hm | hm
    · exact h.below fp' hm
    · rw [List.mem_singleton.mp hm]
      exact hfp

/-! ## Room for the fingerprints -/

/-- The slots that the runs of fingerprints take, if their quotients are below `n`. -/
def used (rbits n : ℕ) (fps : List UInt64) : ℕ := start (layout rbits (bagOf rbits fps)) n

/-- No fingerprint takes no slot. -/
lemma used_nil (rbits n : ℕ) : used rbits n [] = 0 := by
  rw [used, start]
  exact Finset.sum_eq_zero fun _ _ => rfl

/-- Runs are counted up to any number above their quotients. -/
lemma used_eq {N : ℕ} (h : ∀ fp ∈ fps, fp.toNat < n * 2 ^ rbits) (hle : n ≤ N) :
    used rbits N fps = used rbits n fps := by
  induction N, hle using Nat.le_induction with
  | base => rfl
  | succ N hN ih =>
    have hnil : bagOf rbits fps N = [] := by
      refine bagOf_eq_nil fun fp hfp hq => ?_
      have := Nat.div_lt_of_lt_mul (by rw [Nat.mul_comm]; exact h fp hfp)
      omega
    rw [used, start_succ, layout, hnil]
    exact ih

/-- There are as many occurrences as fingerprints. -/
lemma total_bagOf (h : ∀ fp ∈ fps, fp.toNat < n * 2 ^ rbits) :
    total n (bagOf rbits fps) = fps.length := by
  induction fps using List.reverseRecOn with
  | nil => exact Finset.sum_eq_zero fun _ _ => rfl
  | append_singleton fps fp ih =>
    have hq : fp.toNat / 2 ^ rbits < n :=
      Nat.div_lt_of_lt_mul (by
        rw [Nat.mul_comm]
        exact h fp (List.mem_append_right _ (List.mem_singleton_self fp)))
    have hup := total_update (c := bagOf rbits fps) hq
      (add (fp.toNat % 2 ^ rbits) (bagOf rbits fps (fp.toNat / 2 ^ rbits)))
    have hpre := ih fun fp' hfp' => h fp' (List.mem_append_left _ hfp')
    rw [size_add (ordered_bagOf ..).1, hpre] at hup
    rw [bagOf_append, List.length_append, List.length_singleton]
    omega

/-- When fingerprints fit. -/
lemma fitting_bagOf (h : ∀ fp ∈ fps, fp.toNat < n * 2 ^ rbits) :
    Fitting rbits n (bagOf rbits fps) ↔
      used rbits n fps ≤ n ∧ fps.length ≤ n * 16 % 2 ^ 64 := by
  rw [← total_bagOf h]
  exact ⟨fun hf => ⟨hf.slots, hf.count⟩, fun hf => ⟨hf.1, hf.2⟩⟩

/-- A new filter holds nothing. -/
lemma Fresh.filled (h : Fresh cf k rbits) (hbits : k + rbits ≤ 64) : Filled cf k rbits [] where
  numSlots := h.numSlots
  remainderBits := h.remainderBits
  bits := hbits
  rep := h.rep
  clean := h.clean
  below fp hfp := by cases hfp
  fitting := by
    refine (fitting_bagOf fun fp hfp => by cases hfp).mpr ⟨?_, Nat.zero_le _⟩
    rw [used_nil]
    exact Nat.zero_le _

/-- A fingerprint more takes no slot less and at most four more. -/
lemma used_append (hw : Width rbits) (hfp : fp.toNat < n * 2 ^ rbits)
    (hr : Readable rbits (bagOf rbits (fps ++ [fp]) (fp.toNat / 2 ^ rbits))) :
    used rbits n fps ≤ used rbits n (fps ++ [fp]) ∧
      used rbits n (fps ++ [fp]) ≤ used rbits n fps + 4 := by
  have hq : fp.toNat / 2 ^ rbits < n := Nat.div_lt_of_lt_mul (by rwa [Nat.mul_comm])
  have hst := start_added (bagOf rbits fps) rbits (fp.toNat % 2 ^ rbits) hq
  rw [bagOf_append_apply, if_pos rfl] at hr
  have hlen := length_runSlots_add hw (ordered_bagOf rbits fps (fp.toNat / 2 ^ rbits)).1
    (Nat.mod_lt _ (Nat.two_pow_pos rbits)) fun p hp => (hr.fits p hp).count.lt
  rw [← bagOf_append] at hst
  rw [used, used]
  rw [layout] at hst
  omega

/-- An empty filter has room for a fingerprint. -/
lemma Filled.fitting_one (h : Filled cf k rbits []) (hfp : fp.toNat < 2 ^ k * 2 ^ rbits)
    (hr : Readable rbits (bagOf rbits ([] ++ [fp]) (fp.toNat / 2 ^ rbits)))
    (hk : 2 ^ k * 2 ≤ 2 ^ 59) :
    Fitting rbits (2 ^ k) (bagOf rbits ([] ++ [fp])) := by
  have hused := used_append h.width hfp hr
  have h64 := h.le_slots
  rw [List.nil_append, used_nil] at hused
  refine (fitting_bagOf fun fp' hfp' => ?_).mpr ?_
  · rw [List.nil_append, List.mem_singleton] at hfp'
    rw [hfp']
    exact hfp
  · rw [List.nil_append, List.length_singleton]
    omega

/-- Every beginning of a list of fingerprints gives runs that can be read back. -/
def Reads (rbits : ℕ) (fps : List UInt64) : Prop :=
  ∀ m ≤ fps.length, ∀ fp ∈ fps, Readable rbits (bagOf rbits (fps.take m) (fp.toNat / 2 ^ rbits))

instance (rbits : ℕ) (fps : List UInt64) : Decidable (Reads rbits fps) :=
  inferInstanceAs (Decidable (∀ m ≤ fps.length, ∀ fp ∈ fps, Readable _ _))

/-- A beginning of a list of fingerprints takes no more slots than all of them. -/
lemma Reads.used_take (h : Reads rbits fps) (hw : Width rbits)
    (hfps : ∀ fp ∈ fps, fp.toNat < n * 2 ^ rbits) (m : ℕ) :
    used rbits n (fps.take m) ≤ used rbits n fps := by
  have hmono : Monotone fun m => used rbits n (fps.take m) := by
    refine monotone_nat_of_le_succ fun m => ?_
    by_cases hm : m < fps.length
    · have hmem : fps[m] ∈ fps := List.getElem_mem hm
      have hread := h (m + 1) hm _ hmem
      rw [List.take_succ_eq_append_getElem hm] at hread ⊢
      exact (used_append hw (hfps _ hmem) hread).1
    · rw [List.take_of_length_le (by omega), List.take_of_length_le (by omega)]
  by_cases hm : m ≤ fps.length
  · have := hmono hm
    dsimp only at this
    rwa [List.take_length] at this
  · rw [List.take_of_length_le (by omega)]

/-- A list of fingerprints that fit, one after the other. -/
lemma Filled.replay_fit {resize : CqfFilter → ℕ → ℕ → Option Resized} {calls : ℕ} :
    ∀ {fps pre : List UInt64} {cur : CqfFilter}, Filled cur k rbits pre →
    Reads rbits (pre ++ fps) → (∀ fp ∈ fps, fp.toNat < 2 ^ k * 2 ^ rbits) →
    Fitting rbits (2 ^ k) (bagOf rbits (pre ++ fps)) → ∃ out,
      replay resize fps cur calls = some (some out, calls) ∧ Filled out k rbits (pre ++ fps) ∧
      out.hashSeed = cur.hashSeed
  | [], pre, cur, h, _, _, _ => ⟨cur, rfl, by rwa [List.append_nil], rfl⟩
  | fp :: fps, pre, cur, h, hread, hfps, hfit => by
    have happ : pre ++ fp :: fps = pre ++ [fp] ++ fps := by rw [List.append_assoc]; rfl
    have hbelow : ∀ fp' ∈ pre ++ fp :: fps, fp'.toNat < 2 ^ k * 2 ^ rbits := by
      intro fp' hfp'
      rcases List.mem_append.mp hfp' with hm | hm
      · exact h.below fp' hm
      · exact hfps fp' hm
    have htake : (pre ++ fp :: fps).take (pre ++ [fp]).length = pre ++ [fp] := by
      rw [happ, List.take_left]
    have hlen : (pre ++ [fp]).length ≤ (pre ++ fp :: fps).length := by
      rw [happ, @List.length_append _ (pre ++ [fp]) fps]
      exact Nat.le_add_right ..
    have hnext := hread (pre ++ [fp]).length hlen fp
      (List.mem_append_right _ (List.mem_cons_self ..))
    rw [htake] at hnext
    have hfp := hfps fp (List.mem_cons_self ..)
    have hfit₁ : Fitting rbits (2 ^ k) (bagOf rbits (pre ++ [fp])) := by
      rw [fitting_bagOf hbelow] at hfit
      rw [fitting_bagOf fun fp' hfp' => hbelow fp' (happ ▸ List.mem_append_left _ hfp')]
      have hused := hread.used_take h.width hbelow (pre ++ [fp]).length
      rw [htake] at hused
      omega
    rcases h.insert hfp hnext with ⟨-, cur', hins, h', hseed⟩ | ⟨hno, -⟩
    · rw [happ] at hread hfit ⊢
      obtain ⟨out, hout, hfill, hseed'⟩ :=
        h'.replay_fit hread (fun fp' hfp' => hfps fp' (List.mem_cons_of_mem _ hfp')) hfit
      refine ⟨out, ?_, hfill, hseed'.trans hseed⟩
      rw [replay, hins]
      exact hout
    · exact absurd hfit₁ hno

/-- Twice as many slots are enough for one fingerprint more. -/
lemma Filled.fitting_double (h : Filled cur k rbits pre) (hfp : fp.toNat < 2 ^ k * 2 ^ rbits)
    (hr : Readable rbits (bagOf rbits (pre ++ [fp]) (fp.toNat / 2 ^ rbits)))
    (hk : 2 ^ k * 2 ≤ 2 ^ 59) : Fitting rbits (2 ^ (k + 1)) (bagOf rbits (pre ++ [fp])) := by
  have hbelow : ∀ fp' ∈ pre ++ [fp], fp'.toNat < 2 ^ k * 2 ^ rbits := by
    intro fp' hfp'
    rcases List.mem_append.mp hfp' with hm | hm
    · exact h.below fp' hm
    · rw [List.mem_singleton.mp hm]
      exact hfp
  have hle : 2 ^ k ≤ 2 ^ (k + 1) := Nat.pow_le_pow_right Nat.two_pos (Nat.le_succ k)
  have hbelow' : ∀ fp' ∈ pre ++ [fp], fp'.toNat < 2 ^ (k + 1) * 2 ^ rbits :=
    fun fp' hfp' => (hbelow fp' hfp').trans_le (Nat.mul_le_mul_right _ hle)
  have hold := (fitting_bagOf h.below).mp h.fitting
  have hused := used_append h.width hfp hr
  have h64 := h.le_slots
  rw [fitting_bagOf hbelow', used_eq hbelow hle, List.length_append, List.length_singleton,
    Nat.pow_succ]
  omega

end Draugr.Cqf
