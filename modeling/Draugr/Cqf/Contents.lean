import Draugr.Cqf.Insert
import Draugr.Lib.Bag

/-!
# The contents of a filter

`Rep cf c` says that a filter holds the counts `c`: the run of each quotient is a bag of remainders
with their counts, written out entry by entry, and every run can be read back (`Readable`). Then the
scan, the count and the enumeration of a run give what the bag says, and an insertion adds one to
one count if the new run can be read back too (`Rep.insert`). An insertion into a clean filter
succeeds exactly when the new contents fit.
-/

namespace Draugr.Cqf
open Draugr.Lib Draugr.Qf CqfFilter Bag

variable {rbits n pos rend rem q : ℕ} {tbl : ℕ → ℕ} {occ : ℕ → Bool} {ps A B : List (ℕ × ℕ)}

/-! ## Runs that can be read back -/

/-- The entries of a run fit the width and can be read back. -/
structure Readable (rbits : ℕ) (ps : List (ℕ × ℕ)) : Prop where
  ordered : Ordered ps
  fits : ∀ p ∈ ps, Fits rbits p
  unambiguous : Unambiguous rbits ps

instance (rbits : ℕ) (ps : List (ℕ × ℕ)) : Decidable (Readable rbits ps) :=
  decidable_of_iff (Ordered ps ∧ (∀ p ∈ ps, Fits rbits p) ∧ Unambiguous rbits ps)
    ⟨fun h => ⟨h.1, h.2.1, h.2.2⟩, fun h => ⟨h.ordered, h.fits, h.unambiguous⟩⟩

/-- A run without entries can be read back. -/
lemma readable_nil (rbits : ℕ) : Readable rbits [] := ⟨.nil, fun _ h => (by cases h), .nil⟩

/-- The slots of two runs of entries, one behind the other. -/
lemma runSlots_append (rbits : ℕ) (A B : List (ℕ × ℕ)) :
    runSlots rbits (A ++ B) = runSlots rbits A ++ runSlots rbits B := List.flatMap_append

/-- No slots are used for no entries only. -/
lemma runSlots_eq_nil (rbits : ℕ) (ps : List (ℕ × ℕ)) : runSlots rbits ps = [] ↔ ps = [] := by
  cases ps with
  | nil => exact iff_of_true rfl rfl
  | cons p ps =>
    obtain ⟨l, hl⟩ := entrySlots_eq_cons rbits p
    rw [runSlots_cons, hl]
    exact iff_of_false (List.cons_ne_nil _ _) (List.cons_ne_nil _ _)

/-- The number of slots of a run with an entry in it. -/
lemma length_runSlots (rbits rem C : ℕ) (A B : List (ℕ × ℕ)) :
    (runSlots rbits (A ++ (rem, C) :: B)).length =
    (runSlots rbits A).length + (cqfEncSlots C rem rbits + (runSlots rbits B).length) := by
  rw [runSlots_append, runSlots_cons, List.length_append, List.length_append, length_entrySlots]

/-- One more occurrence in a run. -/
lemma length_runSlots_add (hw : Width rbits) (ho : Ordered ps)
    (hrem : rem < 2 ^ rbits) (hfits : ∀ p ∈ add rem ps, p.2 < 2 ^ 64) :
    (runSlots rbits ps).length ≤ (runSlots rbits (add rem ps)).length ∧
      (runSlots rbits (add rem ps)).length ≤ (runSlots rbits ps).length + 4 := by
  rcases cut ho rem with ⟨A, C, B, rfl, h⟩ | ⟨A, B, rfl, h⟩
  · rw [h.add_found] at hfits ⊢
    have hC : C + 1 < 2 ^ 64 :=
      hfits (rem, C + 1) (List.mem_append_right _ (List.mem_cons_self ..))
    have h1 := cqfEncSlots_le_succ hw hrem hC
    have h2 := cqfEncSlots_succ_le (x := rem) hw hC
    rw [length_runSlots, length_runSlots]
    omega
  · have h1 : cqfEncSlots 1 rem rbits = 1 := rfl
    rw [h.add_missing, length_runSlots, runSlots_append, List.length_append]
    omega

/-- Where there is data everywhere, the bits of data do not matter. -/
lemma decodeRun_of_occ (hocc : ∀ p, pos ≤ p → p ≤ rend → occ p = true) :
    ∀ {n pos' : ℕ}, pos ≤ pos' →
    decodeRun rbits tbl occ rend n pos' = decodeRun rbits tbl (fun _ => true) rend n pos'
  | 0, pos', _ => rfl
  | n + 1, pos', hle => by
    rw [decodeRun, decodeRun]
    split_ifs with hr
    · rfl
    rw [cqfDecodeEntry_of_occ (hocc pos' hle (not_lt.mp hr))]
    cases hd : cqfDecodeEntry rbits tbl (fun _ => true) rend pos' with
    | none => rfl
    | some r =>
      obtain ⟨x, C, next⟩ := r
      have hdec := decoded (fun _ => rfl) hd
      have h1 := hdec.slots
      have h2 := one_le_cqfEncSlots C x rbits
      dsimp only
      rw [decodeRun_of_occ hocc (show pos ≤ next by omega)]

/-- What the scan for a remainder gives when the decoder reads the entries `ps` from `pos` on. -/
def scanEntries (rbits rem : ℕ) : List (ℕ × ℕ) → ℕ → ℕ → Scan
  | [], _, insPos => .missing insPos
  | (x, C) :: ps, pos, _ =>
    if x = rem then .found pos C (pos + cqfEncSlots C x rbits)
    else if rem < x then .missing pos
    else scanEntries rbits rem ps (pos + cqfEncSlots C x rbits) (pos + cqfEncSlots C x rbits)

/-- The scan of a run goes over the entries that the decoder reads. -/
lemma scanRun_of_decodeRun {cf : CqfFilter} : ∀ {n pos insPos e : ℕ} {ps : List (ℕ × ℕ)},
    (∀ p, pos ≤ p → p ≤ rend → cf.phys p = true) →
    decodeRun cf.remainderBits cf.tbl cf.phys rend n pos = (ps, e) →
    cf.scanRun rend rem n pos insPos = scanEntries cf.remainderBits rem ps pos insPos
  | 0, pos, insPos, e, ps, _, h => by
    cases h
    rfl
  | n + 1, pos, insPos, e, ps, hocc, h => by
    rw [decodeRun] at h
    rw [scanRun]
    split_ifs at h ⊢ with hr
    · cases h
      rfl
    cases hd : cqfDecodeEntry cf.remainderBits cf.tbl cf.phys rend pos with
    | none =>
      rw [hd] at h
      cases h
      rfl
    | some r =>
      obtain ⟨x, C, next⟩ := r
      rw [hd] at h
      have hdec := decoded (fun hle => hocc pos le_rfl hle) hd
      have hnext := hdec.slots
      dsimp only at h ⊢
      rcases hrec : decodeRun cf.remainderBits cf.tbl cf.phys rend n next with ⟨ps', e'⟩
      rw [hrec] at h
      cases h
      rw [scanEntries, hnext, scanRun_of_decodeRun (fun p hp => hocc p (by omega)) hrec]

/-- The scan finds an entry. -/
lemma scanEntries_found (h : Around rem A B) (C : ℕ) : ∀ {pos insPos : ℕ},
    scanEntries rbits rem (A ++ (rem, C) :: B) pos insPos =
      .found (pos + (runSlots rbits A).length) C
      (pos + (runSlots rbits A).length + cqfEncSlots C rem rbits) := by
  obtain ⟨hbelow, -⟩ := h
  induction A with
  | nil =>
    intro pos insPos
    exact if_pos rfl
  | cons p A ih =>
    intro pos insPos
    have hp := hbelow p (List.mem_cons_self ..)
    rw [List.cons_append, scanEntries, if_neg hp.ne, if_neg hp.not_gt,
      ih fun q hq => hbelow q (List.mem_cons_of_mem _ hq),
      runSlots_cons, List.length_append, length_entrySlots, Nat.add_assoc pos]

/-- The scan finds the place of a remainder without an entry. -/
lemma scanEntries_missing (h : Around rem A B) : ∀ {pos insPos : ℕ}, A ++ B ≠ [] →
    scanEntries rbits rem (A ++ B) pos insPos = .missing (pos + (runSlots rbits A).length) := by
  obtain ⟨hbelow, habove⟩ := h
  induction A with
  | nil =>
    intro pos insPos hne
    cases B with
    | nil => exact absurd rfl hne
    | cons p B =>
      have hp := habove p (List.mem_cons_self ..)
      rw [List.nil_append, scanEntries, if_neg hp.ne', if_pos hp]
      rfl
  | cons p A ih =>
    intro pos insPos _
    have hp := hbelow p (List.mem_cons_self ..)
    rw [List.cons_append, scanEntries, if_neg hp.ne, if_neg hp.not_gt, runSlots_cons,
      List.length_append, length_entrySlots, ← Nat.add_assoc]
    cases hAB : A ++ B with
    | nil =>
      obtain ⟨rfl, rfl⟩ := List.append_eq_nil_iff.mp hAB
      rfl
    | cons r l =>
      rw [← hAB]
      exact ih (fun q hq => hbelow q (List.mem_cons_of_mem _ hq)) (hAB ▸ List.cons_ne_nil _ _)

/-- Nothing is counted below the first key. -/
lemma mult_eq_zero_of_lt (h : ∀ p ∈ ps, rem < p.1) : mult rem ps = 0 := by
  have := (show Around rem [] ps from ⟨nofun, h⟩).mult_missing
  rwa [List.nil_append] at this

/-- Counting a remainder in a run gives its count in the bag that the decoder reads. -/
lemma countRun_of_decodeRun : ∀ {n pos e : ℕ} {ps : List (ℕ × ℕ)},
    decodeRun rbits tbl occ rend n pos = (ps, e) → Ordered ps →
    countRun rbits tbl occ rend rem n pos = mult rem ps
  | 0, pos, e, ps, h, _ => by
    cases h
    rfl
  | n + 1, pos, e, ps, h, ho => by
    rw [decodeRun] at h
    rw [countRun]
    split_ifs at h ⊢ with hr
    · cases h
      rfl
    cases hd : cqfDecodeEntry rbits tbl occ rend pos with
    | none =>
      rw [hd] at h
      cases h
      rfl
    | some r =>
      obtain ⟨x, C, next⟩ := r
      rw [hd] at h
      dsimp only at h ⊢
      rcases hrec : decodeRun rbits tbl occ rend n next with ⟨ps', e'⟩
      rw [hrec] at h
      cases h
      obtain ⟨hx, ho'⟩ := List.pairwise_cons.mp ho
      rw [mult, countRun_of_decodeRun hrec ho']
      split_ifs with h1 h2
      · rfl
      · exact (mult_eq_zero_of_lt fun p hp => h2.2.trans (hx p hp)).symm
      · rfl

/-! ## The slots of the new run -/

/-- The slots of a counter. -/
lemma entrySlots_of_le {x C : ℕ} (hC : 3 ≤ C) : entrySlots rbits (x, C) =
    List.replicate (symbolsAt x) x ++ (cqfEncode C x rbits ++ List.replicate (symbolsAt x) x) := by
  rw [entrySlots, if_neg (by omega), if_neg (by omega), symbolsAt]
  dsimp only
  split_ifs with h0
  · rw [h0]
    rfl
  · rfl

/-- Slots that fit are not cut. -/
lemma map_mod_of_lt {l : List ℕ} (h : ∀ v ∈ l, v < 2 ^ rbits) : l.map (· % 2 ^ rbits) = l := by
  conv_rhs => rw [← List.map_id l]
  exact List.map_congr_left fun v hv => Nat.mod_eq_of_lt (h v hv)

/-- The slots with a new entry. -/
lemma insertedRun_runSlots (rbits rem : ℕ) (A B : List (ℕ × ℕ)) :
    insertedRun (runSlots rbits (A ++ B)) (runSlots rbits A).length rem =
      runSlots rbits (A ++ (rem, 1) :: B) := by
  rw [insertedRun, runSlots_append, List.take_left, List.drop_left, runSlots_append, runSlots_cons]
  rfl

/-- The slots with another count. -/
lemma resizedRun_runSlots (hw : Width rbits) {C C' : ℕ} (hf : Fits rbits (rem, C'))
    (A B : List (ℕ × ℕ)) :
    resizedRun rbits (runSlots rbits (A ++ (rem, C) :: B)) (runSlots rbits A).length
      (cqfEncSlots C rem rbits) rem C' =
      runSlots rbits (A ++ (rem, C') :: B) := by
  have hlen : cqfEncSlots C rem rbits = (entrySlots rbits (rem, C)).length :=
    (length_entrySlots rbits (rem, C)).symm
  rw [resizedRun, map_mod_of_lt fun v hv => hf.slots_lt hw hv, hlen, runSlots_append, runSlots_cons,
    List.take_left,
    ← List.drop_drop, List.drop_left, List.drop_left, runSlots_append, runSlots_cons]

/-- The slots with another count of the same size. -/
lemma recountedRun_runSlots (hw : Width rbits) {C C' : ℕ} (hf : Fits rbits (rem, C')) (hC : 3 ≤ C)
    (hC64 : C < 2 ^ 64)
    (hC' : 3 ≤ C') (heq : cqfEncSlots C' rem rbits = cqfEncSlots C rem rbits) (A B : List (ℕ × ℕ)) :
    recountedRun rbits (runSlots rbits (A ++ (rem, C) :: B)) (runSlots rbits A).length rem C' =
      runSlots rbits (A ++ (rem, C') :: B) := by
  have hlen : (cqfEncode C' rem rbits).length = (cqfEncode C rem rbits).length := by
    have h1 := (cqfEncSlots_of_le hw hC hC64 rem).1
    have h2 := (cqfEncSlots_of_le hw hC' hf.count.lt rem).1
    omega
  have hmod : (cqfEncode C' rem rbits).map (· % 2 ^ rbits) = cqfEncode C' rem rbits := by
    refine map_mod_of_lt fun v hv => hf.slots_lt hw ?_
    rw [entrySlots_of_le hC']
    exact List.mem_append_right _ (List.mem_append_left _ hv)
  have hrep : symbolsAt rem = (List.replicate (symbolsAt rem) rem).length :=
    List.length_replicate.symm
  rw [recountedRun, hmod, hlen, runSlots_append, runSlots_cons, entrySlots_of_le hC]
  rw [Nat.add_assoc (runSlots rbits A).length, List.take_length_add_append, ← List.drop_drop,
    List.drop_left]
  conv_lhs => rw [List.append_assoc, List.append_assoc]
  rw [List.take_append_of_le_length hrep.le, List.take_of_length_le hrep.ge, ← List.drop_drop]
  conv_lhs => rw [List.drop_append_of_le_length hrep.le, List.drop_of_length_le hrep.ge]
  rw [List.nil_append, List.append_assoc (cqfEncode C rem rbits), List.drop_left, runSlots_append,
    runSlots_cons, entrySlots_of_le hC']
  simp only [List.append_assoc]

/-- The slots after one more occurrence. -/
lemma recounted_runSlots (hw : Width rbits) {C : ℕ} (hf : Fits rbits (rem, C + 1)) (hpos : 1 ≤ C)
    (A B : List (ℕ × ℕ)) :
    recounted rbits (runSlots rbits (A ++ (rem, C) :: B)) (runSlots rbits A).length rem C =
      runSlots rbits (A ++ (rem, C + 1) :: B) := by
  have hlt := hf.count.lt
  rw [recounted]
  split_ifs with heq
  · have h3 := three_le_of_cqfEncSlots_eq hpos heq
    exact recountedRun_runSlots hw hf h3 (by omega) (by omega) heq A B
  · exact resizedRun_runSlots hw hf A B

/-! ## Filters with contents -/

/-- The slots of the runs of a filter. -/
def layout (rbits : ℕ) (c : ℕ → List (ℕ × ℕ)) (q : ℕ) : List ℕ := runSlots rbits (c q)

/-- The number of occurrences of the quotients below `n`. -/
def total (n : ℕ) (c : ℕ → List (ℕ × ℕ)) : ℕ := ∑ q ∈ Finset.range n, size (c q)

variable {c : ℕ → List (ℕ × ℕ)} {cf cf' : CqfFilter} {hash : UInt64}

/-- A new run changes the layout at its quotient only. -/
lemma layout_update (rbits : ℕ) (c : ℕ → List (ℕ × ℕ)) (q : ℕ) (ps : List (ℕ × ℕ)) :
    layout rbits (Function.update c q ps) = Function.update (layout rbits c) q
      (runSlots rbits ps) := by
  funext i
  by_cases hi : i = q
  · rw [hi, layout, Function.update_self, Function.update_self]
  · rw [layout, Function.update_of_ne hi, Function.update_of_ne hi]
    rfl

/-- The occurrences after one run has changed. -/
lemma total_update (hq : q < n) (ps : List (ℕ × ℕ)) :
    total n (Function.update c q ps) + size (c q) = total n c + size ps := by
  have hmem : q ∈ Finset.range n := Finset.mem_range.mpr hq
  have hrest : ∑ i ∈ (Finset.range n).erase q, size (Function.update c q ps i) =
      ∑ i ∈ (Finset.range n).erase q, size (c i) := by
    refine Finset.sum_congr rfl fun i hi => ?_
    rw [Function.update_of_ne (Finset.ne_of_mem_erase hi)]
  rw [total, total, ← Finset.add_sum_erase _ _ hmem,
    ← Finset.add_sum_erase (a := q) _ (fun i => size (c i)) hmem, hrest, Function.update_self]
  omega

/-- A run has no more occurrences than all runs together. -/
lemma size_le_total (hq : q < n) (c : ℕ → List (ℕ × ℕ)) : size (c q) ≤ total n c := by
  have := total_update (c := c) hq []
  have hnil : size ([] : List (ℕ × ℕ)) = 0 := rfl
  omega

/-- The filter holds the counts `c`. -/
structure Rep (cf : CqfFilter) (c : ℕ → List (ℕ × ℕ)) : Prop where
  holds : Holds cf (layout cf.remainderBits c)
  readable : ∀ q, Readable cf.remainderBits (c q)
  count : cf.count = total cf.numSlots c

/-- A slot of a run. -/
lemma getElem?_slots (tbl : ℕ → ℕ) : ∀ {n i k : ℕ}, k < n → (slots tbl n i)[k]? = some (tbl (i + k))
  | n + 1, i, 0, _ => rfl
  | n + 1, i, k + 1, h => by
    rw [slots, List.getElem?_cons_succ, getElem?_slots tbl (Nat.lt_of_succ_lt_succ h)]
    congr 2
    omega

/-- The slots of a run. -/
lemma CqfFilter.Packed.slots_eq {m : ℕ → List ℕ} (h : Packed cf m) (q : ℕ) :
    Cqf.slots cf.tbl (m q).length (start m q) = m q := by
  have hlen := length_slots cf.tbl (m q).length (start m q)
  refine List.ext_getElem? fun i => ?_
  by_cases hi : i < (m q).length
  · rw [getElem?_slots _ hi, h.tbl q i hi]
  · rw [List.getElem?_eq_none (by omega), List.getElem?_eq_none (by omega)]

namespace Rep

/-- No bag has more than all occurrences of the filter. -/
lemma size_le (h : Rep cf c) (q : ℕ) : size (c q) ≤ cf.count := by
  by_cases hq : q < cf.numSlots
  · exact h.count ▸ size_le_total hq c
  · have hm : layout cf.remainderBits c q = [] := by
      by_contra hm
      exact hq (h.holds.lt q hm)
    rw [(runSlots_eq_nil _ _).mp hm]
    exact Nat.zero_le _

/-- A quotient has slots if and only if it has entries. -/
lemma ne_nil_iff (_ : Rep cf c) : layout cf.remainderBits c q ≠ [] ↔ c q ≠ [] :=
  not_congr (runSlots_eq_nil _ _)

/-- The decoder reads the bag of a quotient. -/
lemma decodeRun (h : Rep cf c) (hq : c q ≠ []) (hrend : rend + 1 =
    start (layout cf.remainderBits c) q + (layout cf.remainderBits c q).length) :
    decodeRun cf.remainderBits cf.tbl cf.phys rend (rend + 1)
      (start (layout cf.remainderBits c) q) = (c q, rend + 1) := by
  have hend := start_add_le (m := layout cf.remainderBits c) (h.holds.lt q (h.ne_nil_iff.mpr hq))
  rw [decodeRun_of_occ (fun p _ hp => h.holds.phys p (by omega)) le_rfl]
  exact (decodeRun_iff h.holds.width (h.readable q).fits (h.readable q).ordered
    (h.holds.slots_eq q) hrend
    (by rw [hrend]; exact Nat.le_add_left ..)).mpr (h.readable q).unambiguous

/-- The scan for a remainder in its run. -/
lemma scanRun (h : Rep cf c) (hq : c q ≠ []) (hrend : rend + 1 =
    start (layout cf.remainderBits c) q + (layout cf.remainderBits c q).length) (rem insPos : ℕ) :
    cf.scanRun rend rem (rend + 1) (start (layout cf.remainderBits c) q) insPos =
      scanEntries cf.remainderBits rem (c q) (start (layout cf.remainderBits c) q) insPos := by
  have hend := start_add_le (m := layout cf.remainderBits c) (h.holds.lt q (h.ne_nil_iff.mpr hq))
  exact scanRun_of_decodeRun (fun p _ hp => h.holds.phys p (by omega)) (h.decodeRun hq hrend)

/-- An entry of a bag, as the decoder reads it. -/
lemma decoded {C : ℕ} (h : Rep cf c) (hAB : c q = A ++ (rem, C) :: B) (hrend : rend + 1 =
    start (layout cf.remainderBits c) q + (layout cf.remainderBits c q).length) :
    Decoded cf.remainderBits cf.tbl rend
      (start (layout cf.remainderBits c) q + (runSlots cf.remainderBits A).length) rem C
      (start (layout cf.remainderBits c) q + (runSlots cf.remainderBits A).length +
        cqfEncSlots C rem cf.remainderBits) := by
  have hf : Fits cf.remainderBits (rem, C) :=
    (h.readable q).fits _ (hAB ▸ List.mem_append_right _ (List.mem_cons_self ..))
  have hlt := hf.count.lt
  have hone := one_le_cqfEncSlots C rem cf.remainderBits
  have hlayout : layout cf.remainderBits c q = runSlots cf.remainderBits (A ++ (rem, C) :: B) := by
    rw [layout, hAB]
  have hsum := congrArg List.length hlayout
  rw [length_runSlots] at hsum
  have hfirst :
      cf.tbl (start (layout cf.remainderBits c) q + (runSlots cf.remainderBits A).length) =
        rem := by
    have ht := h.holds.tbl q (runSlots cf.remainderBits A).length (by omega)
    obtain ⟨l, hl⟩ := entrySlots_eq_cons cf.remainderBits (rem, C)
    rw [hlayout, runSlots_append, runSlots_cons, hl, List.cons_append,
      List.getElem?_append_right le_rfl, Nat.sub_self, List.getElem?_cons_zero] at ht
    exact (Option.some.inj ht).symm
  exact ⟨by omega, hfirst, hf.pos, by omega, rfl, by omega⟩

end Rep

/-- The contents `c` fit a filter of `ns` slots, with one of the occurrences not yet in. -/
structure Fitting (rbits ns : ℕ) (c : ℕ → List (ℕ × ℕ)) : Prop where
  slots : start (layout rbits c) ns ≤ ns
  count : total ns c ≤ ns * 16 % 2 ^ 64

instance (rbits ns : ℕ) (c : ℕ → List (ℕ × ℕ)) : Decidable (Fitting rbits ns c) :=
  decidable_of_iff (start (layout rbits c) ns ≤ ns ∧ total ns c ≤ ns * 16 % 2 ^ 64)
    ⟨fun h => ⟨h.1, h.2⟩, fun h => ⟨h.slots, h.count⟩⟩

/-- What adding a remainder to the run of `q` may answer: a refusal that leaves the filter as it
was, which of a clean filter says that the new contents do not fit, or the filter with the new
contents. -/
def Added (cf : CqfFilter) (c : ℕ → List (ℕ × ℕ)) (q rem : ℕ) (r : CqfErr × CqfFilter) : Prop :=
  (∃ e, e ≠ .ok ∧ r = (e, cf) ∧ (CqfFilter.Clean cf (layout cf.remainderBits c) →
    ¬ Fitting cf.remainderBits cf.numSlots (Function.update c q (add rem (c q))))) ∨
  ∃ cf', r = (.ok, cf') ∧ Alike cf cf' ∧ Rep cf' (Function.update c q (add rem (c q))) ∧
    Fitting cf.remainderBits cf.numSlots (Function.update c q (add rem (c q))) ∧
    (CqfFilter.Clean cf (layout cf.remainderBits c) →
      CqfFilter.Clean cf' (layout cf.remainderBits (Function.update c q (add rem (c q)))))

section Added

variable {q rem : ℕ}

/-- The slots that the new contents take. -/
lemma start_added (c : ℕ → List (ℕ × ℕ)) (rbits rem : ℕ) {ns : ℕ} (hq : q < ns) :
    start (layout rbits (Function.update c q (add rem (c q)))) ns + (layout rbits c q).length =
      start (layout rbits c) ns + (runSlots rbits (add rem (c q))).length := by
  have hstart := start_update_of_lt (m := layout rbits c) (l := runSlots rbits (add rem (c q))) hq
  rwa [← layout_update] at hstart

/-- A run that gains the new remainder. -/
lemma Rep.added (h : Rep cf c) (hq : q < cf.numSlots)
    (hr : Readable cf.remainderBits (add rem (c q)))
    (hcount : ¬ cf.numSlots * 16 % 2 ^ 64 ≤ cf.count) {l : List ℕ}
    (hl : l = runSlots cf.remainderBits (add rem (c q)))
    (hg : Gained cf cf' (layout cf.remainderBits c)
      (Function.update (layout cf.remainderBits c) q l)) :
    Added cf c q rem (.ok, cf') := by
  have hsize := size_add (h.readable q).ordered rem
  have htotal := total_update (c := c) hq (add rem (c q))
  have hold := h.count
  subst hl
  rw [← layout_update] at hg
  have hroom := hg.holds.room
  rw [hg.alike.numSlots] at hroom
  refine .inr
    ⟨cf', rfl, hg.alike, ⟨by rw [hg.alike.remainderBits]; exact hg.holds, fun i => ?_, ?_⟩,
    ⟨hroom, ?_⟩, hg.clean⟩
  · rw [hg.alike.remainderBits]
    by_cases hi : i = q
    · rw [hi, Function.update_self]
      exact hr
    · rw [Function.update_of_ne hi]
      exact h.readable i
  · rw [hg.alike.numSlots, hg.count, hold]
    omega
  · omega

/-- A filter without a free slot refuses a remainder that takes one more. -/
lemma added_full (hq : q < cf.numSlots) (hall : ∀ p < cf.numSlots, cf.phys p = true)
    (hlen : (runSlots cf.remainderBits (add rem (c q))).length =
      (layout cf.remainderBits c q).length + 1) :
    Added cf c q rem (.full, cf) := by
  refine .inl ⟨.full, nofun, rfl, fun hclean hfit => ?_⟩
  have hstart := start_added c cf.remainderBits rem hq
  have h1 := hfit.slots
  have h2 : cf.numSlots ≤ start (layout cf.remainderBits c) cf.numSlots := by
    by_contra hlt
    have := hclean _ le_rfl
    rw [hall _ (by omega)] at this
    cases this
  omega

/-- A remainder that has an entry in the run. -/
lemma Rep.added_found {C : ℕ} (h : Rep cf c) (hr : Readable cf.remainderBits (add rem (c q)))
    (hcount : ¬ cf.numSlots * 16 % 2 ^ 64 ≤ cf.count) (hq : q < cf.numSlots)
    (hm : layout cf.remainderBits c q ≠ [])
    (hrend : rend + 1 = start (layout cf.remainderBits c) q + (layout cf.remainderBits c q).length)
    (hAB : c q = A ++ (rem, C) :: B) (haround : Around rem A B) :
    Added cf c q rem (cf.increment rem (start (layout cf.remainderBits c) q) rend
      (start (layout cf.remainderBits c) q + (runSlots cf.remainderBits A).length) C
      (start (layout cf.remainderBits c) q + (runSlots cf.remainderBits A).length +
        cqfEncSlots C rem cf.remainderBits)) := by
  have hr' := hr
  rw [hAB, haround.add_found] at hr'
  have hf : Fits cf.remainderBits (rem, C + 1) :=
    hr'.fits _ (List.mem_append_right _ (List.mem_cons_self ..))
  have hfC : Fits cf.remainderBits (rem, C) :=
    (h.readable q).fits _ (hAB ▸ List.mem_append_right _ (List.mem_cons_self ..))
  have hlt := hf.count.lt
  have hlayout : layout cf.remainderBits c q = runSlots cf.remainderBits (A ++ (rem, C) :: B) := by
    rw [layout, hAB]
  have hnew :
    recounted cf.remainderBits (layout cf.remainderBits c q)
      (runSlots cf.remainderBits A).length rem C =
      runSlots cf.remainderBits (add rem (c q)) := by
    rw [hlayout, recounted_runSlots h.holds.width hf hfC.pos, hAB, haround.add_found]
  rcases h.holds.increment_cases hm hrend (h.decoded hAB hrend) with
    ⟨hover, -⟩ | ⟨hroom, he⟩ | ⟨cf', he, -, hg⟩
  · omega
  · refine .inl ⟨.full, nofun, he, fun _ hfit => ?_⟩
    have hstart := start_added c cf.remainderBits rem hq
    have h1 := hfit.slots
    rw [hAB, haround.add_found, hlayout, length_runSlots, length_runSlots] at hstart
    rw [hAB, haround.add_found] at h1
    omega
  · rw [he]
    exact h.added hq hr hcount hnew hg

/-- A remainder that is new in the run. -/
lemma Rep.added_missing (h : Rep cf c) (hr : Readable cf.remainderBits (add rem (c q)))
    (hcount : ¬ cf.numSlots * 16 % 2 ^ 64 ≤ cf.count) (hq : q < cf.numSlots)
    (hrem : rem < 2 ^ cf.remainderBits) (hm : layout cf.remainderBits c q ≠ [])
    (hrend : rend + 1 = start (layout cf.remainderBits c) q + (layout cf.remainderBits c q).length)
    (hAB : c q = A ++ B) (haround : Around rem A B) :
    Added cf c q rem (cf.insertAt rem rend
      (start (layout cf.remainderBits c) q + (runSlots cf.remainderBits A).length)) := by
  have hlayout : layout cf.remainderBits c q = runSlots cf.remainderBits (A ++ B) := by
    rw [layout, hAB]
  have hnew : insertedRun (layout cf.remainderBits c q) (runSlots cf.remainderBits A).length rem =
      runSlots cf.remainderBits (add rem (c q)) := by
    rw [hlayout, insertedRun_runSlots, hAB, haround.add_missing]
  have hnewlen :
      (runSlots cf.remainderBits (add rem (c q))).length =
        (layout cf.remainderBits c q).length + 1 := by
    rw [hAB, haround.add_missing, hlayout, length_runSlots, runSlots_append, List.length_append,
      show cqfEncSlots 1 rem cf.remainderBits = 1 from rfl]
    omega
  have hle : (runSlots cf.remainderBits A).length ≤ (layout cf.remainderBits c q).length := by
    rw [hlayout, runSlots_append, List.length_append]
    exact Nat.le_add_right ..
  rcases h.holds.insertAt_cases hm hrem hrend fun _ => ⟨_, hle, rfl⟩ with
    ⟨he, hall⟩ | ⟨cf', he, -, a, -, ha, hg⟩
  · rw [he]
    exact added_full hq hall hnewlen
  · obtain rfl : (runSlots cf.remainderBits A).length = a := by omega
    rw [he]
    exact h.added hq hr hcount hnew hg

/-- A quotient without a run gets one. -/
lemma Rep.added_new (h : Rep cf c) (hr : Readable cf.remainderBits (add rem (c q)))
    (hcount : ¬ cf.numSlots * 16 % 2 ^ 64 ≤ cf.count) (hq : q < cf.numSlots)
    (hrem : rem < 2 ^ cf.remainderBits)
    (hm : c q = []) : Added cf c q rem (cf.insertNew q rem) := by
  have hm' : layout cf.remainderBits c q = [] := (runSlots_eq_nil _ _).mpr hm
  have hnew : [rem] = runSlots cf.remainderBits (add rem (c q)) := by
    rw [hm]
    rfl
  rcases h.holds.insertNew_cases hq hm' hrem with ⟨he, hall⟩ | ⟨cf', he, -, hg⟩
  · rw [he]
    exact added_full hq hall (by rw [← hnew, hm']; rfl)
  · rw [he]
    exact h.added hq hr hcount hnew hg

end Added

/-- An insertion adds one occurrence, if the new run can be read back; into a clean filter it
succeeds exactly when the new contents fit. -/
lemma Rep.insert (h : Rep cf c)
    (hr : Readable cf.remainderBits (add (cf.remainder hash) (c (cf.quotient hash)))) :
    Added cf c (cf.quotient hash) (cf.remainder hash) (cqfFilterInsert cf hash) := by
  have hq := h.holds.quotient_lt hash
  have hrem := remainder_lt cf hash
  unfold cqfFilterInsert
  dsimp only
  generalize cf.quotient hash = q at *
  generalize cf.remainder hash = rem at *
  by_cases hcount : cf.numSlots * 16 % 2 ^ 64 ≤ cf.count
  · rw [if_pos hcount]
    refine .inl ⟨.full, nofun, rfl, fun _ hfit => ?_⟩
    have hsize := size_add (h.readable q).ordered rem
    have htotal := total_update (c := c) hq (add rem (c q))
    have := hfit.count
    have := h.count
    omega
  rw [if_neg hcount]
  by_cases hm : c q = []
  · rw [if_neg fun hocc => (h.holds.occ q).mp hocc ((runSlots_eq_nil _ _).mpr hm)]
    exact h.added_new hr hcount hq hrem hm
  · have hm' := h.ne_nil_iff.mpr hm
    have hrend := h.holds.selectRun_rank hm'
    have hlen := List.length_pos_iff.mpr hm'
    rw [if_pos ((h.holds.occ q).mpr hm')]
    unfold insertRun
    dsimp only
    rw [h.holds.rstart_eq hm']
    generalize cf.selectRun (cf.rankOcc q) = rend at hrend
    have hscan :
        scanStart (start (layout cf.remainderBits c) q) rend =
          start (layout cf.remainderBits c) q :=
      if_neg (by omega)
    rw [hscan, h.scanRun hm hrend]
    rcases cut (h.readable q).ordered rem with ⟨A, C, B, hAB, haround⟩ | ⟨A, B, hAB, haround⟩
    · have hfound : scanEntries cf.remainderBits rem (c q) (start (layout cf.remainderBits c) q)
          ((rend + 1) % cf.numSlots) =
          .found (start (layout cf.remainderBits c) q + (runSlots cf.remainderBits A).length) C
            (start (layout cf.remainderBits c) q + (runSlots cf.remainderBits A).length +
              cqfEncSlots C rem cf.remainderBits) := by
        rw [hAB]
        exact scanEntries_found haround C
      rw [hfound]
      exact h.added_found hr hcount hq hm' hrend hAB haround
    · have hmissing : scanEntries cf.remainderBits rem (c q) (start (layout cf.remainderBits c) q)
          ((rend + 1) % cf.numSlots) =
          .missing (start (layout cf.remainderBits c) q +
            (runSlots cf.remainderBits A).length) := by
        rw [hAB]
        exact scanEntries_missing haround (hAB ▸ hm)
      rw [hmissing]
      exact h.added_missing hr hcount hq hrem hm' hrend hAB haround

end Draugr.Cqf
