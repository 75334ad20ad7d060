import Draugr.Cqf.Contents
import Draugr.Cqf.InsertOnly

/-!
# Quotients that were never inserted

Runs are stored away from the slots of their quotients, so the slot of a quotient without a run may
be the end of another run. `find_run` then gives the run of the last occupied quotient before it,
going around the end of the table, and the three queries search in that. In every state that
insertions reach, a hash whose quotient was never inserted gets the answers of an absent one exactly
if that run shows no entry with its remainder (`foreign_iff`).
-/

namespace Draugr.Cqf
open Draugr.Lib Draugr.Qf CqfFilter

section Search

variable {rbits rem rend n pos e x C : ℕ} {tbl : ℕ → ℕ} {occ : ℕ → Bool} {ps : List (ℕ × ℕ)}

/-- The entries that a search for `rem` goes over: a search for the remainder 0 goes over all of
them. -/
def searched (rem : ℕ) (ps : List (ℕ × ℕ)) : List (ℕ × ℕ) :=
  if rem = 0 then ps else ps.takeWhile fun p => decide (p.1 ≤ rem)

/-- A search for `rem` meets an entry of it. -/
def Shows (rem : ℕ) (ps : List (ℕ × ℕ)) : Prop := ∃ p ∈ searched rem ps, p.1 = rem

instance (rem : ℕ) (ps : List (ℕ × ℕ)) : Decidable (Shows rem ps) := by
  unfold Shows
  infer_instance

/-- An empty run shows nothing. -/
lemma not_shows_nil : ¬ Shows rem [] := by
  rintro ⟨p, hp, -⟩
  unfold searched at hp
  split_ifs at hp <;> cases hp

/-- What a run shows from its first entry on. -/
lemma shows_cons : Shows rem ((x, C) :: ps) ↔ x = rem ∨ (rem = 0 ∨ x ≤ rem) ∧ Shows rem ps := by
  unfold Shows searched
  by_cases h0 : rem = 0
  · simp [h0]
  · by_cases hx : x ≤ rem
    · simp [h0, hx]
    · simp [h0, hx, (not_le.mp hx).ne']

/-- `cqf_filter_lookup` finds only what the entries show. -/
lemma shows_of_lookupRun : ∀ {n pos e : ℕ} {ps : List (ℕ × ℕ)},
    decodeRun rbits tbl occ rend n pos = (ps, e) →
    lookupRun rbits tbl occ rend rem n pos = true → Shows rem ps
  | 0, pos, e, ps, _, hl => by cases hl
  | n + 1, pos, e, ps, h, hl => by
    rw [decodeRun] at h
    rw [lookupRun] at hl
    split_ifs at h hl with hr
    cases hd : cqfDecodeEntry rbits tbl occ rend pos with
    | none =>
      rw [hd] at hl
      cases hl
    | some r =>
      obtain ⟨x, C, next⟩ := r
      rw [hd] at h hl
      dsimp only at h hl
      rcases hrec : decodeRun rbits tbl occ rend n next with ⟨ps', e'⟩
      rw [hrec] at h
      cases h
      rw [shows_cons]
      split_ifs at hl with hx hlt
      · exact .inl hx
      · exact .inr ⟨.inr (not_lt.mp hlt), shows_of_lookupRun hrec hl⟩

/-- `cqf_filter_count_occurrences` counts exactly what the entries show. -/
lemma countRun_pos_iff : ∀ {n pos e : ℕ} {ps : List (ℕ × ℕ)},
    (∀ p, pos ≤ p → p ≤ rend → occ p = true) →
    decodeRun rbits tbl occ rend n pos = (ps, e) →
    (0 < countRun rbits tbl occ rend rem n pos ↔ Shows rem ps)
  | 0, pos, e, ps, _, h => by
    cases h
    exact iff_of_false (lt_irrefl 0) not_shows_nil
  | n + 1, pos, e, ps, hocc, h => by
    rw [decodeRun] at h
    rw [countRun]
    split_ifs at h ⊢ with hr
    · cases h
      exact iff_of_false (lt_irrefl 0) not_shows_nil
    cases hd : cqfDecodeEntry rbits tbl occ rend pos with
    | none =>
      rw [hd] at h
      cases h
      exact iff_of_false (lt_irrefl 0) not_shows_nil
    | some r =>
      obtain ⟨x, C, next⟩ := r
      rw [hd] at h
      have hdec := decoded (fun hle => hocc pos le_rfl hle) hd
      have hnext := hdec.slots
      dsimp only at h ⊢
      rcases hrec : decodeRun rbits tbl occ rend n next with ⟨ps', e'⟩
      rw [hrec] at h
      cases h
      have ih := countRun_pos_iff (fun p hp => hocc p (by omega)) hrec
      rw [shows_cons]
      split_ifs with hx hlt
      · exact iff_of_true hdec.one_le (.inl hx)
      · refine iff_of_false (lt_irrefl 0) ?_
        rintro (h | ⟨h | h, -⟩) <;> omega
      · rw [ih]
        exact ⟨fun hs => .inr ⟨by omega, hs⟩, fun hs => hs.elim (fun h => absurd h hx) And.right⟩

/-- The scan of `cqf_filter_delete` finds nothing that the entries do not show. -/
lemma scanEntries_of_not_shows : ∀ {ps : List (ℕ × ℕ)} {pos insPos : ℕ}, ¬ Shows rem ps →
    ∃ p, scanEntries rbits rem ps pos insPos = .missing p
  | [], pos, insPos, _ => ⟨insPos, rfl⟩
  | (x, C) :: ps, pos, insPos, h => by
    rw [shows_cons, not_or] at h
    rw [scanEntries, if_neg h.1]
    split_ifs with hlt
    · exact ⟨pos, rfl⟩
    · exact scanEntries_of_not_shows fun hs => h.2 ⟨.inr (not_lt.mp hlt), hs⟩

end Search

/-! ## `find_run` for a quotient without a run -/

namespace CqfFilter

variable {cf : CqfFilter} {m : ℕ → List ℕ} {q q₀ n k s : ℕ}

/-- The search of `find_run` passes quotients without a run. -/
lemma prevOccupied_down (cf : CqfFilter) : ∀ (k : ℕ) {s n : ℕ}, k ≤ s →
    (∀ i, s - k ≤ i → i < s → cf.occ i = false) →
    cf.prevOccupied (k + n) s = cf.prevOccupied n (s - k)
  | 0, s, n, _, _ => by rw [Nat.zero_add, Nat.sub_zero]
  | k + 1, s, n, hk, hclear => by
    rw [show k + 1 + n = k + n + 1 by omega, prevOccupied]
    simp only [if_neg (show s ≠ 0 by omega), hclear (s - 1) (by omega) (by omega),
      Bool.false_eq_true, if_false]
    rw [prevOccupied_down cf k (by omega) fun i h1 h2 => hclear i (by omega) (by omega)]
    congr 1
    omega

/-- The search of `find_run` stops at an occupied quotient. -/
lemma prevOccupied_stop (ho : cf.occ q₀ = true) : cf.prevOccupied (n + 1) (q₀ + 1) = some q₀ := by
  rw [prevOccupied]
  simp only [if_neg (Nat.succ_ne_zero q₀), Nat.add_sub_cancel, ho, if_true]

/-- The search of `find_run` finds the last occupied quotient before `q`. -/
lemma prevOccupied_below (hlt : q₀ < q) (ho : cf.occ q₀ = true)
    (hclear : ∀ i, q₀ < i → i < q → cf.occ i = false)
    (hn : q ≤ n) : cf.prevOccupied n q = some q₀ := by
  obtain ⟨j, rfl⟩ := Nat.exists_eq_add_of_le (show q - 1 - q₀ + 1 ≤ n by omega)
  rw [show q - 1 - q₀ + 1 + j = q - 1 - q₀ + (j + 1) by omega,
    prevOccupied_down cf _ (by omega) fun i h1 h2 => hclear i (by omega) h2,
    show q - (q - 1 - q₀) = q₀ + 1 by omega]
  exact prevOccupied_stop ho

/-- If there is none before `q`, it goes on from the end of the table. -/
lemma prevOccupied_around (hq : q < cf.numSlots) (h : ∀ i < q, cf.occ i = false) (hle : q ≤ q₀)
    (hlt : q₀ < cf.numSlots) (ho : cf.occ q₀ = true)
    (hclear : ∀ i, q₀ < i → i < cf.numSlots → cf.occ i = false) :
    cf.prevOccupied cf.numSlots q = some q₀ := by
  have hround : ∀ j, cf.prevOccupied (j + 1) 0 = cf.prevOccupied (j + 1) cf.numSlots := by
    intro j
    rw [prevOccupied, prevOccupied, if_pos rfl, if_neg (show cf.numSlots ≠ 0 by omega)]
  obtain ⟨j, hj⟩ := Nat.exists_eq_add_of_lt hq
  have hdown := prevOccupied_down cf q (s := q) (n := j + 1) le_rfl fun i _ hi => h i hi
  rw [show q + (j + 1) = cf.numSlots by omega, Nat.sub_self, hround] at hdown
  rw [hdown]
  obtain ⟨i, hi⟩ := Nat.exists_eq_add_of_le (show cf.numSlots - 1 - q₀ + 1 ≤ j + 1 by omega)
  rw [show j + 1 = cf.numSlots - 1 - q₀ + (i + 1) by omega,
    prevOccupied_down cf (cf.numSlots - 1 - q₀) (by omega) fun i h1 h2 => hclear i (by omega) h2,
    show cf.numSlots - (cf.numSlots - 1 - q₀) = q₀ + 1 by omega]
  exact prevOccupied_stop ho

/-- The number of the run of the last occupied quotient before `q`, going around the end of the
table. -/
def rankBefore (cf : CqfFilter) (q : ℕ) : ℕ :=
  if 0 < cf.rankOcc q then cf.rankOcc q else cf.rankOcc (cf.numSlots - 1)

/-- The entries that `cqf_decode_entry` reads one after the other in the run number `k`. -/
def readRun (cf : CqfFilter) (k : ℕ) : List (ℕ × ℕ) :=
  (decodeRun cf.remainderBits cf.tbl cf.phys (cf.selectRun k) (cf.selectRun k + 1)
    (cf.runStart k)).1

/-- The last set bit of a vector below a place. -/
lemma last_set {b : Bits} (hpos : 0 < cnt b n) :
    ∃ e < n, b e = true ∧ cnt b (e + 1) = cnt b n ∧ ∀ i, e < i → i < n → b i = false := by
  obtain ⟨e, he, hs⟩ := exists_isSelect (b := b) (n := n) (k := cnt b n - 1) (by omega)
  have hc : cnt b (e + 1) = cnt b n := by
    rw [cnt_succ_of_set hs.1, hs.2]
    omega
  exact ⟨e, he, hs.1, hc, fun i h1 h2 => clear_of_cnt_eq hc h1 h2⟩

/-- `find_run` for a quotient without a run whose slot is a run end. -/
lemma Holds.findRun_of_run (h : Holds cf m) (hq : q < cf.numSlots) (ho : cf.occ q = false)
    (hrun : cf.run q = true) :
    ∃ q₀, m q₀ ≠ [] ∧ cf.rankOcc q₀ = cf.rankBefore q ∧
      cf.findRun q = some (cf.runStart (cf.rankOcc q₀), cf.selectRun (cf.rankOcc q₀)) := by
  have hrank := h.rankOcc_eq hq
  rw [cnt_succ_of_clear ho] at hrank
  have hsome : ∃ q₀, cf.occ q₀ = true ∧ cf.rankOcc q₀ = cf.rankBefore q ∧
      cf.prevOccupied cf.numSlots q = some q₀ := by
    unfold rankBefore
    split_ifs with hpos
    · obtain ⟨q₀, hlt, hset, hc, hclear⟩ := last_set (hrank ▸ hpos)
      refine ⟨q₀, hset, ?_, prevOccupied_below hlt hset hclear hq.le⟩
      rw [h.rankOcc_eq (hlt.trans hq), hc, hrank]
    · have hall : 0 < cnt cf.occ cf.numSlots := by
        by_contra h0
        have hst := h.start_eq_zero (n := cf.numSlots) (by omega)
        rw [h.rest q (by omega)] at hrun
        cases hrun
      obtain ⟨q₀, hlt, hset, hc, hclear⟩ := last_set hall
      have hbelow : ∀ i < q, cf.occ i = false := by
        intro i hi
        by_contra hne
        have hmono := cnt_lt_of_set (eq_true_of_ne_false hne) hi
        omega
      have hle : q ≤ q₀ := by
        by_contra hlt'
        rw [hbelow q₀ (not_le.mp hlt')] at hset
        cases hset
      refine ⟨q₀, hset, ?_, prevOccupied_around hq hbelow hle hlt hset hclear⟩
      rw [h.rankOcc_eq hlt, hc, h.rankOcc_last]
  obtain ⟨q₀, hset, hk, hprev⟩ := hsome
  refine ⟨q₀, (h.occ q₀).mp hset, hk, ?_⟩
  rw [findRun, if_neg (by simp [ho]), if_pos hrun, hprev]

end CqfFilter

/-! ## The answers -/

variable {cf : CqfFilter} {m : ℕ → List ℕ} {hash : UInt64}

/-- The answers for an absent hash. -/
structure Absent (cf : CqfFilter) (hash : UInt64) : Prop where
  lookup : cqfFilterLookup cf hash = false
  count : cqfFilterCountOccurrences cf hash = 0
  delete : cqfFilterDelete cf hash = (.notFound, cf)

/-- The answers for a quotient without a run. -/
lemma CqfFilter.Holds.absent_iff (h : Holds cf m) (hcount : (∃ q, m q ≠ []) → 0 < cf.count)
    (hm : m (cf.quotient hash) = []) : Absent cf hash ↔
      (cf.run (cf.quotient hash) = true →
        ¬ Shows (cf.remainder hash) (cf.readRun (cf.rankBefore (cf.quotient hash)))) := by
  have hq := h.quotient_lt hash
  have ho : cf.occ (cf.quotient hash) = false := by
    by_contra hne
    exact (h.occ _).mp (eq_true_of_ne_false hne) hm
  cases hrun : cf.run (cf.quotient hash) with
  | false =>
    have hfind : cf.findRun (cf.quotient hash) = none := by
      rw [findRun, if_neg (by simp [ho]), if_neg (by simp [hrun])]
    refine iff_of_true ⟨?_, ?_, ?_⟩ (absurd · Bool.false_ne_true)
    · simp [cqfFilterLookup, hfind]
    · simp [cqfFilterCountOccurrences, hfind]
    · simp [cqfFilterDelete, hfind]
  | true =>
    obtain ⟨q₀, hm₀, hk, hfind⟩ := h.findRun_of_run hq ho hrun
    have hpos := hcount ⟨q₀, hm₀⟩
    have hrend := h.selectRun_rank hm₀
    have hend := start_add_le (m := m) (h.lt q₀ hm₀)
    have hlen := List.length_pos_iff.mpr hm₀
    have hphys : ∀ p, start m q₀ ≤ p → p ≤ cf.selectRun (cf.rankOcc q₀) → cf.phys p = true :=
      fun p _ hp => h.phys p (by omega)
    rw [← hk, readRun, h.runStart_eq hm₀]
    rw [h.runStart_eq hm₀] at hfind
    generalize cf.selectRun (cf.rankOcc q₀) = rend at hfind hrend hphys
    have hscan : scanStart (start m q₀) rend = start m q₀ := if_neg (by omega)
    rcases hdec : decodeRun cf.remainderBits cf.tbl cf.phys rend (rend + 1) (start m q₀) with
      ⟨ps, e⟩
    have hcnt : cqfFilterCountOccurrences cf hash =
        countRun cf.remainderBits cf.tbl cf.phys rend (cf.remainder hash) (rend + 1)
        (start m q₀) := by
      rw [cqfFilterCountOccurrences, if_neg hpos.ne', hfind]
      simp only [hscan]
    have hiff := (@countRun_pos_iff _ (cf.remainder hash)) hphys hdec
    rw [← hcnt] at hiff
    refine ⟨fun ha _ hs => absurd (hiff.mpr hs) (by rw [ha.count]; exact lt_irrefl 0), fun hs => ?_⟩
    have hs := hs rfl
    refine ⟨?_, Nat.eq_zero_of_not_pos (mt hiff.mp hs), ?_⟩
    · rw [cqfFilterLookup, if_neg hpos.ne', hfind]
      simp only [hscan]
      by_contra hne
      exact hs (shows_of_lookupRun hdec (eq_true_of_ne_false hne))
    · obtain ⟨p, hp⟩ := (@scanEntries_of_not_shows cf.remainderBits _ _ (start m q₀) (rend + 1)) hs
      have hsr := (@scanRun_of_decodeRun _ (cf.remainder hash) _ _ _ (rend + 1)) hphys hdec
      rw [cqfFilterDelete, if_neg hpos.ne']
      simp only [hfind, hscan, hsr, hp]

/-! ## Insertions only -/

/-- The hashes whose insertion succeeds. -/
def accepted (cf : CqfFilter) : List UInt64 → List UInt64
  | [] => []
  | hash :: hashes =>
    let r := cqfFilterInsert cf hash
    if r.1 = .ok then hash :: accepted r.2 hashes else accepted r.2 hashes

/-- Only the quotients of `hashes` have a run, and with a run the filter is not empty. -/
structure Covers (cf₀ cf : CqfFilter) (m : ℕ → List ℕ) (hashes : List UInt64) : Prop where
  holds : Holds cf m
  alike : Alike cf₀ cf
  quotients : ∀ q, m q ≠ [] → ∃ x ∈ hashes, cf₀.quotient x = q
  count : (∃ q, m q ≠ []) → 0 < cf.count

variable {cf₀ : CqfFilter}

/-- Insertions keep it. -/
lemma Covers.inserts : ∀ {hashes before : List UInt64} {cf : CqfFilter} {m : ℕ → List ℕ},
    Covers cf₀ cf m before →
    ∃ m', Covers cf₀ (inserts cf hashes) m' (before ++ accepted cf hashes)
  | [], before, cf, m, h => ⟨m, by
    rw [accepted, List.append_nil]
    exact h⟩
  | hash :: hashes, before, cf, m, h => by
    rcases h.holds.insert_cases hash with ⟨e, hne, he⟩ | ⟨cf', l, he, hg⟩
    · rw [accepted, Cqf.inserts, List.foldl_cons, he]
      simp only [if_neg hne]
      exact Covers.inserts h
    · rw [accepted, Cqf.inserts, List.foldl_cons, he]
      simp only [if_true]
      have hstep : Covers cf₀ cf' (Function.update m (cf.quotient hash) l) (before ++ [hash]) := by
        refine ⟨hg.holds, h.alike.trans hg.alike, fun q hq => ?_,
          fun _ => hg.count ▸ Nat.succ_pos _⟩
        by_cases hqh : q = cf.quotient hash
        · exact ⟨hash,
            List.mem_append_right _ (List.mem_singleton_self _), by rw [hqh, h.alike.quotient]⟩
        · rw [Function.update_of_ne hqh] at hq
          obtain ⟨x, hx, hxq⟩ := h.quotients q hq
          exact ⟨x, List.mem_append_left _ hx, hxq⟩
      have ih := (@Covers.inserts hashes) hstep
      rwa [List.append_assoc, List.singleton_append] at ih

/-- Hashes of other quotients, as a test. -/
lemma other_of_all {cf₀ : CqfFilter} {hashes : List UInt64} {hash : UInt64}
    (h : ((accepted cf₀ hashes).all fun x => cf₀.quotient x != cf₀.quotient hash) = true) :
    ∀ x ∈ accepted cf₀ hashes, cf₀.quotient x ≠ cf₀.quotient hash :=
  fun x hx => bne_iff_ne.mp (List.all_eq_true.mp h x hx)

/-- In every state that insertions reach from a new filter, a hash whose quotient was never inserted
gets the answers of an absent hash exactly if its slot is no run end or the last run before it shows
no entry with its remainder. -/
theorem foreign_iff (malloc : Bool) (capacity fpBits : ℕ) (cf₀ : CqfFilter)
    (hc : cqfFilterCreate malloc capacity fpBits = some (some cf₀)) (hashes : List UInt64)
    (hash : UInt64) (hnew : ∀ x ∈ accepted cf₀ hashes, cf₀.quotient x ≠ cf₀.quotient hash) :
    let cf := inserts cf₀ hashes
    (cqfFilterLookup cf hash = false ∧ cqfFilterCountOccurrences cf hash = 0 ∧
        cqfFilterDelete cf hash = (.notFound, cf)) ↔
      (cf.run (cf.quotient hash) = true →
        ¬ Shows (cf.remainder hash) (cf.readRun (cf.rankBefore (cf.quotient hash)))) := by
  intro cf
  obtain ⟨hf, -⟩ := create_eq_some hc
  have hstart : Covers cf₀ cf₀ (fun _ => []) [] :=
    ⟨hf.holds, Alike.refl cf₀, fun q hq => absurd rfl hq, fun ⟨q, hq⟩ => absurd rfl hq⟩
  obtain ⟨m, hcov⟩ := (@Covers.inserts _ hashes) hstart
  have hm : m (cf.quotient hash) = [] := by
    by_contra hne
    obtain ⟨x, hx, hxq⟩ := hcov.quotients _ hne
    rw [hcov.alike.quotient] at hxq
    exact hnew x hx hxq
  rw [← hcov.holds.absent_iff hcov.count hm]
  exact ⟨fun ⟨h1, h2, h3⟩ => ⟨h1, h2, h3⟩, fun h => ⟨h.lookup, h.count, h.delete⟩⟩

/-- The run of quotient 1 ends in slot 0, and the remainder 5 is not in it. -/
theorem foreign_five : ∃ cf₀, cqfFilterCreate true 64 8 = some (some cf₀) ∧
    cqfFilterLookup (inserts cf₀ [260]) 5 = false ∧
    cqfFilterCountOccurrences (inserts cf₀ [260]) 5 = 0 ∧
      cqfFilterDelete (inserts cf₀ [260]) 5 = (.notFound, inserts cf₀ [260]) :=
  ⟨_, rfl, (foreign_iff true 64 8 _ rfl [260] 5 (other_of_all (by decide +kernel))).mpr
    (by decide +kernel)⟩

/-- The run of quotient 1 ends in slot 0, and its remainder 4 is found for the quotient 0. -/
theorem foreign_fails : ¬ ∀ (malloc : Bool) (capacity fpBits : ℕ) (cf₀ : CqfFilter),
    cqfFilterCreate malloc capacity fpBits = some (some cf₀) →
    ∀ (hashes : List UInt64) (hash : UInt64),
    (∀ x ∈ accepted cf₀ hashes, cf₀.quotient x ≠ cf₀.quotient hash) →
    cqfFilterLookup (inserts cf₀ hashes) hash = false ∧
    cqfFilterCountOccurrences (inserts cf₀ hashes) hash = 0 ∧
      cqfFilterDelete (inserts cf₀ hashes) hash = (.notFound, inserts cf₀ hashes) := by
  intro hall
  have h := (hall true 64 8 _ rfl [260] 4 (other_of_all (by decide +kernel))).1
  exact absurd h (by decide +kernel)

end Draugr.Cqf
