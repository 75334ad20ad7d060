import Mathlib.Data.List.Chain
import Mathlib.Data.List.TakeWhile
import Draugr.Cqf.Counter

/-!
# Decoding a run

The slots that the entries of a run occupy, and what `cqf_decode_entry` makes of them. The decoder
looks for the next copy of a remainder in the whole rest of the run. For a count of at least two
this is the copy that ends the entry; for a count of one there is none, and the entry is read back
only if no symbol of a later entry equals its remainder. That is the whole condition:
`decode_run_iff` says that a run is read back as it was written if and only if no remainder with
count one is a symbol of a later entry.
-/

namespace Draugr.Cqf

variable {rbits x C n i pos rend : ℕ} {tbl : ℕ → ℕ} {ps : List (ℕ × ℕ)}

/-! ## Writing -/

/-- The slots of an entry. -/
def entrySlots (rbits : ℕ) (p : ℕ × ℕ) : List ℕ :=
  if p.2 ≤ 1 then [p.1]
  else if p.2 = 2 then [p.1, p.1]
  else if p.1 = 0 then 0 :: 0 :: (cqfEncode p.2 p.1 rbits ++ [0, 0])
  else p.1 :: (cqfEncode p.2 p.1 rbits ++ [p.1])

/-- The slots of a run. -/
def runSlots (rbits : ℕ) (ps : List (ℕ × ℕ)) : List ℕ := ps.flatMap (entrySlots rbits)

/-- The slots of a run are those of its entries. -/
lemma runSlots_cons (rbits : ℕ) (p : ℕ × ℕ) (ps : List (ℕ × ℕ)) :
    runSlots rbits (p :: ps) = entrySlots rbits p ++ runSlots rbits ps := List.flatMap_cons

/-- Writing is done from left to right. -/
lemma remSetAll_append (rbits : ℕ) : ∀ (l l' : List ℕ) (tbl : ℕ → ℕ) (i : ℕ),
    remSetAll rbits tbl i (l ++ l') = remSetAll rbits (remSetAll rbits tbl i l) (i + l.length) l'
  | [], l', tbl, i => rfl
  | v :: l, l', tbl, i => by
    rw [List.cons_append, remSetAll, remSetAll_append rbits l l', remSetAll, List.length_cons,
      Nat.add_right_comm i, Nat.add_assoc]

/-- `cqf_write_entry` writes the slots of the entry. -/
lemma cqfWriteEntry_eq (rbits : ℕ) (tbl : ℕ → ℕ) (pos x C : ℕ) :
    cqfWriteEntry rbits tbl pos x C =
      (remSetAll rbits tbl pos (entrySlots rbits (x, C)), (entrySlots rbits (x, C)).length) := by
  simp only [cqfWriteEntry, entrySlots]
  by_cases h1 : C ≤ 1
  · rw [if_pos h1, if_pos h1]
    rfl
  rw [if_neg h1, if_neg h1]
  by_cases h2 : C = 2
  · rw [if_pos h2, if_pos h2]
    rfl
  rw [if_neg h2, if_neg h2]
  generalize cqfEncode C x rbits = enc
  by_cases hx : x = 0
  · rw [if_pos hx, if_pos hx, hx]
    refine Prod.ext ?_ ?_
    · simp only [remSetAll, remSetAll_append]
      rw [show pos + 1 + 1 = pos + 2 from rfl,
        show pos + 2 + enc.length + 1 = pos + 3 + enc.length by omega]
    · simp only [List.length_cons, List.length_append, List.length_nil]
      omega
  · rw [if_neg hx, if_neg hx]
    refine Prod.ext ?_ ?_
    · simp only [remSetAll, remSetAll_append]
    · simp only [List.length_cons, List.length_append, List.length_nil]
      omega

/-- Writing a run writes its slots. -/
lemma writeRun_eq (rbits : ℕ) : ∀ (ps : List (ℕ × ℕ)) (tbl : ℕ → ℕ) (pos : ℕ),
    writeRun rbits tbl pos ps =
    (remSetAll rbits tbl pos (runSlots rbits ps), pos + (runSlots rbits ps).length)
  | [], tbl, pos => rfl
  | (x, C) :: ps, tbl, pos => by
    simp only [writeRun, cqfWriteEntry_eq]
    rw [writeRun_eq rbits ps, runSlots_cons, remSetAll_append, List.length_append, Nat.add_assoc]

/-- Slots before those written stay. -/
lemma remSetAll_of_lt (rbits : ℕ) : ∀ (l : List ℕ) {tbl : ℕ → ℕ} {i k : ℕ},
    k < i → remSetAll rbits tbl i l k = tbl k
  | [], tbl, i, k, _ => rfl
  | v :: l, tbl, i, k, h => by
    rw [remSetAll, remSetAll_of_lt rbits l (h.trans (Nat.lt_succ_self i)), remSet,
      Function.update_of_ne h.ne]

/-- The slots written hold the values, cut to their width. -/
lemma slots_remSetAll (rbits : ℕ) : ∀ (l : List ℕ) (tbl : ℕ → ℕ) (i : ℕ), (∀ v ∈ l, v < 2 ^ rbits) →
    slots (remSetAll rbits tbl i l) l.length i = l
  | [], tbl, i, _ => rfl
  | v :: l, tbl, i, h => by
    rw [List.length_cons, slots, remSetAll,
      slots_remSetAll rbits l _ _ fun w hw => h w (List.mem_cons_of_mem _ hw),
      remSetAll_of_lt rbits l (Nat.lt_succ_self i), remSet, Function.update_self,
      Nat.mod_eq_of_lt (h v (List.mem_cons_self ..))]

/-! ## Reading -/

/-- A scan stops where the slots stop to satisfy the condition. -/
lemma scan_eq (tbl : ℕ → ℕ) (p : ℕ → Bool) :
    ∀ n i, scan tbl p n i = i + ((slots tbl n i).takeWhile p).length
  | 0, i => rfl
  | n + 1, i => by
    rw [scan, slots, List.takeWhile_cons]
    split
    · rw [scan_eq tbl p n (i + 1), List.length_cons]
      omega
    · rfl

/-- The number of slots. -/
lemma length_slots (tbl : ℕ → ℕ) : ∀ n i, (slots tbl n i).length = n
  | 0, _ => rfl
  | n + 1, i => by rw [slots, List.length_cons, length_slots tbl n]

/-- The first slots of a run. -/
lemma slots_take (tbl : ℕ → ℕ) : ∀ (l : List ℕ) {l' : List ℕ} {n i : ℕ}, slots tbl n i = l ++ l' →
    slots tbl l.length i = l
  | [], _, _, _, _ => rfl
  | v :: l, l', 0, i, h => by cases h
  | v :: l, l', n + 1, i, h => by
    rw [slots, List.cons_append] at h
    obtain ⟨h1, h2⟩ := List.cons.inj h
    rw [List.length_cons, slots, h1, slots_take tbl l h2]

/-- The slots after the first ones. -/
lemma slots_drop (tbl : ℕ → ℕ) : ∀ (l : List ℕ) {l' : List ℕ} {n i : ℕ}, slots tbl n i = l ++ l' →
    slots tbl l'.length (i + l.length) = l'
  | [], l', n, i, h => by
    have hn := length_slots tbl n i
    rw [h] at hn
    rw [List.nil_append] at hn h
    rw [hn]
    exact h
  | v :: l, l', 0, i, h => by cases h
  | v :: l, l', n + 1, i, h => by
    rw [slots, List.cons_append] at h
    obtain ⟨-, h2⟩ := List.cons.inj h
    rw [List.length_cons, ← Nat.add_assoc, Nat.add_right_comm]
    exact slots_drop tbl l h2

/-- A run is read where no slot is a gap. -/
lemma skipGaps_of_occ (n i : ℕ) : skipGaps (fun _ => true) n i = i := by
  cases n with
  | zero => rfl
  | succ n => exact if_pos rfl

/-- The end of an entry is checked against the number of slots that its count takes. -/
lemma cqfDecodeEntry_eq {cnt e : ℕ} (hp : pos ≤ rend)
    (hd : (if tbl pos = 0 then decodeZero rbits tbl rend pos else decodeNonzero rbits tbl rend pos
      (tbl pos)) =
      (cnt, e)) :
    cqfDecodeEntry rbits tbl (fun _ => true) rend pos =
      if e - pos ≠ cqfEncSlots cnt (tbl pos) rbits then none else some (tbl pos, cnt, e) := by
  simp only [cqfDecodeEntry, skipGaps_of_occ]
  rw [if_neg (not_lt.mpr hp), hd]

/-- What the decoder sees at `pos`: the first slot and the rest of the run. -/
structure View (tbl : ℕ → ℕ) (rend pos x : ℕ) (rest : List ℕ) : Prop where
  first : tbl pos = x
  tail : slots tbl rest.length (pos + 1) = rest
  last : rend = pos + rest.length

variable {rest enc : List ℕ}

/-- The number of slots after the first. -/
lemma View.left (hv : View tbl rend pos x rest) : rend + 1 - (pos + 1) = rest.length := by
  rw [hv.last]
  omega

/-- A slot of the rest. -/
lemma View.slot {l l' : List ℕ} {v : ℕ} (hv : View tbl rend pos x rest) (hr : rest = l ++ v :: l') :
    tbl (pos + 1 + l.length) = v := by
  have h := slots_drop tbl l (hv.tail.trans hr)
  rw [List.length_cons, slots] at h
  exact (List.cons.inj h).1

/-- The scan for a copy of the remainder. -/
lemma View.scan_ne (hv : View tbl rend pos x rest) :
    scan tbl (fun v => decide (v ≠ x)) (rend + 1 - (pos + 1)) (pos + 1) =
      pos + 1 + (rest.takeWhile fun v => decide (v ≠ x)).length := by
  rw [scan_eq, hv.left, hv.tail]

/-- Without a copy of the remainder the count is one. -/
lemma View.decodeNonzero_one (hv : View tbl rend pos x rest) (hx : x ∉ rest) :
    decodeNonzero rbits tbl rend pos x = (1, pos + 1) := by
  have htake : (rest.takeWhile fun v => decide (v ≠ x)) = rest := by
    rw [List.takeWhile_eq_self_iff]
    intro v hm
    rw [decide_eq_true_iff]
    rintro rfl
    exact hx hm
  simp only [decodeNonzero]
  rw [hv.scan_ne, htake, if_pos]
  rw [hv.last]
  omega

/-- The symbols before the next copy of the remainder. -/
lemma takeWhile_ne {x : ℕ} (hx : x ∉ enc) (l : List ℕ) :
    ((enc ++ x :: l).takeWhile fun v => decide (v ≠ x)) = enc := by
  rw [List.takeWhile_append_of_pos, List.takeWhile_cons_of_neg, List.append_nil]
  · rw [decide_eq_true_iff]
    exact fun h => h rfl
  · intro v hm
    rw [decide_eq_true_iff]
    rintro rfl
    exact hx hm

/-- The next copy of the remainder ends the entry. -/
lemma View.decodeNonzero_copy {l : List ℕ} (hv : View tbl rend pos x rest)
    (hr : rest = enc ++ x :: l) (hx : x ∉ enc) :
    decodeNonzero rbits tbl rend pos x =
      (if enc = [] then 2 else decodeCount (enc.take encBuf) x rbits, pos + (enc.length + 2)) := by
  have hlen : rest.length = enc.length + (l.length + 1) := by
    rw [hr, List.length_append, List.length_cons]
  have hle : ¬ rend < pos + 1 + enc.length := by
    rw [hv.last, hlen]
    omega
  simp only [decodeNonzero]
  rw [hv.scan_ne, hr, takeWhile_ne hx, if_neg hle, Nat.add_sub_cancel_left,
    slots_take tbl enc (hv.tail.trans hr)]
  by_cases he : enc = []
  · rw [if_pos he, he]
    exact if_pos rfl
  · have hpos : enc.length ≠ 0 := by rwa [Ne, List.length_eq_zero_iff]
    rw [if_neg he, if_neg (by omega)]
    refine Prod.ext rfl ?_
    dsimp only
    omega

/-! ## The remainder zero -/

/-- No zero is followed by a zero. -/
def NoZeroPair (l : List ℕ) : Prop := l.IsChain fun a b => a ≠ 0 ∨ b ≠ 0

/-- The scan over zeros. -/
lemma View.scan_zero (hv : View tbl rend pos x rest) :
    scan tbl (fun v => decide (v = 0)) (rend + 1 - (pos + 1)) (pos + 1) =
      pos + 1 + (rest.takeWhile fun v => decide (v = 0)).length := by
  rw [scan_eq, hv.left, hv.tail]

/-- No zero at the beginning of a list. -/
lemma takeWhile_zero {l : List ℕ} (hl : ∀ v ∈ l.head?, v ≠ 0) :
    (l.takeWhile fun v => decide (v = 0)) = [] := by
  cases l with
  | nil => rfl
  | cons v l =>
    rw [List.takeWhile_cons_of_neg]
    rw [decide_eq_true_iff]
    exact hl v rfl

/-- A single zero. -/
lemma View.decodeZero_one (hv : View tbl rend pos x rest) (hl : ∀ v ∈ rest.head?, v ≠ 0) :
    decodeZero rbits tbl rend pos = (1, pos + 1) := by
  have hcnt : pos + 1 - pos = 1 := Nat.add_sub_cancel_left ..
  simp only [decodeZero]
  rw [hv.scan_zero, takeWhile_zero hl, List.length_nil, Nat.add_zero, hcnt, if_neg (by omega),
    if_neg (by omega)]

/-- The view after the first slot. -/
lemma View.next {v : ℕ} (hv : View tbl rend pos x (v :: rest)) :
    View tbl rend (pos + 1) v rest where
  first := by
    have h := hv.tail
    rw [List.length_cons, slots] at h
    exact (List.cons.inj h).1
  tail := by
    have h := hv.tail
    rw [List.length_cons, slots] at h
    exact (List.cons.inj h).2
  last := by
    rw [hv.last, List.length_cons]
    omega

/-- Two zeros: the scan stops behind the second. -/
lemma View.scan_two (hv : View tbl rend pos x (0 :: rest)) (hl : ∀ v ∈ rest.head?, v ≠ 0) :
    scan tbl (fun v => decide (v = 0)) (rend + 1 - (pos + 1)) (pos + 1) = pos + 2 := by
  rw [hv.scan_zero, List.takeWhile_cons_of_pos, takeWhile_zero hl]
  · rfl
  · exact decide_eq_true rfl

/-- Two zeros without two zeros behind them. -/
lemma View.decodeZero_two (hv : View tbl rend pos x (0 :: rest)) (hl : ∀ v ∈ rest.head?, v ≠ 0)
    (hz : NoZeroPair rest) : decodeZero rbits tbl rend pos = (2, pos + 2) := by
  have hcnt : pos + 2 - pos = 2 := Nat.add_sub_cancel_left ..
  have hv' := hv.next
  have hleft : rend + 1 - (pos + 2) = rest.length := hv'.left
  simp only [decodeZero]
  rw [hv.scan_two hl, hcnt, if_neg (lt_irrefl 2)]
  split
  · rw [scan_eq, hleft, hv'.tail, if_neg]
    rintro ⟨h1, h2, h3⟩
    -- the first zero behind the two would be followed by a zero
    have hsplit := (List.takeWhile_append_dropWhile (p := fun v => decide (v ≠ 0)) (l := rest)).symm
    generalize (rest.takeWhile fun v => decide (v ≠ 0)) = a at hsplit h1 h2 h3
    rcases hd : rest.dropWhile (fun v => decide (v ≠ 0)) with _ | ⟨v, _ | ⟨w, b⟩⟩
    · rw [hd] at hsplit
      have hlen := congrArg List.length hsplit
      rw [List.append_nil] at hlen
      have := hv'.last
      omega
    · rw [hd] at hsplit
      have hlen := congrArg List.length hsplit
      rw [List.length_append, List.length_singleton] at hlen
      have := hv'.last
      omega
    · have hv0 : v = 0 := by
        have hh := List.head?_dropWhile_not (fun v => decide (v ≠ 0)) rest
        rw [hd] at hh
        exact not_not.mp (of_decide_eq_false hh)
      rw [hd] at hsplit
      have hw0 : w = 0 := by
        have := (@View.slot _ _ _ _ _ (a ++ [v]) b w) hv' (by rw [hsplit, List.append_assoc]; rfl)
        rw [List.length_append, List.length_singleton] at this
        rw [← this, ← h3]
        rfl
      rw [hsplit, NoZeroPair, List.isChain_append_cons_cons] at hz
      exact (hz.2.1).elim (fun h => h hv0) (fun h => h hw0)
  · rfl

/-- The symbols up to two zeros. -/
lemma zeroSymbols_eq : ∀ (enc : List ℕ) {l : List ℕ} {n i : ℕ}, slots tbl n i = enc ++ 0 :: 0 :: l →
    rend + 1 = i + n → (∀ v ∈ enc, v ≠ 0) → zeroSymbols tbl rend n i = (enc, i + (enc.length + 2))
  | [], l, n, i, h, hr, _ => by
    rcases n with _ | _ | n
    · cases h
    · have hlen := congrArg List.length h
      rw [length_slots] at hlen
      simp only [List.nil_append, List.length_cons] at hlen
      omega
    · obtain ⟨h1, h2⟩ := List.cons.inj h
      obtain ⟨h2, -⟩ := List.cons.inj h2
      rw [zeroSymbols, if_pos ⟨h1, by omega, h2⟩]
      rfl
  | v :: enc, l, n, i, h, hr, hne => by
    rcases n with _ | n
    · cases h
    · obtain ⟨h1, h2⟩ := List.cons.inj h
      have hv : tbl i ≠ 0 := h1 ▸ hne v (List.mem_cons_self ..)
      rw [zeroSymbols, if_neg fun hc => hv hc.1,
        zeroSymbols_eq enc h2 (by omega) fun w hw => hne w (List.mem_cons_of_mem _ hw), h1]
      refine Prod.ext rfl ?_
      dsimp only
      rw [List.length_cons]
      omega

/-- A counter of the remainder zero. -/
lemma View.decodeZero_counter {l : List ℕ} (hv : View tbl rend pos x (0 :: rest))
    (hr : rest = enc ++ 0 :: 0 :: l) (he : enc ≠ []) (hz : ∀ v ∈ enc, v ≠ 0) :
    decodeZero rbits tbl rend pos =
      (decodeCount (enc.take encBuf) 0 rbits, pos + (enc.length + 4)) := by
  have hcnt : pos + 2 - pos = 2 := Nat.add_sub_cancel_left ..
  have hv' := hv.next
  have hleft : rend + 1 - (pos + 2) = rest.length := hv'.left
  have hlen : rest.length = enc.length + (l.length + 2) := by
    rw [hr, List.length_append, List.length_cons, List.length_cons]
  have hlast := hv'.last
  obtain ⟨v, enc', rfl⟩ := List.exists_cons_of_ne_nil he
  have hhead : ∀ w ∈ rest.head?, w ≠ 0 := by
    rw [hr]
    rintro w ⟨⟩
    exact hz _ (List.mem_cons_self ..)
  have hfirst : tbl (pos + 2) ≠ 0 := by
    have := (@View.slot _ _ _ _ _ [] (enc' ++ 0 :: 0 :: l) v) hv' hr
    rw [show pos + 2 = pos + 1 + 1 + ([] : List ℕ).length from rfl, this]
    exact hz _ (List.mem_cons_self ..)
  have htake : (rest.takeWhile fun v => decide (v ≠ 0)) = v :: enc' := by
    rw [hr, takeWhile_ne fun hm => hz 0 hm rfl]
  have hterm : tbl (pos + 2 + (v :: enc').length + 1) = 0 := by
    have := (@View.slot _ _ _ _ _ (v :: enc' ++ [0]) l 0) hv' (by rw [hr, List.append_assoc]; rfl)
    rw [List.length_append, List.length_singleton] at this
    exact this
  simp only [decodeZero]
  rw [hv.scan_two hhead, hcnt, if_neg (lt_irrefl 2), if_pos ⟨rfl, by omega, hfirst⟩, scan_eq, hleft,
    hv'.tail, htake, if_pos ⟨by omega, by omega, hterm⟩,
    zeroSymbols_eq (v :: enc') (hv'.tail.trans hr) (by omega) hz]
  refine Prod.ext rfl ?_
  dsimp only
  omega

/-! ## One entry -/

/-- A remainder and a count of this development. -/
structure Fits (rbits : ℕ) (p : ℕ × ℕ) : Prop where
  lt : p.1 < 2 ^ rbits
  pos : 1 ≤ p.2
  count : Countable rbits p.1 p.2

instance (rbits : ℕ) (p : ℕ × ℕ) : Decidable (Fits rbits p) :=
  decidable_of_iff (p.1 < 2 ^ rbits ∧ 1 ≤ p.2 ∧ Countable rbits p.1 p.2)
    ⟨fun h => ⟨h.1, h.2.1, h.2.2⟩, fun h => ⟨h.lt, h.pos, h.count⟩⟩

variable {p q : ℕ × ℕ}

/-- The number of slots of an entry. -/
lemma length_entrySlots (rbits : ℕ) (p : ℕ × ℕ) :
    (entrySlots rbits p).length = cqfEncSlots p.2 p.1 rbits := by
  rw [entrySlots, cqfEncSlots]
  split_ifs
  · rfl
  · rfl
  · simp only [List.length_cons, List.length_append, List.length_nil]
    omega
  · simp only [List.length_cons, List.length_append, List.length_nil]
    omega

/-- An entry begins with its remainder. -/
lemma entrySlots_eq_cons (rbits : ℕ) (p : ℕ × ℕ) : ∃ l, entrySlots rbits p = p.1 :: l := by
  rw [entrySlots]
  split_ifs with h1 h2 h3
  · exact ⟨_, rfl⟩
  · exact ⟨_, rfl⟩
  · exact ⟨_, by rw [h3]⟩
  · exact ⟨_, rfl⟩

/-- The slots of an entry fit the table. -/
lemma Fits.slots_lt (hw : Width rbits) (hf : Fits rbits p) {v : ℕ} (hv : v ∈ entrySlots rbits p) :
    v < 2 ^ rbits := by
  have hx := hf.lt
  rw [entrySlots] at hv
  split_ifs at hv with h1 h2 h3
  · rw [List.mem_singleton.mp hv]
    exact hx
  · simp only [List.mem_cons, List.not_mem_nil, or_false, or_self] at hv
    rw [hv]
    exact hx
  · rw [h3] at hx
    simp only [List.mem_cons, List.mem_append, List.not_mem_nil, or_false, or_self] at hv
    rcases hv with rfl | rfl | hv | rfl
    · exact hx
    · exact hx
    · rw [h3] at hv
      exact (mem_cqfEncode_zero hw (by omega) (h3 ▸ hf.count) hv).2
    · exact hx
  · simp only [List.mem_cons, List.mem_append, List.not_mem_nil, or_false] at hv
    rcases hv with rfl | hv | rfl
    · exact hx
    · rcases cqfEncode_eq hw h3 (by omega) hf.count with he | he
      · rw [he] at hv
        exact (mem_coreSymbols hw hv).2.2
      · rw [he] at hv
        rcases List.mem_cons.mp hv with rfl | hv
        · exact Nat.two_pow_pos rbits
        · exact (mem_coreSymbols hw hv).2.2
    · exact hx

/-- A smaller remainder is among the slots of an entry when it is one of its symbols. -/
lemma Fits.mem_slots_iff (hw : Width rbits) (hf : Fits rbits q) (hx : x ≠ 0) (hlt : x < q.1) :
    x ∈ entrySlots rbits q ↔ 3 ≤ q.2 ∧ x - 1 ∈ valDigits (2 ^ rbits - 2) (q.2 - 3) := by
  have hq : q.1 ≠ 0 := by omega
  have hne : x ≠ q.1 := hlt.ne
  rw [entrySlots]
  split_ifs with h1 h2
  · simp only [List.mem_singleton, hne, false_iff, not_and]
    omega
  · simp only [List.mem_cons, hne, List.not_mem_nil, or_self, false_iff, not_and]
    omega
  · have h3 : 3 ≤ q.2 := by omega
    simp only [List.mem_cons, List.mem_append, hne, List.not_mem_nil, or_false, false_or, h3,
      true_and]
    rw [← (@mem_coreSymbols_iff rbits _ q.2) hx hlt]
    rcases cqfEncode_eq hw hq h3 hf.count with he | he
    · rw [he]
    · rw [he, List.mem_cons, or_iff_right hx]

/-- Symbols that are not zero. -/
lemma noZeroPair_of_ne : ∀ {l : List ℕ}, (∀ v ∈ l, v ≠ 0) → NoZeroPair l
  | [], _ => .nil
  | [v], _ => .singleton v
  | v :: _ :: _, h => .cons_cons (.inl (h v (List.mem_cons_self ..)))
      (noZeroPair_of_ne fun u hu => h u (List.mem_cons_of_mem _ hu))

/-- A list that begins with another value than zero can follow any list. -/
lemma NoZeroPair.append {l l' : List ℕ} (h : NoZeroPair l) (h' : NoZeroPair l')
    (hne : ∀ v ∈ l'.head?, v ≠ 0) :
    NoZeroPair (l ++ l') := List.IsChain.append h h' fun _ _ v hv => .inr (hne v hv)

/-- The only zero of an entry of another remainder is followed by a symbol. -/
lemma Fits.noZeroPair (hw : Width rbits) (hf : Fits rbits p) (hx : p.1 ≠ 0) :
    NoZeroPair (entrySlots rbits p) := by
  rw [entrySlots]
  split_ifs with h1 h2
  · exact .singleton _
  · exact .cons_cons (.inl hx) (.singleton _)
  · have hcore : NoZeroPair (coreSymbols rbits p.1 p.2) :=
      noZeroPair_of_ne fun v hv => (mem_coreSymbols hw hv).1
    have hhead : ∀ v ∈ (coreSymbols rbits p.1 p.2).head?, v ≠ 0 := fun v hv =>
      (mem_coreSymbols hw (List.mem_of_mem_head? hv)).1
    have henc : NoZeroPair (cqfEncode p.2 p.1 rbits) := by
      rcases cqfEncode_eq hw hx (by omega) hf.count with he | he
      · rw [he]
        exact hcore
      · rw [he]
        exact List.IsChain.cons hcore fun v hv => .inr (hhead v hv)
    have hend : NoZeroPair (cqfEncode p.2 p.1 rbits ++ [p.1]) :=
      henc.append (.singleton _) (by rintro v ⟨⟩; exact hx)
    exact List.IsChain.cons hend fun _ _ => .inl hx

/-- A run of other remainders than zero begins with another value than zero. -/
lemma head_runSlots (hps : ∀ q ∈ ps, q.1 ≠ 0) : ∀ v ∈ (runSlots rbits ps).head?, v ≠ 0 := by
  cases ps with
  | nil =>
    rintro v ⟨⟩
  | cons q ps =>
    obtain ⟨l, hl⟩ := entrySlots_eq_cons rbits q
    rw [runSlots_cons, hl]
    rintro v ⟨⟩
    exact hps q (List.mem_cons_self ..)

/-- A run of other remainders than zero has no two zeros in a row. -/
lemma noZeroPair_runSlots (hw : Width rbits) : ∀ {ps : List (ℕ × ℕ)},
    (∀ q ∈ ps, Fits rbits q) → (∀ q ∈ ps, q.1 ≠ 0) →
    NoZeroPair (runSlots rbits ps)
  | [], _, _ => .nil
  | q :: ps, hf, hne => by
    rw [runSlots_cons]
    have hne' : ∀ q ∈ ps, q.1 ≠ 0 := fun r hr => hne r (List.mem_cons_of_mem _ hr)
    exact ((hf q (List.mem_cons_self ..)).noZeroPair hw (hne q (List.mem_cons_self ..))).append
      (noZeroPair_runSlots hw (fun r hr => hf r (List.mem_cons_of_mem _ hr)) hne')
        (head_runSlots hne')

/-- The run from an entry on. -/
structure Ahead (rbits : ℕ) (tbl : ℕ → ℕ) (rend pos : ℕ) (p : ℕ × ℕ) (ps : List (ℕ × ℕ)) :
    Prop where
  width : Width rbits
  fits : Fits rbits p
  fitsTail : ∀ q ∈ ps, Fits rbits q
  lt : ∀ q ∈ ps, p.1 < q.1
  slots : slots tbl (runSlots rbits (p :: ps)).length pos = runSlots rbits (p :: ps)
  last : rend + 1 = pos + (runSlots rbits (p :: ps)).length

/-- What the decoder sees of it. -/
lemma Ahead.view {l : List ℕ} (ha : Ahead rbits tbl rend pos p ps)
    (hl : entrySlots rbits p = p.1 :: l) :
    View tbl rend pos p.1 (l ++ runSlots rbits ps) := by
  have hs := ha.slots
  have hlast := ha.last
  rw [runSlots_cons, hl, List.cons_append, List.length_cons] at hs hlast
  rw [Cqf.slots] at hs
  obtain ⟨h1, h2⟩ := List.cons.inj hs
  exact ⟨h1, h2, by omega⟩

/-- The remainders after an entry are not zero. -/
lemma Ahead.ne_zero (ha : Ahead rbits tbl rend pos p ps) (q : ℕ × ℕ) (hq : q ∈ ps) : q.1 ≠ 0 :=
  (Nat.zero_le p.1).trans_lt (ha.lt q hq) |>.ne'

/-- An entry is read back when the decoder finds its count and its end. -/
lemma Ahead.decode_of (ha : Ahead rbits tbl rend pos p ps)
    (hd : (if p.1 = 0 then decodeZero rbits tbl rend pos
      else decodeNonzero rbits tbl rend pos p.1) =
      (p.2, pos + (entrySlots rbits p).length)) :
    cqfDecodeEntry rbits tbl (fun _ => true) rend pos =
      some (p.1, p.2, pos + (entrySlots rbits p).length) := by
  obtain ⟨l, hl⟩ := entrySlots_eq_cons rbits p
  have hv := ha.view hl
  have hp : pos ≤ rend := by
    rw [hv.last]
    exact Nat.le_add_right ..
  rw [← hv.first] at hd
  rw [cqfDecodeEntry_eq hp hd, hv.first, Nat.add_sub_cancel_left, length_entrySlots,
    if_neg (not_not.mpr rfl)]

/-- An entry of the remainder zero is read back. -/
lemma Ahead.decode_zero (ha : Ahead rbits tbl rend pos p ps) (hx : p.1 = 0) :
    cqfDecodeEntry rbits tbl (fun _ => true) rend pos =
      some (p.1, p.2, pos + (entrySlots rbits p).length) := by
  refine ha.decode_of ?_
  have hhead := (@head_runSlots rbits) ha.ne_zero
  have hpos := ha.fits.pos
  rw [if_pos hx]
  by_cases h1 : p.2 ≤ 1
  · have hl : entrySlots rbits p = p.1 :: [] := if_pos h1
    rw [(ha.view hl).decodeZero_one hhead, hl, le_antisymm h1 hpos]
    rfl
  by_cases h2 : p.2 = 2
  · have hl : entrySlots rbits p = p.1 :: [0] := by
      rw [entrySlots, if_neg h1, if_pos h2, hx]
    rw [View.decodeZero_two (ha.view hl) hhead
      (noZeroPair_runSlots ha.width ha.fitsTail ha.ne_zero), hl, h2]
    rfl
  · have h3 : 3 ≤ p.2 := by omega
    have hl : entrySlots rbits p = p.1 :: 0 :: (cqfEncode p.2 0 rbits ++ [0, 0]) := by
      rw [entrySlots, if_neg h1, if_neg h2, if_pos hx, hx]
    have hr : cqfEncode p.2 0 rbits ++ [0, 0] ++ runSlots rbits ps =
        cqfEncode p.2 0 rbits ++ 0 :: 0 :: runSlots rbits ps := List.append_assoc ..
    have hc : Countable rbits 0 p.2 := hx ▸ ha.fits.count
    rw [View.decodeZero_counter (ha.view hl) hr (cqfEncode_zero_ne_nil ha.width h3 hc)
      fun v hv => (mem_cqfEncode_zero ha.width h3 hc hv).1,
        decodeCount_cqfEncode_zero ha.width h3 hc, hl]
    simp only [List.length_cons, List.length_append, List.length_nil]

/-- The symbols of an entry above zero do not contain its remainder. -/
lemma notMem_cqfEncode (hw : Width rbits) (hx : x ≠ 0) (hC : 3 ≤ C) (hC' : Countable rbits x C) :
    x ∉ cqfEncode C x rbits := by
  intro hm
  rcases cqfEncode_eq hw hx hC hC' with he | he
  · rw [he] at hm
    exact (mem_coreSymbols hw hm).2.1 rfl
  · rw [he, List.mem_cons] at hm
    exact hm.elim hx fun hm => (mem_coreSymbols hw hm).2.1 rfl

/-- An entry above zero is read back unless its count is one and its remainder follows in the
run. -/
lemma Ahead.decode_nonzero (ha : Ahead rbits tbl rend pos p ps) (hx : p.1 ≠ 0)
    (hgood : p.2 = 1 → p.1 ∉ runSlots rbits ps) :
    cqfDecodeEntry rbits tbl (fun _ => true) rend pos =
      some (p.1, p.2, pos + (entrySlots rbits p).length) := by
  refine ha.decode_of ?_
  have hpos := ha.fits.pos
  rw [if_neg hx]
  by_cases h1 : p.2 ≤ 1
  · have hl : entrySlots rbits p = p.1 :: [] := if_pos h1
    have h1' : p.2 = 1 := le_antisymm h1 hpos
    rw [(ha.view hl).decodeNonzero_one (hgood h1'), hl, h1']
    rfl
  by_cases h2 : p.2 = 2
  · have hl : entrySlots rbits p = p.1 :: [p.1] := by
      rw [entrySlots, if_neg h1, if_pos h2]
    rw [(@View.decodeNonzero_copy _ _ _ _ _ _ []) (ha.view hl) rfl List.not_mem_nil, hl, h2,
      if_pos rfl]
    rfl
  · have h3 : 3 ≤ p.2 := by omega
    have hl : entrySlots rbits p = p.1 :: (cqfEncode p.2 p.1 rbits ++ [p.1]) := by
      rw [entrySlots, if_neg h1, if_neg h2, if_neg hx]
    have hr : cqfEncode p.2 p.1 rbits ++ [p.1] ++ runSlots rbits ps =
        cqfEncode p.2 p.1 rbits ++ p.1 :: runSlots rbits ps := List.append_assoc ..
    have hne : cqfEncode p.2 p.1 rbits ≠ [] := by
      rcases cqfEncode_eq ha.width hx h3 ha.fits.count with he | he
      · rw [he]
        exact coreSymbols_ne_nil rbits p.1 p.2
      · rw [he]
        exact List.cons_ne_nil _ _
    rw [(ha.view hl).decodeNonzero_copy hr (notMem_cqfEncode ha.width hx h3 ha.fits.count),
      if_neg hne, decodeCount_cqfEncode ha.width hx h3 ha.fits.count, hl]
    simp only [List.length_cons, List.length_append, List.length_nil]

/-- An entry with count one whose remainder follows in the run is not read back. -/
lemma Ahead.decode_bad (ha : Ahead rbits tbl rend pos p ps) (hx : p.1 ≠ 0) (h1 : p.2 = 1)
    (hm : p.1 ∈ runSlots rbits ps) (e : ℕ) :
    cqfDecodeEntry rbits tbl (fun _ => true) rend pos ≠ some (p.1, p.2, e) := by
  have hl : entrySlots rbits p = p.1 :: [] := if_pos h1.le
  have hv : View tbl rend pos p.1 (runSlots rbits ps) := ha.view hl
  obtain ⟨enc, l, hr, hnot⟩ := List.eq_append_cons_of_mem hm
  have hp : pos ≤ rend := by
    rw [hv.last]
    exact Nat.le_add_right ..
  have hd : (if tbl pos = 0 then decodeZero rbits tbl rend pos else decodeNonzero rbits tbl rend pos
    (tbl pos)) =
      (if enc = [] then 2 else decodeCount (enc.take encBuf) p.1 rbits,
        pos + (enc.length + 2)) := by
    rw [hv.first, if_neg hx, hv.decodeNonzero_copy hr hnot]
  generalize (if enc = [] then 2 else decodeCount (enc.take encBuf) p.1 rbits) = cnt at hd
  rw [cqfDecodeEntry_eq hp hd]
  intro he
  split at he
  · cases he
  · next hslots =>
    -- the decoder has read at least two slots, and an entry with count one has one
    obtain ⟨-, he⟩ := Prod.mk.inj (Option.some.inj he)
    obtain ⟨hcnt, -⟩ := Prod.mk.inj he
    rw [hcnt, h1, not_not, Nat.add_sub_cancel_left] at hslots
    have hone : cqfEncSlots 1 (tbl pos) rbits = 1 := rfl
    omega

/-! ## The whole run -/

/-- No remainder with count one is a symbol of a later entry: its digit does not occur in the later
count. -/
def Unambiguous (rbits : ℕ) (ps : List (ℕ × ℕ)) : Prop :=
  ps.Pairwise fun p q => p.2 = 1 → p.1 ≠ 0 → 3 ≤ q.2 → p.1 - 1 ∉ valDigits (2 ^ rbits - 2) (q.2 - 3)

instance (rbits : ℕ) (ps : List (ℕ × ℕ)) : Decidable (Unambiguous rbits ps) :=
  inferInstanceAs (Decidable (List.Pairwise _ _))

/-- The condition on the first entry, said with the slots after it. -/
lemma Ahead.good_iff (ha : Ahead rbits tbl rend pos p ps) :
    (∀ q ∈ ps, p.2 = 1 → p.1 ≠ 0 → 3 ≤ q.2 → p.1 - 1 ∉ valDigits (2 ^ rbits - 2) (q.2 - 3)) ↔
      (p.2 = 1 → p.1 ≠ 0 → p.1 ∉ runSlots rbits ps) := by
  constructor
  · intro h h1 hx hm
    obtain ⟨q, hq, hm⟩ := List.mem_flatMap.mp hm
    obtain ⟨h3, hd⟩ := ((ha.fitsTail q hq).mem_slots_iff ha.width hx (ha.lt q hq)).mp hm
    exact h q hq h1 hx h3 hd
  · intro h q hq h1 hx h3 hd
    refine h h1 hx (List.mem_flatMap.mpr ⟨q, hq, ?_⟩)
    exact ((ha.fitsTail q hq).mem_slots_iff ha.width hx (ha.lt q hq)).mpr ⟨h3, hd⟩

/-- A run is read back, entry by entry, exactly when it is unambiguous. -/
lemma decodeRun_iff (hw : Width rbits) : ∀ {ps : List (ℕ × ℕ)} {n pos : ℕ},
    (∀ q ∈ ps, Fits rbits q) →
    ps.Pairwise (fun p q => p.1 < q.1) → slots tbl (runSlots rbits ps).length pos =
    runSlots rbits ps →
    rend + 1 = pos + (runSlots rbits ps).length → (runSlots rbits ps).length ≤ n →
    (decodeRun rbits tbl (fun _ => true) rend n pos = (ps, rend + 1) ↔ Unambiguous rbits ps)
  | [], n, pos, _, _, _, hr, _ => by
    refine iff_of_true ?_ .nil
    change rend + 1 = pos + 0 at hr
    cases n with
    | zero => rw [decodeRun, hr, Nat.add_zero]
    | succ n => rw [decodeRun, if_pos (by omega), hr, Nat.add_zero]
  | p :: ps, 0, pos, hf, hlt, hs, hr, hn => by
    obtain ⟨l, hl⟩ := entrySlots_eq_cons rbits p
    rw [runSlots_cons, hl] at hn
    cases hn
  | p :: ps, n + 1, pos, hf, hlt, hs, hr, hn => by
    have ha : Ahead rbits tbl rend pos p ps :=
      ⟨hw, hf p (List.mem_cons_self ..), fun q hq => hf q (List.mem_cons_of_mem _ hq),
        (List.pairwise_cons.mp hlt).1, hs, hr⟩
    obtain ⟨l, hl⟩ := entrySlots_eq_cons rbits p
    have hle : ¬ rend < pos := by
      rw [runSlots_cons, hl] at hr
      simp only [List.length_append, List.length_cons] at hr
      omega
    have hgood : Unambiguous rbits (p :: ps) ↔
        (p.2 = 1 → p.1 ≠ 0 → p.1 ∉ runSlots rbits ps) ∧ Unambiguous rbits ps := by
      rw [Unambiguous, List.pairwise_cons, ha.good_iff]
      rfl
    rw [hgood, decodeRun, if_neg hle]
    -- the first entry is read as it was written, unless a later slot repeats its remainder
    by_cases hg : p.2 = 1 → p.1 ≠ 0 → p.1 ∉ runSlots rbits ps
    · have hd : cqfDecodeEntry rbits tbl (fun _ => true) rend pos =
          some (p.1, p.2, pos + (entrySlots rbits p).length) := by
        by_cases hx : p.1 = 0
        · exact ha.decode_zero hx
        · exact ha.decode_nonzero hx fun h1 => hg h1 hx
      have hlen :
          (runSlots rbits (p :: ps)).length = (entrySlots rbits p).length +
            (runSlots rbits ps).length := by
        rw [runSlots_cons, List.length_append]
      have hpos : 1 ≤ (entrySlots rbits p).length := by
        rw [hl, List.length_cons]
        exact Nat.le_add_left ..
      have ih : decodeRun rbits tbl (fun _ => true) rend n (pos + (entrySlots rbits p).length) =
        (ps, rend + 1) ↔
          Unambiguous rbits ps := decodeRun_iff hw ha.fitsTail
        (List.pairwise_cons.mp hlt).2
          (slots_drop tbl (entrySlots rbits p) (hs.trans (runSlots_cons ..)))
        (by omega) (by omega)
      rw [hd]
      dsimp only
      rw [← ih, and_iff_right hg]
      rcases decodeRun rbits tbl (fun _ => true) rend n (pos + (entrySlots rbits p).length) with
        ⟨qs, e⟩
      simp only [Prod.mk.injEq, List.cons.injEq, Prod.mk.eta, true_and]
    · refine iff_of_false ?_ fun h => hg h.1
      push Not at hg
      obtain ⟨h1, hx, hm⟩ := hg
      intro he
      have hbad := ha.decode_bad hx h1 hm
      generalize cqfDecodeEntry rbits tbl (fun _ => true) rend pos = o at he hbad
      cases o with
      | none => cases he
      | some r =>
        obtain ⟨x, C, e⟩ := r
        obtain ⟨he, -⟩ := Prod.mk.inj he
        obtain ⟨he, -⟩ := List.cons.inj he
        rw [← he] at hbad
        exact hbad e rfl

/-- A lookup finds what the decoder reads. -/
lemma lookupRun_of_decodeRun {occ : ℕ → Bool} : ∀ {n pos e : ℕ} {ps : List (ℕ × ℕ)},
    decodeRun rbits tbl occ rend n pos = (ps, e) → ps.Pairwise (fun p q => p.1 < q.1) → ∀ p ∈ ps,
    lookupRun rbits tbl occ rend p.1 n pos = true ∧ countRun rbits tbl occ rend p.1 n pos = p.2
  | 0, pos, e, ps, h, _, p, hp => by
    cases h
    exact absurd hp List.not_mem_nil
  | n + 1, pos, e, ps, h, hlt, p, hp => by
    rw [decodeRun] at h
    rw [lookupRun, countRun]
    split at h
    · cases h
      exact absurd hp List.not_mem_nil
    · next hle =>
      rw [if_neg hle, if_neg hle]
      cases hd : cqfDecodeEntry rbits tbl occ rend pos with
      | none =>
        rw [hd] at h
        cases h
        exact absurd hp List.not_mem_nil
      | some r =>
        obtain ⟨x, C, pos'⟩ := r
        rw [hd] at h
        dsimp only at h ⊢
        rcases hrec : decodeRun rbits tbl occ rend n pos' with ⟨qs, e'⟩
        rw [hrec] at h
        cases h
        obtain ⟨hx, hqs⟩ := List.pairwise_cons.mp hlt
        rcases List.mem_cons.mp hp with rfl | hp
        · exact ⟨if_pos rfl, if_pos rfl⟩
        · have hxp : x < p.1 := hx p hp
          rw [if_neg hxp.ne, if_neg hxp.not_gt, if_neg hxp.ne, if_neg fun h => hxp.not_gt h.2]
          exact lookupRun_of_decodeRun hrec hqs p hp

/-- The run that is written is read back: the decoder returns the entries and ends behind the last
slot, a lookup finds every remainder and counting returns its count. -/
def ReadsBack (rbits : ℕ) (tbl : ℕ → ℕ) (pos : ℕ) (ps : List (ℕ × ℕ)) : Prop :=
  let r := writeRun rbits tbl pos ps
  let n := r.2 - pos
  decodeRun rbits r.1 (fun _ => true) (r.2 - 1) n pos = (ps, r.2) ∧
    ∀ p ∈ ps, lookupRun rbits r.1 (fun _ => true) (r.2 - 1) p.1 n pos = true ∧
      countRun rbits r.1 (fun _ => true) (r.2 - 1) p.1 n pos = p.2

/-- A run is read back as it was written if and only if it is unambiguous. -/
theorem reads_back_iff (rbits : ℕ) (hr : 2 ≤ rbits ∧ rbits ≤ 31) (tbl : ℕ → ℕ) (pos : ℕ)
    (ps : List (ℕ × ℕ)) (hne : ps ≠ []) (hlt : ps.Pairwise fun p q => p.1 < q.1)
    (hf : ∀ p ∈ ps, p.1 < 2 ^ rbits ∧ 1 ≤ p.2 ∧ p.2 < 2 ^ 64) :
    ReadsBack rbits tbl pos ps ↔ Unambiguous rbits ps := by
  have hw : Width rbits := ⟨hr.1, by omega⟩
  have hfits :
      ∀ q ∈ ps, Fits rbits q := fun q hq =>
        ⟨(hf q hq).1, (hf q hq).2.1, .of_le hr.1 hr.2 (hf q hq).2.2⟩
  have hslots : ∀ v ∈ runSlots rbits ps, v < 2 ^ rbits := by
    intro v hv
    obtain ⟨q, hq, hv⟩ := List.mem_flatMap.mp hv
    exact (hfits q hq).slots_lt hw hv
  have hlen : 1 ≤ (runSlots rbits ps).length := by
    obtain ⟨p, ps', rfl⟩ := List.exists_cons_of_ne_nil hne
    obtain ⟨l, hl⟩ := entrySlots_eq_cons rbits p
    rw [runSlots_cons, hl, List.cons_append, List.length_cons]
    exact Nat.le_add_left ..
  have hend : pos + (runSlots rbits ps).length - 1 + 1 = pos + (runSlots rbits ps).length := by
    omega
  have hiff := (@decodeRun_iff _ (pos + (runSlots rbits ps).length - 1)
    (remSetAll rbits tbl pos (runSlots rbits ps)) hw) hfits hlt
      (slots_remSetAll rbits _ tbl pos hslots) hend le_rfl
  rw [hend] at hiff
  simp only [ReadsBack, writeRun_eq, Nat.add_sub_cancel_left]
  rw [← hiff, and_iff_left_iff_imp]
  intro hd
  exact lookupRun_of_decodeRun hd hlt

/-- Two entries of width 8 whose digits do not meet. -/
theorem reads_back_two : ReadsBack 8 (fun _ => 0) 5 [(3, 1), (9, 1000)] :=
  (reads_back_iff 8 (by decide) (fun _ => 0) 5 [(3, 1), (9, 1000)] (by decide) (by decide)
    (by decide)).mpr
    (by unfold Unambiguous; decide +kernel)

/-- The counter of the remainder `2` has the symbol `1`, which ends the entry before it. -/
theorem reads_back_fails : ¬ ReadsBack 4 (fun _ => 0) 0 [(1, 1), (2, 3)] :=
  fun h => absurd h.1 (by decide +kernel)

end Draugr.Cqf
