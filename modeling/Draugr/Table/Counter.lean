import Draugr.Table.Preserve
import Draugr.Table.Exact

/-!
# Counters

`ht_inc` and `ht_inc_with_hash` read the value of a key as an `int64_t`, add to it and store the sum
with `ht_upsert`. The sum stays at `INT64_MAX` or `INT64_MIN` where it would overflow. A table that
is only used so holds one counter for each key, which is what the calls on the key add up to
(`inc_counts`). A call whose `ht_upsert` fails does not count: `ht_inc_with_hash` reports it, and
`ht_inc` returns the sum all the same (`htInc_eq`).

The bytes of an `int64_t` are in little-endian order.
-/

namespace Draugr
open Lib

/-! ## The values -/

/-- `INT64_MIN`. -/
def int64Min : ℤ := -2 ^ 63

/-- `INT64_MAX`. -/
def int64Max : ℤ := 2 ^ 63 - 1

/-- The values of `int64_t`. -/
def InInt64 (v : ℤ) : Prop := int64Min ≤ v ∧ v ≤ int64Max

instance (v : ℤ) : Decidable (InInt64 v) := inferInstanceAs (Decidable (_ ∧ _))

/-- The `k` lowest bytes of a number, in little-endian order. -/
def leBytes : ℕ → ℕ → Bytes
  | 0, _ => []
  | k + 1, n => UInt8.ofNat (n % 256) :: leBytes k (n / 256)

/-- The number of bytes in little-endian order. -/
def leNat : Bytes → ℕ
  | [] => 0
  | b :: bs => b.toNat + 256 * leNat bs

/-- The bytes of an `int64_t`. -/
def int64Bytes (v : ℤ) : Bytes := leBytes 8 (v % 2 ^ 64).toNat

/-- The `int64_t` that eight bytes are. -/
def int64Of (bs : Bytes) : ℤ := if leNat bs < 2 ^ 63 then leNat bs else leNat bs - 2 ^ 64

/-- `new_val`. -/
def incValue (found : Option Bytes) (delta : ℤ) : ℤ :=
  match found with
  | none => delta
  | some bs =>
    if bs.length = 8 then
      if 0 < delta ∧ int64Max - delta < int64Of bs then int64Max
      else if delta < 0 ∧ int64Of bs < int64Min - delta then int64Min
      else int64Of bs + delta
    else delta

section
variable {B : Type} (ix : IndexOps B) (fns : HtFns)

/-- `ht_inc_with_hash` with the hash of the key; `none` is the result `0` with `*ok = false`. -/
def htIncWithHash (t : HtTable B) (key : Option Bytes) (delta : ℤ) :
    Option (Option ℤ × HtTable B) :=
  match key with
  | none => some (none, t)
  | some key =>
    let newVal := incValue (htFind ix fns t key) delta
    (htUpsert ix fns t (some key) (some (int64Bytes newVal))).map fun r =>
      (if r.1 = .failed then none else some newVal, r.2)

/-- `ht_inc`. -/
def htInc (t : HtTable B) (key : Option Bytes) (delta : ℤ) : Option (ℤ × HtTable B) :=
  match key with
  | none => some (0, t)
  | some key =>
    let newVal := incValue (htFind ix fns t key) delta
    (htUpsert ix fns t (some key) (some (int64Bytes newVal))).map fun r => (newVal, r.2)

/-- A run of `ht_inc_with_hash`: the results, and the table it leaves. -/
def runIncs (t : HtTable B) : List (Bytes × ℤ) → Option (List (Option ℤ) × HtTable B)
  | [] => some ([], t)
  | c :: cs =>
    match htIncWithHash ix fns t (some c.1) c.2 with
    | none => none
    | some (r, t) => (runIncs t cs).map fun x => (r :: x.1, x.2)

end

/-- Every call of the run adds an `int64_t`, and its `ht_upsert` is safe where it is made. -/
def safeIncs (fns : HtFns) (t : HtTable HtBare) : List (Bytes × ℤ) → Bool
  | [] => true
  | c :: cs =>
    decide (InInt64 c.2) &&
      (HtOp.upsert (some c.1)
        (some (int64Bytes (incValue (htFind bareIndex fns t c.1) c.2)))).keepsSafe fns t &&
      match htIncWithHash bareIndex fns t (some c.1) c.2 with
      | some (_, t) => safeIncs fns t cs
      | none => true

/-! ## What the calls are to count -/

/-- The sum, held between the least and the greatest `int64_t`. -/
def satAdd (v delta : ℤ) : ℤ := max int64Min (min int64Max (v + delta))

/-- The counters after `delta` was added to the one of `key`. -/
def incCounters (fns : HtFns) (n : Bytes → Option ℤ) (key : Bytes) (delta : ℤ) : Bytes → Option ℤ :=
  fun k =>
  if fns.eq k key then some ((n key).elim delta fun v => satAdd v delta) else n k

/-- The calls with their results take the counters `n` to `n'`: a call without a result adds
nothing, and the others return the counter. -/
def CountsTo (fns : HtFns) (n : Bytes → Option ℤ) :
    List (Bytes × ℤ) → List (Option ℤ) → (Bytes → Option ℤ) → Prop
  | [], [], n' => n' = n
  | _ :: cs, none :: rs, n' => CountsTo fns n cs rs n'
  | c :: cs, some v :: rs, n' =>
    incCounters fns n c.1 c.2 c.1 = some v ∧ CountsTo fns (incCounters fns n c.1 c.2) cs rs n'
  | _, _, _ => False

/-- The pairs are the counters: for each key that has one, the pair with its bytes. -/
def Counting (fns : HtFns) (p : Multiset (Bytes × Bytes)) (n : Bytes → Option ℤ) : Prop :=
  ∀ key, (∀ v ∈ n key, InInt64 v) ∧
    (p.filter (hasKey fns key)).map Prod.snd = (n key).elim 0 fun v => {int64Bytes v}

/-! ## Bytes -/

/-- The bytes of a number. -/
lemma leBytes_length (k n : ℕ) : (leBytes k n).length = k := by
  induction k generalizing n with
  | zero => rfl
  | succ k ih => rw [leBytes, List.length_cons, ih]

/-- The bytes of a number are its residue. -/
lemma leNat_leBytes (k n : ℕ) : leNat (leBytes k n) = n % 256 ^ k := by
  induction k generalizing n with
  | zero => exact (Nat.mod_one n).symm
  | succ k ih =>
    have hbyte : (UInt8.ofNat (n % 256)).toNat = n % 256 := by
      rw [UInt8.toNat_ofNat']
      exact Nat.mod_mod n 256
    rw [leBytes, leNat, ih, hbyte, Nat.pow_succ', Nat.mod_mul]

/-- An `int64_t` has eight bytes. -/
lemma int64Bytes_length (v : ℤ) : (int64Bytes v).length = 8 := leBytes_length 8 _

/-- An `int64_t` is read back. -/
lemma int64Of_int64Bytes {v : ℤ} (h : InInt64 v) : int64Of (int64Bytes v) = v := by
  have hn : leNat (int64Bytes v) = (v % 2 ^ 64).toNat := by
    rw [int64Bytes, leNat_leBytes]
    omega
  obtain ⟨hmin, hmax⟩ := h
  rw [int64Min] at hmin
  rw [int64Max] at hmax
  rw [int64Of, hn]
  split <;> omega

/-- With a counter there, `new_val` is the sum. -/
lemma incValue_some {v : ℤ} (h : InInt64 v) (delta : ℤ) :
    incValue (some (int64Bytes v)) delta = satAdd v delta := by
  rw [incValue]
  rw [if_pos (int64Bytes_length v), int64Of_int64Bytes h, satAdd]
  obtain ⟨hmin, hmax⟩ := h
  rw [int64Min] at hmin ⊢
  rw [int64Max] at hmax ⊢
  split
  · omega
  · split <;> omega

/-- The sum is an `int64_t`. -/
lemma satAdd_inInt64 (v delta : ℤ) : InInt64 (satAdd v delta) := by
  rw [InInt64, satAdd, int64Min, int64Max]
  omega

/-! ## One call -/

section
variable {B : Type} {ix : IndexOps B} {L : IndexLaws ix} {fns : HtFns} {W : HtTable B → Bool}
  {t t' : HtTable B}
  {key : Bytes} {n n' : Bytes → Option ℤ} {p : Multiset (Bytes × Bytes)}

/-- `ht_inc` does what `ht_inc_with_hash` does, and returns the sum also when it was not stored. -/
lemma htInc_eq (ix : IndexOps B) (fns : HtFns) (t : HtTable B) (key : Bytes) (delta : ℤ) :
    htInc ix fns t (some key) delta = (htIncWithHash ix fns t (some key) delta).map fun r =>
      (incValue (htFind ix fns t key) delta, r.2) := by
  rw [htInc, htIncWithHash]
  rw [Option.map_map]
  rfl

/-- The scan takes every match when there is room for all of them. -/
lemma keyScan_room (hi : ℕ) (key : Bytes) (is ms : List ℕ) (cap : ℕ)
    (h : ms.length + (is.filter fun i => keysMatch fns t i hi key).length ≤ cap) :
    keyScan ix fns hi key is ms cap t = (ms ++ is.filter fun i => keysMatch fns t i hi key, t) := by
  induction is generalizing ms with
  | nil => rw [keyScan, List.filter_nil, List.append_nil]
  | cons i is ih =>
    rw [keyScan, List.filter_cons]
    rw [List.filter_cons] at h
    by_cases hm : keysMatch fns t i hi key = true
    · rw [if_pos hm] at h ⊢
      rw [List.length_cons] at h
      rw [if_pos hm, if_pos (by omega),
        ih (ms ++ [i]) (by rw [List.length_append, List.length_singleton]; omega),
        List.append_assoc]
      rfl
    · rw [if_neg hm] at h ⊢
      rw [if_neg hm]
      exact ih ms h

/-- `ht_upsert` on a key with at most one pair: it fails and changes nothing, or the pair is the new
one. -/
lemma upsert_single (hR : Respects fns) (hst : Strict ix W) (hG : Good L fns t) {value : Bytes}
    (hlen : value.length < 2 ^ 32)
    (hs : (HtOp.upsert (some key) (some value)).safe L fns W t = true)
    (hone : ((pairs L t).filter (hasKey fns key)).card ≤ 1) :
    ∃ r t', htUpsert ix fns t (some key) (some value) = some (r, t') ∧ Good L fns t' ∧
      (r = .failed ∧ pairs L t' = pairs L t ∨ r ≠ .failed ∧ ∃ k, fns.eq k key = true ∧
        pairs L t' = (k, value) ::ₘ (pairs L t).filter fun q => ¬ hasKey fns key q) := by
  unfold HtOp.safe at hs
  rw [Bool.and_eq_true, Option.getD_some] at hs
  have hp : ((matchesOf ix fns t key).map (fun i => (t.entry i).pair) : Multiset (Bytes × Bytes)) =
      (pairs L t).filter (hasKey fns key) := findKeyAll_hasKey hR hG hs.1
  have hM : Matched L fns t key (matchesOf ix fns t key) := matched_filter hG hs.1
  have hcount : (matchesOf ix fns t key).length ≤ 1 := by
    rw [← hp, Multiset.coe_card, List.length_map] at hone
    exact hone
  have hscan : keyMatches ix fns t (fns.hash key) key = (matchesOf ix fns t key, t) := by
    refine keyScan_room _ _ _ [] 64 ?_
    rw [List.length_nil, Nat.zero_add]
    exact hcount.trans (by decide)
  rw [hscan] at hs
  unfold htUpsert insertKey doInsertWithHash
  simp only [Option.getD_some, hscan]
  cases hms : matchesOf ix fns t key with
  | nil =>
    -- the key is new
    rw [hms] at hs hp
    have hnone : ∀ q ∈ pairs L t, ¬ hasKey fns key q := Multiset.filter_eq_nil.mp hp.symm
    obtain ⟨r, t', h1, h2, h3, h4⟩ := insertNew_spec hG hs.2
    refine ⟨r, t', h1, h2, ?_⟩
    have h4 := h4 hst
    by_cases hok : r = .ok
    · rw [if_pos hok, storedVal_eq hlen] at h4
      refine .inr ⟨fun hf => ?_, key, hR.refl key, ?_⟩
      · rw [hok] at hf
        cases hf
      · rw [h4, Multiset.filter_eq_self.mpr hnone]
    · rw [if_neg hok] at h4
      refine .inl ⟨?_, h4⟩
      cases r with
      | ok => exact absurd rfl hok
      | update => exact absurd rfl h3
      | failed => rfl
  | cons m ms =>
    rw [hms] at hM hp
    rcases upsertFound_spec hG hM value with ⟨t', h1, h2⟩ | ⟨t', k, h1, h2, h3, h4⟩
    · simp only [h1]
      exact ⟨_, t', rfl, h2.good hG, .inl ⟨rfl, h2.pairs⟩⟩
    · simp only [h1]
      rw [hp, storedVal_eq hlen] at h4
      exact ⟨_, _, rfl, h2, .inr ⟨(fun hf => by cases hf), k, hM.eq_key hR h3, updated_eq h4⟩⟩

/-! ## Counters -/

/-- A key has one pair at most. -/
lemma Counting.card_le (h : Counting fns p n) (key : Bytes) :
    (p.filter (hasKey fns key)).card ≤ 1 := by
  rw [← Multiset.card_map Prod.snd, (h key).2]
  cases n key with
  | none => exact Nat.zero_le 1
  | some v => exact le_rfl

/-- `ht_find` returns the counter. -/
lemma Counting.find (h : Counting fns (pairs L t) n) (hR : Respects fns) (hG : Good L fns t)
    (hs : L.findSafe t.bare (fns.hash key) = true) :
    htFind ix fns t key = (n key).map int64Bytes := by
  have hall := congrArg (Multiset.map Prod.snd) (findKeyAll_hasKey hR hG hs)
  rw [(h key).2, Multiset.map_coe] at hall
  rw [htFind_eq, ← List.head?_map]
  cases hn : n key with
  | none =>
    rw [hn] at hall
    rw [Multiset.coe_eq_zero _ |>.mp hall]
    rfl
  | some v =>
    rw [hn] at hall
    rw [Multiset.coe_eq_singleton.mp hall]
    rfl

/-- The pair of a key is replaced. -/
lemma Counting.put (h : Counting fns p n) (hR : Respects fns) {k : Bytes}
    (hk : fns.eq k key = true) {v : ℤ}
    (hv : InInt64 v) (hn : ∀ k', n' k' = if fns.eq k' key then some v else n k') :
    Counting fns ((k, int64Bytes v) ::ₘ p.filter fun q => ¬ hasKey fns key q) n' := by
  intro key'
  rw [hn key']
  cases he : fns.eq key' key with
  | true =>
    have hnone : p.filter (fun q => hasKey fns key' q ∧ ¬ hasKey fns key q) = 0 :=
      Multiset.filter_eq_nil.mpr fun q _ hq => hq.2 (hR.trans hq.1 he)
    refine ⟨fun w hw => ?_, ?_⟩
    · rw [if_pos rfl] at hw
      exact Option.some.inj hw ▸ hv
    · rw [if_pos rfl,
        Multiset.filter_cons_of_pos (p := hasKey fns key') _ (hR.trans hk (hR.symm he)),
        Multiset.filter_filter, hnone]
      rfl
  | false =>
    have hother : ¬ hasKey fns key' (k, int64Bytes v) := by
      intro hkey
      have := hR.trans (hR.symm hkey) hk
      rw [he] at this
      cases this
    have hkeep :
        (p.filter fun q => hasKey fns key' q ∧ ¬ hasKey fns key q) =
          p.filter (hasKey fns key') := by
      refine Multiset.filter_congr fun q _ => and_iff_left_of_imp fun hq hq' => ?_
      have := hR.trans (hR.symm hq) hq'
      rw [he] at this
      cases this
    rw [if_neg Bool.false_ne_true, Multiset.filter_cons_of_neg (p := hasKey fns key') _ hother,
      Multiset.filter_filter, hkeep]
    exact h key'

/-- One call: it fails and changes no counter, or it adds to its counter and returns it. -/
lemma inc_step (hR : Respects fns) (hst : Strict ix W) (hG : Good L fns t)
    (hc : Counting fns (pairs L t) n) {delta : ℤ} (hd : InInt64 delta)
    (hs : (HtOp.upsert (some key) (some (int64Bytes (incValue (htFind ix fns t key) delta)))).safe L
      fns W t = true) :
    ∃ r t', htIncWithHash ix fns t (some key) delta = some (r, t') ∧ Good L fns t' ∧
      (r = none ∧ Counting fns (pairs L t') n ∨ ∃ v,
        r = some v ∧ incCounters fns n key delta key = some v ∧
        Counting fns (pairs L t') (incCounters fns n key delta)) := by
  obtain ⟨v, hv⟩ : ∃ v, incValue (htFind ix fns t key) delta = v := ⟨_, rfl⟩
  have hfind : L.findSafe t.bare (fns.hash key) = true := by
    unfold HtOp.safe at hs
    rw [Bool.and_eq_true] at hs
    exact hs.1
  have hval : v = (n key).elim delta fun v => satAdd v delta := by
    rw [← hv, hc.find hR hG hfind]
    cases hn : n key with
    | none => rfl
    | some w => exact incValue_some ((hc key).1 w hn) delta
  have hin : InInt64 v := by
    rw [hval]
    cases n key with
    | none => exact hd
    | some w => exact satAdd_inInt64 w delta
  rw [hv] at hs
  have hlen : (int64Bytes v).length < 2 ^ 32 := by
    rw [int64Bytes_length]
    decide
  obtain ⟨r, t', hu, hG', hcase⟩ := upsert_single hR hst hG hlen hs (hc.card_le key)
  rw [htIncWithHash]
  rw [hv, hu]
  refine ⟨_, t', rfl, hG', ?_⟩
  rcases hcase with ⟨hr, hp⟩ | ⟨hr, k, hk, hp⟩
  · exact .inl ⟨if_pos hr, hp ▸ hc⟩
  · refine .inr ⟨v, if_neg hr, ?_, ?_⟩
    · rw [incCounters, if_pos (hR.refl key), hval]
    · rw [hp]
      exact hc.put hR hk hin fun k' => by rw [incCounters, hval]

end

/-! ## Runs -/

/-- A run of calls on a table of counters. -/
lemma runIncs_counts {fns : HtFns} (hR : Respects fns) :
    ∀ {cs : List (Bytes × ℤ)} {t : HtTable HtBare}
    {n : Bytes → Option ℤ}, Good bareLaws fns t → Counting fns (pairs bareLaws t) n →
      safeIncs fns t cs = true →
    ∃ rs t' n', runIncs bareIndex fns t cs = some (rs, t') ∧ Good bareLaws fns t' ∧
      CountsTo fns n cs rs n' ∧
      Counting fns (pairs bareLaws t') n'
  | [], t, n, hG, hc, _ => ⟨[], t, n, rfl, hG, rfl, hc⟩
  | c :: cs, t, n, hG, hc, hs => by
    rw [safeIncs, Bool.and_eq_true, Bool.and_eq_true] at hs
    obtain ⟨⟨hd, hsafe⟩, hrest⟩ := hs
    obtain ⟨r, t₁, he, hG₁, hcase⟩ := inc_step hR (fun _ h => h) hG hc (of_decide_eq_true hd) hsafe
    rw [he] at hrest
    rcases hcase with ⟨rfl, hc₁⟩ | ⟨v, rfl, hv, hc₁⟩
    · obtain ⟨rs, t', n', hr, hG', hto, hc'⟩ := runIncs_counts hR hG₁ hc₁ hrest
      refine ⟨none :: rs, t', n', ?_, hG', hto, hc'⟩
      rw [runIncs, he]
      dsimp only
      rw [hr]
      rfl
    · obtain ⟨rs, t', n', hr, hG', hto, hc'⟩ := runIncs_counts hR hG₁ hc₁ hrest
      refine ⟨some v :: rs, t', n', ?_, hG', ⟨hv, hto⟩, hc'⟩
      rw [runIncs, he]
      dsimp only
      rw [hr]
      rfl

/-- The table that `ht_create` returns has no pair. -/
lemma htCreate_pairs {cfg : HtConfig} {mem : List Bool} {fuel : ℕ} {t : HtTable HtBare}
    (h : htCreate cfg mem fuel = some t) : pairs bareLaws t = 0 := by
  unfold htCreate at h
  simp only at h
  split at h
  · cases h
  · cases h
    exact pairs_of_empty (contents_fresh rfl rfl rfl) _

/-- In a run of safe `ht_inc_with_hash` calls from `ht_create`, under any outcome of the
allocations, every call returns. The pairs of the table are then the counters that the calls add up
to, the failed ones left out; each call that did not fail returned its counter, and `ht_find`
returns the counter of every key that it can find. -/
theorem inc_counts (cfg : HtConfig) (fns : HtFns) (hR : Respects fns) (mem : List Bool) (fuel : ℕ)
    (t₀ : HtTable HtBare) (hc : htCreate cfg mem fuel = some t₀) (cs : List (Bytes × ℤ))
    (hs : safeIncs fns t₀ cs = true) :
    ∃ rs t n, runIncs bareIndex fns t₀ cs = some (rs, t) ∧ CountsTo fns (fun _ => none) cs rs n ∧
      Counting fns (htIterAll bareIndex t) n ∧
      ∀ key, ¬ Laps t.bare (fns.hash key) →
      htFind bareIndex fns t key = (n key).map int64Bytes := by
  have hnone : Counting fns (pairs bareLaws t₀) fun _ => none := by
    intro key
    rw [htCreate_pairs hc]
    exact ⟨fun v hv => absurd hv (Option.not_mem_none v), rfl⟩
  obtain ⟨rs, t, n, hr, hG, hto, hcount⟩ := runIncs_counts hR (htCreate_good fns hc) hnone hs
  refine ⟨rs, t, n, hr, hto, ?_, fun key hlap => hcount.find hR hG (by simpa [bareLaws] using hlap)⟩
  rw [htIterAll_eq hG.inv]
  exact hcount

/-- Two keys; the second sum of the first key would overflow. -/
theorem inc_counts_three :
    ∃ rs t n, runIncs bareIndex byteFns smallTable [([1], 5), ([2], -3), ([1], 2 ^ 63 - 1)] = some
      (rs, t) ∧
      CountsTo byteFns (fun _ => none) [([1], 5), ([2], -3), ([1], 2 ^ 63 - 1)] rs n ∧
      Counting byteFns (htIterAll bareIndex t) n ∧
      ∀ key, ¬ Laps t.bare (byteFns.hash key) →
      htFind bareIndex byteFns t key = (n key).map int64Bytes :=
  inc_counts smallCfg byteFns byteFns_respects [] 0 smallTable (by decide +kernel)
    [([1], 5), ([2], -3), ([1], 2 ^ 63 - 1)] (by decide +kernel)

/-- Their results. -/
example : (runIncs bareIndex byteFns smallTable [([1], 5), ([2], -3), ([1], 2 ^ 63 - 1)]).map
    Prod.fst =
    some [some 5, some (-3), some int64Max] := by
  decide +kernel

end Draugr
