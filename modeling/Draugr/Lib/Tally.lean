import Mathlib.Data.Multiset.Count
import Mathlib.Logic.Function.Basic

/-!
# Tallies

`tally n Q g` counts the places below `n` of an array `g` at which `Q` holds of the place and its
value. A write changes it by what `Q` says of the old and of the new value.

The second part is about structures that count: `Counts` says that an insertion that succeeds adds
one to the tally of each class of its element and a deletion that succeeds takes one away. In a run
that deletes only elements that were inserted more often than deleted, the tally of a class is then
the number of its insertions less the number of its deletions, and every deletion succeeds.
-/

namespace Draugr.Lib

/-- The number of places below `n` at which `Q` holds. -/
def tally (n : ℕ) (Q : ℕ → ℕ → Bool) (g : ℕ → ℕ) : ℕ := (List.range n).countP fun i => Q i (g i)

variable {n i : ℕ} {Q : ℕ → ℕ → Bool} {g g' : ℕ → ℕ}

/-- A tally is positive iff `Q` holds somewhere. -/
lemma tally_pos : 0 < tally n Q g ↔ ∃ i < n, Q i (g i) = true := by
  simp [tally, List.countP_pos_iff]

/-- A write at one place. -/
lemma tally_write (hi : i < n) (h : ∀ j < n, j ≠ i → g' j = g j) :
    tally n Q g' + (Q i (g i)).toNat = tally n Q g + (Q i (g' i)).toNat := by
  have hp := List.perm_cons_erase (List.mem_range.mpr hi)
  have hrest : ((List.range n).erase i).countP (fun j => Q j (g' j)) =
      ((List.range n).erase i).countP fun j => Q j (g j) := by
    refine List.countP_congr fun j hj => ?_
    obtain ⟨hji, hjn⟩ := List.nodup_range.mem_erase_iff.mp hj
    rw [h j (List.mem_range.mp hjn) hji]
  unfold tally
  rw [hp.countP_eq, hp.countP_eq, List.countP_cons, List.countP_cons, hrest]
  cases Q i (g i) <;> cases Q i (g' i) <;> simp

/-- A call of a structure that counts. -/
inductive CountOp (α : Type) where
  | insert (a : α)
  | delete (a : α)

/-- The element of a call. -/
def CountOp.elem {α : Type} : CountOp α → α
  | .insert a => a
  | .delete a => a

/-- A call with whether it succeeded. -/
structure CountEvent (α : Type) where
  op : CountOp α
  ok : Bool

section Runs

variable {σ α κ : Type}

/-- The elements inserted with success. -/
def addedElems (evs : List (CountEvent α)) : List α :=
  evs.filterMap fun ev => match ev.op with
    | .insert a => if ev.ok then some a else none
    | .delete _ => none

/-- The elements deleted with success. -/
def removedElems (evs : List (CountEvent α)) : List α :=
  evs.filterMap fun ev => match ev.op with
    | .insert _ => none
    | .delete a => if ev.ok then some a else none

/-- The successful insertions of elements with `p`. -/
def added (p : α → Bool) (evs : List (CountEvent α)) : ℕ := (addedElems evs).countP p

/-- The successful deletions of elements with `p`. -/
def removed (p : α → Bool) (evs : List (CountEvent α)) : ℕ := (removedElems evs).countP p

/-- A run: its events and the state after it. -/
def countRun (step : σ → CountOp α → Bool × σ) : σ → List (CountOp α) → List (CountEvent α) × σ
  | s, [] => ([], s)
  | s, op :: ops =>
    let r := countRun step (step s op).2 ops
    (⟨op, (step s op).1⟩ :: r.1, r.2)

/-- After the events `evs`, only elements are deleted that were inserted more often than deleted. -/
def Covered [DecidableEq α] (step : σ → CountOp α → Bool × σ) :
    σ → List (CountEvent α) → List (CountOp α) → Prop
  | _, _, [] => True
  | s, evs, op :: ops =>
    (match op with
      | .insert _ => True
      | .delete a => removed (· = a) evs < added (· = a) evs) ∧
      Covered step (step s op).2 (evs ++ [⟨op, (step s op).1⟩]) ops

/-- The calls count: `mem c a` says that `a` is in the class `c`, and a deletion succeeds when every
class of its element has a positive tally. -/
structure Counts (step : σ → CountOp α → Bool × σ) (Inv : σ → Prop) (mem : κ → α → Bool)
    (tal : κ → σ → ℕ) :
    Prop where
  keeps : ∀ s op, Inv s → Inv (step s op).2
  insert : ∀ s a c,
    Inv s → tal c (step s (.insert a)).2 = tal c s + ((step s (.insert a)).1 && mem c a).toNat
  delete : ∀ s a c,
    Inv s → tal c (step s (.delete a)).2 + ((step s (.delete a)).1 && mem c a).toNat = tal c s
  found : ∀ s a, Inv s → (∀ c, mem c a = true → 0 < tal c s) → (step s (.delete a)).1 = true

/-- What two histories add. -/
lemma added_append (p : α → Bool) (evs evs' : List (CountEvent α)) :
    added p (evs ++ evs') = added p evs + added p evs' := by
  rw [added, addedElems, List.filterMap_append, List.countP_append]
  rfl

/-- What two histories remove. -/
lemma removed_append (p : α → Bool) (evs evs' : List (CountEvent α)) :
    removed p (evs ++ evs') = removed p evs + removed p evs' := by
  rw [removed, removedElems, List.filterMap_append, List.countP_append]
  rfl

/-- An insertion adds its element if it was accepted. -/
lemma added_single_insert (p : α → Bool) (a : α) (ok : Bool) :
    added p [⟨.insert a, ok⟩] = (ok && p a).toNat := by
  cases ok <;> cases h : p a <;> simp [added, addedElems, h]

/-- A deletion adds nothing. -/
lemma added_single_delete (p : α → Bool) (a : α) (ok : Bool) : added p [⟨.delete a, ok⟩] = 0 := rfl

/-- An insertion removes nothing. -/
lemma removed_single_insert (p : α → Bool) (a : α) (ok : Bool) :
    removed p [⟨.insert a, ok⟩] = 0 := rfl

/-- A deletion removes its element if it was accepted. -/
lemma removed_single_delete (p : α → Bool) (a : α) (ok : Bool) :
    removed p [⟨.delete a, ok⟩] = (ok && p a).toNat := by
  cases ok <;> cases h : p a <;> simp [removed, removedElems, h]

variable [DecidableEq α] {step : σ → CountOp α → Bool × σ} {Inv : σ → Prop} {mem : κ → α → Bool}
  {tal : κ → σ → ℕ} {evs : List (CountEvent α)} {s : σ}

/-- If no element is removed more often than added and one is removed less often, then so it is for
every class of that element. -/
lemma removed_lt_of_mem {p : α → Bool} {a : α} (h : ∀ b, removed (· = b) evs ≤ added (· = b) evs)
    (ha : removed (· = a) evs < added (· = a) evs) (hp : p a = true) :
    removed p evs < added p evs := by
  have hcount :
      ∀ (l : List α) b, l.countP (fun x => decide (x = b)) = Multiset.count b (l : Multiset α) := by
    intro l b
    rw [Multiset.coe_count, List.count]
    exact List.countP_congr fun x _ => by simp
  have hle : a ::ₘ (removedElems evs : Multiset α) ≤ (addedElems evs : Multiset α) := by
    refine Multiset.le_iff_count.mpr fun b => ?_
    have hb := h b
    rw [removed, added, hcount, hcount] at ha hb
    rw [Multiset.count_cons]
    split_ifs with hab
    · rw [hab]
      exact ha
    · exact hb
  have := Multiset.countP_le_of_le (fun x => p x = true) hle
  rw [Multiset.countP_cons_of_pos (p := fun x => p x = true) _ hp, Multiset.coe_countP,
    Multiset.coe_countP] at this
  simp only [Bool.decide_eq_true] at this
  exact this

/-- The tallies, and the elements, after some events. -/
structure Tallied (mem : κ → α → Bool) (tal : κ → σ → ℕ) (s : σ) (evs : List (CountEvent α)) :
    Prop where
  eq : ∀ c, tal c s + removed (mem c) evs = added (mem c) evs
  le : ∀ a, removed (· = a) evs ≤ added (· = a) evs
  deletes : ∀ ev ∈ evs, ∀ a, ev.op = .delete a → ev.ok = true

/-- One call keeps the tallies. -/
lemma Tallied.call (hc : Counts step Inv mem tal) (hs : Inv s) (h : Tallied mem tal s evs)
    (op : CountOp α) (hop : match op with
      | .insert _ => True
      | .delete a => removed (· = a) evs < added (· = a) evs) :
    Tallied mem tal (step s op).2 (evs ++ [⟨op, (step s op).1⟩]) := by
  cases op with
  | insert a =>
    refine ⟨fun c => ?_, fun b => ?_, fun ev hev b hb => ?_⟩
    · rw [added_append, removed_append, added_single_insert, removed_single_insert,
        hc.insert s a c hs]
      have := h.eq c
      omega
    · rw [added_append, removed_append, removed_single_insert]
      have := h.le b
      omega
    · rcases List.mem_append.mp hev with hev | hev
      · exact h.deletes ev hev b hb
      · rw [List.mem_singleton.mp hev] at hb
        cases hb
  | delete a =>
    have hok : (step s (.delete a)).1 = true := by
      refine hc.found s a hs fun c hca => ?_
      have := removed_lt_of_mem h.le hop hca
      have := h.eq c
      omega
    refine ⟨fun c => ?_, fun b => ?_, fun ev hev b hb => ?_⟩
    · rw [added_append, removed_append, added_single_delete, removed_single_delete]
      have := hc.delete s a c hs
      have := h.eq c
      omega
    · rw [added_append, removed_append, added_single_delete, removed_single_delete, hok,
        Bool.true_and]
      by_cases hab : a = b
      · subst hab
        simpa using Nat.succ_le_of_lt hop
      · simpa [hab] using h.le b
    · rcases List.mem_append.mp hev with hev | hev
      · exact h.deletes ev hev b hb
      · rw [List.mem_singleton.mp hev]
        exact hok

/-- A run keeps the tallies. -/
lemma Tallied.run (hc : Counts step Inv mem tal) :
    ∀ (ops : List (CountOp α)) (s : σ) (evs : List (CountEvent α)),
    Inv s → Tallied mem tal s evs → Covered step s evs ops →
      Inv (countRun step s ops).2 ∧
      Tallied mem tal (countRun step s ops).2 (evs ++ (countRun step s ops).1)
  | [], s, evs, hs, h, _ => by
    rw [countRun, List.append_nil]
    exact ⟨hs, h⟩
  | op :: ops, s, evs, hs, h, hcov => by
    obtain ⟨hop, hcov⟩ := hcov
    have ih := Tallied.run hc ops _ _ (hc.keeps s op hs) (h.call hc hs op hop) hcov
    rw [List.append_assoc] at ih
    exact ih

/-- A run from a state whose tallies are all zero. -/
lemma Counts.run (hc : Counts step Inv mem tal) (hs : Inv s) (h0 : ∀ c, tal c s = 0)
    {ops : List (CountOp α)} (hcov : Covered step s [] ops) :
    Inv (countRun step s ops).2 ∧ Tallied mem tal (countRun step s ops).2 (countRun step s ops).1 :=
  Tallied.run hc ops s [] hs ⟨fun c => by rw [h0 c]; rfl, fun _ => le_rfl,
    fun _ h => nomatch h⟩ hcov

/-- An element inserted more often than deleted has a positive tally in each of its classes. -/
lemma Tallied.pos (h : Tallied mem tal s evs) {a : α}
    (ha : removed (· = a) evs < added (· = a) evs) {c : κ}
    (hca : mem c a = true) : 0 < tal c s := by
  have := removed_lt_of_mem h.le ha hca
  have := h.eq c
  omega

/-- Every call of the run has the property `P` of the state and the events before it. -/
def Always (step : σ → CountOp α → Bool × σ) (P : σ → List (CountEvent α) → CountOp α → Prop) :
    σ → List (CountEvent α) → List (CountOp α) → Prop
  | _, _, [] => True
  | s, evs, op :: ops => P s evs op ∧ Always step P (step s op).2 (evs ++ [⟨op, (step s op).1⟩]) ops

omit [DecidableEq α] in
/-- A property that can be decided of each call can be decided of a run. -/
instance Always.decide {P : σ → List (CountEvent α) → CountOp α → Prop}
    [∀ s evs op, Decidable (P s evs op)] :
    ∀ s evs ops, Decidable (Always step P s evs ops)
  | _, _, [] => isTrue trivial
  | s, evs, op :: ops =>
    have : Decidable (Always step P (step s op).2 (evs ++ [⟨op, (step s op).1⟩]) ops) :=
      Always.decide _ _ ops
    instDecidableAnd

omit [DecidableEq α] in
/-- Two properties of every call hold of it together. -/
lemma Always.and {P Q : σ → List (CountEvent α) → CountOp α → Prop} :
    ∀ {ops : List (CountOp α)} {s : σ} {evs : List (CountEvent α)},
      Always step P s evs ops → Always step Q s evs ops →
      Always step (fun s evs op => P s evs op ∧ Q s evs op) s evs ops
  | [], _, _, _, _ => trivial
  | _ :: _, _, _, hp, hq => ⟨⟨hp.1, hq.1⟩, Always.and hp.2 hq.2⟩

omit [DecidableEq α] in
/-- What one call with the property keeps, a run keeps. -/
lemma Always.run {P : σ → List (CountEvent α) → CountOp α → Prop}
    {I : σ → List (CountEvent α) → Prop}
    (hstep : ∀ s evs op, I s evs → P s evs op → I (step s op).2 (evs ++ [⟨op, (step s op).1⟩])) :
    ∀ (ops : List (CountOp α)) (s : σ) (evs : List (CountEvent α)),
      I s evs → Always step P s evs ops →
      I (countRun step s ops).2 (evs ++ (countRun step s ops).1)
  | [], s, evs, hs, _ => by
    rw [countRun, List.append_nil]
    exact hs
  | op :: ops, s, evs, hs, ⟨hop, hops⟩ => by
    have ih := Always.run hstep ops _ _ (hstep s evs op hs hop) hops
    rw [List.append_assoc] at ih
    exact ih

end Runs

end Draugr.Lib
