import Mathlib.Data.Set.Card
import Mathlib.Data.List.Basic
import Mathlib.Logic.Function.Basic
import Mathlib.Tactic

/-!
# Places that hold keyed values

A store is a partial function from places to values; every change of it is `Function.update` at one
place. Three things are followed through `put`, `clear` and `move`:

* `Separate key f`: no two places hold values with the same key;
* `held key f`: the keys of the values that are held;
* `hits f P`: the places whose value satisfies `P`, counted by `Set.encard`.
-/

namespace Draugr.Lib

variable {α β κ : Type*}

/-- No two places hold values with one key. -/
def Separate (key : β → κ) (f : α → Option β) : Prop :=
  ∀ a a' b b', f a = some b → f a' = some b' → key b = key b' → a = a'

/-- The keys that are held. -/
def held (key : β → κ) (f : α → Option β) : Set κ := {k | ∃ a b, f a = some b ∧ key b = k}

/-- The places whose value satisfies `P`. -/
def hits (f : α → Option β) (P : β → Prop) : Set α := {a | ∃ b, f a = some b ∧ P b}

/-- A place that holds a value is not an empty one. -/
lemma ne_of_some_of_none {f : α → Option β} {a x : α} {y : β} (hx : f x = some y)
    (ha : f a = none) :
    x ≠ a := by
  rintro rfl
  rw [hx] at ha
  cases ha

/-- An empty place is not hit. -/
lemma notMem_hits {f : α → Option β} {P : β → Prop} {a : α} (ha : f a = none) : a ∉ hits f P := by
  rintro ⟨y, hy, -⟩
  rw [ha] at hy
  cases hy

section Update

variable [DecidableEq α] {key : β → κ} {f : α → Option β} {P : β → Prop} {a c : α} {b b' : β}

/-- A value of an updated store is the new one or an old one at another place. -/
lemma update_some_cases {x : α} {y : β} (h : Function.update f a (some b) x = some y) :
    x = a ∧ y = b ∨ x ≠ a ∧ f x = some y := by
  by_cases hx : x = a
  · subst hx
    rw [Function.update_self] at h
    exact .inl ⟨rfl, (Option.some.inj h).symm⟩
  · rw [Function.update_of_ne hx] at h
    exact .inr ⟨hx, h⟩

/-- A value of a store with a place emptied is an old one at another place. -/
lemma update_none_cases {x : α} {y : β} (h : Function.update f a none x = some y) :
    x ≠ a ∧ f x = some y := by
  by_cases hx : x = a
  · subst hx
    rw [Function.update_self] at h
    cases h
  · rw [Function.update_of_ne hx] at h
    exact ⟨hx, h⟩

/-! ## Keys -/

/-- Putting a value with a new key at an empty place keeps the keys separate. -/
lemma Separate.put (hs : Separate key f) (hb : key b ∉ held key f) :
    Separate key (Function.update f a (some b)) := by
  intro x x' y y' hx hx' hk
  rcases update_some_cases hx with ⟨rfl, rfl⟩ | ⟨-, hy⟩
  · rcases update_some_cases hx' with ⟨rfl, rfl⟩ | ⟨-, hy'⟩
    · rfl
    · exact absurd ⟨x', y', hy', hk.symm⟩ hb
  · rcases update_some_cases hx' with ⟨-, rfl⟩ | ⟨-, hy'⟩
    · exact absurd ⟨x, y, hy, hk⟩ hb
    · exact hs x x' y y' hy hy' hk

/-- Emptying a place keeps the keys separate. -/
lemma Separate.clear (hs : Separate key f) : Separate key (Function.update f a none) := by
  intro x x' y y' hx hx' hk
  exact hs x x' y y' (update_none_cases hx).2 (update_none_cases hx').2 hk

/-- The keys held after a put at an empty place. -/
lemma held_put (ha : f a = none) :
    held key (Function.update f a (some b)) = insert (key b) (held key f) := by
  ext k
  constructor
  · rintro ⟨x, y, hx, rfl⟩
    rcases update_some_cases hx with ⟨-, rfl⟩ | ⟨-, hx⟩
    · exact Set.mem_insert _ _
    · exact Set.mem_insert_of_mem _ ⟨x, y, hx, rfl⟩
  · rintro (rfl | ⟨x, y, hx, rfl⟩)
    · exact ⟨a, b, Function.update_self .., rfl⟩
    · exact ⟨x, y, by rw [Function.update_of_ne (ne_of_some_of_none hx ha), hx], rfl⟩

/-- The keys held after a place is emptied. -/
lemma held_clear (hs : Separate key f) (ha : f a = some b) :
    held key (Function.update f a none) = held key f \ {key b} := by
  ext k
  constructor
  · rintro ⟨x, y, hx, rfl⟩
    obtain ⟨hne, hx⟩ := update_none_cases hx
    exact ⟨⟨x, y, hx, rfl⟩, fun hk => hne (hs x a y b hx ha hk)⟩
  · rintro ⟨⟨x, y, hx, rfl⟩, hne⟩
    have hxa : x ≠ a := by
      rintro rfl
      rw [ha] at hx
      cases hx
      exact hne rfl
    exact ⟨x, y, by rw [Function.update_of_ne hxa, hx], rfl⟩

/-- An emptied place is empty, and so are the places that were. -/
lemma update_none_eq_none (hc : c = a ∨ f c = none) : Function.update f a none c = none := by
  by_cases h : c = a
  · subst h
    rw [Function.update_self]
  · rw [Function.update_of_ne h]
    exact hc.resolve_left h

/-! ## Counting -/

/-- A put of a value that satisfies `P` adds one hit. -/
lemma encard_hits_put (ha : f a = none) (hb : P b) :
    (hits (Function.update f a (some b)) P).encard = (hits f P).encard + 1 := by
  have h : hits (Function.update f a (some b)) P = insert a (hits f P) := by
    ext x
    constructor
    · rintro ⟨y, hx, hy⟩
      rcases update_some_cases hx with ⟨rfl, -⟩ | ⟨-, hx⟩
      · exact Set.mem_insert _ _
      · exact Set.mem_insert_of_mem _ ⟨y, hx, hy⟩
    · rintro (rfl | ⟨y, hx, hy⟩)
      · exact ⟨b, Function.update_self .., hb⟩
      · exact ⟨y, by rw [Function.update_of_ne (ne_of_some_of_none hx ha), hx], hy⟩
  rw [h, Set.encard_insert_of_notMem (notMem_hits ha)]

/-- A put of a value that does not satisfy `P` changes no hit. -/
lemma hits_put_of_not (ha : f a = none) (hb : ¬ P b) :
    hits (Function.update f a (some b)) P = hits f P := by
  ext x
  constructor
  · rintro ⟨y, hx, hy⟩
    rcases update_some_cases hx with ⟨-, rfl⟩ | ⟨-, hx⟩
    · exact absurd hy hb
    · exact ⟨y, hx, hy⟩
  · rintro ⟨y, hx, hy⟩
    exact ⟨y, by rw [Function.update_of_ne (ne_of_some_of_none hx ha), hx], hy⟩

/-- The hits after a place is emptied. -/
lemma hits_clear : hits (Function.update f a none) P = hits f P \ {a} := by
  ext x
  constructor
  · rintro ⟨y, hx, hy⟩
    obtain ⟨hne, hx⟩ := update_none_cases hx
    exact ⟨⟨y, hx, hy⟩, hne⟩
  · rintro ⟨⟨y, hx, hy⟩, hne⟩
    exact ⟨y, by rw [Function.update_of_ne hne, hx], hy⟩

/-- Emptying a place whose value satisfies `P` takes away one hit. -/
lemma encard_hits_clear (ha : f a = some b) (hb : P b) :
    (hits (Function.update f a none) P).encard + 1 = (hits f P).encard := by
  have hm : a ∈ hits f P := ⟨b, ha, hb⟩
  rw [hits_clear, Set.encard_sdiff_singleton_add_one hm]

/-- Emptying a place whose value does not satisfy `P` changes no hit. -/
lemma hits_clear_of_not (ha : f a = some b) (hb : ¬ P b) :
    hits (Function.update f a none) P = hits f P := by
  rw [hits_clear]
  refine Set.sdiff_singleton_eq_self ?_
  rintro ⟨y, hy, hP⟩
  rw [ha] at hy
  cases hy
  exact hb hP

end Update

/-- No place is hit when the count is zero. -/
lemma not_of_encard_hits_eq_zero {f : α → Option β} {P : β → Prop} (h : (hits f P).encard = 0)
    {a : α} {b : β} (ha : f a = some b) : ¬ P b := by
  intro hb
  have hm : a ∈ hits f P := ⟨b, ha, hb⟩
  rw [Set.encard_eq_zero] at h
  rw [h] at hm
  exact hm

/-! ## Listing the places -/

/-- A set that a list without repetition lists. -/
lemma encard_eq_length {s : Set α} {l : List α} (hl : l.Nodup) (hm : ∀ a, a ∈ s ↔ a ∈ l) :
    s.encard = l.length := by
  classical
  have hs : s = (l.toFinset : Set α) := by
    ext a
    rw [hm, Finset.mem_coe, List.mem_toFinset]
  rw [hs, Set.encard_coe_eq_coe_finsetCard, List.toFinset_card_of_nodup hl]

section Listing

variable {key : β → κ} {f : α → Option β} {P : β → Prop} {l : List α}

/-- The keys of the values in a list of places. -/
lemma Separate.nodup_keys (hs : Separate key f) :
    ∀ {l : List α}, l.Nodup → ((l.filterMap f).map key).Nodup
  | [], _ => List.nodup_nil
  | a :: l, hl => by
    obtain ⟨ha, hl⟩ := List.nodup_cons.mp hl
    cases hf : f a with
    | none =>
      rw [List.filterMap_cons_none hf]
      exact hs.nodup_keys hl
    | some b =>
      rw [List.filterMap_cons_some hf, List.map_cons, List.nodup_cons]
      refine ⟨fun hm => ?_, hs.nodup_keys hl⟩
      obtain ⟨b', hb', hk⟩ := List.mem_map.mp hm
      obtain ⟨a', ha', hf'⟩ := List.mem_filterMap.mp hb'
      rw [hs a a' b b' hf hf' hk.symm] at ha
      exact ha ha'

/-- A list of all places that hold a value gives all keys. -/
lemma mem_held_iff (hl : ∀ a b, f a = some b → a ∈ l) (k : κ) : k ∈ held key f ↔
    k ∈ (l.filterMap f).map key := by
  constructor
  · rintro ⟨a, b, hf, rfl⟩
    exact List.mem_map_of_mem (List.mem_filterMap.mpr ⟨a, hl a b hf, hf⟩)
  · intro hk
    obtain ⟨b, hb, rfl⟩ := List.mem_map.mp hk
    obtain ⟨a, -, hf⟩ := List.mem_filterMap.mp hb
    exact ⟨a, b, hf, rfl⟩

/-- The number of places that are hit, counted in a list of them. -/
lemma encard_hits_eq_countP {p : α → Bool} (hn : l.Nodup)
    (hp : ∀ a, p a = true ↔ ∃ b, f a = some b ∧ P b)
    (hl : ∀ a b, f a = some b → P b → a ∈ l) : (hits f P).encard = l.countP p := by
  rw [List.countP_eq_length_filter]
  refine encard_eq_length (hn.filter p) fun a => ?_
  rw [List.mem_filter, hp]
  refine ⟨fun h => ?_, fun h => h.2⟩
  obtain ⟨b, hf, hb⟩ := h
  exact ⟨hl a b hf hb, b, hf, hb⟩

end Listing

/-- Two folds over one list, one after the other, are one fold when their steps commute. -/
lemma foldl_foldl_of_commute {σ γ : Type*} {f g : σ → γ → σ}
    (h : ∀ s x y, g (f s y) x = f (g s x) y) :
    ∀ (l : List γ) (s : σ), l.foldl g (l.foldl f s) = l.foldl (fun s x => g (f s x) x) s
  | [], _ => rfl
  | x :: l, s => by
    have hx : ∀ (l : List γ) (s : σ), g (l.foldl f s) x = l.foldl f (g s x) := by
      intro l
      induction l with
      | nil => intro s; rfl
      | cons y l ih =>
        intro s
        rw [List.foldl_cons, List.foldl_cons, ih, h]
    rw [List.foldl_cons, List.foldl_cons, List.foldl_cons, hx, foldl_foldl_of_commute h l]

end Draugr.Lib
