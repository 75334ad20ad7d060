import Mathlib.Data.List.Nodup
import Mathlib.Logic.Function.Basic

/-!
# Linked lists in memory

`Seg next p l e` says that the pointer `p` leads through the nodes `l` to the pointer `e`; a list
ends at `none`. `Parted f` says that a family of lists has no node twice. Several lists in one
memory are separate when their nodes are parted, and then writing the link of a node changes one of
them only.
-/

namespace Draugr.Lib

variable {α ι : Type*}

/-- The pointer `p` leads through `l` to `e`. -/
def Seg (next : α → Option α) : Option α → List α → Option α → Prop
  | p, [], e => p = e
  | p, a :: l, e => p = some a ∧ Seg next (next a) l e

variable {next next' : α → Option α} {p e : Option α} {a b : α} {l l' : List α}

/-- A segment depends on the links of its nodes only. -/
lemma Seg.congr : ∀ {l : List α} {p : Option α},
    Seg next p l e → (∀ a ∈ l, next' a = next a) → Seg next' p l e
  | [], _, h, _ => h
  | a :: l, p, h, hn => by
    refine ⟨h.1, ?_⟩
    rw [hn a (List.mem_cons_self ..)]
    exact Seg.congr h.2 fun b hb => hn b (List.mem_cons_of_mem _ hb)

/-- Segments compose. -/
lemma Seg.append {q : Option α} : ∀ {l : List α} {p : Option α}, Seg next p l q → Seg next q l' e →
    Seg next p (l ++ l') e
  | [], _, h, h' => by
    rw [show _ = q from h]
    exact h'
  | _ :: _, _, h, h' => ⟨h.1, Seg.append h.2 h'⟩

/-- The first node of a list is where the pointer points. -/
lemma Seg.cons_of_some (h : Seg next (some a) l none) :
    ∃ l', l = a :: l' ∧ Seg next (next a) l' none := by
  cases l with
  | nil => cases h
  | cons b l =>
    obtain ⟨h1, h2⟩ := h
    cases h1
    exact ⟨l, rfl, h2⟩

/-- The null pointer leads to no node. -/
lemma Seg.eq_nil (h : Seg next none l none) : l = [] := by
  cases l with
  | nil => rfl
  | cons b l => cases h.1

/-- A list is determined by its pointer. -/
lemma Seg.unique : ∀ {l l' : List α} {p : Option α}, Seg next p l none → Seg next p l' none → l = l'
  | [], l', p, h, h' => by
    rw [show p = none from h] at h'
    exact h'.eq_nil.symm
  | a :: l, l', p, h, h' => by
    rw [h.1] at h'
    obtain ⟨l'', rfl, h''⟩ := h'.cons_of_some
    rw [Seg.unique h.2 h'']

/-- Two ways through a memory that start at one pointer and end with one node are the same. -/
lemma Seg.unique_last {e' : Option α} : ∀ {l l' : List α} {p : Option α},
    Seg next p l e → Seg next p l' e' →
    l.Nodup → l'.Nodup → l.getLast? = l'.getLast? → l = l'
  | [], l', _, _, _, _, _, hl => (List.getLast?_eq_none_iff.mp hl.symm).symm
  | a :: l, [], _, _, _, _, _, hl => absurd hl (by simp)
  | a :: l, b :: l', p, h, h', hnd, hnd', hl => by
    have hab : a = b := Option.some_inj.mp (h.1.symm.trans h'.1)
    subst hab
    obtain ⟨hal, hnd⟩ := List.nodup_cons.mp hnd
    obtain ⟨hal', hnd'⟩ := List.nodup_cons.mp hnd'
    -- a list that ends after its first node cannot be longer on the other side: the node would be
    -- there twice
    have hend : ∀ {l l' : List α}, a ∉ l' → (a :: l).getLast? = (a :: l').getLast? → l = [] →
        l' = [] := by
      rintro l l' hn hl rfl
      cases l' with
      | nil => rfl
      | cons b l' =>
        rw [List.getLast?_cons_cons] at hl
        exact absurd (List.mem_of_getLast? hl.symm) hn
    by_cases hn : l = []
    · rw [hn, hend hal' hl hn]
    · have hn' : l' ≠ [] := fun h => hn (hend hal hl.symm h)
      obtain ⟨c, l, rfl⟩ := List.exists_cons_of_ne_nil hn
      obtain ⟨d, l', rfl⟩ := List.exists_cons_of_ne_nil hn'
      rw [List.getLast?_cons_cons, List.getLast?_cons_cons] at hl
      rw [Seg.unique_last h.2 h'.2 hnd hnd' hl]

section Decidable

variable [DecidableEq α]

/-- Writing the link of another node. -/
lemma Seg.update_of_notMem {o : Option α} (h : Seg next p l e) (ha : a ∉ l) :
    Seg (Function.update next a o) p l e := by
  refine h.congr fun b hb => Function.update_of_ne ?_ ..
  rintro rfl
  exact ha hb

/-- Writing the link of the last node moves the end of a segment. -/
lemma Seg.update_last : ∀ {l : List α} {p : Option α} {o : Option α},
    Seg next p (l ++ [a]) e → a ∉ l →
    Seg (Function.update next a o) p (l ++ [a]) o
  | [], p, o, h, _ => ⟨h.1, Function.update_self ..⟩
  | b :: l, p, o, h, hn => by
    obtain ⟨hb, hl⟩ := not_or.mp (fun h => hn (List.mem_cons.mpr h))
    refine ⟨h.1, ?_⟩
    rw [Function.update_of_ne fun h => hb h.symm]
    exact Seg.update_last h.2 hl

end Decidable

/-! ## Families of lists -/

/-- No node is in two lists of the family, or twice in one. -/
structure Parted (f : ι → List α) : Prop where
  nodup : ∀ i, (f i).Nodup
  own : ∀ i j a, a ∈ f i → a ∈ f j → i = j

variable [DecidableEq ι] {f : ι → List α} {i j : ι} {li lj : List α}

/-- The nodes after two lists exchanged some. -/
lemma mem_exchange (hij : i ≠ j) (hp : (f i ++ f j).Perm (li ++ lj)) (k : ι) :
    a ∈ Function.update (Function.update f i li) j lj k →
      (k = i ∧ a ∈ li ∨ k = j ∧ a ∈ lj) ∧ (a ∈ f i ∨ a ∈ f j) ∨ (k ≠ i ∧ k ≠ j) ∧ a ∈ f k := by
  intro h
  by_cases hj : k = j
  · subst hj
    rw [Function.update_self] at h
    refine .inl ⟨.inr ⟨rfl, h⟩, ?_⟩
    exact List.mem_append.mp (hp.mem_iff.mpr (List.mem_append_right _ h))
  · rw [Function.update_of_ne hj] at h
    by_cases hi : k = i
    · subst hi
      rw [Function.update_self] at h
      refine .inl ⟨.inl ⟨rfl, h⟩, ?_⟩
      exact List.mem_append.mp (hp.mem_iff.mpr (List.mem_append_left _ h))
    · rw [Function.update_of_ne hi] at h
      exact .inr ⟨⟨hi, hj⟩, h⟩

/-- Two lists exchange nodes. -/
lemma Parted.exchange (hf : Parted f) (hij : i ≠ j) (hp : (f i ++ f j).Perm (li ++ lj)) :
    Parted (Function.update (Function.update f i li) j lj) := by
  have hnd : (li ++ lj).Nodup := by
    refine hp.nodup_iff.mp (List.nodup_append'.mpr ⟨hf.nodup i, hf.nodup j, fun b hb hb' => ?_⟩)
    exact hij (hf.own i j b hb hb')
  obtain ⟨hni, hnj, hdis⟩ := List.nodup_append'.mp hnd
  constructor
  · intro k
    by_cases hj : k = j
    · subst hj
      rw [Function.update_self]
      exact hnj
    · rw [Function.update_of_ne hj]
      by_cases hi : k = i
      · subst hi
        rw [Function.update_self]
        exact hni
      · rw [Function.update_of_ne hi]
        exact hf.nodup k
  · intro k k' b hb hb'
    rcases mem_exchange hij hp k hb with ⟨hk, hold⟩ | ⟨⟨hki, hkj⟩, hold⟩ <;>
      rcases mem_exchange hij hp k' hb' with ⟨hk', hold'⟩ | ⟨⟨hki', hkj'⟩, hold'⟩
    · rcases hk with ⟨rfl, h1⟩ | ⟨rfl, h1⟩ <;> rcases hk' with ⟨rfl, h2⟩ | ⟨rfl, h2⟩
      · rfl
      · exact (hdis h1 h2).elim
      · exact (hdis h2 h1).elim
      · rfl
    · rcases hold with hold | hold
      · exact absurd (hf.own _ _ b hold' hold) hki'
      · exact absurd (hf.own _ _ b hold' hold) hkj'
    · rcases hold' with hold' | hold'
      · exact absurd (hf.own _ _ b hold hold') hki
      · exact absurd (hf.own _ _ b hold hold') hkj
    · exact hf.own _ _ b hold hold'

/-- The nodes of the family after an exchange. -/
lemma exists_mem_exchange (hij : i ≠ j) (hp : (f i ++ f j).Perm (li ++ lj)) :
    (∃ k, a ∈ Function.update (Function.update f i li) j lj k) ↔ ∃ k, a ∈ f k := by
  constructor
  · rintro ⟨k, hk⟩
    rcases mem_exchange hij hp k hk with ⟨-, h | h⟩ | ⟨-, h⟩
    · exact ⟨i, h⟩
    · exact ⟨j, h⟩
    · exact ⟨k, h⟩
  · rintro ⟨k, hk⟩
    have hmem : a ∈ f i ++ f j → ∃ k, a ∈ Function.update (Function.update f i li) j lj k := by
      intro h
      rcases List.mem_append.mp (hp.mem_iff.mp h) with h | h
      · exact ⟨i, by rw [Function.update_of_ne hij, Function.update_self]; exact h⟩
      · exact ⟨j, by rw [Function.update_self]; exact h⟩
    by_cases hi : k = i
    · subst hi
      exact hmem (List.mem_append_left _ hk)
    by_cases hj : k = j
    · subst hj
      exact hmem (List.mem_append_right _ hk)
    · exact ⟨k, by rw [Function.update_of_ne hj, Function.update_of_ne hi]; exact hk⟩

/-- A node that is in no list is put into an empty one. -/
lemma Parted.add (hf : Parted f) (hi : f i = []) (ha : ∀ k, a ∉ f k) :
    Parted (Function.update f i [a]) := by
  constructor
  · intro k
    by_cases hk : k = i
    · subst hk
      rw [Function.update_self]
      exact List.nodup_singleton a
    · rw [Function.update_of_ne hk]
      exact hf.nodup k
  · have hold : ∀ {k b}, b ∈ Function.update f i [a] k → k = i ∧ b = a ∨ k ≠ i ∧ b ∈ f k := by
      intro k b hb
      by_cases hk : k = i
      · subst hk
        rw [Function.update_self] at hb
        exact .inl ⟨rfl, List.mem_singleton.mp hb⟩
      · rw [Function.update_of_ne hk] at hb
        exact .inr ⟨hk, hb⟩
    intro k k' b hb hb'
    rcases hold hb with ⟨hk, hba⟩ | ⟨hk, hbk⟩ <;> rcases hold hb' with ⟨hk', hba'⟩ | ⟨hk', hbk'⟩
    · rw [hk, hk']
    · exact absurd (hba ▸ hbk') (ha k')
    · exact absurd (hba' ▸ hbk) (ha k)
    · exact hf.own k k' b hbk hbk'

/-- The first node of a list is taken out. -/
lemma Parted.drop (hf : Parted f) (hi : f i = a :: l) :
    Parted (Function.update f i l) ∧ ∀ b, (∃ k, b ∈ Function.update f i l k) ↔ b ≠ a ∧ ∃ k,
      b ∈ f k := by
  have hnd := hf.nodup i
  rw [hi, List.nodup_cons] at hnd
  have hold : ∀ {k b}, b ∈ Function.update f i l k → b ∈ f k := by
    intro k b hb
    by_cases hk : k = i
    · subst hk
      rw [Function.update_self] at hb
      rw [hi]
      exact List.mem_cons_of_mem _ hb
    · rw [Function.update_of_ne hk] at hb
      exact hb
  refine ⟨⟨fun k => ?_, fun k k' b hb hb' => hf.own k k' b (hold hb) (hold hb')⟩, fun b => ⟨?_, ?_⟩⟩
  · by_cases hk : k = i
    · subst hk
      rw [Function.update_self]
      exact hnd.2
    · rw [Function.update_of_ne hk]
      exact hf.nodup k
  · rintro ⟨k, hb⟩
    refine ⟨?_, k, hold hb⟩
    rintro rfl
    have hk : k = i := hf.own k i b (hold hb) (by rw [hi]; exact List.mem_cons_self ..)
    subst hk
    rw [Function.update_self] at hb
    exact hnd.1 hb
  · rintro ⟨hne, k, hb⟩
    by_cases hk : k = i
    · subst hk
      rw [hi] at hb
      exact ⟨k, by rw [Function.update_self]; exact (List.mem_cons.mp hb).resolve_left hne⟩
    · exact ⟨k, by rw [Function.update_of_ne hk]; exact hb⟩

end Draugr.Lib
