import Mathlib.Data.List.Nodup
import Mathlib.Logic.Function.Basic

/-!
# Doubly linked lists

A doubly linked list is a ring: its end pointer `e` counts as a node, the first node is `fd e` and
the last one is `bk e`. `Path fd bk p l n` says that the nodes `l` lie between `p` and `n` and that
every two neighbours are linked both ways. Linking a node in and unlinking one are stated for any
two links `fd'` and `bk'` that agree with the old ones away from the nodes that change.
-/

namespace Draugr.Lib

variable {α : Type*}

/-- The nodes from `p` over `l` to `n` are linked both ways. -/
def Path (fd bk : α → α) : α → List α → α → Prop
  | p, [], n => fd p = n ∧ bk n = p
  | p, x :: l, n => fd p = x ∧ bk x = p ∧ Path fd bk x l n

/-- The ring of the nodes `l` at the end pointer `e`. -/
def Ring (fd bk : α → α) (e : α) (l : List α) : Prop := Path fd bk e l e ∧ (e :: l).Nodup

variable {fd bk fd' bk' : α → α} {p n x e : α} {l l' a b : List α}

/-- A path depends on the forward links of its nodes but the last and the backward links of its
nodes but the first. -/
lemma Path.congr : ∀ {l : List α} {p : α}, Path fd bk p l n → (∀ y ∈ p :: l, fd' y = fd y) →
    (∀ y ∈ l ++ [n], bk' y = bk y) → Path fd' bk' p l n
  | [], p, h, hf, hb => ⟨by rw [hf p (by simp)]; exact h.1, by rw [hb n (by simp)]; exact h.2⟩
  | x :: l, p, h, hf, hb => by
    refine ⟨by rw [hf p (by simp)]; exact h.1, by rw [hb x (by simp)]; exact h.2.1, ?_⟩
    exact Path.congr h.2.2 (fun y hy => hf y (List.mem_cons_of_mem _ hy))
      (fun y hy => hb y (List.mem_cons_of_mem _ hy))

/-- A path splits at each of its nodes. -/
lemma path_append : ∀ {a : List α} {p : α},
    Path fd bk p (a ++ x :: b) n ↔ Path fd bk p a x ∧ Path fd bk x b n
  | [], p => by
    simp only [List.nil_append, Path]
    tauto
  | y :: a, p => by
    simp only [List.cons_append, Path, path_append (a := a)]
    tauto

/-- The node after the first one of a path is a node of it. -/
lemma Path.fd_mem (h : Path fd bk p l n) : fd p ∈ l ++ [n] := by
  cases l with
  | nil => simp [h.1]
  | cons x l => simp [h.1]

/-- The node before the last one of a path is a node of it. -/
lemma Path.bk_mem : ∀ {l : List α} {p : α}, Path fd bk p l n → bk n ∈ p :: l
  | [], p, h => by simp [h.2]
  | x :: l, p, h => List.mem_cons_of_mem _ (Path.bk_mem h.2.2)

/-- Bridging a node takes it out of the path. -/
lemma Path.unlink (hx : Path fd bk x b n) (hff : fd' (bk x) = fd x) (hbb : bk' (fd x) = bk x)
    (hf : ∀ y, y ≠ bk x → y ≠ x → fd' y = fd y) (hb : ∀ y, y ≠ fd x → y ≠ x → bk' y = bk y) :
    ∀ {a : List α} {p : α},
      Path fd bk p a x → (p :: a ++ x :: b).Nodup → (a ++ x :: b ++ [n]).Nodup →
      Path fd' bk' p (a ++ b) n
  | [], p, h, hnd, hnd' => by
    rw [h.2] at hff hbb hf
    cases b with
    | nil =>
      rw [hx.1] at hff hbb
      exact ⟨hff, hbb⟩
    | cons r b =>
      rw [hx.1] at hff hbb hb
      refine ⟨hff, hbb, hx.2.2.congr (fun y hy => ?_) fun y hy => ?_⟩
      · refine hf y ?_ ?_ <;> rintro rfl
        · exact (List.nodup_cons.mp hnd).1 (List.mem_cons_of_mem _ hy)
        · exact (List.nodup_cons.mp (List.nodup_cons.mp hnd).2).1 hy
      · refine hb y ?_ ?_ <;> rintro rfl
        · exact (List.nodup_cons.mp (List.nodup_cons.mp hnd').2).1 hy
        · exact (List.nodup_cons.mp hnd').1 (List.mem_cons_of_mem _ hy)
  | y :: a, p, h, hnd, hnd' => by
    have hp : p ∉ y :: a ++ x :: b := (List.nodup_cons.mp hnd).1
    have hy : y ∉ a ++ x :: b ++ [n] := (List.nodup_cons.mp hnd').1
    refine ⟨?_, ?_,
      Path.unlink hx hff hbb hf hb h.2.2 (List.nodup_cons.mp hnd).2 (List.nodup_cons.mp hnd').2⟩
    · rw [hf p ?_ ?_]
      · exact h.1
      · rintro rfl
        exact hp (List.mem_append_left _ (Path.bk_mem h.2.2))
      · rintro rfl
        exact hp (by simp)
    · rw [hb y ?_ ?_]
      · exact h.2.1
      · intro hyx
        refine hy (hyx ▸ ?_)
        rw [List.append_assoc]
        exact List.mem_append_right _ (List.mem_cons_of_mem _ hx.fd_mem)
      · intro hyx
        refine hy (hyx ▸ ?_)
        rw [List.append_assoc]
        exact List.mem_append_right _ (List.mem_cons_self ..)

/-- A new node linked in before the first. -/
lemma Ring.link (h : Ring fd bk e l) (hx : x ∉ e :: l) (h1 : fd' e = x) (h2 : bk' x = e)
    (h3 : fd' x = fd e) (h4 : bk' (fd e) = x) (hf : ∀ y ∈ l, fd' y = fd y)
    (hb : ∀ y ∈ e :: l, y ≠ fd e → bk' y = bk y) :
    Ring fd' bk' e (x :: l) := by
  obtain ⟨hl, hnd⟩ := h
  have hxe : x ≠ e := fun h => hx (h ▸ List.mem_cons_self ..)
  have hxl : x ∉ l := fun h => hx (List.mem_cons_of_mem _ h)
  obtain ⟨hel, hnd⟩ := List.nodup_cons.mp hnd
  refine ⟨⟨h1, h2, ?_⟩, ?_⟩
  · cases l with
    | nil =>
      rw [hl.1] at h3 h4
      exact ⟨h3, h4⟩
    | cons y l =>
      rw [hl.1] at h3 h4 hb
      refine ⟨h3, h4, hl.2.2.congr hf fun z hz => hb z ?_ ?_⟩
      · simp only [List.mem_append, List.mem_cons, List.not_mem_nil, or_false] at hz ⊢
        tauto
      · rintro rfl
        rcases List.mem_append.mp hz with hz | hz
        · exact (List.nodup_cons.mp hnd).1 hz
        · exact hel (by simp [List.mem_singleton.mp hz])
  · exact List.nodup_cons.mpr ⟨by simp [Ne.symm hxe, hel], List.nodup_cons.mpr ⟨hxl, hnd⟩⟩

/-- A node bridged by its neighbours leaves the ring. -/
lemma Ring.unlink [DecidableEq α] (h : Ring fd bk e l) (hx : x ∈ l) (hff : fd' (bk x) = fd x)
    (hbb : bk' (fd x) = bk x)
    (hf : ∀ y, y ≠ bk x → y ≠ x → fd' y = fd y) (hb : ∀ y, y ≠ fd x → y ≠ x → bk' y = bk y) :
    Ring fd' bk' e (l.erase x) := by
  obtain ⟨hl, hnd⟩ := h
  obtain ⟨hel, hnd⟩ := List.nodup_cons.mp hnd
  obtain ⟨a, b, rfl⟩ := List.append_of_mem hx
  have hxa : x ∉ a := fun hxa => (List.nodup_append.mp hnd).2.2 x hxa x (by simp) rfl
  rw [List.erase_append_right _ hxa, List.erase_cons_head]
  obtain ⟨hla, hlb⟩ := path_append.mp hl
  have hsub : (a ++ b).Sublist (a ++ x :: b) := (List.sublist_cons_self ..).append_left _
  refine ⟨Path.unlink hlb hff hbb hf hb hla (List.nodup_cons.mpr ⟨hel, hnd⟩) ?_, ?_⟩
  · refine List.nodup_append.mpr ⟨hnd, List.nodup_singleton _, fun y hy z hz => ?_⟩
    rw [List.mem_singleton.mp hz]
    rintro rfl
    exact hel hy
  · exact List.nodup_cons.mpr ⟨fun he => hel (hsub.subset he), hnd.sublist hsub⟩

/-- The first node of a ring. -/
lemma Ring.fd_end (h : Ring fd bk e l) : fd e = l.headD e := by
  obtain ⟨hl, -⟩ := h
  cases l with
  | nil => exact hl.1
  | cons x l => exact hl.1

/-- The last node of a ring. -/
lemma Ring.bk_end (h : Ring fd bk e l) : bk e = l.getLastD e := by
  obtain ⟨hl, -⟩ := h
  rcases l.eq_nil_or_concat with rfl | ⟨l, x, rfl⟩
  · exact hl.2
  · rw [List.concat_eq_append] at hl ⊢
    rw [(path_append.mp hl).2.2]
    simp

/-- The node before a node of a ring is another node of it or the end pointer. -/
lemma Ring.bk_mem (h : Ring fd bk e l) (hx : x ∈ l) : bk x ∈ e :: l ∧ bk x ≠ x := by
  obtain ⟨hl, hnd⟩ := h
  obtain ⟨a, b, rfl⟩ := List.append_of_mem hx
  have hm := (path_append.mp hl).1.bk_mem
  refine ⟨?_, fun he => ?_⟩
  · simp only [List.mem_cons, List.mem_append] at hm ⊢
    tauto
  · rw [he] at hm
    rw [← List.cons_append] at hnd
    exact (List.nodup_append.mp hnd).2.2 x hm x (by simp) rfl

/-- The node after a node of a ring is another node of it or the end pointer. -/
lemma Ring.fd_mem (h : Ring fd bk e l) (hx : x ∈ l) : fd x ∈ e :: l ∧ fd x ≠ x := by
  obtain ⟨hl, hnd⟩ := h
  obtain ⟨a, b, rfl⟩ := List.append_of_mem hx
  have hm := (path_append.mp hl).2.fd_mem
  refine ⟨?_, fun he => ?_⟩
  · simp only [List.mem_cons, List.mem_append, List.not_mem_nil, or_false] at hm ⊢
    tauto
  · rw [he] at hm
    obtain ⟨hel, hnd⟩ := List.nodup_cons.mp hnd
    rcases List.mem_append.mp hm with hm | hm
    · exact (List.nodup_cons.mp (List.nodup_append.mp hnd).2.1).1 hm
    · exact hel (List.mem_singleton.mp hm ▸ hx)

/-- The nodes met from `p` on by the forward links before `e`, at most `fuel` of them. -/
def walk [DecidableEq α] (fd : α → α) (e : α) : ℕ → α → List α
  | 0, _ => []
  | fuel + 1, p => if fd p = e then [] else fd p :: walk fd e fuel (fd p)

/-- The walk along a path meets its nodes. -/
lemma Path.walk_eq [DecidableEq α] : ∀ {l : List α} {p : α} {fuel : ℕ},
    Path fd bk p l e → e ∉ l → l.length < fuel →
    walk fd e fuel p = l
  | [], p, fuel + 1, h, _, _ => by
    rw [walk, if_pos h.1]
  | x :: l, p, fuel + 1, h, he, hn => by
    rw [List.mem_cons, not_or] at he
    rw [walk, h.1, if_neg (Ne.symm he.1), Path.walk_eq h.2.2 he.2 (by simpa using hn)]

/-- The walk around a ring meets its nodes. -/
lemma Ring.walk_eq [DecidableEq α] {fuel : ℕ} (h : Ring fd bk e l) (hn : l.length < fuel) :
    walk fd e fuel e = l :=
  h.1.walk_eq (List.nodup_cons.mp h.2).1 hn

end Draugr.Lib
