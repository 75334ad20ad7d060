import Draugr.Epoch.Defs

/-!
# The places of a retire node

At every moment the allocated nodes are divided among the two stacks, the nodes in the hands of
retirers, and the popped, keep and free lists of the collectors. `Laid s f` says that `f` is this
division of the memory of `s`, and `Counted s` that a node which is in no retirer's hand has been
pushed once more than freed. Both hold in every reachable state, so no node that was pushed is lost,
and none is freed twice.
-/

namespace Draugr.Epoch

open Draugr.Lib

/-- The lists a thread may own. -/
inductive Part where
  | hand
  | popped
  | keep
  | free
  deriving DecidableEq, Repr

/-- A stack, or a list of a thread. -/
inductive Place where
  | head (k : Kind)
  | part (t : ℕ) (q : Part)
  deriving DecidableEq, Repr

/-- A retirer's node before its push. -/
def Local.hand : Local → Option ℕ
  | .retire _ n | .push _ n _ => some n
  | _ => none

/-- `head` in the splitting loop. -/
def Local.cur : Local → Option ℕ
  | .split _ _ cur _ _ _ => cur
  | _ => none

/-- `keep`. -/
def Local.keep : Local → Option ℕ
  | .split _ _ _ keep _ _ | .release _ _ _ keep _ => keep
  | .repush _ _ keep _ _ => some keep
  | _ => none

/-- `keep_tail`. -/
def Local.tail : Local → Option ℕ
  | .split _ _ _ _ tail _ | .release _ _ _ _ tail => tail
  | .repush _ _ _ tail _ => some tail
  | _ => none

/-- `free_list`. -/
def Local.free : Local → Option ℕ
  | .split _ _ _ _ _ free | .release _ _ free _ _ => free
  | _ => none

/-- The list `l` is what the thread owns; its keep list goes from `keep` to `keep_tail`. -/
def Local.Holds (next : ℕ → Option ℕ) (c : Local) : Part → List ℕ → Prop
  | .hand, l => l = c.hand.toList
  | .popped, l => Seg next c.cur l none
  | .keep, l => l.Nodup ∧ l.getLast? = c.tail ∧ ∃ e, Seg next c.keep l e
  | .free, l => Seg next c.free l none

/-- The list `l` is at the place. -/
def EpochCtl.Holds (s : EpochCtl) : Place → List ℕ → Prop
  | .head k, l => Seg s.next (s.head k) l none
  | .part t q, l => (s.loc t).Holds s.next q l

/-- A node is on the list at the place. -/
def EpochCtl.At (s : EpochCtl) (p : Place) (n : ℕ) : Prop := ∃ l, s.Holds p l ∧ n ∈ l

variable {s s' : EpochCtl} {f f' : Place → List ℕ} {t n : ℕ} {k : Kind} {c : Local} {q : Part}
  {l l' : List ℕ}
  {next next' : ℕ → Option ℕ}

/-- What a thread owns depends on the links of its nodes only. -/
lemma Local.Holds.congr (h : c.Holds next q l) (hn : ∀ a ∈ l, next' a = next a) :
    c.Holds next' q l := by
  cases q with
  | hand => exact h
  | popped => exact Seg.congr h hn
  | keep =>
    obtain ⟨hnd, ht, e, h⟩ := h
    exact ⟨hnd, ht, e, h.congr hn⟩
  | free => exact Seg.congr h hn

/-- The memory determines the list at a place. -/
lemma EpochCtl.Holds.unique {p : Place} (h : s.Holds p l) (h' : s.Holds p l') : l = l' := by
  cases p with
  | head k => exact Seg.unique h h'
  | part t q =>
    cases q with
    | hand => exact Eq.trans h (Eq.symm h')
    | popped => exact Seg.unique h h'
    | keep =>
      obtain ⟨hnd, ht, e, h⟩ := h
      obtain ⟨hnd', ht', e', h'⟩ := h'
      exact h.unique_last h' hnd hnd' (ht.trans ht'.symm)
    | free => exact Seg.unique h h'

/-- `f` divides the allocated nodes among the places. -/
structure Laid (s : EpochCtl) (f : Place → List ℕ) : Prop where
  parted : Parted f
  holds : ∀ p, s.Holds p (f p)
  allocated : ∀ n, s.allocated n = true ↔ ∃ p, n ∈ f p

/-- The pushes and frees of a node, by where it is. -/
structure Counted (s : EpochCtl) : Prop where
  pushed : ∀ n, s.allocated n = true → (∀ t, (s.loc t).hand ≠ some n) → s.pushes n = s.frees n + 1
  hand : ∀ t n, (s.loc t).hand = some n → s.pushes n = s.frees n
  unused : ∀ n, s.allocated n = false → s.pushes n = s.frees n

/-- The lists of a thread that works on nothing. -/
def Local.Clear (c : Local) : Prop := c.hand = none ∧ c.cur = none ∧ c.keep = none ∧ c.tail = none ∧
    c.free = none

/-- A thread that works on nothing owns no node. -/
lemma Local.Clear.holds (hc : c.Clear) (next : ℕ → Option ℕ) (q : Part) : c.Holds next q [] := by
  obtain ⟨h1, h2, h3, h4, h5⟩ := hc
  cases q with
  | hand => rw [Local.Holds, h1]; rfl
  | popped => exact h2
  | keep => exact ⟨List.nodup_nil, h4.symm, none, h3⟩
  | free => exact h5

/-- A thread that works on nothing has empty lists. -/
lemma Laid.nil_of_clear (h : Laid s f) (hc : (s.loc t).Clear) (q : Part) : f (.part t q) = [] :=
  EpochCtl.Holds.unique (h.holds (.part t q)) (Local.Clear.holds hc s.next q)

/-- A node in the hand of a thread is nowhere else. -/
lemma Laid.hand (h : Laid s f) (hn : (s.loc t).hand = some n) : f (.part t .hand) = [n] := by
  have := h.holds (.part t .hand)
  rw [EpochCtl.Holds, Local.Holds, hn] at this
  exact this

/-- The heads after a step that leaves them alone. -/
lemma Laid.heads (h : Laid s f) (hf : ∀ k, f' (.head k) = f (.head k)) (hh : s'.head = s.head)
    (hn : ∀ k, ∀ a ∈ f (.head k), s'.next a = s.next a) (k : Kind) :
    s'.Holds (.head k) (f' (.head k)) := by
  have := h.holds (.head k)
  rw [hf, EpochCtl.Holds, hh]
  exact Seg.congr this (hn k)

/-- A step of one thread: it is enough to look at the stacks and at its own lists. -/
lemma Laid.step (h : Laid s f) (hp : Parted f') (hloc : ∀ u, u ≠ t → s'.loc u = s.loc u)
    (hf : ∀ u q, u ≠ t → f' (.part u q) = f (.part u q))
    (hn : ∀ u q, u ≠ t → ∀ a ∈ f (.part u q), s'.next a = s.next a)
    (hh : ∀ k, s'.Holds (.head k) (f' (.head k)))
    (ht : ∀ q, (s'.loc t).Holds s'.next q (f' (.part t q)))
    (ha : ∀ n, s'.allocated n = true ↔ ∃ p, n ∈ f' p) : Laid s' f' := by
  refine ⟨hp, fun p => ?_, ha⟩
  cases p with
  | head k => exact hh k
  | part u q =>
    by_cases hu : u = t
    · subst hu
      exact ht q
    · have := h.holds (.part u q)
      rw [hf u q hu, EpochCtl.Holds, hloc u hu]
      exact Local.Holds.congr this (hn u q hu)

/-- A step that moves no node and writes links of nodes of its own thread only. -/
lemma Laid.quiet (h : Laid s f) (hloc : ∀ u, u ≠ t → s'.loc u = s.loc u) (hh : s'.head = s.head)
    (hn : ∀ p, (∀ q, p ≠ .part t q) → ∀ a ∈ f p, s'.next a = s.next a)
    (ht : ∀ q, (s'.loc t).Holds s'.next q (f (.part t q))) (ha : s'.allocated = s.allocated) :
    Laid s' f := by
  refine h.step h.parted hloc (fun _ _ _ => rfl) (fun u q hu => hn _ fun q' hq => hu ?_)
    (h.heads (fun _ => rfl) hh fun k => hn _ fun q hq => nomatch hq) ht fun n => ?_
  · exact (Place.part.inj hq).1
  · rw [ha]
    exact h.allocated n

/-! ## One step -/

/-- Nodes at different places differ. -/
lemma Laid.ne {p p' : Place} {a b : ℕ} (h : Laid s f) (ha : a ∈ f p) (hb : b ∈ f p')
    (hpp : p ≠ p') : a ≠ b := by
  rintro rfl
  exact hpp (h.parted.own p p' a ha hb)

/-- The division depends on the links, the heads, the threads and the allocated nodes. -/
lemma Laid.of_eq (h : Laid s f) (hn : s'.next = s.next) (hh : s'.head = s.head)
    (hl : s'.loc = s.loc) (ha : s'.allocated = s.allocated) : Laid s' f := by
  refine ⟨h.parted, fun p => ?_, fun n => by rw [ha]; exact h.allocated n⟩
  have := h.holds p
  cases p with
  | head k => rwa [EpochCtl.Holds, hn, hh]
  | part u q => rwa [EpochCtl.Holds, hn, hl]

/-- A thread goes on without moving a node. -/
lemma Laid.goto (h : Laid s f) (hc : ∀ q, c.Holds s.next q (f (.part t q))) :
    Laid (s.goto t c) f := by
  refine h.quiet (fun u hu => Function.update_of_ne hu ..) rfl (fun _ _ _ _ => rfl)
    (fun q => ?_) rfl
  rw [show (s.goto t c).loc t = c from Function.update_self ..]
  exact hc q

/-- A thread goes on with the same pointers. -/
lemma Laid.goto_same (h : Laid s f) (h1 : c.hand = (s.loc t).hand) (h2 : c.cur = (s.loc t).cur)
    (h3 : c.keep = (s.loc t).keep) (h4 : c.tail = (s.loc t).tail) (h5 : c.free = (s.loc t).free) :
    Laid (s.goto t c) f := by
  refine h.goto fun q => ?_
  have := h.holds (.part t q)
  cases q with
  | hand => rwa [Local.Holds, h1]
  | popped => rwa [Local.Holds, h2]
  | keep => rwa [Local.Holds, h3, h4]
  | free => rwa [Local.Holds, h5]

/-- The push loop writes the link of its node. -/
lemma Laid.link_hand {old o : Option ℕ} (h : Laid s f) (hl : s.loc t = .push k n old) :
    Laid ((s.link n old).goto t (.push k n o)) f := by
  have hhand : f (.part t .hand) = [n] := h.hand (by rw [hl]; rfl)
  refine h.quiet (fun u hu => Function.update_of_ne hu ..) rfl (fun p hp a ha => ?_)
    (fun q => ?_) rfl
  · refine Function.update_of_ne ((@Laid.ne _ _ _ (.part t .hand)) h ha ?_ (hp .hand)) ..
    rw [hhand]
    exact List.mem_singleton_self n
  · have hq := h.holds (.part t q)
    rw [EpochCtl.Holds, hl] at hq
    rw [show ((s.link n old).goto t (.push k n o)).loc t = .push k n o from Function.update_self ..]
    cases q with
    | hand => exact hhand
    | popped => rw [Seg.eq_nil hq]; rfl
    | keep => rw [List.getLast?_eq_none_iff.mp hq.2.1]; exact ⟨List.nodup_nil, rfl, none, rfl⟩
    | free => rw [Seg.eq_nil hq]; rfl

/-- A step that moves nodes between two places: it is enough to look at these two and at the
thread's other lists. -/
lemma Laid.exchange {i j : Place} {li lj : List ℕ} (h : Laid s f) (hij : i ≠ j)
    (hperm : (f i ++ f j).Perm (li ++ lj)) (hi : ∀ u q, u ≠ t → i ≠ .part u q)
    (hj : ∀ u q, u ≠ t → j ≠ .part u q) (hloc : ∀ u, u ≠ t → s'.loc u = s.loc u)
    (hn : ∀ p, p ≠ i → p ≠ j → ∀ a ∈ f p, s'.next a = s.next a)
    (hh : ∀ k, i ≠ .head k → j ≠ .head k → s'.head k = s.head k) (hHi : s'.Holds i li)
    (hHj : s'.Holds j lj)
    (ht : ∀ q, i ≠ .part t q → j ≠ .part t q → (s'.loc t).Holds s.next q (f (.part t q)))
    (ha : s'.allocated = s.allocated) :
    Laid s' (Function.update (Function.update f i li) j lj) := by
  refine ⟨h.parted.exchange hij hperm, fun p => ?_, fun m => ?_⟩
  · by_cases hpj : p = j
    · subst hpj
      rw [Function.update_self]
      exact hHj
    rw [Function.update_of_ne hpj]
    by_cases hpi : p = i
    · subst hpi
      rw [Function.update_self]
      exact hHi
    rw [Function.update_of_ne hpi]
    cases p with
    | head k =>
      rw [EpochCtl.Holds, hh k (Ne.symm hpi) (Ne.symm hpj)]
      exact Seg.congr (h.holds (.head k)) (hn _ hpi hpj)
    | part u q =>
      by_cases hu : u = t
      · subst hu
        exact (ht q (Ne.symm hpi) (Ne.symm hpj)).congr (hn _ hpi hpj)
      · rw [EpochCtl.Holds, hloc u hu]
        exact Local.Holds.congr (h.holds (.part u q)) (hn _ hpi hpj)
  · rw [ha, exists_mem_exchange hij hperm]
    exact h.allocated m

/-- A list whose pointer is null is empty. -/
lemma Laid.nil (h : Laid s f) (hl : s.loc t = c) (hq : c.Holds s.next q []) :
    f (.part t q) = [] := by
  refine EpochCtl.Holds.unique (h.holds (.part t q)) ?_
  rw [EpochCtl.Holds, hl]
  exact hq

/-- A node is pushed. -/
lemma Laid.push (h : Laid s f) (hl : s.loc t = .push k n (s.head k)) :
    Laid ((((s.link n (s.head k)).setHead k (some n)).count n).goto t .idle)
      (Function.update (Function.update f (.part t .hand) []) (.head k) (n :: f (.head k))) := by
  have hhand : f (.part t .hand) = [n] := h.hand (by rw [hl]; rfl)
  have hne : ∀ p, p ≠ .part t .hand → ∀ a ∈ f p,
      Function.update s.next n (s.head k) a = s.next a := by
    refine fun p hp a ha => Function.update_of_ne (h.ne ha ?_ hp) ..
    rw [hhand]
    exact List.mem_singleton_self n
  refine h.exchange nofun ?_ (fun u q hu => by simp [Ne.symm hu]) (fun u q _ => nofun)
    (fun u hu => Function.update_of_ne hu ..) (fun p hp _ => hne p hp) (fun k' _ hk => ?_) ?_ ?_
      (fun q hq _ => ?_) rfl
  · rw [hhand]
    exact List.Perm.refl _
  · exact Function.update_of_ne (fun h => hk (by rw [h])) ..
  · rw [EpochCtl.Holds,
      show ((((s.link n (s.head k)).setHead k (some n)).count n).goto t .idle).loc t = .idle from
      Function.update_self ..]
    exact Local.Clear.holds ⟨rfl, rfl, rfl, rfl, rfl⟩ _ _
  · refine ⟨Function.update_self .., ?_⟩
    rw [show ((((s.link n (s.head k)).setHead k (some n)).count n).goto t .idle).next n =
      s.head k from
      Function.update_self ..]
    exact Seg.congr (h.holds (.head k)) (hne _ nofun)
  · rw [show ((((s.link n (s.head k)).setHead k (some n)).count n).goto t .idle).loc t = .idle from
      Function.update_self ..]
    have hnil : f (.part t q) = [] := by
      refine h.nil hl ?_
      cases q with
      | hand => exact absurd rfl hq
      | popped => rfl
      | keep => exact ⟨List.nodup_nil, rfl, none, rfl⟩
      | free => rfl
    rw [hnil]
    exact Local.Clear.holds ⟨rfl, rfl, rfl, rfl, rfl⟩ _ q

/-- A collector takes a stack. -/
lemma Laid.pop {m : ℕ} (h : Laid s f) (hl : s.loc t = .pop k m) :
    Laid ((s.setHead k none).goto t (.split k m (s.head k) none none none))
      (Function.update (Function.update f (.head k) []) (.part t .popped) (f (.head k))) := by
  have hnil :
      ∀ q, f (.part t q) = [] := h.nil_of_clear (by rw [hl]; exact ⟨rfl, rfl, rfl, rfl, rfl⟩)
  have hloc : ((s.setHead k none).goto t (.split k m (s.head k) none none none)).loc t =
      .split k m (s.head k) none none none := Function.update_self ..
  refine h.exchange nofun ?_ (fun u q _ => nofun) (fun u q hu => by simp [Ne.symm hu])
    (fun u hu => Function.update_of_ne hu ..) (fun p _ _ a _ => rfl) (fun k' hk _ => ?_) ?_ ?_
      (fun q _ hq => ?_) rfl
  · rw [hnil, List.append_nil]
    exact List.Perm.refl _
  · exact Function.update_of_ne (fun h => hk (by rw [h])) ..
  · exact Function.update_self ..
  · rw [EpochCtl.Holds, hloc]
    exact h.holds (.head k)
  · rw [hloc, hnil]
    cases q with
    | hand => rfl
    | popped => exact absurd rfl hq
    | keep => exact ⟨List.nodup_nil, rfl, none, rfl⟩
    | free => rfl

section Split

variable {m : ℕ} {keep tail free old : Option ℕ}

/-- The list being split starts with the node in the loop. -/
lemma Laid.popped (h : Laid s f) (hl : s.loc t = .split k m (some n) keep tail free) :
    ∃ l, f (.part t .popped) = n :: l ∧ Seg s.next (s.next n) l none := by
  have := h.holds (.part t .popped)
  rw [EpochCtl.Holds, hl] at this
  exact Seg.cons_of_some this

/-- The free list starts with the node in the loop. -/
lemma Laid.released (h : Laid s f) (hl : s.loc t = .release k m (some n) keep tail) :
    ∃ l, f (.part t .free) = n :: l ∧ Seg s.next (s.next n) l none := by
  have := h.holds (.part t .free)
  rw [EpochCtl.Holds, hl] at this
  exact Seg.cons_of_some this

/-- A node goes to the free list. -/
lemma Laid.toFree (h : Laid s f) (hl : s.loc t = .split k m (some n) keep tail free)
    (hf : f (.part t .popped) = n :: l) :
    Laid ((s.link n free).goto t (.split k m (s.next n) keep tail (some n)))
      (Function.update (Function.update f (.part t .popped) l) (.part t .free)
        (n :: f (.part t .free))) := by
  have hmem : n ∈ f (.part t .popped) := by rw [hf]; exact List.mem_cons_self ..
  have hne : ∀ p, p ≠ .part t .popped → ∀ a ∈ f p, Function.update s.next n free a = s.next a :=
    fun p hp a ha => Function.update_of_ne (h.ne ha hmem hp) ..
  have hloc : ((s.link n free).goto t (.split k m (s.next n) keep tail (some n))).loc t =
      .split k m (s.next n) keep tail (some n) := Function.update_self ..
  have hq : ∀ q, (Local.split k m (some n) keep tail free).Holds s.next q (f (.part t q)) := by
    intro q
    rw [← hl]
    exact h.holds (.part t q)
  have hnd := h.parted.nodup (.part t .popped)
  rw [hf, List.nodup_cons] at hnd
  have hseg := hq .popped
  rw [hf] at hseg
  refine h.exchange (by simp) ?_ (fun u q hu => by simp [Ne.symm hu])
    (fun u q hu => by simp [Ne.symm hu])
    (fun u hu => Function.update_of_ne hu ..) (fun p hp _ => hne p hp) (fun _ _ _ => rfl) ?_ ?_
      (fun q hqi hqj => ?_) rfl
  · rw [hf]
    exact List.perm_middle.symm
  · rw [EpochCtl.Holds, hloc]
    exact Seg.update_of_notMem hseg.2 hnd.1
  · rw [EpochCtl.Holds, hloc]
    refine ⟨rfl, ?_⟩
    rw [show ((s.link n free).goto t (.split k m (s.next n) keep tail (some n))).next n = free from
      Function.update_self ..]
    exact Seg.congr (hq .free) (hne _ (by simp))
  · rw [hloc]
    cases q with
    | hand => exact hq .hand
    | popped => exact absurd rfl hqi
    | keep => exact hq .keep
    | free => exact absurd rfl hqj

/-- The end of a keep list after a node was appended. -/
lemma keep_append (h : (Local.split k m (some n) keep tail free).Holds s.next .keep l)
    (hn : n ∉ l) :
    ∃ keep', keep' = (if tail = none then some n else keep) ∧
      (l ++ [n]).Nodup ∧ ∃ e, Seg ((tail.elim id fun b next => Function.update next b (some n))
        (Function.update s.next n none)) keep' (l ++ [n]) e := by
  obtain ⟨hnd, hlast, e, hseg⟩ := h
  refine ⟨_, rfl, List.nodup_append'.mpr ⟨hnd, List.nodup_singleton n, ?_⟩, none, ?_⟩
  · rintro a ha ha'
    rw [List.mem_singleton.mp ha'] at ha
    exact hn ha
  · cases tail with
    | none =>
      rw [List.getLast?_eq_none_iff.mp hlast, if_pos rfl]
      exact ⟨rfl, Function.update_self ..⟩
    | some b =>
      rw [if_neg nofun]
      obtain ⟨l', rfl⟩ := List.getLast?_eq_some_iff.mp hlast
      have hb : b ∉ l' := fun hb => (List.nodup_append'.mp hnd).2.2 hb (List.mem_singleton_self b)
      have hbn : n ≠ b := by
        rintro rfl
        exact hn (List.mem_append_right _ (List.mem_singleton_self n))
      refine Seg.append (Seg.update_last (hseg.update_of_notMem hn) hb) ⟨rfl, ?_⟩
      simp [Seg, hbn]

/-- A node goes to the keep list. -/
lemma Laid.toKeep (h : Laid s f) (hl : s.loc t = .split k m (some n) keep tail free)
    (hf : f (.part t .popped) = n :: l)
    (hn' : next' = (tail.elim id fun b next => Function.update next b (some n))
      (Function.update s.next n none))
    (hs : s' = { s.goto t
      (.split k m (s.next n) (if tail = none then some n else keep) (some n) free) with next :=
        next' }) :
    Laid s' (Function.update (Function.update f (.part t .popped) l) (.part t .keep)
      (f (.part t .keep) ++ [n])) := by
  have hmem : n ∈ f (.part t .popped) := by rw [hf]; exact List.mem_cons_self ..
  have hloc :
      s'.loc t = .split k m (s.next n) (if tail = none then some n else keep) (some n) free := by
    rw [hs]
    exact Function.update_self ..
  have hq : ∀ q, (Local.split k m (some n) keep tail free).Holds s.next q (f (.part t q)) := by
    intro q
    rw [← hl]
    exact h.holds (.part t q)
  have hkeep : n ∉ f (.part t .keep) := fun hk => h.ne hk hmem (by simp) rfl
  -- the links written are those of the node and of the last node of the keep list
  have hnext : ∀ p, p ≠ .part t .keep → ∀ a ∈ f p, a ≠ n → s'.next a = s.next a := by
    intro p hp a ha han
    rw [hs, hn']
    cases tail with
    | none => exact Function.update_of_ne han ..
    | some b =>
      have hb : b ∈ f (.part t .keep) := List.mem_of_getLast? (hq .keep).2.1
      have hab : a ≠ b := h.ne ha hb hp
      simp [hab, han]
  have hnd := h.parted.nodup (.part t .popped)
  rw [hf, List.nodup_cons] at hnd
  have hseg := hq .popped
  rw [hf] at hseg
  refine h.exchange (t := t) (by simp) ?_ (fun u q hu => by simp [Ne.symm hu])
    (fun u q hu => by simp [Ne.symm hu])
    (fun u hu => ?_) (fun p hpi hpj a ha => hnext p hpj a ha (h.ne ha hmem hpi))
      (fun _ _ _ => by rw [hs]; rfl)
    ?_ ?_ (fun q hqi hqj => ?_) (by rw [hs]; rfl)
  · rw [hf, ← List.append_assoc]
    exact (List.perm_append_singleton n (l ++ f (.part t .keep))).symm
  · rw [hs]
    exact Function.update_of_ne hu ..
  · rw [EpochCtl.Holds, hloc]
    refine Seg.congr hseg.2 fun a ha => hnext (.part t .popped) (by simp) a ?_ ?_
    · rw [hf]
      exact List.mem_cons_of_mem _ ha
    · rintro rfl
      exact hnd.1 ha
  · obtain ⟨keep', hk', hnd', e, he⟩ := keep_append (hq .keep) hkeep
    rw [EpochCtl.Holds, hloc]
    refine ⟨hnd', List.getLast?_concat .., e, ?_⟩
    rw [hs, hn',
      show (Local.split k m (s.next n) (if tail = none then some n else keep) (some n) free).keep =
        keep' from
      hk'.symm]
    exact he
  · rw [hloc]
    cases q with
    | hand => exact hq .hand
    | popped => exact absurd rfl hqi
    | keep => exact absurd rfl hqj
    | free => exact hq .free

/-- A node of the free list, or a generation, is freed. -/
lemma Laid.drop (h : Laid s f) (hf : f (.part t q) = n :: l)
    (hc : ∀ q', q' ≠ q → c.Holds s.next q' (f (.part t q'))) (hq : c.Holds s.next q l) :
    Laid ((s.release n).goto t c) (Function.update f (.part t q) l) := by
  obtain ⟨hp, hmem⟩ := h.parted.drop hf
  have hloc : ((s.release n).goto t c).loc t = c := Function.update_self ..
  refine h.step (t := t) hp (fun u hu => Function.update_of_ne hu ..)
    (fun u q' hu => Function.update_of_ne (by simp [hu]) ..)
    (fun _ _ _ _ _ => rfl) (fun k' => ?_) (fun q' => ?_) fun a => ?_
  · rw [Function.update_of_ne (by simp)]
    exact h.holds (.head k')
  · rw [hloc]
    by_cases hqq : q' = q
    · subst hqq
      rw [Function.update_self]
      exact hq
    · rw [Function.update_of_ne (by simp [hqq])]
      exact hc q' hqq
  · rw [hmem, ← h.allocated]
    by_cases han : a = n
    · subst han
      simp [EpochCtl.goto, EpochCtl.release]
    · simp [EpochCtl.goto, EpochCtl.release, han]

/-- A retirer gets a node from the allocator. -/
lemma Laid.fill (h : Laid s f) (hl : s.loc t = .idle) (hn : s.allocated n = false) :
    Laid ((s.fill k n).goto t (.retire k n)) (Function.update f (.part t .hand) [n]) := by
  have hnil :
      ∀ q, f (.part t q) = [] := h.nil_of_clear (by rw [hl]; exact ⟨rfl, rfl, rfl, rfl, rfl⟩)
  have hfree : ∀ p, n ∉ f p := by
    intro p hp
    rw [(h.allocated n).mpr ⟨p, hp⟩] at hn
    cases hn
  have hne : ∀ p, ∀ a ∈ f p, ((s.fill k n).goto t (.retire k n)).next a = s.next a := by
    refine fun p a ha => Function.update_of_ne ?_ ..
    rintro rfl
    exact hfree p ha
  refine h.step (t := t) (h.parted.add (hnil .hand) hfree) (fun u hu => Function.update_of_ne hu ..)
    (fun u q' hu => Function.update_of_ne (by simp [hu]) ..) (fun u q _ => hne _) (fun k' => ?_)
      (fun q => ?_) fun a => ?_
  · rw [Function.update_of_ne (by simp)]
    exact Seg.congr (h.holds (.head k')) (hne _)
  · rw [show ((s.fill k n).goto t (.retire k n)).loc t = .retire k n from Function.update_self ..]
    cases q with
    | hand => rw [Function.update_self]; rfl
    | popped => rw [Function.update_of_ne (by simp), hnil]; rfl
    | keep => rw [Function.update_of_ne (by simp), hnil]; exact ⟨List.nodup_nil, rfl, none, rfl⟩
    | free => rw [Function.update_of_ne (by simp), hnil]; rfl
  · by_cases han : a = n
    · subst han
      refine ⟨fun _ => ⟨.part t .hand, ?_⟩, fun _ => ?_⟩
      · rw [Function.update_self]
        exact List.mem_singleton_self a
      · exact Function.update_self ..
    · rw [show ((s.fill k n).goto t (.retire k n)).allocated a =
        s.allocated a from Function.update_of_ne han .., h.allocated]
      refine exists_congr fun p => ?_
      by_cases hp : p = .part t .hand
      · subst hp
        rw [Function.update_self, hnil]
        simp [han]
      · rw [Function.update_of_ne hp]

end Split

section Repush

variable {m keep tail : ℕ} {old : Option ℕ}

/-- The keep list while it is pushed back. -/
lemma Laid.kept (h : Laid s f) (hl : s.loc t = .repush k m keep tail old) :
    ∃ l, f (.part t .keep) = l ++ [tail] ∧ tail ∉ l ∧ ∃ e,
      Seg s.next (some keep) (l ++ [tail]) e := by
  have hk := h.holds (.part t .keep)
  rw [EpochCtl.Holds, hl] at hk
  obtain ⟨hnd, hlast, e, hseg⟩ := hk
  obtain ⟨l, hl'⟩ := List.getLast?_eq_some_iff.mp hlast
  rw [hl'] at hnd hseg
  exact ⟨l, hl', fun hb => (List.nodup_append'.mp hnd).2.2 hb (List.mem_singleton_self tail),
    e, hseg⟩

/-- The lists a collector that pushes back does not have. -/
lemma Laid.repush_nil (h : Laid s f) (hl : s.loc t = .repush k m keep tail old) (hq : q ≠ .keep) :
    f (.part t q) = [] := by
  refine h.nil hl ?_
  cases q with
  | hand => rfl
  | popped => rfl
  | keep => exact absurd rfl hq
  | free => rfl

/-- The loop that pushes back writes the link of the last node. -/
lemma Laid.link_tail {o : Option ℕ} (h : Laid s f) (hl : s.loc t = .repush k m keep tail old) :
    Laid ((s.link tail old).goto t (.repush k m keep tail o)) f := by
  obtain ⟨l, hk, htl, e, hseg⟩ := h.kept hl
  have hmem : tail ∈ f (.part t .keep) := by
    rw [hk]
    exact List.mem_append_right _ (List.mem_singleton_self tail)
  refine h.quiet (fun u hu => Function.update_of_ne hu ..) rfl
    (fun p hp a ha => Function.update_of_ne (h.ne ha hmem (hp .keep)) ..) (fun q => ?_) rfl
  rw [show ((s.link tail old).goto t (.repush k m keep tail o)).loc t =
    .repush k m keep tail o from Function.update_self ..]
  by_cases hq : q = .keep
  · subst hq
    have hnd := h.parted.nodup (.part t .keep)
    rw [hk] at hnd ⊢
    exact ⟨hnd, List.getLast?_concat .., old, hseg.update_last htl⟩
  · rw [h.repush_nil hl hq]
    cases q with
    | hand => rfl
    | popped => rfl
    | keep => exact absurd rfl hq
    | free => rfl

/-- After a list a collector owns no node. -/
lemma afterList_clear (k : Kind) (m : ℕ) : (afterList k m).Clear := by
  cases k with
  | record => exact ⟨rfl, rfl, rfl, rfl, rfl⟩
  | gen => exact ⟨rfl, rfl, rfl, rfl, rfl⟩

/-- A keep list is pushed back. -/
lemma Laid.repush (h : Laid s f) (hl : s.loc t = .repush k m keep tail (s.head k)) :
    Laid (((s.link tail (s.head k)).setHead k (some keep)).goto t (afterList k m))
      (Function.update (Function.update f (.part t .keep) []) (.head k)
        (f (.part t .keep) ++ f (.head k))) := by
  obtain ⟨l, hk, htl, e, hseg⟩ := h.kept hl
  have hmem : tail ∈ f (.part t .keep) := by
    rw [hk]
    exact List.mem_append_right _ (List.mem_singleton_self tail)
  have hne : ∀ p, p ≠ .part t .keep → ∀ a ∈ f p,
      Function.update s.next tail (s.head k) a = s.next a :=
    fun p hp a ha => Function.update_of_ne (h.ne ha hmem hp) ..
  have hloc : (((s.link tail (s.head k)).setHead k (some keep)).goto t (afterList k m)).loc t =
      afterList k m :=
    Function.update_self ..
  refine h.exchange nofun (List.Perm.refl _) (fun u q hu => by simp [Ne.symm hu])
    (fun u q _ => nofun)
    (fun u hu => Function.update_of_ne hu ..) (fun p hp _ => hne p hp) (fun k' _ hk => ?_) ?_ ?_
      (fun q hq _ => ?_) rfl
  · exact Function.update_of_ne (fun h => hk (by rw [h])) ..
  · rw [EpochCtl.Holds, hloc]
    exact (afterList_clear k m).holds _ _
  · rw [EpochCtl.Holds, hk,
      show (((s.link tail (s.head k)).setHead k (some keep)).goto t (afterList k m)).head k =
        some keep
      from Function.update_self ..]
    exact (hseg.update_last htl).append (Seg.congr (h.holds (.head k)) (hne _ nofun))
  · rw [hloc, h.repush_nil hl fun h => hq (by rw [h])]
    exact (afterList_clear k m).holds _ q

end Repush

/-! ## Every step -/

/-- How the node `b` goes from place to place in a step of the thread `t`. -/
inductive Moved (s : EpochCtl) (t b : ℕ) : Place → Place → Prop where
  | push {k : Kind} : s.loc t = .push k b (s.head k) → Moved s t b (.part t .hand) (.head k)
  | pop {k : Kind} {m : ℕ} : s.loc t = .pop k m → Moved s t b (.head k) (.part t .popped)
  | free {m : ℕ} {keep tail free : Option ℕ} : s.loc t = .split .record m (some b) keep tail free →
      s.retireEpoch b < m → Moved s t b (.part t .popped) (.part t .free)
  | keep {k : Kind} {m : ℕ} {keep tail free : Option ℕ} :
    s.loc t = .split k m (some b) keep tail free →
      m ≤ s.retireEpoch b → Moved s t b (.part t .popped) (.part t .keep)
  | repush {k : Kind} {m keep tail : ℕ} : s.loc t = .repush k m keep tail (s.head k) →
      Moved s t b (.part t .keep) (.head k)

/-- Every node is where it was, or moved. -/
def Traced (s : EpochCtl) (t : ℕ) (f f' : Place → List ℕ) : Prop :=
  ∀ p b, b ∈ f' p → b ∈ f p ∨ ∃ p₀, b ∈ f p₀ ∧ Moved s t b p₀ p

/-- A step that moves no node. -/
lemma Traced.refl : Traced s t f f := fun _ _ hb => .inl hb

/-- A step that moves nodes from one place to another. -/
lemma Traced.exchange {i j : Place} {li lj : List ℕ} (hi : ∀ b ∈ li, b ∈ f i)
    (hj : ∀ b ∈ lj, b ∈ f j ∨ b ∈ f i ∧ Moved s t b i j) :
    Traced s t f (Function.update (Function.update f i li) j lj) := by
  intro p b hb
  by_cases hpj : p = j
  · subst hpj
    rw [Function.update_self] at hb
    rcases hj b hb with hb | ⟨hb, hm⟩
    · exact .inl hb
    · exact .inr ⟨i, hb, hm⟩
  rw [Function.update_of_ne hpj] at hb
  by_cases hpi : p = i
  · subst hpi
    rw [Function.update_self] at hb
    exact .inl (hi b hb)
  · rw [Function.update_of_ne hpi] at hb
    exact .inl hb

/-- A step that frees a node. -/
lemma Traced.drop {i : Place} (hi : f i = n :: l) : Traced s t f (Function.update f i l) := by
  intro p b hb
  by_cases hpi : p = i
  · subst hpi
    rw [Function.update_self] at hb
    rw [hi]
    exact .inl (List.mem_cons_of_mem _ hb)
  · rw [Function.update_of_ne hpi] at hb
    exact .inl hb

/-- A round of the splitting loop. -/
lemma Laid.splitNode {m : ℕ} {keep tail free : Option ℕ} (h : Laid s f)
    (hl : s.loc t = .split k m (some n) keep tail free) :
    ∃ f', Laid (s.splitNode t k m n keep tail free) f' ∧ Traced s t f f' := by
  obtain ⟨l, hf, hseg⟩ := h.popped hl
  have hsub : ∀ b ∈ l, b ∈ f (.part t .popped) := by
    intro b hb
    rw [hf]
    exact List.mem_cons_of_mem _ hb
  have hmem : n ∈ f (.part t .popped) := by rw [hf]; exact List.mem_cons_self ..
  have hq : ∀ q, (Local.split k m (some n) keep tail free).Holds s.next q (f (.part t q)) := by
    intro q
    rw [← hl]
    exact h.holds (.part t q)
  unfold EpochCtl.splitNode
  by_cases hre : s.retireEpoch n < m
  · rw [if_pos hre]
    cases k with
    | record =>
      refine ⟨_, h.toFree hl hf, Traced.exchange hsub fun b hb => ?_⟩
      rcases List.mem_cons.mp hb with rfl | hb
      · exact .inr ⟨hmem, .free hl hre⟩
      · exact .inl hb
    | gen =>
      refine ⟨_, h.drop hf (fun q' hq' => ?_) hseg, Traced.drop hf⟩
      cases q' with
      | hand => exact hq .hand
      | popped => exact absurd rfl hq'
      | keep => exact hq .keep
      | free => exact hq .free
  · rw [if_neg hre]
    have htr : Traced s t f
        (Function.update (Function.update f (.part t .popped) l) (.part t .keep)
          (f (.part t .keep) ++ [n])) := by
      refine Traced.exchange hsub fun b hb => ?_
      rcases List.mem_append.mp hb with hb | hb
      · exact .inl hb
      · rw [List.mem_singleton.mp hb]
        exact .inr ⟨hmem, .keep hl (Nat.not_lt.mp hre)⟩
    cases tail with
    | some b => exact ⟨_, h.toKeep hl hf rfl rfl, htr⟩
    | none => exact ⟨_, h.toKeep hl hf rfl rfl, htr⟩

/-- The keep list of a collector that has freed its free list. -/
lemma Laid.repend {m : ℕ} {keep tail : Option ℕ} (h : Laid s f)
    (hl : s.loc t = .release k m none keep tail) :
    Laid (s.goto t (repend k m keep tail)) f := by
  have hq : ∀ q, (Local.release k m none keep tail).Holds s.next q (f (.part t q)) := by
    intro q
    rw [← hl]
    exact h.holds (.part t q)
  have hnil : ∀ q, q ≠ .keep → f (.part t q) = [] := by
    intro q hne
    refine h.nil hl ?_
    cases q with
    | hand => rfl
    | popped => rfl
    | keep => exact absurd rfl hne
    | free => rfl
  have hclear : f (.part t .keep) = [] → Laid (s.goto t (afterList k m)) f := by
    intro hk
    refine h.goto fun q => ?_
    by_cases hne : q = .keep
    · rw [hne, hk]
      exact (afterList_clear k m).holds _ _
    · rw [hnil q hne]
      exact (afterList_clear k m).holds _ _
  obtain ⟨-, hlast, e, hseg⟩ := hq .keep
  cases tail with
  | none =>
    have := hclear (List.getLast?_eq_none_iff.mp hlast)
    cases keep with
    | none => exact this
    | some a => exact this
  | some b =>
    cases keep with
    | none =>
      refine hclear ?_
      cases hk : f (.part t .keep) with
      | nil => rfl
      | cons a l =>
        rw [hk] at hseg
        cases hseg.1
    | some a =>
      exact h.goto_same (by rw [hl]; rfl) (by rw [hl]; rfl) (by rw [hl]; rfl) (by rw [hl]; rfl)
        (by rw [hl]; rfl)

/-- A step of a call divides the nodes again. -/
lemma Laid.go (h : Laid s f) (hs : s.go t (s.loc t) = some s') :
    ∃ f', Laid s' f' ∧ Traced s t f f' := by
  cases hl : s.loc t with
  | idle => rw [hl] at hs; cases hs
  | pin e =>
    rw [hl] at hs
    cases hs
    have hst : Laid (s.store t e) f := h.of_eq rfl rfl rfl rfl
    have hl' : (s.store t e).loc t = .pin e := hl
    exact ⟨f, hst.goto_same (by rw [hl']; rfl) (by rw [hl']; rfl) (by rw [hl']; rfl)
      (by rw [hl']; rfl) (by rw [hl']; rfl), Traced.refl⟩
  | retire k n =>
    rw [hl] at hs
    cases hs
    exact ⟨f, h.goto_same (by rw [hl]; rfl) (by rw [hl]; rfl) (by rw [hl]; rfl) (by rw [hl]; rfl)
      (by rw [hl]; rfl), Traced.refl⟩
  | push k n old =>
    rw [hl, EpochCtl.go] at hs
    -- the exchange goes through if nobody has changed the head
    by_cases hold : s.head k = old
    · rw [if_pos hold] at hs
      cases hs
      subst hold
      refine ⟨_, h.push hl, Traced.exchange (fun b hb => nomatch hb) fun b hb => ?_⟩
      rcases List.mem_cons.mp hb with rfl | hb
      · refine .inr ⟨?_, .push hl⟩
        rw [h.hand (by rw [hl]; rfl)]
        exact List.mem_singleton_self b
      · exact .inl hb
    · rw [if_neg hold] at hs
      cases hs
      exact ⟨f, h.link_hand hl, Traced.refl⟩
  | scan i m =>
    rw [hl, EpochCtl.go] at hs
    have hgo : ∀ {c : Local}, c.Clear → Laid (s.goto t c) f := by
      intro c hc
      refine h.goto fun q => ?_
      rw [h.nil_of_clear (by rw [hl]; exact ⟨rfl, rfl, rfl, rfl, rfl⟩)]
      exact hc.holds _ q
    split at hs
    all_goals
      cases hs
      exact ⟨f, hgo ⟨rfl, rfl, rfl, rfl, rfl⟩, Traced.refl⟩
  | pop k m =>
    rw [hl] at hs
    cases hs
    exact ⟨_, h.pop hl, Traced.exchange (fun b hb => nomatch hb) fun b hb => .inr ⟨hb, .pop hl⟩⟩
  | split k m cur keep tail free =>
    rw [hl] at hs
    cases cur with
    | none =>
      cases hs
      exact ⟨f, h.goto_same (by rw [hl]; rfl) (by rw [hl]; rfl) (by rw [hl]; rfl) (by rw [hl]; rfl)
        (by rw [hl]; rfl), Traced.refl⟩
    | some n =>
      cases hs
      exact h.splitNode hl
  | release k m free keep tail =>
    rw [hl] at hs
    cases free with
    | none =>
      cases hs
      exact ⟨f, h.repend hl, Traced.refl⟩
    | some n =>
      cases hs
      -- the first node of the free list leaves, the other parts stay
      obtain ⟨l, hf, hseg⟩ := h.released hl
      have hq : ∀ q, (Local.release k m (some n) keep tail).Holds s.next q (f (.part t q)) := by
        intro q
        rw [← hl]
        exact h.holds (.part t q)
      refine ⟨_, h.drop hf (fun q' hq' => ?_) hseg, Traced.drop hf⟩
      cases q' with
      | hand => exact hq .hand
      | popped => exact hq .popped
      | keep => exact hq .keep
      | free => exact absurd rfl hq'
  | repush k m keep tail old =>
    rw [hl, EpochCtl.go] at hs
    by_cases hold : s.head k = old
    · rw [if_pos hold] at hs
      cases hs
      subst hold
      refine ⟨_, h.repush hl, Traced.exchange (fun b hb => nomatch hb) fun b hb => ?_⟩
      rcases List.mem_append.mp hb with hb | hb
      · exact .inr ⟨hb, .repush hl⟩
      · exact .inl hb
    · rw [if_neg hold] at hs
      cases hs
      exact ⟨f, h.link_tail hl, Traced.refl⟩

/-- A first step of a call divides the nodes again; the node of a retirer is new. -/
lemma Laid.begin {v : Move} (h : Laid s f) (hl : s.loc t = .idle) (hs : s.begin t v = some s') :
    ∃ f', Laid s' f' ∧ ∀ p b, b ∈ f' p → b ∈ f p ∨ p = .part t .hand ∧ s.allocated b = false ∧ ∃ k,
      v = .retire k b := by
  have hgo : ∀ {c : Local}, c.Clear → Laid (s.goto t c) f := by
    intro c hc
    refine h.goto fun q => ?_
    rw [h.nil_of_clear (by rw [hl]; exact ⟨rfl, rfl, rfl, rfl, rfl⟩)]
    exact hc.holds _ q
  cases v with
  | pin =>
    rw [EpochCtl.begin] at hs
    split at hs
    · cases hs
      exact ⟨f, hgo ⟨rfl, rfl, rfl, rfl, rfl⟩, fun _ _ hb => .inl hb⟩
    · cases hs
      exact ⟨f, h, fun _ _ hb => .inl hb⟩
  | unpin =>
    rw [EpochCtl.begin] at hs
    split at hs
    · cases hs
      exact ⟨f, h.of_eq rfl rfl rfl rfl, fun _ _ hb => .inl hb⟩
    · cases hs
      exact ⟨f, h, fun _ _ hb => .inl hb⟩
  | retire k n =>
    rw [EpochCtl.begin] at hs
    split at hs
    · cases hs
    case isFalse hn =>
      cases hs
      have hn' : s.allocated n = false := (Bool.not_eq_true _).mp hn
      refine ⟨_, h.fill hl hn', fun p b hb => ?_⟩
      by_cases hp : p = .part t .hand
      · subst hp
        rw [Function.update_self, List.mem_singleton] at hb
        subst hb
        exact .inr ⟨rfl, hn', k, rfl⟩
      · rw [Function.update_of_ne hp] at hb
        exact .inl hb
  | advance =>
    cases hs
    exact ⟨f, h.of_eq rfl rfl rfl rfl, fun _ _ hb => .inl hb⟩
  | collect =>
    cases hs
    exact ⟨f, hgo ⟨rfl, rfl, rfl, rfl, rfl⟩, fun _ _ hb => .inl hb⟩
  | go => cases hs

/-- A node in a retirer's hand is at no other place. -/
lemma Laid.hand_ne {p : Place} {u : ℕ} (h : Laid s f) (hn : n ∈ f p) (hp : ∀ u, p ≠ .part u .hand) :
    (s.loc u).hand ≠ some n := by
  intro hu
  have hmem : n ∈ f (.part u .hand) := by
    rw [h.hand hu]
    exact List.mem_singleton_self n
  exact hp u (h.parted.own p _ n hn hmem)

/-! ## Pushes and frees -/

/-- A step that neither pushes nor frees. -/
lemma Counted.same (h : Counted s) (hh : ∀ u, (s'.loc u).hand = (s.loc u).hand)
    (ha : s'.allocated = s.allocated)
    (hp : s'.pushes = s.pushes) (hf : s'.frees = s.frees) : Counted s' := by
  constructor
  · intro n
    rw [ha, hp, hf]
    exact fun hn hu => h.pushed n hn fun u => hh u ▸ hu u
  · intro t n
    rw [hh, hp, hf]
    exact h.hand t n
  · intro n
    rw [ha, hp, hf]
    exact h.unused n

/-- A thread goes on with the same hand. -/
lemma hand_goto (hc : c.hand = (s.loc t).hand) (u : ℕ) :
    ((s.goto t c).loc u).hand = (s.loc u).hand := by
  by_cases hu : u = t
  · subst hu
    rw [show (s.goto u c).loc u = c from Function.update_self ..]
    exact hc
  · rw [show (s.goto t c).loc u = s.loc u from Function.update_of_ne hu ..]

/-- A node that was pushed is freed. -/
lemma Counted.release (h : Counted s) (hn : s.allocated n = true)
    (hh : ∀ u, (s.loc u).hand ≠ some n)
    (hc : c.hand = (s.loc t).hand) : Counted ((s.release n).goto t c) := by
  have hhand :
      ∀ u, (((s.release n).goto t c).loc u).hand = (s.loc u).hand := hand_goto (s := s.release n) hc
  constructor
  · intro a ha hu
    have han : a ≠ n := by
      rintro rfl
      rw [show ((s.release a).goto t c).allocated a = false from Function.update_self ..] at ha
      cases ha
    rw [show ((s.release n).goto t c).frees a = s.frees a from Function.update_of_ne han ..]
    rw [show ((s.release n).goto t c).allocated a =
      s.allocated a from Function.update_of_ne han ..] at ha
    exact h.pushed a ha fun u => hhand u ▸ hu u
  · intro u a ha
    rw [hhand] at ha
    have han : a ≠ n := by
      rintro rfl
      exact hh u ha
    rw [show ((s.release n).goto t c).frees a = s.frees a from Function.update_of_ne han ..]
    exact h.hand u a ha
  · intro a ha
    by_cases han : a = n
    · subst han
      rw [show ((s.release a).goto t c).frees a = s.frees a + 1 from Function.update_self ..]
      exact h.pushed a hn hh
    · rw [show ((s.release n).goto t c).frees a = s.frees a from Function.update_of_ne han ..]
      rw [show ((s.release n).goto t c).allocated a =
        s.allocated a from Function.update_of_ne han ..] at ha
      exact h.unused a ha

/-- A node is pushed. -/
lemma Counted.push {o : Option ℕ} (h : Counted s) (hl : Laid s f) (ht : (s.loc t).hand = some n) :
    Counted ((((s.link n (s.head k)).setHead k o).count n).goto t .idle) := by
  have hhand :
      ∀ u, u ≠ t → ((((s.link n (s.head k)).setHead k o).count n).goto t .idle).loc u = s.loc u :=
    fun u hu => Function.update_of_ne hu ..
  have ht' : ((((s.link n (s.head k)).setHead k o).count n).goto t .idle).loc t = .idle :=
    Function.update_self ..
  have hn : s.allocated n = true := by
    refine (hl.allocated n).mpr ⟨.part t .hand, ?_⟩
    rw [hl.hand ht]
    exact List.mem_singleton_self n
  -- no other thread has the node in its hand
  have hother : ∀ u, u ≠ t → (s.loc u).hand ≠ some n := by
    intro u hu hun
    have h1 : n ∈ f (.part t .hand) := by rw [hl.hand ht]; exact List.mem_singleton_self n
    have h2 : n ∈ f (.part u .hand) := by rw [hl.hand hun]; exact List.mem_singleton_self n
    exact hl.ne h2 h1 (by simp [hu]) rfl
  constructor
  · intro a ha hu
    by_cases han : a = n
    · subst han
      rw [show ((((s.link a (s.head k)).setHead k o).count a).goto t .idle).pushes a =
        s.pushes a + 1 from
        Function.update_self ..]
      exact congrArg (· + 1) (h.hand t a ht)
    · rw [show ((((s.link n (s.head k)).setHead k o).count n).goto t .idle).pushes a =
        s.pushes a from
        Function.update_of_ne han ..]
      refine h.pushed a ha fun u => ?_
      by_cases hut : u = t
      · subst hut
        rw [ht]
        exact fun h => han (Option.some_inj.mp h).symm
      · exact hhand u hut ▸ hu u
  · intro u a hu
    have hut : u ≠ t := by
      rintro rfl
      rw [ht'] at hu
      cases hu
    rw [hhand u hut] at hu
    have han : a ≠ n := by
      rintro rfl
      exact hother u hut hu
    rw [show ((((s.link n (s.head k)).setHead k o).count n).goto t .idle).pushes a = s.pushes a from
      Function.update_of_ne han ..]
    exact h.hand u a hu
  · intro a ha
    have han : a ≠ n := by
      rintro rfl
      exact Bool.false_ne_true (ha.symm.trans hn)
    rw [show ((((s.link n (s.head k)).setHead k o).count n).goto t .idle).pushes a = s.pushes a from
      Function.update_of_ne han ..]
    exact h.unused a ha

/-- A retirer gets a node. -/
lemma Counted.fill (h : Counted s) (ht : s.loc t = .idle) (hn : s.allocated n = false) :
    Counted ((s.fill k n).goto t (.retire k n)) := by
  have ht' : ((s.fill k n).goto t (.retire k n)).loc t = .retire k n := Function.update_self ..
  have hloc : ∀ u, u ≠ t → ((s.fill k n).goto t (.retire k n)).loc u = s.loc u := fun u hu =>
    Function.update_of_ne hu ..
  constructor
  · intro a ha hu
    have han : a ≠ n := by
      rintro rfl
      exact hu t (by rw [ht']; rfl)
    rw [show ((s.fill k n).goto t (.retire k n)).allocated a =
      s.allocated a from Function.update_of_ne han ..] at ha
    refine h.pushed a ha fun u => ?_
    by_cases hut : u = t
    · subst hut
      rw [ht]
      nofun
    · exact hloc u hut ▸ hu u
  · intro u a hu
    by_cases hut : u = t
    · subst hut
      rw [ht'] at hu
      rw [← Option.some_inj.mp hu]
      exact h.unused n hn
    · rw [hloc u hut] at hu
      exact h.hand u a hu
  · intro a ha
    have han : a ≠ n := by
      rintro rfl
      rw [show ((s.fill k a).goto t (.retire k a)).allocated a =
        true from Function.update_self ..] at ha
      cases ha
    rw [show ((s.fill k n).goto t (.retire k n)).allocated a =
      s.allocated a from Function.update_of_ne han ..] at ha
    exact h.unused a ha

/-- A node of a collector's list is allocated and in no retirer's hand. -/
lemma Laid.pushed {p : Place} (h : Laid s f) (hn : n ∈ f p) (hp : ∀ u, p ≠ .part u .hand) :
    s.allocated n = true ∧ ∀ u, (s.loc u).hand ≠ some n :=
  ⟨(h.allocated n).mpr ⟨p, hn⟩, fun _ => h.hand_ne hn hp⟩

/-- The counts after a step of a call. -/
lemma Counted.go (h : Counted s) (hf : Laid s f) (hs : s.go t (s.loc t) = some s') :
    Counted s' := by
  cases hl : s.loc t with
  | idle => rw [hl] at hs; cases hs
  | pin e =>
    rw [hl] at hs
    cases hs
    exact h.same
      (hand_goto (s := s.store t e) (by rw [show (s.store t e).loc t = .pin e from hl]; rfl))
        rfl rfl rfl
  | retire k n =>
    rw [hl] at hs
    cases hs
    exact h.same (hand_goto (by rw [hl]; rfl)) rfl rfl rfl
  | push k n old =>
    rw [hl, EpochCtl.go] at hs
    by_cases hold : s.head k = old
    · rw [if_pos hold] at hs
      cases hs
      subst hold
      exact h.push hf (by rw [hl]; rfl)
    · rw [if_neg hold] at hs
      cases hs
      exact h.same
        (hand_goto (s := s.link n old)
          (by rw [show (s.link n old).loc t = .push k n old from hl]; rfl)) rfl rfl rfl
  | scan i m =>
    rw [hl, EpochCtl.go] at hs
    split at hs
    all_goals
      cases hs
      exact h.same (hand_goto (by rw [hl]; rfl)) rfl rfl rfl
  | pop k m =>
    rw [hl] at hs
    cases hs
    exact h.same
      (hand_goto (s := s.setHead k none)
        (by rw [show (s.setHead k none).loc t = .pop k m from hl]; rfl)) rfl rfl rfl
  | split k m cur keep tail free =>
    rw [hl] at hs
    cases cur with
    | none =>
      cases hs
      exact h.same (hand_goto (by rw [hl]; rfl)) rfl rfl rfl
    | some n =>
      obtain ⟨l, hfp, -⟩ := hf.popped hl
      obtain ⟨ha, hh⟩ :=
        hf.pushed (p := .part t .popped) (by rw [hfp]; exact List.mem_cons_self ..) (by simp)
      have hlink : ∀ {a : ℕ} {o : Option ℕ},
          (s.link a o).loc t = .split k m (some n) keep tail free := hl
      cases hs
      unfold EpochCtl.splitNode
      -- a young node goes to the keep list; of the old ones a generation is released at once
      by_cases hre : s.retireEpoch n < m
      · rw [if_pos hre]
        cases k with
        | record => exact h.same (hand_goto (s := s.link n free) (by rw [hlink]; rfl)) rfl rfl rfl
        | gen => exact h.release ha hh (by rw [hl]; rfl)
      · rw [if_neg hre]
        cases tail with
        | some b =>
          have hlink' :
              ((s.link n none).link b (some n)).loc t = .split k m (some n) keep (some b) free := hl
          exact h.same
            (hand_goto (s := (s.link n none).link b (some n)) (by rw [hlink']; rfl)) rfl rfl rfl
        | none => exact h.same (hand_goto (s := s.link n none) (by rw [hlink]; rfl)) rfl rfl rfl
  | release k m free keep tail =>
    rw [hl] at hs
    cases free with
    | none =>
      cases hs
      refine h.same (hand_goto ?_) rfl rfl rfl
      rw [hl]
      cases keep <;> cases tail <;> cases k <;> rfl
    | some n =>
      cases hs
      obtain ⟨l, hfp, -⟩ := hf.released hl
      obtain ⟨ha, hh⟩ :=
        hf.pushed (p := .part t .free) (by rw [hfp]; exact List.mem_cons_self ..) (by simp)
      exact h.release ha hh (by rw [hl]; rfl)
  | repush k m keep tail old =>
    rw [hl, EpochCtl.go] at hs
    have hl' : (s.link tail old).loc t = .repush k m keep tail old := hl
    split at hs
    · cases hs
      have hl'' : ((s.link tail old).setHead k (some keep)).loc t = .repush k m keep tail old := hl
      exact h.same
        (hand_goto (s := (s.link tail old).setHead k (some keep))
          (by rw [hl'', (afterList_clear k m).1]; rfl)) rfl rfl rfl
    · cases hs
      exact h.same (hand_goto (s := s.link tail old) (by rw [hl']; rfl)) rfl rfl rfl

/-- The counts after the first step of a call. -/
lemma Counted.begin {v : Move} (h : Counted s) (hl : s.loc t = .idle) (hs : s.begin t v = some s') :
    Counted s' := by
  cases v with
  | pin =>
    rw [EpochCtl.begin] at hs
    split at hs
    · cases hs
      exact h.same (hand_goto (by rw [hl]; rfl)) rfl rfl rfl
    · cases hs
      exact h
  | unpin =>
    rw [EpochCtl.begin] at hs
    split at hs
    · cases hs
      exact h.same (fun _ => rfl) rfl rfl rfl
    · cases hs
      exact h
  | retire k n =>
    rw [EpochCtl.begin] at hs
    split at hs
    · cases hs
    case isFalse hn =>
      cases hs
      exact h.fill hl ((Bool.not_eq_true _).mp hn)
  | advance =>
    cases hs
    exact h.same (fun _ => rfl) rfl rfl rfl
  | collect =>
    cases hs
    exact h.same (hand_goto (by rw [hl]; rfl)) rfl rfl rfl
  | go => cases hs

/-- A step is the next step of a call, or the first one. -/
lemma EpochCtl.step_cases {v : Move} (hs : s.step t v = some s') :
    (v = .go ∧ s.go t (s.loc t) = some s') ∨ s.loc t = .idle ∧ s.begin t v = some s' := by
  rw [EpochCtl.step] at hs
  split at hs
  case isTrue hv => exact .inl ⟨hv, hs⟩
  case isFalse hv =>
    split at hs
    case isTrue hl => exact .inr ⟨hl, hs⟩
    case isFalse hl => cases hs

/-- The nodes of a new control block. -/
lemma laid_create : Laid .create fun _ => [] := by
  refine ⟨⟨fun _ => List.nodup_nil, nofun⟩, fun p => ?_, fun n => ⟨nofun, nofun⟩⟩
  cases p with
  | head k => rfl
  | part t q => exact Local.Clear.holds ⟨rfl, rfl, rfl, rfl, rfl⟩ _ q

/-- In every reachable state the allocated nodes are divided and counted. -/
lemma EpochCtl.Reach.laid (h : s.Reach) : (∃ f, Laid s f) ∧ Counted s := by
  induction h with
  | create => exact ⟨⟨_, laid_create⟩, nofun, nofun, fun _ _ => rfl⟩
  | step _ hs ih =>
    obtain ⟨⟨f, hf⟩, hc⟩ := ih
    rcases EpochCtl.step_cases hs with ⟨-, hs⟩ | ⟨hl, hs⟩
    · obtain ⟨f', hf', -⟩ := hf.go hs
      exact ⟨⟨f', hf'⟩, hc.go hf hs⟩
    · obtain ⟨f', hf', -⟩ := hf.begin hl hs
      exact ⟨⟨f', hf'⟩, hc.begin hl hs⟩

/-- In every interleaving a retire node has been freed as often as pushed, or once less, and in that
case it is at exactly one place: reachable from the head of a retire list, or in one collector's
popped, keep or free list. -/
theorem retired_in_one_place (h : s.Reach) (n : ℕ) :
    (s.pushes n = s.frees n ∨ s.pushes n = s.frees n + 1) ∧
      (s.pushes n = s.frees n + 1 → ∃ p, (∀ t, p ≠ .part t .hand) ∧ s.At p n ∧ ∀ p',
        s.At p' n → p' = p) := by
  obtain ⟨⟨f, hf⟩, hc⟩ := h.laid
  have hat : ∀ {p}, s.At p n ↔ n ∈ f p := by
    intro p
    constructor
    · rintro ⟨l, hl, hn⟩
      rw [EpochCtl.Holds.unique (hf.holds p) hl]
      exact hn
    · exact fun hn => ⟨f p, hf.holds p, hn⟩
  by_cases hu : ∃ u, (s.loc u).hand = some n
  · obtain ⟨u, hu⟩ := hu
    have := hc.hand u n hu
    exact ⟨.inl this, fun h => absurd h (by omega)⟩
  · have hu' : ∀ u, (s.loc u).hand ≠ some n := fun u h => hu ⟨u, h⟩
    cases ha : s.allocated n with
    | false =>
      have := hc.unused n ha
      exact ⟨.inl this, fun h => absurd h (by omega)⟩
    | true =>
      refine ⟨.inr (hc.pushed n ha hu'), fun _ => ?_⟩
      obtain ⟨p, hp⟩ := (hf.allocated n).mp ha
      refine ⟨p, ?_, hat.mpr hp, fun p' hp' => hf.parted.own p' p n (hat.mp hp') hp⟩
      rintro t rfl
      have hh := hf.holds (.part t .hand)
      rw [EpochCtl.Holds, Local.Holds] at hh
      rw [hh, Option.mem_toList] at hp
      exact hu' t hp

/-- A reader is pinned, a record is retired, and a collector has taken it off the list and keeps
it. -/
def keptRecord : List (ℕ × Move) :=
  [(1, .pin), (1, .go), (0, .retire .record 7), (0, .go), (0, .go), (2, .collect)] ++
  List.replicate 67 (2, .go)

/-- Record 7 is kept by a collection that finds it too young, and is nowhere else. -/
theorem retired_in_one_place_kept :
    ∃ s, EpochCtl.create.run keptRecord = some s ∧ (s.loc 2).keep = some 7 ∧
    ∃ p, (∀ t, p ≠ .part t .hand) ∧ s.At p 7 ∧ ∀ p', s.At p' 7 → p' = p := by
  have hrun : (EpochCtl.create.run keptRecord).isSome = true := by decide +kernel
  obtain ⟨s, hs⟩ := Option.isSome_iff_exists.mp hrun
  have hkeep : ((EpochCtl.create.run keptRecord).bind fun s => (s.loc 2).keep) = some 7 := by
    decide +kernel
  have hcount : ((EpochCtl.create.run keptRecord).map fun s => (s.pushes 7, s.frees 7)) =
      some (1, 0) := by decide +kernel
  rw [hs] at hkeep hcount
  obtain ⟨hp, hf⟩ := Prod.mk.inj (Option.some_inj.mp hcount)
  exact ⟨s, hs, hkeep, (retired_in_one_place (EpochCtl.Reach.create.run hs) 7).2 (by rw [hp, hf])⟩

end Draugr.Epoch
