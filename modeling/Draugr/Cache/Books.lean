import Draugr.Cache.Defs
import Draugr.Lib.Ring

/-!
# The bookkeeping of the cache

`Books c l` says that the links form one doubly linked list with the nodes `l`, that these and the
free slots are all the slots, each once, and that the live flags and the size agree with the list.
Every call keeps it whatever the index answers: the lemmas below say what becomes of the list, and
`Books.step` puts them together.
-/

namespace Draugr.Cache
open Draugr.Lib

variable {β : Type} {ix : Index β} {c c' : HtCache β} {l : List ℕ} {s : ℕ}

/-- The forward links, where the head is the link of `NONE`. -/
def fd (c : HtCache β) (x : ℕ) : ℕ := if x = NONE then c.lruHead else c.lruNext x

/-- The backward links, where the tail is the link of `NONE`. -/
def bk (c : HtCache β) (x : ℕ) : ℕ := if x = NONE then c.lruTail else c.lruPrev x

/-- The free slots: `free_stack[0..free_top)`. -/
def freeSlots (c : HtCache β) : List ℕ := (List.range c.freeTop).map c.freeStack

/-- The links, the free stack, the live flags and the size agree with the list `l` of the live
slots. -/
structure Books (c : HtCache β) (l : List ℕ) : Prop where
  ring : Ring (fd c) (bk c) NONE l
  slots : (l ++ freeSlots c).Perm (List.range c.capacity)
  live : ∀ s, s < c.capacity → (c.live s = true ↔ s ∈ l)
  size : c.size = l.length
  small : c.capacity < NONE
  wide : 0 < c.entrySize
  room : 0 < c.capacity

/-- Only the links differ. -/
def Relinked (c c' : HtCache β) : Prop :=
  ∃ p n h t, c' = { c with lruPrev := p, lruNext := n, lruHead := h, lruTail := t }

/-- Forward from outside of the list is its head. -/
@[simp] lemma fd_none : fd c NONE = c.lruHead := if_pos rfl

/-- Back from outside of the list is its tail. -/
@[simp] lemma bk_none : bk c NONE = c.lruTail := if_pos rfl

/-- Forward from a slot is its `lru_next`. -/
lemma fd_of_ne {x : ℕ} (h : x ≠ NONE) : fd c x = c.lruNext x := if_neg h

/-- Back from a slot is its `lru_prev`. -/
lemma bk_of_ne {x : ℕ} (h : x ≠ NONE) : bk c x = c.lruPrev x := if_neg h

/-- Relinking twice is relinking. -/
lemma Relinked.trans {c₁ c₂ c₃ : HtCache β} (h : Relinked c₁ c₂) (h' : Relinked c₂ c₃) :
    Relinked c₁ c₃ := by
  obtain ⟨p, n, hd, t, rfl⟩ := h
  obtain ⟨p', n', hd', t', rfl⟩ := h'
  exact ⟨p', n', hd', t', rfl⟩

/-- `lru_add_head`, field by field. -/
lemma lruAddHead_eq (c : HtCache β) (idx : ℕ) : lruAddHead c idx =
    { c with
      lruPrev := if c.lruHead = NONE then Function.update c.lruPrev idx NONE
        else Function.update (Function.update c.lruPrev idx NONE) c.lruHead idx
      lruNext := Function.update c.lruNext idx c.lruHead
      lruHead := idx
      lruTail := if c.lruTail = NONE then idx else c.lruTail } := by
  by_cases h1 : c.lruHead = NONE <;> by_cases h2 : c.lruTail = NONE <;> simp [lruAddHead, h1, h2]

/-- `lru_remove`, field by field. -/
lemma lruRemove_eq (c : HtCache β) (idx : ℕ) : lruRemove c idx =
    { c with
      lruPrev := Function.update (if c.lruNext idx = NONE then c.lruPrev
        else Function.update c.lruPrev (c.lruNext idx) (c.lruPrev idx)) idx NONE
      lruNext := Function.update (if c.lruPrev idx = NONE then c.lruNext
        else Function.update c.lruNext (c.lruPrev idx) (c.lruNext idx)) idx NONE
      lruHead := if c.lruPrev idx = NONE then c.lruNext idx else c.lruHead
      lruTail := if c.lruNext idx = NONE then c.lruPrev idx else c.lruTail } := by
  by_cases h1 : c.lruPrev idx = NONE <;> by_cases h2 : c.lruNext idx = NONE <;>
    simp [lruRemove, h1, h2]

/-- Adding a slot at the head relinks only. -/
lemma lruAddHead_relinked (c : HtCache β) (idx : ℕ) : Relinked c (lruAddHead c idx) :=
  ⟨_, _, _, _, lruAddHead_eq c idx⟩

/-- Taking a slot out of the list relinks only. -/
lemma lruRemove_relinked (c : HtCache β) (idx : ℕ) : Relinked c (lruRemove c idx) :=
  ⟨_, _, _, _, lruRemove_eq c idx⟩

/-- Promoting a slot relinks only. -/
lemma lruPromote_relinked (c : HtCache β) (idx : ℕ) : Relinked c (lruPromote c idx) := by
  unfold lruPromote
  split_ifs
  · exact ⟨_, _, _, _, rfl⟩
  · exact (lruRemove_relinked c idx).trans (lruAddHead_relinked _ idx)

/-! ## The list -/

/-- The forward links after `lru_add_head`. -/
lemma fd_lruAddHead (x : ℕ) :
    fd (lruAddHead c s) x = if x = NONE then s else if x = s then c.lruHead else fd c x := by
  rw [lruAddHead_eq]
  by_cases hx : x = NONE
  · simp [hx]
  · rw [fd_of_ne hx, fd_of_ne hx, if_neg hx]
    exact Function.update_apply ..

/-- The backward links after `lru_add_head`, which tests both ends of the list. -/
lemma bk_lruAddHead (hs : s ≠ NONE) (he : c.lruHead = NONE ↔ c.lruTail = NONE) (x : ℕ) :
    bk (lruAddHead c s) x = if x = c.lruHead then s else if x = s then NONE else bk c x := by
  rw [lruAddHead_eq]
  by_cases hx : x = NONE
  · rw [hx, bk_none, bk_none, if_neg (Ne.symm hs)]
    by_cases ht : c.lruTail = NONE
    · rw [if_pos (he.mpr ht).symm]
      exact if_pos ht
    · rw [if_neg (fun h : NONE = c.lruHead => ht (he.mp h.symm))]
      exact if_neg ht
  · rw [bk_of_ne hx, bk_of_ne hx]
    by_cases hh : c.lruHead = NONE
    · simp only [hh, if_true, if_neg hx]
      exact Function.update_apply ..
    · simp only [hh, if_false, Function.update_apply]

/-- A list has a first node iff it has a last one. -/
lemma head_eq_none_iff (h : Ring (fd c) (bk c) NONE l) : c.lruHead = NONE ↔ c.lruTail = NONE := by
  have hf := h.fd_end
  have hb := h.bk_end
  have hn := (List.nodup_cons.mp h.2).1
  rw [fd_none] at hf
  rw [bk_none] at hb
  rw [hf, hb]
  rcases l.eq_nil_or_concat with rfl | ⟨l, x, rfl⟩
  · simp
  · rw [List.concat_eq_append] at hn ⊢
    have hlast : (l ++ [x]).getLastD NONE ≠ NONE := by
      rw [List.getLastD_concat]
      rintro rfl
      simp at hn
    refine iff_of_false (fun h0 => ?_) hlast
    cases l with
    | nil => exact hn (by simpa using h0.symm)
    | cons y l => exact hn (by simp [show y = NONE from h0])

/-- `lru_add_head` puts a new node at the front. -/
lemma ring_addHead (h : Ring (fd c) (bk c) NONE l) (hs : s ∉ NONE :: l) :
    Ring (fd (lruAddHead c s)) (bk (lruAddHead c s)) NONE (s :: l) := by
  rw [List.mem_cons, not_or] at hs
  have hhead : c.lruHead ∈ NONE :: l := by
    have := h.1.fd_mem
    rw [fd_none, List.mem_append, List.mem_singleton] at this
    rw [List.mem_cons]
    exact this.symm
  have hne : c.lruHead ≠ s := by
    rintro he
    rw [he, List.mem_cons] at hhead
    tauto
  have hf := fd_lruAddHead (c := c) (s := s)
  have hb := bk_lruAddHead hs.1 (head_eq_none_iff h)
  refine h.link (by simp [hs]) (by simp [hf]) ?_ (by simp [hf, hs.1]) (by simp [hb]) ?_ ?_
  · rw [hb, if_neg (Ne.symm hne), if_pos rfl]
  · intro y hy
    have hyn : y ≠ NONE := fun h0 => (List.nodup_cons.mp h.2).1 (h0 ▸ hy)
    have hys : y ≠ s := fun h0 => hs.2 (h0 ▸ hy)
    rw [hf, if_neg hyn, if_neg hys]
  · intro y hy hyf
    rw [fd_none] at hyf
    have hys : y ≠ s := by
      rintro rfl
      rw [List.mem_cons] at hy
      tauto
    rw [hb, if_neg hyf, if_neg hys]

/-- `lru_remove` takes a node out. -/
lemma ring_remove (h : Ring (fd c) (bk c) NONE l) (hs : s ∈ l) :
    Ring (fd (lruRemove c s)) (bk (lruRemove c s)) NONE (l.erase s) := by
  have hsn : s ≠ NONE := fun h0 => (List.nodup_cons.mp h.2).1 (h0 ▸ hs)
  obtain ⟨-, hbs⟩ := h.bk_mem hs
  obtain ⟨-, hfs⟩ := h.fd_mem hs
  have hfd : ∀ x, x ≠ s → fd (lruRemove c s) x = if x = bk c s then fd c s else fd c x := by
    intro x hx
    rw [bk_of_ne hsn, fd_of_ne hsn, lruRemove_eq]
    by_cases hxn : x = NONE
    · simp only [hxn, fd_none, eq_comm]
    · simp only [fd_of_ne hxn, Function.update_of_ne hx]
      by_cases hp : c.lruPrev s = NONE
      · simp only [hp, if_true, if_neg hxn]
      · simp only [hp, if_false, Function.update_apply]
  have hbk : ∀ x, x ≠ s → bk (lruRemove c s) x = if x = fd c s then bk c s else bk c x := by
    intro x hx
    rw [bk_of_ne hsn, fd_of_ne hsn, lruRemove_eq]
    by_cases hxn : x = NONE
    · simp only [hxn, bk_none, eq_comm]
    · simp only [bk_of_ne hxn, Function.update_of_ne hx]
      by_cases hp : c.lruNext s = NONE
      · simp only [hp, if_true, if_neg hxn]
      · simp only [hp, if_false, Function.update_apply]
  refine h.unlink hs ?_ ?_ (fun y hy hys => ?_) fun y hy hys => ?_
  · rw [hfd _ hbs, if_pos rfl]
  · rw [hbk _ hfs, if_pos rfl]
  · rw [hfd _ hys, if_neg hy]
  · rw [hbk _ hys, if_neg hy]

/-- `lru_promote` moves a node to the front. -/
lemma ring_promote (h : Ring (fd c) (bk c) NONE l) (hs : s ∈ l) :
    Ring (fd (lruPromote c s)) (bk (lruPromote c s)) NONE (s :: l.erase s) := by
  unfold lruPromote
  split_ifs with hh
  · have hf := h.fd_end
    rw [fd_none, hh] at hf
    cases l with
    | nil => cases hs
    | cons x l =>
      rw [List.headD_cons] at hf
      rwa [hf, List.erase_cons_head]
  · have hnd := (List.nodup_cons.mp h.2).2
    refine ring_addHead (ring_remove h hs) ?_
    rw [List.mem_cons, not_or]
    refine ⟨fun h0 => (List.nodup_cons.mp h.2).1 (h0 ▸ hs), fun h0 => ?_⟩
    exact (hnd.mem_erase_iff.mp h0).1 rfl

/-! ## The slots -/

/-- A listed slot is one of the cache. -/
lemma Books.lt (h : Books c l) (hs : s ∈ l) : s < c.capacity :=
  List.mem_range.mp (h.slots.subset (List.mem_append_left _ hs))

/-- No slot is listed twice. -/
lemma Books.nodup (h : Books c l) : l.Nodup := (List.nodup_cons.mp h.ring.2).2

/-- A slot of the cache is not `NONE`. -/
lemma Books.ne_none (h : Books c l) (hs : s < c.capacity) : s ≠ NONE := (hs.trans h.small).ne

/-- A slot is free iff it is not live. -/
lemma Books.mem_free (h : Books c l) : s ∈ freeSlots c ↔ s < c.capacity ∧ c.live s = false := by
  have hnd := h.slots.nodup_iff.mpr List.nodup_range
  have hmem : s ∈ l ++ freeSlots c ↔ s < c.capacity := by rw [h.slots.mem_iff, List.mem_range]
  rw [List.mem_append] at hmem
  constructor
  · intro hs
    have hlt := hmem.mp (.inr hs)
    refine ⟨hlt, Bool.eq_false_iff.mpr fun hl => ?_⟩
    exact (List.nodup_append.mp hnd).2.2 s ((h.live s hlt).mp hl) s hs rfl
  · rintro ⟨hlt, hl⟩
    refine (hmem.mpr hlt).resolve_left fun hs => ?_
    rw [(h.live s hlt).mpr hs] at hl
    cases hl

/-- Every slot is either in the list or free. -/
lemma Books.total (h : Books c l) : c.size + c.freeTop = c.capacity := by
  have := h.slots.length_eq
  simpa [freeSlots, h.size] using this

/-- The list is full iff no slot is free. -/
lemma Books.full_iff (h : Books c l) : c.freeTop = 0 ↔ l.length = c.capacity := by
  have := h.total
  rw [h.size] at this
  omega

/-- The index is not part of the books. -/
lemma Books.setBare (h : Books c l) (b : β) : Books { c with bare := b } l :=
  ⟨h.ring, h.slots, h.live, h.size, h.small, h.wide, h.room⟩

/-- Relinking keeps everything but the list. -/
lemma Books.relink {l' : List ℕ} (h : Books c l) (hr : Relinked c c')
    (hring : Ring (fd c') (bk c') NONE l') (hp : l'.Perm l) : Books c' l' := by
  obtain ⟨p, n, hd, t, rfl⟩ := hr
  exact ⟨hring, (hp.append_right _).trans h.slots, fun s hs => (h.live s hs).trans hp.mem_iff.symm,
    h.size.trans hp.length_eq.symm, h.small, h.wide, h.room⟩

/-- `lru_promote` of a live slot. -/
lemma Books.promote (h : Books c l) (hs : s ∈ l) : Books (lruPromote c s) (s :: l.erase s) :=
  h.relink (lruPromote_relinked c s) (ring_promote h.ring hs) (List.perm_cons_erase hs).symm

/-- The free slots after a push. -/
lemma freeSlots_push (c : HtCache β) (s : ℕ) :
    (List.range (c.freeTop + 1)).map (Function.update c.freeStack c.freeTop s) =
      freeSlots c ++ [s] := by
  rw [List.range_succ, List.map_append, List.map_singleton, Function.update_self]
  refine congrArg (· ++ [s]) (List.map_congr_left fun i hi => ?_)
  exact Function.update_of_ne (List.mem_range.mp hi).ne _ _

/-- `releaseSlot` takes a live slot out of the list. -/
lemma Books.release (h : Books c l) (hs : s ∈ l) : Books (releaseSlot c s) (l.erase s) := by
  obtain ⟨p, n, hd, t, he⟩ := lruRemove_relinked c s
  have hring := ring_remove h.ring hs
  unfold releaseSlot
  rw [he] at hring ⊢
  refine ⟨hring, ?_, fun x hx => ?_, ?_, h.small, h.wide, h.room⟩
  · refine List.Perm.trans ?_ h.slots
    change (l.erase s ++ (List.range (c.freeTop + 1)).map
      (Function.update c.freeStack c.freeTop s)).Perm _
    rw [freeSlots_push, ← List.append_assoc]
    refine (List.perm_append_singleton s _).trans ?_
    rw [← List.cons_append]
    exact (List.perm_cons_erase hs).symm.append_right _
  · change Function.update c.live s false x = true ↔ _
    rw [h.nodup.mem_erase_iff]
    by_cases hxs : x = s
    · simp [hxs]
    · rw [Function.update_of_ne hxs, h.live x hx]
      simp [hxs]
  · rw [List.length_erase_of_mem hs, ← h.size]

/-- `releaseSlot` clears the flag itself. -/
lemma releaseSlot_live (c : HtCache β) (s : ℕ) :
    releaseSlot { c with live := Function.update c.live s false } s = releaseSlot c s := by
  simp [releaseSlot, lruRemove_eq]

/-- The slot on top of the free stack, and the slots below it. -/
lemma Books.top (h : Books c l) (hfree : c.freeTop ≠ 0) :
    freeSlots c = (List.range (c.freeTop - 1)).map c.freeStack ++ [c.freeStack (c.freeTop - 1)] ∧
      c.freeStack (c.freeTop - 1) < c.capacity ∧ c.freeStack (c.freeTop - 1) ∉ l := by
  have heq : freeSlots c = (List.range (c.freeTop - 1)).map c.freeStack ++
      [c.freeStack (c.freeTop - 1)] := by
    unfold freeSlots
    conv_lhs => rw [← Nat.succ_pred_eq_of_ne_zero hfree]
    rw [List.range_succ, List.map_append]
    rfl
  have hm : c.freeStack (c.freeTop - 1) ∈ freeSlots c := by simp [heq]
  obtain ⟨hlt, hl⟩ := h.mem_free.mp hm
  refine ⟨heq, hlt, fun hs => ?_⟩
  rw [(h.live _ hlt).mpr hs] at hl
  cases hl

/-- What `ht_cache_put` leaves when the index refuses the slot. -/
lemma putSlot_of_refused {e : Bytes} {b : β}
    (hi : ix.insert c.bare (c.hashFn e) (c.freeStack (c.freeTop - 1)) = (false, b)) :
    putSlot ix e c = (none, { c with
      bare := b
      entries := Function.update c.entries (c.freeStack (c.freeTop - 1)) e
      hashes := Function.update
        (Function.update c.hashes (c.freeStack (c.freeTop - 1)) (c.hashFn e))
        (c.freeStack (c.freeTop - 1)) 0
      freeStack := Function.update c.freeStack (c.freeTop - 1) (c.freeStack (c.freeTop - 1))
      freeTop := c.freeTop - 1 + 1 }) := by
  unfold putSlot
  simp only [hi]

/-- What `ht_cache_put` leaves when the index takes the slot. -/
lemma putSlot_of_accepted {e : Bytes} {b : β}
    (hi : ix.insert c.bare (c.hashFn e) (c.freeStack (c.freeTop - 1)) = (true, b)) :
    ∃ c₁, Relinked { c with
        bare := b
        entries := Function.update c.entries (c.freeStack (c.freeTop - 1)) e
        hashes := Function.update c.hashes (c.freeStack (c.freeTop - 1)) (c.hashFn e)
        live := Function.update c.live (c.freeStack (c.freeTop - 1)) true
        freeTop := c.freeTop - 1 } c₁ ∧
      (∀ l, Ring (fd c) (bk c) NONE l → c.freeStack (c.freeTop - 1) ∉ NONE :: l →
        Ring (fd c₁) (bk c₁) NONE (c.freeStack (c.freeTop - 1) :: l)) ∧
      putSlot ix e c =
        (some (entryAt c (c.freeStack (c.freeTop - 1))), { c₁ with size := c.size + 1 }) := by
  unfold putSlot
  simp only [hi]
  refine ⟨_, lruAddHead_relinked _ _, fun l hl hs => ring_addHead hl hs, ?_⟩
  rw [lruAddHead_eq]
  rfl

/-- A refused put leaves the list as it is. -/
lemma Books.putSlot_refused {e : Bytes} {b : β} (h : Books c l) (hfree : c.freeTop ≠ 0)
    (hi : ix.insert c.bare (c.hashFn e) (c.freeStack (c.freeTop - 1)) = (false, b)) :
    Books (putSlot ix e c).2 l := by
  rw [putSlot_of_refused hi]
  refine ⟨h.ring, ?_, h.live, h.size, h.small, h.wide, h.room⟩
  -- the slot goes back where it was
  have htop : c.freeTop - 1 + 1 = c.freeTop := Nat.succ_pred_eq_of_ne_zero hfree
  simp only [freeSlots, Function.update_eq_self, htop]
  exact h.slots

/-- A put that the index accepts adds its slot at the front. -/
lemma Books.putSlot_accepted {e : Bytes} {b : β} (h : Books c l) (hfree : c.freeTop ≠ 0)
    (hi : ix.insert c.bare (c.hashFn e) (c.freeStack (c.freeTop - 1)) = (true, b)) :
    Books (putSlot ix e c).2 (c.freeStack (c.freeTop - 1) :: l) := by
  obtain ⟨htop, hlt, hnl⟩ := h.top hfree
  obtain ⟨c₁, ⟨p, n, hd, t, rfl⟩, hring, he⟩ := putSlot_of_accepted hi
  rw [he]
  refine ⟨hring l h.ring ?_, ?_, fun x hx => ?_, ?_, h.small, h.wide, h.room⟩
  · rw [List.mem_cons, not_or]
    exact ⟨h.ne_none hlt, hnl⟩
  · refine List.Perm.trans ?_ h.slots
    rw [htop, ← List.append_assoc]
    exact (List.perm_append_singleton _ _).symm
  · change Function.update c.live (c.freeStack (c.freeTop - 1)) true x = true ↔ _
    rw [List.mem_cons]
    by_cases hxs : x = c.freeStack (c.freeTop - 1)
    · simp [hxs]
    · rw [Function.update_of_ne hxs, h.live x hx]
      simp [hxs]
  · change c.size + 1 = _
    rw [h.size, List.length_cons]

/-! ## The calls -/

/-- What `ht_cache_evict` does: nothing to evict, an index that does not give the slot up, or the
last node released. -/
lemma Books.evict_cases (h : Books c l) :
    (l = [] ∧ htCacheEvict ix c = (false, c)) ∨
      ∃ l₀ s b, l = l₀ ++ [s] ∧
        ((ix.removeVal c.bare (c.hashes s) s = (false, b) ∧
          htCacheEvict ix c = (false, { c with bare := b })) ∨
          (ix.removeVal c.bare (c.hashes s) s = (true, b) ∧
            htCacheEvict ix c = (true, releaseSlot { c with bare := b } s))) := by
  have hb := h.ring.bk_end
  rw [bk_none] at hb
  have hsize := h.size
  rcases l.eq_nil_or_concat with rfl | ⟨l₀, s, rfl⟩
  · exact .inl ⟨rfl, if_pos hsize⟩
  · rw [List.concat_eq_append] at h hb hsize ⊢
    rw [List.getLastD_concat] at hb
    have hne : c.size ≠ 0 := by simp [hsize]
    have htail : c.lruTail ≠ NONE := by
      rw [hb]
      exact h.ne_none (h.lt (by simp))
    refine .inr ⟨l₀, s, (ix.removeVal c.bare (c.hashes s) s).2, rfl, ?_⟩
    unfold htCacheEvict
    rw [if_neg hne, if_neg htail, hb]
    rcases hr : ix.removeVal c.bare (c.hashes s) s with ⟨ok, b⟩
    cases ok
    · exact .inl ⟨rfl, rfl⟩
    · exact .inr ⟨rfl, rfl⟩

/-- The run of a callback that stops at its first hit. -/
lemma scanAll_eq {σ : Type} {cb : ℕ → σ → Bool × σ} {hit : ℕ → Bool} {f : ℕ → σ}
    (hcb : ∀ val ctx, cb val ctx = if hit val then (false, f val) else (true, ctx)) :
    ∀ (vals : List ℕ) (ctx : σ), scanAll cb vals ctx = ((vals.find? hit).map f).getD ctx
  | [], ctx => rfl
  | val :: vals, ctx => by
    rw [scanAll, hcb, List.find?_cons]
    cases hit val with
    | false => exact scanAll_eq hcb vals ctx
    | true => rfl

/-- A live slot whose entry passes the test. -/
def hits (c : HtCache β) (p : Bytes → Bool) (val : ℕ) : Bool :=
  decide (val < c.capacity) && (c.live val && p (c.entries val))

/-- What `get_scan_cb` and `remove_scan_cb` find. -/
lemma matchScan_eq (c : HtCache β) (key : Bytes) (vals : List ℕ) :
    scanAll (matchScanCb c key) vals NONE =
      ((vals.find? (hits c (keyMatches c.toCacheConfig key))).map id).getD NONE := by
  refine scanAll_eq (fun val ctx => ?_) vals NONE
  unfold matchScanCb hits
  by_cases h1 : c.capacity ≤ val
  · simp [h1, not_lt.mpr h1]
  · cases h2 : c.live val <;> simp [h1, not_le.mp h1]

/-- What `find_scan_cb` finds. -/
lemma findScan_eq (c : HtCache β) (userScan : Bytes → Bool) (vals : List ℕ) :
    scanAll (findScanCb c userScan) vals (NONE, false) =
      ((vals.find? (hits c fun e => !userScan e)).map fun v => (v, true)).getD (NONE, false) := by
  refine scanAll_eq (fun val ctx => ?_) vals _
  unfold findScanCb hits
  by_cases h1 : c.capacity ≤ val
  · simp [h1, not_lt.mpr h1]
  · cases h2 : c.live val <;> cases h3 : userScan (c.entries val) <;> simp [h1, h3, not_le.mp h1]

/-- What a hit is. -/
lemma hits_iff {p : Bytes → Bool} : hits c p s = true ↔ s < c.capacity ∧ c.live s = true ∧
    p (c.entries s) = true := by
  simp [hits]

/-- A hit is a slot of the list. -/
lemma Books.mem_of_hits {p : Bytes → Bool} (h : Books c l) (hs : hits c p s = true) :
    s ∈ l ∧ p (c.entries s) = true := by
  obtain ⟨hlt, hl, hp⟩ := hits_iff.mp hs
  exact ⟨(h.live s hlt).mp hl, hp⟩

/-- What `ht_cache_get` does: a miss, or the hit entry moved to the front. -/
lemma Books.get_cases (h : Books c l) (key : Bytes) {vals : List ℕ} {b : β}
    (hf : ix.findAll c.bare (c.hashFn key) = (vals, b)) :
    (vals.find? (hits c (keyMatches c.toCacheConfig key)) = none ∧
        htCacheGet ix key c = (none, { c with bare := b })) ∨
      ∃ s ∈ l, vals.find? (hits c (keyMatches c.toCacheConfig key)) = some s ∧
        htCacheGet ix key c = (some (entryAt c s), lruPromote { c with bare := b } s) := by
  unfold htCacheGet
  simp only [hf, getScanCb, matchScan_eq]
  rcases hv : vals.find? (hits c (keyMatches c.toCacheConfig key)) with _ | s
  · exact .inl ⟨rfl, if_pos rfl⟩
  · obtain ⟨hs, -⟩ := h.mem_of_hits (List.find?_some hv)
    exact .inr ⟨s, hs, rfl, if_neg (h.ne_none (h.lt hs))⟩

/-- What `ht_cache_remove` does: a miss, an index that does not give the slot up, or the hit entry
released. -/
lemma Books.remove_cases (h : Books c l) (key : Bytes) {vals : List ℕ} {b : β}
    (hf : ix.findAll c.bare (c.hashFn key) = (vals, b)) :
    (vals.find? (hits c (keyMatches c.toCacheConfig key)) = none ∧
        htCacheRemove ix key c = (false, { c with bare := b })) ∨
      ∃ s ∈ l, vals.find? (hits c (keyMatches c.toCacheConfig key)) = some s ∧ ∃ b',
        (ix.removeVal b (c.hashFn key) s = (false, b') ∧
            htCacheRemove ix key c = (false, { c with bare := b' })) ∨
          (ix.removeVal b (c.hashFn key) s = (true, b') ∧
            htCacheRemove ix key c = (true, releaseSlot { c with bare := b' } s)) := by
  unfold htCacheRemove
  simp only [hf, removeScanCb, matchScan_eq]
  rcases hv : vals.find? (hits c (keyMatches c.toCacheConfig key)) with _ | s
  · exact .inl ⟨rfl, if_pos rfl⟩
  · have hhit := List.find?_some hv
    obtain ⟨hs, -⟩ := h.mem_of_hits hhit
    refine .inr ⟨s, hs, rfl, (ix.removeVal b (c.hashFn key) s).2, ?_⟩
    simp only [Option.map_some, id, Option.getD_some, if_neg (h.ne_none (h.lt hs))]
    rcases hr : ix.removeVal b (c.hashFn key) s with ⟨ok, b'⟩
    cases ok with
    | true => exact .inr ⟨rfl, congrArg (Prod.mk true) (releaseSlot_live { c with bare := b' } s)⟩
    | false =>
      -- the flag is set again
      refine .inl ⟨rfl, ?_⟩
      rw [Function.update_idem, show Function.update c.live s true = c.live from ?_]
      exact Function.update_eq_self_iff.mpr (hits_iff.mp hhit).2.1.symm

/-- What `ht_cache_find` does. -/
lemma htCacheFind_eq (hash : UInt64) (scanFn : Bytes → Bool) {vals : List ℕ} {b : β}
    (hf : ix.findAll c.bare hash = (vals, b)) :
    htCacheFind ix hash scanFn c =
      ((vals.find? (hits c fun e => !scanFn e)).map (entryAt c), { c with bare := b }) := by
  unfold htCacheFind
  simp only [hf, findScan_eq]
  cases vals.find? (hits c fun e => !scanFn e) <;> rfl

/-- What `ht_cache_promote` does: nothing unless the pointer is into a live entry. -/
lemma Books.promote_cases (h : Books c l) (entry : ℤ) :
    (entryIndex c entry ∉ l ∧ htCachePromote entry c = c) ∨
      (entryIndex c entry ∈ l ∧ htCachePromote entry c = lruPromote c (entryIndex c entry)) := by
  unfold htCachePromote
  by_cases hs : entryIndex c entry ∈ l
  · have hlt := h.lt hs
    have hl := (h.live _ hlt).mpr hs
    exact .inr ⟨hs, if_neg (by simp [hl, hlt])⟩
  · refine .inl ⟨hs, if_pos ?_⟩
    by_cases hlt : entryIndex c entry < c.capacity
    · exact .inr (by simpa using fun hl => hs ((h.live _ hlt).mp hl))
    · exact .inl (not_lt.mp hlt)

/-- The empty cache with the full stack. -/
lemma books_empty (hcap : c.capacity < NONE) (hwide : 0 < c.entrySize) (hroom : 0 < c.capacity)
    (hhead : c.lruHead = NONE)
    (htail : c.lruTail = NONE) (hlive : ∀ s, c.live s = false) (hsize : c.size = 0)
    (hstack : c.freeStack = fullStack c.capacity) (htop : c.freeTop = c.capacity) : Books c [] := by
  refine ⟨⟨⟨?_, ?_⟩, by simp⟩, ?_, fun s _ => by simp [hlive], hsize, hcap, hwide, hroom⟩
  · rw [fd_none, hhead]
  · rw [bk_none, htail]
  · rw [List.nil_append, freeSlots, hstack, htop]
    have hrev :
        (List.range c.capacity).map (fullStack c.capacity) = (List.range c.capacity).reverse :=
      List.ext_getElem (by simp) fun i _ _ => by simp [fullStack]
    rw [hrev]
    exact List.reverse_perm _

/-- A created cache is empty. -/
lemma books_create {cfg : CacheConfig} {b : β} (hcap : cfg.capacity < NONE)
    (hc : htCacheCreate cfg b = some c) :
    Books c [] := by
  unfold htCacheCreate at hc
  split_ifs at hc with h0
  cases hc
  exact books_empty hcap (by simp only; omega) (by simp only; omega) rfl rfl
    (fun _ => rfl) rfl rfl rfl

/-- `ht_cache_clear` empties the list. -/
lemma Books.clear (h : Books c l) : Books (htCacheClear ix c) [] :=
  books_empty h.small h.wide h.room rfl rfl (fun _ => rfl) rfl rfl rfl

/-- `ht_cache_evict` keeps the books. -/
lemma Books.evict (h : Books c l) : ∃ l', Books (htCacheEvict ix c).2 l' := by
  obtain ⟨-, he⟩ | ⟨l₀, s, b, rfl, ⟨-, he⟩ | ⟨-, he⟩⟩ := (@Books.evict_cases _ ix) h
  · exact ⟨l, by rw [he]; exact h⟩
  · exact ⟨_, by rw [he]; exact h.setBare b⟩
  · exact ⟨_, by rw [he]; exact (h.setBare b).release (by simp)⟩

/-- `ht_cache_put` from the pop on keeps the books. -/
lemma Books.putSlot {e : Bytes} (h : Books c l) (hfree : c.freeTop ≠ 0) :
    ∃ l', Books (putSlot ix e c).2 l' := by
  rcases hi : ix.insert c.bare (c.hashFn e) (c.freeStack (c.freeTop - 1)) with ⟨ok, b⟩
  cases ok with
  | false => exact ⟨_, h.putSlot_refused hfree hi⟩
  | true => exact ⟨_, h.putSlot_accepted hfree hi⟩

/-- A successful eviction frees a slot. -/
lemma freeTop_of_evict {c₁ : HtCache β} (he : htCacheEvict ix c = (true, c₁)) : c₁.freeTop ≠ 0 := by
  unfold htCacheEvict at he
  split_ifs at he
  · cases he
  · cases he
  · split at he
    · cases he
    · cases he
      exact Nat.succ_ne_zero _

/-- Every call keeps the books, whatever the index answers. -/
lemma Books.step (h : Books c l) (op : CacheOp) : ∃ l', Books (op.run ix c).2 l' := by
  cases op with
  | put e =>
    simp only [CacheOp.run, htCachePut]
    split_ifs with h1 h2
    · exact ⟨l, h⟩
    · obtain ⟨l', hl'⟩ := (@Books.evict _ ix) h
      rcases he : htCacheEvict ix c with ⟨ok, c₁⟩
      rw [he] at hl'
      cases ok with
      | false => exact ⟨l', hl'⟩
      | true => exact hl'.putSlot (freeTop_of_evict he)
    · exact h.putSlot h2
  | get key =>
    obtain ⟨-, he⟩ | ⟨s, hs, -, he⟩ := (@Books.get_cases _ ix) h key rfl
    · exact ⟨l, by rw [CacheOp.run, he]; exact h.setBare _⟩
    · exact ⟨_, by rw [CacheOp.run, he]; exact (h.setBare _).promote hs⟩
  | find hash scanFn =>
    exact ⟨l, by rw [CacheOp.run, htCacheFind_eq hash scanFn rfl]; exact h.setBare _⟩
  | promote entry =>
    obtain ⟨-, he⟩ | ⟨hs, he⟩ := h.promote_cases entry
    · exact ⟨l, by rw [CacheOp.run, he]; exact h⟩
    · exact ⟨_, by rw [CacheOp.run, he]; exact h.promote hs⟩
  | remove key =>
    obtain ⟨-, he⟩ | ⟨s, hs, -, b, ⟨-, he⟩ | ⟨-, he⟩⟩ := (@Books.remove_cases _ ix) h key rfl
    · exact ⟨l, by rw [CacheOp.run, he]; exact h.setBare _⟩
    · exact ⟨l, by rw [CacheOp.run, he]; exact h.setBare _⟩
    · exact ⟨_, by rw [CacheOp.run, he]; exact (h.setBare _).release hs⟩
  | evict => exact h.evict
  | clear => exact ⟨[], h.clear⟩

/-- Every sequence of calls keeps the books. -/
lemma Books.run (h : Books c l) (ops : List CacheOp) : ∃ l', Books (runOps ix c ops) l' := by
  induction ops generalizing c l with
  | nil => exact ⟨l, h⟩
  | cons op ops ih =>
    obtain ⟨l', h'⟩ := (@Books.step _ ix) h op
    exact ih h'

/-- Whatever the index answers, after any sequence of calls the links form one doubly linked list of
exactly the live slots, the free stack lists exactly the other slots, each once, and the sizes add
up. -/
theorem bookkeeping_survives (ix : Index β) (cfg : CacheConfig) (b : β) (c₀ : HtCache β)
    (ops : List CacheOp) (hcap : cfg.capacity < 2 ^ 32 - 1) (hc : htCacheCreate cfg b = some c₀) :
    let c := runOps ix c₀ ops
    (∃ l, Ring (fd c) (bk c) NONE l ∧ ∀ s, s ∈ l ↔ s < c.capacity ∧ c.live s = true) ∧
      (freeSlots c).Nodup ∧ (∀ s, s ∈ freeSlots c ↔ s < c.capacity ∧ c.live s = false) ∧
      c.size + c.freeTop = c.capacity := by
  obtain ⟨l, h⟩ := (@Books.run _ ix) (books_create hcap hc) ops
  refine ⟨⟨l, h.ring, fun s => ⟨fun hs => ⟨h.lt hs, (h.live s (h.lt hs)).mpr hs⟩,
    fun hs => (h.live s hs.1).mp hs.2⟩⟩, ?_, fun s => h.mem_free, h.total⟩
  exact (List.nodup_append.mp (h.slots.nodup_iff.mpr List.nodup_range)).2.1

/-- An index that takes every slot, reports the same values for every hash and gives up slot 0
only. -/
def liar : Index Unit :=
  ⟨fun _ _ _ => (true, ()), fun _ _ => ([9, 1, 0], ()), fun _ _ v => (v == 0, ()), id⟩

/-- Two slots over an index that lies. -/
theorem bookkeeping_survives_liar :
    ∃ c₀, htCacheCreate ⟨2, 1, fun _ => 0, none⟩ () = some c₀ ∧
      let c := runOps liar c₀ [.put [1], .put [2], .put [3], .get [2], .remove [1], .evict,
        .put [4]]
      (∃ l, Ring (fd c) (bk c) NONE l ∧ ∀ s, s ∈ l ↔ s < c.capacity ∧ c.live s = true) ∧
        (freeSlots c).Nodup ∧ (∀ s, s ∈ freeSlots c ↔ s < c.capacity ∧ c.live s = false) ∧
        c.size + c.freeTop = c.capacity :=
  ⟨_, rfl, bookkeeping_survives liar ⟨2, 1, fun _ => 0, none⟩ () _ _ (by decide) rfl⟩

end Draugr.Cache
