import Draugr.Epoch.Lists

/-!
# What a collector may free

A collector reads the slots of the threads before it takes the retire lists. A thread that pins
after its slot was read, and a node that is pushed before the list is taken, are then missed: the
collector's minimum lies above the epoch of the thread, and the node is freed under its reader.
`Careful` names the steps after which this cannot happen, and `Guarded` is the invariant they keep:
the minimum of every collector that has read a reader's slot is at most the retire epoch of every
node that reader may hold.
-/

namespace Draugr.Epoch

open Draugr.Lib

/-- The minimum of a collector that has read the slot `u` and has yet to take the list `k`. -/
def Local.pending : Local → Kind → ℕ → Option ℕ
  | .scan i m, _, u => if u < i then some m else none
  | .pop .record m, _, _ => some m
  | .pop .gen m, .gen, _ => some m
  | .split .record m _ _ _ _, .gen, _ => some m
  | .release .record m _ _ _, .gen, _ => some m
  | .repush .record m _ _ _, .gen, _ => some m
  | _, _, _ => none

/-- The list a collector has taken, and its minimum. -/
def Local.work : Local → Option (Kind × ℕ)
  | .split k m _ _ _ _ | .release k m _ _ _ | .repush k m _ _ _ => some (k, m)
  | _ => none

/-- A node is pushed only when every collector that has yet to take its list will see the readers
that may hold it; no thread pins twice; and the global epoch does not come near its bound. -/
def Careful (s : EpochCtl) (t : ℕ) : Move → Prop
  | .pin => s.pinned t = false
  | .advance => s.globalEpoch + 3 < 2 ^ 64
  | .go => ∀ k n, s.loc t = .push k n (s.head k) → ∀ u c m,
    s.held n u = true → (s.loc c).pending k u = some m →
      m ≤ s.retireEpoch n
  | _ => True

/-- The states that careful steps lead to. -/
inductive CarefulReach : EpochCtl → Prop where
  | create : CarefulReach .create
  | step {s s' : EpochCtl} {t : ℕ} {v : Move} : CarefulReach s → Careful s t v →
    s.step t v = some s' → CarefulReach s'

/-- The epochs of the readers. -/
structure Pins (s : EpochCtl) : Prop where
  bound : 1 ≤ s.globalEpoch ∧ s.globalEpoch + 2 < 2 ^ 64
  epoch : ∀ u, s.pinned u = true → u < epochMaxThreads ∧ 1 ≤ s.threadEpoch u ∧
    s.threadEpoch u ≤ s.globalEpoch
  pinning : ∀ u e, s.loc u = .pin e → u < epochMaxThreads ∧ 1 ≤ e ∧ e ≤ s.globalEpoch ∧
    s.pinned u = false
  held : ∀ n u, s.held n u = true → s.pinned u = true ∧ s.threadEpoch u ≤ s.retireEpoch n

/-- No collector takes a node for free that a reader may hold. -/
structure Guarded (s : EpochCtl) (f : Place → List ℕ) : Prop where
  head : ∀ k n, n ∈ f (.head k) → s.kindOf n = k
  hand : ∀ t k n old, s.loc t = .retire k n ∨ s.loc t = .push k n old → s.kindOf n = k
  kind : ∀ t q n k m, n ∈ f (.part t q) → (s.loc t).work = some (k, m) → s.kindOf n = k
  scanned : ∀ p n u c m, n ∈ f p → (∀ t, p ≠ .part t .hand) → s.held n u = true →
    (s.loc c).pending (s.kindOf n) u = some m → m ≤ s.retireEpoch n
  taken : ∀ c q n u k m, n ∈ f (.part c q) → (s.loc c).work = some (k, m) → s.held n u = true →
    m ≤ s.retireEpoch n
  freed : ∀ c n k m, n ∈ f (.part c .free) → (s.loc c).work = some (k, m) → s.retireEpoch n < m

variable {s s' : EpochCtl} {f f' : Place → List ℕ} {t u n : ℕ} {k : Kind}

/-- A node that a collector frees is held by no reader. -/
lemma Guarded.freeing (h : Guarded s f) (hf : Laid s f) (hs : s.freeing t = some n) (u : ℕ) :
    s.held n u = false := by
  by_contra hu
  have hu : s.held n u = true := (Bool.not_eq_false _).mp hu
  unfold EpochCtl.freeing at hs
  split at hs
  case h_1 m a keep tail free hl =>
    split at hs
    case isTrue hre =>
      cases hs
      obtain ⟨l, hp, -⟩ := hf.popped hl
      have := h.taken t .popped n u .gen m (by rw [hp]; exact List.mem_cons_self ..)
        (by rw [hl]; rfl) hu
      omega
    case isFalse => cases hs
  case h_2 k m a keep tail hl =>
    cases hs
    obtain ⟨l, hp, -⟩ := hf.released hl
    have hmem : n ∈ f (.part t .free) := by rw [hp]; exact List.mem_cons_self ..
    have h1 := h.taken t .free n u k m hmem (by rw [hl]; rfl) hu
    have h2 := h.freed t n k m hmem (by rw [hl]; rfl)
    omega
  case h_3 => cases hs

/-- What the next step of a call leaves alone. -/
structure Still (s s' : EpochCtl) (t : ℕ) : Prop where
  global : s'.globalEpoch = s.globalEpoch
  retire : s'.retireEpoch = s.retireEpoch
  kind : s'.kindOf = s.kindOf
  held : s'.held = s.held
  loc : ∀ u, u ≠ t → s'.loc u = s.loc u

/-- A thread goes on. -/
lemma Still.goto {s₁ : EpochCtl} {c : Local} (h1 : s₁.globalEpoch = s.globalEpoch)
    (h2 : s₁.retireEpoch = s.retireEpoch)
    (h3 : s₁.kindOf = s.kindOf) (h4 : s₁.held = s.held) (h5 : s₁.loc = s.loc) :
    Still s (s₁.goto t c) t := by
  refine ⟨h1, h2, h3, h4, fun u hu => ?_⟩
  rw [← h5]
  exact Function.update_of_ne hu ..

/-- What the next step of a call leaves alone. -/
lemma EpochCtl.go_still (hs : s.go t (s.loc t) = some s') : Still s s' t := by
  unfold EpochCtl.go at hs
  split at hs
  case h_1 => cases hs
  case h_7 k m n keep tail free hl =>
    cases hs
    unfold EpochCtl.splitNode
    split
    · split <;> exact Still.goto rfl rfl rfl rfl rfl
    · split <;> exact Still.goto rfl rfl rfl rfl rfl
  all_goals
    try split at hs
    all_goals
      cases hs
      exact Still.goto rfl rfl rfl rfl rfl

/-- The slots after the next step of a call: only a pin writes one. -/
lemma EpochCtl.go_slots (hs : s.go t (s.loc t) = some s') :
    (∃ e, s.loc t = .pin e ∧ s'.threadEpoch = Function.update s.threadEpoch t e ∧
      s'.pinned = Function.update s.pinned t true) ∨ s'.threadEpoch = s.threadEpoch ∧
        s'.pinned = s.pinned := by
  unfold EpochCtl.go at hs
  split at hs
  case h_1 => cases hs
  case h_2 e hl =>
    cases hs
    exact .inl ⟨e, hl, rfl, rfl⟩
  case h_7 k m n keep tail free hl =>
    cases hs
    right
    unfold EpochCtl.splitNode
    split
    · split <;> exact ⟨rfl, rfl⟩
    · split <;> exact ⟨rfl, rfl⟩
  all_goals
    try split at hs
    all_goals
      cases hs
      exact .inr ⟨rfl, rfl⟩

/-- Where the thread of a step is afterwards. -/
inductive Goes (s : EpochCtl) (t : ℕ) : Local → Prop where
  | idle : Goes s t .idle
  | push {k : Kind} {n : ℕ} {old : Option ℕ} : s.loc t = .retire k n ∨ s.loc t = .push k n old →
      Goes s t (.push k n (s.head k))
  | scan {i m : ℕ} : s.loc t = .scan i m → i < epochMaxThreads →
    Goes s t (.scan (i + 1) (minEpoch m (s.threadEpoch i)))
  | scanned {i m : ℕ} : s.loc t = .scan i m → epochMaxThreads ≤ i → Goes s t (.pop .record m)
  | pop {k : Kind} {m : ℕ} {cur : Option ℕ} :
    s.loc t = .pop k m → Goes s t (.split k m cur none none none)
  | work {k : Kind} {m : ℕ} {c : Local} : (s.loc t).work = some (k, m) → c.work = some (k, m) →
    Goes s t c
  | gen {m : ℕ} : (s.loc t).work = some (.record, m) → Goes s t (.pop .gen m)

/-- Where a collector goes after a list. -/
lemma goes_afterList {m : ℕ} (h : (s.loc t).work = some (k, m)) : Goes s t (afterList k m) := by
  cases k with
  | record => exact .gen h
  | gen => exact .idle

/-- Where a collector goes when its free list is empty. -/
lemma goes_repend {m : ℕ} {keep tail : Option ℕ} (h : (s.loc t).work = some (k, m)) :
    Goes s t (repend k m keep tail) := by
  unfold repend
  split
  · exact .work h rfl
  · exact goes_afterList h

/-- Where the thread of a step is afterwards. -/
lemma EpochCtl.go_goes (hs : s.go t (s.loc t) = some s') : Goes s t (s'.loc t) := by
  have hto : ∀ {s₁ : EpochCtl} {c : Local}, Goes s t c → Goes s t ((s₁.goto t c).loc t) := by
    intro s₁ c hc
    rw [show (s₁.goto t c).loc t = c from Function.update_self ..]
    exact hc
  unfold EpochCtl.go at hs
  split at hs
  case h_1 => cases hs
  case h_2 => cases hs; exact hto .idle
  case h_3 k n hl => cases hs; exact hto (@Goes.push _ _ _ _ none (.inl hl))
  case h_4 k n old hl =>
    split at hs
    · cases hs
      exact hto .idle
    · cases hs
      exact hto (.push (.inr hl))
  case h_5 i m hl =>
    split at hs
    case isTrue hi => cases hs; exact hto (.scan hl hi)
    case isFalse hi => cases hs; exact hto (.scanned hl (Nat.not_lt.mp hi))
  case h_6 k m hl => cases hs; exact hto (.pop hl)
  case h_7 k m n keep tail free hl =>
    have hw : (s.loc t).work = some (k, m) := by rw [hl]; rfl
    cases hs
    unfold EpochCtl.splitNode
    split
    · split <;> exact hto (.work hw rfl)
    · split <;> exact hto (.work hw rfl)
  case h_8 k m keep tail free hl =>
    cases hs
    exact hto (.work (k := k) (m := m) (by rw [hl]; rfl) rfl)
  case h_9 k m n keep tail hl => cases hs; exact hto (.work (k := k) (m := m) (by rw [hl]; rfl) rfl)
  case h_10 k m keep tail hl => cases hs; exact hto (goes_repend (by rw [hl]; rfl))
  case h_11 k m keep tail old hl =>
    have hw : (s.loc t).work = some (k, m) := by rw [hl]; rfl
    split at hs
    · cases hs
      exact hto (goes_afterList hw)
    · cases hs
      exact hto (.work hw rfl)

/-- A collector that works on the records has yet to take the generations. -/
lemma pending_work {c : Local} {m u : ℕ} {k k' : Kind} (h : c.work = some (k, m)) :
    c.pending k' u = if k = .record ∧ k' = .gen then some m else none := by
  cases c <;> cases h <;> cases k <;> cases k' <;> rfl

/-- The minimum of a collector in the next step: the slot `u` was read before, or is read now. -/
lemma Goes.pending {c : Local} {m' : ℕ} (h : Goes s t c) (hu : u < epochMaxThreads)
    (hp : c.pending k u = some m') :
    (∃ m, (s.loc t).pending k u = some m ∧ m' ≤ m) ∨ ∃ m, m' = minEpoch m (s.threadEpoch u) := by
  cases h with
  | idle => cases hp
  | push _ => cases hp
  | @scan i m hl hi =>
    rw [Local.pending] at hp
    split at hp
    case isTrue hui =>
      cases hp
      by_cases hi : u = i
      · subst hi
        exact .inr ⟨m, rfl⟩
      · refine .inl ⟨m, ?_, ?_⟩
        · rw [hl]
          exact if_pos (by omega)
        · unfold minEpoch
          split <;> omega
    case isFalse => cases hp
  | @scanned i m hl hi =>
    cases hp
    refine .inl ⟨m', ?_, Nat.le_refl _⟩
    rw [hl]
    exact if_pos (by omega)
  | @pop k₁ m cur hl =>
    rw [pending_work (k := k₁) (m := m) rfl] at hp
    split at hp
    case isTrue hk =>
      cases hp
      refine .inl ⟨m', ?_, Nat.le_refl _⟩
      rw [hl, hk.1]
      rfl
    case isFalse => cases hp
  | @work k₁ m c h1 h2 =>
    rw [pending_work h2, ← pending_work h1] at hp
    exact .inl ⟨m', hp, Nat.le_refl _⟩
  | @gen m h1 =>
    cases k with
    | record => cases hp
    | gen =>
      cases hp
      refine .inl ⟨m', ?_, Nat.le_refl _⟩
      rw [pending_work h1]
      exact if_pos ⟨rfl, rfl⟩

/-- The list a collector works on in the next step: it worked on it before, or takes it now. -/
lemma Goes.work_eq {c : Local} {m : ℕ} (h : Goes s t c) (hc : c.work = some (k, m)) :
    (s.loc t).work = some (k, m) ∨ s.loc t = .pop k m := by
  cases h with
  | idle => cases hc
  | push _ => cases hc
  | scan _ _ => cases hc
  | scanned _ _ => cases hc
  | pop hl =>
    cases hc
    exact .inr hl
  | work h1 h2 => exact .inl (h1.trans (h2.symm.trans hc))
  | gen _ => cases hc

/-- The minimum of a collector that reads the slot of a reader. -/
lemma minEpoch_le {m te : ℕ} (h : 1 ≤ te) : minEpoch m te ≤ te := by
  unfold minEpoch
  split <;> omega

/-- The readers after the next step of a call. -/
lemma Pins.go (h : Pins s) (hs : s.go t (s.loc t) = some s') : Pins s' := by
  have hst := EpochCtl.go_still hs
  have hg := EpochCtl.go_goes hs
  -- a thread that has loaded an epoch has not moved
  have hpin : ∀ u e, s'.loc u = .pin e → u ≠ t ∧ s.loc u = .pin e := by
    intro u e hu
    by_cases hut : u = t
    · subst hut
      rw [hu] at hg
      cases hg with
      | work _ h2 => cases h2
    · exact ⟨hut, hst.loc u hut ▸ hu⟩
  rcases EpochCtl.go_slots hs with ⟨e, hl, hte, hp⟩ | ⟨hte, hp⟩
  · obtain ⟨hN, h1, h2, h3⟩ := h.pinning t e hl
    have hnot : ∀ n, s.held n t = false := by
      intro n
      by_contra hn
      rw [(h.held n t ((Bool.not_eq_false _).mp hn)).1] at h3
      cases h3
    refine ⟨by rw [hst.global]; exact h.bound, fun u hu => ?_, fun u e' hu => ?_, fun n u hn => ?_⟩
    · rw [hst.global, hte]
      by_cases hut : u = t
      · subst hut
        rw [Function.update_self]
        exact ⟨hN, h1, h2⟩
      · rw [hp, Function.update_of_ne hut] at hu
        rw [Function.update_of_ne hut]
        exact h.epoch u hu
    · obtain ⟨hut, hu⟩ := hpin u e' hu
      rw [hst.global, hp, Function.update_of_ne hut]
      exact h.pinning u e' hu
    · rw [hst.held] at hn
      have hut : u ≠ t := by
        rintro rfl
        rw [hnot n] at hn
        cases hn
      rw [hp, hte, hst.retire, Function.update_of_ne hut, Function.update_of_ne hut]
      exact h.held n u hn
  · refine ⟨by rw [hst.global]; exact h.bound, fun u hu => ?_, fun u e' hu => ?_, fun n u hn => ?_⟩
    · rw [hst.global, hte]
      rw [hp] at hu
      exact h.epoch u hu
    · rw [hst.global, hp]
      exact h.pinning u e' (hpin u e' hu).2
    · rw [hp, hte, hst.retire]
      rw [hst.held] at hn
      exact h.held n u hn

/-- The readers after the first step of a call. -/
lemma Pins.begin {v : Move} (h : Pins s) (hc : Careful s t v) (hl : s.loc t = .idle)
    (hs : s.begin t v = some s') :
    Pins s' := by
  cases v with
  | pin =>
    rw [EpochCtl.begin] at hs
    split at hs
    case isTrue hN =>
      cases hs
      refine ⟨h.bound, h.epoch, fun u e hu => ?_, h.held⟩
      -- the thread that pins has just read the epoch
      by_cases hut : u = t
      · subst hut
        rw [show (s.goto u (.pin s.globalEpoch)).loc u =
          .pin s.globalEpoch from Function.update_self ..] at hu
        cases hu
        exact ⟨hN, h.bound.1, Nat.le_refl _, hc⟩
      · rw [show (s.goto t (.pin s.globalEpoch)).loc u =
          s.loc u from Function.update_of_ne hut ..] at hu
        exact h.pinning u e hu
    case isFalse =>
      cases hs
      exact h
  | unpin =>
    rw [EpochCtl.begin] at hs
    split at hs
    case isTrue hN =>
      cases hs
      -- a reader that is still pinned is another thread
      have hne : ∀ u, (s.clear t).pinned u = true → u ≠ t := by
        rintro u hu rfl
        rw [show (s.clear u).pinned u = false from Function.update_self ..] at hu
        cases hu
      refine ⟨h.bound, fun u hu => ?_, fun u e hu => ?_, fun n u hn => ?_⟩
      · have hut := hne u hu
        rw [show (s.clear t).pinned u = s.pinned u from Function.update_of_ne hut ..] at hu
        rw [show (s.clear t).threadEpoch u = s.threadEpoch u from Function.update_of_ne hut ..]
        exact h.epoch u hu
      · have hut : u ≠ t := by
          rintro rfl
          rw [show (s.clear u).loc u = s.loc u from rfl, hl] at hu
          cases hu
        rw [show (s.clear t).pinned u = s.pinned u from Function.update_of_ne hut ..]
        exact h.pinning u e hu
      · have hut : u ≠ t := by
          rintro rfl
          rw [show (s.clear u).held n u = false from Function.update_self ..] at hn
          cases hn
        rw [show (s.clear t).held n u = s.held n u from Function.update_of_ne hut ..] at hn
        rw [show (s.clear t).pinned u = s.pinned u from Function.update_of_ne hut ..,
          show (s.clear t).threadEpoch u = s.threadEpoch u from Function.update_of_ne hut ..]
        exact h.held n u hn
    case isFalse =>
      cases hs
      exact h
  | retire k n =>
    rw [EpochCtl.begin] at hs
    split at hs
    case isTrue => cases hs
    case isFalse =>
      cases hs
      refine ⟨h.bound, h.epoch, fun u e hu => ?_, fun a u ha => ?_⟩
      · have hut : u ≠ t := by
          rintro rfl
          rw [show ((s.fill k n).goto u (.retire k n)).loc u =
            .retire k n from Function.update_self ..] at hu
          cases hu
        rw [show ((s.fill k n).goto t (.retire k n)).loc u =
          s.loc u from Function.update_of_ne hut ..] at hu
        exact h.pinning u e hu
      -- the readers of this moment hold the node that is retired
      · by_cases han : a = n
        · subst han
          rw [show ((s.fill k a).goto t (.retire k a)).held a =
            s.pinned from Function.update_self ..] at ha
          refine ⟨ha, ?_⟩
          rw [show ((s.fill k a).goto t (.retire k a)).retireEpoch a =
            (s.globalEpoch + 2) % 2 ^ 64 from
            Function.update_self .., Nat.mod_eq_of_lt h.bound.2]
          exact Nat.le_trans (h.epoch u ha).2.2 (Nat.le_add_right _ _)
        · rw [show ((s.fill k n).goto t (.retire k n)).held a =
            s.held a from Function.update_of_ne han ..] at ha
          rw [show ((s.fill k n).goto t (.retire k n)).retireEpoch a =
            s.retireEpoch a from Function.update_of_ne han ..]
          exact h.held a u ha
  | advance =>
    cases hs
    have hc : s.globalEpoch + 3 < 2 ^ 64 := hc
    -- the epoch does not wrap
    have hg : s.advance.globalEpoch = s.globalEpoch + 1 := Nat.mod_eq_of_lt (by omega)
    refine ⟨by rw [hg]; omega, fun u hu => ?_, fun u e hu => ?_, h.held⟩
    · obtain ⟨h1, h2, h3⟩ := h.epoch u hu
      rw [hg]
      exact ⟨h1, h2, Nat.le_succ_of_le h3⟩
    · obtain ⟨h1, h2, h3, h4⟩ := h.pinning u e hu
      rw [hg]
      exact ⟨h1, h2, Nat.le_succ_of_le h3, h4⟩
  | collect =>
    cases hs
    refine ⟨h.bound, h.epoch, fun u e hu => ?_, h.held⟩
    have hut : u ≠ t := by
      rintro rfl
      -- the collector is not pinning
      rw [show (s.goto u (.scan 0 (2 ^ 64 - 1))).loc u =
        .scan 0 (2 ^ 64 - 1) from Function.update_self ..] at hu
      cases hu
    rw [show (s.goto t (.scan 0 (2 ^ 64 - 1))).loc u =
      s.loc u from Function.update_of_ne hut ..] at hu
    exact h.pinning u e hu
  | go => cases hs

/-- Where a node on a list of a collector comes from. -/
lemma Traced.part {b c m : ℕ} {q : Part} (htr : Traced s t f f') (hf : Laid s f)
    (hst : Still s s' t) (hg : Goes s t (s'.loc t))
    (hb : b ∈ f' (.part c q)) (hw : (s'.loc c).work = some (k, m)) :
    b ∈ f (.part c q) ∧ (s.loc c).work = some (k, m) ∨
      c = t ∧ q = .popped ∧ s.loc t = .pop k m ∧ b ∈ f (.head k) ∨
      c = t ∧ b ∈ f (.part t .popped) ∧ (s.loc t).work = some (k, m) ∧
      (q = .free → s.retireEpoch b < m) := by
  rcases htr _ _ hb with hb | ⟨p₀, hb₀, hm⟩
  · left
    by_cases hct : c = t
    · subst hct
      refine ⟨hb, ?_⟩
      rcases hg.work_eq hw with hw | hl
      · exact hw
      · rw [hf.nil_of_clear (by rw [hl]; exact ⟨rfl, rfl, rfl, rfl, rfl⟩)] at hb
        cases hb
    · rw [hst.loc c hct] at hw
      exact ⟨hb, hw⟩
  · right
    cases hm with
    | pop hl =>
      rcases hg.work_eq hw with hw | hl'
      · rw [hl] at hw
        cases hw
      · rw [hl] at hl'
        cases hl'
        exact .inl ⟨rfl, rfl, hl, hb₀⟩
    | free hl hre =>
      rcases hg.work_eq hw with hw | hl'
      · refine .inr ⟨rfl, hb₀, hw, fun _ => ?_⟩
        rw [hl] at hw
        cases hw
        exact hre
      · rw [hl] at hl'
        cases hl'
    | keep hl hre =>
      rcases hg.work_eq hw with hw | hl'
      · exact .inr ⟨rfl, hb₀, hw, nofun⟩
      · rw [hl] at hl'
        cases hl'

/-- Where a node that is in no hand comes from: it was in none, or it is pushed now. -/
lemma Traced.shared {b : ℕ} {p : Place} (htr : Traced s t f f') (hb : b ∈ f' p)
    (hp : ∀ t, p ≠ .part t .hand) :
    (∃ p₀, b ∈ f p₀ ∧ ∀ t, p₀ ≠ .part t .hand) ∨ ∃ k, s.loc t = .push k b (s.head k) := by
  rcases htr _ _ hb with hb | ⟨p₀, hb₀, hm⟩
  · exact .inl ⟨p, hb, hp⟩
  · cases hm with
    | push hl => exact .inr ⟨_, hl⟩
    | pop _ => exact .inl ⟨_, hb₀, by simp⟩
    | free _ _ => exact .inl ⟨_, hb₀, by simp⟩
    | keep _ _ => exact .inl ⟨_, hb₀, by simp⟩
    | repush _ => exact .inl ⟨_, hb₀, by simp⟩

/-- The invariant after the next step of a call. -/
lemma Guarded.go (h : Guarded s f) (hp : Pins s) (hf : Laid s f) (htr : Traced s t f f')
    (hc : Careful s t .go) (hs : s.go t (s.loc t) = some s') : Guarded s' f' := by
  have hst := EpochCtl.go_still hs
  have hg := EpochCtl.go_goes hs
  refine ⟨fun k n hn => ?_, fun u k n old hu => ?_, fun c q n k m hn hw => ?_,
    fun p n u c m hn hnp hh hpd => ?_, fun c q n u k m hn hw hh => ?_, fun c n k m hn hw => ?_⟩
  · rw [hst.kind]
    rcases htr _ _ hn with hn | ⟨p₀, hn₀, hm⟩
    · exact h.head k n hn
    · cases hm with
      | push hl => exact h.hand t k n _ (.inr hl)
      | @repush _ m _ _ hl => exact h.kind t .keep n k m hn₀ (by rw [hl]; rfl)
  · rw [hst.kind]
    by_cases hut : u = t
    · subst hut
      rcases hu with hu | hu
      · rw [hu] at hg
        cases hg with
        | work _ h2 => cases h2
      · rw [hu] at hg
        cases hg with
        | @push _ _ old' hl => exact h.hand u k n old' hl
        | work _ h2 => cases h2
    · rw [hst.loc u hut] at hu
      exact h.hand u k n old hu
  · rw [hst.kind]
    rcases htr.part hf hst hg hn hw with ⟨hn, hw⟩ | ⟨-, -, -, hn⟩ | ⟨rfl, hn, hw, -⟩
    · exact h.kind c q n k m hn hw
    · exact h.head k n hn
    · exact h.kind c .popped n k m hn hw
  · rw [hst.held] at hh
    rw [hst.kind] at hpd
    rw [hst.retire]
    obtain ⟨hpin, hte⟩ := hp.held n u hh
    obtain ⟨hN, h1, -⟩ := hp.epoch u hpin
    -- a collector that had read the slot before: by the invariant, or because the push was careful
    have hold : ∀ m, (s.loc c).pending (s.kindOf n) u = some m → m ≤ s.retireEpoch n := by
      intro m hm
      rcases htr.shared hn hnp with ⟨p₀, hn, hnp⟩ | ⟨k, hl⟩
      · exact h.scanned p₀ n u c m hn hnp hh hm
      · rw [h.hand t k n _ (.inr hl)] at hm
        exact hc k n hl u c m hh hm
    by_cases hct : c = t
    · subst hct
      rcases hg.pending hN hpd with ⟨m₀, hm, hle⟩ | ⟨m₀, rfl⟩
      · exact Nat.le_trans hle (hold m₀ hm)
      · exact Nat.le_trans (minEpoch_le h1) hte
    · rw [hst.loc c hct] at hpd
      exact hold m hpd
  · rw [hst.held] at hh
    rw [hst.retire]
    rcases htr.part hf hst hg hn hw with ⟨hn, hw⟩ | ⟨rfl, -, hl, hn⟩ | ⟨rfl, hn, hw, -⟩
    · exact h.taken c q n u k m hn hw hh
    · refine h.scanned (.head k) n u c m hn (by simp) hh ?_
      rw [hl, h.head k n hn]
      cases k <;> rfl
    · exact h.taken c .popped n u k m hn hw hh
  · rw [hst.retire]
    rcases htr.part hf hst hg hn hw with ⟨hn, hw⟩ | ⟨-, hq, -⟩ | ⟨-, -, -, hre⟩
    · exact h.freed c n k m hn hw
    · cases hq
    · exact hre rfl

/-- The invariant depends on the threads and on what is recorded of the nodes. -/
lemma Guarded.of_eq (h : Guarded s f) (hl : ∀ u, u ≠ t → s'.loc u = s.loc u)
    (ht : (s'.loc t).hand = none)
    (hw : (s'.loc t).work = none) (hp : ∀ k u, (s'.loc t).pending k u = none)
    (hr : s'.retireEpoch = s.retireEpoch)
    (hk : s'.kindOf = s.kindOf) (hh : ∀ n u, s'.held n u = true → s.held n u = true) :
    Guarded s' f := by
  refine ⟨fun k n hn => ?_, fun u k n old hu => ?_, fun c q n k m hn hw' => ?_,
    fun p n u c m hn hnp hh' hpd => ?_, fun c q n u k m hn hw' hh' => ?_, fun c n k m hn hw' => ?_⟩
  · rw [hk]
    exact h.head k n hn
  · have hut : u ≠ t := by
      rintro rfl
      rcases hu with hu | hu <;>
      · rw [hu] at ht
        cases ht
    rw [hk]
    rw [hl u hut] at hu
    exact h.hand u k n old hu
  · have hct : c ≠ t := by
      rintro rfl
      rw [hw] at hw'
      cases hw'
    rw [hk]
    rw [hl c hct] at hw'
    exact h.kind c q n k m hn hw'
  · have hct : c ≠ t := by
      rintro rfl
      rw [hp] at hpd
      cases hpd
    rw [hr]
    rw [hl c hct, hk] at hpd
    exact h.scanned p n u c m hn hnp (hh n u hh') hpd
  · have hct : c ≠ t := by
      rintro rfl
      rw [hw] at hw'
      cases hw'
    rw [hr]
    rw [hl c hct] at hw'
    exact h.taken c q n u k m hn hw' (hh n u hh')
  · have hct : c ≠ t := by
      rintro rfl
      rw [hw] at hw'
      cases hw'
    rw [hr]
    rw [hl c hct] at hw'
    exact h.freed c n k m hn hw'

/-- The invariant after a retirer got its node. -/
lemma Guarded.fill (h : Guarded s f) (hf : Laid s f) (hn : s.allocated n = false)
    (htr : ∀ p b, b ∈ f' p → b ∈ f p ∨ p = .part t .hand ∧ s.allocated b = false ∧ ∃ k',
      Move.retire k n = .retire k' b) :
    Guarded ((s.fill k n).goto t (.retire k n)) f' := by
  have ht : ((s.fill k n).goto t (.retire k n)).loc t = .retire k n := Function.update_self ..
  have hloc : ∀ u, u ≠ t → ((s.fill k n).goto t (.retire k n)).loc u = s.loc u := fun u hu =>
    Function.update_of_ne hu ..
  -- a node that was somewhere before is another one
  have hne : ∀ {p b}, b ∈ f p → b ≠ n := by
    rintro p b hb rfl
    rw [(hf.allocated b).mpr ⟨p, hb⟩] at hn
    cases hn
  have hkind : ∀ {b}, b ≠ n → ((s.fill k n).goto t (.retire k n)).kindOf b = s.kindOf b :=
    fun hb => Function.update_of_ne hb ..
  have hre : ∀ {b}, b ≠ n → ((s.fill k n).goto t (.retire k n)).retireEpoch b = s.retireEpoch b :=
    fun hb => Function.update_of_ne hb ..
  have hheld : ∀ {b}, b ≠ n → ((s.fill k n).goto t (.retire k n)).held b = s.held b :=
    fun hb => Function.update_of_ne hb ..
  have hpart : ∀ {c q b k' m},
    b ∈ f' (.part c q) → (((s.fill k n).goto t (.retire k n)).loc c).work = some (k', m) →
      b ≠ n ∧ b ∈ f (.part c q) ∧ (s.loc c).work = some (k', m) := by
    intro c q b k' m hb hw
    have hct : c ≠ t := by
      rintro rfl
      rw [ht] at hw
      cases hw
    rw [hloc c hct] at hw
    rcases htr _ _ hb with hb | ⟨hp, -⟩
    · exact ⟨hne hb, hb, hw⟩
    · cases hp
      exact absurd rfl hct
  refine ⟨fun k' b hb => ?_, fun u k' b old hu => ?_, fun c q b k' m hb hw => ?_,
    fun p b u c m hb hbp hh hpd => ?_, fun c q b u k' m hb hw hh => ?_, fun c b k' m hb hw => ?_⟩
  · rcases htr _ _ hb with hb | ⟨hp, -⟩
    · rw [hkind (hne hb)]
      exact h.head k' b hb
    · cases hp
  · by_cases hut : u = t
    · subst hut
      rw [ht] at hu
      rcases hu with hu | hu
      · cases hu
        exact Function.update_self ..
      · cases hu
    · rw [hloc u hut] at hu
      have hhand : (s.loc u).hand = some b := by
        rcases hu with hu | hu <;>
        · rw [hu]
          rfl
      have hmem : b ∈ f (.part u .hand) := by
        rw [hf.hand hhand]
        exact List.mem_singleton_self b
      rw [hkind (hne hmem)]
      exact h.hand u k' b old hu
  · obtain ⟨hbn, hb, hw⟩ := hpart hb hw
    rw [hkind hbn]
    exact h.kind c q b k' m hb hw
  · rcases htr _ _ hb with hb | ⟨hp, -⟩
    · have hbn := hne hb
      have hct : c ≠ t := by
        rintro rfl
        rw [ht] at hpd
        cases hpd
      rw [hloc c hct, hkind hbn] at hpd
      rw [hheld hbn] at hh
      rw [hre hbn]
      exact h.scanned p b u c m hb hbp hh hpd
    · exact absurd hp (hbp t)
  · obtain ⟨hbn, hb, hw⟩ := hpart hb hw
    rw [hheld hbn] at hh
    rw [hre hbn]
    exact h.taken c q b u k' m hb hw hh
  · obtain ⟨hbn, hb, hw⟩ := hpart hb hw
    rw [hre hbn]
    exact h.freed c b k' m hb hw

/-- The invariant after the first step of a call. -/
lemma Guarded.begin {v : Move} (h : Guarded s f) (hf : Laid s f) (hl : s.loc t = .idle)
    (hs : s.begin t v = some s') :
    ∃ f', Laid s' f' ∧ Guarded s' f' := by
  have hgo : ∀ {c : Local}, c.hand = none → c.work = none → (∀ k u, c.pending k u = none) →
      Guarded (s.goto t c) f := by
    intro c h1 h2 h3
    have hc : (s.goto t c).loc t = c := Function.update_self ..
    exact h.of_eq (t := t) (fun u hu => Function.update_of_ne hu ..) (by rw [hc]; exact h1)
      (by rw [hc]; exact h2)
      (by rw [hc]; exact h3) rfl rfl fun _ _ hh => hh
  have hgo' : ∀ {c : Local}, c.Clear → Laid (s.goto t c) f := by
    intro c hc
    refine hf.goto fun q => ?_
    rw [hf.nil_of_clear (by rw [hl]; exact ⟨rfl, rfl, rfl, rfl, rfl⟩)]
    exact hc.holds _ q
  cases v with
  | pin =>
    rw [EpochCtl.begin] at hs
    split at hs
    · cases hs
      exact ⟨f, hgo' ⟨rfl, rfl, rfl, rfl, rfl⟩, hgo rfl rfl fun _ _ => rfl⟩
    · cases hs
      exact ⟨f, hf, h⟩
  | unpin =>
    rw [EpochCtl.begin] at hs
    split at hs
    · cases hs
      refine ⟨f, hf.of_eq rfl rfl rfl rfl,
        h.of_eq (t := t) (fun _ _ => rfl) ?_ ?_ ?_ rfl rfl fun n u hn => ?_⟩
      · rw [show (s.clear t).loc t = .idle from hl]; rfl
      · rw [show (s.clear t).loc t = .idle from hl]; rfl
      · rw [show (s.clear t).loc t = .idle from hl]; exact fun _ _ => rfl
      · by_cases hut : u = t
        · subst hut
          rw [show (s.clear u).held n u = false from Function.update_self ..] at hn
          cases hn
        · rwa [show (s.clear t).held n u = s.held n u from Function.update_of_ne hut ..] at hn
    · cases hs
      exact ⟨f, hf, h⟩
  | retire k n =>
    obtain ⟨f', hf', htr⟩ := hf.begin hl hs
    rw [EpochCtl.begin] at hs
    split at hs
    case isTrue => cases hs
    case isFalse hn =>
      cases hs
      exact ⟨f', hf', h.fill hf ((Bool.not_eq_true _).mp hn) htr⟩
  | advance =>
    cases hs
    refine ⟨f, hf.of_eq rfl rfl rfl rfl,
      h.of_eq (t := t) (fun _ _ => rfl) ?_ ?_ ?_ rfl rfl fun n u hn => hn⟩
    · rw [show s.advance.loc t = .idle from hl]; rfl
    · rw [show s.advance.loc t = .idle from hl]; rfl
    · rw [show s.advance.loc t = .idle from hl]; exact fun _ _ => rfl
  | collect =>
    cases hs
    exact ⟨f, hgo' ⟨rfl, rfl, rfl, rfl, rfl⟩, hgo rfl rfl fun _ _ => rfl⟩
  | go => cases hs

/-- In every state that careful steps lead to, the readers are guarded. -/
lemma CarefulReach.guarded (h : CarefulReach s) : Pins s ∧ ∃ f, Laid s f ∧ Guarded s f := by
  induction h with
  | create =>
    refine ⟨⟨by decide, nofun, nofun, nofun⟩, _, laid_create, nofun, ?_, nofun, nofun, nofun, nofun⟩
    rintro t k n old (hl | hl) <;> cases hl
  | step _ hc hs ih =>
    obtain ⟨hp, f, hf, hg⟩ := ih
    rcases EpochCtl.step_cases hs with ⟨rfl, hs⟩ | ⟨hl, hs⟩
    · obtain ⟨f', hf', htr⟩ := hf.go hs
      exact ⟨hp.go hs, f', hf', hg.go hp hf htr hc hs⟩
    · exact ⟨hp.begin hc hl hs, hg.begin hf hl hs⟩

/-- In every run of careful steps, no collector frees what a thread may hold that was pinned before
the retirement and has not unpinned since. -/
theorem collect_spares_readers (h : CarefulReach s) (hs : s.freeing t = some n) (u : ℕ) :
    s.held n u = false := by
  obtain ⟨-, f, hf, hg⟩ := h.guarded
  exact hg.freeing hf hs u

/-- A collector goes on carefully: it pushes nothing for the first time. -/
lemma CarefulReach.collect {j : ℕ} (h : CarefulReach s) (hh : (s.loc t).hand = none)
    (hr : s.run (List.replicate j (t, .go)) = some s') : CarefulReach s' := by
  induction j generalizing s with
  | zero =>
    cases hr
    exact h
  | succ j ih =>
    obtain ⟨s₁, hs₁, hr⟩ := Option.bind_eq_some_iff.mp hr
    have hcare : Careful s t .go := by
      intro k n hl
      rw [hl] at hh
      cases hh
    refine ih (h.step hcare hs₁) ?_ hr
    have hg : Goes s t (s₁.loc t) := EpochCtl.go_goes hs₁
    cases hl : s₁.loc t with
    | retire k n =>
      rw [hl] at hg
      cases hg with
      | work _ h2 => cases h2
    | push k n old =>
      rw [hl] at hg
      cases hg with
      | push hl₀ =>
        rcases hl₀ with hl₀ | hl₀ <;>
        · rw [hl₀] at hh
          cases hh
      | work _ h2 => cases h2
    | _ => rfl

/-- A record is retired and a collector begins. -/
def retiredRecord : EpochCtl :=
  ((((((EpochCtl.create.fill .record 7).goto 0 (.retire .record 7)).goto 0
    (.push .record 7 none)).link 7 none).setHead
    .record (some 7)).count 7).goto 0 .idle

/-- The scan of all slots with record 7 in hand, at the end of which no reader holds it. -/
theorem collect_spares_readers_seven :
    ∃ s, (retiredRecord.goto 2 (.scan 0 (2 ^ 64 - 1))).run (List.replicate 68 (2, .go)) =
    some s ∧ s.freeing 2 = some 7 ∧ s.held 7 1 = false := by
  have hstart : CarefulReach (retiredRecord.goto 2 (.scan 0 (2 ^ 64 - 1))) := by
    refine .step
      (.step (.step (.step .create (t := 0) (v := .retire .record 7) trivial rfl) (t := 0)
        (v := .go) ?_ rfl)
      (t := 0) (v := .go) ?_ rfl) (t := 2) (v := .collect) trivial rfl
    · intro k n hl
      cases hl
    · intro k n hl u c m hh
      cases hl
      cases hh
  have hrun :
      ((retiredRecord.goto 2 (.scan 0 (2 ^ 64 - 1))).run (List.replicate 68 (2, .go))).isSome =
        true := by
    decide +kernel
  obtain ⟨s, hs⟩ := Option.isSome_iff_exists.mp hrun
  have hfree :
      (((retiredRecord.goto 2 (.scan 0 (2 ^ 64 - 1))).run (List.replicate 68 (2, .go))).bind
        fun s =>
      s.freeing 2) = some 7 := by
    decide +kernel
  rw [hs] at hfree
  exact ⟨s, hs, hfree, collect_spares_readers (hstart.collect rfl hs) hfree 1⟩

/-- A collector has read all slots; then a reader pins, a record is retired, and the collector goes
on. -/
def lateReader : List (ℕ × Move) :=
  (2, .collect) :: List.replicate 64 (2, .go) ++
    [(1, .pin), (1, .go), (0, .retire .record 7), (0, .go), (0, .go)] ++ List.replicate 4 (2, .go)

/-- A reader that pins after the scan of its slot holds record 7 while it is freed. -/
theorem collect_frees_under_reader :
    ∃ s, EpochCtl.create.run lateReader = some s ∧ s.Reach ∧ s.freeing 2 = some 7 ∧
    s.held 7 1 = true := by
  have hrun : (EpochCtl.create.run lateReader).isSome = true := by decide +kernel
  obtain ⟨s, hs⟩ := Option.isSome_iff_exists.mp hrun
  have hfree : ((EpochCtl.create.run lateReader).bind fun s => s.freeing 2) = some 7 := by
    decide +kernel
  have hheld : ((EpochCtl.create.run lateReader).map fun s => s.held 7 1) = some true := by
    decide +kernel
  rw [hs] at hfree hheld
  exact ⟨s, hs, EpochCtl.Reach.create.run hs, hfree, Option.some_inj.mp hheld⟩

end Draugr.Epoch
