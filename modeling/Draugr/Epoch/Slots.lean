import Draugr.Epoch.Defs
import Mathlib.Tactic.Common

/-!
# The epoch slots

`htc_epoch_register`, `htc_epoch_pin`, `htc_epoch_unpin` and `htc_thread_detach` for any number of
threads and tables. A thread has one index, `htc_epoch_tid`, for all tables; it claims it by a
compare-and-swap from 0 in the table it pins first. Unpinning writes 0 into the same word, so the
index of a thread that is not pinned there looks free, and a second thread can claim it. `Registers`
names the steps at which this does not happen; in every run of such steps the slots are exclusive.
-/

namespace Draugr.Epoch
open Draugr.Lib

/-- Where a thread is in `htc_epoch_pin`. -/
inductive Pinning where
  /-- between two calls -/
  | idle
  /-- `htc_epoch_register` is about to try slot `i` -/
  | register (ep i : ℕ)
  /-- about to load `global_epoch` -/
  | load (ep : ℕ)
  /-- about to store the epoch `e` -/
  | store (ep e : ℕ)
  deriving DecidableEq, Repr

/-- The control blocks of all tables, and the threads: `tid` is `htc_epoch_tid`, with `none` for
`UINT_MAX`. The last two fields are not in the source: the tables a thread has used since it
registered, and the epochs it has pinned and not yet unpinned. -/
structure Slots where
  globalEpoch : ℕ → ℕ
  threadEpoch : ℕ → ℕ → ℕ
  tid : ℕ → Option ℕ
  loc : ℕ → Pinning
  used : ℕ → ℕ → Bool
  pins : ℕ → ℕ → List ℕ

/-- What a thread does next. -/
inductive SlotMove where
  | pin (ep : ℕ)
  | unpin (ep : ℕ)
  | detach
  | advance (ep : ℕ)
  | go
  deriving DecidableEq, Repr

/-- Threads that have not registered, and new tables. -/
def Slots.create : Slots where
  globalEpoch := fun _ => 1
  threadEpoch := fun _ _ => 0
  tid := fun _ => none
  loc := fun _ => .idle
  used := fun _ _ => false
  pins := fun _ _ => []

/-- The thread `t` is at `l`. -/
def Slots.goto (s : Slots) (t : ℕ) (l : Pinning) : Slots :=
  { s with loc := Function.update s.loc t l }

/-- The thread `t` writes the word `i` of the table `ep`. -/
def Slots.write (s : Slots) (t ep i w : ℕ) : Slots :=
  { s with
    threadEpoch := Function.update s.threadEpoch ep (Function.update (s.threadEpoch ep) i w)
    used := Function.update s.used t (Function.update (s.used t) ep true) }

/-- The thread `t` sets its index. -/
def Slots.setTid (s : Slots) (t : ℕ) (o : Option ℕ) : Slots :=
  { s with tid := Function.update s.tid t o }

/-- The epochs the thread `t` has pinned at the table `ep`. -/
def Slots.setPins (s : Slots) (t ep : ℕ) (l : List ℕ) : Slots :=
  { s with pins := Function.update s.pins t (Function.update (s.pins t) ep l) }

/-- The next step of `htc_epoch_pin`. -/
def Slots.go (s : Slots) (t : ℕ) : Pinning → Option Slots
  | .idle => none
  | .register ep i =>
    if i < epochMaxThreads then
      if s.threadEpoch ep i = 0 then some (((s.write t ep i 1).setTid t (some i)).goto t (.load ep))
      else some (s.goto t (.register ep (i + 1)))
    -- no slot is free: the thread stays unregistered, and the call returns 0
    else some (s.goto t .idle)
  | .load ep => some (s.goto t (.store ep (s.globalEpoch ep)))
  | .store ep e =>
    match s.tid t with
    | some i => some (((s.write t ep i e).setPins t ep (e :: s.pins t ep)).goto t .idle)
    | none => none

/-- The first step of a call. -/
def Slots.begin (s : Slots) (t : ℕ) : SlotMove → Option Slots
  | .pin ep =>
    match s.tid t with
    | some _ => some (s.goto t (.load ep))
    | none => some (s.goto t (.register ep 0))
  | .unpin ep =>
    match s.tid t with
    | some i => some ((s.write t ep i 0).setPins t ep (s.pins t ep).tail)
    | none => some s
  | .detach => some { s.setTid t none with used := Function.update s.used t fun _ => false }
  | .advance ep => some { s with
      globalEpoch := Function.update s.globalEpoch ep ((s.globalEpoch ep + 1) % 2 ^ 64) }
  | .go => none

/-- One step of the thread `t`. -/
def Slots.step (s : Slots) (t : ℕ) (v : SlotMove) : Option Slots :=
  if v = .go then s.go t (s.loc t)
  else if s.loc t = .idle then s.begin t v
  else none

/-- `htc_thread_detach` is never called while the thread is pinned. -/
def Allowed (s : Slots) (t : ℕ) : SlotMove → Prop
  | .detach => ∀ ep, s.pins t ep = []
  | _ => True

/-- The states that steps of any threads lead to. -/
inductive Slots.Reach : Slots → Prop where
  | create : Slots.Reach .create
  | step {s s' : Slots} {t : ℕ} {v : SlotMove} : Slots.Reach s → Allowed s t v →
    s.step t v = some s' → Slots.Reach s'

/-- The thread `t` uses the slot `i` of the table `ep`. -/
def Slots.Uses (s : Slots) (t ep i : ℕ) : Prop := s.tid t = some i ∧ s.used t ep = true

/-- No slot is used by two threads, and the slot of a pinned thread holds the epoch it pinned. -/
structure Slots.Exclusive (s : Slots) : Prop where
  slots : ∀ t u ep i, s.Uses t ep i → s.Uses u ep i → t = u
  word : ∀ t ep e, e ∈ s.pins t ep → e ≠ 0 → ∃ i, s.tid t = some i ∧ s.threadEpoch ep i = e

/-- A thread tries a slot for its own only when the other threads with that index are pinned at the
table, so that the word is not 0; and no thread pins a table that it has pinned. -/
def Registers (s : Slots) (t : ℕ) : SlotMove → Prop
  | .go => ∀ ep i u, s.loc t = .register ep i → u ≠ t → s.tid u = some i → s.threadEpoch ep i ≠ 0
  | .pin ep => s.pins t ep = []
  | _ => True

/-- The states that such steps lead to. -/
inductive Slots.RegisterReach : Slots → Prop where
  | create : Slots.RegisterReach .create
  | step {s s' : Slots} {t : ℕ} {v : SlotMove} : Slots.RegisterReach s → Allowed s t v →
    Registers s t v →
      s.step t v = some s' → Slots.RegisterReach s'

/-- The invariant of these runs: the indexes differ, a thread that registers has none, and the word
of a pinned thread is its epoch. -/
structure Owned (s : Slots) : Prop where
  tids : ∀ t u i, s.tid t = some i → s.tid u = some i → t = u
  register : ∀ t ep i, s.loc t = .register ep i → s.tid t = none
  calling : ∀ t ep e, s.loc t = .load ep ∨ s.loc t = .store ep e → s.pins t ep = []
  pins : ∀ t ep, s.pins t ep = [] ∨ ∃ i, s.tid t = some i ∧ s.pins t ep = [s.threadEpoch ep i]

variable {s s' : Slots} {t u ep ep' i j w : ℕ} {c : Pinning}

/-- Another word is unchanged. -/
lemma write_ne (h : ep' ≠ ep ∨ j ≠ i) :
    (s.write t ep i w).threadEpoch ep' j = s.threadEpoch ep' j := by
  by_cases hep : ep' = ep
  · subst hep
    rw [show (s.write t ep' i w).threadEpoch ep' =
      Function.update (s.threadEpoch ep') i w from Function.update_self ..]
    exact Function.update_of_ne (h.resolve_left fun h => h rfl) ..
  · rw [show (s.write t ep i w).threadEpoch ep' =
      s.threadEpoch ep' from Function.update_of_ne hep ..]

/-- The word that is written. -/
lemma write_self : (s.write t ep i w).threadEpoch ep i = w := by
  rw [show (s.write t ep i w).threadEpoch ep =
    Function.update (s.threadEpoch ep) i w from Function.update_self ..]
  exact Function.update_self ..

/-- Owned slots are exclusive. -/
lemma Owned.exclusive (h : Owned s) : s.Exclusive := by
  refine ⟨fun t u ep i ht hu => h.tids t u i ht.1 hu.1, fun t ep e he _ => ?_⟩
  rcases h.pins t ep with hp | ⟨i, hi, hp⟩
  · rw [hp] at he
    cases he
  · rw [hp, List.mem_singleton] at he
    exact ⟨i, hi, he.symm⟩

/-- A thread goes on in its call. -/
lemma Owned.goto (h : Owned s) (hr : ∀ ep i, c = .register ep i → s.tid t = none)
    (hc : ∀ ep e, c = .load ep ∨ c = .store ep e → s.pins t ep = []) : Owned (s.goto t c) := by
  have ht : (s.goto t c).loc t = c := Function.update_self ..
  have hne : ∀ u, u ≠ t → (s.goto t c).loc u = s.loc u := fun u hu => Function.update_of_ne hu ..
  refine ⟨h.tids, fun u ep i hu => ?_, fun u ep e hu => ?_, h.pins⟩
  · by_cases hut : u = t
    · subst hut
      rw [ht] at hu
      exact hr ep i hu
    · rw [hne u hut] at hu
      exact h.register u ep i hu
  · by_cases hut : u = t
    · subst hut
      rw [ht] at hu
      exact hc ep e hu
    · rw [hne u hut] at hu
      exact h.calling u ep e hu

/-- An unregistered thread has pinned nothing. -/
lemma Owned.unpinned (h : Owned s) (ht : s.tid t = none) (ep : ℕ) : s.pins t ep = [] := by
  rcases h.pins t ep with hp | ⟨i, hi, -⟩
  · exact hp
  · rw [ht] at hi
    cases hi

/-- A thread claims a slot that no other thread has. -/
lemma Owned.claim (h : Owned s) (hl : s.loc t = .register ep i)
    (hi : ∀ u, u ≠ t → s.tid u ≠ some i) :
    Owned (((s.write t ep i 1).setTid t (some i)).goto t (.load ep)) := by
  have ht : s.tid t = none := h.register t ep i hl
  have htid : ((s.write t ep i 1).setTid t (some i)).tid t = some i := Function.update_self ..
  have htid' : ∀ u, u ≠ t → ((s.write t ep i 1).setTid t (some i)).tid u = s.tid u := fun u hu =>
    Function.update_of_ne hu ..
  have hown : Owned (((s.write t ep i 1).setTid t (some i)).goto t .idle) := by
    have hloc :
        ∀ u, u ≠ t → (((s.write t ep i 1).setTid t (some i)).goto t .idle).loc u = s.loc u :=
      fun u hu => Function.update_of_ne hu ..
    have hloc' : (((s.write t ep i 1).setTid t (some i)).goto t .idle).loc t = .idle :=
      Function.update_self ..
    refine ⟨fun u v j hu hv => ?_, fun u ep' j hu => ?_, fun u ep' e hu => ?_, fun u ep' => ?_⟩
    · by_cases hut : u = t <;> by_cases hvt : v = t
      · rw [hut, hvt]
      · subst hut
        rw [← Option.some_inj.mp (htid.symm.trans hu)] at hv
        exact absurd ((htid' v hvt).symm.trans hv) (hi v hvt)
      · subst hvt
        rw [← Option.some_inj.mp (htid.symm.trans hv)] at hu
        exact absurd ((htid' u hut).symm.trans hu) (hi u hut)
      · exact h.tids u v j ((htid' u hut).symm.trans hu) ((htid' v hvt).symm.trans hv)
    · have hut : u ≠ t := by
        rintro rfl
        rw [hloc'] at hu
        cases hu
      rw [hloc u hut] at hu
      exact (htid' u hut).trans (h.register u ep' j hu)
    · have hut : u ≠ t := by
        rintro rfl
        rw [hloc'] at hu
        rcases hu with hu | hu <;> cases hu
      rw [hloc u hut] at hu
      exact h.calling u ep' e hu
    · by_cases hut : u = t
      · subst hut
        exact .inl (h.unpinned ht ep')
      · rcases h.pins u ep' with hp | ⟨j, hj, hp⟩
        · exact .inl hp
        · refine .inr ⟨j, (htid' u hut).trans hj, ?_⟩
          have hji : j ≠ i := by
            rintro rfl
            exact hi u hut hj
          rw [show (((s.write t ep i 1).setTid t (some i)).goto t .idle).threadEpoch ep' j =
            (s.write t ep i 1).threadEpoch ep' j from rfl, write_ne (.inr hji)]
          exact hp
  have := hown.goto (t := t) (c := .load ep) nofun fun ep' e _ => h.unpinned ht ep'
  rwa [show (((s.write t ep i 1).setTid t (some i)).goto t .idle).goto t (.load ep) =
    ((s.write t ep i 1).setTid t (some i)).goto t (.load ep) from by simp [Slots.goto]] at this

/-- A thread writes its word of a table; what it has pinned there is the word, or nothing. -/
lemma Owned.write {l : List ℕ} (h : Owned s) (ht : s.tid t = some i) (hl : l = [] ∨ l = [w]) :
    Owned (((s.write t ep i w).setPins t ep l).goto t .idle) := by
  have hloc : ∀ u, u ≠ t → (((s.write t ep i w).setPins t ep l).goto t .idle).loc u = s.loc u :=
    fun u hu => Function.update_of_ne hu ..
  have hloc' : (((s.write t ep i w).setPins t ep l).goto t .idle).loc t = .idle :=
    Function.update_self ..
  have hpins : ∀ u, u ≠ t → (((s.write t ep i w).setPins t ep l).goto t .idle).pins u = s.pins u :=
    fun u hu => Function.update_of_ne hu ..
  have hpins' :
      (((s.write t ep i w).setPins t ep l).goto t .idle).pins t = Function.update (s.pins t) ep l :=
    Function.update_self ..
  have hword : ∀ ep' j, (((s.write t ep i w).setPins t ep l).goto t .idle).threadEpoch ep' j =
    (s.write t ep i w).threadEpoch ep' j := fun _ _ => rfl
  refine ⟨h.tids, fun u ep' j hu => ?_, fun u ep' e hu => ?_, fun u ep' => ?_⟩
  · have hut : u ≠ t := by
      rintro rfl
      rw [hloc'] at hu
      cases hu
    rw [hloc u hut] at hu
    exact h.register u ep' j hu
  · have hut : u ≠ t := by
      rintro rfl
      rw [hloc'] at hu
      rcases hu with hu | hu <;> cases hu
    rw [hloc u hut] at hu
    rw [hpins u hut]
    exact h.calling u ep' e hu
  · by_cases hut : u = t
    · subst hut
      rw [hpins']
      by_cases hep : ep' = ep
      · subst hep
        rw [Function.update_self]
        rcases hl with hl | hl
        · exact .inl hl
        · refine .inr ⟨i, ht, ?_⟩
          rw [hword, write_self]
          exact hl
      · rw [Function.update_of_ne hep]
        rcases h.pins u ep' with hp | ⟨j, hj, hp⟩
        · exact .inl hp
        · refine .inr ⟨j, hj, ?_⟩
          rw [hword, write_ne (.inl hep)]
          exact hp
    · rw [hpins u hut]
      rcases h.pins u ep' with hp | ⟨j, hj, hp⟩
      · exact .inl hp
      · refine .inr ⟨j, hj, ?_⟩
        have hji : j ≠ i := by
          rintro rfl
          exact hut (h.tids u t j hj ht)
        rw [hword, write_ne (.inr hji)]
        exact hp

/-- A thread that has pinned nothing detaches. -/
lemma Owned.detach {r : ℕ → ℕ → Bool} (h : Owned s) (hp : ∀ ep, s.pins t ep = []) :
    Owned { s.setTid t none with used := r } := by
  have htid : (s.setTid t none).tid t = none := Function.update_self ..
  have htid' :
      ∀ u, u ≠ t → (s.setTid t none).tid u = s.tid u := fun u hu => Function.update_of_ne hu ..
  have hsome : ∀ u i, (s.setTid t none).tid u = some i → u ≠ t ∧ s.tid u = some i := by
    intro u i hu
    have hut : u ≠ t := by
      rintro rfl
      rw [htid] at hu
      cases hu
    exact ⟨hut, (htid' u hut).symm.trans hu⟩
  refine ⟨fun u v i hu hv => h.tids u v i (hsome u i hu).2 (hsome v i hv).2, fun u ep i hu => ?_,
    h.calling, fun u ep => ?_⟩
  · by_cases hut : u = t
    · subst hut
      exact htid
    · exact (htid' u hut).trans (h.register u ep i hu)
  · by_cases hut : u = t
    · subst hut
      exact .inl (hp ep)
    · rcases h.pins u ep with hp | ⟨i, hi, hp⟩
      · exact .inl hp
      · exact .inr ⟨i, (htid' u hut).trans hi, hp⟩

/-- A step in which no index is taken over keeps the slots owned. -/
lemma Owned.step {v : SlotMove} (h : Owned s) (ha : Allowed s t v) (hr : Registers s t v)
    (hs : s.step t v = some s') :
    Owned s' := by
  rw [Slots.step] at hs
  split at hs
  case isTrue hv =>
    subst hv
    -- a call goes on
    cases hl : s.loc t with
    | idle => rw [hl] at hs; cases hs
    | register ep i =>
      rw [hl, Slots.go] at hs
      split at hs
      · split at hs
        case isTrue hw =>
          cases hs
          exact h.claim hl fun u hu hi => hr ep i u hl hu hi hw
        case isFalse =>
          cases hs
          exact h.goto (fun _ _ _ => h.register t ep i hl) nofun
      · cases hs
        exact h.goto nofun nofun
    | load ep =>
      rw [hl] at hs
      cases hs
      refine h.goto nofun fun ep' e he => ?_
      rcases he with he | he <;> cases he
      exact h.calling t ep 0 (.inl hl)
    | store ep e =>
      rw [hl, Slots.go] at hs
      split at hs
      case h_1 i ht =>
        cases hs
        refine h.write ht (.inr ?_)
        rw [h.calling t ep e (.inr hl)]
      case h_2 => cases hs
  case isFalse =>
    split at hs
    case isFalse => cases hs
    case isTrue hl =>
      -- a call begins
      cases v with
      | pin ep =>
        rw [Slots.begin] at hs
        have hp : s.pins t ep = [] := hr
        split at hs
        · cases hs
          refine h.goto nofun fun ep' e he => ?_
          rcases he with he | he <;> cases he
          exact hp
        case h_2 ht =>
          cases hs
          exact h.goto (fun _ _ _ => ht) nofun
      | unpin ep =>
        rw [Slots.begin] at hs
        split at hs
        case h_1 i ht =>
          cases hs
          -- a thread has one pin at most, so that none is left
          have htail : (s.pins t ep).tail = [] := by
            rcases h.pins t ep with hp | ⟨j, -, hp⟩ <;> rw [hp] <;> rfl
          have hown : Owned (((s.write t ep i 0).setPins t ep (s.pins t ep).tail).goto t .idle) :=
            h.write ht (.inl htail)
          have heq : ((s.write t ep i 0).setPins t ep (s.pins t ep).tail).goto t .idle =
              (s.write t ep i 0).setPins t ep (s.pins t ep).tail := by
            unfold Slots.goto
            rw [← hl]
            exact congrArg
              (fun l => ({ (s.write t ep i 0).setPins t ep (s.pins t ep).tail with loc := l } :
                Slots))
              (Function.update_eq_self t s.loc)
          rwa [heq] at hown
        case h_2 =>
          cases hs
          exact h
      | detach =>
        cases hs
        exact h.detach ha
      | advance ep =>
        cases hs
        exact ⟨h.tids, h.register, h.calling, h.pins⟩
      | go => cases hs

/-- In every run in which a thread tries a slot only when the other threads with its index are
pinned at the table, and no thread pins a table twice, the slots are exclusive and hold the epochs
pinned. -/
theorem slots_exclusive (h : s.RegisterReach) : s.Exclusive := by
  have hown : Owned s := by
    induction h with
    | create => exact ⟨nofun, nofun, fun t ep e he => rfl, fun _ _ => .inl rfl⟩
    | step _ ha hr hs ih => exact ih.step ha hr hs
  exact hown.exclusive

/-- A schedule is run. -/
abbrev Slots.run (s : Slots) (l : List (ℕ × SlotMove)) : Option Slots :=
  Schedule.run (fun s a => s.step a.1 a.2) s l

/-- A schedule in which no thread detaches leads to a reachable state. -/
lemma Slots.Reach.run {l : List (ℕ × SlotMove)} (h : s.Reach) (hl : ∀ a ∈ l, a.2 ≠ .detach)
    (hs : s.run l = some s') :
    s'.Reach := by
  induction l generalizing s with
  | nil =>
    cases hs
    exact h
  | cons a l ih =>
    obtain ⟨t, v⟩ := a
    obtain ⟨s₁, hs₁, hs⟩ := Option.bind_eq_some_iff.mp hs
    have hv : v ≠ .detach := hl _ (List.mem_cons_self ..)
    have ha : Allowed s t v := by
      cases v with
      | detach => exact absurd rfl hv
      | _ => trivial
    exact ih (h.step ha hs₁) (fun b hb => hl b (List.mem_cons_of_mem _ hb)) hs

/-- Two threads pin the table 0; the second one tries the slot of the first, and takes the next. -/
def twoReaders : List (ℕ × SlotMove) :=
  [(0, .pin 0), (0, .go), (0, .go), (0, .go), (1, .pin 0), (1, .go), (1, .go), (1, .go), (1, .go)]

/-- Two readers in slots of their own. -/
theorem slots_exclusive_two :
    ∃ s, Slots.create.run twoReaders = some s ∧ s.tid 0 = some 0 ∧ s.tid 1 = some 1 ∧
    s.pins 0 0 = [1] ∧ s.Exclusive := by
  refine ⟨_, rfl, rfl, rfl, rfl, slots_exclusive ?_⟩
  have hbegin : Slots.RegisterReach _ := .step (t := 0) (v := .pin 0) .create trivial rfl rfl
  have hclaim :=
    Slots.RegisterReach.step (t := 0) (v := .go) hbegin trivial
    (fun ep i u _ _ hu => nomatch hu) rfl
  have hload :=
    Slots.RegisterReach.step (t := 0) (v := .go) hclaim trivial (fun ep i u hl => nomatch hl) rfl
  have hstore :=
    Slots.RegisterReach.step (t := 0) (v := .go) hload trivial (fun ep i u hl => nomatch hl) rfl
  have hpin := Slots.RegisterReach.step (t := 1) (v := .pin 0) hstore trivial rfl rfl
  have htry :=
    Slots.RegisterReach.step (t := 1) (v := .go) hpin trivial
    (fun ep i u hl _ _ hw => by cases hl; cases hw) rfl
  have hclaim' :=
    Slots.RegisterReach.step (t := 1) (v := .go) htry trivial (fun ep i u hl _ hu => by
    cases hl
    -- the only index taken so far is 0
    by_cases h0 : u = 0
    · subst h0
      cases hu
    · have hnone : Function.update (fun _ : ℕ => (none : Option ℕ)) 0 (some 0) u = none :=
        Function.update_of_ne h0 ..
      exact nomatch hnone.symm.trans hu) rfl
  have hload' :=
    Slots.RegisterReach.step (t := 1) (v := .go) hclaim' trivial (fun ep i u hl => nomatch hl) rfl
  exact Slots.RegisterReach.step (t := 1) (v := .go) hload' trivial
    (fun ep i u hl => nomatch hl) rfl

/-- A thread pins and unpins the table 0, a second one claims its slot, both are pinned there, and
the second unpins. -/
def sharedSlot : List (ℕ × SlotMove) :=
  [(0, .pin 0), (0, .go), (0, .go), (0, .go), (0, .unpin 0), (1, .pin 0), (1, .go), (1, .go),
    (1, .go), (0, .pin 0), (0, .go), (0, .go), (1, .unpin 0)]

/-- A thread that pins again after another one took its slot: both use slot 0. -/
theorem slots_shared :
    ∃ s, Slots.create.run sharedSlot = some s ∧ s.Reach ∧ s.Uses 0 0 0 ∧ s.Uses 1 0 0 ∧
    1 ∈ s.pins 0 0 ∧ s.threadEpoch 0 0 = 0 ∧ ¬s.Exclusive := by
  have hrun : ∃ s, Slots.create.run sharedSlot = some s ∧ s.Uses 0 0 0 ∧ s.Uses 1 0 0 ∧
    1 ∈ s.pins 0 0 ∧
      s.threadEpoch 0 0 = 0 :=
    ⟨_, rfl, ⟨rfl, rfl⟩, ⟨rfl, rfl⟩, List.mem_singleton_self 1, rfl⟩
  obtain ⟨s, hs, h0, h1, hp, hw⟩ := hrun
  refine ⟨s, hs, Slots.Reach.create.run (by decide) hs, h0, h1, hp, hw, fun he => ?_⟩
  exact absurd (he.slots 0 1 0 0 h0 h1) (by decide)

end Draugr.Epoch
