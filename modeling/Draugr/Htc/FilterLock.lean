import Draugr.Htc.Filter
import Draugr.Lib.Atomic
import Draugr.Lib.Schedule

/-!
# The filter with a lock

`htc_filter_insert`, `htc_filter_lookup` and `htc_filter_delete` exchange the lock word until they
find it clear, call the wrapped filter, and clear the word. A call of the wrapped filter is not
atomic: it reads the filter and writes what it makes of it later, so that two calls at the same time
would lose a change. The threads take turns in any order.
-/

namespace Draugr.Htc
open Draugr.Lib Draugr.Lib.Atomic

/-- A call of the wrapper. -/
inductive FilterCall where
  | insert (h : ℕ)
  | lookup (h : ℕ)
  | delete (h : ℕ)

/-- The call of the wrapped filter. -/
def FilterCall.inner {σ : Type*} (F : AmqFilter σ) (x : σ) : FilterCall → Bool × σ
  | .insert h => F.insert x h
  | .lookup h => (F.lookup x h, x)
  | .delete h => F.delete x h

/-- Where a thread is. -/
inductive FilterStage (σ : Type*) where
  | idle
  /-- Before an exchange of the lock word. -/
  | spinning (c : FilterCall)
  /-- The exchange found the word clear. -/
  | locked (c : FilterCall)
  /-- The wrapped filter was read. -/
  | inside (c : FilterCall) (read : σ)
  /-- The wrapped filter has returned. -/
  | written (c : FilterCall) (r : Bool)
  /-- The word was cleared. -/
  | unlocked (c : FilterCall) (r : Bool)

/-- `htc_filter_t` with its threads, and the calls and returns so far. -/
structure LockedFilter (σ : Type*) where
  lock : Bool
  inner : σ
  stage : ℕ → FilterStage σ
  trace : List (Event FilterCall Bool)

/-- A thread makes a call, or goes on. -/
inductive FilterAct where
  | call (i : ℕ) (c : FilterCall)
  | go (i : ℕ)

/-- `htc_filter_create`. -/
def htcFilterCreate {σ : Type*} (x : σ) : LockedFilter σ := ⟨false, x, fun _ => .idle, []⟩

/-- What an act does. -/
def LockedFilter.step {σ : Type*} (F : AmqFilter σ) (m : LockedFilter σ) :
    FilterAct → Option (LockedFilter σ)
  | .call i c =>
    match m.stage i with
    | .idle => some { m with
        stage := Function.update m.stage i (.spinning c), trace := m.trace ++ [.call i c] }
    | _ => none
  | .go i =>
    match m.stage i with
    | .idle => none
    | .spinning c =>
      -- the lock is taken by one exchange; a thread that fails spins
      if m.lock then some m
      else some { m with lock := true, stage := Function.update m.stage i (.locked c) }
    | .locked c => some { m with stage := Function.update m.stage i (.inside c m.inner) }
    | .inside c x =>
      some { m with
        inner := (c.inner F x).2
        stage := Function.update m.stage i (.written c (c.inner F x).1) }
    | .written c r =>
      some { m with lock := false, stage := Function.update m.stage i (.unlocked c r) }
    | .unlocked c r =>
      some { m with stage := Function.update m.stage i .idle, trace := m.trace ++ [.ret i c r] }

/-- The wrapped filter as an atomic object. -/
def FilterSpec {σ : Type*} (F : AmqFilter σ) (x : σ) (c : FilterCall) (r : Bool) (y : σ) : Prop :=
  c.inner F x = (r, y)

section

variable {σ : Type*} {F : AmqFilter σ} {f₀ : σ} {m m' : LockedFilter σ} {s : FilterStage σ}
  {i j : ℕ}

/-- A thread between its exchange and the clearing of the word. -/
def FilterStage.critical : FilterStage σ → Bool
  | .locked _ | .inside _ _ | .written _ _ => true
  | _ => false

/-- How far the call of a thread has come. -/
def FilterStage.status : FilterStage σ → Status FilterCall Bool
  | .idle => .idle
  | .spinning c | .locked c | .inside c _ => .pending c
  | .written c r | .unlocked c r => .done c r

/-- One thread at most is critical, what it has read is still there, and the calls so far are those
of the atomic filter. -/
structure LockedFilter.Sound (F : AmqFilter σ) (f₀ : σ) (m : LockedFilter σ) : Prop where
  flag : ∀ i, (m.stage i).critical = true → m.lock = true
  one : ∀ i j, (m.stage i).critical = true → (m.stage j).critical = true → i = j
  read : ∀ i c x, m.stage i = .inside c x → x = m.inner
  account : Account (FilterSpec F) f₀ m.trace m.inner (fun i => (m.stage i).status) fun _ => ∅

/-- A thread that changes its stage changes its status only. -/
lemma filterStatus_update (m : LockedFilter σ) (i : ℕ) (s : FilterStage σ) :
    (fun j => (Function.update m.stage i s j).status) =
      Function.update (fun j => (m.stage j).status) i s.status :=
  funext fun j => Function.apply_update (fun _ => FilterStage.status) m.stage i s j

/-- A step inside of a call. -/
lemma status_same (h : s.status = (m.stage i).status) :
    (fun j => (Function.update m.stage i s j).status) = fun j => (m.stage j).status := by
  rw [filterStatus_update, h]
  exact Function.update_eq_self i _

/-- The critical threads after one has moved that is critical as before, or neither before nor
after. -/
lemma critical_update (hs : s.critical = true → (m.stage i).critical = true)
    (hj : (Function.update m.stage i s j).critical = true) : (m.stage j).critical = true := by
  by_cases hji : j = i
  · subst hji
    rw [Function.update_self] at hj
    exact hs hj
  · rwa [Function.update_of_ne hji] at hj

/-- A thread that reads or moves outside of the lock. -/
lemma LockedFilter.Sound.move (hm : m.Sound F f₀)
    (hs : s.critical = true → (m.stage i).critical = true)
    (hr : ∀ c x, s = .inside c x → x = m.inner) {es : List (Event FilterCall Bool)}
    (ha : Account (FilterSpec F) f₀ es m.inner
      (Function.update (fun j => (m.stage j).status) i s.status) fun _ => ∅) :
    LockedFilter.Sound F f₀ { m with stage := Function.update m.stage i s, trace := es } := by
  refine ⟨fun j hj => hm.flag j (critical_update hs hj),
    fun j k hj hk => hm.one j k (critical_update hs hj) (critical_update hs hk),
    fun j c x hj => ?_, ?_⟩
  · change Function.update m.stage i s j = _ at hj
    by_cases hji : j = i
    · rw [hji, Function.update_self] at hj
      exact hr c x hj
    · rw [Function.update_of_ne hji] at hj
      exact hm.read j c x hj
  · rw [← filterStatus_update] at ha
    exact ha

/-- Taking the lock. -/
lemma LockedFilter.Sound.take (hm : m.Sound F f₀) (hl : m.lock = false) {c : FilterCall}
    (hi : m.stage i = .spinning c) :
    LockedFilter.Sound F f₀
      { m with lock := true, stage := Function.update m.stage i (.locked c) } := by
  -- nobody is critical while the word is clear
  have hno : ∀ j, (m.stage j).critical ≠ true := by
    intro j hj
    rw [hm.flag j hj] at hl
    cases hl
  have honly : ∀ j, (Function.update m.stage i (.locked c) j).critical = true → j = i := by
    intro j hj
    by_contra hji
    rw [Function.update_of_ne hji] at hj
    exact hno j hj
  refine ⟨fun _ _ => rfl, fun j k hj hk => (honly j hj).trans (honly k hk).symm,
    fun j d x hj => ?_, ?_⟩
  · change Function.update m.stage i _ j = _ at hj
    by_cases hji : j = i
    · rw [hji, Function.update_self] at hj
      cases hj
    · rw [Function.update_of_ne hji] at hj
      exact hm.read j d x hj
  · have := hm.account
    rwa [← status_same (s := .locked c) (by rw [hi]; rfl)] at this

/-- The wrapped filter returns. -/
lemma LockedFilter.Sound.write (hm : m.Sound F f₀) {c : FilterCall} {x : σ}
    (hi : m.stage i = .inside c x) :
    LockedFilter.Sound F f₀
      { m with
        inner := (c.inner F x).2
        stage := Function.update m.stage i (.written c (c.inner F x).1) } := by
  obtain rfl := hm.read i c x hi
  have hcrit : (m.stage i).critical = true := by rw [hi]; rfl
  refine ⟨fun j hj => hm.flag j (critical_update (fun _ => hcrit) hj),
    fun j k hj hk => hm.one j k (critical_update (fun _ => hcrit) hj)
      (critical_update (fun _ => hcrit) hk),
    fun j d y hj => ?_, ?_⟩
  · change Function.update m.stage i _ j = _ at hj
    by_cases hji : j = i
    · rw [hji, Function.update_self] at hj
      cases hj
    · -- another thread that has read the filter would be critical too
      rw [Function.update_of_ne hji] at hj
      exact absurd (hm.one j i (by rw [hj]; rfl) hcrit) hji
  · have := hm.account.commit (i := i) (o := c) (by rw [hi]; rfl)
      (show FilterSpec F m.inner c (c.inner F m.inner).1 (c.inner F m.inner).2 from rfl)
    exact (filterStatus_update m i (.written c (c.inner F m.inner).1)).symm ▸ this

/-- Clearing the lock. -/
lemma LockedFilter.Sound.give (hm : m.Sound F f₀) {c : FilterCall} {r : Bool}
    (hi : m.stage i = .written c r) :
    LockedFilter.Sound F f₀
      { m with lock := false, stage := Function.update m.stage i (.unlocked c r) } := by
  have hcrit : (m.stage i).critical = true := by rw [hi]; rfl
  have hno : ∀ j, (Function.update m.stage i (.unlocked c r) j).critical ≠ true := by
    intro j hj
    have hji : j = i := hm.one j i (critical_update (fun h => by cases h) hj) hcrit
    rw [hji, Function.update_self] at hj
    cases hj
  refine ⟨fun j hj => absurd hj (hno j), fun j k hj => absurd hj (hno j), fun j d x hj => ?_, ?_⟩
  · change Function.update m.stage i _ j = _ at hj
    exact absurd (by rw [hj]; rfl) (hno j)
  · have := hm.account
    rwa [← status_same (s := .unlocked c r) (by rw [hi]; rfl)] at this

/-- Every act keeps the invariant. -/
lemma LockedFilter.Sound.step (hm : m.Sound F f₀) {a : FilterAct} (hs : m.step F a = some m') :
    m'.Sound F f₀ := by
  cases a with
  | call i c =>
    rw [LockedFilter.step] at hs
    cases hi : m.stage i with
    | idle =>
      rw [hi] at hs
      cases hs
      refine hm.move (fun h => by cases h) (fun _ _ h => by cases h) ?_
      have := hm.account.call (i := i) (by rw [hi]; rfl) c
      rwa [Function.update_eq_self] at this
    | _ =>
      rw [hi] at hs
      cases hs
  | go i =>
    rw [LockedFilter.step] at hs
    cases hi : m.stage i with
    | idle =>
      rw [hi] at hs
      cases hs
    | spinning c =>
      rw [hi] at hs
      dsimp only at hs
      split at hs
      · cases hs
        exact hm
      · next hl =>
        cases hs
        exact hm.take (Bool.not_eq_true _ ▸ hl) hi
    | locked c =>
      rw [hi] at hs
      cases hs
      refine hm.move (fun _ => by rw [hi]; rfl) (fun d x h => by cases h; rfl) ?_
      rw [← filterStatus_update, status_same (by rw [hi]; rfl)]
      exact hm.account
    | inside c x =>
      rw [hi] at hs
      cases hs
      exact hm.write hi
    | written c r =>
      rw [hi] at hs
      cases hs
      exact hm.give hi
    | unlocked c r =>
      rw [hi] at hs
      cases hs
      refine hm.move (fun h => by cases h) (fun _ _ h => by cases h) ?_
      exact hm.account.ret (i := i) (by rw [hi]; rfl)

/-- A new wrapper. -/
lemma sound_create (F : AmqFilter σ) (f₀ : σ) : (htcFilterCreate f₀).Sound F f₀ :=
  ⟨fun _ h => (by cases h), fun _ _ h => (by cases h), fun _ _ _ h => (by cases h),
    .start (FilterSpec F) f₀⟩

end

/-- In every order in which any number of threads take the steps of their calls, one thread at most
is between its exchange and the clearing of the word, and the calls and their results are those of
an atomic filter: no insertion and no deletion is lost. -/
theorem htcFilter_linearizable {σ : Type*} (F : AmqFilter σ) (f₀ : σ) (as : List FilterAct)
    (m : LockedFilter σ)
    (hm : Schedule.run (LockedFilter.step F) (htcFilterCreate f₀) as = some m) :
    Linearizable (FilterSpec F) f₀ m.trace ∧
      ∀ i j, (m.stage i).critical = true → (m.stage j).critical = true → i = j := by
  have hs : m.Sound F f₀ :=
    Schedule.run_keeps (P := fun _ _ => True) (fun _ _ _ hi _ h => hi.step h) (sound_create F f₀)
      (Schedule.along_of_forall (fun _ _ => trivial) as _) hm
  exact ⟨hs.account.linearizable fun _ => true, hs.one⟩

/-- A thread inserts a hash while another looks for it. -/
theorem htcFilter_linearizable_two :
    let as : List FilterAct :=
      [.call 0 (.insert 5), .call 1 (.lookup 5), .go 0, .go 1, .go 0, .go 1, .go 0, .go 0, .go 1,
      .go 0, .go 1, .go 1, .go 1, .go 1]
    ∃ m, Schedule.run (LockedFilter.step (listFilter 2)) (htcFilterCreate []) as = some m ∧
      m.inner = [5] ∧
      Linearizable (FilterSpec (listFilter 2)) [] m.trace := by
  intro as
  have hrun : (Schedule.run (LockedFilter.step (listFilter 2)) (htcFilterCreate []) as).map
      LockedFilter.inner = some [5] := by
    decide +kernel
  obtain ⟨m, hm, hi⟩ := Option.map_eq_some_iff.mp hrun
  exact ⟨m, hm, hi, (htcFilter_linearizable (listFilter 2) [] as m hm).1⟩

end Draugr.Htc
