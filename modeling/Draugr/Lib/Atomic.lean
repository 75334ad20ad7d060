import Mathlib.Data.Finset.Union
import Mathlib.Data.Set.Insert
import Mathlib.Logic.Function.Basic

/-!
# Linearizable objects

Any number of threads use one object. `spec x o r y` says that in the state `x` the operation `o`
may answer `r` and lead to the state `y`. In a run of the atomic object every operation takes effect
in one indivisible step between its call and its return; a list of calls and returns is linearizable
when it is that of such a run.

`Account` is what a simulation keeps. Operations that change the object take effect at a known step.
One that only reads may settle later which answer it gives: `seen i` holds the answers that were
right at some moment since thread `i` made its call, and every choice among them extends to a run of
the atomic object.
-/

namespace Draugr.Lib.Atomic

/-- What the threads see of the object. -/
inductive Event (ο ρ : Type*) where
  | call (i : ℕ) (o : ο)
  | ret (i : ℕ) (o : ο) (r : ρ)

/-- How far the operation of a thread has come. -/
inductive Status (ο ρ : Type*) where
  | idle
  | pending (o : ο)
  /-- The operation has taken effect with an answer. -/
  | done (o : ο) (r : ρ)

/-- The atomic object. -/
structure State (σ ο ρ : Type*) where
  obj : σ
  status : ℕ → Status ο ρ

variable {σ ο ρ : Type*} {spec : σ → ο → ρ → σ → Prop} {x₀ x y : σ} {es : List (Event ο ρ)}
  {st st' : ℕ → Status ο ρ}
  {seen : ℕ → Set ρ} {i : ℕ} {o : ο} {r : ρ}

/-- The object before its first call. -/
def State.start (x : σ) : State σ ο ρ := ⟨x, fun _ => .idle⟩

/-- The runs of the atomic object, with the calls and returns in them. -/
inductive Run (spec : σ → ο → ρ → σ → Prop) (a : State σ ο ρ) : List (Event ο ρ) → State σ ο ρ →
  Prop where
  | nil : Run spec a [] a
  | call {es b} (i : ℕ) (o : ο) : Run spec a es b → b.status i = .idle →
      Run spec a (es ++ [.call i o]) ⟨b.obj, Function.update b.status i (.pending o)⟩
  | commit {es b} (i : ℕ) (o : ο) (r : ρ) (y : σ) : Run spec a es b → b.status i = .pending o →
    spec b.obj o r y →
      Run spec a es ⟨y, Function.update b.status i (.done o r)⟩
  | ret {es b} (i : ℕ) (o : ο) (r : ρ) : Run spec a es b → b.status i = .done o r →
      Run spec a (es ++ [.ret i o r]) ⟨b.obj, Function.update b.status i .idle⟩

/-- The calls and returns are those of a run of the atomic object. -/
def Linearizable (spec : σ → ο → ρ → σ → Prop) (x₀ : σ) (es : List (Event ο ρ)) : Prop :=
  ∃ b, Run spec (.start x₀) es b

/-- A pending operation takes effect with an answer. -/
def Status.answer : Status ο ρ → ρ → Status ο ρ
  | .pending o, r => .done o r
  | s, _ => s

/-- The operations of the threads in `js` take effect with the answers `f`. -/
def answered (st : ℕ → Status ο ρ) (js : Finset ℕ) (f : ℕ → ρ) (i : ℕ) : Status ο ρ :=
  if i ∈ js then (st i).answer (f i) else st i

/-- The calls and returns `es` lead to the state `x` and to where the threads are, whatever answers
that were seen the readers settle on. -/
def Account (spec : σ → ο → ρ → σ → Prop) (x₀ : σ) (es : List (Event ο ρ)) (x : σ)
    (st : ℕ → Status ο ρ) (seen : ℕ → Set ρ) : Prop :=
  ∀ (js : Finset ℕ) (f : ℕ → ρ),
    (∀ i ∈ js, f i ∈ seen i) → Run spec (.start x₀) es ⟨x, answered st js f⟩

/-! ## Threads that answer -/

/-- An operation that is answered. -/
lemma answered_of_mem {js : Finset ℕ} {f : ℕ → ρ} (h : i ∈ js) :
    answered st js f i = (st i).answer (f i) := if_pos h

/-- An operation that is not answered. -/
lemma answered_of_notMem {js : Finset ℕ} {f : ℕ → ρ} (h : i ∉ js) : answered st js f i = st i :=
  if_neg h

/-- Without answers nothing changes. -/
lemma answered_empty (st : ℕ → Status ο ρ) (f : ℕ → ρ) : answered st ∅ f = st :=
  funext fun _ => answered_of_notMem (Finset.notMem_empty _)

/-- A thread that is moved apart from those that answer. -/
lemma answered_update {js : Finset ℕ} {f : ℕ → ρ} {s : Status ο ρ}
    (hs : i ∈ js → s.answer (f i) = s) :
    answered (Function.update st i s) js f = Function.update (answered st (js.erase i) f) i s := by
  funext j
  by_cases hj : j = i
  · subst hj
    by_cases hm : j ∈ js
    · rw [answered_of_mem hm, Function.update_self, Function.update_self, hs hm]
    · rw [answered_of_notMem hm, Function.update_self, Function.update_self]
  · by_cases hm : j ∈ js
    · rw [Function.update_of_ne hj, answered_of_mem hm, Function.update_of_ne hj,
        answered_of_mem (Finset.mem_erase.mpr ⟨hj, hm⟩)]
    · rw [Function.update_of_ne hj, answered_of_notMem hm, Function.update_of_ne hj,
        answered_of_notMem fun h => hm (Finset.mem_of_mem_erase h)]

/-- One more thread answers. -/
lemma answered_insert {js : Finset ℕ} {f : ℕ → ρ} (hi : i ∉ js) :
    answered st (insert i js) f = Function.update (answered st js f) i ((st i).answer (f i)) := by
  funext j
  by_cases hj : j = i
  · subst hj
    rw [answered_of_mem (Finset.mem_insert_self ..), Function.update_self]
  · rw [Function.update_of_ne hj]
    by_cases hm : j ∈ js
    · rw [answered_of_mem hm, answered_of_mem (Finset.mem_insert_of_mem hm)]
    · rw [answered_of_notMem hm, answered_of_notMem]
      rw [Finset.mem_insert]
      exact not_or.mpr ⟨hj, hm⟩

/-! ## What keeps an account -/

/-- No thread has made a call. -/
lemma Account.start (spec : σ → ο → ρ → σ → Prop) (x₀ : σ) :
    Account spec x₀ [] x₀ (fun _ => .idle) (fun _ => (∅ : Set ρ)) := by
  intro js f hf
  have hjs : js = ∅ := Finset.eq_empty_of_forall_notMem fun i hi => hf i hi
  subst hjs
  rw [answered_empty]
  exact .nil

/-- The answers that are right now are seen by the readers whose operation is pending. -/
lemma Account.observe (h : Account spec x₀ es x st seen) :
    Account spec x₀ es x st fun i => seen i ∪ {r | ∃ o, st i = .pending o ∧ spec x o r x} := by
  classical
  intro js f hf
  -- the threads that settle on an answer seen only now do so after the others, one by one
  let old := js.filter fun i => f i ∈ seen i
  have hold : Run spec (.start x₀) es ⟨x, answered st old f⟩ :=
    h old f fun i hi => (Finset.mem_filter.mp hi).2
  have hnew : ∀ s ⊆ js \ old, Run spec (.start x₀) es ⟨x, answered st (s ∪ old) f⟩ := by
    intro s
    induction s using Finset.induction_on with
    | empty =>
      intro _
      rw [Finset.empty_union]
      exact hold
    | insert i s hi ih =>
      intro hs
      have hij := Finset.mem_sdiff.mp (hs (Finset.mem_insert_self i s))
      have hio : i ∉ s ∪ old := by
        rw [Finset.mem_union]
        exact not_or.mpr ⟨hi, hij.2⟩
      rw [Finset.insert_union, answered_insert hio]
      have hrun := ih ((Finset.subset_insert i s).trans hs)
      rcases hf i hij.1 with hr | ⟨o, ho, hr⟩
      · exact absurd (Finset.mem_filter.mpr ⟨hij.1, hr⟩) hij.2
      · rw [ho]
        exact hrun.commit i o (f i) x ((answered_of_notMem hio).trans ho) hr
  have hjs : js \ old ∪ old = js := Finset.sdiff_union_of_subset (Finset.filter_subset ..)
  have := hnew (js \ old) (Finset.Subset.refl _)
  rwa [hjs] at this

/-- A thread calls. -/
lemma Account.call (h : Account spec x₀ es x st seen) (hi : st i = .idle) (o : ο) :
    Account spec x₀ (es ++ [.call i o]) x (Function.update st i (.pending o))
      (Function.update seen i ∅) := by
  intro js f hf
  have hnot : i ∉ js := by
    intro hm
    have := hf i hm
    rw [Function.update_self] at this
    exact this
  rw [answered_update fun hm => absurd hm hnot]
  refine Run.call i o (h (js.erase i) f fun j hj => ?_)
    ((answered_of_notMem (Finset.notMem_erase i js)).trans hi)
  have := hf j (Finset.mem_of_mem_erase hj)
  rwa [Function.update_of_ne (Finset.ne_of_mem_erase hj)] at this

/-- The operation of a thread takes effect. -/
lemma Account.commit (h : Account spec x₀ es x st seen) (hi : st i = .pending o)
    (hr : spec x o r y) :
    Account spec x₀ es y (Function.update st i (.done o r)) seen := by
  intro js f hf
  rw [answered_update fun _ => rfl]
  exact Run.commit i o r y (h (js.erase i) f fun j hj => hf j (Finset.mem_of_mem_erase hj))
    ((answered_of_notMem (Finset.notMem_erase i js)).trans hi) hr

/-- An operation that has taken effect returns. -/
lemma Account.ret (h : Account spec x₀ es x st seen) (hi : st i = .done o r) :
    Account spec x₀ (es ++ [.ret i o r]) x (Function.update st i .idle) seen := by
  intro js f hf
  rw [answered_update fun _ => rfl]
  exact Run.ret i o r (h (js.erase i) f fun j hj => hf j (Finset.mem_of_mem_erase hj))
    ((answered_of_notMem (Finset.notMem_erase i js)).trans hi)

/-- An operation that only reads returns an answer that it has seen. -/
lemma Account.retSeen (h : Account spec x₀ es x st seen) (hi : st i = .pending o)
    (hr : r ∈ seen i) :
    Account spec x₀ (es ++ [.ret i o r]) x (Function.update st i .idle) seen := by
  intro js f hf
  rw [answered_update fun _ => rfl]
  have hrun := h (insert i (js.erase i)) (Function.update f i r) fun j hj => by
    rcases Finset.mem_insert.mp hj with rfl | hj
    · rwa [Function.update_self]
    · rw [Function.update_of_ne (Finset.ne_of_mem_erase hj)]
      exact hf j (Finset.mem_of_mem_erase hj)
  have he : answered st (insert i (js.erase i)) (Function.update f i r) =
      Function.update (answered st (js.erase i) f) i (.done o r) := by
    rw [answered_insert (Finset.notMem_erase i js), hi, Function.update_self]
    refine congrArg (Function.update · i _) (funext fun j => ?_)
    by_cases hj : j ∈ js.erase i
    · rw [answered_of_mem hj, answered_of_mem hj, Function.update_of_ne (Finset.ne_of_mem_erase hj)]
    · rw [answered_of_notMem hj, answered_of_notMem hj]
  rw [he] at hrun
  have := Run.ret i o r hrun (Function.update_self ..)
  rwa [Function.update_idem] at this

/-- Calls and returns with an account are linearizable. -/
lemma Account.linearizable (h : Account spec x₀ es x st seen) (f : ℕ → ρ) :
    Linearizable spec x₀ es :=
  ⟨_, h ∅ f fun i hi => absurd hi (Finset.notMem_empty i)⟩

end Draugr.Lib.Atomic
