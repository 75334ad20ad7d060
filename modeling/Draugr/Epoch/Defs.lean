import Draugr.Lib.Schedule
import Draugr.Lib.Segments
import Mathlib.Tactic

/-!
# Epoch-based retirement

The calls `htc_epoch_pin`, `htc_epoch_unpin`, `htc_epoch_retire`, `htc_epoch_retire_gen`,
`htc_epoch_advance` and `htc_epoch_collect` of one `htc_epoch_ctl_t` as a step relation over any
number of threads. A step is one atomic load, store, exchange or compare-and-swap, together with the
plain accesses to nodes that the thread owns. The retire list of records and that of generations are
two stacks of nodes in one memory. A thread with a number below `HTC_EPOCH_MAX_THREADS` owns the
slot of its number; a thread above it has no slot, and its pins return 0.

The fields below `loc` are not in the source. They record which nodes are allocated, which threads
are pinned, which of them were pinned when a node was retired, and how often a node was pushed and
freed.
-/

namespace Draugr.Epoch
open Draugr.Lib

/-- `HTC_EPOCH_MAX_THREADS`. -/
def epochMaxThreads : ℕ := 64

/-- The two retire lists: `retire_head` holds records and custom objects, `retire_gen_head`
generations. -/
inductive Kind where
  | record
  | gen
  deriving DecidableEq, Repr

/-- Where a thread is in its call, with the call's local variables. -/
inductive Local where
  /-- between two calls -/
  | idle
  /-- `htc_epoch_pin` has loaded the epoch `e` -/
  | pin (e : ℕ)
  /-- `htc_epoch_retire` has filled the node `n` -/
  | retire (k : Kind) (n : ℕ)
  /-- the push loop with its expected head -/
  | push (k : Kind) (n : ℕ) (old : Option ℕ)
  /-- `htc_epoch_collect` is about to read slot `i` -/
  | scan (i minEp : ℕ)
  /-- about to exchange the head of a list -/
  | pop (k : Kind) (minEp : ℕ)
  /-- splitting the list taken -/
  | split (k : Kind) (minEp : ℕ) (cur keep tail free : Option ℕ)
  /-- freeing the free list (that of generations is empty: they are freed while splitting) -/
  | release (k : Kind) (minEp : ℕ) (free keep tail : Option ℕ)
  /-- the loop that pushes the keep list back -/
  | repush (k : Kind) (minEp : ℕ) (keep tail : ℕ) (old : Option ℕ)
  deriving DecidableEq, Repr

/-- `htc_epoch_ctl_t`, the links and epochs of the retire nodes, and the threads. -/
structure EpochCtl where
  globalEpoch : ℕ
  threadEpoch : ℕ → ℕ
  head : Kind → Option ℕ
  next : ℕ → Option ℕ
  retireEpoch : ℕ → ℕ
  loc : ℕ → Local
  allocated : ℕ → Bool
  kindOf : ℕ → Kind
  pinned : ℕ → Bool
  held : ℕ → ℕ → Bool
  pushes : ℕ → ℕ
  frees : ℕ → ℕ

/-- What a thread does next: it begins a call, or goes on with the one it is in. -/
inductive Move where
  | pin
  | unpin
  | retire (k : Kind) (n : ℕ)
  | advance
  | collect
  | go
  deriving DecidableEq, Repr

/-- The control block `htc_create` makes. -/
def EpochCtl.create : EpochCtl where
  globalEpoch := 1
  threadEpoch := fun _ => 0
  head := fun _ => none
  next := fun _ => none
  retireEpoch := fun _ => 0
  loc := fun _ => .idle
  allocated := fun _ => false
  kindOf := fun _ => .record
  pinned := fun _ => false
  held := fun _ _ => false
  pushes := fun _ => 0
  frees := fun _ => 0

/-- The thread `t` is at `l`. -/
def EpochCtl.goto (s : EpochCtl) (t : ℕ) (l : Local) : EpochCtl :=
  { s with loc := Function.update s.loc t l }

/-- The link of the node `n` is written. -/
def EpochCtl.link (s : EpochCtl) (n : ℕ) (o : Option ℕ) : EpochCtl :=
  { s with next := Function.update s.next n o }

/-- The head of a list is written. -/
def EpochCtl.setHead (s : EpochCtl) (k : Kind) (o : Option ℕ) : EpochCtl :=
  { s with head := Function.update s.head k o }

/-- `htc_epoch_retire` and `htc_epoch_retire_gen` up to their push: the node the allocator returned
is filled. -/
def EpochCtl.fill (s : EpochCtl) (k : Kind) (n : ℕ) : EpochCtl :=
  { s with
    next := Function.update s.next n none
    retireEpoch := Function.update s.retireEpoch n ((s.globalEpoch + 2) % 2 ^ 64)
    allocated := Function.update s.allocated n true
    kindOf := Function.update s.kindOf n k
    held := Function.update s.held n s.pinned }

/-- The node `n` and what it stands for are freed. -/
def EpochCtl.release (s : EpochCtl) (n : ℕ) : EpochCtl :=
  { s with
    allocated := Function.update s.allocated n false
    frees := Function.update s.frees n (s.frees n + 1) }

/-- A first push of the node `n` has succeeded. -/
def EpochCtl.count (s : EpochCtl) (n : ℕ) : EpochCtl :=
  { s with pushes := Function.update s.pushes n (s.pushes n + 1) }

/-- `htc_epoch_pin` stores the epoch it loaded. -/
def EpochCtl.store (s : EpochCtl) (t e : ℕ) : EpochCtl :=
  { s with
    threadEpoch := Function.update s.threadEpoch t e
    pinned := Function.update s.pinned t true }

/-- `htc_epoch_unpin`. -/
def EpochCtl.clear (s : EpochCtl) (t : ℕ) : EpochCtl :=
  { s with
    threadEpoch := Function.update s.threadEpoch t 0
    pinned := Function.update s.pinned t false
    held := fun n => Function.update (s.held n) t false }

/-- `htc_epoch_advance`. -/
def EpochCtl.advance (s : EpochCtl) : EpochCtl :=
  { s with globalEpoch := (s.globalEpoch + 1) % 2 ^ 64 }

/-- One round of the loop over the slots. -/
def minEpoch (m te : ℕ) : ℕ := if te ≠ 0 ∧ te < m then te else m

/-- Where `htc_epoch_collect` goes when it is done with a list. -/
def afterList (k : Kind) (m : ℕ) : Local :=
  match k with
  | .record => .pop .gen m
  | .gen => .idle

/-- The test `if (keep)` in front of the loop that pushes the keep list back. -/
def repend (k : Kind) (m : ℕ) (keep tail : Option ℕ) : Local :=
  match keep, tail with
  | some a, some b => .repush k m a b none
  | _, _ => afterList k m

/-- One round of the loop that splits the list taken; a generation is freed at once. -/
def EpochCtl.splitNode (s : EpochCtl) (t : ℕ) (k : Kind) (m n : ℕ) (keep tail free : Option ℕ) :
    EpochCtl :=
  if s.retireEpoch n < m then
    match k with
    | .record => (s.link n free).goto t (.split k m (s.next n) keep tail (some n))
    | .gen => (s.release n).goto t (.split k m (s.next n) keep tail free)
  else
    match tail with
    | some b => ((s.link n none).link b (some n)).goto t (.split k m (s.next n) keep (some n) free)
    | none => (s.link n none).goto t (.split k m (s.next n) (some n) (some n) free)

/-- The next step of a call. -/
def EpochCtl.go (s : EpochCtl) (t : ℕ) : Local → Option EpochCtl
  | .idle => none
  | .pin e => some ((s.store t e).goto t .idle)
  | .retire k n => some (s.goto t (.push k n (s.head k)))
  -- compare and exchange: a head that has changed is read again
  | .push k n old =>
    if s.head k = old then some ((((s.link n old).setHead k (some n)).count n).goto t .idle)
    else some ((s.link n old).goto t (.push k n (s.head k)))
  -- the minimum over the pinned epochs, one slot at a step
  | .scan i m =>
    if i < epochMaxThreads then some (s.goto t (.scan (i + 1) (minEpoch m (s.threadEpoch i))))
    else some (s.goto t (.pop .record m))
  -- the whole list is taken at once
  | .pop k m => some ((s.setHead k none).goto t (.split k m (s.head k) none none none))
  -- node by node: what is old enough is freed, the rest is kept
  | .split k m (some n) keep tail free => some (s.splitNode t k m n keep tail free)
  | .split k m none keep tail free => some (s.goto t (.release k m free keep tail))
  | .release k m (some n) keep tail =>
    some ((s.release n).goto t (.release k m (s.next n) keep tail))
  | .release k m none keep tail => some (s.goto t (repend k m keep tail))
  -- what was kept goes in front of what has been retired meanwhile
  | .repush k m keep tail old =>
    if s.head k = old then some (((s.link tail old).setHead k (some keep)).goto t (afterList k m))
    else some ((s.link tail old).goto t (.repush k m keep tail (s.head k)))

/-- The first step of a call by a thread that is in no call. -/
def EpochCtl.begin (s : EpochCtl) (t : ℕ) : Move → Option EpochCtl
  | .pin => if t < epochMaxThreads then some (s.goto t (.pin s.globalEpoch)) else some s
  | .unpin => if t < epochMaxThreads then some (s.clear t) else some s
  | .retire k n => if s.allocated n then none else some ((s.fill k n).goto t (.retire k n))
  | .advance => some s.advance
  | .collect => some (s.goto t (.scan 0 (2 ^ 64 - 1)))
  | .go => none

/-- One step of the thread `t`. -/
def EpochCtl.step (s : EpochCtl) (t : ℕ) (v : Move) : Option EpochCtl :=
  if v = .go then s.go t (s.loc t)
  else if s.loc t = .idle then s.begin t v
  else none

/-- The node that the thread `t` frees in its next step. -/
def EpochCtl.freeing (s : EpochCtl) (t : ℕ) : Option ℕ :=
  match s.loc t with
  | .split .gen m (some n) _ _ _ => if s.retireEpoch n < m then some n else none
  | .release _ _ (some n) _ _ => some n
  | _ => none

/-- The states that steps of any threads lead to. -/
inductive EpochCtl.Reach : EpochCtl → Prop where
  | create : EpochCtl.Reach .create
  | step {s s' : EpochCtl} {t : ℕ} {v : Move} : EpochCtl.Reach s → s.step t v = some s' →
    EpochCtl.Reach s'

/-- A schedule is run. -/
abbrev EpochCtl.run (s : EpochCtl) (l : List (ℕ × Move)) : Option EpochCtl :=
  Schedule.run (fun s a => s.step a.1 a.2) s l

/-- A schedule leads to a reachable state. -/
lemma EpochCtl.Reach.run {s s' : EpochCtl} {l : List (ℕ × Move)} (h : s.Reach)
    (hs : s.run l = some s') : s'.Reach :=
  Schedule.run_keeps (P := fun _ _ => True) (fun _ _ _ hr _ h => hr.step h) h
    (Schedule.along_of_forall (fun _ _ => trivial) l s) hs

end Draugr.Epoch
