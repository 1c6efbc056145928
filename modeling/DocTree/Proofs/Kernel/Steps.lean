import DocTree.Proofs.Kernel.Makes
import DocTree.Proofs.Run.Steps

namespace DocTree

open Call

-- A mounted filesystem and the store that serves it.
structure Served (σ : Type) where
  mounted : Mounted
  store : σ

-- A kernel call, when the clock is read while it runs and for whom it is made.
structure KernelStep where
  times : Nat → Instant
  caller : Caller
  call : KernelCall

namespace KernelStep

-- What the clock shows.
def now (step : KernelStep) : Readings := fun count => (step.times count).reading

-- A call without a reply leaves the filesystem mounted as it was.
def run {σ : Type} (backend : Backend σ) (step : KernelStep) (served : Served σ) :
    Outcome KernelReply × Served σ :=
  match (step.call.call served.mounted step.caller step.now).run backend served.store with
  | (.done (reply, mounted), store) => (.done reply, ⟨mounted, store⟩)
  | (.failed error, store) => (.failed error, ⟨served.mounted, store⟩)
  | (.crashed, store) => (.crashed, ⟨served.mounted, store⟩)

-- What is left of a call that always gets a reply.
theorem run_of_meets {σ : Type} {backend : Backend σ} {view : σ → Docs} {step : KernelStep}
    {served : Served σ} {post : KernelReply × Mounted → Docs → Prop}
    (h : ((step.call.call served.mounted step.caller step.now).run backend
      served.store).1.Meets post (fun _ _ => False)
      (view ((step.call.call served.mounted step.caller step.now).run backend
        served.store).2)) :
    ∃ reply, (step.run backend served).1 = .done reply ∧
      post (reply, (step.run backend served).2.mounted)
        (view (step.run backend served).2.store) := by
  unfold run
  generalize (step.call.call served.mounted step.caller step.now).run backend
    served.store = result at *
  obtain ⟨outcome, store⟩ := result
  obtain ⟨⟨reply, mounted⟩, rfl, hp⟩ := h.exists_done
  exact ⟨reply, rfl, hp⟩

theorem run_of_ensures {σ : Type} {backend : Backend σ} {view : σ → Docs} {faulty : Request → Prop}
    {served : Served σ} (step : KernelStep) {post : KernelReply × Mounted → Docs → Prop}
    (hb : backend.Serves view faulty)
    (h : (step.call.call served.mounted step.caller step.now).Ensures faulty post
      (fun _ _ => False) (view served.store)) :
    ∃ reply, (step.run backend served).1 = .done reply ∧
      post (reply, (step.run backend served).2.mounted) (view (step.run backend served).2.store) :=
  run_of_meets (h.run hb)

theorem store_run {σ : Type} (backend : Backend σ) (step : KernelStep) (served : Served σ) :
    (step.run backend served).2.store = ((step.call.call served.mounted step.caller
      step.now).run backend served.store).2 := by
  unfold run
  split <;> next h => rw [h]

-- No request is for a document of another scope.
theorem docs_run_of_ne {scope space : String} (hs : space ≠ scope) (step : KernelStep)
    (served : Served Image) :
    (step.run (Image.unlimited scope) served).2.store.docs space = served.store.docs space := by
  rw [store_run]
  generalize step.call.call served.mounted step.caller step.now = call
  generalize served.store = image
  induction call generalizing image with
  | done value => rfl
  | fail error => rfl
  | crash => rfl
  | submit collection request next ih => exact (ih _ _).trans (Image.docs_apply_of_ne hs)

end KernelStep

-- The state after kernel calls one after the other, whatever their replies.
def afterKernel {σ : Type} (backend : Backend σ) : List KernelStep → Served σ → Served σ
  | [], served => served
  | step :: rest, served => afterKernel backend rest (step.run backend served).2

theorem afterKernel_append {σ : Type} (backend : Backend σ) (first second : List KernelStep)
    (served : Served σ) : afterKernel backend (first ++ second) served =
      afterKernel backend second (afterKernel backend first served) := by
  induction first generalizing served with
  | nil => rfl
  | cons step rest ih => exact ih _

-- What each call keeps is kept by all of them.
theorem afterKernel_keeps {σ : Type} {backend : Backend σ} (keeps : Served σ → Prop)
    (hstep : ∀ (step : KernelStep) served, keeps served → keeps (step.run backend served).2)
    (history : List KernelStep) {served : Served σ} (h : keeps served) :
    keeps (afterKernel backend history served) := by
  induction history generalizing served with
  | nil => exact h
  | cons step rest ih => exact ih (hstep step served h)

namespace Served

-- A number that stands for nothing: calls about it are refused and change nothing.
structure Unknown {σ : Type} (backend : Backend σ) (served : Served σ) (number : Nat) :
    Prop where
  absent : served.mounted.inodes.pathOf? number = none
  refused : ∀ step : KernelStep, step.call.number = number → ¬step.call.BeforeStart →
    step.run backend served = (.done (.error FsError.notFound.errno), served)
  early : ∀ step : KernelStep, step.call.BeforeStart →
    step.run backend served = (.done (.error FsError.invalidArgument.errno), served)

theorem unknown_of_absent {σ : Type} {backend : Backend σ} {served : Served σ} {number : Nat}
    (h : served.mounted.inodes.pathOf? number = none) : served.Unknown backend number := by
  refine ⟨h, fun step hn hb => ?_, fun step hb => ?_⟩
  · unfold KernelStep.run
    rw [KernelCall.call_of_unknown step.call (hn ▸ h) hb]
    rfl
  · unfold KernelStep.run
    rw [KernelCall.call_of_beforeStart step.call hb]
    rfl

end Served

-- A filesystem as it is mounted on a store, at some time.
def Served.MountedOn {σ : Type} (backend : Backend σ) (limits : Limits) (start : σ)
    (served : Served σ) : Prop :=
  ∃ time : Instant, (Mounted.new limits time.reading).run backend start =
    (.done served.mounted, served.store)

variable {limits : Limits} {scope : String} {header : Header}

-- A mount checks the limits and makes the root directory; it knows the root only.
theorem Served.MountedOn.bootstrapped {σ : Type} {backend : Backend σ} {start : σ}
    {served : Served σ} (h : served.MountedOn backend limits start) :
    limits.Valid ∧ served.mounted = ⟨limits, Inodes.new⟩ ∧ ∃ time : Instant,
      (Tree.bootstrap time.reading).run backend start = (.done (), served.store) := by
  obtain ⟨time, hr⟩ := h
  unfold Mounted.new at hr
  cases hv : limits.validate with
  | error error =>
    rw [hv, ofExcept_error_bind] at hr
    cases hr
  | ok _ =>
    rw [hv, ofExcept_ok_bind] at hr
    change (Call.bind _ _).run _ start = _ at hr
    rw [run_bind] at hr
    generalize hb : (Tree.bootstrap time.reading).run backend start = result at hr
    obtain ⟨outcome, store⟩ := result
    cases outcome with
    | done value =>
      obtain ⟨hm, hs⟩ := Prod.mk.inj hr
      exact ⟨limits.validate_eq_ok_iff.mp hv, (Outcome.done.inj hm).symm, time,
        hb.trans (by rw [hs])⟩
    | failed error => cases hr
    | crashed => cases hr

-- A filesystem as it comes up on a store that makes it a root.
def Served.fresh {σ : Type} (backend : Backend σ) (limits : Limits) (start : σ) (time : Instant) :
    Served σ :=
  ⟨⟨limits, Inodes.new⟩, ((Tree.bootstrap time.reading).run backend start).2⟩

theorem Served.mountedOn_fresh {σ : Type} {backend : Backend σ} {start : σ} {time : Instant}
    (hv : limits.validate = .ok ())
    (hr : ((Tree.bootstrap time.reading).run backend start).1 = .done ()) :
    (Served.fresh backend limits start time).MountedOn backend limits start := by
  refine ⟨time, ?_⟩
  unfold Mounted.new Served.fresh
  rw [hv, ofExcept_ok_bind]
  change (Call.bind _ _).run _ start = _
  rw [run_bind]
  generalize (Tree.bootstrap time.reading).run backend start = result at hr ⊢
  obtain ⟨outcome, store⟩ := result
  dsimp only at hr
  subst hr
  rfl

-- A filesystem that was mounted on an empty store has a root directory, and nothing else.
theorem Served.MountedOn.shows {served : Served Image}
    (h : served.MountedOn (Image.unlimited scope) limits (Image.new header)) :
    ∃ time : Instant, (served.store.docs scope).Shows (Catalog.rooted time.reading) := by
  obtain ⟨-, -, time, hr⟩ := h.bootstrapped
  have hcall : (Tree.bootstrap time.reading).Ensures (fun _ => False) _ _
      ((Image.new header).docs scope) := Tree.ensures_first_bootstrap Image.value_new
  have hrun := hcall.run (Image.unlimited_serves scope)
  rw [hr] at hrun
  exact ⟨time, hrun.1⟩

namespace Sample

def fresh {σ : Type} (backend : Backend σ) (start : σ) : Served σ :=
  .fresh backend Sample.limits start .epoch

def user : Caller := ⟨0, 0⟩

-- A clock that stands still at the epoch.
def clock : Nat → Instant := fun _ => .epoch

-- The first file that is made gets number 2.
def makeFile : KernelStep := ⟨clock, user, .create Inodes.root [102] 0o100644 0⟩

end Sample

end DocTree
