import DocTree.Call.Basic
import DocTree.Store.Image

namespace DocTree

inductive Outcome (α : Type) where
  | done (value : α)
  | failed (error : FsError)
  | crashed
  deriving DecidableEq

-- Answers requests out of a state.
abbrev Backend (σ : Type) := Collection → Request → σ → Reply × σ

namespace Call

def run {α σ : Type} (backend : Backend σ) : Call α → σ → Outcome α × σ
  | done value, state => (.done value, state)
  | fail error, state => (.failed error, state)
  | crash, state => (.crashed, state)
  | submit collection request next, state =>
    let (reply, state) := backend collection request state
    (next reply).run backend state

theorem run_bind {α β σ : Type} (backend : Backend σ) (call : Call α) (next : α → Call β)
    (state : σ) :
    (call.bind next).run backend state =
      match call.run backend state with
      | (.done value, state) => (next value).run backend state
      | (.failed error, state) => (.failed error, state)
      | (.crashed, state) => (.crashed, state) := by
  induction call generalizing state with
  | done value => rfl
  | fail error => rfl
  | crash => rfl
  | submit collection request rest ih => exact ih _ _

theorem run_attempt {α σ : Type} (backend : Backend σ) (call : Call α) (state : σ) :
    call.attempt.run backend state =
      match call.run backend state with
      | (.done value, state) => (.done (.ok value), state)
      | (.failed error, state) => (.done (.error error), state)
      | (.crashed, state) => (.crashed, state) := by
  induction call generalizing state with
  | done value => rfl
  | fail error => rfl
  | crash => rfl
  | submit collection request rest ih => exact ih _ _

end Call

def defaultScope : String := "_default"

-- Every request reaches the image and is answered.
def Image.backend (maxSize : Nat) (scope : String) : Backend Image :=
  fun collection request image =>
  let (image, response) := image.apply maxSize scope collection request
  (.answered response, image)

end DocTree
