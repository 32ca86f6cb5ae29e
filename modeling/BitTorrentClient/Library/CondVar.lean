/-
  Library/CondVar.lean --- waiting on a condition variable.

  `cv.wait(lock, holds)` locks a mutex and evaluates a predicate; when the predicate
  is false it releases the mutex and sleeps in one step, and after a notification it
  locks the mutex and evaluates again.  There are no wake-ups without a notification.

  A notification reaches a waiter that sleeps and is lost on any other.  `Safe` is the
  invariant against losing it: while the waiter is about to sleep or asleep although
  the predicate holds, a notification is still owed.  It survives a notification
  unless the waiter is between the two, having found the predicate false and not yet
  asleep; a notifier that does not hold the waiter's mutex can notify just then.
-/
import Mathlib.Logic.Basic

set_option autoImplicit false

namespace BitTorrentClient.Library

/-- Where a waiting thread is. -/
inductive WaitPoint where
  /-- it has not locked the mutex yet -/
  | outside
  /-- it holds the mutex and is about to evaluate the predicate -/
  | locked
  /-- it holds the mutex, has found the predicate false and is about to sleep -/
  | falling
  /-- it sleeps, without the mutex -/
  | asleep
  /-- it was notified and is about to lock the mutex -/
  | woken
  /-- it has found the predicate true, and the wait is over -/
  | passed
  deriving DecidableEq, Repr

namespace WaitPoint

/-- The next step of the thread itself, given the value of the predicate; a thread that
sleeps, or is done, has none. -/
def next (holds : Bool) : WaitPoint → Option WaitPoint
  | .outside => some .locked
  | .locked => if holds then some .passed else some .falling
  | .falling => some .asleep
  | .asleep => none
  | .woken => some .locked
  | .passed => none

/-- What a notification does to the thread. -/
def notified : WaitPoint → WaitPoint
  | .asleep => .woken
  | point => point

/-- The thread is about to sleep, or asleep. -/
def Sleepy (point : WaitPoint) : Prop := point = .falling ∨ point = .asleep

/-- If the thread sleeps, or is about to, while the predicate holds, a notification is
owed. -/
def Safe (holds owed : Prop) (point : WaitPoint) : Prop := point.Sleepy → holds → owed

theorem safe_outside (holds owed : Prop) : Safe holds owed .outside := by
  rintro (h | h)
  · cases h
  · cases h

/-- The steps of the thread itself are safe: it falls asleep only after the predicate
was false. -/
theorem Safe.next {holds owed : Prop} {b : Bool} {point point' : WaitPoint}
    (h : Safe holds owed point) (hb : b = true ↔ holds) (hnext : point.next b = some point') :
    Safe holds owed point' := by
  cases point with
  | outside =>
    obtain rfl := Option.some.inj hnext
    rintro (hp | hp) <;> cases hp
  | locked =>
    cases b with
    | true =>
      obtain rfl := Option.some.inj hnext
      rintro (hp | hp) <;> cases hp
    | false =>
      intro _ hholds
      exact absurd (hb.mpr hholds) Bool.false_ne_true
  | falling => exact fun _ => h (Or.inl rfl)
  | asleep => cases hnext
  | woken =>
    obtain rfl := Option.some.inj hnext
    rintro (hp | hp) <;> cases hp
  | passed => cases hnext

/-- A notification that does not come while the thread is falling asleep leaves nothing
owed. -/
theorem safe_notified {holds : Prop} {point : WaitPoint} (hpoint : point ≠ .falling) :
    Safe holds False point.notified := by
  rintro (h | h) _
  · cases point <;> simp [notified] at h hpoint
  · cases point <;> simp [notified] at h

/-- A step that leaves the thread where it is, and makes the predicate hold only when it
comes to owe a notification. -/
theorem Safe.mono {holds holds' owed owed' : Prop} {point : WaitPoint}
    (h : Safe holds owed point) (hstep : holds' → (holds → owed) → owed') :
    Safe holds' owed' point :=
  fun hsleepy hholds => hstep hholds (h hsleepy)

end WaitPoint

end BitTorrentClient.Library
