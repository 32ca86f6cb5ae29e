/-
  App/TorrentOrchestrator.lean --- waiting for the download
  (`app/torrent_orchestrator.cpp`).

  `download` starts the sessions and waits on a condition variable, with a mutex of
  its own, until `isComplete()`.  The sessions call the piece manager, one call at a
  time, under the manager's mutex.  The waiter takes no part in that mutex, so a call
  of `deliverBlock` is taken apart where the waiter can see it: it begins, its effects
  are there, it notifies if it has to, and it returns.  The two other calls neither
  change what the waiter reads nor notify, and are one step.
-/
import BitTorrentClient.App.PieceManager.Steps
import BitTorrentClient.Library.CondVar

set_option autoImplicit false

namespace BitTorrentClient

open Library

/-- Where the call of `deliverBlock` is that holds the manager's mutex. -/
inductive DeliveryPoint where
  /-- there is none -/
  | idle
  /-- it has begun -/
  | entered (idx offset : Nat) (data : Bytes) (fate : DiskFate)
  /-- its effects are there, and it is about to notify or not -/
  | counted (notifies : Bool)
  /-- it is about to return -/
  | leaving
  deriving DecidableEq, Repr

/-- The orchestrator's thread, the piece manager, and the call in progress. -/
structure TorrentOrchestrator where
  manager : PieceManager
  waiter : WaitPoint
  delivery : DeliveryPoint

namespace TorrentOrchestrator

/-- What may happen next. -/
inductive Action where
  /-- the waiter takes its next step -/
  | wait
  /-- a session begins to deliver a block -/
  | enter (idx offset : Nat) (data : Bytes) (fate : DiskFate)
  /-- the call has its effects -/
  | count
  /-- the call notifies, if it has to -/
  | notify
  /-- the call returns -/
  | leave
  /-- a session requests or returns a block -/
  | call (op : PieceManager.Op)
  deriving DecidableEq, Repr

variable (sha1 : Bytes → Sha1Hash)

/-- When the sessions are started and the wait begins. -/
def new (metadata : TorrentMetadata) (disk : Disk) (tracked : Bool) : TorrentOrchestrator where
  manager := PieceManager.new metadata disk tracked
  waiter := .outside
  delivery := .idle

/-- One step.  A call that faults has no successor. -/
def act (s : TorrentOrchestrator) : Action → Option TorrentOrchestrator
  | .wait => (s.waiter.next s.manager.isComplete).map fun waiter => { s with waiter := waiter }
  | .enter idx offset data fate =>
      if s.delivery = .idle then some { s with delivery := .entered idx offset data fate }
      else none
  | .count =>
      match s.delivery with
      | .entered idx offset data fate =>
          match s.manager.deliverBlock sha1 idx offset data fate with
          | .ok (_, m) => some { s with
              manager := m
              delivery := .counted (decide (s.manager.completionNotified < m.completionNotified)) }
          | .error _ => none
      | _ => none
  | .notify =>
      match s.delivery with
      | .counted true => some { s with waiter := s.waiter.notified, delivery := .leaving }
      | .counted false => some { s with delivery := .leaving }
      | _ => none
  | .leave => if s.delivery = .leaving then some { s with delivery := .idle } else none
  | .call op =>
      match s.delivery, op with
      | .idle, .requestBlock _ | .idle, .returnBlock _ =>
          match s.manager.apply sha1 op with
          | .ok (_, m) => some { s with manager := m }
          | .error _ => none
      | _, _ => none

/-- The download of one torrent, under any interleaving of the waiter with the calls of
any number of sessions. -/
def machine (metadata : TorrentMetadata) : Machine TorrentOrchestrator Action where
  init s := ∃ disk tracked, s = new metadata disk tracked
  step s a s' := s.act sha1 a = some s'

/-- Take steps one after another, recording them newest first. -/
def acts (s : TorrentOrchestrator) :
    List Action → List (Transition TorrentOrchestrator Action) →
      Option (List (Transition TorrentOrchestrator Action) × TorrentOrchestrator)
  | [], history => some (history, s)
  | a :: rest, history => do
      let s' ← s.act sha1 a
      acts s' rest (⟨s, a, s'⟩ :: history)

theorem acts_run (metadata : TorrentMetadata) (actions : List Action)
    {s s' : TorrentOrchestrator} {history history' : List (Transition TorrentOrchestrator Action)}
    (hrun : (machine sha1 metadata).Run history s)
    (h : acts sha1 s actions history = some (history', s')) :
    (machine sha1 metadata).Run history' s' := by
  induction actions generalizing s history with
  | nil =>
    cases h
    exact hrun
  | cons a rest ih =>
    obtain ⟨s₁, hact, h⟩ := Option.bind_eq_some_iff.mp h
    have hstep : (machine sha1 metadata).step s a s₁ := hact
    exact ih (hrun.snoc hstep) h

/-! ## What one step can do -/

variable {sha1}

/-- The step relation, by the kind of step. -/
inductive Step (sha1 : Bytes → Sha1Hash) (s : TorrentOrchestrator) :
    Action → TorrentOrchestrator → Prop
  | waited {point : WaitPoint} : s.waiter.next s.manager.isComplete = some point →
      Step sha1 s .wait { s with waiter := point }
  | entered {idx offset : Nat} {data : Bytes} {fate : DiskFate} : s.delivery = .idle →
      Step sha1 s (.enter idx offset data fate)
        { s with delivery := .entered idx offset data fate }
  | counted {idx offset : Nat} {data : Bytes} {fate : DiskFate} {r : Reply}
      {m : PieceManager} : s.delivery = .entered idx offset data fate →
      s.manager.deliverBlock sha1 idx offset data fate = .ok (r, m) →
      Step sha1 s .count { s with
        manager := m
        delivery := .counted (decide (s.manager.completionNotified < m.completionNotified)) }
  | notified : s.delivery = .counted true →
      Step sha1 s .notify { s with waiter := s.waiter.notified, delivery := .leaving }
  | silent : s.delivery = .counted false → Step sha1 s .notify { s with delivery := .leaving }
  | left : s.delivery = .leaving → Step sha1 s .leave { s with delivery := .idle }
  | called {op : PieceManager.Op} {answer : PieceManager.Answer} {m : PieceManager} :
      s.delivery = .idle → (∀ idx offset data fate, op ≠ .deliverBlock idx offset data fate) →
      s.manager.apply sha1 op = .ok (answer, m) → Step sha1 s (.call op) { s with manager := m }

theorem act_step {s s' : TorrentOrchestrator} {a : Action} (h : s.act sha1 a = some s') :
    s.Step sha1 a s' := by
  cases a with
  | wait =>
    obtain ⟨point, hnext, rfl⟩ := Option.map_eq_some_iff.mp h
    exact .waited hnext
  | enter idx offset data fate =>
    obtain ⟨hidle, h⟩ := Option.ite_none_right_eq_some.mp h
    cases h
    exact .entered hidle
  | count =>
    simp only [act] at h
    split at h
    · rename_i hentered
      split at h
      · rename_i hcall
        cases h
        exact .counted hentered hcall
      · cases h
    · cases h
  | notify =>
    simp only [act] at h
    split at h
    · rename_i hcounted
      cases h
      exact .notified hcounted
    · rename_i hcounted
      cases h
      exact .silent hcounted
    · cases h
  | leave =>
    obtain ⟨hleaving, h⟩ := Option.ite_none_right_eq_some.mp h
    cases h
    exact .left hleaving
  | call op =>
    simp only [act] at h
    split at h
    · rename_i hidle
      split at h
      · rename_i hcall
        cases h
        exact .called hidle (by simp) hcall
      · cases h
    · rename_i hidle
      split at h
      · rename_i hcall
        cases h
        exact .called hidle (by simp) hcall
      · cases h
    · cases h

end TorrentOrchestrator

end BitTorrentClient
