/-
  App/TorrentOrchestrator/Wakeup.lean --- whether the end of a download is noticed.

  The delivery that finishes the last piece notifies once, and no later delivery
  notifies at all.  The waiter's evaluation of `isComplete()` and its falling asleep
  are one step for its own mutex only, which the deliveries do not take.  So the
  notification can come between the two, and then the waiter sleeps for ever; if it
  does not, the end is noticed.
-/
import BitTorrentClient.App.TorrentOrchestrator
import BitTorrentClient.App.PieceManager.Completion

set_option autoImplicit false

namespace BitTorrentClient

open Library

namespace TorrentOrchestrator

variable {sha1 : Bytes → Sha1Hash} {metadata : TorrentMetadata} {s s' : TorrentOrchestrator}
  {history : List (Transition TorrentOrchestrator Action)}

/-- All pieces are finished, no delivery is in progress, and the waiter sleeps. -/
structure Stuck (metadata : TorrentMetadata) (s : TorrentOrchestrator) : Prop where
  finished : PieceManager.AllFinished metadata s.manager
  idle : s.delivery = .idle
  asleep : s.waiter = .asleep

/-- The step is not a notification that comes after the waiter found the download
incomplete and before it sleeps. -/
def Heard (s : TorrentOrchestrator) (a : Action) : Prop :=
  a = .notify → s.delivery = .counted true → s.waiter ≠ .falling

instance (s : TorrentOrchestrator) (a : Action) : Decidable (Heard s a) :=
  inferInstanceAs (Decidable (_ → _ → _))

/-- The manager's part of the state is reached by calls of the manager. -/
def ManagerReached (sha1 : Bytes → Sha1Hash) (metadata : TorrentMetadata)
    (s : TorrentOrchestrator) : Prop :=
  ∃ calls, (PieceManager.machine sha1 metadata).Run calls s.manager

theorem Step.managerReached {a : Action} (h : s.Step sha1 a s')
    (hreached : ManagerReached sha1 metadata s) : ManagerReached sha1 metadata s' := by
  obtain ⟨calls, hrun⟩ := hreached
  cases h with
  | @counted idx offset data fate r m _ hcall =>
    have happly : (PieceManager.machine sha1 metadata).step s.manager
        (.deliverBlock idx offset data fate, .reply r) m := by
      change (s.manager.deliverBlock sha1 idx offset data fate >>= _) = _
      rw [hcall]
      rfl
    exact ⟨_, hrun.snoc happly⟩
  | called _ _ hcall =>
    have happly : (PieceManager.machine sha1 metadata).step s.manager (_, _) _ := hcall
    exact ⟨_, hrun.snoc happly⟩
  | _ => exact ⟨calls, hrun⟩

/-- Every reachable state of the download has a manager that its calls reach. -/
theorem managerReached_of_run (hrun : (machine sha1 metadata).Run history s) :
    ManagerReached sha1 metadata s := by
  refine hrun.invariant (I := ManagerReached sha1 metadata) ?_ ?_
  · rintro s ⟨disk, tracked, rfl⟩
    exact ⟨[], .start ⟨disk, tracked, rfl⟩⟩
  · intro s a s' hreached hact
    exact (act_step hact).managerReached hreached

/-! ## The notification is owed -/

/-- If the waiter sleeps, or is about to, although all pieces are finished, then the
delivery in progress is about to notify. -/
def Owed (metadata : TorrentMetadata) (s : TorrentOrchestrator) : Prop :=
  s.waiter.Safe (PieceManager.AllFinished metadata s.manager) (s.delivery = .counted true)

/-- A call that finishes nothing: neither requests nor returns do. -/
theorem finished_of_call {op : PieceManager.Op} {answer : PieceManager.Answer}
    {m m' : PieceManager} (hop : ∀ idx offset data fate, op ≠ .deliverBlock idx offset data fate)
    (hs : PieceManager.Shaped metadata m) (hcall : m.Step sha1 (op, answer) m') (i : Nat) :
    m'.finished[i]? = m.finished[i]? := by
  rcases hcall.finished_change hs with hsame | ⟨_, _, _, _, _, _, hlabel, _⟩
  · exact hsame
  · exact absurd hlabel (hop _ _ _ _)

/-- What a delivery owes: if all pieces are finished after it and not before, it
notifies. -/
theorem notifies_of_finished {m m' : PieceManager} (hs : PieceManager.Shaped metadata m)
    (hb : PieceManager.Bookkeeping metadata m) {l : PieceManager.Op × PieceManager.Answer}
    (hstep : m.Step sha1 l m') (hbefore : ¬ PieceManager.AllFinished metadata m)
    (hafter : PieceManager.AllFinished metadata m') :
    m.completionNotified < m'.completionNotified := by
  have hpos : 0 < metadata.numPieces := by
    refine Nat.pos_of_ne_zero fun hzero => hbefore fun i hi => ?_
    omega
  rcases PieceManager.notified_change hs hb hstep hpos with ⟨_, _, hnotified⟩ | ⟨hiff, _⟩
  · omega
  · exact absurd (hiff.mpr hafter) hbefore

theorem Owed.step (h : Owed metadata s) (hreached : ManagerReached sha1 metadata s) {a : Action}
    (hstep : s.Step sha1 a s') (hheard : s.Heard a) : Owed metadata s' := by
  obtain ⟨calls, hrun⟩ := hreached
  have hs := PieceManager.shaped_of_run hrun
  have hb := PieceManager.bookkeeping_of_run hrun
  cases hstep with
  | waited hnext => exact WaitPoint.Safe.next h (hb.isComplete_iff hs) hnext
  | entered hidle =>
    refine WaitPoint.Safe.mono h fun hall howed => ?_
    exact absurd (hidle.symm.trans (howed hall)) (by simp)
  | @counted idx offset data fate r m hentered hcall =>
    have hdelivery : s.manager.Step sha1 (.deliverBlock idx offset data fate, .reply r) m :=
      .delivered (PieceManager.deliverBlock_delivery hcall)
    refine WaitPoint.Safe.mono h fun hall howed => ?_
    have hbefore : ¬ PieceManager.AllFinished metadata s.manager := fun hbefore =>
      absurd (hentered.symm.trans (howed hbefore)) (by simp)
    simp [notifies_of_finished hs hb hdelivery hbefore hall]
  | notified hcounted =>
    have hnotified : WaitPoint.Safe (PieceManager.AllFinished metadata s.manager) False
        s.waiter.notified := WaitPoint.safe_notified (hheard rfl hcounted)
    exact hnotified.mono fun hall howed => (howed hall).elim
  | silent hcounted =>
    refine WaitPoint.Safe.mono h fun hall howed => ?_
    exact absurd (hcounted.symm.trans (howed hall)) (by simp)
  | left hleaving =>
    refine WaitPoint.Safe.mono h fun hall howed => ?_
    exact absurd (hleaving.symm.trans (howed hall)) (by simp)
  | called hidle hop hcall =>
    have hstep := @PieceManager.machine_step sha1 metadata _ _ (_, _) hcall
    refine WaitPoint.Safe.mono h fun hall howed => ?_
    refine absurd (hidle.symm.trans (howed fun i hi => ?_)) (by simp)
    rw [← finished_of_call hop hs hstep]
    exact hall i hi

theorem owed_of_heard (hrun : (machine sha1 metadata).Run history s)
    (hheard : Machine.Guarded Heard history) : Owed metadata s := by
  induction hrun with
  | start hinit =>
    obtain ⟨disk, tracked, rfl⟩ := hinit
    exact WaitPoint.safe_outside _ _
  | snoc hsofar hlast ih =>
    exact (ih hheard.tail).step (managerReached_of_run hsofar) (act_step hlast)
      (hheard _ List.mem_cons_self)

/-- **No lost wake-up.**  A run in which the notification does not come between the
waiter's finding the download incomplete and its falling asleep reaches no state in which
all pieces are finished, no delivery is in progress, and the waiter sleeps. -/
theorem not_stuck_of_heard (hrun : (machine sha1 metadata).Run history s)
    (hheard : Machine.Guarded Heard history) : ¬ Stuck metadata s := by
  intro hstuck
  have howed := owed_of_heard hrun hheard (Or.inr hstuck.asleep) hstuck.finished
  exact absurd (hstuck.idle.symm.trans howed) (by simp)

/-- The waiter sleeps when the last piece is finished, and wakes up. -/
theorem not_stuck_of_heard_asleep :
    ∃ history s, (machine PieceManager.sampleSha1
        (PieceManager.onePiece PieceManager.sevenDigest 1)).Run history s ∧
      s.waiter = .woken ∧ ¬ Stuck (PieceManager.onePiece PieceManager.sevenDigest 1) s := by
  have hrun := acts_run PieceManager.sampleSha1
    (PieceManager.onePiece PieceManager.sevenDigest 1)
    [.wait, .wait, .wait, .enter 0 0 [7] .written, .count, .notify, .leave]
    (.start ⟨PieceManager.emptyFile, true, rfl⟩) rfl
  refine ⟨_, _, hrun, rfl, not_stuck_of_heard hrun ?_⟩
  rw [Machine.Guarded]
  decide

/-! ## The notification that is lost -/

/-- All pieces are finished, the waiter sleeps, and nobody is about to notify it. -/
structure Lost (metadata : TorrentMetadata) (s : TorrentOrchestrator) : Prop where
  finished : PieceManager.AllFinished metadata s.manager
  asleep : s.waiter = .asleep
  silent : s.delivery ≠ .counted true

theorem Stuck.lost (h : Stuck metadata s) : Lost metadata s :=
  ⟨h.finished, h.asleep, by simp [h.idle]⟩

/-- Once all pieces are finished a delivery does nothing. -/
theorem delivery_of_allFinished {m m' : PieceManager} (hs : PieceManager.Shaped metadata m)
    (hall : PieceManager.AllFinished metadata m) {idx offset : Nat} {data : Bytes}
    {fate : DiskFate} {r : Reply} (hd : m.Delivery sha1 idx offset data fate r m') : m' = m := by
  have hdone : m.finished[idx]? ≠ some false := by
    intro hunfinished
    have hlt : idx < metadata.numPieces := by
      rw [← hs.finished_length]
      exact (List.getElem?_eq_some_iff.mp hunfinished).1
    exact absurd (hunfinished.symm.trans (hall idx hlt)) (by simp)
  cases hd with
  | finished _ => rfl
  | outOfBounds hunfinished _ _ => exact absurd hunfinished hdone
  | stored ha _ => exact absurd ha.unfinished hdone
  | discarded ha _ _ _ _ => exact absurd ha.unfinished hdone
  | threw hv _ => exact absurd hv.unfinished hdone
  | completed hv _ _ _ => exact absurd hv.unfinished hdone

/-- No step wakes the waiter up. -/
theorem Lost.step (h : Lost metadata s) (hreached : ManagerReached sha1 metadata s) {a : Action}
    (hstep : s.Step sha1 a s') : Lost metadata s' := by
  obtain ⟨calls, hrun⟩ := hreached
  have hs := PieceManager.shaped_of_run hrun
  cases hstep with
  | waited hnext =>
    rw [h.asleep] at hnext
    cases hnext
  | entered _ => exact ⟨h.finished, h.asleep, by simp⟩
  | counted _ hcall =>
    obtain rfl := delivery_of_allFinished hs h.finished (PieceManager.deliverBlock_delivery hcall)
    exact ⟨h.finished, h.asleep, by simp⟩
  | notified hcounted => exact absurd hcounted h.silent
  | silent _ => exact ⟨h.finished, h.asleep, by simp⟩
  | left _ => exact ⟨h.finished, h.asleep, by simp⟩
  | called hidle hop hcall =>
    have hstep := @PieceManager.machine_step sha1 metadata _ _ (_, _) hcall
    refine ⟨fun i hi => ?_, h.asleep, h.silent⟩
    rw [finished_of_call hop hs hstep]
    exact h.finished i hi

/-- A stuck download stays asleep. -/
theorem Stuck.forever (h : Stuck metadata s) (hrun : (machine sha1 metadata).Run history s)
    {later : List (Transition TorrentOrchestrator Action)}
    (hlater : ((machine sha1 metadata).startingAt s).Run later s') : Lost metadata s' := by
  induction hlater with
  | start hs =>
    rw [show _ = s from hs]
    exact h.lost
  | snoc hsofar hlast ih =>
    exact ih.step (managerReached_of_run (hrun.append hsofar))
      (@act_step sha1 _ _ _ hlast)

/-- The waiter finds the only piece missing, the piece is finished and the notification
is made, and then the waiter falls asleep, for ever. -/
theorem stuck_notifiedWhileFalling :
    ∃ history s, (machine PieceManager.sampleSha1
        (PieceManager.onePiece PieceManager.sevenDigest 1)).Run history s ∧
      Stuck (PieceManager.onePiece PieceManager.sevenDigest 1) s ∧
      ∀ later s', ((machine PieceManager.sampleSha1
        (PieceManager.onePiece PieceManager.sevenDigest 1)).startingAt s).Run later s' →
          s'.waiter = .asleep := by
  have hrun := acts_run PieceManager.sampleSha1
    (PieceManager.onePiece PieceManager.sevenDigest 1)
    [.wait, .wait, .enter 0 0 [7] .written, .count, .notify, .leave, .wait]
    (.start ⟨PieceManager.emptyFile, true, rfl⟩) rfl
  have hfinished : ∀ i < 1, [true][i]? = some true := by decide
  refine ⟨_, _, hrun, ?stuck, fun later s' hlater =>
    (Stuck.forever ?stuck hrun hlater).asleep⟩
  exact ⟨hfinished, rfl, rfl⟩

end TorrentOrchestrator

end BitTorrentClient
