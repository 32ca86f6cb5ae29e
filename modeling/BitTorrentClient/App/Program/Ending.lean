/-
  App/Program/Ending.lean --- how the program ends.

  The four objects in front of the threads stay as they are, so the first object that
  `stop` joins is no thread: the exception comes before any thread was joined, and
  destroying the threads terminates the program.  `Fits` says where the main thread can
  be with how many threads, and that a program which got past its wait has its download;
  from that no run ends with status 0.
-/
import BitTorrentClient.App.Program
import BitTorrentClient.App.Swarm.Download

set_option autoImplicit false

namespace BitTorrentClient

open Library

namespace Swarm

variable {ι : Type} [DecidableEq ι] {sha1 : Bytes → Sha1Hash} {metadata : TorrentMetadata}
  {peerId : Bytes} {w w' : Swarm ι} {l : ι × Event}
  {history : List (Transition (Swarm ι) (ι × Event))}

/-- A complete download stays complete. -/
theorem isComplete_mono (hrun : (machine sha1 metadata peerId).Run history w)
    (hstep : (machine sha1 metadata peerId).step w l w')
    (h : w.manager.isComplete = true) : w'.manager.isComplete = true := by
  have hmanager := refines_manager w l w' hstep
  have hsofar := manager_run hrun
  cases hcall : callOf ⟨w, l, w'⟩ with
  | none =>
    rw [hcall] at hmanager
    rw [show w'.manager = w.manager from hmanager]
    exact h
  | some call =>
    rw [hcall] at hmanager
    have hafter := hsofar.snoc hmanager
    have hs := PieceManager.shaped_of_run hsofar
    refine (PieceManager.isComplete_iff_of_run hafter).mpr fun i hi => ?_
    have hdone := (PieceManager.isComplete_iff_of_run hsofar).mp h i hi
    exact (PieceManager.machine_step hmanager).finished_mono hs hdone

end Swarm

/-- Where the main thread can be when this many threads were started; `refused` says that
the system has refused one. -/
def MainPoint.Fits (complete refused : Prop) (threads : Nat) : MainPoint → Prop
  | .starting made => threads = made ∧ made ≤ threadCount
  | .waiting point => threads = threadCount ∧ (point = .passed → complete)
  | .stopping next => next = 0 ∧ threads = threadCount ∧ complete
  | .unwinding => threads = threadCount ∧ complete ∨ refused
  | .returning => False
  | .exited status => status = 1 ∧ threads = 0 ∧ refused
  | .terminated => 0 < threads ∧ (complete ∨ refused)

theorem MainPoint.Fits.mono {complete complete' refused refused' : Prop} {threads : Nat}
    {main : MainPoint} (h : main.Fits complete refused threads)
    (hcomplete : complete → complete') (hrefused : refused → refused') :
    main.Fits complete' refused' threads := by
  cases main with
  | starting made => exact h
  | waiting point => exact ⟨h.1, fun hpassed => hcomplete (h.2 hpassed)⟩
  | stopping next => exact ⟨h.1, h.2.1, hcomplete h.2.2⟩
  | unwinding => exact h.imp (fun hall => ⟨hall.1, hcomplete hall.2⟩) hrefused
  | returning => exact h
  | exited status => exact ⟨h.1, h.2.1, hrefused h.2.2⟩
  | terminated => exact ⟨h.1, h.2.imp hcomplete hrefused⟩

namespace Program

variable {ι : Type}

/-- The system has refused to start a thread. -/
def Refused (history : List (Transition (Program ι) (Label ι))) : Prop :=
  ∃ t ∈ history, (∃ made, t.source.main = .starting made) ∧ t.target.main = .unwinding

/-- The objects in front are no threads, the others are the threads that were started. -/
structure Kept (refused : Prop) (p : Program ι) (threads : List ThreadObject) : Prop where
  pool : p.threadPool = List.replicate threadCount .vacant ++ threads
  joinable : ∀ thread ∈ threads, thread.joinable = true
  main : p.main.Fits (p.swarm.manager.isComplete = true) refused threads.length

variable {p p' : Program ι} {threads : List ThreadObject} {refused : Prop}

theorem kept_new (metadata : TorrentMetadata) (disk : Disk) (tracked : Bool) :
    Kept refused (new metadata disk tracked : Program ι) [] where
  pool := (List.append_nil _).symm
  joinable _ h := absurd h List.not_mem_nil
  main := ⟨rfl, Nat.zero_le _⟩

/-- The first object to join is no thread. -/
theorem Kept.first (h : Kept refused p threads) : p.threadPool[0]? = some .vacant := by
  rw [h.pool]
  rfl

/-- Destroying the vector is safe only before the first thread. -/
theorem Kept.any_joinable (h : Kept refused p threads) :
    p.threadPool.any ThreadObject.joinable = decide (threads ≠ []) := by
  have hfront : (List.replicate threadCount ThreadObject.vacant).any ThreadObject.joinable =
      false := rfl
  rw [h.pool, List.any_append, hfront, Bool.false_or]
  cases threads with
  | nil => rfl
  | cons thread rest =>
    rw [List.any_cons, h.joinable thread List.mem_cons_self]
    rfl

/-- What the destruction after an exception comes to. -/
theorem Kept.destroy (h : Kept refused p threads) (hmain : p.main = .unwinding) :
    Kept refused (p.destroy 1) threads := by
  have hfits := h.main
  rw [hmain] at hfits
  refine ⟨by rw [destroy_threadPool, h.pool], h.joinable, ?_⟩
  rw [destroy_swarm]
  unfold Program.destroy
  rw [h.any_joinable]
  cases threads with
  | nil =>
    refine ⟨rfl, rfl, hfits.resolve_left fun hall => ?_⟩
    cases hall.1
  | cons thread rest => exact ⟨Nat.succ_pos _, hfits.imp And.right id⟩

/-- The wait is over only when the download is complete. -/
theorem next_eq_passed {b : Bool} {point : WaitPoint} (h : point.next b = some .passed) :
    b = true := by
  cases point with
  | locked =>
    cases b with
    | true => rfl
    | false => cases h
  | _ => cases h

/-- The main thread keeps the vector, and its place is one it can be in. -/
theorem Kept.advanced (h : Kept refused p threads) (hadvanced : p.Advanced p') {refused' : Prop}
    (hrefused : refused → refused')
    (hdenied : ∀ made, p.main = .starting made → p'.main = .unwinding → refused') :
    ∃ threads', Kept refused' p' threads' ∧ threads <+: threads' := by
  have hfits := h.main
  cases hadvanced with
  | counted hmain =>
    rw [hmain] at hfits
    exact ⟨threads, ⟨h.pool, h.joinable, hfits.1, fun hpassed => by cases hpassed⟩,
      List.prefix_refl _⟩
  | started hmain hfew =>
    rw [hmain] at hfits
    refine ⟨threads ++ [.running], ⟨?_, fun thread hthread => ?_, ?_⟩, List.prefix_append _ _⟩
    · rw [h.pool, List.append_assoc]
    · rcases List.mem_append.mp hthread with hold | hnew
      · exact h.joinable thread hold
      · rw [List.mem_singleton.mp hnew]
        rfl
    · refine ⟨?_, Nat.lt_of_le_of_ne hfits.2 hfew⟩
      rw [List.length_append, List.length_singleton, hfits.1]
  | denied hmain _ =>
    exact ⟨threads, ⟨h.pool, h.joinable, Or.inr (hdenied _ hmain rfl)⟩, List.prefix_refl _⟩
  | passed hmain =>
    rw [hmain] at hfits
    exact ⟨threads, ⟨h.pool, h.joinable, rfl, hfits.1, hfits.2 rfl⟩, List.prefix_refl _⟩
  | waited hmain hnext =>
    rw [hmain] at hfits
    refine ⟨threads, ⟨h.pool, h.joinable, hfits.1, fun hpassed => ?_⟩, List.prefix_refl _⟩
    subst hpassed
    exact next_eq_passed hnext
  | stopped hmain hend =>
    rw [hmain] at hfits
    rw [hfits.1, h.first] at hend
    cases hend
  | threw hmain _ =>
    rw [hmain] at hfits
    exact ⟨threads, ⟨h.pool, h.joinable, Or.inl hfits.2⟩, List.prefix_refl _⟩
  | joined hmain hreturned =>
    rw [hmain] at hfits
    rw [hfits.1, h.first] at hreturned
    cases hreturned
  | unwound hmain =>
    have hdestroyed := h.destroy hmain
    exact ⟨threads, ⟨hdestroyed.pool, hdestroyed.joinable, hdestroyed.main.mono id hrefused⟩,
      List.prefix_refl _⟩
  | returned hmain =>
    rw [hmain] at hfits
    exact hfits.elim

theorem notified_main (p : Program ι) : p.notified.main = p.main ∨
    ∃ point : WaitPoint, p.main = .waiting point ∧ p.notified.main = .waiting point.notified := by
  unfold Program.notified
  split
  · rename_i point hmain
    exact Or.inr ⟨point, hmain, rfl⟩
  · exact Or.inl rfl

/-- A notification ends no wait. -/
theorem notified_eq_passed {point : WaitPoint} (h : point.notified = .passed) :
    point = .passed := by
  cases point with
  | passed => rfl
  | _ => cases h

theorem Kept.notified (h : Kept refused p threads) : Kept refused p.notified threads := by
  refine ⟨by rw [notified_threadPool, h.pool], h.joinable, ?_⟩
  rw [notified_swarm]
  rcases notified_main p with hsame | ⟨point, hmain, hnotified⟩
  · rw [hsame]
    exact h.main
  · have hfits := h.main
    rw [hmain] at hfits
    rw [hnotified]
    exact ⟨hfits.1, fun hpassed => hfits.2 (notified_eq_passed hpassed)⟩

/-- A thread that returns is still to be joined. -/
theorem Kept.left (h : Kept refused p threads) {thread : Nat}
    (hrunning : p.threadPool[thread]? = some .running) :
    Kept refused { p with threadPool := p.threadPool.set thread .returned }
      (threads.set (thread - threadCount) .returned) := by
  have hbehind : threadCount ≤ thread := by
    by_contra hfront
    rw [h.pool, List.getElem?_append_left (by rw [List.length_replicate]; omega),
      List.getElem?_replicate, if_pos (by omega)] at hrunning
    cases hrunning
  refine ⟨?_, fun other hother => ?_, ?_⟩
  · change p.threadPool.set thread .returned = _
    rw [h.pool, List.set_append_right _ _ (by rwa [List.length_replicate]), List.length_replicate]
  · rcases List.mem_or_eq_of_mem_set hother with hold | rfl
    · exact h.joinable other hold
    · rfl
  · rw [List.length_set]
    exact h.main

/-- Sessions take steps only when a thread was started. -/
theorem Kept.serving (h : Kept refused p threads) (hserving : p.serving = true) :
    threads ≠ [] := by
  rintro rfl
  unfold Program.serving at hserving
  rw [h.pool, List.append_nil] at hserving
  split at hserving <;> cases hserving

variable {sha1 : Bytes → Sha1Hash} {launch : Launch} {disk : Disk} {tracked : Bool}
  {history : List (Transition (Program (Fin launch.peers.length))
    (Label (Fin launch.peers.length)))}
  {q q' : Program (Fin launch.peers.length)} {l : Label (Fin launch.peers.length)}

theorem Refused.cons (h : Refused history) (t : Transition _ _) : Refused (t :: history) := by
  obtain ⟨u, hu, hmade⟩ := h
  exact ⟨u, List.mem_cons_of_mem t hu, hmade⟩

/-- One step, with what the history records of it. -/
theorem Kept.step (h : Kept (Refused history) q threads)
    (hrun : (machine sha1 launch disk tracked).Run history q)
    (hstep : (machine sha1 launch disk tracked).step q l q') :
    ∃ threads', Kept (Refused (⟨q, l, q'⟩ :: history)) q' threads' ∧
      threads.length ≤ threads'.length ∧
      (threads' = [] → swarmStep ⟨q, l, q'⟩ = none) := by
  have hmono : Refused history → Refused (⟨q, l, q'⟩ :: history) := fun hold => hold.cons _
  have hswarm := refines_swarm q l q' hstep
  obtain ⟨action, hact⟩ := hstep
  cases act_step hact with
  | main hadvanced =>
    obtain ⟨threads', hkept, hprefix⟩ := h.advanced hadvanced hmono fun made hmain hunwinding =>
      ⟨_, List.mem_cons_self, ⟨made, hmain⟩, hunwinding⟩
    exact ⟨threads', hkept, hprefix.length_le, fun _ => rfl⟩
  | session hserving _ _ =>
    refine ⟨threads, ⟨h.pool, h.joinable, h.main.mono ?_ hmono⟩, Nat.le_refl _,
      fun hnone => absurd hnone (h.serving hserving)⟩
    exact Swarm.isComplete_mono (swarm_run hrun) hswarm
  | notified _ =>
    have hnotified := h.notified
    exact ⟨threads, ⟨hnotified.pool, hnotified.joinable, hnotified.main.mono id hmono⟩,
      Nat.le_refl _, fun _ => rfl⟩
  | left _ hrunning =>
    have hleft := h.left hrunning
    exact ⟨_, ⟨hleft.pool, hleft.joinable, hleft.main.mono id hmono⟩,
      Nat.le_of_eq List.length_set.symm, fun _ => rfl⟩

/-- In every run the vector is kept, and no session steps before the first thread. -/
theorem kept_of_run (hrun : (machine sha1 launch disk tracked).Run history q) :
    ∃ threads, Kept (Refused history) q threads ∧ (threads = [] → swarmHistory history = []) := by
  induction hrun with
  | start hinit =>
    rw [show _ = new _ _ _ from hinit]
    exact ⟨[], kept_new _ _ _, fun _ => rfl⟩
  | snoc hsofar hlast ih =>
    obtain ⟨threads, hkept, hidle⟩ := ih
    obtain ⟨threads', hkept', hlength, hquiet⟩ := hkept.step hsofar hlast
    refine ⟨threads', hkept', fun hnone => ?_⟩
    rw [hnone] at hlength
    rw [swarmHistory, Machine.project_cons_none (hquiet hnone)]
    exact hidle (List.length_eq_zero_iff.mp (Nat.le_zero.mp hlength))

/-- The vector only grows. -/
theorem threadPool_length_mono (hrun : (machine sha1 launch disk tracked).Run history q)
    {later : List (Transition (Program (Fin launch.peers.length))
      (Label (Fin launch.peers.length)))}
    (hlater : ((machine sha1 launch disk tracked).startingAt q).Run later q') :
    q.threadPool.length ≤ q'.threadPool.length := by
  induction hlater with
  | start hinit =>
    rw [show _ = q from hinit]
  | snoc hsofar hlast ih =>
    have hbefore := hrun.append hsofar
    obtain ⟨threads, hkept, _⟩ := kept_of_run hbefore
    obtain ⟨threads', hkept', hlength, _⟩ := hkept.step hbefore hlast
    rw [hkept.pool, List.length_append] at ih
    rw [hkept'.pool, List.length_append]
    omega

/-- The steps that are left after the wait: the exception of the first join, and the end of
the program. -/
theorem canReach_terminated (hrun : (machine sha1 launch disk tracked).Run history q) {next : Nat}
    (hmain : q.main = .stopping next) :
    (machine sha1 launch disk tracked).CanReach (fun _ _ => True)
      (fun _ p => p.main = .terminated) history q := by
  obtain ⟨threads, hkept, _⟩ := kept_of_run hrun
  have hfits := hkept.main
  rw [hmain] at hfits
  obtain ⟨rfl, hcount, _⟩ := hfits
  have hthrows : (machine sha1 launch disk tracked).step q (.main true)
      { q with main := .unwinding } := by
    refine ⟨.main true, ?_⟩
    simp only [act, advance, hmain, hkept.first, Option.map_some]
  have hjoinable : q.threadPool.any ThreadObject.joinable = true := by
    rw [hkept.any_joinable]
    refine decide_eq_true fun hnone => ?_
    rw [hnone] at hcount
    cases hcount
  have hends : (machine sha1 launch disk tracked).step { q with main := .unwinding } (.main true)
      { q with main := .terminated } := by
    refine ⟨.main true, ?_⟩
    simp only [act, advance, destroy, hjoinable, if_true, Option.map_some]
  exact .step hthrows trivial (.step hends trivial (.here rfl))

/-- What the end of a run says about it. -/
theorem ending_of_run (hrun : (machine sha1 launch disk tracked).Run history q) :
    (∀ status, q.main = .exited status → status = 1 ∧ swarmHistory history = []) ∧
    (q.main = .terminated →
      PieceManager.AllFinished launch.metadata q.swarm.manager ∨ Refused history) := by
  obtain ⟨threads, hkept, hidle⟩ := kept_of_run hrun
  have hfits := hkept.main
  refine ⟨fun status hmain => ?_, fun hmain => ?_⟩
  · rw [hmain] at hfits
    exact ⟨hfits.1, hidle (List.length_eq_zero_iff.mp hfits.2.1)⟩
  · rw [hmain] at hfits
    exact hfits.2.imp_left
      (PieceManager.isComplete_iff_of_run (Swarm.manager_run (swarm_run hrun))).mp

end Program

/-- **The program never ends successfully.**  Whatever torrent and tracker, and whatever the
sessions do: no run ends with status 0.  Status 1 comes before any session has taken a step.
A run that is terminated has finished every piece, or the system has refused to start a
thread.  And once the wait for the download is over the program can still come to its
termination, and cannot exit. -/
theorem ends_unsuccessfully {Url : Type} {sha1 : Bytes → Sha1Hash} (env : Surroundings Url) :
    (∀ status, env.Ends sha1 (.exited status) → status = 1) ∧
    ∀ fuel launch, env.launch sha1 fuel = .ok launch → ∀ history p,
      (Program.machine sha1 launch env.disk (!env.verbose)).Run history p →
        (∀ status, p.main = .exited status → Program.swarmHistory history = []) ∧
        (p.main = .terminated →
          PieceManager.AllFinished launch.metadata p.swarm.manager ∨ Program.Refused history) ∧
        ∀ next, p.main = .stopping next →
          (Program.machine sha1 launch env.disk (!env.verbose)).CanReach (fun _ _ => True)
            (fun _ p' => p'.main = .terminated) history p ∧
          ∀ later p' status, ((Program.machine sha1 launch env.disk
            (!env.verbose)).startingAt p).Run later p' → p'.main ≠ .exited status := by
  refine ⟨fun status hends => ?_, fun fuel launch _ history p hrun => ?_⟩
  · cases hends with
    | refused _ => rfl
    | exited _ hrun hmain => exact ((Program.ending_of_run hrun).1 status hmain).1
  · obtain ⟨hexited, hterminated⟩ := Program.ending_of_run hrun
    refine ⟨fun status hmain => (hexited status hmain).2, hterminated, fun next hmain =>
      ⟨Program.canReach_terminated hrun hmain, fun later p' status hlater hexit => ?_⟩⟩
    obtain ⟨threads, hkept, _⟩ := Program.kept_of_run hrun
    obtain ⟨threads', hkept', _⟩ := Program.kept_of_run (hrun.append hlater)
    have hgrown := Program.threadPool_length_mono hrun hlater
    have hfits := hkept.main
    have hfits' := hkept'.main
    rw [hmain] at hfits
    rw [hexit] at hfits'
    rw [hkept.pool, hkept'.pool, List.length_append, List.length_append, hfits.2.1,
      hfits'.2.1] at hgrown
    exact absurd hgrown (by decide)

/-- The example is downloaded, and then the program is terminated. -/
theorem ends_unsuccessfully_oneBlock :
    ∃ history, ∃ p : Program (Fin 1),
      (Program.machine Program.sampleSha1 (Program.sampleLaunch [Program.samplePeer])
        PieceManager.emptyFile true).Run history p ∧
      p.main = .terminated ∧ p.swarm.manager.fileHandler.content = [7] ∧
      (PieceManager.AllFinished Program.sampleTorrent p.swarm.manager ∨
        Program.Refused history) := by
  have hlaunch : (Program.sampleSurroundings [Program.samplePeer]).launch Program.sampleSha1 8 =
      .ok (Program.sampleLaunch [Program.samplePeer]) := by
    decide +kernel
  have hacts : ((Program.new Program.sampleTorrent PieceManager.emptyFile true :
      Program (Fin 1)).actAll Program.sampleSha1
        (sessionConfig Program.sampleTorrent Swarm.samplePeerId) (Program.sampleActions 0)
        []).any (fun r => decide (r.2.main = .terminated ∧
          r.2.swarm.manager.fileHandler.content = [7])) = true := by
    decide +kernel
  obtain ⟨history, p, hrun, hchecks⟩ :=
    Program.exists_run (Program.sampleLaunch [Program.samplePeer]) hacts
  obtain ⟨hmain, hcontent⟩ := of_decide_eq_true hchecks
  have hends := (ends_unsuccessfully (Program.sampleSurroundings [Program.samplePeer])).2 8 _
    hlaunch history p hrun
  exact ⟨history, p, hrun, hmain, hcontent, hends.2.1 hmain⟩

/-! ## A download without sessions -/

namespace Program

/-- The main thread is in its wait, or before it. -/
def Underway {ι : Type} (p : Program ι) : Prop :=
  (∃ made, p.main = .starting made) ∨ ∃ point, p.main = .waiting point

variable {sha1 : Bytes → Sha1Hash} {launch : Launch} {disk : Disk} {tracked : Bool}
  {history later : List (Transition (Program (Fin launch.peers.length))
    (Label (Fin launch.peers.length)))}
  {q q' : Program (Fin launch.peers.length)}

/-- When all sessions have ended, the swarm stays as it is. -/
theorem swarm_of_deserted (hdeserted : q.Deserted)
    (hlater : ((machine sha1 launch disk tracked).startingAt q).Run later q') :
    q'.swarm = q.swarm := by
  induction hlater with
  | start hinit => rw [show _ = q from hinit]
  | snoc _ hlast ih =>
    obtain ⟨action, hact⟩ := hlast
    cases act_step hact with
    | main hadvanced => exact hadvanced.swarm.trans ih
    | session _ _ hfire =>
      have hlive := Swarm.fire_live hfire
      rw [ih] at hlive
      exact absurd (hdeserted _) hlive
    | notified _ => exact (notified_swarm _).trans ih
    | left _ _ => exact ih

/-- With a piece missing, and no thread refused, the main thread is in its wait or before
it. -/
theorem underway_of_run (hrun : (machine sha1 launch disk tracked).Run history q)
    (hmissing : ¬ PieceManager.AllFinished launch.metadata q.swarm.manager)
    (hgranted : ¬ Refused history) : q.Underway := by
  obtain ⟨threads, hkept, _⟩ := kept_of_run hrun
  have hincomplete : ¬ q.swarm.manager.isComplete = true := fun hcomplete =>
    hmissing ((PieceManager.isComplete_iff_of_run (Swarm.manager_run (swarm_run hrun))).mp
      hcomplete)
  have hfits := hkept.main
  cases hmain : q.main with
  | starting made => exact Or.inl ⟨made, hmain⟩
  | waiting point => exact Or.inr ⟨point, hmain⟩
  | stopping next =>
    rw [hmain] at hfits
    exact absurd hfits.2.2 hincomplete
  | unwinding =>
    rw [hmain] at hfits
    rcases hfits with hall | hrefused
    · exact absurd hall.2 hincomplete
    · exact absurd hrefused hgranted
  | returning =>
    rw [hmain] at hfits
    exact hfits.elim
  | exited status =>
    rw [hmain] at hfits
    exact absurd hfits.2.2 hgranted
  | terminated =>
    rw [hmain] at hfits
    rcases hfits.2 with hcomplete | hrefused
    · exact absurd hcomplete hincomplete
    · exact absurd hrefused hgranted

/-- A torrent with a piece is not complete at once. -/
theorem missing_new (hpieces : 0 < launch.metadata.numPieces) :
    ¬ PieceManager.AllFinished launch.metadata
      (new launch.metadata disk tracked : Program (Fin launch.peers.length)).swarm.manager := by
  intro hall
  have hfirst := hall 0 hpieces
  change (List.replicate launch.metadata.numPieces false)[0]? = some true at hfirst
  rw [List.getElem?_replicate, if_pos hpieces] at hfirst
  cases hfirst

end Program

/-- **A download that has lost its sessions never ends.**  Once every session has ended while
a piece is missing, nothing changes any more, and unless the system refuses to start a thread
the main thread stays in its wait for ever.  So it does when the tracker names no peer. -/
theorem underway_without_sessions (sha1 : Bytes → Sha1Hash) (launch : Launch) (disk : Disk)
    (tracked : Bool) :
    (∀ history p, (Program.machine sha1 launch disk tracked).Run history p → p.Deserted →
      ¬ PieceManager.AllFinished launch.metadata p.swarm.manager →
      ∀ later p', ((Program.machine sha1 launch disk tracked).startingAt p).Run later p' →
        p'.swarm = p.swarm ∧ (¬ Program.Refused (later ++ history) → p'.Underway)) ∧
    (launch.peers = [] → 0 < launch.metadata.numPieces →
      ∀ history p, (Program.machine sha1 launch disk tracked).Run history p →
        ¬ Program.Refused history → p.Underway) := by
  have hstays : ∀ history p, (Program.machine sha1 launch disk tracked).Run history p →
      p.Deserted → ¬ PieceManager.AllFinished launch.metadata p.swarm.manager →
      ∀ later p', ((Program.machine sha1 launch disk tracked).startingAt p).Run later p' →
        p'.swarm = p.swarm ∧ (¬ Program.Refused (later ++ history) → p'.Underway) := by
    intro history p hrun hdeserted hmissing later p' hlater
    have hsame := Program.swarm_of_deserted hdeserted hlater
    refine ⟨hsame, Program.underway_of_run (hrun.append hlater) ?_⟩
    rw [hsame]
    exact hmissing
  refine ⟨hstays, fun hpeers hpieces history p hrun hgranted => ?_⟩
  have hdeserted : (Program.new launch.metadata disk tracked :
      Program (Fin launch.peers.length)).Deserted := by
    intro i
    have hnone : launch.peers.length = 0 := List.length_eq_zero_iff.mpr hpeers
    exact absurd (Nat.lt_of_lt_of_eq i.isLt hnone) (Nat.not_lt_zero _)
  have hrest := (hstays [] _ (.start rfl) hdeserted (Program.missing_new hpieces) history p
    hrun).2
  rw [List.append_nil] at hrest
  exact hrest hgranted

/-- The only peer cannot be reached. -/
theorem underway_without_sessions_unreachable :
    ∃ history, ∃ p : Program (Fin 1),
      (Program.machine Program.sampleSha1 (Program.sampleLaunch [Program.samplePeer])
        PieceManager.emptyFile true).Run history p ∧ p.main = .waiting .asleep ∧
      ∀ later p', ((Program.machine Program.sampleSha1
        (Program.sampleLaunch [Program.samplePeer]) PieceManager.emptyFile true).startingAt
          p).Run later p' → p'.swarm = p.swarm := by
  have hacts : ((Program.new Program.sampleTorrent PieceManager.emptyFile true :
      Program (Fin 1)).actAll Program.sampleSha1
        (sessionConfig Program.sampleTorrent Swarm.samplePeerId)
        (Program.begun (Fin 1) ++ [.session 0 (.io (.connected (.failed false))),
          .session 0 (.io (.wrote false 0)), .leave 4]) []).any (fun r =>
            decide (r.2.main = .waiting .asleep ∧ r.2.Deserted ∧
              r.2.swarm.manager.finished[0]? = some false)) = true := by
    decide +kernel
  obtain ⟨history, p, hrun, hchecks⟩ :=
    Program.exists_run (Program.sampleLaunch [Program.samplePeer]) hacts
  obtain ⟨hmain, hdeserted, hunfinished⟩ := of_decide_eq_true hchecks
  refine ⟨history, p, hrun, hmain, fun later p' hlater => ?_⟩
  refine ((underway_without_sessions Program.sampleSha1 _ _ true).1 history p hrun hdeserted ?_
    later p' hlater).1
  intro hall
  have hfirst := hall 0 (by decide)
  rw [hunfinished] at hfirst
  cases hfirst

end BitTorrentClient
