/-
  App/Program/Finishing.lean --- the program can finish a download.

  What the sessions can go on to in the swarm, they can go on to in the program: while a
  session is left there is a thread that runs it, and a call that has to notify does so
  before the next one.  The main thread is first let into its sleep; then the notification
  of the last piece is not lost, and wakes it up.
-/
import BitTorrentClient.App.Program.Ending
import BitTorrentClient.App.Swarm.Liveness

set_option autoImplicit false

namespace BitTorrentClient

open Library

namespace Swarm

variable {ι : Type} [DecidableEq ι] {sha1 : Bytes → Sha1Hash} {metadata : TorrentMetadata}
  {peerId : Bytes} {w w' : Swarm ι} {l : ι × Event}
  {history : List (Transition (Swarm ι) (ι × Event))}

/-- The step that completes the download notifies, and no other. -/
theorem notifies_iff (hrun : (machine sha1 metadata peerId).Run history w)
    (hstep : (machine sha1 metadata peerId).step w l w') (hpieces : 0 < metadata.numPieces) :
    w.manager.completionNotified < w'.manager.completionNotified ↔
      w.manager.isComplete = false ∧ w'.manager.isComplete = true := by
  have hmanager := refines_manager w l w' hstep
  have hsofar := manager_run hrun
  cases hcall : callOf ⟨w, l, w'⟩ with
  | none =>
    rw [hcall] at hmanager
    rw [show w'.manager = w.manager from hmanager]
    refine iff_of_false (Nat.lt_irrefl _) fun hboth => ?_
    rw [hboth.1] at hboth
    cases hboth.2
  | some call =>
    rw [hcall] at hmanager
    have hafter := hsofar.snoc hmanager
    have hs := PieceManager.shaped_of_run hsofar
    rw [← Bool.not_eq_true, PieceManager.isComplete_iff_of_run hsofar,
      PieceManager.isComplete_iff_of_run hafter]
    rcases PieceManager.notified_change hs (PieceManager.bookkeeping_of_run hsofar)
      (PieceManager.machine_step hmanager) hpieces with ⟨hbefore, hdone, hnotified⟩ |
        ⟨hsame, hnotified⟩
    · exact iff_of_true (by omega) ⟨hbefore, hdone⟩
    · exact iff_of_false (by omega) fun hboth => hboth.1 (hsame.mpr hboth.2)

end Swarm

namespace Program

variable {sha1 : Bytes → Sha1Hash} {launch : Launch} {disk : Disk} {tracked : Bool}
  {history : List (Transition (Program (Fin launch.peers.length))
    (Label (Fin launch.peers.length)))}
  {p p' : Program (Fin launch.peers.length)} {l : Label (Fin launch.peers.length)}

/-! ## There is a thread for every session that is left -/

/-- What the main thread does to the vector. -/
theorem Advanced.mem_returned (h : p.Advanced p')
    (hreturned : ThreadObject.returned ∈ p'.threadPool) :
    ThreadObject.returned ∈ p.threadPool := by
  cases h with
  | started _ _ =>
    rcases List.mem_append.mp hreturned with hold | hnew
    · exact hold
    · cases List.mem_singleton.mp hnew
  | joined _ hat =>
    rcases List.mem_or_eq_of_mem_set hreturned with hold | hvacant
    · exact hold
    · cases hvacant
  | unwound _ => exact destroy_threadPool p 1 ▸ hreturned
  | returned _ => exact destroy_threadPool p 0 ▸ hreturned
  | _ => exact hreturned

/-- A thread returns only when all sessions have ended. -/
theorem deserted_of_returned (hrun : (machine sha1 launch disk tracked).Run history p)
    (hreturned : ThreadObject.returned ∈ p.threadPool) : p.Deserted := by
  induction hrun with
  | start hinit =>
    rw [show _ = new _ _ _ from hinit] at hreturned
    cases List.eq_of_mem_replicate hreturned
  | snoc _ hlast ih =>
    obtain ⟨action, hact⟩ := hlast
    cases act_step hact with
    | main hadvanced =>
      intro i
      rw [hadvanced.swarm]
      exact ih (hadvanced.mem_returned hreturned) i
    | session _ _ hfire => exact absurd (ih hreturned _) (Swarm.fire_live hfire)
    | notified _ =>
      rw [notified_threadPool] at hreturned
      intro i
      rw [notified_swarm]
      exact ih hreturned i
    | left hdeserted _ => exact hdeserted

/-- While the main thread waits, a session that has not ended can be run. -/
theorem serving_of_live (hrun : (machine sha1 launch disk tracked).Run history p)
    {point : WaitPoint} (hmain : p.main = .waiting point) {i : Fin launch.peers.length}
    (hlive : (p.swarm.sessions i).Live) : p.serving = true := by
  obtain ⟨threads, hkept, _⟩ := kept_of_run hrun
  have hfits := hkept.main
  rw [hmain] at hfits
  unfold Program.serving
  rw [hmain]
  cases threads with
  | nil => cases hfits.1
  | cons thread rest =>
    have hfirst : thread ∈ p.threadPool := by
      rw [hkept.pool]
      exact List.mem_append_right _ List.mem_cons_self
    have hjoinable := hkept.joinable thread List.mem_cons_self
    cases thread with
    | vacant => cases hjoinable
    | running => exact List.contains_iff_mem.mpr hfirst
    | returned => exact absurd (deserted_of_returned hrun hfirst i) hlive

/-! ## The notification of the last piece -/

/-- A call that is about to notify has completed the download. -/
theorem complete_of_owes (hrun : (machine sha1 launch disk tracked).Run history p)
    (hpieces : 0 < launch.metadata.numPieces) (howes : p.owes = true) :
    p.swarm.manager.isComplete = true := by
  induction hrun with
  | start hinit =>
    rw [show _ = new _ _ _ from hinit] at howes
    cases howes
  | @snoc history p p' l hsofar hlast ih =>
    have hswarm := refines_swarm p l p' hlast
    obtain ⟨action, hact⟩ := hlast
    cases act_step hact with
    | main hadvanced =>
      rw [hadvanced.swarm]
      refine ih ?_
      cases hadvanced with
      | unwound _ => exact (destroy_owes p 1).symm.trans howes
      | returned _ => exact (destroy_owes p 0).symm.trans howes
      | _ => exact howes
    | session _ _ _ =>
      rcases Bool.or_eq_true_iff.mp howes with hold | hnew
      · exact Swarm.isComplete_mono (swarm_run hsofar) hswarm (ih hold)
      · exact ((Swarm.notifies_iff (swarm_run hsofar) hswarm hpieces).mp
          (of_decide_eq_true hnew)).2
    | notified _ =>
      unfold Program.notified at howes
      split at howes
      · cases howes
      · cases howes
    | left _ _ => exact ih howes

/-- The main thread sleeps, and is woken up when the download is complete. -/
structure Attentive (sha1 : Bytes → Sha1Hash) (launch : Launch) (disk : Disk) (tracked : Bool)
    (history : List (Transition (Program (Fin launch.peers.length))
      (Label (Fin launch.peers.length)))) (p : Program (Fin launch.peers.length)) : Prop where
  run : (machine sha1 launch disk tracked).Run history p
  quiet : p.owes = false
  main : p.main = .waiting (if p.swarm.manager.isComplete then .woken else .asleep)

variable {contents : Nat → Bytes}

/-- The steps of the sessions are honest. -/
def Decent (contents : Nat → Bytes) (p : Program (Fin launch.peers.length))
    (l : Label (Fin launch.peers.length)) : Prop :=
  ∀ i event, l = .session i event → p.swarm.honest contents (i, event) = true

theorem decent_of_ne {contents : Nat → Bytes} {p : Program (Fin launch.peers.length)}
    {l : Label (Fin launch.peers.length)} (h : ∀ i event, l ≠ .session i event) :
    Decent contents p l :=
  fun i event hsession => absurd hsession (h i event)

/-- A step of the main thread, from where it is. -/
theorem canReach_main {P : List (Transition (Program (Fin launch.peers.length))
      (Label (Fin launch.peers.length))) → Program (Fin launch.peers.length) → Prop}
    (hadvance : p.advance true = some p')
    (hrest : (machine sha1 launch disk tracked).CanReach (Decent contents) P
      (⟨p, .main true, p'⟩ :: history) p') :
    (machine sha1 launch disk tracked).CanReach (Decent contents) P history p :=
  .step ⟨.main true, by rw [act, hadvance]; rfl⟩ (decent_of_ne (by simp)) hrest

/-- A step of a session in the swarm is one in the program; if it completes the download,
the notification follows. -/
theorem Attentive.lift (h : Attentive sha1 launch disk tracked history p)
    (hpieces : 0 < launch.metadata.numPieces) {i : Fin launch.peers.length} {event : Event}
    {w : Swarm (Fin launch.peers.length)}
    (hstep : (Swarm.machine sha1 launch.metadata launch.peerId).step p.swarm (i, event) w)
    (hhonest : p.swarm.honest contents (i, event) = true) :
    (machine sha1 launch disk tracked).CanReach (Decent contents)
      (fun history' p' => Attentive sha1 launch disk tracked history' p' ∧ p'.swarm = w ∧
        swarmHistory history' = ⟨p.swarm, (i, event), w⟩ :: swarmHistory history) history p := by
  have hnotifies := Swarm.notifies_iff (swarm_run h.run) hstep hpieces
  have hmono := Swarm.isComplete_mono (swarm_run h.run) hstep
  obtain ⟨action, hfire⟩ := hstep
  have hserving := serving_of_live h.run h.main (Swarm.fire_live hfire)
  have hadmits : p.admits action = true := by
    unfold Program.admits
    cases action with
    | io _ => rfl
    | call _ => rw [h.quiet]; rfl
  have hsession : (machine sha1 launch disk tracked).step p (.session i event) (p.withSwarm w) := by
    refine ⟨.session i action, ?_⟩
    simp only [act, hserving, hadmits, hfire, Bool.and_self, if_true, Option.map_some]
  have hdecent : Decent contents p (.session i event) := by
    intro j other hsame
    obtain ⟨rfl, rfl⟩ := Label.session.inj hsame
    exact hhonest
  have hrun := h.run.snoc hsession
  have hproject : swarmHistory (⟨p, .session i event, p.withSwarm w⟩ :: history) =
      ⟨p.swarm, (i, event), w⟩ :: swarmHistory history := Machine.project_cons_some rfl
  by_cases hcompletes : p.swarm.manager.isComplete = false ∧ w.manager.isComplete = true
  · -- the main thread sleeps, and the notification wakes it up
    have hsleeps : (p.withSwarm w).main = .waiting .asleep := by
      refine h.main.trans ?_
      rw [hcompletes.1]
      rfl
    have howes : (p.withSwarm w).owes = true :=
      Bool.or_eq_true_iff.mpr (Or.inr (decide_eq_true (hnotifies.mpr hcompletes)))
    have hnotified : (p.withSwarm w).notified =
        { p.withSwarm w with main := .waiting .woken, owes := false } := by
      simp only [Program.notified, hsleeps, WaitPoint.notified]
    have hnotify : (machine sha1 launch disk tracked).step (p.withSwarm w) .notify
        (p.withSwarm w).notified := ⟨.notify, by rw [act, if_pos howes]⟩
    refine .step hsession hdecent (.step hnotify (decent_of_ne (by simp))
      (.here ⟨⟨hrun.snoc hnotify, ?_, ?_⟩, notified_swarm _,
        (Machine.project_cons_none rfl).trans hproject⟩))
    · rw [hnotified]
    · rw [hnotified]
      dsimp only
      rw [show (p.withSwarm w).swarm = w from rfl, hcompletes.2]
      rfl
  · have hsame : w.manager.isComplete = p.swarm.manager.isComplete := by
      cases hbefore : p.swarm.manager.isComplete with
      | true => exact hmono hbefore
      | false =>
        rw [hbefore, and_iff_right rfl, Bool.not_eq_true] at hcompletes
        exact hcompletes
    refine .step hsession hdecent (.here ⟨⟨hrun, ?_, ?_⟩, rfl, hproject⟩)
    · refine Bool.or_eq_false_iff.mpr ⟨h.quiet, decide_eq_false fun hless => ?_⟩
      exact hcompletes (hnotifies.mp hless)
    · refine h.main.trans ?_
      rw [show (p.withSwarm w).swarm = w from rfl, hsame]

/-! ## From any wait to the end -/

/-- A piece is missing, and no call is about to notify. -/
structure Missing (sha1 : Bytes → Sha1Hash) (launch : Launch) (disk : Disk) (tracked : Bool)
    (history : List (Transition (Program (Fin launch.peers.length))
      (Label (Fin launch.peers.length)))) (p : Program (Fin launch.peers.length)) : Prop where
  run : (machine sha1 launch disk tracked).Run history p
  quiet : p.owes = false
  missing : p.swarm.manager.isComplete = false

/-- The main thread can come to its sleep, without the sessions. -/
def Settles (sha1 : Bytes → Sha1Hash) (launch : Launch) (disk : Disk) (tracked : Bool)
    (contents : Nat → Bytes) (history : List (Transition (Program (Fin launch.peers.length))
      (Label (Fin launch.peers.length)))) (p : Program (Fin launch.peers.length)) : Prop :=
  (machine sha1 launch disk tracked).CanReach (Decent contents)
    (fun history' p' => Attentive sha1 launch disk tracked history' p' ∧ p'.swarm = p.swarm ∧
      swarmHistory history' = swarmHistory history) history p

/-- A step of the main thread in `start` or in the wait. -/
theorem Missing.settles_main (h : Missing sha1 launch disk tracked history p)
    (p' : Program (Fin launch.peers.length)) (hadvance : p.advance true = some p')
    (hswarm : p'.swarm = p.swarm) (howes : p'.owes = p.owes)
    (hrest : ∀ history', Missing sha1 launch disk tracked history' p' →
      Settles sha1 launch disk tracked contents history' p') :
    Settles sha1 launch disk tracked contents history p := by
  have hstep : (machine sha1 launch disk tracked).step p (.main true) p' :=
    ⟨.main true, by rw [act, hadvance]; rfl⟩
  have hafter : Missing sha1 launch disk tracked (⟨p, .main true, p'⟩ :: history) p' :=
    ⟨h.run.snoc hstep, howes.trans h.quiet, by rw [hswarm]; exact h.missing⟩
  refine canReach_main hadvance ((hrest _ hafter).mono fun history' q hsettled => ?_)
  exact ⟨hsettled.1, hsettled.2.1.trans hswarm,
    hsettled.2.2.trans (Machine.project_cons_none rfl)⟩

theorem Missing.settles_falling (h : Missing sha1 launch disk tracked history p)
    (hmain : p.main = .waiting .falling) :
    Settles sha1 launch disk tracked contents history p := by
  refine h.settles_main { p with main := .waiting .asleep } ?_ rfl rfl fun _ hafter => ?_
  · simp only [advance, hmain, WaitPoint.next, Option.map_some]
  · refine .here ⟨⟨hafter.run, hafter.quiet, ?_⟩, rfl, rfl⟩
    rw [hafter.missing]
    rfl

theorem Missing.settles_locked (h : Missing sha1 launch disk tracked history p)
    (hmain : p.main = .waiting .locked) :
    Settles sha1 launch disk tracked contents history p := by
  refine h.settles_main { p with main := .waiting .falling } ?_ rfl rfl
    fun _ hafter => hafter.settles_falling rfl
  simp only [advance, hmain, h.missing, WaitPoint.next, Bool.false_eq_true, if_false,
    Option.map_some]

/-- From every point of the wait. -/
theorem Missing.settles_waiting (h : Missing sha1 launch disk tracked history p)
    {point : WaitPoint} (hmain : p.main = .waiting point) :
    Settles sha1 launch disk tracked contents history p := by
  cases point with
  | outside =>
    refine h.settles_main { p with main := .waiting .locked } ?_ rfl rfl
      fun _ hafter => hafter.settles_locked rfl
    simp only [advance, hmain, WaitPoint.next, Option.map_some]
  | locked => exact h.settles_locked hmain
  | falling => exact h.settles_falling hmain
  | asleep =>
    refine .here ⟨⟨h.run, h.quiet, ?_⟩, rfl, rfl⟩
    rw [h.missing]
    exact hmain
  | woken =>
    refine h.settles_main { p with main := .waiting .locked } ?_ rfl rfl
      fun _ hafter => hafter.settles_locked rfl
    simp only [advance, hmain, WaitPoint.next, Option.map_some]
  | passed =>
    obtain ⟨threads, hkept, _⟩ := kept_of_run h.run
    have hfits := hkept.main
    rw [hmain] at hfits
    have hcomplete := hfits.2 rfl
    rw [h.missing] at hcomplete
    cases hcomplete

/-- And from the loop of `start`; by induction on the threads that are still to be
started. -/
theorem Missing.settles_starting {n made : Nat} (hleft : made + n = threadCount)
    (h : Missing sha1 launch disk tracked history p) (hmain : p.main = .starting made) :
    Settles sha1 launch disk tracked contents history p := by
  induction n generalizing made history p with
  | zero =>
    refine h.settles_main { p with main := .waiting .outside } ?_ rfl rfl
      fun _ hafter => hafter.settles_waiting rfl
    rw [advance, hmain]
    exact if_pos hleft
  | succ n ih =>
    refine h.settles_main { p with
      main := .starting (made + 1)
      threadPool := p.threadPool ++ [.running] } ?_ rfl rfl
        fun _ hafter => ih (by omega) hafter rfl
    rw [advance, hmain]
    exact if_neg (by omega)

theorem Missing.settles (h : Missing sha1 launch disk tracked history p)
    (hunderway : p.Underway) : Settles sha1 launch disk tracked contents history p := by
  rcases hunderway with ⟨made, hmain⟩ | ⟨point, hmain⟩
  · obtain ⟨threads, hkept, _⟩ := kept_of_run h.run
    have hfits := hkept.main
    rw [hmain] at hfits
    exact h.settles_starting (Nat.add_sub_cancel' hfits.2) hmain
  · exact h.settles_waiting hmain

/-- When the download is complete, the main thread wakes up and goes on to the end. -/
theorem Attentive.canReach_terminated (h : Attentive sha1 launch disk tracked history p)
    (hcomplete : p.swarm.manager.isComplete = true) :
    (machine sha1 launch disk tracked).CanReach (Decent contents)
      (fun history' p' => p'.main = .terminated ∧
        swarmHistory history' = swarmHistory history) history p := by
  have hmain := h.main
  rw [hcomplete] at hmain
  obtain ⟨threads, hkept, _⟩ := kept_of_run h.run
  have hfits := hkept.main
  rw [hmain] at hfits
  have hjoinable : p.threadPool.any ThreadObject.joinable = true := by
    rw [hkept.any_joinable]
    refine decide_eq_true fun hnone => ?_
    rw [hnone] at hfits
    cases hfits.1
  have hlocks : p.advance true = some { p with main := .waiting .locked } := by
    rw [advance, hmain]
    rfl
  have hpasses : advance { p with main := .waiting .locked } true =
      some { p with main := .waiting .passed } := by
    simp only [advance, WaitPoint.next, hcomplete, if_true, Option.map_some]
  have hstops : advance { p with main := .waiting .passed } true =
      some { p with main := .stopping 0 } := rfl
  have hthrows : advance { p with main := .stopping 0 } true =
      some { p with main := .unwinding } := by
    simp only [advance, hkept.first]
  have hends : advance { p with main := .unwinding } true =
      some { p with main := .terminated } := by
    simp only [advance, destroy, hjoinable, if_true]
  refine canReach_main hlocks (canReach_main hpasses (canReach_main hstops
    (canReach_main hthrows (canReach_main hends (.here ⟨rfl, ?_⟩)))))
  rfl

/-- **The program can finish its download.**  Take any run of the program, in any
interleaving, in which peers are honest, up to a state in which a piece is missing, no thread
was refused, the peers that owe blocks have bitfields of the size of the torrent's with no
bit behind the last piece, what has come is what was asked for, the file is open, and a
session in its loop has a seed.  Then the program can go on, with honest peers, to its
termination, with every piece finished and verified as the content that was announced.

As for the sessions alone, a peer that owes blocks and has choked us since answers the
requests that it dropped. -/
theorem can_finish (hannounced : PieceManager.Announced sha1 launch.metadata contents)
    (hrun : (machine sha1 launch disk tracked).Run history p)
    (hhonest : Machine.Guarded (fun w l => w.honest contents l = true) (swarmHistory history))
    (hready : Swarm.Ready launch.metadata contents p.swarm) {j : Fin launch.peers.length}
    (hin : (p.swarm.sessions j).inLoop = true)
    (hseeds : PieceManager.Seeds launch.metadata (p.swarm.sessions j).peerBitfield)
    (hmissing : ¬ PieceManager.AllFinished launch.metadata p.swarm.manager)
    (hgranted : ¬ Refused history) :
    ∃ more p', ((machine sha1 launch disk tracked).startingAt p).Run more p' ∧
      Machine.Guarded (Decent contents) more ∧ p'.main = .terminated ∧
      ∀ i < launch.metadata.numPieces, PieceManager.verifiedBuffer i
        (Swarm.managerHistory (swarmHistory (more ++ history))) = some (contents i) := by
  have hcomplete := PieceManager.isComplete_iff_of_run (Swarm.manager_run (swarm_run hrun))
  have hincomplete : p.swarm.manager.isComplete = false :=
    Bool.eq_false_iff.mpr fun h => hmissing (hcomplete.mp h)
  have hpieces : 0 < launch.metadata.numPieces := by
    refine Nat.pos_of_ne_zero fun hzero => hmissing fun i hi => ?_
    rw [hzero] at hi
    exact absurd hi (Nat.not_lt_zero i)
  have hquiet : p.owes = false := by
    refine Bool.eq_false_iff.mpr fun howes => ?_
    rw [complete_of_owes hrun hpieces howes] at hincomplete
    cases hincomplete
  have hmissing' : Missing sha1 launch disk tracked history p := ⟨hrun, hquiet, hincomplete⟩
  -- what the sessions alone can go on to
  have hgoing : Swarm.Going sha1 launch.metadata launch.peerId contents (swarmHistory history)
      p.swarm := ⟨swarm_run hrun, hhonest, hready⟩
  obtain ⟨moreSwarm, w, hmoreSwarm, hguarded, hend, hdone⟩ :=
    hgoing.canComplete hannounced hin hseeds
  have hreach : (machine sha1 launch disk tracked).CanReach (Decent contents)
      (fun history' p' => p'.main = .terminated ∧
        swarmHistory history' = moreSwarm ++ swarmHistory history) history p := by
    refine (hmissing'.settles (underway_of_run hrun hmissing hgranted)).trans
      fun history₁ p₁ hsettled => ?_
    obtain ⟨hattentive, hswarm, hhistory⟩ := hsettled
    rw [← hhistory]
    have hlifted : (machine sha1 launch disk tracked).CanReach (Decent contents)
        (fun history' p' => Attentive sha1 launch disk tracked history' p' ∧ p'.swarm = w ∧
          swarmHistory history' = moreSwarm ++ swarmHistory history₁) history₁ p₁ := by
      refine Machine.canReach_of_run ?_ hattentive (hswarm ▸ hmoreSwarm) hguarded
      intro history₂ p₂ l w₂ hattentive₂ hstep hhonest₂
      exact hattentive₂.lift hpieces hstep hhonest₂
    refine hlifted.trans fun history₂ p₂ hreached => ?_
    obtain ⟨hattentive₂, rfl, hhistory₂⟩ := hreached
    refine (hattentive₂.canReach_terminated hdone).mono fun history₃ p₃ hterminated => ?_
    exact ⟨hterminated.1, hterminated.2.trans hhistory₂⟩
  obtain ⟨more, p', hmore, hdecent, hmain, hhistory⟩ := hreach
  refine ⟨more, p', hmore, hdecent, hmain, fun i hi => ?_⟩
  rw [hhistory]
  exact hend.verified hannounced hdone hi

theorem announced_sampleTorrent :
    PieceManager.Announced sampleSha1 sampleTorrent fun _ => [7] where
  nonempty := by decide
  small := by decide
  few := by decide
  length := by decide
  hash := by decide

theorem seeds_sampleTorrent : PieceManager.Seeds sampleTorrent [128] where
  sized := rfl
  spare := PieceManager.spareClear_of_bits (by decide)
  all := by decide

/-- The request of the example is written, and the program can finish. -/
theorem can_finish_oneBlock :
    ∃ history more, ∃ p p' : Program (Fin 1),
      (machine sampleSha1 (sampleLaunch [samplePeer]) PieceManager.emptyFile true).Run history p ∧
      p.main = .waiting .asleep ∧
      ((machine sampleSha1 (sampleLaunch [samplePeer]) PieceManager.emptyFile true).startingAt
        p).Run more p' ∧ p'.main = .terminated := by
  have hacts : ((new sampleTorrent PieceManager.emptyFile true : Program (Fin 1)).actAll
      sampleSha1 (sessionConfig sampleTorrent Swarm.samplePeerId) (begun (Fin 1) ++
        (Swarm.opening infoDigest [128] ++ Swarm.asked true 31).map fun action =>
          .session 0 action) []).any (fun r =>
      (swarmHistory r.1).all (fun t => t.source.honest (fun _ => [7]) t.label) &&
      decide (r.2.main = .waiting .asleep ∧ r.2.swarm.manager.isComplete = false ∧
        r.2.swarm.manager.fileHandler.isOpen = true ∧
        (r.2.swarm.sessions 0).peerBitfield = [128] ∧ (r.2.swarm.sessions 0).inLoop = true ∧
        (r.2.swarm.sessions 0).atRest = true) &&
      r.1.all (fun t => decide (t.target.main ≠ .unwinding))) = true := by
    decide +kernel
  obtain ⟨history, p, hrun, hchecks⟩ := exists_run (sampleLaunch [samplePeer]) hacts
  simp only [Bool.and_eq_true, List.all_eq_true, decide_eq_true_eq] at hchecks
  obtain ⟨⟨hsteps, hmain, hunfinished, hopened, hbits, hin, hrest⟩, hgranted⟩ := hchecks
  have hseeds : PieceManager.Seeds sampleTorrent
      (p.swarm.sessions (0 : Fin 1)).peerBitfield := by
    rw [hbits]
    exact seeds_sampleTorrent
  have hone : ∀ i : Fin 1, i = 0 := fun i => Subsingleton.elim i 0
  have hready : Swarm.Ready sampleTorrent (fun _ => [7]) p.swarm := by
    refine ⟨fun i _ _ => ?_, fun i index offset data hpoint => ?_, hopened⟩
    · rw [hone i]
      exact ⟨hseeds.sized, hseeds.spare⟩
    · rw [hone i] at hpoint
      rw [PeerSession.atRest, hpoint] at hrest
      cases hrest
  have hmanager := Swarm.manager_run (swarm_run hrun)
  have hmissing : ¬ PieceManager.AllFinished sampleTorrent p.swarm.manager := by
    intro hall
    rw [(PieceManager.isComplete_iff_of_run hmanager).mpr hall] at hunfinished
    cases hunfinished
  have hnone : ¬ Refused history := by
    intro hrefused
    obtain ⟨t, ht, _, hunwinding⟩ := hrefused
    exact of_decide_eq_true (List.all_eq_true.mp hgranted t ht) hunwinding
  obtain ⟨more, p', hmore, _, hends, _⟩ := can_finish announced_sampleTorrent hrun hsteps hready
    hin hseeds hmissing hnone
  exact ⟨history, more, p, p', hrun, hmain, hmore, hends⟩

end Program

end BitTorrentClient
