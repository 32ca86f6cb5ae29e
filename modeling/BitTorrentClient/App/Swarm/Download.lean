/-
  App/Swarm/Download.lean --- a download does not stall.

  A session that was unchoked asks for blocks until its pipeline is full or the
  manager has nothing for it, and starts again whenever a block was taken.  So from
  the first UNCHOKE on, its set and the turns it has left fill the pipeline, unless
  the manager said no; and when the peer is a seed, the manager says no only when
  every block of every unfinished piece was handed out (`Drained`).  Among honest
  peers that stays so.  What is left to wait for is then in somebody's set.

  A CHOKE drops what the session has asked for, and the session keeps it in its set.
  Without such a CHOKE what is in a set is a request that its peer has still to answer.
-/
import BitTorrentClient.App.Swarm.Honest
import BitTorrentClient.App.Swarm.Protocol
import BitTorrentClient.App.PeerSession.Capacity

set_option autoImplicit false

namespace BitTorrentClient

open Library

namespace PeerSession

variable {config : SessionConfig} {s s' : PeerSession}

/-- The set, and what may still be put into it, fill the pipeline. -/
def Full (s : PeerSession) : Prop := maxPipelineSize ≤ s.pendingBlocks.size + s.turnsLeft

theorem full_requestLoop {n : Nat} (h : maxPipelineSize ≤ s.pendingBlocks.size + n) :
    (s.requestLoop n).Full := by
  rw [Full, requestLoop_pendingBlocks, turnsLeft_requestLoop]
  exact h

theorem full_refill (h : s.pendingBlocks.size ≤ maxPipelineSize) : s.refill.Full := by
  unfold refill
  refine full_requestLoop ?_
  rw [(needed_of_le h).2, Int.toNat_natCast]
  omega

/-- A session that asks for nothing has no turns left. -/
theorem Full.of_same (h : s.Full) (hturns : s.turnsLeft = 0)
    (hset : s'.pendingBlocks = s.pendingBlocks) : s'.Full := by
  rw [Full, hturns] at h
  rw [Full, hset]
  omega

theorem Full.handled {message : Option (Msg.Id × Bytes)} (hfull : s.peerChoking = false → s.Full)
    (hroom : s.HasRoom) (hturns : s.turnsLeft = 0) (h : s.Handled config message s')
    (hunchoked : s'.peerChoking = false) : s'.Full := by
  have hset := h.pendingBlocks
  cases h with
  | choke =>
    rw [(same_loopHead _).peerChoking] at hunchoked
    cases hunchoked
  | unchoke => exact full_refill (s := { s with peerChoking := false }) hroom.size_le
  | @bitfield payload =>
    have hsame : ((s.handleBitfield config payload).suspend .writingInterested).peerChoking =
        s.peerChoking := by
      change (s.handleBitfield config payload).peerChoking = _
      unfold handleBitfield
      dsimp only
      split <;> rfl
    rw [hsame] at hunchoked
    exact (hfull hunchoked).of_same hturns hset
  | piece _ => exact (hfull hunchoked).of_same hturns hset
  | malformed _ => exact (hfull hunchoked).of_same hturns hset
  | ignored _ =>
    rw [(same_loopHead _).peerChoking] at hunchoked
    exact (hfull hunchoked).of_same hturns hset

theorem Full.answered {answer : PieceManager.Answer} (hfull : s.peerChoking = false → s.Full)
    (hroom : s.HasRoom) (h : s.Answered answer s') (hasked : answer ≠ .block none)
    (hunchoked : s'.peerChoking = false) : s'.Full := by
  cases h with
  | accepted _ => exact full_refill (Nat.le_trans (KeyedSet.size_erase_le _ _) hroom.size_le)
  | refused hpoint =>
    rw [(same_loopHead _).peerChoking] at hunchoked
    refine (hfull hunchoked).of_same ?_ (same_loopHead _).pendingBlocks
    rw [turnsLeft, hpoint]
  | threw hpoint =>
    refine (hfull hunchoked).of_same ?_ rfl
    rw [turnsLeft, hpoint]
  | nothing _ => exact absurd rfl hasked
  | @block left block hpoint =>
    have hfull := hfull hunchoked
    rw [Full, turnsLeft, hpoint] at hfull
    exact hfull
  | @returned block rest after r hpoint =>
    rw [(same_returnLoop s after rest).peerChoking] at hunchoked
    have hfull := hfull hunchoked
    rw [Full, turnsLeft, hpoint] at hfull
    cases after with
    | finish => exact hfull.trans (by rw [returnLoop_pendingBlocks]; exact Nat.le_add_right _ _)
    | request left =>
      cases rest with
      | nil => exact full_requestLoop hfull
      | cons _ _ => exact hfull

/-- A session stays full as long as its requests are written and it is not told that
there is nothing to ask for. -/
theorem Full.moves {event : Event} (hfull : s.peerChoking = false → s.Full) (hroom : s.HasRoom)
    (hunasked : ∀ block left, s.point = .writingRequest block left →
      ¬ s.pendingBlocks.Has block.key)
    (h : s.Moves config event s')
    (hwritten : ∀ block left len, s.point = .writingRequest block left →
      event ≠ .io (.wrote false len))
    (hasked : ∀ fate, event ≠ .call fate (.block none)) (hunchoked : s'.peerChoking = false) :
    s'.Full := by
  cases h with
  | quiet hlistening hsame hcalm _ =>
    rw [hsame.peerChoking] at hunchoked
    exact (hfull hunchoked).of_same (Calm.turnsLeft (Or.inl hlistening)) hsame.pendingBlocks
  | message hpoint hhandled =>
    refine Full.handled hfull hroom ?_ hhandled hunchoked
    rw [turnsLeft, hpoint]
  | interested hpoint =>
    rw [(same_loopHead _).peerChoking] at hunchoked
    refine (hfull hunchoked).of_same ?_ (same_loopHead _).pendingBlocks
    rw [turnsLeft, hpoint]
  | @written block left len ok hpoint =>
    cases ok with
    | false => exact absurd rfl (hwritten block left len hpoint)
    | true =>
      have hloop : s.requestWritten block left true =
          { s with pendingBlocks := s.pendingBlocks.insert block }.requestLoop left := rfl
      rw [hloop, (same_requestLoop _ _).peerChoking] at hunchoked
      have hfull := hfull hunchoked
      rw [Full, turnsLeft, hpoint] at hfull
      have hinsert := KeyedSet.size_insert_of_not_has (hunasked block left hpoint)
      rw [hloop]
      refine full_requestLoop ?_
      dsimp only at hfull ⊢
      omega
  | called hanswered => exact Full.answered hfull hroom hanswered (by simpa using hasked) hunchoked

/-! ## Where a request is written -/

theorem requestLoop_point (n : Nat) (block : Block) (left : Nat) :
    (s.requestLoop n).point ≠ .writingRequest block left := by
  intro hpoint
  cases n with
  | zero =>
    have hcalm := (loopHead_calm s).not_asking
    unfold asking at hcalm
    rw [show s.loopHead.point = .writingRequest block left from hpoint] at hcalm
    cases hcalm
  | succ left => cases hpoint

theorem refill_point (block : Block) (left : Nat) :
    s.refill.point ≠ .writingRequest block left := by
  unfold refill
  exact requestLoop_point _ block left

theorem returnLoop_point (after : AfterReturn) (blocks : List Block) (block : Block)
    (left : Nat) : (s.returnLoop after blocks).point ≠ .writingRequest block left := by
  cases blocks with
  | nil =>
    cases after with
    | request turns => exact requestLoop_point turns block left
    | finish => simp [returnLoop, suspend]
  | cons _ _ => simp [returnLoop, suspend]

theorem Handled.point {message : Option (Msg.Id × Bytes)} (h : s.Handled config message s')
    (block : Block) (left : Nat) : s'.point ≠ .writingRequest block left := by
  cases h with
  | choke => exact requestLoop_point 0 block left
  | unchoke => exact refill_point block left
  | bitfield => simp [suspend]
  | piece _ => simp [suspend]
  | malformed _ => simp [suspend]
  | ignored _ => exact requestLoop_point 0 block left

/-- A session comes to write a request when it was given a block. -/
theorem Moves.writes {event : Event} {block : Block} {left : Nat} (h : s.Moves config event s')
    (hpoint : s'.point = .writingRequest block left) :
    ∃ fate, event = .call fate (.block (some block)) := by
  cases h with
  | quiet _ _ hcalm _ =>
    have hidle := hcalm.not_asking
    rw [PeerSession.asking, hpoint] at hidle
    cases hidle
  | message _ hhandled => exact absurd hpoint (hhandled.point block left)
  | interested _ => exact absurd hpoint (requestLoop_point (s := s.setState .ready) 0 block left)
  | @written _ _ _ ok _ =>
    unfold requestWritten at hpoint
    split at hpoint
    · exact absurd hpoint (returnLoop_point _ _ block left)
    · exact absurd hpoint (requestLoop_point _ block left)
  | @called fate _ _ hanswered =>
    cases hanswered with
    | accepted _ => exact absurd hpoint (refill_point block left)
    | refused _ => exact absurd hpoint (requestLoop_point 0 block left)
    | threw _ => cases hpoint
    | nothing _ => exact absurd hpoint (requestLoop_point _ block left)
    | block _ =>
      obtain ⟨rfl, _⟩ := Point.writingRequest.inj hpoint
      exact ⟨fate, rfl⟩
    | returned _ => exact absurd hpoint (returnLoop_point _ _ block left)

end PeerSession

namespace Swarm

variable {ι : Type} [DecidableEq ι] {sha1 : Bytes → Sha1Hash} {metadata : TorrentMetadata}
  {peerId : Bytes} {contents : Nat → Bytes} {w w' : Swarm ι} {i j : ι} {event : Event}
  {history : List (Transition (Swarm ι) (ι × Event))}

/-- Whenever the session `j` asks for a block, its peer is a seed. -/
def Seeded (metadata : TorrentMetadata) (j : ι) (w : Swarm ι) (l : ι × Event) : Prop :=
  l.1 = j → ∀ left, (w.sessions j).point = .requesting left →
    PieceManager.Seeds metadata (w.sessions j).peerBitfield

/-- The session `j` has filled its pipeline since it was unchoked, or there was nothing
to fill it with. -/
structure Filling (metadata : TorrentMetadata) (j : ι) (w : Swarm ι) : Prop where
  unasked : ∀ block left, (w.sessions j).point = .writingRequest block left →
    ¬ (w.sessions j).pendingBlocks.Has block.key
  full : (w.sessions j).peerChoking = false →
    (w.sessions j).Full ∨ PieceManager.Drained metadata w.manager

section Step

variable (hannounced : PieceManager.Announced sha1 metadata contents)
  (hrun : (machine sha1 metadata peerId).Run history w) (h : Kept sha1 contents history w)
  (hstep : (machine sha1 metadata peerId).step w (i, event) w')
  (hhonest : w.honest contents (i, event) = true)

include hannounced hrun h hstep hhonest

/-- Nothing that was handed out comes back. -/
theorem Kept.drained_step (hdrained : PieceManager.Drained metadata w.manager) :
    PieceManager.Drained metadata w'.manager := by
  have hmanager := refines_manager w (i, event) w' hstep
  cases hcall : callOf ⟨w, (i, event), w'⟩ with
  | none =>
    rw [hcall] at hmanager
    rw [hmanager]
    exact hdrained
  | some l =>
    rw [hcall] at hmanager
    have hsofar := manager_run hrun
    exact hdrained.step (h.served hannounced hrun) hannounced (PieceManager.shaped_of_run hsofar)
      (PieceManager.recorded_of_run hsofar) (PieceManager.machine_step hmanager)
      (h.serves_step hrun hstep hhonest hcall)

/-- A seed is told that there is nothing to ask for only when nothing is left. -/
theorem Kept.drained_of_none {fate : DiskFate} (hevent : event = .call fate (.block none))
    (hseeded : Seeded metadata i w (i, event)) :
    PieceManager.Drained metadata w'.manager := by
  refine h.drained_step hannounced hrun hstep hhonest ?_
  subst hevent
  obtain ⟨action, hfire⟩ := hstep
  obtain ⟨_, hmoved⟩ := fire_moved (h.shared hrun).sane hfire
  cases hmoved with
  | @nothing left _ hpoint =>
    rcases fire_cases hfire with ⟨io, s, hio, _⟩ | ⟨_, op, _, m, s, hcall, hop, happly, _, _⟩
    · cases hio
    · obtain ⟨rfl, rfl⟩ := Event.call.inj hcall
      rw [PeerSession.operation, hpoint] at hop
      obtain rfl := Option.some.inj hop
      obtain ⟨⟨block, m'⟩, hrequest, hanswer⟩ := bind_eq_ok.mp happly
      obtain ⟨rfl, rfl⟩ : block = none ∧ m' = m := by
        simpa [pure, Except.pure] using hanswer
      exact (h.served hannounced hrun).drained_of_none hannounced (manager_run hrun)
        (hseeded rfl left hpoint) hrequest

/-- A step of the session `j` itself keeps it filled. -/
theorem Kept.filling_self (hfilling : Filling metadata i w)
    (hseeded : Seeded metadata i w (i, event)) : Filling metadata i w' := by
  have hstep' := hstep
  obtain ⟨action, hfire⟩ := hstep'
  obtain ⟨_, hmoved⟩ := fire_moved (h.shared hrun).sane hfire
  have hmoves := PeerSession.step_moves (fire_session hfire).1
  have hroom := PeerSession.hasRoom_of_run (session_run hrun i)
  refine ⟨fun block left hpoint => ?_, fun hunchoked => ?_⟩
  · obtain ⟨fate, rfl⟩ := hmoves.writes hpoint
    cases hmoved with
    | @lent left' index _ _ m hasking hout =>
      intro hheld
      replace hheld : (w.sessions i).pendingBlocks.Has block.key := by
        simpa [afterCall, withSession, PeerSession.suspend] using hheld
      have hcall : ∃ left, Point.requesting left' = Point.requesting left := ⟨_, rfl⟩
      have haccount := (PeerSession.answersFor_call hasking (Or.inr (Or.inl hcall))).mpr hheld
      exact hout.key.2 (h.owes hrun haccount).1
  · by_cases hnone : ∃ fate, event = .call fate (.block none)
    · obtain ⟨fate, hevent⟩ := hnone
      exact Or.inr (h.drained_of_none hannounced hrun hstep hhonest hevent hseeded)
    · by_cases hdrained : PieceManager.Drained metadata w.manager
      · exact Or.inr (h.drained_step hannounced hrun hstep hhonest hdrained)
      · refine Or.inl (PeerSession.Full.moves (fun hold => ?_) hroom hfilling.unasked hmoves ?_ ?_
          hunchoked)
        · exact (hfilling.full hold).resolve_right hdrained
        · intro block left len hpoint hevent
          subst hevent
          exact absurd (honest_written hhonest hpoint) (by simp)
        · exact fun fate hevent => hnone ⟨fate, hevent⟩

theorem Kept.filling_step (hfilling : Filling metadata j w)
    (hseeded : Seeded metadata j w (i, event)) : Filling metadata j w' := by
  by_cases heq : j = i
  · subst heq
    exact h.filling_self hannounced hrun hstep hhonest hfilling hseeded
  · have hstep' := hstep
    obtain ⟨action, hfire⟩ := hstep'
    have hsame := (fire_session hfire).2 j heq
    refine ⟨hsame ▸ hfilling.unasked, fun hunchoked => ?_⟩
    rw [hsame] at hunchoked ⊢
    exact (hfilling.full hunchoked).imp_right (h.drained_step hannounced hrun hstep hhonest)

end Step

/-! ## Runs -/

theorem filling_of_run (hannounced : PieceManager.Announced sha1 metadata contents)
    (hrun : (machine sha1 metadata peerId).Run history w)
    (hhonest : Machine.Guarded (fun w l => w.honest contents l = true) history)
    (hseeded : Machine.Guarded (Seeded metadata j) history) : Filling metadata j w := by
  induction hrun with
  | start hinit =>
    obtain ⟨disk, tracked, rfl⟩ := hinit
    exact ⟨fun _ _ => by simp [new, PeerSession.new], by simp [new, PeerSession.new]⟩
  | snoc hsofar hlast ih =>
    exact (kept_of_run hannounced hsofar hhonest.tail).filling_step hannounced hsofar hlast
      (hhonest _ List.mem_cons_self) (ih hhonest.tail hseeded.tail)
      (hseeded _ List.mem_cons_self)

omit [DecidableEq ι] in
/-- A session that was unchoked by a seed, is at rest and waits for nothing has left
nothing to ask for. -/
theorem Filling.drained (h : Filling metadata j w) (hunchoked : (w.sessions j).peerChoking = false)
    (hrest : (w.sessions j).atRest = true) (hempty : ∀ k, ¬ (w.sessions j).pendingBlocks.Has k) :
    PieceManager.Drained metadata w.manager := by
  refine (h.full hunchoked).resolve_left fun hfull => ?_
  have hsize : (w.sessions j).pendingBlocks.size ≤ ([] : List BlockKey).length :=
    KeyedSet.size_le fun k hk => absurd hk (hempty k)
  have hturns : (w.sessions j).turnsLeft = 0 := by
    unfold PeerSession.atRest at hrest
    unfold PeerSession.turnsLeft
    split at hrest
    · cases hrest
    · cases hrest
    · cases hrest
    · cases hrest
    · split <;> simp_all
  rw [PeerSession.Full, hturns] at hfull
  have hsize : (w.sessions j).pendingBlocks.size = 0 := Nat.le_zero.mp hsize
  rw [hsize] at hfull
  exact absurd hfull (by decide)

/-! ## What is in a set -/

/-- A session that is choked has nothing in its set. -/
def chokesIdle (w : Swarm ι) (l : ι × Event) : Bool :=
  match (w.sessions l.1).point, l.2 with
  | .readingPayload _, .io (.read (some (msgId :: _))) =>
      decide (Msg.Id.ofByte msgId = some .choke → (w.sessions l.1).pendingBlocks.elems = [])
  | _, _ => true

/-- Among honest peers only a CHOKE leaves a dead request in a set. -/
theorem Kept.keepsLive (hannounced : PieceManager.Announced sha1 metadata contents)
    (hrun : (machine sha1 metadata peerId).Run history w) (h : Kept sha1 contents history w)
    (hstep : (machine sha1 metadata peerId).step w (i, event) w')
    (hhonest : w.honest contents (i, event) = true) (hidle : w.chokesIdle (i, event) = true) :
    w.KeepsLive sha1 (i, event) := by
  unfold KeepsLive
  split
  · rename_i hpoint hevent
    dsimp only at hpoint hevent
    subst hevent
    intro hchoke k hk
    simp only [chokesIdle, hpoint, decide_eq_true_eq] at hidle
    obtain ⟨block, hblock, _⟩ := hk
    rw [hidle hchoke] at hblock
    cases hblock
  · rename_i hpoint hevent
    dsimp only at hpoint hevent
    subst hevent
    intro hrefuses
    obtain ⟨htakes, _⟩ := h.delivery hannounced hrun hstep hhonest hpoint
    obtain ⟨_, r, _, hd⟩ := delivery_of_step hpoint hstep
    exact absurd ((hd.accepted_iff.mpr htakes).symm.trans (hd.refused_iff.mpr hrefuses)) (by simp)
  · trivial

theorem keepsLive_of_run (hannounced : PieceManager.Announced sha1 metadata contents)
    (hrun : (machine sha1 metadata peerId).Run history w)
    (hhonest : Machine.Guarded (fun w l => w.honest contents l = true) history)
    (hidle : Machine.Guarded (fun w l => w.chokesIdle l = true) history) :
    Machine.Guarded (KeepsLive sha1) history := by
  induction hrun with
  | start _ => exact fun _ ht => absurd ht List.not_mem_nil
  | snoc hsofar hlast ih =>
    have hkept := kept_of_run hannounced hsofar hhonest.tail
    exact List.forall_mem_cons.mpr ⟨hkept.keepsLive hannounced hsofar hlast
      (hhonest _ List.mem_cons_self) (hidle _ List.mem_cons_self), ih hhonest.tail hidle.tail⟩

/-- What a live session at rest has in its set was asked for and not answered yet. -/
theorem outstanding_of_has (hrun : (machine sha1 metadata peerId).Run history w)
    (hkeeps : Machine.Guarded (KeepsLive sha1) history) (hlive : (w.sessions i).Live)
    (hrest : (w.sessions i).atRest = true) {k : BlockKey}
    (hk : (w.sessions i).pendingBlocks.Has k) :
    PeerSession.outstanding k (sessionHistory i history) = true := by
  have halways : Machine.Always (fun _ t => t.label.1 = i → t.source.KeepsLive sha1 t.label)
      history := fun t _ hsuffix _ => hkeeps t (hsuffix.subset List.mem_cons_self)
  have howed := PeerSession.owed_of_run (session_run hrun i)
    ((always_keepsLive hrun i).mpr halways)
  obtain ⟨hstays, hnothing⟩ := PeerSession.idle_of_atRest hlive hrest
  exact (howed hstays k hk).resolve_right (by simp [hnothing])

/-- **No download stalls.**  Take any run of any number of sessions, in any interleaving,
in which peers are honest, the disk works and no session is choked while it waits for
blocks, and one session `j` whose peer is a seed that has unchoked it.  In the state
reached, some live session is in the middle of a message or has a request outstanding at
its peer; or every piece is finished, and was verified as the content that was announced.

A session that is choked while it waits for blocks keeps their requests in its set, but
its peer has dropped them, and nothing asks for them again. -/
theorem download_live_or_complete (hannounced : PieceManager.Announced sha1 metadata contents)
    (hrun : (machine sha1 metadata peerId).Run history w)
    (hhonest : Machine.Guarded (fun w l => w.honest contents l = true) history)
    (hidle : Machine.Guarded (fun w l => w.chokesIdle l = true) history)
    (hseeded : Machine.Guarded (Seeded metadata j) history)
    (hunchoked : (w.sessions j).peerChoking = false) :
    (∃ i, (w.sessions i).Live ∧ ((w.sessions i).atRest = false ∨
      ∃ k, PeerSession.outstanding k (sessionHistory i history) = true)) ∨
    (w.manager.isComplete = true ∧ ∀ p < metadata.numPieces,
      w.manager.finished[p]? = some true ∧
        PieceManager.verifiedBuffer p (managerHistory history) = some (contents p)) := by
  by_contra hstalled
  obtain ⟨hquiet, hincomplete⟩ := not_or.mp hstalled
  have h := kept_of_run hannounced hrun hhonest
  have hkeeps := keepsLive_of_run hannounced hrun hhonest hidle
  have hwaits : ∀ i k, ¬ (w.sessions i).AnswersFor k := by
    intro i k hk
    by_cases hrest : (w.sessions i).atRest = true
    · obtain ⟨hlive, hheld⟩ := PeerSession.has_of_atRest hrest hk
      exact hquiet ⟨i, hlive, Or.inr ⟨k, outstanding_of_has hrun hkeeps hlive hrest hheld⟩⟩
    · refine hquiet ⟨i, fun hended => hrest ?_, Or.inl (by simpa using hrest)⟩
      rw [PeerSession.atRest, hended]
  have hrest : (w.sessions j).atRest = true := by
    by_contra hbusy
    refine hquiet ⟨j, fun hended => hbusy ?_, Or.inl (by simpa using hbusy)⟩
    rw [PeerSession.atRest, hended]
  have hdrained := (filling_of_run hannounced hrun hhonest hseeded).drained hunchoked hrest
    fun k hk => hwaits j k (h.answers j k hk)
  have hpending : ∀ k, ¬ w.manager.pendingBlocks.Has k := by
    intro k hk
    obtain ⟨_, hcovered⟩ := covered_of_run hrun h.blocks
    obtain ⟨i, _, hi⟩ := hcovered k hk
    exact hwaits i k hi
  have hsofar := manager_run hrun
  have hcomplete := PieceManager.complete_of_drained hannounced hsofar h.serves hdrained hpending
  refine hincomplete ⟨hcomplete, fun p hp => ?_⟩
  have hdone := (PieceManager.isComplete_iff_of_run hsofar).mp hcomplete p hp
  exact ⟨hdone, (h.served hannounced hrun).verified hp hdone⟩

/-! ## One run -/

/-- A block comes in a PIECE message and is delivered. -/
def bringing (index : Nat) (data : Bytes) : List Action :=
  [.io (.read (some (htonl (9 + data.length)))),
    .io (.read (some (Msg.Id.piece.toByte :: htonl index ++ htonl 0 ++ data))), .call .written]

/-- Two sessions ask for a piece each, the first of a peer that has only that one. -/
def twoAsk : List (Bool × Action) :=
  ((opening PieceManager.zeroSevenDigest [128] ++ asked true 31).map fun action =>
      (true, action)) ++
    (opening PieceManager.zeroSevenDigest [192] ++ asked true 31).map fun action =>
      (false, action)

/-- The second of them gets its piece first, and neither finds anything more to ask for. -/
def download : List (Bool × Action) :=
  twoAsk ++ (bringing 1 [7] ++ asking 32).map (fun action => (false, action)) ++
    (bringing 0 [0, 7] ++ asking 32).map fun action => (true, action)

theorem announced_zeroSevenSeven :
    PieceManager.Announced PieceManager.sampleSha1 PieceManager.zeroSevenSeven
      PieceManager.zeroSevenPieces where
  nonempty := by decide
  small := by decide
  few := by decide
  length := by decide
  hash := by decide

theorem seeds_zeroSevenSeven : PieceManager.Seeds PieceManager.zeroSevenSeven [192] where
  sized := rfl
  spare := PieceManager.spareClear_of_bits (by decide)
  all := by decide

/-- `download` is an honest run, to its end. -/
theorem exists_download :
    ∃ history, ∃ w : Swarm Bool,
      (machine PieceManager.sampleSha1 PieceManager.zeroSevenSeven samplePeerId).Run history w ∧
      Machine.Guarded (fun w l => w.honest PieceManager.zeroSevenPieces l = true) history ∧
      w.manager.isComplete = true ∧ w.manager.fileHandler.good = true := by
  have hfire : (fireAll PieceManager.sampleSha1
      (sessionConfig PieceManager.zeroSevenSeven samplePeerId)
      (new PieceManager.zeroSevenSeven PieceManager.emptyFile true) download []).any (fun r =>
        r.1.all (fun t => t.source.honest PieceManager.zeroSevenPieces t.label) &&
        decide (r.2.manager.isComplete = true ∧ r.2.manager.fileHandler.good = true)) = true := by
    decide +kernel
  obtain ⟨history, w, hrun, hchecks⟩ := exists_run hfire
  simp only [Bool.and_eq_true, List.all_eq_true, decide_eq_true_eq] at hchecks
  obtain ⟨hsteps, hcomplete, hgood⟩ := hchecks
  exact ⟨history, w, hrun, hsteps, hcomplete, hgood⟩

theorem download_live_or_complete_twoPieces :
    ∃ history, ∃ w : Swarm Bool,
      (machine PieceManager.sampleSha1 PieceManager.zeroSevenSeven samplePeerId).Run history w ∧
      (w.sessions false).peerChoking = false ∧ w.manager.isComplete = true ∧
      PieceManager.verifiedBuffer 0 (managerHistory history) = some [0, 7] ∧
      PieceManager.verifiedBuffer 1 (managerHistory history) = some [7] := by
  have hfire : (fireAll PieceManager.sampleSha1
      (sessionConfig PieceManager.zeroSevenSeven samplePeerId)
      (new PieceManager.zeroSevenSeven PieceManager.emptyFile true) download []).any (fun r =>
        r.1.all (fun t => t.source.honest PieceManager.zeroSevenPieces t.label &&
          t.source.chokesIdle t.label &&
          decide ((t.source.sessions false).peerBitfield = [192] ∨
            (t.source.sessions false).asking = false)) &&
        decide ((r.2.sessions false).peerChoking = false ∧ ∀ i, (r.2.sessions i).atRest = true ∧
          PeerSession.unanswered (sessionHistory i r.1) = [])) = true := by
    decide +kernel
  obtain ⟨history, w, hrun, hchecks⟩ := exists_run hfire
  simp only [Bool.and_eq_true, List.all_eq_true, decide_eq_true_eq] at hchecks
  obtain ⟨hsteps, hunchoked, hrest⟩ := hchecks
  have hseeded : Machine.Guarded (Seeded PieceManager.zeroSevenSeven false) history := by
    intro t ht _ left hpoint
    have hbits : (t.source.sessions false).peerBitfield = [192] := by
      refine (hsteps t ht).2.resolve_right ?_
      rw [PeerSession.asking, hpoint]
      exact Bool.noConfusion
    rw [hbits]
    exact seeds_zeroSevenSeven
  refine ⟨history, w, hrun, hunchoked, ?_⟩
  obtain ⟨i, _, hbusy | ⟨k, hk⟩⟩ | ⟨hcomplete, hall⟩ :=
    download_live_or_complete announced_zeroSevenSeven hrun (fun t ht => (hsteps t ht).1.1)
      (fun t ht => (hsteps t ht).1.2) hseeded hunchoked
  · exact absurd ((hrest i).1.symm.trans hbusy) (by decide)
  · have hasked := PeerSession.mem_unanswered hk
    rw [(hrest i).2] at hasked
    cases hasked
  · exact ⟨hcomplete, (hall 0 (by decide)).2, (hall 1 (by decide)).2⟩

end Swarm

end BitTorrentClient
