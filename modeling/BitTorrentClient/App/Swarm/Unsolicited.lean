/-
  App/Swarm/Unsolicited.lean --- blocks that a session did not ask for.

  A session hands every block it gets to the manager, and the manager looks at the
  bounds of the block only: neither asks whether the block was requested.  So a block
  that nobody asked for is ignored in three cases, and in every other case it changes
  what the manager holds: its piece is finished; its piece has an entry and the block
  reaches past the end; or it is the only block of a piece without an entry, it has the
  wrong contents, and nothing was asked for of that piece.
-/
import BitTorrentClient.App.Swarm.Views

set_option autoImplicit false

namespace BitTorrentClient

open Library

namespace PieceManager

variable {sha1 : Bytes → Sha1Hash} {m m' : PieceManager} {idx offset : Nat} {data : Bytes}
  {fate : DiskFate} {r : Reply} {pending : PendingPiece}

/-- Buffers and counters, the pending blocks, the offsets, the flags and the file are as
they were. -/
structure Untouched (m m' : PieceManager) : Prop where
  pendingPieces : m'.pendingPieces = m.pendingPieces
  pendingBlocks : m'.pendingBlocks = m.pendingBlocks
  nextOffsets : m'.nextOffsets = m.nextOffsets
  finished : m'.finished = m.finished
  fileHandler : m'.fileHandler = m.fileHandler

/-- The block is one that the manager ignores. -/
inductive Harmless (sha1 : Bytes → Sha1Hash) (m : PieceManager) (idx offset : Nat)
    (data : Bytes) : Prop
  /-- its piece is finished -/
  | finished : m.finished[idx]? = some true → Harmless sha1 m idx offset data
  /-- it reaches past the end of its piece, which has an entry -/
  | outOfBounds {pending : PendingPiece} : m.finished[idx]? = some false →
      m.pendingPieces idx = some pending → pending.data.length < offset + data.length →
      Harmless sha1 m idx offset data
  /-- it is all of a piece without an entry and is wrong; it is not pending, and the next
  block of the piece to ask for is its first -/
  | rejected : m.pendingPieces idx = none → m.Rejects sha1 idx offset data →
      ¬ m.pendingBlocks.Has (blockKey idx offset) → m.nextOffsets[idx]? = some 0 →
      Harmless sha1 m idx offset data

/-- The count of an entry that has received a block is not what it was. -/
theorem Accepts.entry_ne (h : m.Accepts idx offset data pending) :
    m.pendingPieces idx ≠ some (pending.receive offset data) := by
  intro hentry
  have hopen := h.opened
  rw [openPending, hentry] at hopen
  have hcount := congrArg PendingPiece.blocksReceived (Except.ok.inj hopen)
  simp [PendingPiece.receive] at hcount

/-- A delivery that leaves the manager as it was is of one of the three kinds. -/
theorem Delivery.harmless (h : m.Delivery sha1 idx offset data fate r m')
    (huntouched : m.Untouched m') : m.Harmless sha1 idx offset data := by
  have hentry := congrFun huntouched.pendingPieces idx
  cases h with
  | finished hdone => exact .finished hdone
  | outOfBounds hunfinished _ hout =>
    refine .outOfBounds hunfinished ?_ hout
    rw [← hentry]
    simp
  | stored ha _ =>
    refine absurd ?_ ha.entry_ne
    rw [← hentry]
    simp
  | discarded ha hcomplete hhash hne hidx =>
    refine .rejected ?_ ⟨_, _, ha, hcomplete, hhash, hne⟩ ?_ ?_
    · rw [← hentry]
      simp
    · intro hpending
      have herased : (m.stored idx offset data _).pendingBlocks.Has (blockKey idx offset) :=
        huntouched.pendingBlocks.symm ▸ hpending
      exact (KeyedSet.has_erase.mp herased).2 rfl
    · rw [← huntouched.nextOffsets]
      simp [hidx]
  | threw hv _ =>
    refine absurd ?_ hv.toAccepts.entry_ne
    rw [← hentry]
    simp
  | completed hv _ hidx _ =>
    have hdone : m.finished[idx]? = some true := by
      rw [← huntouched.finished]
      simp [hidx]
    rw [hv.unfinished] at hdone
    cases hdone

/-- A block of the three kinds is delivered without an effect. -/
theorem Harmless.deliverBlock (h : m.Harmless sha1 idx offset data) (fate : DiskFate) :
    ∃ r m', m.deliverBlock sha1 idx offset data fate = .ok (r, m') ∧ m.Untouched m' := by
  cases h with
  | finished hdone => exact ⟨_, _, deliverBlock_of_finished hdone, rfl, rfl, rfl, rfl, rfl⟩
  | @outOfBounds pending hunfinished hentry hout =>
    have hopen : m.openPending idx = .ok pending := by rw [openPending, hentry]
    refine ⟨_, _, deliverBlock_of_outOfBounds hunfinished hopen hout, ?_, rfl, rfl, rfl, rfl⟩
    rw [setPending_pendingPieces, ← hentry, Function.update_eq_self]
  | rejected hnone hrejects hfree hnext =>
    obtain ⟨pending, expected, ha, hcomplete, hhash, hne⟩ := hrejects
    obtain ⟨hidx, hzero⟩ := List.getElem?_eq_some_iff.mp hnext
    refine ⟨_, _, deliverBlock_of_mismatch ha hcomplete hhash hne hidx, ?_, ?_, ?_, rfl, rfl⟩
    · simp [← hnone]
    · exact KeyedSet.erase_of_not_has hfree
    · change m.nextOffsets.set idx 0 = m.nextOffsets
      rw [← hzero, List.set_getElem_self]

end PieceManager

namespace Swarm

variable {ι : Type} [DecidableEq ι] {sha1 : Bytes → Sha1Hash} {metadata : TorrentMetadata}
  {peerId : Bytes} {w w' : Swarm ι} {i : ι} {index offset : Nat} {data : Bytes}

/-- The session `i` is about to deliver a block that is not in its set. -/
structure Unsolicited (w : Swarm ι) (i : ι) (index offset : Nat) (data : Bytes) : Prop where
  point : (w.sessions i).point = .delivering index offset data
  unasked : ¬ (w.sessions i).pendingBlocks.Has (blockKey index offset)

/-- The session `i` calls the manager, and the manager is as it was. -/
def CallsInVain (sha1 : Bytes → Sha1Hash) (config : SessionConfig) (w : Swarm ι) (i : ι)
    (fate : DiskFate) : Prop :=
  ∃ event w', w.fire sha1 config i (.call fate) = some (event, w') ∧
    w.manager.Untouched w'.manager

/-- A session that is about to deliver a block goes on when the call comes back. -/
theorem fire_delivering {config : SessionConfig}
    (hpoint : (w.sessions i).point = .delivering index offset data) {fate : DiskFate} {r : Reply}
    {m : PieceManager} (hcall : w.manager.deliverBlock sha1 index offset data fate = .ok (r, m)) :
    ∃ event w', w.fire sha1 config i (.call fate) = some (event, w') ∧ w'.manager = m := by
  have hop : (w.sessions i).operation fate = some (.deliverBlock index offset data fate) := by
    rw [PeerSession.operation, hpoint]
  have happly : w.manager.apply sha1 (.deliverBlock index offset data fate) =
      .ok (.reply r, m) := by
    rw [PieceManager.apply, hcall]
    rfl
  have hanswered : ∃ s, (w.sessions i).answered (.reply r) = some s := by
    rw [PeerSession.answered.eq_def, hpoint]
    cases r with
    | ok accepted => exact ⟨_, rfl⟩
    | error e => exact ⟨_, rfl⟩
  obtain ⟨s, hs⟩ := hanswered
  exact ⟨.call fate (.reply r), _, fire_call hop happly hs, rfl⟩

/-- **Unsolicited blocks.**  A session that hands in a block it did not ask for leaves the
manager as it was, if and only if the block is one that the manager ignores. -/
theorem unsolicited_iff (h : w.Unsolicited i index offset data) (fate : DiskFate) :
    CallsInVain sha1 (sessionConfig metadata peerId) w i fate ↔
      w.manager.Harmless sha1 index offset data := by
  constructor
  · intro hvain
    obtain ⟨event, w', hfire, huntouched⟩ := hvain
    have hstep : (machine sha1 metadata peerId).step w (i, event) w' := ⟨.call fate, hfire⟩
    obtain ⟨fate', r, _, hd⟩ := delivery_of_step h.point hstep
    exact hd.harmless huntouched
  · intro hharmless
    obtain ⟨r, m, hcall, huntouched⟩ := hharmless.deliverBlock fate
    obtain ⟨event, w', hfire, rfl⟩ := fire_delivering h.point hcall
    exact ⟨event, w', hfire, huntouched⟩

/-- A peer that never unchokes us sends a block that is too long, twice. -/
def tooLongTwice : List (Unit × Action) :=
  let piece : List Action := [.io (.read (some (htonl 11))),
    .io (.read (some (Msg.Id.piece.toByte :: htonl 0 ++ htonl 0 ++ [7, 7])))]
  let deliver : List Action := [.call .written]
  ((opening oneBlock.infoHash [128]).take 7 ++ piece ++ deliver ++ piece).map
    fun action => ((), action)

/-- One session has asked for the only block, and another peer sends it with a wrong
byte. -/
def sentByAnother : List (Bool × Action) :=
  let wrong : List Action := [.io (.read (some (htonl 10))),
    .io (.read (some (Msg.Id.piece.toByte :: htonl 0 ++ htonl 0 ++ [9])))]
  (opening oneBlock.infoHash [128] ++ asked true 31).map (fun action => (true, action)) ++
    ((opening oneBlock.infoHash [128]).take 7 ++ wrong).map fun action => (false, action)

theorem unsolicited_iff_tooLongTwice :
    ∃ history, ∃ w : Swarm Unit,
      (machine PieceManager.sampleSha1 oneBlock samplePeerId).Run history w ∧
      w.Unsolicited () 0 0 [7, 7] ∧
      CallsInVain PieceManager.sampleSha1 (sessionConfig oneBlock samplePeerId) w () .written := by
  have hfire : (fireAll PieceManager.sampleSha1 (sessionConfig oneBlock samplePeerId)
      (new oneBlock PieceManager.emptyFile true) tooLongTwice []).any (fun r =>
        decide ((r.2.sessions ()).point = .delivering 0 0 [7, 7] ∧
          ¬ (r.2.sessions ()).pendingBlocks.Has (blockKey 0 0) ∧
          r.2.manager.finished[0]? = some false ∧
          r.2.manager.pendingPieces 0 = some ⟨[0], 0, 1⟩)) = true := by decide +kernel
  obtain ⟨history, w, hrun, hchecks⟩ := exists_run hfire
  obtain ⟨hpoint, hunasked, hunfinished, hentry⟩ := of_decide_eq_true hchecks
  have hunsolicited : w.Unsolicited () 0 0 [7, 7] := ⟨hpoint, hunasked⟩
  refine ⟨history, w, hrun, hunsolicited, (unsolicited_iff hunsolicited .written).mpr ?_⟩
  exact .outOfBounds hunfinished hentry (by decide)

/-- The block is no longer pending afterwards, though the session that asked for it still
waits for it. -/
theorem not_ignored_sentByAnother :
    ∃ history, ∃ w : Swarm Bool,
      (machine PieceManager.sampleSha1 oneBlock samplePeerId).Run history w ∧
      w.Unsolicited false 0 0 [9] ∧ (w.sessions true).pendingBlocks.Has (blockKey 0 0) ∧
      ¬ CallsInVain PieceManager.sampleSha1 (sessionConfig oneBlock samplePeerId) w false
        .written := by
  have hfire : (fireAll PieceManager.sampleSha1 (sessionConfig oneBlock samplePeerId)
      (new oneBlock PieceManager.emptyFile true) sentByAnother []).any (fun r =>
        decide ((r.2.sessions false).point = .delivering 0 0 [9] ∧
          ¬ (r.2.sessions false).pendingBlocks.Has (blockKey 0 0) ∧
          (r.2.sessions true).pendingBlocks.Has (blockKey 0 0) ∧
          r.2.manager.pendingBlocks.Has (blockKey 0 0) ∧
          ((r.2.fire PieceManager.sampleSha1 (sessionConfig oneBlock samplePeerId) false
            (.call .written)).all fun next =>
              decide (¬ next.2.manager.pendingBlocks.Has (blockKey 0 0))) = true)) = true := by
    decide +kernel
  obtain ⟨history, w, hrun, hchecks⟩ := exists_run hfire
  obtain ⟨hpoint, hunasked, hasked, hpending, hfreed⟩ := of_decide_eq_true hchecks
  refine ⟨history, w, hrun, ⟨hpoint, hunasked⟩, hasked, ?_⟩
  intro hvain
  obtain ⟨event, w', hnext, huntouched⟩ := hvain
  rw [hnext, Option.all_some, decide_eq_true_eq] at hfreed
  exact hfreed (huntouched.pendingBlocks ▸ hpending)

end Swarm

end BitTorrentClient
