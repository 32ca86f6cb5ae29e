/-
  App/PeerSession/Accounts.lean --- the blocks a session answers for.

  The set of a session is not the whole of its account: a block that is being asked
  for is in the manager's set before it is in the session's, and `_returnBlocks`
  leaves the set as it is.  `AnswersFor` is the account at every point, and
  `Resumed` says what going on from a socket operation does to it.  No later file
  unfolds `resume`.
-/
import BitTorrentClient.App.PeerSession

set_option autoImplicit false

namespace BitTorrentClient

open Library

namespace PeerSession

variable {config : SessionConfig} {s s' : PeerSession} {k : BlockKey}

/-- The blocks that a session asks for, waits for, or is about to give back before
it ends. -/
def AnswersFor (s : PeerSession) (k : BlockKey) : Prop :=
  match s.point with
  | .writingRequest block _ => s.pendingBlocks.Has k ∨ k = block.key
  | .returning block rest .finish => ∃ b ∈ block :: rest, b.key = k
  | .ended => False
  | _ => s.pendingBlocks.Has k

/-- The session gives its blocks back for good. -/
def leaving (s : PeerSession) : Bool :=
  match s.point with
  | .returning _ _ .finish => true
  | _ => false

/-- The session gives its blocks back and goes on. -/
def repaying (s : PeerSession) : Bool :=
  match s.point with
  | .returning _ _ (.request _) => true
  | _ => false

/-- The coroutine has not ended. -/
def Live (s : PeerSession) : Prop := s.point ≠ .ended

instance (s : PeerSession) : Decidable s.Live := inferInstanceAs (Decidable (s.point ≠ .ended))

/-- The session is not in the middle of a message: it waits for the peer, or it has
ended. -/
def atRest (s : PeerSession) : Bool :=
  match s.point with
  | .delivering _ _ _ | .requesting _ | .writingRequest _ _ | .returning _ _ _ => false
  | _ => true

/-- The condition of the loop of `run`. -/
def Running (s : PeerSession) : Prop := s.socketOpen = true ∧ s.state ≠ .error

/-- What holds at every point of a session. -/
def Sane (s : PeerSession) : Prop :=
  match s.point with
  | .connecting | .writingHandshake _ | .readingHandshake | .loggingEndpoint =>
      s.pendingBlocks = KeyedSet.empty
  -- the state may be an error here, and is overwritten
  | .writingInterested => s.socketOpen = true
  | .returning block rest .finish => block :: rest <:+ s.pendingBlocks.elems
  | .ended => True
  | _ => s.Running

theorem sane_new : new.Sane := rfl

/-- The account at a point. -/
theorem answersFor_at {point : Point} (hpoint : s.point = point) :
    s.AnswersFor k ↔ (s.suspend point).AnswersFor k := by
  rw [← hpoint]
  exact Iff.rfl

/-- What a live session has in its set it answers for, unless it is leaving. -/
theorem answersFor_of_has (hlive : s.Live) (hstays : s.leaving ≠ true)
    (h : s.pendingBlocks.Has k) : s.AnswersFor k := by
  unfold leaving at hstays
  unfold AnswersFor
  split
  · exact Or.inl h
  · rename_i block rest hpoint
    simp [hpoint] at hstays
  · rename_i hpoint
    exact absurd hpoint hlive
  · exact h

/-- At rest, a session that answers for a block is live and has it in its set. -/
theorem has_of_atRest (hrest : s.atRest = true) (h : s.AnswersFor k) :
    s.Live ∧ s.pendingBlocks.Has k := by
  unfold atRest at hrest
  unfold AnswersFor at h
  split at h
  · rename_i hpoint
    simp [hpoint] at hrest
  · rename_i hpoint
    simp [hpoint] at hrest
  · exact h.elim
  · rename_i hended
    exact ⟨hended, h⟩

/-! ## The ends of a step -/

theorem loopHead_pendingBlocks : s.loopHead.pendingBlocks = s.pendingBlocks := by
  unfold loopHead
  split <;> rfl

theorem requestLoop_pendingBlocks (n : Nat) :
    (s.requestLoop n).pendingBlocks = s.pendingBlocks := by
  cases n with
  | zero => exact loopHead_pendingBlocks
  | succ left => rfl

theorem returnLoop_pendingBlocks (after : AfterReturn) (blocks : List Block) :
    (s.returnLoop after blocks).pendingBlocks = s.pendingBlocks := by
  cases blocks with
  | nil =>
    cases after with
    | request left => exact requestLoop_pendingBlocks left
    | finish => rfl
  | cons block rest => rfl

theorem sane_loopHead : s.loopHead.Sane := by
  unfold loopHead
  split
  · rename_i hloop
    obtain ⟨hopen, hstate⟩ := Bool.and_eq_true_iff.mp hloop
    exact ⟨hopen, of_decide_eq_true hstate⟩
  · trivial

theorem Running.loopHead (h : s.Running) : s.loopHead = s.suspend .readingLength := by
  simp [PeerSession.loopHead, h.1, h.2]

theorem Running.sane_requestLoop (h : s.Running) (n : Nat) : (s.requestLoop n).Sane := by
  cases n with
  | zero => exact sane_loopHead
  | succ left => exact h

theorem Running.sane_refill (h : s.Running) : s.refill.Sane := by
  unfold refill
  exact h.sane_requestLoop _

theorem Running.answersFor_loopHead (h : s.Running) :
    s.loopHead.AnswersFor k ↔ s.pendingBlocks.Has k := by
  rw [h.loopHead]
  exact Iff.rfl

theorem Running.answersFor_requestLoop (h : s.Running) (n : Nat) :
    (s.requestLoop n).AnswersFor k ↔ s.pendingBlocks.Has k := by
  cases n with
  | zero => exact h.answersFor_loopHead
  | succ left => exact Iff.rfl

theorem Running.answersFor_refill (h : s.Running) :
    s.refill.AnswersFor k ↔ s.pendingBlocks.Has k := by
  unfold refill
  exact h.answersFor_requestLoop _

theorem repaying_loopHead : s.loopHead.repaying = false := by
  unfold loopHead
  split <;> rfl

theorem repaying_requestLoop (n : Nat) : (s.requestLoop n).repaying = false := by
  cases n with
  | zero => exact repaying_loopHead
  | succ left => rfl

theorem repaying_refill : s.refill.repaying = false := by
  unfold refill
  exact repaying_requestLoop _

/-- Giving the blocks back for good: the session answers for those that are left. -/
theorem answersFor_returnLoop_finish (blocks : List Block) :
    (s.returnLoop .finish blocks).AnswersFor k ↔ ∃ b ∈ blocks, b.key = k := by
  cases blocks with
  | nil => simp [returnLoop, suspend, AnswersFor]
  | cons block rest => exact Iff.rfl

theorem sane_returnLoop_finish {blocks : List Block} (h : blocks <:+ s.pendingBlocks.elems) :
    (s.returnLoop .finish blocks).Sane := by
  cases blocks with
  | nil => trivial
  | cons block rest => exact h

theorem repaying_returnLoop_finish (blocks : List Block) :
    (s.returnLoop .finish blocks).repaying = false := by
  cases blocks <;> rfl

theorem Running.answersFor_returnLoop_request (h : s.Running) (left : Nat)
    (blocks : List Block) :
    (s.returnLoop (.request left) blocks).AnswersFor k ↔ s.pendingBlocks.Has k := by
  cases blocks with
  | nil => exact h.answersFor_requestLoop left
  | cons block rest => exact Iff.rfl

theorem Running.sane_returnLoop_request (h : s.Running) (left : Nat) (blocks : List Block) :
    (s.returnLoop (.request left) blocks).Sane := by
  cases blocks with
  | nil => exact h.sane_requestLoop left
  | cons block rest => exact h

/-! ## Socket operations -/

/-- What going on from a socket operation does to the set and the account. -/
inductive Resumed (s : PeerSession) : IoEvent → PeerSession → Prop
  /-- nothing -/
  | quiet {event : IoEvent} {s' : PeerSession} :
      s'.pendingBlocks = s.pendingBlocks → (∀ k, s'.AnswersFor k ↔ s.AnswersFor k) →
      s'.repaying = false → Resumed s event s'
  /-- a request went out -/
  | written {block : Block} {left len : Nat} {s' : PeerSession} :
      s.point = .writingRequest block left →
      s'.pendingBlocks = s.pendingBlocks.insert block →
      (∀ k, s'.AnswersFor k ↔ s.AnswersFor k) → s'.repaying = false →
      Resumed s (.wrote true len) s'
  /-- a request did not go out, and its block is forgotten -/
  | unwritten {block : Block} {left len : Nat} {s' : PeerSession} :
      s.point = .writingRequest block left → s'.pendingBlocks = s.pendingBlocks →
      (∀ k, s'.AnswersFor k ↔ s.pendingBlocks.Has k) →
      (s.pendingBlocks = KeyedSet.empty → s'.repaying = false) →
      Resumed s (.wrote false len) s'
  /-- a PIECE message was too short, and the session is over -/
  | malformed {len : Nat} {msgId : UInt8} {payload : Bytes} :
      s.point = .readingPayload len → Msg.Id.ofByte msgId = some .piece → payload.length < 8 →
      Resumed s (.read (some (msgId :: payload))) (s.suspend .ended)

/-- A message with eight bytes or more can be parsed, and no other can. -/
theorem parsePiece_cases (payload : Bytes) :
    (payload.length < 8 ∧ ∃ e, parsePiece payload = .error e) ∨
    (8 ≤ payload.length ∧ parsePiece payload =
      .ok (ntohl (payload.take 4), ntohl ((payload.drop 4).take 4), payload.drop 8)) := by
  unfold parsePiece
  dsimp only
  rcases ByteReader.readU32_cases { buffer := payload } with ⟨hshort, hfirst⟩ | ⟨hlong, hfirst⟩
  · dsimp only at hshort
    exact Or.inl ⟨by omega, _, by rw [hfirst]; rfl⟩
  · rcases ByteReader.readU32_cases { buffer := payload, cursor := 4 } with
      ⟨hshort, hsecond⟩ | ⟨hlong', hsecond⟩
    · refine Or.inl ⟨by simpa using hshort, .outOfRange "Buffer underflow", ?_⟩
      rw [hfirst]
      simp only [bind, Except.bind, Nat.zero_add, hsecond]
    · refine Or.inr ⟨by simpa using hlong', ?_⟩
      rw [hfirst]
      simp only [bind, Except.bind, Nat.zero_add, hsecond]
      rfl

/-- The loop that goes on with what it has. -/
theorem Running.quiet_loopHead (h : s.Running) {event : IoEvent} {t : PeerSession}
    (hset : s.pendingBlocks = t.pendingBlocks)
    (haccount : ∀ k, t.AnswersFor k ↔ t.pendingBlocks.Has k) :
    s.loopHead.Sane ∧ Resumed t event s.loopHead := by
  refine ⟨sane_loopHead, .quiet (loopHead_pendingBlocks.trans hset) (fun k => ?_)
    repaying_loopHead⟩
  rw [h.answersFor_loopHead, haccount, hset]

/-- The pipeline that is filled up. -/
theorem Running.quiet_refill (h : s.Running) {event : IoEvent} {t : PeerSession}
    (hset : s.pendingBlocks = t.pendingBlocks)
    (haccount : ∀ k, t.AnswersFor k ↔ t.pendingBlocks.Has k) :
    s.refill.Sane ∧ Resumed t event s.refill := by
  unfold refill
  refine ⟨h.sane_requestLoop _, .quiet ((requestLoop_pendingBlocks _).trans hset) (fun k => ?_)
    (repaying_requestLoop _)⟩
  rw [h.answersFor_requestLoop, haccount, hset]

/-- A lost connection: the session answers for its set until all of it is returned. -/
theorem lost_resumed {event : IoEvent} (haccount : ∀ k, s.AnswersFor k ↔ s.pendingBlocks.Has k) :
    ((s.setState .error).returnBlocks .finish).Sane ∧
      Resumed s event ((s.setState .error).returnBlocks .finish) := by
  refine ⟨sane_returnLoop_finish (List.suffix_refl _),
    .quiet (returnLoop_pendingBlocks _ _) (fun k => ?_) (repaying_returnLoop_finish _)⟩
  rw [haccount]
  exact answersFor_returnLoop_finish _

/-- A message that is handled up to the next socket operation or call. -/
theorem handleMessage_resumed {len : Nat} {msgId : UInt8} {payload : Bytes}
    (hpoint : s.point = .readingPayload len) (hrun : s.Running) :
    (s.handleMessage config msgId payload).Sane ∧
      Resumed s (.read (some (msgId :: payload))) (s.handleMessage config msgId payload) := by
  have haccount : ∀ k, s.AnswersFor k ↔ s.pendingBlocks.Has k := fun k => answersFor_at hpoint
  unfold handleMessage
  split
  · exact Running.quiet_loopHead (s := { s with peerChoking := true }) hrun rfl haccount
  · exact Running.quiet_refill (s := { s with peerChoking := false }) hrun rfl haccount
  · exact hrun.quiet_loopHead rfl haccount
  · have hbitfield : (s.handleBitfield config payload).pendingBlocks = s.pendingBlocks ∧
        (s.handleBitfield config payload).socketOpen = s.socketOpen := by
      unfold handleBitfield
      dsimp only
      split <;> exact ⟨rfl, rfl⟩
    refine ⟨hbitfield.2.trans hrun.1, .quiet hbitfield.1 (fun k => ?_) rfl⟩
    rw [haccount, ← hbitfield.1]
    exact Iff.rfl
  · rename_i hpiece
    unfold handlePiece
    rcases parsePiece_cases payload with ⟨hshort, e, hparse⟩ | ⟨_, hparse⟩
    · rw [hparse]
      exact ⟨trivial, .malformed hpoint hpiece hshort⟩
    · rw [hparse]
      exact ⟨hrun, .quiet rfl (fun k => (haccount k).symm) rfl⟩
  · exact hrun.quiet_loopHead rfl haccount

/-- The start of `run`, before which nothing is requested. -/
theorem run_resumed {event : IoEvent} {t : PeerSession} (hset : s.pendingBlocks = t.pendingBlocks)
    (hempty : t.pendingBlocks = KeyedSet.empty)
    (haccount : ∀ k, t.AnswersFor k ↔ t.pendingBlocks.Has k) :
    s.run.Sane ∧ Resumed t event s.run := by
  refine ⟨sane_loopHead, .quiet (loopHead_pendingBlocks.trans hset) (fun k => ?_)
    repaying_loopHead⟩
  rw [haccount, hempty]
  unfold run loopHead
  split
  · change s.pendingBlocks.Has k ↔ _
    rw [hset, hempty]
  · exact iff_of_false id (KeyedSet.has_empty k)

/-- A step from one phase of the handshake to the next. -/
theorem phase_resumed {event : IoEvent} {point : Point} {t : PeerSession}
    (hset : s.pendingBlocks = t.pendingBlocks) (hempty : t.pendingBlocks = KeyedSet.empty)
    (haccount : ∀ k, t.AnswersFor k ↔ t.pendingBlocks.Has k)
    (hphase : (∃ handshake, point = .writingHandshake handshake) ∨ point = .readingHandshake ∨
      point = .loggingEndpoint) :
    (s.suspend point).Sane ∧ Resumed t event (s.suspend point) := by
  have hnext : (s.suspend point).Sane ∧ (s.suspend point).repaying = false ∧
      ∀ k, (s.suspend point).AnswersFor k ↔ s.pendingBlocks.Has k := by
    rcases hphase with ⟨handshake, rfl⟩ | rfl | rfl
    · exact ⟨hset.trans hempty, rfl, fun _ => Iff.rfl⟩
    · exact ⟨hset.trans hempty, rfl, fun _ => Iff.rfl⟩
    · exact ⟨hset.trans hempty, rfl, fun _ => Iff.rfl⟩
  obtain ⟨hsane, hrepaying, hnext⟩ := hnext
  refine ⟨hsane, .quiet hset (fun k => ?_) hrepaying⟩
  rw [hnext, haccount, hset]

theorem connectDone_resumed {event : IoEvent} {connection : Connection}
    (hempty : s.pendingBlocks = KeyedSet.empty)
    (haccount : ∀ k, s.AnswersFor k ↔ s.pendingBlocks.Has k)
    (h : s.connectDone config connection = some s') : s'.Sane ∧ Resumed s event s' := by
  unfold connectDone at h
  dsimp only at h
  split at h
  · cases h
    cases connection with
    | established => exact phase_resumed rfl hempty haccount (Or.inl ⟨_, rfl⟩)
    | failed opened => exact phase_resumed rfl hempty haccount (Or.inl ⟨_, rfl⟩)
  · cases h

theorem handshakeWritten_resumed {event : IoEvent} (hempty : s.pendingBlocks = KeyedSet.empty)
    (haccount : ∀ k, s.AnswersFor k ↔ s.pendingBlocks.Has k) (handshake : HandshakeMsg) (ok : Bool)
    (len : Nat) :
    (s.handshakeWritten handshake ok len).Sane ∧
      Resumed s event (s.handshakeWritten handshake ok len) := by
  unfold handshakeWritten
  split
  · exact run_resumed rfl hempty haccount
  · split
    · exact run_resumed rfl hempty haccount
    · exact phase_resumed rfl hempty haccount (Or.inr (Or.inl rfl))

theorem handshakeRead_resumed {event : IoEvent} {bytes : Option Bytes}
    (hempty : s.pendingBlocks = KeyedSet.empty)
    (haccount : ∀ k, s.AnswersFor k ↔ s.pendingBlocks.Has k)
    (h : s.handshakeRead config bytes = some s') : s'.Sane ∧ Resumed s event s' := by
  unfold handshakeRead at h
  split at h
  · cases h
    exact run_resumed rfl hempty haccount
  · split at h
    · split at h
      · cases h
        exact run_resumed rfl hempty haccount
      · cases h
        exact phase_resumed rfl hempty haccount (Or.inr (Or.inr rfl))
    · cases h

/-- The address is logged, or the session is over before it asked for anything. -/
theorem endpoint_resumed {event : IoEvent} (hempty : s.pendingBlocks = KeyedSet.empty)
    (haccount : ∀ k, s.AnswersFor k ↔ s.pendingBlocks.Has k) (known : Bool) :
    (if known then s.run else s.suspend .ended).Sane ∧
      Resumed s event (if known then s.run else s.suspend .ended) := by
  cases known with
  | true => exact run_resumed rfl hempty haccount
  | false =>
    refine ⟨trivial, .quiet rfl (fun k => ?_) rfl⟩
    rw [haccount, hempty]
    exact iff_of_false id (KeyedSet.has_empty k)

theorem lengthRead_resumed {event : IoEvent} {bytes : Option Bytes} (hrun : s.Running)
    (haccount : ∀ k, s.AnswersFor k ↔ s.pendingBlocks.Has k)
    (h : s.lengthRead bytes = some s') : s'.Sane ∧ Resumed s event s' := by
  unfold lengthRead at h
  split at h
  · cases h
    exact lost_resumed haccount
  · split at h
    · cases h
      split
      · exact hrun.quiet_loopHead rfl haccount
      · exact ⟨hrun, .quiet rfl (fun k => (haccount k).symm) rfl⟩
    · cases h

theorem payloadRead_resumed {len : Nat} {bytes : Option Bytes}
    (hpoint : s.point = .readingPayload len) (hrun : s.Running)
    (h : s.payloadRead config len bytes = some s') : s'.Sane ∧ Resumed s (.read bytes) s' := by
  unfold payloadRead at h
  split at h
  · cases h
    exact lost_resumed fun k => answersFor_at hpoint
  · cases h
  · split at h
    · cases h
      exact handleMessage_resumed hpoint hrun
    · cases h

theorem requestWritten_resumed {block : Block} {left : Nat}
    (hpoint : s.point = .writingRequest block left) (hrun : s.Running) (ok : Bool) (len : Nat) :
    (s.requestWritten block left ok).Sane ∧
      Resumed s (.wrote ok len) (s.requestWritten block left ok) := by
  cases ok with
  | true =>
    have hwritten : s.requestWritten block left true =
        { s with pendingBlocks := s.pendingBlocks.insert block }.requestLoop left := rfl
    have hinsert : { s with pendingBlocks := s.pendingBlocks.insert block }.Running := hrun
    rw [hwritten]
    refine ⟨hinsert.sane_requestLoop left, .written hpoint (requestLoop_pendingBlocks left)
      (fun k => ?_) (repaying_requestLoop left)⟩
    rw [answersFor_at hpoint]
    exact (hinsert.answersFor_requestLoop left).trans KeyedSet.has_insert
  | false =>
    have hreturn : s.requestWritten block left false =
        s.returnLoop (.request left) s.pendingBlocks.elems := rfl
    rw [hreturn]
    refine ⟨hrun.sane_returnLoop_request left _, .unwritten hpoint (returnLoop_pendingBlocks _ _)
      (fun k => hrun.answersFor_returnLoop_request left _) (fun hempty => ?_)⟩
    rw [hempty]
    exact repaying_requestLoop left

/-- Every step from a socket operation, by what it does to the blocks. -/
theorem resume_resumed {event : IoEvent} (hs : s.Sane) (h : s.resume config event = some s') :
    s'.Sane ∧ Resumed s event s' := by
  unfold resume at h
  unfold Sane at hs
  split at h
  · rename_i connection hpoint
    rw [hpoint] at hs
    exact connectDone_resumed hs (fun k => answersFor_at hpoint) h
  · rename_i handshake ok len hpoint
    rw [hpoint] at hs
    cases h
    exact handshakeWritten_resumed hs (fun k => answersFor_at hpoint) handshake ok len
  · rename_i bytes hpoint
    rw [hpoint] at hs
    exact handshakeRead_resumed hs (fun k => answersFor_at hpoint) h
  · rename_i known hpoint
    rw [hpoint] at hs
    cases h
    exact endpoint_resumed hs (fun k => answersFor_at hpoint) known
  · rename_i bytes hpoint
    rw [hpoint] at hs
    exact lengthRead_resumed hs (fun k => answersFor_at hpoint) h
  · rename_i len bytes hpoint
    rw [hpoint] at hs
    exact payloadRead_resumed hpoint hs h
  · rename_i ok len hpoint
    rw [hpoint] at hs
    cases h
    have hready : (s.setState .ready).Running := ⟨hs, by simp [setState]⟩
    exact hready.quiet_loopHead rfl fun k => answersFor_at hpoint
  · rename_i block left ok len hpoint
    rw [hpoint] at hs
    cases h
    exact requestWritten_resumed hpoint hs ok len
  · cases h

/-! ## Calls -/

/-- What going on from a call does. -/
inductive Answered (s : PeerSession) : PieceManager.Answer → PeerSession → Prop
  /-- the manager took the block -/
  | accepted {index offset : Nat} {data : Bytes} :
      s.point = .delivering index offset data →
      Answered s (.reply (.ok true)) (s.forget ⟨index, offset, u32 data.length⟩).refill
  /-- the manager did not take it -/
  | refused {index offset : Nat} {data : Bytes} :
      s.point = .delivering index offset data → Answered s (.reply (.ok false)) s.loopHead
  /-- an exception came out of the call, and the session is over -/
  | threw {index offset : Nat} {data : Bytes} {e : StdException} :
      s.point = .delivering index offset data →
      Answered s (.reply (.error e)) (s.suspend .ended)
  /-- nothing is wanted from the peer -/
  | nothing {left : Nat} :
      s.point = .requesting left → Answered s (.block none) (s.requestLoop left)
  /-- there is a block to ask for -/
  | block {left : Nat} {block : Block} :
      s.point = .requesting left →
      Answered s (.block (some block)) (s.suspend (.writingRequest block left))
  /-- a block was given back, or was not pending -/
  | returned {block : Block} {rest : List Block} {after : AfterReturn} {r : Bool} :
      s.point = .returning block rest after →
      Answered s (.reply (.ok r)) (s.returnLoop after rest)

theorem answered_answered {answer : PieceManager.Answer} (h : s.answered answer = some s') :
    s.Answered answer s' := by
  unfold answered at h
  split at h <;> rename_i hpoint
  · rename_i accepted
    cases h
    cases accepted with
    | true => exact .accepted hpoint
    | false => exact .refused hpoint
  · cases h
    exact .threw hpoint
  · cases h
    exact .nothing hpoint
  · cases h
    exact .block hpoint
  · cases h
    exact .returned hpoint
  · cases h

/-- Where a delivery leads, by the manager's answer. -/
def afterDelivery (s : PeerSession) (index offset : Nat) (data : Bytes) : Reply → PeerSession
  | .ok true => (s.forget ⟨index, offset, u32 data.length⟩).refill
  | .ok false => s.loopHead
  | .error _ => s.suspend .ended

theorem Answered.delivering {index offset : Nat} {data : Bytes} {r : Reply}
    (h : s.Answered (.reply r) s') (hpoint : s.point = .delivering index offset data) :
    s' = s.afterDelivery index offset data r := by
  cases h with
  | accepted hpoint' =>
    obtain ⟨rfl, rfl, rfl⟩ := Point.delivering.inj (hpoint.symm.trans hpoint')
    rfl
  | refused _ => rfl
  | threw _ => rfl
  | returned hpoint' =>
    rw [hpoint] at hpoint'
    cases hpoint'

theorem Sane.running {point : Point} (hs : s.Sane) (hpoint : s.point = point)
    (hcall : (∃ index offset data, point = .delivering index offset data) ∨
      (∃ left, point = .requesting left) ∨
      ∃ block rest left, point = .returning block rest (.request left)) : s.Running := by
  unfold Sane at hs
  rw [hpoint] at hs
  rcases hcall with ⟨_, _, _, rfl⟩ | ⟨_, rfl⟩ | ⟨_, _, _, rfl⟩ <;> exact hs

/-- The account of a session that is about to make a call, but not to end, is its
set. -/
theorem answersFor_call {point : Point} (hpoint : s.point = point)
    (hcall : (∃ index offset data, point = .delivering index offset data) ∨
      (∃ left, point = .requesting left) ∨
      ∃ block rest left, point = .returning block rest (.request left)) :
    s.AnswersFor k ↔ s.pendingBlocks.Has k := by
  rcases hcall with ⟨_, _, _, rfl⟩ | ⟨_, rfl⟩ | ⟨_, _, _, rfl⟩ <;> exact answersFor_at hpoint

theorem Sane.answered {answer : PieceManager.Answer} (hs : s.Sane) (h : s.Answered answer s') :
    s'.Sane := by
  cases h with
  | @accepted index offset data hpoint =>
    have hrun := hs.running hpoint (Or.inl ⟨_, _, _, rfl⟩)
    have hforget : (s.forget ⟨index, offset, u32 data.length⟩).Running := hrun
    exact hforget.sane_refill
  | refused hpoint => exact sane_loopHead
  | threw hpoint => trivial
  | @nothing left hpoint =>
    exact (hs.running hpoint (Or.inr (Or.inl ⟨_, rfl⟩))).sane_requestLoop left
  | block hpoint => exact hs.running hpoint (Or.inr (Or.inl ⟨_, rfl⟩))
  | @returned block rest after r hpoint =>
    cases after with
    | request left =>
      exact (hs.running hpoint (Or.inr (Or.inr ⟨_, _, _, rfl⟩))).sane_returnLoop_request left rest
    | finish =>
      unfold Sane at hs
      rw [hpoint] at hs
      exact sane_returnLoop_finish ((List.suffix_cons _ _).trans hs)

/-- No call adds a block to the set. -/
theorem Answered.has {answer : PieceManager.Answer} (h : s.Answered answer s')
    (hk : s'.pendingBlocks.Has k) : s.pendingBlocks.Has k := by
  cases h with
  | accepted _ =>
    unfold refill at hk
    rw [requestLoop_pendingBlocks] at hk
    exact (KeyedSet.has_erase.mp hk).1
  | refused _ => exact loopHead_pendingBlocks ▸ hk
  | threw _ => exact hk
  | nothing _ => exact requestLoop_pendingBlocks _ ▸ hk
  | block _ => exact hk
  | returned _ => exact returnLoop_pendingBlocks _ _ ▸ hk

end PeerSession

end BitTorrentClient
