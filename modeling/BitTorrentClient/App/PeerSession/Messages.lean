/-
  App/PeerSession/Messages.lean --- a session as the messages of its peer drive it.

  The history of a session says what its peer sent and what was written to it.  Here
  the logs the protocol speaks of are read off that history: whether the peer chokes
  us, whether its bitfield has arrived, which requests it still has to answer.

  `Moves` says by cases what a step does.  A session begins to request blocks in two
  places only, and `Moves.asking` says so.
-/
import BitTorrentClient.App.PeerSession.Accounts
import Mathlib.Data.List.Dedup

set_option autoImplicit false

namespace BitTorrentClient

open Library

namespace PeerSession

variable {config : SessionConfig} {s s' : PeerSession}
  {history : List (Transition PeerSession Event)}

/-- A session from its construction on, whatever its socket and the piece manager do. -/
def machine (config : SessionConfig) : Machine PeerSession Event where
  init s := s = new
  step s event s' := s.step config event = some s'

theorem Sane.step {event : Event} (h : s.Sane) (hstep : s.step config event = some s') :
    s'.Sane := by
  cases event with
  | io event => exact (resume_resumed h hstep).1
  | call fate answer => exact h.answered (answered_answered hstep)

/-- A list of events that goes through goes on with a run. -/
theorem run_of_steps {events : List Event} (hrun : (machine config).Run history s)
    (h : s.steps config events = some s') : ∃ history', (machine config).Run history' s' := by
  induction events generalizing s history with
  | nil =>
    cases h
    exact ⟨history, hrun⟩
  | cons event rest ih =>
    obtain ⟨t, hstep, hrest⟩ := Option.bind_eq_some_iff.mp h
    exact ih (hrun.snoc hstep) hrest

/-! ## The logs -/

/-- The message that the step reads, if its kind is known. -/
def received (t : Transition PeerSession Event) : Option (Msg.Id × Bytes) :=
  match t.source.point, t.label with
  | .readingPayload _, .io (.read (some (msgId :: payload))) =>
      (Msg.Id.ofByte msgId).map fun id => (id, payload)
  | _, _ => none

/-- The block whose request the step wrote. -/
def requested (t : Transition PeerSession Event) : Option Block :=
  match t.source.point, t.label with
  | .writingRequest block _, .io (.wrote true _) => some block
  | _, _ => none

/-- The answer of the manager to the block that the step delivered. -/
def delivered (t : Transition PeerSession Event) : Option (BlockKey × Reply) :=
  match t.source.point, t.label with
  | .delivering index offset _, .call _ (.reply r) => some (blockKey index offset, r)
  | _, _ => none

/-- Whether the peer chokes us: the last CHOKE or UNCHOKE decides, and without one it
does. -/
def choked : List (Transition PeerSession Event) → Bool
  | [] => true
  | t :: older =>
      match received t with
      | some (.choke, _) => true
      | some (.unchoke, _) => false
      | _ => choked older

/-- Whether a BITFIELD of the right size has arrived. -/
def bitfieldArrived (config : SessionConfig) : List (Transition PeerSession Event) → Bool
  | [] => false
  | t :: older =>
      match received t with
      | some (.bitfield, payload) =>
          decide (payload.length = (config.totalNumOfPieces + 7) / 8) ||
            bitfieldArrived config older
      | _ => bitfieldArrived config older

/-- The piece and offset that a PIECE message names. -/
def pieceKey (payload : Bytes) : Option BlockKey :=
  match parsePiece payload with
  | .ok (index, offset, _) => some (blockKey index offset)
  | .error _ => none

/-- Whether the peer still has to answer a request for the block: one was written, and
since then neither the block nor a CHOKE has come. -/
def outstanding (k : BlockKey) : List (Transition PeerSession Event) → Bool
  | [] => false
  | t :: older =>
      match received t, requested t with
      | some (.choke, _), _ => false
      | some (.piece, payload), _ => decide (pieceKey payload ≠ some k) && outstanding k older
      | _, some block => decide (block.key = k) || outstanding k older
      | _, none => outstanding k older

/-- The blocks that were requested and that the peer still has to answer. -/
def unanswered (history : List (Transition PeerSession Event)) : List BlockKey :=
  (history.filterMap fun t => (requested t).map Block.key).dedup.filter
    fun k => outstanding k history

/-- A delivery is no message. -/
theorem received_of_delivered {t : Transition PeerSession Event} {answer : BlockKey × Reply}
    (h : delivered t = some answer) : received t = none := by
  unfold delivered at h
  split at h
  · rename_i hpoint _
    simp [received, hpoint]
  · cases h

/-- And no request. -/
theorem requested_of_delivered {t : Transition PeerSession Event} {answer : BlockKey × Reply}
    (h : delivered t = some answer) : requested t = none := by
  unfold delivered at h
  split at h
  · rename_i hpoint _
    simp [requested, hpoint]
  · cases h

/-! ## Kinds of points -/

/-- The session waits for the connection, the handshake or a message. -/
def listening (s : PeerSession) : Bool :=
  match s.point with
  | .connecting | .writingHandshake _ | .readingHandshake | .loggingEndpoint => true
  | .readingLength | .readingPayload _ => true
  | _ => false

/-- The session has ended, or gives its blocks back before it ends. -/
def finishing (s : PeerSession) : Bool :=
  match s.point with
  | .ended | .returning _ _ .finish => true
  | _ => false

/-- The session is in the loop that requests blocks. -/
def asking (s : PeerSession) : Bool :=
  match s.point with
  | .requesting _ | .writingRequest _ _ | .returning _ _ (.request _) => true
  | _ => false

/-- What the session knows of its peer, and asked it for, is as it was. -/
structure Same (s s' : PeerSession) : Prop where
  peerChoking : s'.peerChoking = s.peerChoking
  peerBitfield : s'.peerBitfield = s.peerBitfield
  pendingBlocks : s'.pendingBlocks = s.pendingBlocks

theorem Same.trans {s₁ s₂ s₃ : PeerSession} (h : Same s₁ s₂) (h' : Same s₂ s₃) : Same s₁ s₃ :=
  ⟨h'.1.trans h.1, h'.2.trans h.2, h'.3.trans h.3⟩

/-- The session is at one of the points where nothing of its set is in use. -/
def Calm (s : PeerSession) : Prop := s.listening = true ∨ s.finishing = true

theorem Calm.not_asking (h : s.Calm) : s.asking = false := by
  unfold Calm listening finishing at h
  unfold asking
  cases hpoint : s.point <;> simp_all
  split <;> simp_all

/-! ## Where a step ends -/

theorem same_suspend (s : PeerSession) (point : Point) : Same s (s.suspend point) :=
  ⟨rfl, rfl, rfl⟩

theorem same_setState (s : PeerSession) (state : PeerState) : Same s (s.setState state) :=
  ⟨rfl, rfl, rfl⟩

theorem loopHead_cases (s : PeerSession) :
    s.loopHead = s.suspend .readingLength ∨ s.loopHead = s.suspend .ended := by
  unfold loopHead
  split
  · exact Or.inl rfl
  · exact Or.inr rfl

theorem loopHead_calm (s : PeerSession) : s.loopHead.Calm := by
  rcases loopHead_cases s with h | h
  · rw [h]
    exact Or.inl rfl
  · rw [h]
    exact Or.inr rfl

theorem same_loopHead (s : PeerSession) : Same s s.loopHead := by
  rcases loopHead_cases s with h | h
  · rw [h]
    exact same_suspend s _
  · rw [h]
    exact same_suspend s _

theorem same_requestLoop (s : PeerSession) (left : Nat) : Same s (s.requestLoop left) := by
  cases left with
  | zero => exact same_loopHead s
  | succ left => exact same_suspend s _

theorem same_refill (s : PeerSession) : Same s s.refill := by
  unfold refill
  exact same_requestLoop s _

theorem same_returnLoop (s : PeerSession) (after : AfterReturn) (blocks : List Block) :
    Same s (s.returnLoop after blocks) := by
  cases blocks with
  | nil =>
    cases after with
    | request left => exact same_requestLoop s left
    | finish => exact same_suspend s _
  | cons block rest => exact same_suspend s _

/-- Giving the blocks back for good. -/
theorem finishing_returnLoop (s : PeerSession) (blocks : List Block) :
    (s.returnLoop .finish blocks).finishing = true := by
  cases blocks with
  | nil => rfl
  | cons block rest => rfl

theorem returnLoop_finish_calm (s : PeerSession) (blocks : List Block) :
    (s.returnLoop .finish blocks).Calm :=
  Or.inr (finishing_returnLoop s blocks)

/-! ## One step -/

/-- What `_handleMessage` does with a message, if its kind is known. -/
inductive Handled (config : SessionConfig) (s : PeerSession) :
    Option (Msg.Id × Bytes) → PeerSession → Prop
  | choke {payload : Bytes} :
      Handled config s (some (.choke, payload)) { s with peerChoking := true }.loopHead
  | unchoke {payload : Bytes} :
      Handled config s (some (.unchoke, payload)) { s with peerChoking := false }.refill
  | bitfield {payload : Bytes} :
      Handled config s (some (.bitfield, payload))
        ((s.handleBitfield config payload).suspend .writingInterested)
  | piece {payload : Bytes} {index offset : Nat} {data : Bytes} :
      parsePiece payload = .ok (index, offset, data) →
      Handled config s (some (.piece, payload)) (s.suspend (.delivering index offset data))
  /-- a PIECE message that is too short -/
  | malformed {payload : Bytes} {e : StdException} : parsePiece payload = .error e →
      Handled config s (some (.piece, payload)) (s.suspend .ended)
  /-- a message of another kind -/
  | ignored {message : Option (Msg.Id × Bytes)} :
      (∀ id payload, message = some (id, payload) →
        id ≠ .choke ∧ id ≠ .unchoke ∧ id ≠ .bitfield ∧ id ≠ .piece) →
      Handled config s message s.loopHead

theorem handleMessage_handled (msgId : UInt8) (payload : Bytes) :
    Handled config s ((Msg.Id.ofByte msgId).map fun id => (id, payload))
      (s.handleMessage config msgId payload) := by
  unfold handleMessage
  split
  · rename_i hid
    rw [hid]
    exact .choke
  · rename_i hid
    rw [hid]
    exact .unchoke
  · rename_i hid
    rw [hid]
    exact .ignored (by simp)
  · rename_i hid
    rw [hid]
    exact .bitfield
  · rename_i hid
    rw [hid]
    unfold handlePiece
    split
    · rename_i hparse
      exact .piece hparse
    · rename_i hparse
      exact .malformed hparse
  · rename_i hchoke hunchoke _ hbitfield hpiece
    refine .ignored fun id payload' hmessage => ?_
    obtain ⟨id', hid', heq⟩ := Option.map_eq_some_iff.mp hmessage
    obtain ⟨rfl, _⟩ := Prod.mk.inj heq
    refine ⟨?_, ?_, ?_, ?_⟩
    · intro heq
      subst heq
      exact hchoke hid'
    · intro heq
      subst heq
      exact hunchoke hid'
    · intro heq
      subst heq
      exact hbitfield hid'
    · intro heq
      subst heq
      exact hpiece hid'

/-- What a step does. -/
inductive Moves (config : SessionConfig) (s : PeerSession) : Event → PeerSession → Prop
  /-- no message was handled, and none is being answered -/
  | quiet {event : IoEvent} {s' : PeerSession} : s.listening = true → Same s s' → s'.Calm →
      received ⟨s, .io event, s'⟩ = none → Moves config s (.io event) s'
  /-- a message was handed to `_handleMessage` -/
  | message {len : Nat} {event : IoEvent} {s' : PeerSession} : s.point = .readingPayload len →
      Handled config s (received ⟨s, .io event, s'⟩) s' → Moves config s (.io event) s'
  /-- the answer to a BITFIELD was written or not -/
  | interested {ok : Bool} {len : Nat} : s.point = .writingInterested →
      Moves config s (.io (.wrote ok len)) (s.setState .ready).loopHead
  /-- a request was written or not -/
  | written {block : Block} {left len : Nat} {ok : Bool} :
      s.point = .writingRequest block left →
      Moves config s (.io (.wrote ok len)) (s.requestWritten block left ok)
  /-- the manager was called -/
  | called {fate : DiskFate} {answer : PieceManager.Answer} {s' : PeerSession} :
      s.Answered answer s' → Moves config s (.call fate answer) s'

/-- `run` begins. -/
theorem run_calm (s : PeerSession) : s.run.Calm ∧ Same s s.run := by
  unfold run
  exact ⟨loopHead_calm _, (same_setState s _).trans (same_loopHead _)⟩

theorem connectDone_calm {connection : Connection} (h : s.connectDone config connection = some s') :
    s'.Calm ∧ Same s s' := by
  unfold connectDone at h
  dsimp only at h
  split at h
  · cases h
    cases connection with
    | established => exact ⟨Or.inl rfl, rfl, rfl, rfl⟩
    | failed opened => exact ⟨Or.inl rfl, rfl, rfl, rfl⟩
  · cases h

theorem handshakeWritten_calm (s : PeerSession) (handshake : HandshakeMsg) (ok : Bool)
    (len : Nat) :
    (s.handshakeWritten handshake ok len).Calm ∧ Same s (s.handshakeWritten handshake ok len) := by
  have hrun := run_calm (s.setState .error)
  unfold handshakeWritten
  split
  · exact ⟨hrun.1, (same_setState s _).trans hrun.2⟩
  · split
    · exact ⟨hrun.1, (same_setState s _).trans hrun.2⟩
    · exact ⟨Or.inl rfl, same_suspend s _⟩

theorem handshakeRead_calm {bytes : Option Bytes} (h : s.handshakeRead config bytes = some s') :
    s'.Calm ∧ Same s s' := by
  have hrun := run_calm (s.setState .error)
  unfold handshakeRead at h
  split at h
  · cases h
    exact ⟨hrun.1, (same_setState s _).trans hrun.2⟩
  · split at h
    · split at h
      · cases h
        exact ⟨hrun.1, (same_setState s _).trans hrun.2⟩
      · cases h
        exact ⟨Or.inl rfl, same_suspend s _⟩
    · cases h

/-- A lost connection. -/
theorem lost_calm (s : PeerSession) :
    ((s.setState .error).returnBlocks .finish).Calm ∧
      Same s ((s.setState .error).returnBlocks .finish) :=
  ⟨returnLoop_finish_calm _ _, (same_setState s _).trans (same_returnLoop _ _ _)⟩

theorem lengthRead_calm {bytes : Option Bytes} (h : s.lengthRead bytes = some s') :
    s'.Calm ∧ Same s s' := by
  unfold lengthRead at h
  split at h
  · cases h
    exact lost_calm s
  · split at h
    · cases h
      split
      · exact ⟨loopHead_calm s, same_loopHead s⟩
      · exact ⟨Or.inl rfl, same_suspend s _⟩
    · cases h

theorem step_moves {event : Event} (h : s.step config event = some s') :
    s.Moves config event s' := by
  cases event with
  | call fate answer => exact .called (answered_answered h)
  | io event =>
    change s.resume config event = some s' at h
    unfold resume at h
    split at h
    · rename_i connection hpoint
      obtain ⟨hcalm, hsame⟩ := connectDone_calm h
      exact .quiet (by rw [listening, hpoint]) hsame hcalm (by simp [received])
    · rename_i handshake ok len hpoint
      cases h
      obtain ⟨hcalm, hsame⟩ := handshakeWritten_calm s handshake ok len
      exact .quiet (by rw [listening, hpoint]) hsame hcalm (by simp [received])
    · rename_i bytes hpoint
      obtain ⟨hcalm, hsame⟩ := handshakeRead_calm h
      exact .quiet (by rw [listening, hpoint]) hsame hcalm (by simp [received, hpoint])
    · rename_i known hpoint
      cases h
      obtain ⟨hcalm, hsame⟩ := run_calm s
      refine .quiet (by rw [listening, hpoint]) ?_ ?_ (by simp [received])
      · cases known with
        | true => exact hsame
        | false => exact same_suspend s _
      · cases known with
        | true => exact hcalm
        | false => exact Or.inr rfl
    · rename_i bytes hpoint
      obtain ⟨hcalm, hsame⟩ := lengthRead_calm h
      exact .quiet (by rw [listening, hpoint]) hsame hcalm (by simp [received, hpoint])
    · rename_i len bytes hpoint
      unfold payloadRead at h
      split at h
      · cases h
        obtain ⟨hcalm, hsame⟩ := lost_calm s
        exact .quiet (by rw [listening, hpoint]) hsame hcalm (by simp [received])
      · cases h
      · split at h
        · cases h
          rename_i msgId payload _
          refine .message hpoint ?_
          rw [received, hpoint]
          exact handleMessage_handled msgId payload
        · cases h
    · rename_i ok len hpoint
      cases h
      exact .interested hpoint
    · rename_i block left ok len hpoint
      cases h
      exact .written hpoint
    · cases h

/-- No message changes the set. -/
theorem Handled.pendingBlocks {message : Option (Msg.Id × Bytes)}
    (h : s.Handled config message s') : s'.pendingBlocks = s.pendingBlocks := by
  cases h with
  | choke => exact (same_loopHead _).pendingBlocks
  | unchoke => exact (same_refill _).pendingBlocks
  | bitfield =>
    change (s.handleBitfield config _).pendingBlocks = _
    unfold handleBitfield
    dsimp only
    split <;> rfl
  | piece _ => rfl
  | malformed _ => rfl
  | ignored _ => exact (same_loopHead s).pendingBlocks

/-- A step that handles a message. -/
theorem Moves.handled {event : Event} {message : Msg.Id × Bytes} (h : s.Moves config event s')
    (hreceived : received ⟨s, event, s'⟩ = some message) :
    ∃ len, s.point = .readingPayload len ∧ s.Handled config (some message) s' := by
  cases h with
  | quiet _ _ _ hnone =>
    rw [hreceived] at hnone
    cases hnone
  | message hpoint hhandled => exact ⟨_, hpoint, hreceived ▸ hhandled⟩
  | interested _ => simp [received] at hreceived
  | written _ => simp [received] at hreceived
  | called _ => simp [received] at hreceived

/-- A step that delivers a block. -/
theorem Moves.delivery {event : Event} {k : BlockKey} {r : Reply} (h : s.Moves config event s')
    (hdelivered : delivered ⟨s, event, s'⟩ = some (k, r)) :
    ∃ index offset data, s.point = .delivering index offset data ∧ k = blockKey index offset ∧
      s' = s.afterDelivery index offset data r := by
  unfold delivered at hdelivered
  split at hdelivered
  · rename_i hpoint hevent
    obtain ⟨rfl, rfl⟩ := Prod.mk.inj (Option.some.inj hdelivered)
    dsimp only at hpoint hevent
    subst hevent
    cases h with
    | called hanswered => exact ⟨_, _, _, hpoint, rfl, hanswered.delivering hpoint⟩
  · cases hdelivered

/-! ## Where requesting begins -/

/-- The step handles an UNCHOKE, or the manager accepts the block it delivers: the two
places from which blocks are requested. -/
def BeginsAsking (t : Transition PeerSession Event) : Prop :=
  (∃ payload, received t = some (.unchoke, payload)) ∨ ∃ k, delivered t = some (k, .ok true)

/-- A message that is handled begins to request blocks only if it is an UNCHOKE. -/
theorem Handled.asking {message : Option (Msg.Id × Bytes)} (h : s.Handled config message s')
    (hasking : s'.asking = true) : ∃ payload, message = some (.unchoke, payload) := by
  cases h with
  | choke =>
    rw [(loopHead_calm _).not_asking] at hasking
    cases hasking
  | unchoke => exact ⟨_, rfl⟩
  | bitfield => cases hasking
  | piece _ => cases hasking
  | malformed _ => cases hasking
  | ignored _ =>
    rw [(loopHead_calm _).not_asking] at hasking
    cases hasking

/-- A session that requests blocks after a step did so before it, without a message in
between, or begins to. -/
theorem Moves.asking {event : Event} (h : s.Moves config event s') (hasking : s'.asking = true) :
    (s.asking = true ∧ received ⟨s, event, s'⟩ = none) ∨ BeginsAsking ⟨s, event, s'⟩ := by
  cases h with
  | quiet _ _ hcalm _ =>
    rw [hcalm.not_asking] at hasking
    cases hasking
  | message _ hhandled => exact Or.inr (Or.inl (hhandled.asking hasking))
  | interested _ =>
    rw [(loopHead_calm _).not_asking] at hasking
    cases hasking
  | written hpoint =>
    refine Or.inl ⟨?_, by simp [received]⟩
    rw [PeerSession.asking, hpoint]
  | called hanswered =>
    cases hanswered with
    | accepted hpoint => exact Or.inr (Or.inr ⟨_, by rw [delivered, hpoint]⟩)
    | refused _ =>
      rw [(loopHead_calm _).not_asking] at hasking
      cases hasking
    | threw _ => simp [PeerSession.asking, suspend] at hasking
    | nothing hpoint =>
      refine Or.inl ⟨?_, by simp [received]⟩
      rw [PeerSession.asking, hpoint]
    | block hpoint =>
      refine Or.inl ⟨?_, by simp [received]⟩
      rw [PeerSession.asking, hpoint]
    | @returned block rest after r hpoint =>
      cases after with
      | request left =>
        refine Or.inl ⟨?_, by simp [received]⟩
        rw [PeerSession.asking, hpoint]
      | finish =>
        rw [(returnLoop_finish_calm _ _).not_asking] at hasking
        cases hasking

end PeerSession

end BitTorrentClient
