/-
  App/PeerSession/Framing.lean --- the messages of a byte stream.

  The peer sends some bytes and closes.  A read gets the next bytes of the stream, all
  that were asked for, or fails; writes and calls of the piece manager come to anything.
  However the session is driven between its reads, what it hands to `_handleMessage` are
  the complete frames of the stream that are not empty: what has been handed over and
  what is still ahead together are always the messages of the whole stream.  A message is
  handed over by the step that takes it in, and only if that step leads where
  `handleMessage` does; a message that is read and dropped would not count (`dispatched`).
-/
import BitTorrentClient.App.PeerSession.Messages
import BitTorrentClient.Library.Frames

set_option autoImplicit false

namespace BitTorrentClient

open Library

/-- Four bytes announce the length of a message. -/
def lengthHeader : Header UInt8 where
  width := 4
  size := ntohl
  width_pos := by decide

/-- The identifier and the payload of a frame, unless it is a keep-alive. -/
def messageOf : Bytes → Option (UInt8 × Bytes)
  | [] => none
  | msgId :: payload => some (msgId, payload)

/-- The messages of a stream: its complete frames that are not empty. -/
def messages (stream : Bytes) : List (UInt8 × Bytes) :=
  (lengthHeader.frames stream).filterMap messageOf

theorem messages_of_short {stream : Bytes} (h : stream.length < 4) : messages stream = [] := by
  rw [messages, lengthHeader.frames_of_short h]
  rfl

/-- Behind a length there is a body, or the stream is cut off. -/
theorem messages_of_header {stream : Bytes} (h : 4 ≤ stream.length) :
    messages stream =
      if ntohl (stream.take 4) ≤ (stream.drop 4).length then
        (messageOf ((stream.drop 4).take (ntohl (stream.take 4)))).toList ++
          messages ((stream.drop 4).drop (ntohl (stream.take 4)))
      else [] := by
  split
  · rename_i hwhole
    have hframes : lengthHeader.frames stream =
        (stream.drop 4).take (ntohl (stream.take 4)) ::
          lengthHeader.frames ((stream.drop 4).drop (ntohl (stream.take 4))) :=
      Header.frames_of_whole h hwhole
    rw [messages, hframes, List.filterMap_cons]
    cases messageOf ((stream.drop 4).take (ntohl (stream.take 4))) <;> rfl
  · rename_i hcut
    rw [messages, Header.frames_of_cut (Nat.lt_of_not_le hcut)]
    rfl

namespace PeerSession

variable {config : SessionConfig} {s s' : PeerSession} {stream : Bytes}

/-! ## A session and its stream -/

/-- How many bytes the loop of `run` waits for. -/
def awaited (s : PeerSession) : Option Nat :=
  match s.point with
  | .readingLength => some 4
  | .readingPayload len => some len
  | _ => none

/-- What `async_read` gets of a stream behind which the peer has closed. -/
def arrives (stream : Bytes) (count : Nat) : Option Bytes :=
  if count ≤ stream.length then some (stream.take count) else none

/-- `run`, while the peer sends the stream and closes.  The rest of the stream is part of
the state. -/
def feed (config : SessionConfig) (s : PeerSession) (stream : Bytes) :
    Machine (PeerSession × Bytes) Event where
  init w := w = (s.run, stream)
  step w event w' := w.1.step config event = some w'.1 ∧
    match w.1.awaited with
    | some count => event = .io (.read (arrives w.2 count)) ∧ w'.2 = w.2.drop count
    | none => w'.2 = w.2

/-- The step, as one of the session. -/
def sessionStep (t : Transition (PeerSession × Bytes) Event) : Transition PeerSession Event :=
  ⟨t.source.1, t.label, t.target.1⟩

/-- The message that the step hands to `_handleMessage`, whatever its kind: it was read
for the payload, and the step is that call. -/
def dispatched (config : SessionConfig) (t : Transition PeerSession Event) :
    Option (UInt8 × Bytes) :=
  match t.source.point, t.label with
  | .readingPayload _, .io (.read (some (msgId :: payload))) =>
      if t.target = t.source.handleMessage config msgId payload then some (msgId, payload)
      else none
  | _, _ => none

/-- The messages handed to `_handleMessage`, earliest first. -/
def heard (config : SessionConfig) (history : List (Transition (PeerSession × Bytes) Event)) :
    List (UInt8 × Bytes) :=
  history.reverse.filterMap fun t => dispatched config (sessionStep t)

/-- An exception comes out of `_handleMessage`: a PIECE message is too short, or the write
of a finished piece failed. -/
def Throws (t : Transition PeerSession Event) : Prop :=
  (∃ payload e, received t = some (.piece, payload) ∧ parsePiece payload = .error e) ∨
    ∃ k e, delivered t = some (k, .error e)

/-- Inside `run`; the message that is read is not empty. -/
def InRun (s : PeerSession) : Prop :=
  match s.point with
  | .connecting | .writingHandshake _ | .readingHandshake | .loggingEndpoint => False
  | .readingPayload len => 0 < len
  | _ => True

/-- What a step of the session does to the stream. -/
inductive Fed (config : SessionConfig) : PeerSession × Bytes → Event → PeerSession × Bytes → Prop
  | keepAlive {s : PeerSession} {stream : Bytes} : s.point = .readingLength →
      4 ≤ stream.length → ntohl (stream.take 4) = 0 →
      Fed config (s, stream) (.io (.read (some (stream.take 4)))) (s.loopHead, stream.drop 4)
  | header {s : PeerSession} {stream : Bytes} : s.point = .readingLength →
      4 ≤ stream.length → ntohl (stream.take 4) ≠ 0 →
      Fed config (s, stream) (.io (.read (some (stream.take 4))))
        (s.suspend (.readingPayload (ntohl (stream.take 4))), stream.drop 4)
  | message {s : PeerSession} {stream : Bytes} {len : Nat} {msgId : UInt8} {payload : Bytes} :
      s.point = .readingPayload len → len ≤ stream.length →
      stream.take len = msgId :: payload →
      Fed config (s, stream) (.io (.read (some (msgId :: payload))))
        (s.handleMessage config msgId payload, stream.drop len)
  /-- the stream ends before all bytes have arrived -/
  | lost {s : PeerSession} {stream : Bytes} {count : Nat} : s.awaited = some count →
      stream.length < count →
      Fed config (s, stream) (.io (.read none))
        ((s.setState .error).returnBlocks .finish, stream.drop count)
  /-- `_handleMessage` goes on -/
  | handler {s s' : PeerSession} {stream : Bytes} {event : Event} : s.awaited = none →
      s.Moves config event s' → Fed config (s, stream) event (s', stream)

/-- What becomes of the read of a length. -/
theorem fed_lengthRead {stream : Bytes} (hpoint : s.point = .readingLength)
    (hstep : s.lengthRead (arrives stream 4) = some s') :
    Fed config (s, stream) (.io (.read (arrives stream 4))) (s', stream.drop 4) := by
  unfold arrives at hstep ⊢
  split at hstep
  · rename_i hwhole
    rw [if_pos hwhole]
    have hlen : (stream.take 4).length = 4 := List.length_take_of_le hwhole
    simp only [lengthRead, if_pos hlen] at hstep
    cases hstep
    split
    · rename_i hzero
      exact .keepAlive hpoint hwhole hzero
    · rename_i hnonzero
      exact .header hpoint hwhole hnonzero
  · rename_i hshort
    rw [if_neg hshort]
    cases hstep
    have hawaited : s.awaited = some 4 := by rw [awaited, hpoint]
    exact .lost hawaited (Nat.lt_of_not_le hshort)

/-- What becomes of the read of a message. -/
theorem fed_payloadRead {stream : Bytes} {len : Nat} (hpoint : s.point = .readingPayload len)
    (hstep : s.payloadRead config len (arrives stream len) = some s') :
    Fed config (s, stream) (.io (.read (arrives stream len))) (s', stream.drop len) := by
  unfold arrives at hstep ⊢
  split at hstep
  · rename_i hwhole
    rw [if_pos hwhole]
    cases hbytes : stream.take len with
    | nil => simp [payloadRead, hbytes] at hstep
    | cons msgId payload =>
      have hlen : payload.length + 1 = len := by
        rw [← List.length_cons (a := msgId), ← hbytes, List.length_take_of_le hwhole]
      simp only [payloadRead, hbytes, if_pos hlen] at hstep
      cases hstep
      exact .message hpoint hwhole hbytes
  · rename_i hshort
    rw [if_neg hshort]
    cases hstep
    have hawaited : s.awaited = some len := by rw [awaited, hpoint]
    exact .lost hawaited (Nat.lt_of_not_le hshort)

theorem fed_of_step {w w' : PeerSession × Bytes} {event : Event}
    (h : (feed config s stream).step w event w') : Fed config w event w' := by
  obtain ⟨t, rest⟩ := w
  obtain ⟨t', rest'⟩ := w'
  obtain ⟨hstep, hread⟩ := h
  dsimp only at hstep hread
  cases hpoint : t.point with
  | readingLength =>
    have hawaited : t.awaited = some 4 := by rw [awaited, hpoint]
    rw [hawaited] at hread
    obtain ⟨rfl, rfl⟩ := hread
    exact fed_lengthRead hpoint (by simpa only [step, resume, hpoint] using hstep)
  | readingPayload len =>
    have hawaited : t.awaited = some len := by rw [awaited, hpoint]
    rw [hawaited] at hread
    obtain ⟨rfl, rfl⟩ := hread
    exact fed_payloadRead hpoint (by simpa only [step, resume, hpoint] using hstep)
  | _ =>
    have hawaited : t.awaited = none := by rw [awaited, hpoint]
    rw [hawaited] at hread
    obtain rfl := hread
    exact .handler hawaited (step_moves hstep)

/-- A session that waits for bytes of a message is in its loop. -/
theorem Sane.running_of_awaited {count : Nat} (h : s.Sane) (hawaited : s.awaited = some count) :
    s.Running := by
  unfold awaited at hawaited
  split at hawaited
  · rename_i hpoint
    rw [Sane, hpoint] at h
    exact h
  · rename_i hpoint
    rw [Sane, hpoint] at h
    exact h
  · cases hawaited

theorem not_finishing_of_awaited {count : Nat} (hawaited : s.awaited = some count) :
    s.finishing = false := by
  unfold awaited at hawaited
  unfold finishing
  cases hpoint : s.point <;> simp_all

/-- Inside `run`, a session that waits for the peer waits for bytes of a message. -/
theorem not_listening_of_inRun (hin : s.InRun) (hawaited : s.awaited = none) :
    s.listening = false := by
  unfold InRun at hin
  unfold awaited at hawaited
  unfold listening
  cases hpoint : s.point with
  | readingLength | readingPayload =>
    rw [hpoint] at hawaited
    cases hawaited
  | connecting | writingHandshake | readingHandshake | loggingEndpoint =>
    rw [hpoint] at hin
    cases hin
  | _ => rfl

/-! ## A handler comes back -/

/-- Between two messages, or in the middle of handling one. -/
def working (s : PeerSession) : Bool :=
  match s.point with
  | .readingLength | .writingInterested | .delivering _ _ _ => true
  | .requesting _ | .writingRequest _ _ | .returning _ _ (.request _) => true
  | _ => false

theorem Running.working_loopHead (h : s.Running) : s.loopHead.working = true := by
  rw [h.loopHead]
  rfl

theorem Running.working_requestLoop (h : s.Running) (n : Nat) :
    (s.requestLoop n).working = true := by
  cases n with
  | zero => exact h.working_loopHead
  | succ left => rfl

theorem Running.working_refill (h : s.Running) : s.refill.working = true := by
  unfold refill
  exact h.working_requestLoop _

theorem Running.working_returnLoop (h : s.Running) (left : Nat) (blocks : List Block) :
    (s.returnLoop (.request left) blocks).working = true := by
  cases blocks with
  | nil => exact h.working_requestLoop left
  | cons block rest => rfl

/-- A message is handled without an exception: the loop goes on. -/
theorem Handled.working {message : Option (Msg.Id × Bytes)} (h : s.Handled config message s')
    (hrun : s.Running)
    (hparses : ∀ payload e, message = some (.piece, payload) → parsePiece payload ≠ .error e) :
    s'.working = true := by
  cases h with
  | choke => exact Running.working_loopHead (s := { s with peerChoking := true }) hrun
  | unchoke => exact Running.working_refill (s := { s with peerChoking := false }) hrun
  | bitfield => rfl
  | piece _ => rfl
  | malformed herror => exact absurd herror (hparses _ _ rfl)
  | ignored _ => exact hrun.working_loopHead

theorem received_message {len : Nat} {msgId : UInt8} {payload : Bytes}
    (hpoint : s.point = .readingPayload len) :
    received ⟨s, .io (.read (some (msgId :: payload))), s'⟩ =
      (Msg.Id.ofByte msgId).map fun id => (id, payload) := by
  rw [received, hpoint]

/-- A complete message is handled without an exception, or one comes out. -/
theorem working_handleMessage {len : Nat} {msgId : UInt8} {payload : Bytes}
    (hpoint : s.point = .readingPayload len) (hrun : s.Running)
    (hthrows : ¬ Throws ⟨s, .io (.read (some (msgId :: payload))),
      s.handleMessage config msgId payload⟩) :
    (s.handleMessage config msgId payload).working = true := by
  refine (handleMessage_handled msgId payload).working hrun fun payload' e hpiece herror => ?_
  exact hthrows (Or.inl ⟨payload', e, (received_message hpoint).trans hpiece, herror⟩)

/-- The step of a handler leads on in the handler or back to the loop. -/
theorem Moves.working {event : Event} (h : s.Moves config event s') (hin : s.InRun)
    (hsane : s.Sane) (hawaited : s.awaited = none) (hfinishing : s.finishing = false)
    (hthrows : ¬ Throws ⟨s, event, s'⟩) : s'.working = true := by
  unfold Sane at hsane
  cases h with
  | quiet hlistening _ _ _ =>
    rw [not_listening_of_inRun hin hawaited] at hlistening
    cases hlistening
  | message hpoint _ =>
    rw [awaited, hpoint] at hawaited
    cases hawaited
  | interested hpoint =>
    rw [hpoint] at hsane
    have hready : (s.setState .ready).Running := ⟨hsane, by simp [setState]⟩
    exact hready.working_loopHead
  | @written block left len ok hpoint =>
    rw [hpoint] at hsane
    have hrun : s.Running := hsane
    cases ok with
    | true =>
      exact Running.working_requestLoop
        (s := { s with pendingBlocks := s.pendingBlocks.insert block }) hrun left
    | false => exact hrun.working_returnLoop left s.pendingBlocks.elems
  | called hanswered =>
    cases hanswered with
    | @accepted index offset data hpoint =>
      rw [hpoint] at hsane
      exact Running.working_refill (s := s.forget ⟨index, offset, u32 data.length⟩) hsane
    | refused hpoint =>
      rw [hpoint] at hsane
      exact Running.working_loopHead hsane
    | threw hpoint => exact absurd (Or.inr ⟨_, _, by rw [delivered, hpoint]⟩) hthrows
    | nothing hpoint =>
      rw [hpoint] at hsane
      exact Running.working_requestLoop hsane _
    | block _ => rfl
    | @returned block rest after r hpoint =>
      cases after with
      | request left =>
        rw [hpoint] at hsane
        exact Running.working_returnLoop hsane left rest
      | finish =>
        rw [finishing, hpoint] at hfinishing
        cases hfinishing

/-! ## What is still ahead -/

/-- The messages that the session has still to hand over. -/
def ahead (w : PeerSession × Bytes) : List (UInt8 × Bytes) :=
  match w.1.point with
  | .readingPayload len =>
      if len ≤ w.2.length then
        (messageOf (w.2.take len)).toList ++ messages (w.2.drop len)
      else []
  | .ended | .returning _ _ .finish => []
  | _ => messages w.2

theorem ahead_of_working (h : s.working = true) : ahead (s, stream) = messages stream := by
  unfold working at h
  unfold ahead
  cases hpoint : s.point <;> simp_all
  split <;> simp_all

theorem ahead_of_finishing (h : s.finishing = true) : ahead (s, stream) = [] := by
  unfold finishing at h
  unfold ahead
  cases hpoint : s.point <;> simp_all
  split <;> simp_all

theorem working_of_inRun (hin : s.InRun) (hawaited : s.awaited = none)
    (hfinishing : s.finishing = false) : s.working = true := by
  unfold InRun at hin
  unfold awaited at hawaited
  unfold finishing at hfinishing
  unfold working
  cases hpoint : s.point with
  | returning block rest after => cases after <;> simp_all
  | _ => simp_all

/-- Giving the blocks back before the end is not interrupted. -/
theorem Moves.finishing {event : Event} (h : s.Moves config event s')
    (hfinishing : s.finishing = true) : s'.finishing = true := by
  unfold PeerSession.finishing at hfinishing
  cases h with
  | quiet hlistening _ _ _ =>
    unfold listening at hlistening
    cases hpoint : s.point <;> simp_all
  | message hpoint _ => simp [hpoint] at hfinishing
  | interested hpoint => simp [hpoint] at hfinishing
  | written hpoint => simp [hpoint] at hfinishing
  | called hanswered =>
    cases hanswered with
    | accepted hpoint => simp [hpoint] at hfinishing
    | refused hpoint => simp [hpoint] at hfinishing
    | threw hpoint => simp [hpoint] at hfinishing
    | nothing hpoint => simp [hpoint] at hfinishing
    | block hpoint => simp [hpoint] at hfinishing
    | @returned block rest after r hpoint =>
      cases after with
      | request left => simp [hpoint] at hfinishing
      | finish => exact finishing_returnLoop s rest

/-- A step that takes a message in is the call of `_handleMessage` on it. -/
theorem dispatched_message {len : Nat} {msgId : UInt8} {payload : Bytes}
    (hpoint : s.point = .readingPayload len) :
    dispatched config ⟨s, .io (.read (some (msgId :: payload))),
      s.handleMessage config msgId payload⟩ = some (msgId, payload) := by
  simp only [dispatched, hpoint, if_pos]

/-- What the step hands over was ahead before it, and nothing else is lost. -/
theorem Fed.ahead {w w' : PeerSession × Bytes} {event : Event} (h : Fed config w event w')
    (hin : w.1.InRun) (hsane : w.1.Sane) (hthrows : ¬ Throws ⟨w.1, event, w'.1⟩) :
    ahead w = (dispatched config ⟨w.1, event, w'.1⟩).toList ++ ahead w' := by
  cases h with
  | @keepAlive s stream hpoint hwhole hzero =>
    have hrun : s.Running := hsane.running_of_awaited (by rw [awaited, hpoint])
    rw [ahead_of_working hrun.working_loopHead, PeerSession.ahead, hpoint]
    simp only [dispatched, hpoint]
    rw [messages_of_header hwhole, hzero]
    simp [messageOf]
  | @header s stream hpoint hwhole _ =>
    rw [PeerSession.ahead, hpoint]
    simp only [dispatched, hpoint]
    rw [messages_of_header hwhole]
    rfl
  | @message s stream len msgId payload hpoint hwhole hbytes =>
    have hrun : s.Running := hsane.running_of_awaited (by rw [awaited, hpoint])
    have hworking := working_handleMessage hpoint hrun hthrows
    rw [ahead_of_working hworking, dispatched_message hpoint, PeerSession.ahead, hpoint]
    simp only [if_pos hwhole, hbytes]
    rfl
  | @lost s stream count hawaited hshort =>
    have hfinishing : ((s.setState .error).returnBlocks .finish).finishing = true :=
      finishing_returnLoop _ _
    rw [ahead_of_finishing hfinishing]
    unfold awaited at hawaited
    unfold PeerSession.ahead dispatched
    split at hawaited
    · rename_i hpoint
      cases hawaited
      simp only [hpoint, messages_of_short hshort]
      rfl
    · rename_i hpoint
      cases hawaited
      simp only [hpoint, if_neg (Nat.not_le.mpr hshort)]
      rfl
    · cases hawaited
  | @handler s s' stream event hawaited hmoves =>
    have hnone : dispatched config ⟨s, event, s'⟩ = none := by
      unfold awaited at hawaited
      unfold dispatched
      cases hpoint : s.point <;> simp_all
    rw [hnone]
    cases hfinishing : s.finishing with
    | true =>
      rw [ahead_of_finishing hfinishing, ahead_of_finishing (hmoves.finishing hfinishing)]
      rfl
    | false =>
      have hworking := hmoves.working hin hsane hawaited hfinishing hthrows
      rw [ahead_of_working hworking,
        ahead_of_working (working_of_inRun hin hawaited hfinishing)]
      rfl

/-! ## Inside `run` -/

theorem inRun_of_working (h : s.working = true) : s.InRun := by
  unfold working at h
  unfold InRun
  cases hpoint : s.point <;> simp_all

theorem inRun_of_finishing (h : s.finishing = true) : s.InRun := by
  unfold finishing at h
  unfold InRun
  cases hpoint : s.point <;> simp_all

/-- An exception ends the session. -/
theorem Moves.finishing_of_throws {event : Event} (h : s.Moves config event s')
    (hthrows : Throws ⟨s, event, s'⟩) : s'.finishing = true := by
  rcases hthrows with ⟨payload, e, hreceived, herror⟩ | ⟨k, e, hdelivered⟩
  · obtain ⟨len, _, hhandled⟩ := h.handled hreceived
    cases hhandled with
    | piece hparse =>
      rw [herror] at hparse
      cases hparse
    | malformed _ => rfl
    | ignored hother => exact absurd rfl (hother _ _ rfl).2.2.2
  · obtain ⟨index, offset, data, _, _, rfl⟩ := h.delivery hdelivered
    rfl

/-- Where a step of the loop can lead. -/
theorem Fed.lands {w w' : PeerSession × Bytes} {event : Event} (h : Fed config w event w')
    (hin : w.1.InRun) (hsane : w.1.Sane) :
    w'.1.working = true ∨ w'.1.finishing = true ∨
      ∃ len, 0 < len ∧ w'.1.point = .readingPayload len := by
  cases h with
  | @keepAlive s _ hpoint _ _ =>
    have hrun : s.Running := hsane.running_of_awaited (by rw [awaited, hpoint])
    exact Or.inl hrun.working_loopHead
  | header _ _ hnonzero => exact Or.inr (Or.inr ⟨_, Nat.pos_of_ne_zero hnonzero, rfl⟩)
  | @message s _ _ msgId payload hpoint _ _ =>
    have hrun : s.Running := hsane.running_of_awaited (by rw [awaited, hpoint])
    by_cases hthrows : Throws ⟨s, .io (.read (some (msgId :: payload))),
        s.handleMessage config msgId payload⟩
    · have hhandled : s.Handled config _ (s.handleMessage config msgId payload) :=
        handleMessage_handled msgId payload
      rw [← received_message hpoint] at hhandled
      have hmoves : s.Moves config (.io (.read (some (msgId :: payload))))
          (s.handleMessage config msgId payload) := .message hpoint hhandled
      exact Or.inr (Or.inl (hmoves.finishing_of_throws hthrows))
    · exact Or.inl (working_handleMessage hpoint hrun hthrows)
  | lost _ _ => exact Or.inr (Or.inl (finishing_returnLoop _ _))
  | @handler s s' _ event hawaited hmoves =>
    cases hfinishing : s.finishing with
    | true => exact Or.inr (Or.inl (hmoves.finishing hfinishing))
    | false =>
      by_cases hthrows : Throws ⟨s, event, s'⟩
      · exact Or.inr (Or.inl (hmoves.finishing_of_throws hthrows))
      · exact Or.inl (hmoves.working hin hsane hawaited hfinishing hthrows)

theorem Fed.inRun {w w' : PeerSession × Bytes} {event : Event} (h : Fed config w event w')
    (hin : w.1.InRun) (hsane : w.1.Sane) : w'.1.InRun := by
  rcases h.lands hin hsane with hworking | hfinishing | ⟨len, hlen, hpoint⟩
  · exact inRun_of_working hworking
  · exact inRun_of_finishing hfinishing
  · rw [InRun, hpoint]
    exact hlen

/-! ## The run ends -/

/-- How far a handler is from its end: the turns of its loop, and the steps of a turn. -/
def turnRank (s : PeerSession) : Nat ×ₗ Nat :=
  match s.point with
  | .delivering _ _ _ => toLex (2 ^ 32, 0)
  | .writingInterested => toLex (1, 0)
  | .requesting left => toLex (left + 1, s.pendingBlocks.size + 2)
  | .writingRequest _ left => toLex (left + 1, s.pendingBlocks.size + 1)
  | .returning _ rest (.request left) => toLex (left + 1, rest.length)
  | .returning _ rest .finish => toLex (0, rest.length + 1)
  | _ => toLex (0, 0)

/-- How far the session is from its end: it gives its blocks back for good, or reads what
is left of the stream. -/
def rank (w : PeerSession × Bytes) : Nat ×ₗ Nat ×ₗ Nat ×ₗ Nat :=
  toLex (if w.1.finishing then 0 else 1, toLex (w.2.length, w.1.turnRank))

theorem turnRank_loopHead : s.loopHead.turnRank = toLex (0, 0) := by
  rcases loopHead_cases s with h | h
  · rw [h]
    rfl
  · rw [h]
    rfl

/-- The loop goes on with fewer turns. -/
theorem turnRank_requestLoop_lt {n m k : Nat} (h : n < m) :
    (s.requestLoop n).turnRank < toLex (m, k) := by
  cases n with
  | zero =>
    rw [requestLoop, turnRank_loopHead]
    exact Prod.Lex.toLex_lt_toLex.mpr (Or.inl h)
  | succ left => exact Prod.Lex.toLex_lt_toLex.mpr (Or.inl h)

theorem needed_lt (pending : Nat) : (needed pending).toNat < 2 ^ 32 := by
  have hlt := u32_lt (u64 (2 ^ 64 + maxPipelineSize - pending))
  unfold needed i32
  split <;> omega

theorem turnRank_refill_lt : s.refill.turnRank < toLex (2 ^ 32, 0) := by
  unfold refill
  exact turnRank_requestLoop_lt (needed_lt _)

/-- The blocks are given back before the next turn. -/
theorem turnRank_returnLoop_lt {left k : Nat} {blocks : List Block} (h : blocks.length ≤ k) :
    (s.returnLoop (.request left) blocks).turnRank < toLex (left + 1, k) := by
  cases blocks with
  | nil => exact turnRank_requestLoop_lt (Nat.lt_succ_self left)
  | cons block rest => exact Prod.Lex.toLex_lt_toLex.mpr (Or.inr ⟨rfl, h⟩)

/-- A handler comes closer to its end with every step. -/
theorem Moves.turnRank_lt {event : Event} (h : s.Moves config event s') (hin : s.InRun)
    (hawaited : s.awaited = none) : s'.turnRank < s.turnRank := by
  cases h with
  | quiet hlistening _ _ _ =>
    rw [not_listening_of_inRun hin hawaited] at hlistening
    cases hlistening
  | message hpoint _ =>
    rw [awaited, hpoint] at hawaited
    cases hawaited
  | interested hpoint =>
    rw [turnRank_loopHead, turnRank, hpoint]
    exact Prod.Lex.toLex_lt_toLex.mpr (Or.inl Nat.one_pos)
  | @written block left len ok hpoint =>
    rw [turnRank.eq_def s, hpoint]
    cases ok with
    | true => exact turnRank_requestLoop_lt (Nat.lt_succ_self left)
    | false => exact turnRank_returnLoop_lt (Nat.le_succ _)
  | called hanswered =>
    cases hanswered with
    | accepted hpoint =>
      rw [turnRank.eq_def s, hpoint]
      exact turnRank_refill_lt
    | refused hpoint =>
      rw [turnRank_loopHead, turnRank, hpoint]
      exact Prod.Lex.toLex_lt_toLex.mpr (Or.inl (by decide))
    | threw hpoint =>
      rw [turnRank.eq_def s, hpoint]
      exact Prod.Lex.toLex_lt_toLex.mpr (Or.inl (by decide))
    | @nothing left hpoint =>
      rw [turnRank.eq_def s, hpoint]
      exact turnRank_requestLoop_lt (Nat.lt_succ_self left)
    | block hpoint =>
      rw [turnRank.eq_def s, hpoint]
      exact Prod.Lex.toLex_lt_toLex.mpr (Or.inr ⟨rfl, Nat.lt_succ_self _⟩)
    | @returned block rest after r hpoint =>
      rw [turnRank.eq_def s, hpoint]
      cases after with
      | request left => exact turnRank_returnLoop_lt (Nat.le_refl _)
      | finish =>
        cases rest with
        | nil => exact Prod.Lex.toLex_lt_toLex.mpr (Or.inr ⟨rfl, Nat.one_pos⟩)
        | cons block rest => exact Prod.Lex.toLex_lt_toLex.mpr (Or.inr ⟨rfl, Nat.lt_succ_self _⟩)

/-- Bytes are read. -/
theorem rank_lt_of_shorter {w w' : PeerSession × Bytes} (hstays : w.1.finishing = false)
    (hshorter : w'.2.length < w.2.length) : rank w' < rank w := by
  rw [rank, rank, hstays]
  cases w'.1.finishing with
  | true => exact Prod.Lex.toLex_lt_toLex.mpr (Or.inl Nat.one_pos)
  | false =>
    exact Prod.Lex.toLex_lt_toLex.mpr
      (Or.inr ⟨rfl, Prod.Lex.toLex_lt_toLex.mpr (Or.inl hshorter)⟩)

/-- The blocks are given back for good. -/
theorem rank_lt_of_finishing {w w' : PeerSession × Bytes} (hstays : w.1.finishing = false)
    (hfinishing : w'.1.finishing = true) : rank w' < rank w := by
  rw [rank, rank, hstays, hfinishing]
  exact Prod.Lex.toLex_lt_toLex.mpr (Or.inl Nat.one_pos)

/-- A handler goes on, without the stream. -/
theorem rank_lt_of_turn (hphase : s'.finishing = s.finishing) (hturn : s'.turnRank < s.turnRank) :
    rank (s', stream) < rank (s, stream) := by
  simp only [rank, hphase]
  exact Prod.Lex.toLex_lt_toLex.mpr
    (Or.inr ⟨rfl, Prod.Lex.toLex_lt_toLex.mpr (Or.inr ⟨rfl, hturn⟩)⟩)

/-- Every step inside `run` comes closer to the end. -/
theorem Fed.rank_lt {w w' : PeerSession × Bytes} {event : Event} (h : Fed config w event w')
    (hin : w.1.InRun) : rank w' < rank w := by
  have hdrop : ∀ {stream : Bytes} {count : Nat}, 0 < count → count ≤ stream.length →
      (stream.drop count).length < stream.length := by
    intro stream count hpos hwhole
    rw [List.length_drop]
    omega
  cases h with
  | @keepAlive s _ hpoint hwhole _ =>
    have hawaited : s.awaited = some 4 := by rw [awaited, hpoint]
    exact rank_lt_of_shorter (not_finishing_of_awaited hawaited) (hdrop (by decide) hwhole)
  | @header s _ hpoint hwhole _ =>
    have hawaited : s.awaited = some 4 := by rw [awaited, hpoint]
    exact rank_lt_of_shorter (not_finishing_of_awaited hawaited) (hdrop (by decide) hwhole)
  | @message s _ len _ _ hpoint hwhole _ =>
    have hawaited : s.awaited = some len := by rw [awaited, hpoint]
    have hpos : 0 < len := by
      rw [InRun, hpoint] at hin
      exact hin
    exact rank_lt_of_shorter (not_finishing_of_awaited hawaited) (hdrop hpos hwhole)
  | lost hawaited _ =>
    exact rank_lt_of_finishing (not_finishing_of_awaited hawaited) (finishing_returnLoop _ _)
  | @handler s s' stream event hawaited hmoves =>
    have hturn := hmoves.turnRank_lt hin hawaited
    cases hfinishing : s.finishing with
    | true => exact rank_lt_of_turn (by rw [hfinishing, hmoves.finishing hfinishing]) hturn
    | false =>
      cases hended : s'.finishing with
      | true => exact rank_lt_of_finishing hfinishing hended
      | false => exact rank_lt_of_turn (by rw [hfinishing, hended]) hturn

/-! ## Whole runs -/

variable {w : PeerSession × Bytes} {history : List (Transition (PeerSession × Bytes) Event)}

/-- In a run of the machine the session is inside `run`, and sane. -/
def Within (w : PeerSession × Bytes) : Prop := w.1.InRun ∧ w.1.Sane

theorem run_running (hopen : s.socketOpen = true) : (s.setState .bitfieldWait).Running :=
  ⟨hopen, by simp [setState]⟩

theorem within_init (hopen : s.socketOpen = true) (hinit : (feed config s stream).init w) :
    Within w := by
  have hrun := run_running hopen
  obtain rfl : w = (s.run, stream) := hinit
  refine ⟨inRun_of_working hrun.working_loopHead, ?_⟩
  rw [run, hrun.loopHead]
  exact hrun

theorem Within.step {w' : PeerSession × Bytes} {event : Event} (h : Within w)
    (hstep : (feed config s stream).step w event w') : Within w' :=
  ⟨(fed_of_step hstep).inRun h.1 h.2, h.2.step hstep.1⟩

theorem within_of_run (hopen : s.socketOpen = true)
    (hrun : (feed config s stream).Run history w) : Within w :=
  hrun.invariant (fun _ hinit => within_init hopen hinit) fun _ _ _ h hstep => h.step hstep

/-- However the session is driven, it comes to an end. -/
theorem feed_terminates (hopen : s.socketOpen = true) : (feed config s stream).Terminates := by
  refine Machine.terminates_of_rank rank (fun _ hinit => within_init hopen hinit) ?_ ?_
  · exact fun _ _ _ h hstep => h.step hstep
  · exact fun _ _ _ h hstep => (fed_of_step hstep).rank_lt h.1

/-- No exception comes out of `_handleMessage`. -/
def Returns (history : List (Transition (PeerSession × Bytes) Event)) : Prop :=
  Machine.Always (fun _ t => ¬ Throws (sessionStep t)) history

/-- What has been handed over and what is ahead are the messages of the stream. -/
theorem heard_append_ahead (hopen : s.socketOpen = true)
    (hrun : (feed config s stream).Run history w) (hreturns : Returns history) :
    heard config history ++ ahead w = messages stream := by
  refine hrun.always (I := fun history w => heard config history ++ ahead w = messages stream) ?_ ?_
    hreturns
  · intro w hinit
    obtain rfl : w = (s.run, stream) := hinit
    exact ahead_of_working (run_running hopen).working_loopHead
  · intro older w event w' hsofar ih hthrows hstep
    obtain ⟨hin, hsane⟩ := within_of_run hopen hsofar
    have hahead := (fed_of_step hstep).ahead hin hsane hthrows
    rw [heard, List.reverse_cons, List.filterMap_append, ← ih, hahead, ← List.append_assoc]
    rfl

theorem length_of_arrives {count : Nat} {bytes : Bytes} (h : arrives stream count = some bytes) :
    bytes.length = count := by
  unfold arrives at h
  split at h
  · rename_i hwhole
    cases h
    exact List.length_take_of_le hwhole
  · cases h

/-- A length that is read, or not, leads on. -/
theorem lengthRead_isSome (s : PeerSession) (stream : Bytes) :
    ∃ s', s.lengthRead (arrives stream 4) = some s' := by
  cases hread : arrives stream 4 with
  | none => exact ⟨_, rfl⟩
  | some bytes =>
    rw [lengthRead]
    exact ⟨_, if_pos (length_of_arrives hread)⟩

/-- So does a message that is not empty. -/
theorem payloadRead_isSome (config : SessionConfig) (s : PeerSession) (stream : Bytes) {len : Nat}
    (hpos : 0 < len) :
    ∃ s', s.payloadRead config len (arrives stream len) = some s' := by
  cases hread : arrives stream len with
  | none => exact ⟨_, rfl⟩
  | some bytes =>
    have hlen := length_of_arrives hread
    cases bytes with
    | nil =>
      subst hlen
      cases hpos
    | cons msgId payload => exact ⟨_, if_pos hlen⟩

/-- Before its end the session can go on. -/
theorem exists_step (hin : w.1.InRun) (hpoint : w.1.point ≠ .ended) :
    ∃ event w', (feed config s stream).step w event w' := by
  obtain ⟨t, rest⟩ := w
  dsimp only at hin hpoint
  have hhandler : ∀ event, t.awaited = none → (∃ t', t.step config event = some t') →
      ∃ event w', (feed config s stream).step (t, rest) event w' := by
    rintro event hawaited ⟨t', hstep⟩
    refine ⟨event, (t', rest), hstep, ?_⟩
    dsimp only
    rw [hawaited]
  unfold InRun at hin
  cases hat : t.point with
  | readingLength =>
    obtain ⟨t', hread⟩ := lengthRead_isSome t rest
    refine ⟨.io (.read (arrives rest 4)), (t', rest.drop 4), ?_, ?_⟩
    · simpa only [step, resume, hat] using hread
    · simp only [awaited, hat, and_self]
  | readingPayload len =>
    rw [hat] at hin
    obtain ⟨t', hread⟩ := payloadRead_isSome config t rest hin
    refine ⟨.io (.read (arrives rest len)), (t', rest.drop len), ?_, ?_⟩
    · simpa only [step, resume, hat] using hread
    · simp only [awaited, hat, and_self]
  | writingInterested =>
    refine hhandler (.io (.wrote true 0)) (by rw [awaited, hat]) ?_
    simp only [step, resume, hat, Option.some.injEq, exists_eq']
  | writingRequest block left =>
    refine hhandler (.io (.wrote true 0)) (by rw [awaited, hat]) ?_
    simp only [step, resume, hat, Option.some.injEq, exists_eq']
  | delivering index offset data =>
    refine hhandler (.call .written (.reply (.ok true))) (by rw [awaited, hat]) ?_
    simp only [step, answered, hat, Option.some.injEq, exists_eq']
  | requesting left =>
    refine hhandler (.call .written (.block none)) (by rw [awaited, hat]) ?_
    simp only [step, answered, hat, Option.some.injEq, exists_eq']
  | returning block blocks after =>
    refine hhandler (.call .written (.reply (.ok true))) (by rw [awaited, hat]) ?_
    simp only [step, answered, hat, Option.some.injEq, exists_eq']
  | ended => exact absurd hat hpoint
  | _ =>
    rw [hat] at hin
    cases hin

/-- And not at its end. -/
theorem stuck_of_ended (hpoint : w.1.point = .ended) : (feed config s stream).Stuck w := by
  rintro event w' ⟨hstep, _⟩
  cases event with
  | io event => simp [step, resume, hpoint] at hstep
  | call fate answer => simp [step, answered, hpoint] at hstep

theorem ended_of_stuck (hin : w.1.InRun) (hstuck : (feed config s stream).Stuck w) :
    w.1.point = .ended := by
  by_contra hpoint
  have hmoves : ∃ event w', (feed config s stream).step w event w' := exists_step hin hpoint
  obtain ⟨event, w', hstep⟩ := hmoves
  exact hstuck event w' hstep

/-- At its end the session has nothing ahead. -/
theorem ahead_of_ended (hpoint : w.1.point = .ended) : ahead w = [] := by
  rw [ahead, hpoint]

/-- A run without an exception that is at its end has handed over all messages. -/
theorem heard_of_stuck (hopen : s.socketOpen = true)
    (hrun : (feed config s stream).Run history w) (hreturns : Returns history)
    (hstuck : (feed config s stream).Stuck w) :
    w.1.point = .ended ∧ heard config history = messages stream := by
  have hended := ended_of_stuck (within_of_run hopen hrun).1 hstuck
  have hall := heard_append_ahead hopen hrun hreturns
  rw [ahead_of_ended hended, List.append_nil] at hall
  exact ⟨hended, hall⟩

/-! ## What a peer sends -/

/-- Something a peer can send. -/
inductive Sent where
  | keepAlive
  | message (msgId : UInt8) (payload : Bytes)
  deriving DecidableEq

/-- The bytes of a message, as a writer puts them together. -/
def Sent.encode : Sent → Bytes
  | .keepAlive =>
      let msg : ByteWriter := {}
      let msg := msg.writeU32 0
      msg.data
  | .message msgId payload =>
      let msg : ByteWriter := {}
      let msg := msg.writeU32 (payload.length + 1)
      let msg := msg.writeU8 msgId
      (payload.foldl ByteWriter.writeU8 msg).data

/-- What there is to hand over. -/
def Sent.content : Sent → Option (UInt8 × Bytes)
  | .keepAlive => none
  | .message msgId payload => some (msgId, payload)

/-- The length can be written in four bytes. -/
def Sent.Fits : Sent → Prop
  | .keepAlive => True
  | .message _ payload => payload.length + 1 < 2 ^ 32

/-- The bytes behind the length. -/
def Sent.body : Sent → Bytes
  | .keepAlive => []
  | .message msgId payload => msgId :: payload

theorem Sent.encode_eq (sent : Sent) : sent.encode = htonl sent.body.length ++ sent.body := by
  cases sent with
  | keepAlive => rfl
  | message msgId payload =>
    simp [Sent.encode, Sent.body, ByteWriter.data_foldl_writeU8, ByteWriter.writeU32,
      ByteWriter.writeU8]

theorem Sent.content_eq (sent : Sent) : messageOf sent.body = sent.content := by
  cases sent <;> rfl

theorem Sent.isFrame {sent : Sent} (h : sent.Fits) :
    lengthHeader.IsFrame (htonl sent.body.length) sent.body := by
  refine ⟨rfl, ntohl_htonl ?_⟩
  cases sent with
  | keepAlive => decide
  | message msgId payload => exact h

/-- The messages of what a peer has sent, and of a last one that is cut off. -/
theorem messages_encode {sent : List Sent} {rest : Bytes} (hfits : ∀ item ∈ sent, item.Fits)
    (hcut : lengthHeader.CutOff rest) :
    messages (sent.flatMap Sent.encode ++ rest) = sent.filterMap Sent.content := by
  have hframes : lengthHeader.frames
      ((sent.flatMap fun item => htonl item.body.length ++ item.body) ++ rest) =
        sent.map Sent.body ++ lengthHeader.frames rest :=
    Header.frames_flatMap (fun item hitem => Sent.isFrame (hfits item hitem)) rest
  simp only [← Sent.encode_eq] at hframes
  rw [messages, hframes, Header.frames_of_cutOff hcut, List.append_nil, List.filterMap_map]
  exact List.filterMap_congr fun item _ => item.content_eq

/-- The request of a session is one such message. -/
theorem requestMsg_eq (block : Block) :
    requestMsg block = (Sent.message Msg.Id.request.toByte
      (htonl block.pieceIndex ++ htonl block.offset ++ htonl block.length)).encode := by
  rw [Sent.encode_eq]
  simp [requestMsg, Sent.body, ByteWriter.writeU32, ByteWriter.writeU8, htonl]

theorem interestedMsg_eq :
    interestedMsg = (Sent.message Msg.Id.interested.toByte []).encode := rfl

/-- **`run` hands over the messages of its stream**: it comes to an end, and then
`_handleMessage` has been called on the complete frames of the stream that are not empty,
in order, if no exception came out of it.  For messages put together by a writer, and
perhaps a last one that is cut off, these are the messages. -/
theorem handsOver_messages (config : SessionConfig) {s : PeerSession}
    (hopen : s.socketOpen = true) :
    (∀ stream, (feed config s stream).Terminates ∧
      ∀ history w, (feed config s stream).Run history w → Returns history →
        heard config history <+: messages stream ∧
          ((feed config s stream).Stuck w →
            w.1.point = .ended ∧ heard config history = messages stream)) ∧
    ∀ (sent : List Sent) (rest : Bytes), (∀ item ∈ sent, item.Fits) →
      lengthHeader.CutOff rest →
      ∀ history w, (feed config s (sent.flatMap Sent.encode ++ rest)).Run history w →
        Returns history → (feed config s (sent.flatMap Sent.encode ++ rest)).Stuck w →
        w.1.point = .ended ∧ heard config history = sent.filterMap Sent.content := by
  constructor
  · intro stream
    refine ⟨feed_terminates hopen, fun history w hrun hreturns => ⟨?_, ?_⟩⟩
    · exact ⟨ahead w, heard_append_ahead hopen hrun hreturns⟩
    · exact heard_of_stuck hopen hrun hreturns
  · intro sent rest hfits hcut history w hrun hreturns hstuck
    rw [← messages_encode hfits hcut]
    exact heard_of_stuck hopen hrun hreturns hstuck

/-- Without a PIECE message and a delivery there is no exception. -/
theorem returns_of_quiet (h : (history.all fun t =>
      (received (sessionStep t)).all (fun message => message.1 ≠ .piece) &&
        (delivered (sessionStep t)).isNone) = true) : Returns history := by
  intro t older hsuffix hthrows
  have hquiet := List.all_eq_true.mp h t (hsuffix.subset List.mem_cons_self)
  obtain ⟨hother, hidle⟩ := Bool.and_eq_true_iff.mp hquiet
  rcases hthrows with ⟨payload, _, hpiece, _⟩ | ⟨k, _, hdelivered⟩
  · rw [hpiece] at hother
    cases hother
  · rw [hdelivered] at hidle
    cases hidle

/-- A session at the start of `run`. -/
def opened : PeerSession := { new with socketOpen := true }

def openedConfig : SessionConfig where
  infoHash := PieceManager.sevenDigest
  peerId := List.replicate 20 65
  totalNumOfPieces := 1

/-- A keep-alive, a BITFIELD, a CHOKE and half of a length. -/
def sampleStream : Bytes := [0, 0, 0, 0, 0, 0, 0, 2, 5, 128, 0, 0, 0, 1, 0, 0, 0]

/-- The session when the BITFIELD of its peer has been handled and INTERESTED is written. -/
def bitfieldHandled : PeerSession :=
  ((opened.handleBitfield openedConfig [128]).setState .ready).loopHead

/-- A peer sends these and closes.  Its bitfield has reached the session. -/
theorem handsOver_messages_bitfield :
    ∃ history w, (feed openedConfig opened
        ([Sent.keepAlive, .message 5 [128], .message 0 []].flatMap Sent.encode ++
          [0, 0])).Run history w ∧
      w.1.point = .ended ∧ w.1.peerBitfield = [128] ∧
      heard openedConfig history = [(5, [128]), (0, [])] := by
  have hkeepAlive : (feed openedConfig opened sampleStream).step
      (opened.run, sampleStream) (.io (.read (some [0, 0, 0, 0])))
      (opened.run, [0, 0, 0, 2, 5, 128, 0, 0, 0, 1, 0, 0, 0]) := ⟨by decide, rfl, rfl⟩
  have hlength : (feed openedConfig opened sampleStream).step
      (opened.run, [0, 0, 0, 2, 5, 128, 0, 0, 0, 1, 0, 0, 0]) (.io (.read (some [0, 0, 0, 2])))
      (opened.run.suspend (.readingPayload 2), [5, 128, 0, 0, 0, 1, 0, 0, 0]) :=
    ⟨by decide, rfl, rfl⟩
  have hbitfield : (feed openedConfig opened sampleStream).step
      (opened.run.suspend (.readingPayload 2), [5, 128, 0, 0, 0, 1, 0, 0, 0])
      (.io (.read (some [5, 128])))
      ((opened.run.handleBitfield openedConfig [128]).suspend .writingInterested,
        [0, 0, 0, 1, 0, 0, 0]) := ⟨by decide, rfl, rfl⟩
  have hinterested : (feed openedConfig opened sampleStream).step
      ((opened.run.handleBitfield openedConfig [128]).suspend .writingInterested,
        [0, 0, 0, 1, 0, 0, 0]) (.io (.wrote true 5))
      (bitfieldHandled, [0, 0, 0, 1, 0, 0, 0]) := ⟨by decide, rfl⟩
  have hheader : (feed openedConfig opened sampleStream).step
      (bitfieldHandled, [0, 0, 0, 1, 0, 0, 0]) (.io (.read (some [0, 0, 0, 1])))
      (bitfieldHandled.suspend (.readingPayload 1), [0, 0, 0]) := ⟨by decide, rfl, rfl⟩
  have hchoke : (feed openedConfig opened sampleStream).step
      (bitfieldHandled.suspend (.readingPayload 1), [0, 0, 0]) (.io (.read (some [0])))
      (bitfieldHandled, [0, 0]) := ⟨by decide, rfl, rfl⟩
  have hlost : (feed openedConfig opened sampleStream).step
      (bitfieldHandled, [0, 0]) (.io (.read none))
      ((bitfieldHandled.setState .error).suspend .ended, []) := ⟨by decide, rfl, rfl⟩
  have hrun := (((((((Machine.Run.start rfl).snoc hkeepAlive).snoc hlength).snoc hbitfield).snoc
    hinterested).snoc hheader).snoc hchoke).snoc hlost
  have hall := (handsOver_messages openedConfig (s := opened) rfl).2
    [.keepAlive, .message 5 [128], .message 0 []] [0, 0] (by simp [Sent.Fits])
    (Or.inl (by decide)) _ _ hrun (returns_of_quiet (by decide)) (stuck_of_ended rfl)
  exact ⟨_, _, hrun, hall.1, rfl, hall.2⟩

end PeerSession

end BitTorrentClient
