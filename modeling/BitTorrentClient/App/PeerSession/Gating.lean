/-
  App/PeerSession/Gating.lean --- what a session does before the handshake is done.

  `connect`, `doHandshake` and `run` are chained without a look at the state the
  phase before left, and `run` begins by overwriting it.  A failed phase therefore
  leads into the message loop like a successful one, as long as the socket is
  open; the loop then handles whatever the peer sends.

  Everything said about a run here is read off the events alone: `gatePassed` says
  that the three phases succeeded, `loopEvents` which events are left for the loop,
  and `framed` that a whole message is among them.
-/
import BitTorrentClient.App.PeerSession

set_option autoImplicit false

namespace BitTorrentClient

open Library

namespace PeerSession

variable {config : SessionConfig} {s s' : PeerSession}

/-! ## Events -/

/-- The session hands a message to `_handleMessage`, or calls the piece manager. -/
def Contact (s : PeerSession) : Event → Prop
  | .io (.read (some _)) => ∃ len, s.point = .readingPayload len
  | .io _ => False
  | .call fate _ => ∃ op, s.operation fate = some op

/-- The response has the length of a handshake and is verified. -/
def accepts (config : SessionConfig) (response : Bytes) : Bool :=
  if h : response.length = Msg.handshakeLen then verifyHandshake ⟨response, h⟩ config.infoHash
  else false

/-- The write did not fail and transferred all bytes of a handshake. -/
def wroteAll (ok : Bool) (len : Nat) : Bool := ok && decide (len = Msg.handshakeLen)

/-- The connection was made. -/
def established : Event → Bool
  | .io (.connected .established) => true
  | _ => false

/-- The whole handshake was written. -/
def written : Event → Bool
  | .io (.wrote ok len) => wroteAll ok len
  | _ => false

/-- The response was read and verified. -/
def verified (config : SessionConfig) : Event → Bool
  | .io (.read (some response)) => accepts config response
  | _ => false

/-- The three phases of the handshake succeeded. -/
def gatePassed (config : SessionConfig) : List Event → Bool
  | first :: second :: third :: _ => established first && written second && verified config third
  | _ => false

/-- The events left for the loop of `run` when it is entered. -/
def enterLoop (isOpen : Bool) (rest : List Event) : Option (List Event) :=
  if isOpen then some rest else none

/-- The events left for the loop, from a verified response on. -/
def loopAfterResponse (isOpen : Bool) : List Event → Option (List Event)
  | .io (.endpoint true) :: rest => enterLoop isOpen rest
  | _ => none

/-- The events left for the loop, from a written handshake on. -/
def loopAfterWrite (config : SessionConfig) (isOpen : Bool) : List Event → Option (List Event)
  | .io (.read none) :: rest => enterLoop isOpen rest
  | .io (.read (some response)) :: rest =>
      if accepts config response then loopAfterResponse isOpen rest else enterLoop isOpen rest
  | _ => none

/-- The events left for the loop, from a connection attempt on. -/
def loopAfterConnect (config : SessionConfig) (isOpen : Bool) : List Event → Option (List Event)
  | .io (.wrote ok len) :: rest =>
      if wroteAll ok len then loopAfterWrite config isOpen rest else enterLoop isOpen rest
  | _ => none

/-- The events left for the loop. -/
def loopEvents (config : SessionConfig) : List Event → Option (List Event)
  | .io (.connected connection) :: rest => loopAfterConnect config connection.isOpen rest
  | _ => none

/-- The next thing is that all the bytes asked for are read. -/
def readNext : List Event → Bool
  | .io (.read (some _)) :: _ => true
  | _ => false

/-- After some keep-alives, a message is read as a whole. -/
def framed : List Event → Bool
  | .io (.read (some networkLen)) :: rest =>
      if ntohl networkLen = 0 then framed rest else readNext rest
  | _ => false

/-- The loop of `run` is entered and gets a whole message. -/
def frameArrives (config : SessionConfig) (events : List Event) : Bool :=
  match loopEvents config events with
  | some rest => framed rest
  | none => false

/-- No message is handled, and the piece manager is not called, before the gate is
passed. -/
def Gated (config : SessionConfig) (events : List Event) : Prop :=
  ∀ before event after s, events = before ++ event :: after →
    new.steps config before = some s → s.Contact event → gatePassed config before = true

/-! ## What a session waits for -/

/-- A session at the point goes on from events of this kind. -/
inductive Takes : Point → Event → Prop
  | connected (connection : Connection) : Takes .connecting (.io (.connected connection))
  | handshakeWritten (handshake : HandshakeMsg) (ok : Bool) (len : Nat) :
      Takes (.writingHandshake handshake) (.io (.wrote ok len))
  | response (bytes : Option Bytes) : Takes .readingHandshake (.io (.read bytes))
  | endpoint (known : Bool) : Takes .loggingEndpoint (.io (.endpoint known))
  | length (bytes : Option Bytes) : Takes .readingLength (.io (.read bytes))
  | payload (len : Nat) (bytes : Option Bytes) : Takes (.readingPayload len) (.io (.read bytes))
  | interestedWritten (ok : Bool) (len : Nat) : Takes .writingInterested (.io (.wrote ok len))
  | requestWritten (block : Block) (left : Nat) (ok : Bool) (len : Nat) :
      Takes (.writingRequest block left) (.io (.wrote ok len))
  | delivered (index offset : Nat) (data : Bytes) (fate : DiskFate)
      (answer : PieceManager.Answer) :
      Takes (.delivering index offset data) (.call fate answer)
  | requested (left : Nat) (fate : DiskFate) (answer : PieceManager.Answer) :
      Takes (.requesting left) (.call fate answer)
  | returned (block : Block) (rest : List Block) (after : AfterReturn) (fate : DiskFate)
      (answer : PieceManager.Answer) :
      Takes (.returning block rest after) (.call fate answer)

theorem takes_of_step {event : Event} (h : s.step config event = some s') :
    Takes s.point event := by
  cases event with
  | io event =>
    change s.resume config event = some s' at h
    unfold resume at h
    split at h
    case h_9 => cases h
    all_goals
      rename_i hpoint
      rw [hpoint]
      constructor
  | call fate answer =>
    change s.answered answer = some s' at h
    unfold answered at h
    split at h
    case h_6 => cases h
    all_goals
      rename_i hpoint
      rw [hpoint]
      constructor

/-! ## Contacts along a run -/

/-- Some event of the run is a contact. -/
def Touches (config : SessionConfig) (s : PeerSession) (events : List Event) : Prop :=
  ∃ before event after s₁, events = before ++ event :: after ∧
    s.steps config before = some s₁ ∧ s₁.Contact event

theorem steps_cons {event : Event} {rest : List Event}
    (h : s.steps config (event :: rest) = some s') :
    ∃ s₁, s.step config event = some s₁ ∧ s₁.steps config rest = some s' :=
  Option.bind_eq_some_iff.mp h

theorem not_touches_nil : ¬ s.Touches config [] := by
  rintro ⟨before, event, after, _, h, _⟩
  simp at h

/-- A contact of a run is its first event or lies behind it. -/
theorem touches_cons {event : Event} {rest : List Event} {s₁ : PeerSession}
    (hstep : s.step config event = some s₁) :
    s.Touches config (event :: rest) ↔ s.Contact event ∨ s₁.Touches config rest := by
  constructor
  · rintro ⟨before, event', after, s₂, hsplit, hsteps, hcontact⟩
    cases before with
    | nil =>
      obtain ⟨rfl, _⟩ := List.cons.inj hsplit
      cases hsteps
      exact Or.inl hcontact
    | cons first before =>
      obtain ⟨rfl, hrest⟩ := List.cons.inj hsplit
      obtain ⟨s₃, hstep', hsteps⟩ := steps_cons hsteps
      obtain rfl := Option.some.inj (hstep.symm.trans hstep')
      exact Or.inr ⟨before, event', after, s₂, hrest, hsteps, hcontact⟩
  · rintro (hcontact | ⟨before, event', after, s₂, hrest, hsteps, hcontact⟩)
    · exact ⟨[], event, rest, s, rfl, rfl, hcontact⟩
    · refine ⟨event :: before, event', after, s₂, by rw [hrest]; rfl, ?_, hcontact⟩
      rw [steps, hstep]
      exact hsteps

/-! ## The loop of a session that has handled no message -/

/-- Nothing was requested and the loop goes on. -/
structure Fresh (s : PeerSession) : Prop where
  pendingBlocks : s.pendingBlocks = KeyedSet.empty
  socketOpen : s.socketOpen = true
  state : s.state ≠ .error

/-- The session is in one of the phases before the loop, or has ended. -/
def Outside (s : PeerSession) : Prop :=
  match s.point with
  | .connecting | .writingHandshake _ | .readingHandshake | .loggingEndpoint | .ended => True
  | _ => False

theorem Outside.not_contact (h : s.Outside) (event : Event) : ¬ s.Contact event := by
  unfold Outside at h
  intro hcontact
  cases event with
  | io event =>
    cases event with
    | read bytes =>
      cases bytes with
      | none => exact hcontact
      | some bytes =>
        obtain ⟨len, hpoint⟩ := hcontact
        rw [hpoint] at h
        exact h
    | connected connection => exact hcontact
    | wrote ok len => exact hcontact
    | endpoint known => exact hcontact
  | call fate answer =>
    obtain ⟨op, hop⟩ := hcontact
    unfold operation at hop
    split at hop
    · rename_i hpoint
      rwa [hpoint] at h
    · rename_i hpoint
      rwa [hpoint] at h
    · rename_i hpoint
      rwa [hpoint] at h
    · cases hop

/-- Nothing follows the end. -/
theorem steps_ended {events : List Event} (h : s.point = .ended)
    (hrun : s.steps config events = some s') : events = [] ∧ s' = s := by
  cases events with
  | nil => exact ⟨rfl, (Option.some.inj hrun).symm⟩
  | cons event rest =>
    obtain ⟨s₁, hstep, _⟩ := steps_cons hrun
    have htakes := takes_of_step hstep
    rw [h] at htakes
    cases htakes

/-- Without blocks to return, a lost connection ends the session. -/
theorem Fresh.lost (h : s.Fresh) : ((s.setState .error).returnBlocks .finish).point = .ended := by
  simp [returnBlocks, setState, h.pendingBlocks, KeyedSet.empty, returnLoop, suspend]

theorem Fresh.loopHead (h : s.Fresh) : s.loopHead = s.suspend .readingLength := by
  simp [PeerSession.loopHead, h.socketOpen, h.state]

theorem Fresh.suspend (h : s.Fresh) (point : Point) : (s.suspend point).Fresh :=
  ⟨h.pendingBlocks, h.socketOpen, h.state⟩

/-- A session that reads a message has a contact when it gets the message. -/
theorem Fresh.touches_payload {len : Nat} {events : List Event} (h : s.Fresh)
    (hpoint : s.point = .readingPayload len) (hrun : s.steps config events = some s') :
    s.Touches config events ↔ readNext events = true := by
  cases events with
  | nil => simpa [readNext] using not_touches_nil
  | cons event rest =>
    obtain ⟨s₁, hstep, hrest⟩ := steps_cons hrun
    rw [touches_cons hstep]
    have htakes := takes_of_step hstep
    rw [hpoint] at htakes
    cases htakes with
    | payload len bytes =>
      cases bytes with
      | some bytes => exact iff_of_true (Or.inl ⟨len, hpoint⟩) rfl
      | none =>
        have hlost : some ((s.setState .error).returnBlocks .finish) = some s₁ := by
          simpa [step, resume, hpoint, payloadRead] using hstep
        cases hlost
        obtain ⟨rfl, _⟩ := steps_ended h.lost hrest
        simp [Contact, not_touches_nil, readNext]

/-- In the loop a contact is the first whole message. -/
theorem Fresh.touches_iff {events : List Event} (h : s.Fresh) (hpoint : s.point = .readingLength)
    (hrun : s.steps config events = some s') : s.Touches config events ↔ framed events = true := by
  induction events generalizing s with
  | nil => simpa [framed] using not_touches_nil
  | cons event rest ih =>
    obtain ⟨s₁, hstep, hrest⟩ := steps_cons hrun
    rw [touches_cons hstep]
    have htakes := takes_of_step hstep
    rw [hpoint] at htakes
    cases htakes with
    | length bytes =>
      have hread : s.lengthRead bytes = some s₁ := by
        simpa [step, resume, hpoint] using hstep
      cases bytes with
      | none =>
        cases hread
        obtain ⟨rfl, _⟩ := steps_ended h.lost hrest
        simp [Contact, not_touches_nil, framed]
      | some networkLen =>
        have hnone : ¬ s.Contact (.io (.read (some networkLen))) := by simp [Contact, hpoint]
        rw [or_iff_right hnone]
        unfold lengthRead at hread
        dsimp only at hread
        split at hread
        · cases hread
          by_cases hzero : ntohl networkLen = 0
          · -- a keep-alive
            rw [if_pos hzero, h.loopHead] at hrest ⊢
            rw [ih (h.suspend _) rfl hrest, framed, if_pos hzero]
          · rw [if_neg hzero] at hrest ⊢
            rw [(h.suspend _).touches_payload rfl hrest, framed, if_neg hzero]
        · cases hread

/-! ## The phases before the loop -/

/-- What is known of a run from a phase on, by the events that are left for the
loop: without any the session stays outside and has no contact, and otherwise the
loop decides. -/
def Enters (config : SessionConfig) (s s' : PeerSession) (events : List Event) :
    Option (List Event) → Prop
  | none => s'.Outside ∧ ¬ s.Touches config events
  | some rest => s.Touches config events ↔ framed rest = true

theorem enters_nil (h : s.Outside) (hrun : s.steps config [] = some s') :
    Enters config s s' [] none := by
  cases hrun
  exact ⟨h, not_touches_nil⟩

/-- The step out of a phase is no contact. -/
theorem Enters.cons {event : Event} {rest : List Event} {s₁ : PeerSession}
    {tail : Option (List Event)} (hphase : s.Outside) (hstep : s.step config event = some s₁)
    (h : Enters config s₁ s' rest tail) : Enters config s s' (event :: rest) tail := by
  have htouches : s.Touches config (event :: rest) ↔ s₁.Touches config rest := by
    rw [touches_cons hstep]
    exact or_iff_right (hphase.not_contact event)
  cases tail with
  | none => exact ⟨h.1, fun htouch => h.2 (htouches.mp htouch)⟩
  | some tail => exact htouches.trans h

/-- A phase is left by the first event, and what comes behind it decides. -/
theorem enters_of_first {point : Point} {events : List Event} {tail : Option (List Event)}
    (hpoint : s.point = point) (hphase : s.Outside) (hnil : events = [] → tail = none)
    (hcons : ∀ event rest s₁, events = event :: rest → Takes point event →
      s.step config event = some s₁ → s₁.steps config rest = some s' →
        Enters config s₁ s' rest tail)
    (hrun : s.steps config events = some s') : Enters config s s' events tail := by
  cases events with
  | nil =>
    rw [hnil rfl]
    exact enters_nil hphase hrun
  | cons event rest =>
    obtain ⟨s₁, hstep, hrest⟩ := steps_cons hrun
    have htakes := takes_of_step hstep
    rw [hpoint] at htakes
    exact Enters.cons hphase hstep (hcons event rest s₁ rfl htakes hstep hrest)

/-- The start of `run` leads into the loop when the socket is open, whatever the
state was. -/
theorem enters_run {events : List Event} (hempty : s.pendingBlocks = KeyedSet.empty)
    (hrun : s.run.steps config events = some s') :
    Enters config s.run s' events (enterLoop s.socketOpen events) := by
  cases hopen : s.socketOpen with
  | true =>
    have hfresh : (s.setState .bitfieldWait).Fresh := ⟨hempty, hopen, by simp [setState]⟩
    have hloop : s.run = (s.setState .bitfieldWait).suspend .readingLength := hfresh.loopHead
    rw [hloop] at hrun ⊢
    exact (hfresh.suspend _).touches_iff rfl hrun
  | false =>
    have hend : s.run = (s.setState .bitfieldWait).suspend .ended := by
      simp [run, loopHead, setState, hopen]
    rw [hend] at hrun ⊢
    obtain ⟨rfl, rfl⟩ := steps_ended rfl hrun
    exact ⟨trivial, not_touches_nil⟩

theorem enters_loggingEndpoint {events : List Event} (hpoint : s.point = .loggingEndpoint)
    (hempty : s.pendingBlocks = KeyedSet.empty) (hrun : s.steps config events = some s') :
    Enters config s s' events (loopAfterResponse s.socketOpen events) := by
  have hphase : s.Outside := by simp [Outside, hpoint]
  apply enters_of_first hpoint hphase (fun hnil => by rw [hnil]; rfl) ?_ hrun
  intro event rest s₁ hsplit htakes hstep hrest
  subst hsplit
  cases htakes with
  | endpoint known =>
    cases known with
    | true =>
      have hlogged : s.run = s₁ := by simpa [step, resume, hpoint] using hstep
      subst hlogged
      exact enters_run hempty hrest
    | false =>
      have hthrew : s.suspend .ended = s₁ := by simpa [step, resume, hpoint] using hstep
      subst hthrew
      obtain ⟨rfl, rfl⟩ := steps_ended rfl hrest
      exact ⟨trivial, not_touches_nil⟩

theorem enters_readingHandshake {events : List Event} (hpoint : s.point = .readingHandshake)
    (hempty : s.pendingBlocks = KeyedSet.empty) (hrun : s.steps config events = some s') :
    Enters config s s' events (loopAfterWrite config s.socketOpen events) := by
  have hphase : s.Outside := by simp [Outside, hpoint]
  apply enters_of_first hpoint hphase (fun hnil => by rw [hnil]; rfl) ?_ hrun
  intro event rest s₁ hsplit htakes hstep hrest
  subst hsplit
  cases htakes with
  | response bytes =>
    have hread : s.handshakeRead config bytes = some s₁ := by
      simpa [step, resume, hpoint] using hstep
    cases bytes with
    | none =>
      cases hread
      exact enters_run hempty hrest
    | some response =>
      unfold handshakeRead at hread
      dsimp only at hread
      split at hread
      · rename_i hlength
        split at hread
        · rename_i hrefused
          have hrefused : accepts config response = false := by
            simpa [accepts, hlength] using hrefused
          cases hread
          simp only [loopAfterWrite, hrefused, Bool.false_eq_true, if_false]
          exact enters_run hempty hrest
        · rename_i hverified
          have hverified : accepts config response = true := by
            simpa [accepts, hlength] using hverified
          cases hread
          simp only [loopAfterWrite, hverified, if_true]
          exact enters_loggingEndpoint rfl hempty hrest
      · cases hread

/-- A handshake that was not written as a whole. -/
theorem handshakeWritten_of_not {handshake : HandshakeMsg} {ok : Bool} {len : Nat}
    (h : wroteAll ok len = false) :
    s.handshakeWritten handshake ok len = (s.setState .error).run := by
  unfold handshakeWritten
  cases ok with
  | false => rfl
  | true =>
    have hlen : len ≠ Msg.handshakeLen := by simpa [wroteAll] using h
    simp [hlen]

theorem enters_writingHandshake {events : List Event} {handshake : HandshakeMsg}
    (hpoint : s.point = .writingHandshake handshake)
    (hempty : s.pendingBlocks = KeyedSet.empty) (hrun : s.steps config events = some s') :
    Enters config s s' events (loopAfterConnect config s.socketOpen events) := by
  have hphase : s.Outside := by simp [Outside, hpoint]
  apply enters_of_first hpoint hphase (fun hnil => by rw [hnil]; rfl) ?_ hrun
  intro event rest s₁ hsplit htakes hstep hrest
  subst hsplit
  cases htakes with
  | handshakeWritten handshake ok len =>
    have hwritten : s.handshakeWritten handshake ok len = s₁ := by
      simpa [step, resume, hpoint] using hstep
    subst hwritten
    unfold loopAfterConnect
    dsimp only
    split
    · rename_i hall
      have hread : s.handshakeWritten handshake ok len = s.suspend .readingHandshake := by
        obtain ⟨rfl, rfl⟩ : ok = true ∧ len = Msg.handshakeLen := by
          simpa [wroteAll] using hall
        simp [PeerSession.handshakeWritten]
      rw [hread] at hrest ⊢
      exact enters_readingHandshake rfl hempty hrest
    · rename_i hnot
      rw [handshakeWritten_of_not (by simpa using hnot)] at hrest ⊢
      exact enters_run hempty hrest

/-- The run of a new session, by the events that are left for its loop. -/
theorem enters_new {events : List Event} (hrun : new.steps config events = some s') :
    Enters config new s' events (loopEvents config events) := by
  have hpoint : new.point = .connecting := rfl
  have hphase : new.Outside := trivial
  apply enters_of_first hpoint hphase (fun hnil => by rw [hnil]; rfl) ?_ hrun
  intro event rest s₁ hsplit htakes hstep hrest
  subst hsplit
  cases htakes with
  | connected connection =>
    have hdone : new.connectDone config connection = some s₁ := by
      simpa [step, resume, new] using hstep
    unfold connectDone at hdone
    dsimp only at hdone
    split at hdone
    · cases hdone
      cases connection with
      | established => exact enters_writingHandshake rfl rfl hrest
      | failed opened => exact enters_writingHandshake rfl rfl hrest
    · cases hdone

/-! ## The gate -/

/-- A session has a contact exactly when its loop gets a whole message. -/
theorem touches_new_iff {events : List Event} (hrun : new.steps config events = some s') :
    new.Touches config events ↔ frameArrives config events = true := by
  have h := enters_new hrun
  unfold frameArrives
  cases hloop : loopEvents config events with
  | none =>
    rw [hloop] at h
    exact iff_of_false h.2 (by simp)
  | some rest =>
    rw [hloop] at h
    exact h

/-- Once the loop was reached, nothing decides the gate any more. -/
theorem gatePassed_append {before after : List Event} (h : loopEvents config before ≠ none) :
    gatePassed config (before ++ after) = gatePassed config before := by
  match before, h with
  | [], h => simp [loopEvents] at h
  | [first], h =>
    unfold loopEvents at h
    split at h
    · rename_i hbefore
      obtain ⟨_, rfl⟩ := List.cons.inj hbefore
      simp [loopAfterConnect] at h
    · simp at h
  | [first, second], h =>
    -- the loop was reached behind a write that failed
    have hfailed : written second = false := by
      unfold loopEvents at h
      split at h
      · rename_i hbefore
        obtain ⟨_, rfl⟩ := List.cons.inj hbefore
        unfold loopAfterConnect at h
        split at h
        · rename_i hsecond
          obtain ⟨rfl, rfl⟩ := List.cons.inj hsecond
          split at h
          · simp [loopAfterWrite] at h
          · rename_i hnot
            simpa [written] using hnot
        · simp at h
      · simp at h
    cases after with
    | nil => rfl
    | cons third after => simp [gatePassed, hfailed]
  | first :: second :: third :: rest, _ => rfl

/-- The gate holds for every run in which the phases succeed, and for every run in
which no message arrives after they have failed; and for no other. -/
theorem gated_iff {events : List Event} (hrun : new.steps config events = some s') :
    Gated config events ↔
      gatePassed config events = true ∨ frameArrives config events = false := by
  have hlocal : ∀ before event after s, events = before ++ event :: after →
      new.steps config before = some s → s.Contact event →
        gatePassed config before = gatePassed config events := by
    intro before event after s hsplit hbefore hcontact
    have h := enters_new hbefore
    cases hloop : loopEvents config before with
    | none =>
      rw [hloop] at h
      exact absurd hcontact (h.1.not_contact event)
    | some rest =>
      rw [hsplit, gatePassed_append (by simp [hloop])]
  constructor
  · intro hgated
    cases hframe : frameArrives config events with
    | false => exact Or.inr rfl
    | true =>
      obtain ⟨before, event, after, s, hsplit, hbefore, hcontact⟩ :=
        (touches_new_iff hrun).mpr hframe
      rw [← hlocal before event after s hsplit hbefore hcontact]
      exact Or.inl (hgated before event after s hsplit hbefore hcontact)
  · intro hcases before event after s hsplit hbefore hcontact
    rcases hcases with hpassed | hquiet
    · rw [hlocal before event after s hsplit hbefore hcontact]
      exact hpassed
    · have htouch : new.Touches config events :=
        ⟨before, event, after, s, hsplit, hbefore, hcontact⟩
      rw [touches_new_iff hrun, hquiet] at htouch
      cases htouch

/-! ## Two runs -/

/-- A torrent of one piece. -/
def sampleConfig : SessionConfig where
  infoHash := PieceManager.sevenDigest
  peerId := List.replicate 20 65
  totalNumOfPieces := 1

/-- A response is read, then a message that chokes us. -/
def chokedAfter (response : Bytes) (endpoint : List Event) : List Event :=
  [.io (.connected .established), .io (.wrote true 68), .io (.read (some response))] ++ endpoint ++
    [.io (.read (some [0, 0, 0, 1])), .io (.read (some [0]))]

/-- The response is for this torrent. -/
theorem gated_greeted :
    Gated sampleConfig
      (chokedAfter (sampleResponse PieceManager.sevenDigest) [.io (.endpoint true)]) := by
  have hrun : ∃ s, new.steps sampleConfig
      (chokedAfter (sampleResponse PieceManager.sevenDigest) [.io (.endpoint true)]) = some s :=
    ⟨_, rfl⟩
  obtain ⟨s, hrun⟩ := hrun
  exact (gated_iff hrun).mpr (Or.inl (by decide))

/-- The response is for another torrent, and the message is handled all the same. -/
theorem not_gated_refused :
    (∃ s, new.steps sampleConfig (chokedAfter (sampleResponse PieceManager.zeroSevenDigest) []) =
      some s) ∧
    ¬ Gated sampleConfig (chokedAfter (sampleResponse PieceManager.zeroSevenDigest) []) := by
  refine ⟨⟨_, rfl⟩, fun hgated => ?_⟩
  have hpassed := hgated
    [.io (.connected .established), .io (.wrote true 68),
      .io (.read (some (sampleResponse PieceManager.zeroSevenDigest))),
      .io (.read (some [0, 0, 0, 1]))]
    (.io (.read (some [0]))) [] _ rfl rfl ⟨1, rfl⟩
  revert hpassed
  decide

end PeerSession

end BitTorrentClient
