/-
  App/Swarm.lean --- any number of sessions on one piece manager
  (`app/peer_manager.cpp`).

  The sessions run on several threads and share the manager, whose calls are
  serialised by its mutex.  A step of the swarm is therefore a step of one session:
  from a socket operation, or from a call, to its next point.  Between two points
  any other session may take a step.

  `assigned` is no part of the code: it records whom the manager last gave a block
  to, which the statements about returned blocks need.
-/
import BitTorrentClient.App.PeerSession.Accounts
import BitTorrentClient.Library.Ledger

set_option autoImplicit false

namespace BitTorrentClient

open Library

/-- The piece manager and its sessions. -/
structure Swarm (ι : Type) where
  manager : PieceManager
  sessions : ι → PeerSession
  /-- whom the manager last gave a block to -/
  assigned : BlockKey → Option ι

/-- What is decided outside: the outcome of a socket operation, or the fate of the
write a call may make. -/
inductive Action where
  | io (event : IoEvent)
  | call (fate : DiskFate)
  deriving DecidableEq, Repr

/-- What the sessions of a torrent are given. -/
def sessionConfig (metadata : TorrentMetadata) (peerId : Bytes) : SessionConfig where
  infoHash := metadata.infoHash
  peerId := peerId
  totalNumOfPieces := metadata.numPieces

namespace Swarm

variable {ι : Type} [DecidableEq ι]

/-- A new manager and a new session for every peer. -/
def new (metadata : TorrentMetadata) (disk : Disk) (tracked : Bool) : Swarm ι where
  manager := PieceManager.new metadata disk tracked
  sessions := fun _ => PeerSession.new
  assigned := fun _ => none

/-- The swarm with the session `i` replaced. -/
def withSession (w : Swarm ι) (i : ι) (s : PeerSession) : Swarm ι :=
  { w with sessions := Function.update w.sessions i s }

/-- The swarm after a call of the session `i` that left the manager as `m`. -/
def afterCall (w : Swarm ι) (i : ι) (s : PeerSession) (m : PieceManager) : Swarm ι :=
  { w.withSession i s with manager := m }

/-- Record who was given a block. -/
def assign (w : Swarm ι) (i : ι) : PieceManager.Answer → BlockKey → Option ι
  | .block (some block) => Function.update w.assigned block.key (some i)
  | _ => w.assigned

/-- One step of the session `i`. -/
def fire (sha1 : Bytes → Sha1Hash) (config : SessionConfig) (w : Swarm ι) (i : ι) :
    Action → Option (Event × Swarm ι)
  | .io event => do
      let s ← (w.sessions i).resume config event
      some (.io event, w.withSession i s)
  | .call fate => do
      let op ← (w.sessions i).operation fate
      match w.manager.apply sha1 op with
      | .error _ => none
      | .ok (answer, m) => do
          let s ← (w.sessions i).answered answer
          some (.call fate answer,
            { w.afterCall i s m with assigned := w.assign i answer })

/-- The swarm of one torrent, from its construction on, under any interleaving of
its sessions and any outcome of their socket operations.  A call that faults has no
successor. -/
def machine (sha1 : Bytes → Sha1Hash) (metadata : TorrentMetadata) (peerId : Bytes) :
    Machine (Swarm ι) (ι × Event) where
  init w := ∃ disk tracked, w = new metadata disk tracked
  step w l w' :=
    ∃ action, w.fire sha1 (sessionConfig metadata peerId) l.1 action = some (l.2, w')

/-- Take steps one after another, recording them newest first. -/
def fireAll (sha1 : Bytes → Sha1Hash) (config : SessionConfig) (w : Swarm ι) :
    List (ι × Action) → List (Transition (Swarm ι) (ι × Event)) →
      Option (List (Transition (Swarm ι) (ι × Event)) × Swarm ι)
  | [], history => some (history, w)
  | (i, action) :: rest, history => do
      let (event, w') ← w.fire sha1 config i action
      fireAll sha1 config w' rest (⟨w, (i, event), w'⟩ :: history)

theorem fireAll_run (sha1 : Bytes → Sha1Hash) (metadata : TorrentMetadata) (peerId : Bytes)
    (actions : List (ι × Action)) {w w' : Swarm ι}
    {history history' : List (Transition (Swarm ι) (ι × Event))}
    (hrun : (machine sha1 metadata peerId).Run history w)
    (h : w.fireAll sha1 (sessionConfig metadata peerId) actions history = some (history', w')) :
    (machine sha1 metadata peerId).Run history' w' := by
  induction actions generalizing w history with
  | nil =>
    cases h
    exact hrun
  | cons first rest ih =>
    obtain ⟨i, action⟩ := first
    obtain ⟨⟨event, w₁⟩, hfire, h⟩ := Option.bind_eq_some_iff.mp h
    have hstep : (machine sha1 metadata peerId).step w (i, event) w₁ := ⟨action, hfire⟩
    exact ih (hrun.snoc hstep) h

/-- A run that takes these steps, when they can be taken. -/
theorem exists_run {sha1 : Bytes → Sha1Hash} {metadata : TorrentMetadata} {peerId : Bytes}
    {disk : Disk} {tracked : Bool} {actions : List (ι × Action)}
    {p : List (Transition (Swarm ι) (ι × Event)) × Swarm ι → Bool}
    (h : (fireAll sha1 (sessionConfig metadata peerId) (new metadata disk tracked) actions
      []).any p = true) :
    ∃ history w, (machine sha1 metadata peerId).Run history w ∧ p (history, w) = true := by
  obtain ⟨⟨history, w⟩, hfire, hp⟩ := (Option.any_eq_true _ _).mp h
  exact ⟨history, w,
    fireAll_run sha1 metadata peerId actions (.start ⟨disk, tracked, rfl⟩) hfire, hp⟩

/-! ## What a step can do -/

variable {sha1 : Bytes → Sha1Hash} {metadata : TorrentMetadata} {peerId : Bytes}
  {w w' : Swarm ι} {i : ι}

/-- What a step of the session `i` did. -/
inductive Moved (sha1 : Bytes → Sha1Hash) (w : Swarm ι) (i : ι) : Event → Swarm ι → Prop
  /-- it went on from a socket operation -/
  | io {event : IoEvent} {s : PeerSession} :
      (w.sessions i).Resumed event s → Moved sha1 w i (.io event) (w.withSession i s)
  /-- the peer has nothing that is wanted -/
  | nothing {left : Nat} {fate : DiskFate} :
      (w.sessions i).point = .requesting left →
      Moved sha1 w i (.call fate (.block none))
        (w.withSession i ((w.sessions i).requestLoop left))
  /-- a block was handed out to it -/
  | lent {left index : Nat} {fate : DiskFate} {block : Block} {m : PieceManager} :
      (w.sessions i).point = .requesting left → w.manager.HandsOut index block m →
      Moved sha1 w i (.call fate (.block (some block)))
        { w.afterCall i ((w.sessions i).suspend (.writingRequest block left)) m with
          assigned := Function.update w.assigned block.key (some i) }
  /-- it delivered a block -/
  | delivered {index offset : Nat} {data : Bytes} {fate : DiskFate} {r : Reply}
      {m : PieceManager} {s : PeerSession} :
      (w.sessions i).point = .delivering index offset data →
      w.manager.Delivery sha1 index offset data fate r m →
      (w.sessions i).Answered (.reply r) s →
      Moved sha1 w i (.call fate (.reply r)) (w.afterCall i s m)
  /-- it gave a block back -/
  | returned {block : Block} {rest : List Block} {after : AfterReturn} {fate : DiskFate}
      {r : Bool} {m : PieceManager} :
      (w.sessions i).point = .returning block rest after → w.manager.Returned block r m →
      Moved sha1 w i (.call fate (.reply (.ok r)))
        (w.afterCall i ((w.sessions i).returnLoop after rest) m)

/-- A step of one session leaves the others alone. -/
theorem Moved.other {event : Event} {j : ι} (h : Moved sha1 w i event w') (hne : j ≠ i) :
    w'.sessions j = w.sessions j := by
  cases h <;> exact Function.update_of_ne hne _ _

/-- Every session is at a point as it should be. -/
def Sane (w : Swarm ι) : Prop := ∀ i, (w.sessions i).Sane

omit [DecidableEq ι] in
theorem sane_new (disk : Disk) (tracked : Bool) : (new metadata disk tracked : Swarm ι).Sane :=
  fun _ => PeerSession.sane_new

theorem Sane.withSession (h : w.Sane) {s : PeerSession} (hs : s.Sane) :
    (w.withSession i s).Sane := by
  intro j
  by_cases heq : j = i
  · subst heq
    simpa [Swarm.withSession] using hs
  · simpa [Swarm.withSession, heq] using h j

/-- A step goes on from a socket operation or from a call. -/
theorem fire_cases {config : SessionConfig} {action : Action} {event : Event}
    (h : w.fire sha1 config i action = some (event, w')) :
    (∃ io s, event = .io io ∧ (w.sessions i).resume config io = some s ∧
      w' = w.withSession i s) ∨
    ∃ fate op answer m s, event = .call fate answer ∧ (w.sessions i).operation fate = some op ∧
      w.manager.apply sha1 op = .ok (answer, m) ∧ (w.sessions i).answered answer = some s ∧
      w' = { w.afterCall i s m with assigned := w.assign i answer } := by
  cases action with
  | io io =>
    obtain ⟨s, hresume, h⟩ := Option.bind_eq_some_iff.mp h
    cases h
    exact Or.inl ⟨io, s, rfl, hresume, rfl⟩
  | call fate =>
    obtain ⟨op, hop, h⟩ := Option.bind_eq_some_iff.mp h
    split at h
    · cases h
    · rename_i answer m happly
      obtain ⟨s, hanswered, h⟩ := Option.bind_eq_some_iff.mp h
      cases h
      exact Or.inr ⟨fate, op, answer, m, s, rfl, hop, happly, hanswered, rfl⟩

/-- A call that comes back, and an answer that the session waits for, are a step. -/
theorem fire_call {config : SessionConfig} {fate : DiskFate} {op : PieceManager.Op}
    {answer : PieceManager.Answer} {m : PieceManager} {s : PeerSession}
    (hop : (w.sessions i).operation fate = some op)
    (happly : w.manager.apply sha1 op = .ok (answer, m))
    (hanswered : (w.sessions i).answered answer = some s) :
    w.fire sha1 config i (.call fate) = some (.call fate answer,
      { w.afterCall i s m with assigned := w.assign i answer }) := by
  simp [fire, hop, happly, hanswered]

/-- A session that has ended takes no step. -/
theorem fire_live {config : SessionConfig} {action : Action} {event : Event}
    (h : w.fire sha1 config i action = some (event, w')) : (w.sessions i).Live := by
  intro hended
  rcases fire_cases h with ⟨io, s, _, hresume, _⟩ | ⟨fate, op, answer, m, s, _, hop, _⟩
  · simp [PeerSession.resume, hended] at hresume
  · simp [PeerSession.operation, hended] at hop

/-- Every step, by what it did. -/
theorem fire_moved {config : SessionConfig} {action : Action} {event : Event} (hs : w.Sane)
    (h : w.fire sha1 config i action = some (event, w')) : w'.Sane ∧ Moved sha1 w i event w' := by
  rcases fire_cases h with ⟨io, s, rfl, hresume, rfl⟩ |
      ⟨fate, op, answer, m, s, rfl, hop, happly, hanswered, rfl⟩
  · obtain ⟨hs', hresumed⟩ := PeerSession.resume_resumed (hs i) hresume
    exact ⟨hs.withSession hs', .io hresumed⟩
  · have hstep : w.manager.Step sha1 (op, answer) m :=
      @PieceManager.machine_step sha1 w.manager.metadata _ _ _ happly
    have hanswered := PeerSession.answered_answered hanswered
    have hs' : (w.withSession i s).Sane := hs.withSession ((hs i).answered hanswered)
    refine ⟨hs', ?_⟩
    unfold PeerSession.operation at hop
    cases hanswered with
    | accepted hpoint =>
      rw [hpoint] at hop
      cases hop
      cases hstep with
      | delivered hd => exact .delivered hpoint hd (.accepted hpoint)
    | refused hpoint =>
      rw [hpoint] at hop
      cases hop
      cases hstep with
      | delivered hd => exact .delivered hpoint hd (.refused hpoint)
    | threw hpoint =>
      rw [hpoint] at hop
      cases hop
      cases hstep with
      | delivered hd => exact .delivered hpoint hd (.threw hpoint)
    | nothing hpoint =>
      rw [hpoint] at hop
      cases hop
      cases hstep with
      | requested hr =>
        cases hr with
        | nothing => exact .nothing hpoint
    | block hpoint =>
      rw [hpoint] at hop
      cases hop
      cases hstep with
      | requested hr =>
        cases hr with
        | block _ _ _ hout => exact .lent hpoint hout
    | returned hpoint =>
      rw [hpoint] at hop
      cases hop
      cases hstep with
      | returned hr => exact .returned hpoint hr

/-! ## An opening -/

/-- A peer is connected, answers the handshake, sends its bitfield and unchokes us. -/
def opening (infoHash : Sha1Hash) (bitfield : Bytes) : List Action :=
  [.io (.connected .established), .io (.wrote true 68),
    .io (.read (some (sampleResponse infoHash))), .io (.endpoint true),
    .io (.read (some (htonl (1 + bitfield.length)))),
    .io (.read (some (Msg.Id.bitfield.toByte :: bitfield))), .io (.wrote true 5),
    .io (.read (some (htonl 1))), .io (.read (some [Msg.Id.unchoke.toByte]))]

/-- The manager is asked this many times. -/
def asking (turns : Nat) : List Action := List.replicate turns (.call .written)

/-- A block is handed out and its request is written or not; then the manager is
asked this many times more. -/
def asked (ok : Bool) (turns : Nat) : List Action :=
  [.call .written, .io (.wrote ok 17)] ++ asking turns

/-- The torrent of the runs, of one piece of one block. -/
def oneBlock : TorrentMetadata := PieceManager.onePiece PieceManager.sevenDigest 1

/-- The peer identifier of the examples. -/
def samplePeerId : Bytes := List.replicate 20 65

end Swarm

end BitTorrentClient
