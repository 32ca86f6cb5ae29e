/-
  App/PeerSession.lean --- the session with one peer (`app/peer_session.cpp`,
  and the coroutine of `app/peer_manager.cpp` that runs it).

  A session is a coroutine: `connect`, then `doHandshake`, then `run`, whatever
  the first two came to.  It is cut at the places where something outside decides
  how it goes on, its `Point`s: a socket operation, or a call of the piece
  manager, which other sessions may get in before.  `resume` goes on from a socket
  operation and `answered` from a call, each up to the next point.

  How the socket behaves is not the code's to decide: every outcome is an input.
  Running out of memory is not one of them.
-/
import BitTorrentClient.Core.PeerCommunicator
import BitTorrentClient.Core.Utils
import BitTorrentClient.App.PieceManager.Steps

set_option autoImplicit false

namespace BitTorrentClient

open Library

/-- How many requests may be under way at once. -/
def maxPipelineSize : Nat := 32

inductive PeerState where
  | connecting
  | handshaking
  | bitfieldWait
  | ready
  | disconnected
  | error
  deriving DecidableEq, Repr

/-- What follows a call of `_returnBlocks`. -/
inductive AfterReturn where
  /-- the loop that was requesting blocks, with this many turns left -/
  | request (left : Nat)
  /-- the end of the coroutine -/
  | finish
  deriving DecidableEq, Repr

/-- Where a session waits. -/
inductive Point where
  | connecting
  | writingHandshake (handshake : HandshakeMsg)
  | readingHandshake
  /-- the address of the peer is looked up for the log -/
  | loggingEndpoint
  | readingLength
  | readingPayload (len : Nat)
  | writingInterested
  /-- about to call `deliverBlock` -/
  | delivering (index offset : Nat) (data : Bytes)
  /-- about to call `requestBlock`, with this many turns left after it -/
  | requesting (left : Nat)
  | writingRequest (block : Block) (left : Nat)
  /-- about to call `returnBlock`, with these blocks left after it -/
  | returning (block : Block) (rest : List Block) (after : AfterReturn)
  /-- the coroutine has ended -/
  | ended
  deriving DecidableEq

/-- What a session is given. -/
structure SessionConfig where
  infoHash : Sha1Hash
  peerId : Bytes
  totalNumOfPieces : Nat

/-- The session with one peer. -/
structure PeerSession where
  peerChoking : Bool
  state : PeerState
  /-- what `is_open` says of the socket -/
  socketOpen : Bool
  peerBitfield : Bytes
  pendingBlocks : BlockSet
  point : Point
  deriving DecidableEq

/-- What `async_connect` reports.  A socket that was opened for an attempt stays
open when the attempt fails. -/
inductive Connection where
  | established
  | failed (opened : Bool)
  deriving DecidableEq, Repr

/-- Whether the socket is open afterwards. -/
def Connection.isOpen : Connection → Bool
  | .established => true
  | .failed opened => opened

/-- The outcome of a socket operation. -/
inductive IoEvent where
  | connected (connection : Connection)
  /-- whether there was no error, and how many bytes were transferred -/
  | wrote (ok : Bool) (len : Nat)
  /-- all the bytes that were asked for, or an error -/
  | read (bytes : Option Bytes)
  /-- whether the address is known; the lookup throws when it is not -/
  | endpoint (known : Bool)
  deriving DecidableEq, Repr

/-- What makes a session go on. -/
inductive Event where
  | io (event : IoEvent)
  /-- a call of the piece manager, with the fate of the write it may make -/
  | call (fate : DiskFate) (answer : PieceManager.Answer)

/-- The message that asks for a block. -/
def requestMsg (block : Block) : Bytes :=
  let msg : ByteWriter := {}
  let msg := msg.writeU32 13
  let msg := msg.writeU8 Msg.Id.request.toByte
  let msg := msg.writeU32 block.pieceIndex
  let msg := msg.writeU32 block.offset
  let msg := msg.writeU32 block.length
  msg.data

/-- The message that says that we want something. -/
def interestedMsg : Bytes :=
  let msg : ByteWriter := {}
  let msg := msg.writeU32 1
  let msg := msg.writeU8 Msg.Id.interested.toByte
  msg.data

/-- The index, offset and data of a PIECE message. -/
def parsePiece (payload : Bytes) : Except StdException (Nat × Nat × Bytes) := do
  let reader : ByteReader := { buffer := payload }
  let (index, reader) ← reader.readU32
  let (offset, reader) ← reader.readU32
  pure (index, offset, reader.readRemaining)

/-- The value a 32-bit signed integer keeps. -/
def i32 (n : Nat) : Int := if u32 n < 2 ^ 31 then u32 n else (u32 n : Int) - 2 ^ 32

/-- How many blocks to ask for: a difference of 64-bit unsigned integers, kept in
a signed one of 32 bits. -/
def needed (pending : Nat) : Int := i32 (u64 (2 ^ 64 + maxPipelineSize - pending))

namespace PeerSession

/-- The constructor; the coroutine starts in `connect`. -/
def new : PeerSession where
  peerChoking := true
  state := .connecting
  socketOpen := false
  peerBitfield := []
  pendingBlocks := KeyedSet.empty
  point := .connecting

/-- Wait at a point. -/
def suspend (s : PeerSession) (point : Point) : PeerSession := { s with point := point }

def setState (s : PeerSession) (state : PeerState) : PeerSession := { s with state := state }

/-- What is written to the socket. -/
def outgoing (s : PeerSession) : Option Bytes :=
  match s.point with
  | .writingHandshake handshake => some handshake.toList
  | .writingInterested => some interestedMsg
  | .writingRequest block _ => some (requestMsg block)
  | _ => none

/-! ## Between two points -/

/-- The condition of the loop of `run`. -/
def loopHead (s : PeerSession) : PeerSession :=
  if s.socketOpen && decide (s.state ≠ .error) then s.suspend .readingLength
  else s.suspend .ended

/-- The loop around `_requestBlock`, the last thing done for a message. -/
def requestLoop (s : PeerSession) : Nat → PeerSession
  | 0 => s.loopHead
  | left + 1 => s.suspend (.requesting left)

/-- Ask for as many blocks as the pipeline has room for. -/
def refill (s : PeerSession) : PeerSession := s.requestLoop (needed s.pendingBlocks.size).toNat

/-- The loop of `_returnBlocks`, which leaves the set as it is. -/
def returnLoop (s : PeerSession) (after : AfterReturn) : List Block → PeerSession
  | [] =>
      match after with
      | .request left => s.requestLoop left
      | .finish => s.suspend .ended
  | block :: rest => s.suspend (.returning block rest after)

def returnBlocks (s : PeerSession) (after : AfterReturn) : PeerSession :=
  s.returnLoop after s.pendingBlocks.elems

/-- Take over the peer's bitfield if it has the size it should have. -/
def handleBitfield (config : SessionConfig) (s : PeerSession) (payload : Bytes) : PeerSession :=
  let expectedSize := (config.totalNumOfPieces + 7) / 8
  if payload.length ≠ expectedSize then s.setState .error
  else { s with peerBitfield := payload }

/-- A message that cannot be parsed throws, and nothing in `run` catches it. -/
def handlePiece (s : PeerSession) (payload : Bytes) : PeerSession :=
  match parsePiece payload with
  | .ok (index, offset, data) => s.suspend (.delivering index offset data)
  | .error _ => s.suspend .ended

def handleMessage (config : SessionConfig) (s : PeerSession) (msgId : UInt8) (payload : Bytes) :
    PeerSession :=
  match Msg.Id.ofByte msgId with
  | some .choke => { s with peerChoking := true }.loopHead
  | some .unchoke => { s with peerChoking := false }.refill
  | some .have_ => s.loopHead
  | some .bitfield => (s.handleBitfield config payload).suspend .writingInterested
  | some .piece => s.handlePiece payload
  | _ => s.loopHead

def run (s : PeerSession) : PeerSession := (s.setState .bitfieldWait).loopHead

/-! ## Going on from a socket operation -/

/-- The end of `connect` and the start of `doHandshake`, which does not look at
what `connect` came to. -/
def connectDone (config : SessionConfig) (s : PeerSession) (connection : Connection) :
    Option PeerSession :=
  let s := { s with socketOpen := connection.isOpen }
  let s :=
    match connection with
    | .established => s
    | .failed _ => s.setState .error
  let s := s.setState .handshaking
  match serializeHandshake config.infoHash config.peerId with
  | .ok handshake => some (s.suspend (.writingHandshake handshake))
  | .error _ => none

/-- The write of the handshake is over; `run` follows a failure. -/
def handshakeWritten (s : PeerSession) (handshake : HandshakeMsg) (ok : Bool) (len : Nat) :
    PeerSession :=
  if !ok then (s.setState .error).run
  else if len ≠ handshake.toList.length then (s.setState .error).run
  else s.suspend .readingHandshake

/-- The read of the response is over; `run` follows a failure here too. -/
def handshakeRead (config : SessionConfig) (s : PeerSession) (bytes : Option Bytes) :
    Option PeerSession :=
  match bytes with
  | none => some (s.setState .error).run
  | some response =>
      if h : response.length = Msg.handshakeLen then
        if !verifyHandshake ⟨response, h⟩ config.infoHash then some (s.setState .error).run
        else some (s.suspend .loggingEndpoint)
      else none

/-- `_readMsgLen` is over; its exception is caught in `run`. -/
def lengthRead (s : PeerSession) (bytes : Option Bytes) : Option PeerSession :=
  match bytes with
  | none => some ((s.setState .error).returnBlocks .finish)
  | some networkLen =>
      if networkLen.length = 4 then
        let len := ntohl networkLen
        some (if len = 0 then s.loopHead else s.suspend (.readingPayload len))
      else none

/-- The read of a message is over; it has a first byte, since its length is not
zero. -/
def payloadRead (config : SessionConfig) (s : PeerSession) (len : Nat) (bytes : Option Bytes) :
    Option PeerSession :=
  match bytes with
  | none => some ((s.setState .error).returnBlocks .finish)
  | some [] => none
  | some (msgId :: payload) =>
      if payload.length + 1 = len then some (s.handleMessage config msgId payload) else none

/-- The write of a request is over.  A failure returns the blocks of the set, and
the block that was asked for is not among them. -/
def requestWritten (s : PeerSession) (block : Block) (left : Nat) (ok : Bool) : PeerSession :=
  if !ok then s.returnBlocks (.request left)
  else { s with pendingBlocks := s.pendingBlocks.insert block }.requestLoop left

/-- Go on from a socket operation, if the session waits for one of this kind. -/
def resume (config : SessionConfig) (s : PeerSession) (event : IoEvent) : Option PeerSession :=
  match s.point, event with
  | .connecting, .connected connection => s.connectDone config connection
  | .writingHandshake handshake, .wrote ok len => some (s.handshakeWritten handshake ok len)
  | .readingHandshake, .read bytes => s.handshakeRead config bytes
  | .loggingEndpoint, .endpoint known => some (if known then s.run else s.suspend .ended)
  | .readingLength, .read bytes => s.lengthRead bytes
  | .readingPayload len, .read bytes => s.payloadRead config len bytes
  | .writingInterested, .wrote _ _ => some (s.setState .ready).loopHead
  | .writingRequest block left, .wrote ok _ => some (s.requestWritten block left ok)
  | _, _ => none

/-! ## Going on from a call -/

/-- The call the session is about to make. -/
def operation (s : PeerSession) (fate : DiskFate) : Option PieceManager.Op :=
  match s.point with
  | .delivering index offset data => some (.deliverBlock index offset data fate)
  | .requesting _ => some (.requestBlock s.peerBitfield)
  | .returning block _ _ => some (.returnBlock block)
  | _ => none

/-- The set without a block. -/
def forget (s : PeerSession) (block : Block) : PeerSession :=
  { s with pendingBlocks := s.pendingBlocks.erase block }

/-- Go on from a call, if the session waits for an answer of this kind. -/
def answered (s : PeerSession) (answer : PieceManager.Answer) : Option PeerSession :=
  match s.point, answer with
  | .delivering index offset data, .reply (.ok accepted) =>
      some (if !accepted then s.loopHead else (s.forget ⟨index, offset, u32 data.length⟩).refill)
  | .delivering _ _ _, .reply (.error _) => some (s.suspend .ended)
  | .requesting left, .block none => some (s.requestLoop left)
  | .requesting left, .block (some block) => some (s.suspend (.writingRequest block left))
  | .returning _ rest after, .reply (.ok _) => some (s.returnLoop after rest)
  | _, _ => none

/-! ## Runs of one session -/

def step (config : SessionConfig) (s : PeerSession) : Event → Option PeerSession
  | .io event => s.resume config event
  | .call _ answer => s.answered answer

/-- Go on for a list of events, earliest first. -/
def steps (config : SessionConfig) (s : PeerSession) : List Event → Option PeerSession
  | [] => some s
  | event :: rest => (s.step config event).bind fun s' => s'.steps config rest

end PeerSession

end BitTorrentClient
