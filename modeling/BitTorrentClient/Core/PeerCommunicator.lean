/-
  Core/PeerCommunicator.lean --- the handshake and the message identifiers
  (`core/peer_communicator.cpp`).

  A handshake has 68 bytes: the length of the protocol name, the name, eight
  reserved bytes, the hash of the info dictionary and the identifier of the peer.
-/
import BitTorrentClient.Core.TorrentMetadata
import BitTorrentClient.Core.Bencode.Value

set_option autoImplicit false

namespace BitTorrentClient

open Bencode

namespace Msg

/-- The length of the protocol name. -/
def len : UInt8 := 0x13

def protocol : Bytes := ascii "BitTorrent protocol"

def handshakeLen : Nat := 68

/-- What a message is about. -/
inductive Id where
  | choke
  | unchoke
  | interested
  | notInterested
  | have_
  | bitfield
  | request
  | piece
  | cancel
  deriving DecidableEq, Repr

/-- The byte of an identifier. -/
def Id.toByte : Id → UInt8
  | .choke => 0
  | .unchoke => 1
  | .interested => 2
  | .notInterested => 3
  | .have_ => 4
  | .bitfield => 5
  | .request => 6
  | .piece => 7
  | .cancel => 8

/-- The identifier a byte is cast to; other bytes have no name. -/
def Id.ofByte (byte : UInt8) : Option Id :=
  [Id.choke, .unchoke, .interested, .notInterested, .have_, .bitfield, .request, .piece,
    .cancel].find? fun id => id.toByte == byte

end Msg

/-- The bytes of a handshake. -/
abbrev HandshakeMsg := List.Vector UInt8 Msg.handshakeLen

/-- The fields of a handshake, in the order of their bytes. -/
structure HandshakePacket where
  pstrlen : UInt8
  pstr : List.Vector UInt8 19
  reserved : List.Vector UInt8 8
  infoHash : Sha1Hash
  peerId : List.Vector UInt8 20
  deriving DecidableEq

/-- An address of four bytes. -/
abbrev IpAddr := List.Vector UInt8 4

/-- Where a peer listens. -/
@[ext] structure Peer where
  port : UInt16
  ip : IpAddr
  deriving DecidableEq

/-- The packed layout. -/
def HandshakePacket.toMsg (pkg : HandshakePacket) : HandshakeMsg :=
  ⟨pkg.pstrlen ::
    (pkg.pstr.toList ++ pkg.reserved.toList ++ pkg.infoHash.toList ++ pkg.peerId.toList), by
    simp only [List.length_cons, List.length_append, List.Vector.toList_length]
    rfl⟩

/-- The handshake for a torrent; twenty bytes of the identifier are read without
a check. -/
def serializeHandshake (infoHash : Sha1Hash) (peerId : Bytes) : Except Fault HandshakeMsg :=
  if h : 20 ≤ peerId.length then
    let pkg : HandshakePacket :=
      { pstrlen := Msg.len
        pstr := ⟨Msg.protocol, rfl⟩
        reserved := List.Vector.replicate 8 0
        infoHash := infoHash
        peerId := ⟨peerId.take 20, by simp [h]⟩ }
    .ok pkg.toMsg
  else .error .outOfRange

/-- Whether a response names the protocol and carries the expected hash. -/
def verifyHandshake (handshakeResponse : HandshakeMsg) (expectedInfoHash : Sha1Hash) : Bool :=
  let bytes := handshakeResponse.toList
  if bytes.head? ≠ some Msg.len then false
  else if (bytes.drop 1).take Msg.len.toNat ≠ Msg.protocol then false
  else if (bytes.drop 28).take 20 ≠ expectedInfoHash.toList then false
  else true

/-- The handshake of some peer. -/
def sampleResponse (infoHash : Sha1Hash) : Bytes :=
  Msg.len :: Msg.protocol ++ List.replicate 8 0 ++ infoHash.toList ++ List.replicate 20 66

end BitTorrentClient
