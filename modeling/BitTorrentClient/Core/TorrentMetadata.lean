/-
  Core/TorrentMetadata.lean --- what the client keeps of a torrent file.

  `TorrentMetadata` and `TorrentMetadata.Info` are the records of
  `core/torrent_metadata_loader.hpp`; `Sha1Hash` is its array of twenty bytes.
-/
import BitTorrentClient.Core.Failure
import Mathlib.Data.Vector.Basic

set_option autoImplicit false

namespace BitTorrentClient

/-- Bytes in one hash. -/
def hashLength : Nat := 20

/-- A SHA1 digest. -/
abbrev Sha1Hash := List.Vector UInt8 hashLength

/-- Subset of the torrent's "info" dictionary. -/
structure TorrentMetadata.Info where
  pieceHashes : List Sha1Hash
  rawPieces : Bytes
  /-- a 64-bit unsigned integer -/
  pieceLength : Nat
  /-- a 64-bit unsigned integer -/
  fileLength : Nat
  fileName : Bytes
  deriving DecidableEq

/-- The metadata of one torrent. -/
structure TorrentMetadata where
  announce : Bytes
  comment : Bytes
  /-- a 64-bit unsigned integer -/
  creationDate : Nat
  infoHash : Sha1Hash
  info : TorrentMetadata.Info
  deriving DecidableEq

/-- How many pieces the hashes announce. -/
def TorrentMetadata.numPieces (metadata : TorrentMetadata) : Nat :=
  metadata.info.pieceHashes.length

end BitTorrentClient
