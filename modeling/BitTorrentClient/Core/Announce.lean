/-
  Core/Announce.lean --- asking a tracker for peers
  (the rest of `core/tracker_communicator.cpp`).

  The identifier of the client is drawn from 62 characters.  The announce URL of the
  torrent gets a query with the hash and the identifier, the tracker is asked, and its
  reply is taken apart.

  The URL library, the draws and the network are not under the code's control and are
  parameters.  The parsed URL is used before it is checked, so an announce string that
  is no URL is a step without a meaning, and the exception for it is never thrown.
-/
import BitTorrentClient.Core.TrackerCommunicator

set_option autoImplicit false

namespace BitTorrentClient

open Library Bencode

/-- What the client uses of the URL library, for its type of parsed URLs. -/
structure UrlLibrary (Url : Type) where
  parse : Bytes → Option Url
  /-- the query that the appended keys and values are printed to -/
  searchParams : List (Bytes × Bytes) → Bytes
  setSearch : Url → Bytes → Url
  href : Url → Bytes

/-- What comes back from a request. -/
structure HttpResponse where
  statusCode : Int
  errorMessage : String
  text : Bytes
  deriving DecidableEq, Repr

namespace Tracker

/-- What an identifier is made of. -/
def characters : Bytes :=
  ascii "0123456789ABCDEFGHIJKLMNOPQRSTUVWXYZabcdefghijklmnopqrstuvwxyz"

/-- A random identifier; `draw i` is what the distribution returns the `i`-th time. -/
def generateId (length : Nat) (draw : Nat → Fin characters.length) : Bytes :=
  (List.range length).foldl (fun id i => id ++ [characters.get (draw i)]) []

variable {Url : Type} (urls : UrlLibrary Url)

/-- What the query tells the tracker. -/
def announceParams (metadata : TorrentMetadata) (peerId : Bytes) : List (Bytes × Bytes) :=
  [(ascii "info_hash", metadata.infoHash.toList), (ascii "peer_id", peerId),
    (ascii "uploaded", ascii "0"), (ascii "downloaded", ascii "0"), (ascii "compact", ascii "1"),
    (ascii "left", decimal metadata.info.fileLength)]

/-- The URL of the request. -/
def buildTrackerUrl (metadata : TorrentMetadata) (peerId : Bytes) : Except Stop Bytes :=
  match urls.parse metadata.announce with
  | none => .error (.fault .assertion)
  | some finalUrl =>
      let params := urls.searchParams (announceParams metadata peerId)
      .ok (urls.href (urls.setSearch finalUrl params))

/-- Send the request; any status but 200 is an error. -/
def announceToTracker (get : Bytes → HttpResponse) (url : Bytes) :
    Except StdException HttpResponse :=
  let r := get url
  if r.statusCode ≠ 200 then .error (.runtimeError ("Announcing failed: " ++ r.errorMessage))
  else .ok r

/-- Ask the tracker of a torrent for peers. -/
def announceAndGetPeers (get : Bytes → HttpResponse) (fuel : Nat) (metadata : TorrentMetadata)
    (peerId : Bytes) : Except Stop TrackerResponse := do
  let url ← buildTrackerUrl urls metadata peerId
  let resp ← (announceToTracker get url).mapError .throws
  parseTrackerResponse fuel resp.text

/-! ## The identifier -/

end Tracker

end BitTorrentClient
