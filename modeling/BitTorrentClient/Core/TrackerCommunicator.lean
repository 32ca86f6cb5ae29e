/-
  Core/TrackerCommunicator.lean --- the reply of a tracker
  (`parseTrackerResponse` of `core/tracker_communicator.cpp`).

  A tracker answers with a dictionary.  Its peers are one string, six bytes a peer,
  and the string is cut here; what the bytes mean is the business of the peer manager.
-/
import BitTorrentClient.Core.TorrentMetadataLoader
import BitTorrentClient.Core.Bencode.RoundTrip
import BitTorrentClient.Library.Chunks

set_option autoImplicit false

namespace BitTorrentClient

open Library Bencode

/-- A tracker's reply: when to announce again, and the peers. -/
structure TrackerResponse where
  interval : Int32
  peersBlob : List (List.Vector UInt8 6)
  deriving DecidableEq

namespace Tracker

/-- The six bytes from an index on. -/
def sixBytesAt (blob : Bytes) (i : Nat) : List.Vector UInt8 6 :=
  ⟨(slice blob i 6).takeD 6 0, List.takeD_length _ _ _⟩

/-- Cut a string into arrays of six bytes; the index goes up by six while it is inside. -/
def toSixByteArrays (blob : Bytes) : Except StdException (List (List.Vector UInt8 6)) :=
  if blob.length % 6 ≠ 0 then
    .error (.runtimeError "Peer blob length not multiple of 6")
  else .ok ((List.range' 0 (chunkCount 6 blob.length) 6).map (sixBytesAt blob))

/-- Take the reply of a tracker apart.  The interval is cast to 32 bits. -/
def parseTrackerResponse (fuel : Nat) (response : Bytes) : Except Stop TrackerResponse := do
  let parsedResponse ← Bencode.parse fuel response
  match parsedResponse with
  | .dict dict => do
    let interval ← (extractValueFromDict Value.asInt dict "interval").mapError .throws
    let peerBlob ← (extractValueFromDict Value.asStr dict "peers").mapError .throws
    let peersBlob ← (toSixByteArrays peerBlob).mapError .throws
    pure { interval := interval.toInt32, peersBlob := peersBlob }
  | _ => throwing (.runtimeError "Invalid tracker response format")

variable {blob : Bytes}

/-- Where six bytes are left, these are they. -/
theorem toList_sixBytesAt {i : Nat} (h : i + 6 ≤ blob.length) :
    (sixBytesAt blob i).toList = slice blob i 6 := by
  refine List.takeD_eq_take _ ?_ |>.trans (List.take_of_length_le ?_)
  · rw [length_slice]
    omega
  · rw [length_slice]
    omega

theorem toSixByteArrays_of_dvd (h : 6 ∣ blob.length) :
    toSixByteArrays blob = .ok ((List.range' 0 (blob.length / 6) 6).map (sixBytesAt blob)) := by
  have hcount : chunkCount 6 blob.length = blob.length / 6 := by
    rw [chunkCount]
    omega
  rw [toSixByteArrays, hcount]
  exact if_neg (not_not.mpr (Nat.mod_eq_zero_of_dvd h))

/-- A string is refused when bytes would be left over. -/
theorem toSixByteArrays_throws_iff :
    (∃ e, toSixByteArrays blob = .error e) ↔ ¬ 6 ∣ blob.length := by
  constructor
  · rintro ⟨e, he⟩ hdvd
    rw [toSixByteArrays_of_dvd hdvd] at he
    cases he
  · intro hdvd
    exact ⟨_, if_pos fun hzero => hdvd (Nat.dvd_of_mod_eq_zero hzero)⟩

/-- A dictionary that holds the two keys is taken apart once it was encoded. -/
theorem parseTrackerResponse_encode {values : Pairs} {interval : Int64}
    {peersBlob : List (List.Vector UInt8 6)} (hwf : (Value.dict values).WF)
    (hsize : (encode (.dict values)).length < 2 ^ 64)
    (hdepth : (Value.dict values).height ≤ Detail.maxRecursionDepth)
    (hinterval : extractValueFromDict Value.asInt values "interval" = .ok interval)
    (hpeers : extractValueFromDict Value.asStr values "peers" = .ok blob)
    (harrays : toSixByteArrays blob = .ok peersBlob) :
    ∃ fuel, parseTrackerResponse fuel (encode (.dict values)) =
      .ok { interval := interval.toInt32, peersBlob := peersBlob } := by
  rw [← List.append_nil (encode (.dict values))] at hsize ⊢
  obtain ⟨fuel, hparse⟩ := parse_encode_append hwf hsize hdepth
  refine ⟨fuel, ?_⟩
  rw [parseTrackerResponse, Bencode.parse, hparse]
  simp only [bind, Except.bind, pure, Except.pure, hinterval, hpeers, harrays, Except.mapError]

end Tracker

end BitTorrentClient
