/-
  App/PeerManager.lean --- the peers of a tracker's reply
  (`_deserializePeerBuffer` of `app/peer_manager.cpp`).

  A peer is six bytes: its address, then its port, the high byte first.  `compact` is
  what those six bytes are meant to be; `peerLayout` says that nothing else is, and the
  results on layouts then carry over to whole lists of peers.
-/
import BitTorrentClient.Core.PeerCommunicator
import BitTorrentClient.Core.TrackerCommunicator
import BitTorrentClient.Library.Layout

set_option autoImplicit false

namespace BitTorrentClient

open Library Bencode

namespace PeerManager

/-- The peer that six bytes stand for. -/
def deserializePeer (peer : List.Vector UInt8 6) : Peer where
  port := peer[4].toUInt16 <<< 8 ||| peer[5].toUInt16
  ip := ⟨peer.toList.take 4, by simp⟩

/-- The peers of a reply. -/
def deserializePeerBuffer (peerBuffer : List (List.Vector UInt8 6)) : List Peer :=
  peerBuffer.map deserializePeer

end PeerManager

/-- The compact form of a peer, the port in network byte order. -/
def Peer.compact (peer : Peer) : Bytes :=
  peer.ip.toList ++ [UInt8.ofNat (peer.port.toNat / 256), UInt8.ofNat (peer.port.toNat % 256)]

namespace PeerManager

/-! ## One peer -/

/-- What the port is put together to. -/
theorem toNat_port (hi lo : UInt8) :
    (hi.toUInt16 <<< 8 ||| lo.toUInt16).toNat = hi.toNat * 256 + lo.toNat := by
  have hhi := hi.toNat_lt
  have hshift : (hi.toUInt16 <<< 8).toNat = hi.toNat <<< 8 := by
    rw [UInt16.toNat_shiftLeft, UInt8.toNat_toUInt16]
    refine Nat.mod_eq_of_lt ?_
    rw [Nat.shiftLeft_eq]
    change hi.toNat * 256 < 65536
    omega
  rw [UInt16.toNat_or, UInt8.toNat_toUInt16, hshift, ← Nat.shiftLeft_add_eq_or_of_lt lo.toNat_lt,
    Nat.shiftLeft_eq]

theorem length_compact (peer : Peer) : peer.compact.length = 6 := by
  rw [Peer.compact, List.length_append, List.Vector.toList_length]
  rfl

/-- Six bytes are the compact form of what they stand for. -/
theorem compact_deserializePeer (peer : List.Vector UInt8 6) :
    (deserializePeer peer).compact = peer.toList := by
  have hlen : peer.toList.length = 6 := peer.toList_length
  have hlast : peer.toList.drop 4 = [peer[4], peer[5]] := by
    rw [List.drop_eq_getElem_cons (by omega), List.drop_eq_getElem_cons (by omega),
      List.drop_of_length_le (by omega)]
    rfl
  have hlow := peer[5].toNat_lt
  have hport : (deserializePeer peer).port.toNat = peer[4].toNat * 256 + peer[5].toNat :=
    toNat_port _ _
  have hdiv : (peer[4].toNat * 256 + peer[5].toNat) / 256 = peer[4].toNat := by omega
  have hmod : (peer[4].toNat * 256 + peer[5].toNat) % 256 = peer[5].toNat := by omega
  rw [Peer.compact, hport, hdiv, hmod, UInt8.ofNat_toNat, UInt8.ofNat_toNat, ← hlast]
  exact List.take_append_drop 4 peer.toList

/-- Peers with the same six bytes are the same. -/
theorem compact_injective : Function.Injective Peer.compact := by
  intro peer peer' h
  have hlen : peer.ip.toList.length = peer'.ip.toList.length :=
    peer.ip.toList_length.trans peer'.ip.toList_length.symm
  obtain ⟨hip, hlast⟩ := List.append_inj h hlen
  obtain ⟨hhigh, hlow, _⟩ : _ ∧ _ ∧ _ := by simpa only [List.cons.injEq] using hlast
  have hport := peer.port.toNat_lt
  have hport' := peer'.port.toNat_lt
  refine Peer.ext (UInt16.toNat_inj.mp ?_) (List.Vector.toList_injective hip)
  have hdiv := congrArg UInt8.toNat hhigh
  have hmod := congrArg UInt8.toNat hlow
  simp only [UInt8.toNat_ofNat'] at hdiv hmod
  omega

/-- The six bytes of a peer stand for the peer. -/
theorem deserializePeer_compact (peer : Peer) :
    deserializePeer ⟨peer.compact, length_compact peer⟩ = peer :=
  compact_injective (compact_deserializePeer _)

/-- Peers, laid out as six bytes each. -/
def peerLayout : Layout Unit Peer UInt8 where
  width _ := 6
  kindOf _ := ()
  encode peer := ⟨peer.compact, length_compact peer⟩
  decode _ := deserializePeer
  kindOf_decode _ _ := rfl
  decode_encode := deserializePeer_compact
  encode_decode _ := compact_deserializePeer

/-! ## All peers -/

/-- The arrays from an index on are what comes off the front there. -/
theorem unpack_peerLayout {blob : Bytes} (n : Nat) {start : Nat}
    (h : start + 6 * n ≤ blob.length) :
    peerLayout.unpack (List.replicate n ()) (blob.drop start) =
      some (deserializePeerBuffer ((List.range' start n 6).map (Tracker.sixBytesAt blob)),
        blob.drop (start + 6 * n)) := by
  induction n generalizing start with
  | zero => rfl
  | succ n ih =>
    have hwidth : peerLayout.width () ≤ (blob.drop start).length := by
      rw [List.length_drop]
      change 6 ≤ blob.length - start
      omega
    have hfront : front (blob.drop start) hwidth = Tracker.sixBytesAt blob start := by
      refine List.Vector.toList_injective ?_
      exact (toList_front hwidth).trans (Tracker.toList_sixBytesAt (by omega)).symm
    have hlater : peerLayout.unpack (List.replicate n ())
        ((blob.drop start).drop (peerLayout.width ())) = _ :=
      (congrArg _ List.drop_drop).trans (ih (by omega : start + 6 + 6 * n ≤ blob.length))
    have hend : start + 6 * (n + 1) = start + 6 + 6 * n := by omega
    rw [List.replicate_succ, Layout.unpack, dif_pos hwidth, hlater, hfront, hend]
    rfl

/-- A string of as many bytes is all its peers and nothing else. -/
theorem unpack_toSixByteArrays {blob : Bytes} {peerBuffer : List (List.Vector UInt8 6)}
    (h : Tracker.toSixByteArrays blob = .ok peerBuffer) :
    peerLayout.unpack (List.replicate (blob.length / 6) ()) blob =
      some (deserializePeerBuffer peerBuffer, []) := by
  have hdvd : 6 ∣ blob.length := by
    by_contra hdvd
    obtain ⟨e, he⟩ := Tracker.toSixByteArrays_throws_iff.mpr hdvd
    rw [he] at h
    cases h
  rw [Tracker.toSixByteArrays_of_dvd hdvd] at h
  have hsize : 0 + 6 * (blob.length / 6) ≤ blob.length := by omega
  have hall := unpack_peerLayout (blob.length / 6) hsize
  rw [Nat.zero_add, Nat.mul_div_cancel' hdvd, List.drop_length, Except.ok.inj h] at hall
  exact hall

/-- A tracker's reply. -/
def reply (interval : Int64) (peers : List Peer) : Value :=
  .dict [(ascii "interval", .int interval), (ascii "peers", .str (peers.flatMap Peer.compact))]

theorem reply_wf (interval : Int64) (peers : List Peer) : (reply interval peers).WF := by
  refine ⟨?_, trivial, trivial, trivial⟩
  simp only [Keyed, List.pairwise_cons, List.mem_cons, List.not_mem_nil, or_false, forall_eq,
    List.Pairwise.nil, and_true, IsEmpty.forall_iff, implies_true]
  decide

/-- **The compact list of peers.**  A string is refused when its length is no multiple of
six; every other string is the compact form of the peers it is taken for.  The peers of a
reply come back from its encoding, of any size a string can have. -/
theorem deserializePeerBuffer_toSixByteArrays :
    (∀ blob, (∃ e, Tracker.toSixByteArrays blob = .error e) ↔ ¬ 6 ∣ blob.length) ∧
    (∀ blob, 6 ∣ blob.length → ∃ peerBuffer, Tracker.toSixByteArrays blob = .ok peerBuffer ∧
      (deserializePeerBuffer peerBuffer).length = blob.length / 6 ∧
      (deserializePeerBuffer peerBuffer).flatMap Peer.compact = blob) ∧
    ∀ (interval : Int64) (peers : List Peer), (encode (reply interval peers)).length < 2 ^ 64 →
      ∃ fuel response,
        Tracker.parseTrackerResponse fuel (encode (reply interval peers)) = .ok response ∧
          response.interval = interval.toInt32 ∧
          deserializePeerBuffer response.peersBlob = peers := by
  refine ⟨fun blob => Tracker.toSixByteArrays_throws_iff, fun blob hdvd => ?_,
    fun interval peers hsize => ?_⟩
  · have harrays := Tracker.toSixByteArrays_of_dvd hdvd
    obtain ⟨hkinds, hpack⟩ := Layout.pack_unpack (unpack_toSixByteArrays harrays)
    refine ⟨_, harrays, ?_, (List.append_nil _).symm.trans hpack⟩
    have hcount := congrArg List.length hkinds
    rwa [List.length_map, List.length_replicate] at hcount
  · have hcount : (peers.flatMap Peer.compact).length = peers.length * 6 := by
      refine peerLayout.length_pack.trans ?_
      change (peers.map fun _ => 6).sum = _
      rw [List.map_const', List.sum_replicate_nat]
    have harrays := Tracker.toSixByteArrays_of_dvd (hcount ▸ Nat.dvd_mul_left 6 peers.length)
    obtain ⟨fuel, hparse⟩ := Tracker.parseTrackerResponse_encode (reply_wf interval peers) hsize
      (show 1 ≤ Detail.maxRecursionDepth by decide) rfl rfl harrays
    refine ⟨fuel, _, hparse, rfl, ?_⟩
    have hkinds : peers.map peerLayout.kindOf =
        List.replicate ((peers.flatMap Peer.compact).length / 6) () := by
      rw [hcount, Nat.mul_div_cancel _ (by decide : 0 < 6)]
      exact List.map_const'
    have hpeers := peerLayout.unpack_pack peers []
    rw [hkinds, List.append_nil] at hpeers
    have hsame := (unpack_toSixByteArrays harrays).symm.trans hpeers
    exact congrArg Prod.fst (Option.some.inj hsame)

/-- Twelve bytes are two peers, and a reply with one peer comes back. -/
theorem deserializePeerBuffer_toSixByteArrays_twelve :
    (∃ peerBuffer, Tracker.toSixByteArrays (List.replicate 12 7) = .ok peerBuffer ∧
      (deserializePeerBuffer peerBuffer).length = 2 ∧
      (deserializePeerBuffer peerBuffer).flatMap Peer.compact = List.replicate 12 7) ∧
    ∃ fuel response,
      Tracker.parseTrackerResponse fuel
          (encode (reply 1800 [⟨6881, List.Vector.replicate 4 127⟩])) = .ok response ∧
        response.interval = 1800 ∧
        deserializePeerBuffer response.peersBlob = [⟨6881, List.Vector.replicate 4 127⟩] :=
  ⟨deserializePeerBuffer_toSixByteArrays.2.1 (List.replicate 12 7) (by decide),
    deserializePeerBuffer_toSixByteArrays.2.2 1800 [⟨6881, List.Vector.replicate 4 127⟩]
      (by decide)⟩

end PeerManager

end BitTorrentClient
