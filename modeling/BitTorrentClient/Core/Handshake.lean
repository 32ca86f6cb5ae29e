/-
  Core/Handshake.lean --- the writer and the reader of the handshake agree
  (`core/peer_communicator.cpp`).

  The writer copies a packed structure, the reader counts offsets.  `packet` takes the
  structure out of its bytes again; what the reader compares are three of its fields,
  and these are the bytes 0 to 19 and 28 to 47.
-/
import BitTorrentClient.Core.PeerCommunicator
import BitTorrentClient.Library.ByteRange

set_option autoImplicit false

namespace BitTorrentClient

open Library

/-- The `n` bytes of a handshake from an offset on. -/
def HandshakeMsg.field (msg : HandshakeMsg) (offset n : Nat)
    (h : offset + n ≤ Msg.handshakeLen) : List.Vector UInt8 n :=
  ⟨slice msg.toList offset n, by
    rw [length_slice, List.Vector.toList_length]
    omega⟩

/-- The fields of a handshake, from its bytes. -/
def HandshakeMsg.packet (msg : HandshakeMsg) : HandshakePacket where
  pstrlen := msg.get ⟨0, by decide⟩
  pstr := HandshakeMsg.field msg 1 19 (by decide)
  reserved := HandshakeMsg.field msg 20 8 (by decide)
  infoHash := HandshakeMsg.field msg 28 hashLength (by decide)
  peerId := HandshakeMsg.field msg 48 20 (by decide)

/-! ## The packed structure -/

theorem HandshakePacket.toList_toMsg (pkg : HandshakePacket) : pkg.toMsg.toList =
    [pkg.pstrlen] ++ pkg.pstr.toList ++ pkg.reserved.toList ++ pkg.infoHash.toList ++
      pkg.peerId.toList := by
  simp [HandshakePacket.toMsg]

/-- A field that was laid out behind others is taken out again. -/
theorem HandshakePacket.field_toMsg {pkg : HandshakePacket} {offset n : Nat}
    {field : List.Vector UInt8 n} {before after : Bytes}
    (hbytes : pkg.toMsg.toList = before ++ field.toList ++ after) (hbefore : before.length = offset)
    (h : offset + n ≤ Msg.handshakeLen) : HandshakeMsg.field pkg.toMsg offset n h = field :=
  List.Vector.toList_injective (slice_of_append hbytes hbefore field.toList_length)

/-- What was laid out is taken out again. -/
theorem HandshakePacket.packet_toMsg (pkg : HandshakePacket) : pkg.toMsg.packet = pkg := by
  have hbytes := pkg.toList_toMsg
  have hlen : pkg.infoHash.toList.length = 20 := pkg.infoHash.toList_length
  have hpeerId : HandshakeMsg.field pkg.toMsg 48 20 (by decide) = pkg.peerId :=
    field_toMsg (hbytes.trans (List.append_nil _).symm) (by simp [hlen]) _
  have hinfoHash : HandshakeMsg.field pkg.toMsg 28 hashLength (by decide) = pkg.infoHash :=
    field_toMsg hbytes (by simp) _
  rw [List.append_assoc] at hbytes
  have hreserved : HandshakeMsg.field pkg.toMsg 20 8 (by decide) = pkg.reserved :=
    field_toMsg hbytes (by simp) _
  rw [List.append_assoc] at hbytes
  have hpstr : HandshakeMsg.field pkg.toMsg 1 19 (by decide) = pkg.pstr :=
    field_toMsg hbytes rfl _
  rw [HandshakeMsg.packet, hpstr, hreserved, hinfoHash, hpeerId]
  rfl

theorem HandshakeMsg.toList_eq_cons (msg : HandshakeMsg) :
    msg.toList = (HandshakeMsg.packet msg).pstrlen :: msg.toList.drop 1 := by
  have hlen : 0 < msg.toList.length := by
    rw [List.Vector.toList_length]
    decide
  have hfirst : (HandshakeMsg.packet msg).pstrlen = msg.toList[0] :=
    List.Vector.get_eq_get_toList msg ⟨0, by decide⟩
  rw [hfirst]
  exact List.drop_eq_getElem_cons hlen

/-- The fields are all there is of a handshake. -/
theorem HandshakeMsg.toMsg_packet (msg : HandshakeMsg) :
    (HandshakeMsg.packet msg).toMsg = msg := by
  refine List.Vector.toList_injective ?_
  have hfirst : [msg.get ⟨0, by decide⟩] = slice msg.toList 0 1 := by
    rw [HandshakeMsg.toList_eq_cons]
    rfl
  rw [HandshakePacket.toList_toMsg]
  change [msg.get ⟨0, by decide⟩] ++ slice msg.toList 1 19 ++ slice msg.toList 20 8 ++
    slice msg.toList 28 20 ++ slice msg.toList 48 20 = msg.toList
  have hlen : msg.toList.length = 68 := msg.toList_length
  rw [hfirst, slice_append_slice msg.toList 0 1 19, slice_append_slice msg.toList 0 20 8,
    slice_append_slice msg.toList 0 28 20, slice_append_slice msg.toList 0 48 20]
  exact List.take_of_length_le (Nat.le_of_eq hlen)

/-! ## What is verified -/

/-- A handshake is accepted for the length and the name of the protocol and the hash. -/
theorem verifyHandshake_iff {msg : HandshakeMsg} {expectedInfoHash : Sha1Hash} :
    verifyHandshake msg expectedInfoHash = true ↔
      (HandshakeMsg.packet msg).pstrlen = Msg.len ∧
        (HandshakeMsg.packet msg).pstr.toList = Msg.protocol ∧
        (HandshakeMsg.packet msg).infoHash = expectedInfoHash := by
  have hpstrlen : msg.toList.head? = some (HandshakeMsg.packet msg).pstrlen := by
    rw [HandshakeMsg.toList_eq_cons]
    rfl
  have hpstr : (msg.toList.drop 1).take Msg.len.toNat = (HandshakeMsg.packet msg).pstr.toList := rfl
  have hinfoHash : (msg.toList.drop 28).take 20 = (HandshakeMsg.packet msg).infoHash.toList := rfl
  have hsame : (HandshakeMsg.packet msg).infoHash.toList = expectedInfoHash.toList ↔
      (HandshakeMsg.packet msg).infoHash = expectedInfoHash :=
    ⟨fun h => List.Vector.toList_injective h, fun h => h ▸ rfl⟩
  simp only [verifyHandshake, hpstrlen, hpstr, hinfoHash, ← hsame]
  simp only [ne_eq, Option.some.injEq]
  split
  · rename_i hlen
    exact iff_of_false (by simp) fun h => hlen h.1
  · rename_i hlen
    split
    · rename_i hprotocol
      exact iff_of_false (by simp) fun h => hprotocol h.2.1
    · rename_i hprotocol
      split
      · rename_i hhash
        exact iff_of_false (by simp) fun h => hhash h.2.2
      · rename_i hhash
        exact iff_of_true rfl ⟨not_not.mp hlen, not_not.mp hprotocol, not_not.mp hhash⟩

/-- The bytes that are compared. -/
def Checked (i : Nat) : Prop := i < 20 ∨ 28 ≤ i ∧ i < 48

/-- Two messages hold the same in the bytes that are compared. -/
def SameChecked (msg msg' : HandshakeMsg) : Prop :=
  ∀ i, Checked i.val → msg.get i = msg'.get i

variable {msg msg' : HandshakeMsg}

theorem HandshakeMsg.get_eq_iff (i : Fin Msg.handshakeLen) :
    msg.get i = msg'.get i ↔ msg.toList[i.val]? = msg'.toList[i.val]? := by
  have hin : ∀ msg : HandshakeMsg, msg.toList[i.val]? = some (msg.get i) := by
    intro msg
    rw [List.Vector.get_eq_get_toList]
    exact List.getElem?_eq_getElem _
  rw [hin, hin, Option.some.injEq]

theorem HandshakeMsg.field_eq_iff {offset n : Nat} {h : offset + n ≤ Msg.handshakeLen} :
    HandshakeMsg.field msg offset n h = HandshakeMsg.field msg' offset n h ↔
      ∀ i, offset ≤ i → i < offset + n → msg.toList[i]? = msg'.toList[i]? :=
  ⟨fun heq => slice_eq_iff.mp (congrArg List.Vector.toList heq),
    fun hsame => List.Vector.toList_injective (slice_eq_iff.mpr hsame)⟩

/-- These bytes are the three fields that are verified. -/
theorem sameChecked_iff : SameChecked msg msg' ↔
    (HandshakeMsg.packet msg).pstrlen = (HandshakeMsg.packet msg').pstrlen ∧
      (HandshakeMsg.packet msg).pstr = (HandshakeMsg.packet msg').pstr ∧
      (HandshakeMsg.packet msg).infoHash = (HandshakeMsg.packet msg').infoHash := by
  simp only [HandshakeMsg.packet, HandshakeMsg.get_eq_iff, HandshakeMsg.field_eq_iff]
  constructor
  · intro h
    have hat : ∀ i, Checked i → msg.toList[i]? = msg'.toList[i]? := by
      intro i hi
      have hlt : i < 68 := by
        unfold Checked at hi
        omega
      exact (HandshakeMsg.get_eq_iff ⟨i, hlt⟩).mp (h ⟨i, hlt⟩ hi)
    refine ⟨hat 0 (Or.inl (by decide)), fun i _ hlt => hat i (Or.inl hlt), fun i hle hlt => ?_⟩
    exact hat i (Or.inr ⟨hle, hlt⟩)
  · rintro ⟨hpstrlen, hpstr, hinfoHash⟩ i hi
    rw [HandshakeMsg.get_eq_iff]
    rcases hi with hlt | ⟨hle, hlt⟩
    · rcases Nat.eq_zero_or_pos i.val with hzero | hpos
      · rw [hzero]
        exact hpstrlen
      · exact hpstr i.val hpos hlt
    · exact hinfoHash i.val hle hlt

/-- Only these bytes matter. -/
theorem SameChecked.verifyHandshake_eq (h : SameChecked msg msg') (expectedInfoHash : Sha1Hash) :
    verifyHandshake msg expectedInfoHash = verifyHandshake msg' expectedInfoHash := by
  obtain ⟨hpstrlen, hpstr, hinfoHash⟩ := sameChecked_iff.mp h
  rw [Bool.eq_iff_iff, verifyHandshake_iff, verifyHandshake_iff, hpstrlen, hpstr, hinfoHash]

/-- And they are determined by what is expected. -/
theorem sameChecked_of_verifyHandshake {expectedInfoHash : Sha1Hash}
    (h : verifyHandshake msg expectedInfoHash = true)
    (h' : verifyHandshake msg' expectedInfoHash = true) : SameChecked msg msg' := by
  obtain ⟨hpstrlen, hpstr, hinfoHash⟩ := verifyHandshake_iff.mp h
  obtain ⟨hpstrlen', hpstr', hinfoHash'⟩ := verifyHandshake_iff.mp h'
  exact sameChecked_iff.mpr ⟨hpstrlen.trans hpstrlen'.symm,
    List.Vector.toList_injective (hpstr.trans hpstr'.symm), hinfoHash.trans hinfoHash'.symm⟩

/-- What is written names the protocol and the torrent. -/
theorem serializeHandshake_packet (infoHash : Sha1Hash) {peerId : Bytes}
    (hpeerId : 20 ≤ peerId.length) :
    ∃ msg, serializeHandshake infoHash peerId = .ok msg ∧
      (HandshakeMsg.packet msg).pstrlen = Msg.len ∧
      (HandshakeMsg.packet msg).pstr.toList = Msg.protocol ∧
      (HandshakeMsg.packet msg).infoHash = infoHash ∧
      (HandshakeMsg.packet msg).peerId.toList = peerId.take 20 := by
  refine ⟨_, dif_pos hpeerId, ?_⟩
  rw [HandshakePacket.packet_toMsg]
  exact ⟨rfl, rfl, rfl, rfl⟩

/-- A handshake that was written, by its fields. -/
theorem packet_of_serializeHandshake {infoHash : Sha1Hash} {peerId : Bytes} {msg : HandshakeMsg}
    (h : serializeHandshake infoHash peerId = .ok msg) :
    (HandshakeMsg.packet msg).pstrlen = Msg.len ∧
      (HandshakeMsg.packet msg).pstr.toList = Msg.protocol ∧
      (HandshakeMsg.packet msg).infoHash = infoHash ∧
      (HandshakeMsg.packet msg).peerId.toList = peerId.take 20 := by
  by_cases hpeerId : 20 ≤ peerId.length
  · obtain ⟨msg', hmsg, hfields⟩ := serializeHandshake_packet infoHash hpeerId
    obtain rfl := Except.ok.inj (h.symm.trans hmsg)
    exact hfields
  · rw [serializeHandshake, dif_neg hpeerId] at h
    cases h

/-- It is accepted for its torrent. -/
theorem verifyHandshake_of_serializeHandshake {infoHash : Sha1Hash} {peerId : Bytes}
    {msg : HandshakeMsg} (h : serializeHandshake infoHash peerId = .ok msg) :
    verifyHandshake msg infoHash = true := by
  obtain ⟨hpstrlen, hpstr, hinfoHash, _⟩ := packet_of_serializeHandshake h
  exact verifyHandshake_iff.mpr ⟨hpstrlen, hpstr, hinfoHash⟩

/-- **Writer and reader of the handshake agree.**  A handshake that was written for one
torrent is accepted for the same torrent and no other.  The verdict depends on 40 bytes
only, and no other value of any of them is accepted. -/
theorem verifyHandshake_serializeHandshake :
    (∀ (infoHash expectedInfoHash : Sha1Hash) (peerId : Bytes), 20 ≤ peerId.length →
      ∃ msg, serializeHandshake infoHash peerId = .ok msg ∧
        (verifyHandshake msg expectedInfoHash = true ↔ infoHash = expectedInfoHash)) ∧
    (∀ msg msg' : HandshakeMsg, SameChecked msg msg' → ∀ expectedInfoHash,
      verifyHandshake msg expectedInfoHash = verifyHandshake msg' expectedInfoHash) ∧
    ∀ (msg : HandshakeMsg) (expectedInfoHash : Sha1Hash),
      verifyHandshake msg expectedInfoHash = true → ∀ i, Checked i.val → ∀ byte,
        byte ≠ msg.get i → verifyHandshake (msg.set i byte) expectedInfoHash = false := by
  refine ⟨fun infoHash expectedInfoHash peerId hpeerId => ?_,
    fun msg msg' h => h.verifyHandshake_eq, fun msg expectedInfoHash h i hi byte hbyte => ?_⟩
  · obtain ⟨msg, hmsg, hpstrlen, hpstr, hinfoHash, _⟩ := serializeHandshake_packet infoHash hpeerId
    refine ⟨msg, hmsg, ?_⟩
    rw [verifyHandshake_iff, and_iff_right hpstrlen, and_iff_right hpstr, hinfoHash]
  · rw [← Bool.not_eq_true]
    intro h'
    have hsame := sameChecked_of_verifyHandshake h' h i hi
    rw [List.Vector.get_set_same] at hsame
    exact hbyte hsame

/-- The handshake for a hash of ones: accepted, also with another reserved byte, but not
with another byte in the hash. -/
theorem verifyHandshake_serializeHandshake_ones :
    let infoHash : Sha1Hash := List.Vector.replicate 20 1
    ∃ msg, serializeHandshake infoHash (List.replicate 20 45) = .ok msg ∧
      verifyHandshake msg infoHash = true ∧
      verifyHandshake (msg.set ⟨20, by decide⟩ 1) infoHash = true ∧
      verifyHandshake (msg.set ⟨40, by decide⟩ (msg.get ⟨40, by decide⟩ + 1)) infoHash = false := by
  intro infoHash
  obtain ⟨msg, hmsg, hiff⟩ := verifyHandshake_serializeHandshake.1 infoHash infoHash
    (List.replicate 20 45) (by decide)
  have haccept : verifyHandshake msg infoHash = true := hiff.mpr rfl
  refine ⟨msg, hmsg, haccept, ?_, ?_⟩
  · have hsame : SameChecked (msg.set ⟨20, by decide⟩ 1) msg := by
      intro i hi
      refine List.Vector.get_set_of_ne (fun heq => ?_) 1
      subst heq
      revert hi
      unfold Checked
      decide
    rw [verifyHandshake_serializeHandshake.2.1 _ _ hsame, haccept]
  · exact verifyHandshake_serializeHandshake.2.2 msg infoHash haccept ⟨40, by decide⟩
      (Or.inr (by decide)) _ (by grind)

end BitTorrentClient
