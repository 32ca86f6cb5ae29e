/-
  App/Swarm/Wire.lean --- what a session writes to its peer.

  The bytes of the writes that succeeded make one stream.  A session passes its first two
  points once, so the stream is a handshake, if that was written, and then messages; and
  the messages are framed as the session's own reader expects them, so that reading the
  stream of one client as another does gives back what was meant.  The blocks that are
  asked for come from the manager, which hands out blocks of the torrent only.
-/
import BitTorrentClient.App.PeerSession.Framing
import BitTorrentClient.App.Swarm.Once
import BitTorrentClient.Core.Handshake

set_option autoImplicit false

namespace BitTorrentClient

open Library

namespace PeerSession

variable {config : SessionConfig} {s s' : PeerSession} {event : Event}
  {history : List (Transition PeerSession Event)}

/-! ## The stream -/

/-- The bytes that the step wrote, if it wrote them all. -/
def wroteBytes (t : Transition PeerSession Event) : Bytes :=
  match t.label with
  | .io (.wrote true _) => t.source.outgoing.getD []
  | _ => []

/-- What a session has written, earliest first. -/
def bytesWritten : List (Transition PeerSession Event) → Bytes
  | [] => []
  | t :: older => bytesWritten older ++ wroteBytes t

/-- The request for a block, as a message. -/
def requestOf (block : Block) : Sent :=
  .message Msg.Id.request.toByte
    (htonl block.pieceIndex ++ htonl block.offset ++ htonl block.length)

/-- The message that says that we want something. -/
def interestedOf : Sent := .message Msg.Id.interested.toByte []

/-- The message that the step wrote. -/
def wroteMessage (t : Transition PeerSession Event) : Option Sent :=
  match t.source.point, t.label with
  | .writingInterested, .io (.wrote true _) => some interestedOf
  | .writingRequest block _, .io (.wrote true _) => some (requestOf block)
  | _, _ => none

/-- The messages that a session has written, earliest first. -/
def sent : List (Transition PeerSession Event) → List Sent
  | [] => []
  | t :: older => sent older ++ (wroteMessage t).toList

/-- The session has not come past its handshake. -/
def shaking (s : PeerSession) : Bool :=
  match s.point with
  | .connecting | .writingHandshake _ => true
  | _ => false

/-- The rest of what is written are messages. -/
theorem wroteBytes_eq (t : Transition PeerSession Event)
    (hphase : ∀ handshake, t.source.point ≠ .writingHandshake handshake) :
    wroteBytes t = (wroteMessage t).toList.flatMap Sent.encode := by
  obtain ⟨s, label, s'⟩ := t
  cases label with
  | call fate answer => simp [wroteBytes, wroteMessage]
  | io event =>
    cases event with
    | wrote ok len =>
      cases ok with
      | false => simp [wroteBytes, wroteMessage]
      | true =>
        have hbytes : wroteBytes ⟨s, .io (.wrote true len), s'⟩ = s.outgoing.getD [] := rfl
        rw [hbytes, outgoing, wroteMessage]
        cases hpoint : s.point with
        | writingHandshake handshake => exact absurd hpoint (hphase handshake)
        | writingInterested => simp [interestedMsg_eq, interestedOf]
        | writingRequest block left => simp [requestMsg_eq, requestOf]
        | _ => rfl
    | connected connection => simp [wroteBytes, wroteMessage]
    | read bytes => simp [wroteBytes, wroteMessage]
    | endpoint known => simp [wroteBytes, wroteMessage]

/-- The first two points write no message. -/
theorem wroteMessage_of_shaking {t : Transition PeerSession Event}
    (h : t.source.shaking = true) : wroteMessage t = none := by
  unfold shaking at h
  unfold wroteMessage
  split
  · rename_i hpoint _
    rw [hpoint] at h
    cases h
  · rename_i hpoint _
    rw [hpoint] at h
    cases h
  · rfl

/-! ## The first two points -/

theorem shaking_loopHead (s : PeerSession) : s.loopHead.shaking = false := by
  rcases loopHead_cases s with h | h
  · rw [h]
    rfl
  · rw [h]
    rfl

theorem shaking_requestLoop (s : PeerSession) (n : Nat) :
    (s.requestLoop n).shaking = false := by
  cases n with
  | zero => exact shaking_loopHead s
  | succ n => rfl

theorem shaking_returnLoop (s : PeerSession) (after : AfterReturn) (blocks : List Block) :
    (s.returnLoop after blocks).shaking = false := by
  cases blocks with
  | cons block rest => rfl
  | nil =>
    cases after with
    | request left => exact shaking_requestLoop s left
    | finish => rfl

theorem Handled.shaking {message : Option (Msg.Id × Bytes)} (h : s.Handled config message s') :
    s'.shaking = false := by
  cases h with
  | choke => exact shaking_loopHead _
  | unchoke => exact shaking_requestLoop _ _
  | bitfield => rfl
  | piece _ => rfl
  | malformed _ => rfl
  | ignored _ => exact shaking_loopHead _

theorem Answered.shaking {answer : PieceManager.Answer} (h : s.Answered answer s') :
    s'.shaking = false := by
  cases h with
  | accepted _ => exact shaking_requestLoop _ _
  | refused _ => exact shaking_loopHead _
  | threw _ => rfl
  | nothing _ => exact shaking_requestLoop _ _
  | block _ => rfl
  | returned _ => exact shaking_returnLoop _ _ _

/-- A connection attempt ends with the handshake about to be written. -/
theorem connectDone_point {connection : Connection}
    (h : s.connectDone config connection = some s') :
    ∃ handshake, serializeHandshake config.infoHash config.peerId = .ok handshake ∧
      s'.point = .writingHandshake handshake := by
  unfold connectDone at h
  dsimp only at h
  split at h
  · rename_i handshake hserialize
    cases h
    exact ⟨handshake, hserialize, rfl⟩
  · cases h

/-- And nothing leads back to the first two points. -/
theorem shaking_of_step (h : s.step config event = some s') :
    s'.shaking = false ∨ s.point = .connecting ∧ ∃ handshake,
      serializeHandshake config.infoHash config.peerId = .ok handshake ∧
        s'.point = .writingHandshake handshake := by
  cases event with
  | call fate answer => exact Or.inl (answered_answered h).shaking
  | io event =>
    change s.resume config event = some s' at h
    unfold resume at h
    split at h
    · rename_i hpoint
      exact Or.inr ⟨hpoint, connectDone_point h⟩
    · cases h
      refine Or.inl ?_
      unfold handshakeWritten
      split
      · exact shaking_loopHead _
      · split
        · exact shaking_loopHead _
        · rfl
    · refine Or.inl ?_
      unfold handshakeRead at h
      split at h
      · cases h
        exact shaking_loopHead _
      · split at h
        · split at h
          · cases h
            exact shaking_loopHead _
          · cases h
            rfl
        · cases h
    · rename_i known _
      cases h
      refine Or.inl ?_
      cases known with
      | true => exact shaking_loopHead _
      | false => rfl
    · refine Or.inl ?_
      unfold lengthRead at h
      split at h
      · cases h
        exact shaking_returnLoop _ _ _
      · split at h
        · cases h
          split
          · exact shaking_loopHead s
          · rfl
        · cases h
    · refine Or.inl ?_
      unfold payloadRead at h
      split at h
      · cases h
        exact shaking_returnLoop _ _ _
      · cases h
      · split at h
        · cases h
          exact (handleMessage_handled _ _).shaking
        · cases h
    · cases h
      exact Or.inl (shaking_loopHead _)
    · rename_i ok len _
      cases h
      refine Or.inl ?_
      unfold requestWritten
      split
      · exact shaking_returnLoop _ _ _
      · exact shaking_requestLoop _ _
    · cases h

/-! ## The stream of a run -/

/-- The session is at one of its first two points and has written nothing, or it is past
them, and has written a handshake or not, and then its messages. -/
inductive Wrote (config : SessionConfig) (history : List (Transition PeerSession Event))
    (s : PeerSession) : Prop
  | connecting : s.point = .connecting → bytesWritten history = [] → sent history = [] →
      Wrote config history s
  | handshaking {handshake : HandshakeMsg} : s.point = .writingHandshake handshake →
      serializeHandshake config.infoHash config.peerId = .ok handshake →
      bytesWritten history = [] → sent history = [] → Wrote config history s
  | past {opening : Bytes} : s.shaking = false →
      (opening = [] ∨ ∃ handshake : HandshakeMsg,
        serializeHandshake config.infoHash config.peerId = .ok handshake ∧
          opening = handshake.toList) →
      bytesWritten history = opening ++ (sent history).flatMap Sent.encode → Wrote config history s

theorem Wrote.step (h : Wrote config history s) (hstep : s.step config event = some s') :
    Wrote config (⟨s, event, s'⟩ :: history) s' := by
  have hphase := shaking_of_step hstep
  cases h with
  | connecting hpoint hwritten hsent =>
    have hnone : wroteMessage ⟨s, event, s'⟩ = none :=
      wroteMessage_of_shaking (by rw [shaking, hpoint])
    have hbytes : wroteBytes ⟨s, event, s'⟩ = [] := by
      rw [wroteBytes_eq _ (by simp [hpoint]), hnone]
      rfl
    have hwritten' : bytesWritten (⟨s, event, s'⟩ :: history) = [] := by
      rw [bytesWritten, hwritten, hbytes]
      rfl
    have hsent' : sent (⟨s, event, s'⟩ :: history) = [] := by
      rw [sent, hsent, hnone]
      rfl
    rcases hphase with hpast | ⟨_, handshake, hserialize, hpoint'⟩
    · exact .past hpast (Or.inl rfl) (by rw [hwritten', hsent']; rfl)
    · exact .handshaking hpoint' hserialize hwritten' hsent'
  | @handshaking handshake hpoint hserialize hwritten hsent =>
    have hnone : wroteMessage ⟨s, event, s'⟩ = none :=
      wroteMessage_of_shaking (by rw [shaking, hpoint])
    have hsent' : sent (⟨s, event, s'⟩ :: history) = [] := by
      rw [sent, hsent, hnone]
      rfl
    have hpast : s'.shaking = false := by
      rcases hphase with hpast | ⟨hconnecting, _⟩
      · exact hpast
      · rw [hpoint] at hconnecting
        cases hconnecting
    have hopening : bytesWritten (⟨s, event, s'⟩ :: history) =
        wroteBytes ⟨s, event, s'⟩ ++ (sent (⟨s, event, s'⟩ :: history)).flatMap Sent.encode := by
      rw [bytesWritten, hwritten, hsent']
      exact (List.append_nil _).symm
    refine .past hpast ?_ hopening
    unfold wroteBytes
    split
    · rw [outgoing, hpoint]
      exact Or.inr ⟨handshake, hserialize, rfl⟩
    · exact Or.inl rfl
  | past hpast hopening hwritten =>
    have hpast' : s'.shaking = false := by
      rcases hphase with hpast' | ⟨hconnecting, _⟩
      · exact hpast'
      · rw [shaking, hconnecting] at hpast
        cases hpast
    refine .past hpast' hopening ?_
    have hbytes : wroteBytes ⟨s, event, s'⟩ =
        (wroteMessage ⟨s, event, s'⟩).toList.flatMap Sent.encode := by
      refine wroteBytes_eq _ fun handshake hpoint => ?_
      replace hpoint : s.point = .writingHandshake handshake := hpoint
      rw [shaking, hpoint] at hpast
      cases hpast
    rw [bytesWritten, hwritten, hbytes, sent, List.flatMap_append, List.append_assoc]

theorem wrote_of_run (hrun : (machine config).Run history s) : Wrote config history s := by
  induction hrun with
  | start hinit =>
    rw [show _ = new from hinit]
    exact .connecting rfl rfl rfl
  | snoc _ hlast ih => exact ih.step hlast

/-- Every message that is written says that we want something, or asks for a block. -/
theorem mem_sent {item : Sent} (h : item ∈ sent history) :
    item = interestedOf ∨ ∃ t ∈ history, ∃ block, requested t = some block ∧
      item = requestOf block := by
  induction history with
  | nil => exact absurd h List.not_mem_nil
  | cons t older ih =>
    rcases List.mem_append.mp h with hold | hnew
    · rcases ih hold with hinterested | ⟨u, hu, hblock⟩
      · exact Or.inl hinterested
      · exact Or.inr ⟨u, List.mem_cons_of_mem t hu, hblock⟩
    · have hmessage := Option.mem_toList.mp hnew
      unfold wroteMessage at hmessage
      split at hmessage
      · cases hmessage
        exact Or.inl rfl
      · rename_i block _ _ hpoint hlabel
        cases hmessage
        exact Or.inr ⟨t, List.mem_cons_self, block, by rw [requested, hpoint, hlabel], rfl⟩
      · cases hmessage

theorem fits_of_mem_sent {item : Sent} (h : item ∈ sent history) : item.Fits := by
  rcases mem_sent h with rfl | ⟨_, _, block, _, rfl⟩
  · change [].length + 1 < 2 ^ 32
    decide
  · change (htonl block.pieceIndex ++ htonl block.offset ++ htonl block.length).length + 1 < 2 ^ 32
    simp [htonl]

/-- The reader of a session, on what a session has written behind the handshake. -/
theorem messages_sent (history : List (Transition PeerSession Event)) :
    messages ((sent history).flatMap Sent.encode) = (sent history).filterMap Sent.content := by
  have hcut : lengthHeader.CutOff [] := Or.inl (by decide)
  have hall := messages_encode (fun item (hitem : item ∈ sent history) => fits_of_mem_sent hitem)
    hcut
  rwa [List.append_nil] at hall

/-! ## What the peer makes of it -/

/-- Take a request apart, with the reader of the client. -/
def readBlock (payload : Bytes) : Except StdException Block := do
  let reader : ByteReader := { buffer := payload }
  let (pieceIndex, reader) ← reader.readU32
  let (offset, reader) ← reader.readU32
  let (length, _) ← reader.readU32
  pure ⟨pieceIndex, offset, length⟩

/-- The blocks that messages ask for. -/
def askedFor (messages : List (UInt8 × Bytes)) : List Block :=
  messages.filterMap fun message =>
    if message.1 = Msg.Id.request.toByte then (readBlock message.2).toOption else none

/-- The blocks whose requests were written, earliest first. -/
def asked (history : List (Transition PeerSession Event)) : List Block :=
  (history.filterMap requested).reverse

/-- The fields can be written in four bytes each. -/
structure FitsWire (block : Block) : Prop where
  pieceIndex : block.pieceIndex < 2 ^ 32
  offset : block.offset < 2 ^ 32
  length : block.length < 2 ^ 32

/-- A request is read as it was meant. -/
theorem readBlock_request {block : Block} (h : FitsWire block) :
    readBlock (htonl block.pieceIndex ++ htonl block.offset ++ htonl block.length) = .ok block := by
  have hread : readBlock (htonl block.pieceIndex ++ htonl block.offset ++ htonl block.length) =
      .ok ⟨ntohl (htonl block.pieceIndex), ntohl (htonl block.offset),
        ntohl (htonl block.length)⟩ := rfl
  rw [hread, ntohl_htonl h.pieceIndex, ntohl_htonl h.offset, ntohl_htonl h.length]

/-- The blocks a step asks for, as the peer reads them. -/
theorem askedFor_wroteMessage {t : Transition PeerSession Event}
    (hfits : ∀ block, requested t = some block → FitsWire block) :
    askedFor ((wroteMessage t).toList.filterMap Sent.content) = (requested t).toList := by
  unfold wroteMessage
  split
  · rename_i hpoint _
    rw [requested, hpoint]
    rfl
  · rename_i block _ _ hpoint hlabel
    have hrequested : requested t = some block := by rw [requested, hpoint, hlabel]
    have hread := readBlock_request (hfits block hrequested)
    rw [hrequested]
    simp only [askedFor, requestOf, Option.toList_some, List.filterMap_cons, List.filterMap_nil,
      Sent.content, if_true, hread, Except.toOption]
  · rename_i hrequest
    have hnone : requested t = none := by
      unfold requested
      split
      · rename_i hpoint hlabel
        exact absurd hlabel (hrequest _ _ _ hpoint)
      · rfl
    rw [hnone]
    rfl

/-- What the peer is asked for, in order. -/
theorem askedFor_sent (hfits : ∀ t ∈ history, ∀ block, requested t = some block → FitsWire block) :
    askedFor ((sent history).filterMap Sent.content) = asked history := by
  induction history with
  | nil => rfl
  | cons t older ih =>
    have hnow := askedFor_wroteMessage (hfits t List.mem_cons_self)
    have hbefore := ih fun u hu => hfits u (List.mem_cons_of_mem t hu)
    unfold askedFor at hnow hbefore ⊢
    rw [sent, List.filterMap_append, List.filterMap_append, hbefore, hnow, asked, asked,
      List.filterMap_cons]
    cases requested t with
    | none => exact List.append_nil _
    | some block => exact (List.reverse_cons).symm

end PeerSession

namespace Swarm

variable {ι : Type} [DecidableEq ι] {sha1 : Bytes → Sha1Hash} {metadata : TorrentMetadata}
  {peerId : Bytes} {w w' : Swarm ι} {i : ι}
  {history : List (Transition (Swarm ι) (ι × Event))}

/-- A block that is handed out is a block of the torrent, and can be written. -/
theorem lent_block {fate : DiskFate} {block : Block}
    (hrun : (machine sha1 metadata peerId).Run history w)
    (hstep : (machine sha1 metadata peerId).step w (i, .call fate (.block (some block))) w') :
    PieceManager.BlockOf metadata block ∧ PeerSession.FitsWire block := by
  obtain ⟨action, hfire⟩ := hstep
  have hsofar := manager_run hrun
  have hs := PieceManager.shaped_of_run hsofar
  rcases fire_cases hfire with ⟨_, _, hio, _⟩ | ⟨_, op, _, m, _, hcall, _, happly, _, _⟩
  · cases hio
  · obtain ⟨rfl, rfl⟩ := Event.call.inj hcall
    have hdid : w.manager.Step sha1 (op, .block (some block)) m :=
      @PieceManager.machine_step sha1 metadata _ _ _ happly
    cases hdid with
    | requested hr =>
      cases hr with
      | @block n bit _ _ _ _ _ hout =>
        obtain ⟨k, len, next, hblock⟩ := hout.block hs (PieceManager.aligned_of_run hsofar)
        have hof := hblock.blockOf hs
        have hlen := (TorrentMetadata.Info.getPieceLength_le hblock.length).2
        have hin := hblock.inside
        refine ⟨hof, ⟨hout.key.1 ▸ u32_lt _, ?_, ?_⟩⟩
        · rw [hblock.shape]
          dsimp only
          omega
        · rw [hblock.shape]
          dsimp only
          omega

/-- Whatever request a session is writing, it is for such a block. -/
theorem writing_of_run (hrun : (machine sha1 metadata peerId).Run history w) :
    ∀ j block left, (w.sessions j).point = .writingRequest block left →
      PieceManager.BlockOf metadata block ∧ PeerSession.FitsWire block := by
  induction hrun with
  | start hinit =>
    obtain ⟨disk, tracked, rfl⟩ := hinit
    intro j block left hpoint
    cases hpoint
  | @snoc history w w' l hsofar hlast ih =>
    intro j block left hpoint
    obtain ⟨hmoves, hothers⟩ := turn_moves hlast
    by_cases heq : j = l.1
    · subst heq
      obtain ⟨fate, hevent⟩ := hmoves.writes hpoint
      have hstep : (machine sha1 metadata peerId).step w
          (l.1, .call fate (.block (some block))) w' := hevent ▸ hlast
      exact lent_block hsofar hstep
    · rw [hothers j heq] at hpoint
      exact ih j block left hpoint

/-- So were all the requests that were written. -/
theorem requested_of_run (hrun : (machine sha1 metadata peerId).Run history w) :
    ∀ t ∈ sessionHistory i history, ∀ block, PeerSession.requested t = some block →
      PieceManager.BlockOf metadata block ∧ PeerSession.FitsWire block := by
  intro t ht block hrequested
  obtain ⟨u, hu, hmap⟩ := List.mem_filterMap.mp ht
  obtain ⟨event, _, rfl⟩ := Option.map_eq_some_iff.mp hmap
  obtain ⟨left, _, hpoint, _⟩ := PeerSession.requested_eq_some hrequested
  obtain ⟨_, earlier, hearlier, _⟩ := hrun.of_mem hu
  exact writing_of_run hearlier i block left hpoint

/-- **What a client sends, a client can read.**  In every run of any number of sessions,
whatever a session has written as a whole is a handshake for the torrent, or no handshake,
and then a stream that the reader of a session takes apart into messages.  These say
INTERESTED, or ask for blocks; the blocks read out of them are those that the session asked
for, in order, and each of them is a block of the torrent. -/
theorem bytesWritten_readable (hrun : (machine sha1 metadata peerId).Run history w) (i : ι) :
    ∃ opening stream, PeerSession.bytesWritten (sessionHistory i history) = opening ++ stream ∧
      (opening = [] ∨ ∃ handshake : HandshakeMsg,
        serializeHandshake metadata.infoHash peerId = .ok handshake ∧
          opening = handshake.toList ∧ verifyHandshake handshake metadata.infoHash = true) ∧
      (∀ message ∈ messages stream,
        message = (Msg.Id.interested.toByte, []) ∨ message.1 = Msg.Id.request.toByte) ∧
      PeerSession.askedFor (messages stream) =
        PeerSession.asked (sessionHistory i history) ∧
      ∀ block ∈ PeerSession.asked (sessionHistory i history),
        PieceManager.BlockOf metadata block := by
  have hblocks := requested_of_run (i := i) hrun
  have hmessages := PeerSession.messages_sent (sessionHistory i history)
  have haskedFor := PeerSession.askedFor_sent fun t ht block hrequested =>
    (hblocks t ht block hrequested).2
  have hasked : ∀ block ∈ PeerSession.asked (sessionHistory i history),
      PieceManager.BlockOf metadata block := by
    intro block hblock
    obtain ⟨t, ht, hrequested⟩ := List.mem_filterMap.mp (List.mem_reverse.mp hblock)
    exact (hblocks t ht block hrequested).1
  have hkinds : ∀ message ∈ messages
      ((PeerSession.sent (sessionHistory i history)).flatMap PeerSession.Sent.encode),
        message = (Msg.Id.interested.toByte, []) ∨ message.1 = Msg.Id.request.toByte := by
    intro message hmessage
    rw [hmessages] at hmessage
    obtain ⟨item, hitem, hcontent⟩ := List.mem_filterMap.mp hmessage
    rcases PeerSession.mem_sent hitem with rfl | ⟨_, _, block, _, rfl⟩
    · exact Or.inl (Option.some.inj hcontent).symm
    · exact Or.inr (congrArg Prod.fst (Option.some.inj hcontent)).symm
  rw [← hmessages] at haskedFor
  cases PeerSession.wrote_of_run (session_run hrun i) with
  | connecting _ hwritten hsent =>
    rw [hsent] at haskedFor hkinds
    exact ⟨[], [], hwritten, Or.inl rfl, hkinds, haskedFor, hasked⟩
  | handshaking _ _ hwritten hsent =>
    rw [hsent] at haskedFor hkinds
    exact ⟨[], [], hwritten, Or.inl rfl, hkinds, haskedFor, hasked⟩
  | past _ hopening hwritten =>
    refine ⟨_, _, hwritten, hopening.imp_right fun ⟨handshake, hserialize, hbytes⟩ => ?_, hkinds,
      haskedFor, hasked⟩
    exact ⟨handshake, hserialize, hbytes, verifyHandshake_of_serializeHandshake hserialize⟩

/-- The handshake, INTERESTED and one request: 90 bytes of each session, from which its request
is read. -/
theorem bytesWritten_readable_twoPieces :
    ∃ history, ∃ w : Swarm Bool,
      (machine PieceManager.sampleSha1 PieceManager.zeroSevenSeven samplePeerId).Run history w ∧
      ∀ i, ∃ opening stream,
        PeerSession.bytesWritten (sessionHistory i history) = opening ++ stream ∧
        opening.length + stream.length = 90 ∧
        PeerSession.askedFor (messages stream) = [if i then ⟨0, 0, 2⟩ else ⟨1, 0, 1⟩] := by
  have hfire : (fireAll PieceManager.sampleSha1
      (sessionConfig PieceManager.zeroSevenSeven samplePeerId)
      (new PieceManager.zeroSevenSeven PieceManager.emptyFile true) download []).any (fun r =>
        decide (∀ i, (PeerSession.bytesWritten (sessionHistory i r.1)).length = 90 ∧
          PeerSession.asked (sessionHistory i r.1) =
            [if i then ⟨0, 0, 2⟩ else ⟨1, 0, 1⟩])) = true := by
    decide +kernel
  obtain ⟨history, w, hrun, hchecks⟩ := exists_run hfire
  refine ⟨history, w, hrun, fun i => ?_⟩
  obtain ⟨hlength, hasked⟩ := of_decide_eq_true hchecks i
  obtain ⟨opening, stream, hwritten, _, _, haskedFor, _⟩ := bytesWritten_readable hrun i
  rw [hwritten, List.length_append] at hlength
  exact ⟨opening, stream, hwritten, hlength, haskedFor.trans hasked⟩

end Swarm

end BitTorrentClient
