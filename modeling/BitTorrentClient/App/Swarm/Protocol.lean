/-
  App/Swarm/Protocol.lean --- three rules of the protocol, for any session of a swarm.

  What a session is left with depends on the answers of the manager, and these depend
  on what every other session did before.  The conditions found for one session are
  stated here over the state of the swarm: where the session's own conditions speak of
  the manager's answer, these say what the manager finds.
-/
import BitTorrentClient.App.Swarm.Views

set_option autoImplicit false

namespace BitTorrentClient

open Library

namespace Swarm

variable {ι : Type} {sha1 : Bytes → Sha1Hash} {metadata : TorrentMetadata}
  {peerId : Bytes} {w w' : Swarm ι} {i : ι} {event : Event}
  {history : List (Transition (Swarm ι) (ι × Event))}

/-- The session handles an UNCHOKE, or delivers a block that the manager takes. -/
def BeginsAsking (sha1 : Bytes → Sha1Hash) (w : Swarm ι) (l : ι × Event) : Prop :=
  match (w.sessions l.1).point, l.2 with
  | .readingPayload _, .io (.read (some (msgId :: _))) => Msg.Id.ofByte msgId = some .unchoke
  | .delivering index offset data, .call _ _ => w.manager.Takes sha1 index offset data
  | _, _ => False

/-- A CHOKE finds the session's set empty, and a block that the manager refuses is not in
it. -/
def KeepsLive (sha1 : Bytes → Sha1Hash) (w : Swarm ι) (l : ι × Event) : Prop :=
  match (w.sessions l.1).point, l.2 with
  | .readingPayload _, .io (.read (some (msgId :: _))) =>
      Msg.Id.ofByte msgId = some .choke → ∀ k, ¬ (w.sessions l.1).pendingBlocks.Has k
  | .delivering index offset data, .call _ _ =>
      w.manager.Refuses sha1 index offset data →
        ¬ (w.sessions l.1).pendingBlocks.Has (blockKey index offset)
  | _, _ => True

variable [DecidableEq ι]

/-- A condition on what a session went through, as a condition on the steps of the
swarm. -/
theorem always_session {G : List (Transition PeerSession Event) → Transition PeerSession Event →
    Prop} :
    Machine.Always G (sessionHistory i history) ↔
      Machine.Always (fun older t => t.label.1 = i →
        G (sessionHistory i older) ⟨t.source.sessions i, t.label.2, t.target.sessions i⟩)
        history := by
  refine Machine.always_project.trans (forall_congr' fun t => forall_congr' fun older =>
    forall_congr' fun _ => ?_)
  refine ⟨fun h heq => h t.label.2 (if_pos heq), fun h l hl => ?_⟩
  unfold eventOf at hl
  split at hl
  · rename_i heq
    cases hl
    exact h heq
  · cases hl

/-! ## The steps of a session, by what the manager finds -/

theorem received_read {s s' : PeerSession} {len : Nat} {msgId : UInt8} {payload : Bytes}
    (hpoint : s.point = .readingPayload len) :
    PeerSession.received ⟨s, .io (.read (some (msgId :: payload))), s'⟩ =
      (Msg.Id.ofByte msgId).map fun id => (id, payload) := by
  rw [PeerSession.received, hpoint]

theorem received_none {s s' : PeerSession} {event : Event}
    (h : ∀ len msgId payload, s.point = .readingPayload len →
      event = .io (.read (some (msgId :: payload))) → False) :
    PeerSession.received ⟨s, event, s'⟩ = none := by
  unfold PeerSession.received
  split
  · rename_i hpoint hevent
    exact absurd hevent (h _ _ _ hpoint)
  · rfl

theorem delivered_none {s s' : PeerSession} {event : Event}
    (h : ∀ index offset data fate answer, s.point = .delivering index offset data →
      event = .call fate answer → False) :
    PeerSession.delivered ⟨s, event, s'⟩ = none := by
  unfold PeerSession.delivered
  split
  · rename_i hpoint hevent
    exact absurd hevent (h _ _ _ _ _ hpoint)
  · rfl

/-- The session begins to request blocks. -/
theorem beginsAsking_iff (hstep : (machine sha1 metadata peerId).step w (i, event) w') :
    PeerSession.BeginsAsking ⟨w.sessions i, event, w'.sessions i⟩ ↔
      w.BeginsAsking sha1 (i, event) := by
  unfold BeginsAsking PeerSession.BeginsAsking
  dsimp only
  split
  · rename_i msgId payload hpoint
    rw [received_read hpoint]
    simp [PeerSession.delivered]
  · rename_i index offset data fate answer hpoint
    obtain ⟨fate', r, hcall, hd⟩ := delivery_of_step hpoint hstep
    cases hcall
    rw [← hd.accepted_iff, PeerSession.received, PeerSession.delivered, hpoint]
    simp
  · rename_i hmessage hcall
    rw [received_none hmessage, delivered_none hcall]
    simp

/-- The session leaves no dead request in its set. -/
theorem keepsLive_iff (hstep : (machine sha1 metadata peerId).step w (i, event) w') :
    PeerSession.KeepsLive ⟨w.sessions i, event, w'.sessions i⟩ ↔ w.KeepsLive sha1 (i, event) := by
  unfold KeepsLive PeerSession.KeepsLive
  dsimp only
  split
  · rename_i msgId payload hpoint
    rw [received_read hpoint]
    simp [PeerSession.delivered]
  · rename_i index offset data fate answer hpoint
    obtain ⟨fate', r, hcall, hd⟩ := delivery_of_step hpoint hstep
    cases hcall
    rw [← hd.refused_iff, PeerSession.received, PeerSession.delivered, hpoint]
    simp
  · rename_i hmessage hcall
    rw [received_none hmessage, delivered_none hcall]
    simp

/-! ## The bitfield -/

/-- If the session is about to call `requestBlock`, it passes as many bytes as the
bitfield of the torrent has, and the manager reads none past the last. -/
def AsksSized (metadata : TorrentMetadata) (i : ι) (w : Swarm ι) : Prop :=
  ∀ fate bits, (w.sessions i).operation fate = some (.requestBlock bits) →
    bits.length = (metadata.numPieces + 7) / 8 ∧ w.manager.bitfield.length ≤ bits.length

/-- If the session `i` begins to request blocks, a bitfield of the right size has arrived
from its peer. -/
def BeginsWithBitfield (sha1 : Bytes → Sha1Hash) (metadata : TorrentMetadata) (peerId : Bytes)
    (i : ι) (older : List (Transition (Swarm ι) (ι × Event)))
    (t : Transition (Swarm ι) (ι × Event)) : Prop :=
  t.label.1 = i → t.source.BeginsAsking sha1 t.label →
    PeerSession.bitfieldArrived (sessionConfig metadata peerId) (sessionHistory i older) = true

omit [DecidableEq ι] in
/-- The manager's bitfield has the size that the peer's has to have. -/
theorem asksSized_iff_sized (hshaped : w.manager.Shaped metadata) :
    AsksSized metadata i w ↔
      PeerSession.Sized (sessionConfig metadata peerId) (w.sessions i) := by
  constructor
  · intro h left hpoint
    exact (h .written (w.sessions i).peerBitfield (by rw [PeerSession.operation, hpoint])).1
  · intro h fate bits hop
    unfold PeerSession.operation at hop
    split at hop
    · cases hop
    · rename_i left hpoint
      cases hop
      have hsize := h left hpoint
      exact ⟨hsize, hshaped.bitfield_length.trans_le hsize.ge⟩
    · cases hop
    · cases hop

/-- **The size of the bitfield.**  In every run, a session asks with a bitfield of the
right size only, if and only if the torrent has no pieces or the session begins to
request blocks only after a bitfield of the right size has arrived. -/
theorem bitfield_sized_iff (hrun : (machine sha1 metadata peerId).Run history w) (i : ι) :
    Machine.Always (fun _ t => AsksSized metadata i t.target) history ↔
      metadata.numPieces = 0 ∨
        Machine.Always (BeginsWithBitfield sha1 metadata peerId i) history := by
  have hview : PeerSession.AsksSized (sessionConfig metadata peerId) (sessionHistory i history) ↔
      Machine.Always (fun _ t => AsksSized metadata i t.target) history := by
    refine (hrun.always_view (refines_session i) (session_init i)
      (P := fun _ s => PeerSession.Sized (sessionConfig metadata peerId) s) ?_).trans ?_
    · intro s hinit left hpoint
      cases hinit
      cases hpoint
    · refine hrun.always_congr fun older t hsofar hstep => ?_
      have hshaped := PieceManager.shaped_of_run (manager_run (hsofar.snoc hstep))
      exact (asksSized_iff_sized hshaped).symm
  have hguard : Machine.Always (PeerSession.BeginsWithBitfield (sessionConfig metadata peerId))
        (sessionHistory i history) ↔
      Machine.Always (BeginsWithBitfield sha1 metadata peerId i) history := by
    refine always_session.trans (hrun.always_congr fun older t _ hstep => ?_)
    refine forall_congr' fun heq => ?_
    subst heq
    exact imp_congr (beginsAsking_iff hstep) Iff.rfl
  rw [← hview, ← hguard]
  exact PeerSession.asksSized_iff (session_run hrun i)

/-- The same as a computation. -/
def asksSizedCheck (metadata : TorrentMetadata) (i : ι) (w : Swarm ι) : Bool :=
  match (w.sessions i).point with
  | .requesting _ =>
      decide ((w.sessions i).peerBitfield.length = (metadata.numPieces + 7) / 8 ∧
        w.manager.bitfield.length ≤ (w.sessions i).peerBitfield.length)
  | _ => true

omit [DecidableEq ι] in
theorem asksSizedCheck_iff : asksSizedCheck metadata i w = true ↔ AsksSized metadata i w := by
  unfold asksSizedCheck AsksSized PeerSession.operation
  cases (w.sessions i).point <;> simp

instance : Decidable (AsksSized metadata i w) := decidable_of_iff _ asksSizedCheck_iff

/-- The manager of a torrent with pieces reads behind the end of an empty vector. -/
theorem requestBlock_nil {m : PieceManager} {byte : UInt8} {rest : Bytes}
    (h : m.bitfield = byte :: rest) : m.requestBlock [] = .error .outOfRange := by
  rw [PieceManager.requestBlock, h, List.length_cons, List.range_succ_eq_map]
  rfl

/-- A session that is unchoked after its peer has sent the bitfield. -/
def unchokedLast : List (Unit × Action) :=
  (opening oneBlock.infoHash [128]).map fun action => ((), action)

/-- A session that is unchoked by a peer that sends no bitfield. -/
def unchokedFirst : List (Unit × Action) :=
  let unchoke : List Action :=
    [.io (.read (some (htonl 1))), .io (.read (some [Msg.Id.unchoke.toByte]))]
  ((opening oneBlock.infoHash []).take 4 ++ unchoke).map fun action => ((), action)

theorem bitfield_sized_iff_unchokedLast :
    ∃ history, ∃ w : Swarm Unit,
      (machine PieceManager.sampleSha1 oneBlock samplePeerId).Run history w ∧
      (w.sessions ()).point = .requesting 31 ∧ AsksSized oneBlock () w ∧
      Machine.Always (BeginsWithBitfield PieceManager.sampleSha1 oneBlock samplePeerId ())
        history := by
  have hfire : (fireAll PieceManager.sampleSha1 (sessionConfig oneBlock samplePeerId)
      (new oneBlock PieceManager.emptyFile true) unchokedLast []).any (fun r =>
        r.1.all (fun t => decide (AsksSized oneBlock () t.target)) &&
          decide ((r.2.sessions ()).point = .requesting 31 ∧ AsksSized oneBlock () r.2)) =
        true := by decide +kernel
  obtain ⟨history, w, hrun, hchecks⟩ := exists_run hfire
  simp only [Bool.and_eq_true, List.all_eq_true, decide_eq_true_eq] at hchecks
  obtain ⟨hsized, hpoint, hsize⟩ := hchecks
  have halways : Machine.Always (fun _ t => AsksSized oneBlock () t.target) history :=
    fun t _ hsuffix => hsized t (hsuffix.subset List.mem_cons_self)
  refine ⟨history, w, hrun, hpoint, hsize, ?_⟩
  exact ((bitfield_sized_iff hrun ()).mp halways).resolve_left (by decide)

/-- The session asks with an empty vector, and the first byte of it is read. -/
theorem not_sized_unchokedFirst :
    ∃ history, ∃ w : Swarm Unit,
      (machine PieceManager.sampleSha1 oneBlock samplePeerId).Run history w ∧
      ¬ AsksSized oneBlock () w ∧
      (w.sessions ()).operation .written = some (.requestBlock []) ∧
      w.manager.requestBlock [] = .error .outOfRange := by
  have hfire : (fireAll PieceManager.sampleSha1 (sessionConfig oneBlock samplePeerId)
      (new oneBlock PieceManager.emptyFile true) unchokedFirst []).any (fun r =>
        decide (¬ AsksSized oneBlock () r.2 ∧ (r.2.sessions ()).point = .requesting 31 ∧
          (r.2.sessions ()).peerBitfield = [] ∧ r.2.manager.bitfield = [0])) = true := by
    decide +kernel
  obtain ⟨history, w, hrun, hchecks⟩ := exists_run hfire
  obtain ⟨hsized, hpoint, hnil, hbits⟩ := of_decide_eq_true hchecks
  exact ⟨history, w, hrun, hsized, by rw [PeerSession.operation, hpoint, hnil],
    requestBlock_nil hbits⟩

/-! ## Choking -/

/-- If the manager takes the block that the session `i` delivers, and that leaves room in
the pipeline, the peer does not choke us. -/
def AcceptsUnchoked (sha1 : Bytes → Sha1Hash) (i : ι)
    (older : List (Transition (Swarm ι) (ι × Event))) (t : Transition (Swarm ι) (ι × Event)) :
    Prop :=
  t.label.1 = i → ∀ index offset data,
    (t.source.sessions i).point = .delivering index offset data →
    t.source.manager.Takes sha1 index offset data → (t.source.sessions i).hasRoom = true →
      PeerSession.choked (sessionHistory i older) = false

theorem AcceptsUnchoked.session {older : List (Transition (Swarm ι) (ι × Event))}
    (hstep : (machine sha1 metadata peerId).step w (i, event) w')
    (h : AcceptsUnchoked sha1 i older ⟨w, (i, event), w'⟩) :
    PeerSession.AcceptsUnchoked (sessionHistory i older)
      ⟨w.sessions i, event, w'.sessions i⟩ := by
  intro k haccepted hroom
  unfold PeerSession.delivered at haccepted
  split at haccepted
  · rename_i index offset data fate r hpoint hlabel
    obtain ⟨fate', r', hcall, hd⟩ := delivery_of_step hpoint hstep
    cases hlabel.symm.trans hcall
    obtain ⟨_, rfl⟩ := Prod.mk.inj (Option.some.inj haccepted)
    exact h rfl index offset data hpoint (hd.accepted_iff.mp rfl) hroom
  · cases haccepted

/-- **Requests respect choking.**  In every run in which the manager takes no block from
the session while its peer chokes us and the pipeline has room, a request is written to
the peer only while the last CHOKE or UNCHOKE it sent is an UNCHOKE. -/
theorem request_unchoked (hrun : (machine sha1 metadata peerId).Run history w) (i : ι)
    (haccepts : Machine.Always (AcceptsUnchoked sha1 i) history) {block : Block} {left : Nat}
    (hpoint : (w.sessions i).point = .writingRequest block left) :
    PeerSession.choked (sessionHistory i history) = false := by
  have hsession : Machine.Always PeerSession.AcceptsUnchoked (sessionHistory i history) := by
    refine always_session.mpr fun t older hsuffix heq => ?_
    obtain ⟨_, hstep⟩ := hrun.of_suffix hsuffix
    obtain ⟨source, ⟨j, event⟩, target⟩ := t
    obtain rfl : j = i := heq
    exact AcceptsUnchoked.session hstep (haccepts _ _ hsuffix)
  have hasking : (w.sessions i).asking = true := by rw [PeerSession.asking, hpoint]
  exact PeerSession.asking_unchoked (session_run hrun i) hsession hasking

/-- The step is neither a CHOKE nor a delivery. -/
def undisturbed (t : Transition (Swarm ι) (ι × Event)) : Bool :=
  match (t.source.sessions t.label.1).point, t.label.2 with
  | .readingPayload _, .io (.read (some (msgId :: _))) =>
      decide (Msg.Id.ofByte msgId ≠ some .choke)
  | .delivering _ _ _, _ => false
  | _, _ => true

theorem acceptsUnchoked_of_undisturbed {older : List (Transition (Swarm ι) (ι × Event))}
    {t : Transition (Swarm ι) (ι × Event)} (h : undisturbed t = true) :
    AcceptsUnchoked sha1 i older t := by
  intro heq index offset data hpoint
  subst heq
  simp [undisturbed, hpoint] at h

/-- A session that is about to write the request for the only block. -/
def firstRequest : List (Unit × Action) :=
  (opening oneBlock.infoHash [128] ++ asking 1).map fun action => ((), action)

/-- A torrent of two pieces of one block each. -/
def twoPieces : TorrentMetadata :=
  { oneBlock with
    info := { oneBlock.info with
      pieceHashes := [PieceManager.sevenDigest, PieceManager.sevenDigest]
      rawPieces := PieceManager.sevenDigest.toList ++ PieceManager.sevenDigest.toList
      fileLength := 2 } }

/-- A peer that never unchokes us sends the first of the two pieces, and the second one
is asked for. -/
def askedWhileChoked : List (Unit × Action) :=
  let piece : List Action := [.io (.read (some (htonl 10))),
    .io (.read (some (Msg.Id.piece.toByte :: htonl 0 ++ htonl 0 ++ [7]))), .call .written,
    .call .written]
  ((opening twoPieces.infoHash [192]).take 7 ++ piece).map fun action => ((), action)

theorem request_unchoked_firstRequest :
    ∃ history, ∃ w : Swarm Unit,
      (machine PieceManager.sampleSha1 oneBlock samplePeerId).Run history w ∧
      (w.sessions ()).outgoing = some (requestMsg ⟨0, 0, 1⟩) ∧
      PeerSession.choked (sessionHistory () history) = false := by
  have hfire : (fireAll PieceManager.sampleSha1 (sessionConfig oneBlock samplePeerId)
      (new oneBlock PieceManager.emptyFile true) firstRequest []).any (fun r =>
        r.1.all undisturbed && decide ((r.2.sessions ()).point = .writingRequest ⟨0, 0, 1⟩ 31)) =
        true := by decide +kernel
  obtain ⟨history, w, hrun, hchecks⟩ := exists_run hfire
  simp only [Bool.and_eq_true, List.all_eq_true, decide_eq_true_eq] at hchecks
  obtain ⟨hundisturbed, hpoint⟩ := hchecks
  refine ⟨history, w, hrun, by rw [PeerSession.outgoing, hpoint],
    request_unchoked hrun () (fun t _ hsuffix => ?_) hpoint⟩
  exact acceptsUnchoked_of_undisturbed (hundisturbed t (hsuffix.subset List.mem_cons_self))

theorem not_unchoked_askedWhileChoked :
    ∃ history, ∃ w : Swarm Unit,
      (machine PieceManager.sampleSha1 twoPieces samplePeerId).Run history w ∧
      (w.sessions ()).outgoing = some (requestMsg ⟨1, 0, 1⟩) ∧
      PeerSession.choked (sessionHistory () history) = true := by
  have hfire : (fireAll PieceManager.sampleSha1 (sessionConfig twoPieces samplePeerId)
      (new twoPieces PieceManager.emptyFile true) askedWhileChoked []).any (fun r =>
        decide ((r.2.sessions ()).outgoing = some (requestMsg ⟨1, 0, 1⟩) ∧
          PeerSession.choked (sessionHistory () r.1) = true)) = true := by decide +kernel
  obtain ⟨history, w, hrun, hchecks⟩ := exists_run hfire
  obtain ⟨hwrites, hchoked⟩ := of_decide_eq_true hchecks
  exact ⟨history, w, hrun, hwrites, hchoked⟩

/-! ## Live requests -/

/-- A session leaves no dead request in its set, as a condition on the steps of the swarm. -/
theorem always_keepsLive (hrun : (machine sha1 metadata peerId).Run history w) (i : ι) :
    Machine.Always (fun _ => PeerSession.KeepsLive) (sessionHistory i history) ↔
      Machine.Always (fun _ t => t.label.1 = i → t.source.KeepsLive sha1 t.label) history := by
  refine always_session.trans (hrun.always_congr fun older t _ hstep => ?_)
  refine forall_congr' fun heq => ?_
  subst heq
  exact keepsLive_iff hstep

/-- **The set holds live requests.**  In every run, the set of a session holds requests
that its peer still has to answer whenever the session waits for a message, if and only if
every CHOKE finds the set empty and the manager refuses no block of the set. -/
theorem requests_live_iff (hrun : (machine sha1 metadata peerId).Run history w) (i : ι) :
    Machine.Always (fun older t => (t.target.sessions i).listening = true →
        PeerSession.LiveRequests (sessionHistory i (t :: older)) (t.target.sessions i)) history ↔
      Machine.Always (fun _ t => t.label.1 = i → t.source.KeepsLive sha1 t.label) history := by
  have hview : PeerSession.StaysLive (sessionHistory i history) ↔
      Machine.Always (fun older t => (t.target.sessions i).listening = true →
        PeerSession.LiveRequests (sessionHistory i (t :: older)) (t.target.sessions i))
          history := by
    refine hrun.always_view (refines_session i) (session_init i)
      (P := fun older s => s.listening = true → PeerSession.LiveRequests older s) ?_
    intro s hinit _
    cases hinit
    exact .of_outstanding fun k hk => absurd hk (KeyedSet.has_empty k)
  rw [← hview, ← always_keepsLive hrun i]
  exact PeerSession.staysLive_iff (session_run hrun i)

omit [DecidableEq ι] in
theorem keepsLive_of_undisturbed {t : Transition (Swarm ι) (ι × Event)}
    (h : undisturbed t = true) : t.source.KeepsLive sha1 t.label := by
  unfold undisturbed at h
  unfold KeepsLive
  split
  · rename_i hpoint hevent
    simp only [hpoint, hevent, decide_eq_true_eq] at h
    exact fun hchoke => absurd hchoke h
  · rename_i hpoint hevent
    simp [hpoint, hevent] at h
  · trivial

/-- A session that has asked for the only block. -/
def blockAsked : List (Unit × Action) :=
  (opening oneBlock.infoHash [128] ++ asked true 31).map fun action => ((), action)

/-- The same session, choked afterwards. -/
def chokedAfterwards : List (Unit × Action) :=
  blockAsked ++ [((), .io (.read (some (htonl 1)))),
    ((), .io (.read (some [Msg.Id.choke.toByte])))]

theorem requests_live_iff_blockAsked :
    ∃ history, ∃ w : Swarm Unit,
      (machine PieceManager.sampleSha1 oneBlock samplePeerId).Run history w ∧
      (w.sessions ()).point = .readingLength ∧
      (w.sessions ()).pendingBlocks.Has (blockKey 0 0) ∧
      Machine.Always (fun older t => (t.target.sessions ()).listening = true →
        PeerSession.LiveRequests (sessionHistory () (t :: older)) (t.target.sessions ()))
        history := by
  have hfire : (fireAll PieceManager.sampleSha1 (sessionConfig oneBlock samplePeerId)
      (new oneBlock PieceManager.emptyFile true) blockAsked []).any (fun r =>
        r.1.all undisturbed && decide ((r.2.sessions ()).point = .readingLength ∧
          (r.2.sessions ()).pendingBlocks.Has (blockKey 0 0))) = true := by decide +kernel
  obtain ⟨history, w, hrun, hchecks⟩ := exists_run hfire
  simp only [Bool.and_eq_true, List.all_eq_true, decide_eq_true_eq] at hchecks
  obtain ⟨hundisturbed, hpoint, hheld⟩ := hchecks
  refine ⟨history, w, hrun, hpoint, hheld, (requests_live_iff hrun ()).mpr ?_⟩
  intro t _ hsuffix _
  exact keepsLive_of_undisturbed (hundisturbed t (hsuffix.subset List.mem_cons_self))

/-- The block stays in the set, though the peer has dropped the request for it. -/
theorem not_live_chokedAfterwards :
    ∃ history, ∃ w : Swarm Unit,
      (machine PieceManager.sampleSha1 oneBlock samplePeerId).Run history w ∧
      (w.sessions ()).point = .readingLength ∧
      (w.sessions ()).pendingBlocks.Has (blockKey 0 0) ∧
      PeerSession.outstanding (blockKey 0 0) (sessionHistory () history) = false ∧
      ¬ PeerSession.LiveRequests (sessionHistory () history) (w.sessions ()) := by
  have hfire : (fireAll PieceManager.sampleSha1 (sessionConfig oneBlock samplePeerId)
      (new oneBlock PieceManager.emptyFile true) chokedAfterwards []).any (fun r =>
        decide ((r.2.sessions ()).point = .readingLength ∧
          (r.2.sessions ()).pendingBlocks.Has (blockKey 0 0) ∧
          PeerSession.outstanding (blockKey 0 0) (sessionHistory () r.1) = false)) = true := by
    decide +kernel
  obtain ⟨history, w, hrun, hchecks⟩ := exists_run hfire
  obtain ⟨hpoint, hheld, hdead⟩ := of_decide_eq_true hchecks
  refine ⟨history, w, hrun, hpoint, hheld, hdead, fun hlive => ?_⟩
  rw [hlive.live _ hheld] at hdead
  cases hdead

end Swarm

end BitTorrentClient
