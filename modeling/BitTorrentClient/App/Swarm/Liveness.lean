/-
  App/Swarm/Liveness.lean --- a download can always be completed.

  Nothing forces a peer to send anything, so no run has to complete.  But among
  honest peers no run can spoil the download either: whatever has happened, and
  wherever the sessions are, the peers that were asked for blocks can still send
  them (where they have choked their sessions since, against what a CHOKE means),
  a seed can unchoke its session, and when they do every piece is finished.

  The continuation is built session by session.  `bring` takes a session to the point
  where it waits for a message, `deliver` gives it a block that it waits for.  Every
  delivery makes the rest of the download smaller, and when nothing is pending the
  seeded session has asked for all there is.
-/
import BitTorrentClient.App.Swarm.Download
import BitTorrentClient.App.Swarm.Refill

set_option autoImplicit false

namespace BitTorrentClient

open Library

/-- A stream stays open. -/
theorem FileHandler.store_isOpen (file : FileHandler) (index : Nat) (data : Bytes)
    (fate : DiskFate) : (file.store index data fate).isOpen = file.isOpen := by
  unfold store
  split
  · rfl
  · split
    · rfl
    · cases fate <;> rfl

theorem PieceManager.Step.isOpen {sha1 : Bytes → Sha1Hash} {m m' : PieceManager}
    {l : PieceManager.Op × PieceManager.Answer} (h : m.Step sha1 l m') :
    m'.fileHandler.isOpen = m.fileHandler.isOpen := by
  cases h with
  | requested hr =>
    cases hr with
    | nothing => rfl
    | block _ _ _ hout => rw [hout.target]
  | delivered hd =>
    cases hd with
    | completed _ _ _ _ => exact FileHandler.store_isOpen _ _ _ _
    | _ => rfl
  | returned hr => cases hr <;> rfl

namespace PeerSession

variable {config : SessionConfig} {s s' : PeerSession}

/-- The message that is read has a first byte. -/
def ReadsMessage (s : PeerSession) : Prop := ∀ len, s.point = .readingPayload len → 0 < len

theorem readsMessage_of_ne (h : ∀ len, s.point ≠ .readingPayload len) : s.ReadsMessage :=
  fun len hpoint => absurd hpoint (h len)

theorem readsMessage_loopHead : s.loopHead.ReadsMessage := by
  apply readsMessage_of_ne
  intro len
  rcases loopHead_cases s with h | h
  · rw [h]
    simp [suspend]
  · rw [h]
    simp [suspend]

theorem readsMessage_requestLoop (n : Nat) : (s.requestLoop n).ReadsMessage := by
  cases n with
  | zero => exact readsMessage_loopHead
  | succ left => exact readsMessage_of_ne (by simp [requestLoop, suspend])

theorem readsMessage_refill : s.refill.ReadsMessage := by
  unfold refill
  exact readsMessage_requestLoop _

theorem readsMessage_returnLoop (after : AfterReturn) (blocks : List Block) :
    (s.returnLoop after blocks).ReadsMessage := by
  cases blocks with
  | nil =>
    cases after with
    | request left => exact readsMessage_requestLoop left
    | finish => exact readsMessage_of_ne (by simp [returnLoop, suspend])
  | cons _ _ => exact readsMessage_of_ne (by simp [returnLoop, suspend])

theorem Handled.readsMessage {message : Option (Msg.Id × Bytes)}
    (h : s.Handled config message s') : s'.ReadsMessage := by
  cases h with
  | choke => exact readsMessage_loopHead
  | unchoke => exact readsMessage_refill
  | bitfield => exact readsMessage_of_ne (by simp [suspend])
  | piece _ => exact readsMessage_of_ne (by simp [suspend])
  | malformed _ => exact readsMessage_of_ne (by simp [suspend])
  | ignored _ => exact readsMessage_loopHead

theorem lengthRead_readsMessage {bytes : Option Bytes} (h : s.lengthRead bytes = some s') :
    s'.ReadsMessage := by
  unfold lengthRead at h
  split at h
  · cases h
    exact readsMessage_returnLoop _ _
  · split at h
    · cases h
      split
      · exact readsMessage_loopHead
      · rename_i hnonzero
        intro len hpoint
        obtain rfl := Point.readingPayload.inj hpoint
        exact Nat.pos_of_ne_zero hnonzero
    · cases h

theorem handshake_readsMessage {event : IoEvent} (h : s.resume config event = some s')
    (hphase : (s.point = .connecting ∨ ∃ handshake, s.point = .writingHandshake handshake) ∨
      s.point = .readingHandshake ∨ s.point = .loggingEndpoint) : s'.ReadsMessage := by
  have hrun : ∀ t : PeerSession, t.run.ReadsMessage := fun _ => readsMessage_loopHead
  rcases hphase with (hpoint | ⟨handshake, hpoint⟩) | hpoint | hpoint
  · cases event with
    | connected connection =>
      simp only [resume, hpoint, connectDone] at h
      split at h <;> cases h
      exact readsMessage_of_ne (by simp [suspend])
    | _ => simp [resume, hpoint] at h
  · cases event with
    | wrote ok len =>
      simp only [resume, hpoint, Option.some.injEq] at h
      subst h
      unfold handshakeWritten
      split
      · exact hrun _
      · split
        · exact hrun _
        · exact readsMessage_of_ne (by simp [suspend])
    | _ => simp [resume, hpoint] at h
  · cases event with
    | read bytes =>
      simp only [resume, hpoint, handshakeRead] at h
      split at h
      · cases h
        exact hrun _
      · split at h
        · split at h <;> cases h
          · exact hrun _
          · exact readsMessage_of_ne (by simp [suspend])
        · cases h
    | _ => simp [resume, hpoint] at h
  · cases event with
    | endpoint known =>
      simp only [resume, hpoint, Option.some.injEq] at h
      subst h
      cases known with
      | true => exact hrun _
      | false => exact readsMessage_of_ne (by simp [suspend])
    | _ => simp [resume, hpoint] at h

theorem resume_readsMessage {event : IoEvent} (h : s.resume config event = some s') :
    s'.ReadsMessage := by
  have h' := h
  unfold resume at h
  split at h
  · rename_i hpoint
    exact handshake_readsMessage h' (Or.inl (Or.inl hpoint))
  · rename_i hpoint
    exact handshake_readsMessage h' (Or.inl (Or.inr ⟨_, hpoint⟩))
  · rename_i hpoint
    exact handshake_readsMessage h' (Or.inr (Or.inl hpoint))
  · rename_i hpoint
    exact handshake_readsMessage h' (Or.inr (Or.inr hpoint))
  · exact lengthRead_readsMessage h
  · unfold payloadRead at h
    split at h
    · cases h
      exact readsMessage_returnLoop _ _
    · cases h
    · split at h <;> cases h
      exact (handleMessage_handled _ _).readsMessage
  · cases h
    exact readsMessage_loopHead
  · cases h
    unfold requestWritten
    split
    · exact readsMessage_returnLoop _ _
    · exact readsMessage_requestLoop _
  · cases h

/-- A message is read after its length, which was not zero. -/
theorem readsMessage_of_run {history : List (Transition PeerSession Event)}
    (hrun : (machine config).Run history s) : s.ReadsMessage := by
  refine hrun.invariant ?_ fun s event s' _ hstep => ?_
  · intro s hinit
    cases hinit
    exact readsMessage_of_ne (by simp [new])
  · cases event with
    | io event => exact resume_readsMessage hstep
    | call fate answer =>
      cases answered_answered hstep with
      | accepted _ => exact readsMessage_refill
      | refused _ => exact readsMessage_loopHead
      | threw _ => exact readsMessage_of_ne (by simp [suspend])
      | nothing _ => exact readsMessage_requestLoop _
      | block _ => exact readsMessage_of_ne (by simp [suspend])
      | returned _ => exact readsMessage_returnLoop _ _

/-- The loop that requests blocks delivers none. -/
theorem requestLoop_not_delivering (n index offset : Nat) (data : Bytes) :
    (s.requestLoop n).point ≠ .delivering index offset data := by
  cases n with
  | zero =>
    rcases loopHead_cases s with h | h
    · rw [requestLoop, h]
      simp [suspend]
    · rw [requestLoop, h]
      simp [suspend]
  | succ left => simp [requestLoop, suspend]

theorem suspend_eq_self {point : Point} (h : s.point = point) : s.suspend point = s := by
  rw [suspend, ← h]

/-- The bitfield stays, and a session that was unchoked is not choked. -/
structure Steady (s s' : PeerSession) : Prop where
  peerBitfield : s'.peerBitfield = s.peerBitfield
  unchoked : s.peerChoking = false → s'.peerChoking = false

theorem Steady.trans {t : PeerSession} (h : s.Steady t) (h' : t.Steady s') : s.Steady s' :=
  ⟨h'.peerBitfield.trans h.peerBitfield, fun hunchoked => h'.unchoked (h.unchoked hunchoked)⟩

theorem Steady.same {t : PeerSession} (h : s.Steady t) (hsame : Same t s') : s.Steady s' :=
  h.trans ⟨hsame.peerBitfield, fun hunchoked => hsame.peerChoking.trans hunchoked⟩

/-- Such a session asks for blocks. -/
theorem Steady.requestLoop {t : PeerSession} (h : s.Steady t) (n : Nat) :
    s.Steady (t.requestLoop n) :=
  h.same (same_requestLoop t n)

/-- Inside the loop of `run`, and not giving blocks back. -/
def inLoop (s : PeerSession) : Bool :=
  match s.point with
  | .readingLength | .readingPayload _ | .writingInterested => true
  | .delivering _ _ _ | .requesting _ | .writingRequest _ _ => true
  | _ => false

/-- Before the loop nothing was asked for, and after it nothing is owed. -/
theorem inLoop_of_answersFor {k : BlockKey} (hsane : s.Sane)
    (hkeeps : ∀ block rest after, s.point ≠ .returning block rest after) (hk : s.AnswersFor k) :
    s.inLoop = true := by
  unfold Sane at hsane
  unfold inLoop
  cases hpoint : s.point with
  | returning block rest after => exact absurd hpoint (hkeeps block rest after)
  | readingLength => rfl
  | readingPayload _ => rfl
  | writingInterested => rfl
  | delivering _ _ _ => rfl
  | requesting _ => rfl
  | writingRequest _ _ => rfl
  | ended => exact absurd ((answersFor_at hpoint).mp hk) id
  | _ =>
    rw [hpoint] at hsane
    have hheld : s.pendingBlocks.Has k := (answersFor_at hpoint).mp hk
    rw [hsane] at hheld
    exact absurd hheld (KeyedSet.has_empty k)

/-! ## What a peer can send -/

/-- A PIECE message with these contents, without its first byte. -/
def piecePayload (index offset : Nat) (data : Bytes) : Bytes := htonl index ++ htonl offset ++ data

theorem parsePiece_piecePayload {index offset : Nat} (hindex : index < 2 ^ 32)
    (hoffset : offset < 2 ^ 32) (data : Bytes) :
    parsePiece (piecePayload index offset data) = .ok (index, offset, data) := by
  have hlen : ∀ n, (htonl n).length = 4 := fun _ => rfl
  have hfirst : (piecePayload index offset data).take 4 = htonl index := by
    rw [piecePayload, List.append_assoc, List.take_left' (hlen index)]
  have hrest : (piecePayload index offset data).drop 4 = htonl offset ++ data := by
    rw [piecePayload, List.append_assoc, List.drop_left' (hlen index)]
  have hdata : (piecePayload index offset data).drop 8 = data :=
    List.drop_left' (by rw [List.length_append, hlen, hlen])
  rcases parsePiece_cases (piecePayload index offset data) with ⟨hshort, _⟩ | ⟨_, hparse⟩
  · simp only [piecePayload, List.length_append, hlen] at hshort
    omega
  · rw [hparse, hfirst, hrest, List.take_left' (hlen offset), hdata, ntohl_htonl hindex,
      ntohl_htonl hoffset]

/-- The length of a message arrives. -/
theorem resume_length (hpoint : s.point = .readingLength) {len : Nat} (hpos : 0 < len)
    (hlen : len < 2 ^ 32) :
    s.resume config (.read (some (htonl len))) = some (s.suspend (.readingPayload len)) := by
  have hbytes : (htonl len).length = 4 := rfl
  rw [resume.eq_def, hpoint]
  simp only [lengthRead, hbytes, if_true, ntohl_htonl hlen, if_neg (Nat.ne_of_gt hpos)]

/-- A message of this length arrives. -/
theorem resume_message {msgId : UInt8} {payload : Bytes}
    (hpoint : s.point = .readingPayload (payload.length + 1)) :
    s.resume config (.read (some (msgId :: payload))) =
      some (s.handleMessage config msgId payload) := by
  rw [resume.eq_def, hpoint]
  simp only [payloadRead, if_true]

end PeerSession

namespace Swarm

variable {ι : Type} [DecidableEq ι] {sha1 : Bytes → Sha1Hash} {metadata : TorrentMetadata}
  {peerId : Bytes} {contents : Nat → Bytes} {w w' : Swarm ι} {i j : ι} {event : Event}
  {history history' : List (Transition (Swarm ι) (ι × Event))}

/-- The bitfield has the size of the torrent's and no bit behind the last piece. -/
structure Fits (metadata : TorrentMetadata) (peerBitfield : Bytes) : Prop where
  sized : PieceManager.SizedFor metadata peerBitfield
  spare : PieceManager.SpareClear metadata peerBitfield

/-- Whoever waits for blocks can ask for more, what has come is what was asked for, and
the output file is open. -/
structure Ready (metadata : TorrentMetadata) (contents : Nat → Bytes) (w : Swarm ι) : Prop where
  bitfields : ∀ i k, (w.sessions i).AnswersFor k → Fits metadata (w.sessions i).peerBitfield
  deliveries : ∀ i index offset data, (w.sessions i).point = .delivering index offset data →
    (w.sessions i).pendingBlocks.Has (blockKey index offset) ∧
      data = slice (contents index) offset blockLen
  opened : w.manager.fileHandler.isOpen = true

/-- The session `j` has filled its pipeline, and its peer is a seed. -/
structure Supplied (metadata : TorrentMetadata) (j : ι) (w : Swarm ι) : Prop where
  filling : Filling metadata j w
  seeds : PieceManager.Seeds metadata (w.sessions j).peerBitfield
  unchoked : (w.sessions j).peerChoking = false

/-- An honest run has come to a state that is ready. -/
structure Going (sha1 : Bytes → Sha1Hash) (metadata : TorrentMetadata) (peerId : Bytes)
    (contents : Nat → Bytes) (history : List (Transition (Swarm ι) (ι × Event)))
    (w : Swarm ι) : Prop where
  run : (machine sha1 metadata peerId).Run history w
  honest : Machine.Guarded (fun w l => w.honest contents l = true) history
  ready : Ready metadata contents w

/-- What a run keeps while it goes on. -/
structure Later (sha1 : Bytes → Sha1Hash) (metadata : TorrentMetadata) (peerId : Bytes)
    (contents : Nat → Bytes) (history : List (Transition (Swarm ι) (ι × Event))) (w : Swarm ι)
    (history' : List (Transition (Swarm ι) (ι × Event))) (w' : Swarm ι) : Prop where
  going : Going sha1 metadata peerId contents history' w'
  steady : ∀ j, (w.sessions j).Steady (w'.sessions j)
  supplied : ∀ j, Supplied metadata j w → Supplied metadata j w'
  delivered : PieceManager.deliveryCount metadata (managerHistory history) ≤
    PieceManager.deliveryCount metadata (managerHistory history')

/-- The run can go on honestly to such a state. -/
abbrev CanReach (sha1 : Bytes → Sha1Hash) (metadata : TorrentMetadata) (peerId : Bytes)
    (contents : Nat → Bytes) (P : List (Transition (Swarm ι) (ι × Event)) → Swarm ι → Prop)
    (history : List (Transition (Swarm ι) (ι × Event))) (w : Swarm ι) : Prop :=
  (machine sha1 metadata peerId).CanReach (fun w l => w.honest contents l = true) P history w

theorem Going.kept (h : Going sha1 metadata peerId contents history w)
    (hannounced : PieceManager.Announced sha1 metadata contents) :
    Kept sha1 contents history w :=
  kept_of_run hannounced h.run h.honest

theorem Going.later (h : Going sha1 metadata peerId contents history w) :
    Later sha1 metadata peerId contents history w history w :=
  ⟨h, fun _ => ⟨rfl, id⟩, fun _ hj => hj, Nat.le_refl _⟩

theorem Later.trans {history'' : List (Transition (Swarm ι) (ι × Event))} {w'' : Swarm ι}
    (h : Later sha1 metadata peerId contents history w history' w')
    (h' : Later sha1 metadata peerId contents history' w' history'' w'') :
    Later sha1 metadata peerId contents history w history'' w'' :=
  ⟨h'.going, fun j => (h.steady j).trans (h'.steady j),
    fun j hj => h'.supplied j (h.supplied j hj), Nat.le_trans h.delivered h'.delivered⟩

/-- One honest step of a session that can ask for blocks and keeps its bitfield. -/
theorem Going.advance (h : Going sha1 metadata peerId contents history w)
    (hannounced : PieceManager.Announced sha1 metadata contents)
    (hstep : (machine sha1 metadata peerId).step w (i, event) w')
    (hhonest : w.honest contents (i, event) = true)
    (hfits : Fits metadata (w.sessions i).peerBitfield)
    (hsteady : (w.sessions i).Steady (w'.sessions i))
    (hcome : ∀ index offset data, (w'.sessions i).point = .delivering index offset data →
      (w'.sessions i).pendingBlocks.Has (blockKey index offset) ∧
        data = slice (contents index) offset blockLen) :
    Later sha1 metadata peerId contents history w (⟨w, (i, event), w'⟩ :: history) w' := by
  have hkept := h.kept hannounced
  have hother : ∀ j, j ≠ i → w'.sessions j = w.sessions j := by
    obtain ⟨action, hfire⟩ := hstep
    exact (fire_session hfire).2
  have hopened : w'.manager.fileHandler.isOpen = true := by
    have hmanager := refines_manager w (i, event) w' hstep
    cases hcall : callOf ⟨w, (i, event), w'⟩ with
    | none =>
      rw [hcall] at hmanager
      rw [hmanager]
      exact h.ready.opened
    | some l =>
      rw [hcall] at hmanager
      exact (PieceManager.machine_step hmanager).isOpen.trans h.ready.opened
  refine ⟨⟨h.run.snoc hstep, List.forall_mem_cons.mpr ⟨hhonest, h.honest⟩, ?_, ?_, hopened⟩,
    ?_, ?_, ?_⟩
  · intro j k hk
    by_cases heq : j = i
    · subst heq
      rw [hsteady.peerBitfield]
      exact hfits
    · rw [hother j heq] at hk ⊢
      exact h.ready.bitfields j k hk
  · intro j index offset data hpoint
    by_cases heq : j = i
    · subst heq
      exact hcome index offset data hpoint
    · rw [hother j heq] at hpoint ⊢
      exact h.ready.deliveries j index offset data hpoint
  · intro j
    by_cases heq : j = i
    · subst heq
      exact hsteady
    · rw [hother j heq]
      exact ⟨rfl, id⟩
  · intro j hj
    have hfilling := hkept.filling_step hannounced h.run hstep hhonest hj.filling
      fun _ _ _ => hj.seeds
    by_cases heq : j = i
    · subst heq
      exact ⟨hfilling, hsteady.peerBitfield ▸ hj.seeds, hsteady.unchoked hj.unchoked⟩
    · have hsame := hother j heq
      exact ⟨hfilling, hsame ▸ hj.seeds, hsame ▸ hj.unchoked⟩
  · unfold managerHistory
    cases hcall : callOf ⟨w, (i, event), w'⟩ with
    | none => rw [Machine.project_cons_none hcall]
    | some l =>
      rw [Machine.project_cons_some hcall]
      exact PieceManager.deliveryCount_cons _

/-- An honest step takes the session `i` to `s`. -/
def Turns (sha1 : Bytes → Sha1Hash) (metadata : TorrentMetadata) (peerId : Bytes)
    (contents : Nat → Bytes) (history : List (Transition (Swarm ι) (ι × Event))) (w : Swarm ι)
    (i : ι) (s : PeerSession) : Prop :=
  ∃ event w', (machine sha1 metadata peerId).step w (i, event) w' ∧
    w.honest contents (i, event) = true ∧
    Later sha1 metadata peerId contents history w (⟨w, (i, event), w'⟩ :: history) w' ∧
    w'.sessions i = s

/-- What can be reached after such a step. -/
theorem Turns.reach {s : PeerSession} {Q : Swarm ι → Prop}
    (h : Turns sha1 metadata peerId contents history w i s)
    (hrest : ∀ history' w', Later sha1 metadata peerId contents history w history' w' →
      w'.sessions i = s → CanReach sha1 metadata peerId contents
        (fun history'' w'' => Later sha1 metadata peerId contents history' w' history'' w'' ∧
          Q w'') history' w') :
    CanReach sha1 metadata peerId contents
      (fun history'' w'' => Later sha1 metadata peerId contents history w history'' w'' ∧ Q w'')
      history w := by
  obtain ⟨event, w', hstep, hhonest, hlater, hsession⟩ := h
  exact Machine.CanReach.step hstep hhonest ((hrest _ w' hlater hsession).mono
    fun _ _ hreached => ⟨hlater.trans hreached.1, hreached.2⟩)

section Turning

variable (hannounced : PieceManager.Announced sha1 metadata contents)
  (h : Going sha1 metadata peerId contents history w)
  (hfits : Fits metadata (w.sessions i).peerBitfield)

include hannounced h hfits

theorem Going.turn_io {io : IoEvent} {s : PeerSession}
    (hresume : (w.sessions i).resume (sessionConfig metadata peerId) io = some s)
    (hhonest : w.honest contents (i, .io io) = true)
    (hsteady : (w.sessions i).Steady s)
    (hcome : ∀ index offset data, s.point = .delivering index offset data →
      s.pendingBlocks.Has (blockKey index offset) ∧
        data = slice (contents index) offset blockLen) :
    Turns sha1 metadata peerId contents history w i s := by
  have hfire : w.fire sha1 (sessionConfig metadata peerId) i (.io io) =
      some (.io io, w.withSession i s) := by simp [fire, hresume]
  have hstep : (machine sha1 metadata peerId).step w (i, .io io) (w.withSession i s) :=
    ⟨.io io, hfire⟩
  refine ⟨.io io, w.withSession i s, hstep, hhonest, ?_, withSession_session⟩
  refine h.advance hannounced hstep hhonest hfits ?_ ?_
  · rw [withSession_session]
    exact hsteady
  · rw [withSession_session]
    exact hcome

/-- A call after which the session delivers nothing. -/
theorem Going.turn_call {op : PieceManager.Op} {answer : PieceManager.Answer} {m : PieceManager}
    {s : PeerSession} (hop : (w.sessions i).operation .written = some op)
    (happly : w.manager.apply sha1 op = .ok (answer, m))
    (hanswered : (w.sessions i).answered answer = some s)
    (hhonest : w.honest contents (i, .call .written answer) = true)
    (hsteady : (w.sessions i).Steady s)
    (hcome : ∀ index offset data, s.point ≠ .delivering index offset data) :
    Turns sha1 metadata peerId contents history w i s := by
  have hstep : (machine sha1 metadata peerId).step w (i, .call .written answer)
      (w.afterAnswer i s m answer) := ⟨.call .written, fire_call hop happly hanswered⟩
  refine ⟨_, _, hstep, hhonest, ?_, afterAnswer_session⟩
  refine h.advance hannounced hstep hhonest hfits ?_ ?_
  · rw [afterAnswer_session]
    exact hsteady
  · rw [afterAnswer_session]
    exact fun index offset data hpoint => absurd hpoint (hcome index offset data)

end Turning

/-! ## Asking -/

/-- The session `i` waits for a message, and for all the blocks that `s` waits for. -/
def Listens (i : ι) (s : PeerSession) (w : Swarm ι) : Prop :=
  (w.sessions i).point = .readingLength ∧
    ∀ k, s.pendingBlocks.Has k → (w.sessions i).pendingBlocks.Has k

omit [DecidableEq ι] in
theorem Listens.of_less {s t : PeerSession} (h : Listens i t w)
    (hless : ∀ k, s.pendingBlocks.Has k → t.pendingBlocks.Has k) : Listens i s w :=
  ⟨h.1, fun k hk => h.2 k (hless k hk)⟩

section Asking

variable (hannounced : PieceManager.Announced sha1 metadata contents)

include hannounced

/-- The answer to a call of `requestBlock`. -/
theorem Going.requestBlock_cases (h : Going sha1 metadata peerId contents history w)
    {peerBitfield : Bytes} (hfits : Fits metadata peerBitfield) :
    ∃ found m, w.manager.requestBlock peerBitfield = .ok (found, m) := by
  have hsofar := manager_run h.run
  have hlens : ∀ q, ∃ len, metadata.info.getPieceLength q = .ok len := by
    intro q
    obtain ⟨len, hlen, _⟩ :=
      TorrentMetadata.Info.getPieceLength_pos hannounced.nonempty hannounced.small q
    exact ⟨len, hlen⟩
  rcases PieceManager.requestBlock_cases (PieceManager.shaped_of_run hsofar)
      (PieceManager.aligned_of_run hsofar) (PieceManager.bookkeeping_of_run hsofar) hlens
      hannounced.few hfits.sized hfits.spare with ⟨hnone, _⟩ | ⟨block, m, _, _, _, _, hsome, _⟩
  · exact ⟨none, _, hnone⟩
  · exact ⟨some block, m, hsome⟩

/-- One turn of the loop begins. -/
theorem Going.asks (h : Going sha1 metadata peerId contents history w)
    (hfits : Fits metadata (w.sessions i).peerBitfield) {left : Nat}
    (hpoint : (w.sessions i).point = .requesting left) :
    Turns sha1 metadata peerId contents history w i ((w.sessions i).requestLoop left) ∨
      ∃ block, Turns sha1 metadata peerId contents history w i
        ((w.sessions i).suspend (.writingRequest block left)) := by
  obtain ⟨found, m, hcall⟩ := h.requestBlock_cases hannounced hfits
  have hop : (w.sessions i).operation .written =
      some (.requestBlock (w.sessions i).peerBitfield) := by
    rw [PeerSession.operation, hpoint]
  have happly : w.manager.apply sha1 (.requestBlock (w.sessions i).peerBitfield) =
      .ok (.block found, m) := by
    rw [PieceManager.apply, hcall]
    rfl
  have hhonest : w.honest contents (i, .call .written (.block found)) = true := by
    rw [Swarm.honest, hpoint]
  cases found with
  | none =>
    have hanswered : (w.sessions i).answered (.block none) =
        some ((w.sessions i).requestLoop left) := by
      rw [PeerSession.answered.eq_def, hpoint]
    refine Or.inl (h.turn_call hannounced hfits hop happly hanswered hhonest ?_ ?_)
    · exact PeerSession.Steady.requestLoop ⟨rfl, id⟩ left
    · exact fun index offset data => PeerSession.requestLoop_not_delivering left index offset data
  | some block =>
    have hanswered : (w.sessions i).answered (.block (some block)) =
        some ((w.sessions i).suspend (.writingRequest block left)) := by
      rw [PeerSession.answered.eq_def, hpoint]
    exact Or.inr ⟨block, h.turn_call hannounced hfits hop happly hanswered hhonest
      ⟨rfl, id⟩ (by simp [PeerSession.suspend])⟩

/-- The request is written. -/
theorem Going.writes (h : Going sha1 metadata peerId contents history w)
    (hfits : Fits metadata (w.sessions i).peerBitfield) {block : Block} {left : Nat}
    (hpoint : (w.sessions i).point = .writingRequest block left) :
    Turns sha1 metadata peerId contents history w i
      ({ w.sessions i with pendingBlocks := (w.sessions i).pendingBlocks.insert block }.requestLoop
        left) := by
  have hresume : (w.sessions i).resume (sessionConfig metadata peerId) (.wrote true 17) =
      some ((w.sessions i).requestWritten block left true) := by
    rw [PeerSession.resume.eq_def, hpoint]
  refine h.turn_io hannounced hfits hresume ?_ ?_ ?_
  · rw [Swarm.honest, hpoint]
  · have hsteady : (w.sessions i).Steady
        { w.sessions i with pendingBlocks := (w.sessions i).pendingBlocks.insert block } :=
      ⟨rfl, id⟩
    exact hsteady.requestLoop left
  · exact fun index offset data hcome =>
      absurd hcome (PeerSession.requestLoop_not_delivering left index offset data)

/-- A session takes the turns that it has left. -/
theorem Going.settle (n : Nat) {t : PeerSession}
    (h : Going sha1 metadata peerId contents history w)
    (hfits : Fits metadata (w.sessions i).peerBitfield) (hrunning : t.Running)
    (hsession : w.sessions i = t.requestLoop n) :
    CanReach sha1 metadata peerId contents
      (fun history' w' => Later sha1 metadata peerId contents history w history' w' ∧
        Listens i (w.sessions i) w') history w := by
  induction n generalizing history w t with
  | zero =>
    refine Machine.CanReach.here ⟨h.later, ?_, fun _ hk => hk⟩
    rw [hsession, PeerSession.requestLoop, hrunning.loopHead]
    rfl
  | succ n ih =>
    have hpoint : (w.sessions i).point = .requesting n := by
      rw [hsession]
      rfl
    have hself : (w.sessions i).Running := by
      rw [hsession]
      exact hrunning
    rcases h.asks hannounced hfits hpoint with hturn | ⟨block, hturn⟩
    · refine hturn.reach fun history' w' hlater hs => ?_
      have hsame := PeerSession.same_requestLoop (w.sessions i) n
      rw [← hs] at hsame
      refine (ih hlater.going (hsame.peerBitfield ▸ hfits) hself hs).mono fun _ _ hreached => ?_
      exact ⟨hreached.1, hreached.2.of_less fun k hk => hsame.pendingBlocks ▸ hk⟩
    · refine hturn.reach fun history' w' hlater hs => ?_
      have hpoint' : (w'.sessions i).point = .writingRequest block n := by
        rw [hs]
        rfl
      have hfits' : Fits metadata (w'.sessions i).peerBitfield := by
        rw [hs]
        exact hfits
      refine (hlater.going.writes hannounced hfits' hpoint').reach
        fun history'' w'' hlater' hs' => ?_
      have hsame := PeerSession.same_requestLoop
        { w'.sessions i with pendingBlocks := (w'.sessions i).pendingBlocks.insert block } n
      rw [← hs'] at hsame
      have hself' : PeerSession.Running
          { w'.sessions i with pendingBlocks := (w'.sessions i).pendingBlocks.insert block } := by
        rw [hs]
        exact hself
      refine (ih hlater'.going (hsame.peerBitfield ▸ hfits') hself' hs').mono
        fun _ _ hreached => ⟨hreached.1, hreached.2.of_less fun k hk => ?_⟩
      rw [hsame.pendingBlocks, hs]
      exact KeyedSet.has_insert.mpr (Or.inl hk)

/-- A session in its loop, unless it is about to deliver, can come to wait for the next
message. -/
theorem Going.bring (h : Going sha1 metadata peerId contents history w)
    (hfits : Fits metadata (w.sessions i).peerBitfield) (hin : (w.sessions i).inLoop = true)
    (hidle : ∀ index offset data, (w.sessions i).point ≠ .delivering index offset data) :
    CanReach sha1 metadata peerId contents
      (fun history' w' => Later sha1 metadata peerId contents history w history' w' ∧
        (w'.sessions i).point = .readingLength ∧
        ∀ k, (w.sessions i).AnswersFor k → (w'.sessions i).pendingBlocks.Has k) history w := by
  have hsane := ((h.kept hannounced).shared h.run).sane i
  unfold PeerSession.Sane at hsane
  cases hpoint : (w.sessions i).point with
  | readingLength =>
    exact Machine.CanReach.here ⟨h.later, hpoint, fun k => (PeerSession.answersFor_at hpoint).mp⟩
  | readingPayload len =>
    rw [hpoint] at hsane
    obtain ⟨n, rfl⟩ := Nat.exists_eq_succ_of_ne_zero
      (Nat.ne_of_gt (PeerSession.readsMessage_of_run (session_run h.run i) len hpoint))
    -- a message of a kind that the program does not know
    have hresume : (w.sessions i).resume (sessionConfig metadata peerId)
        (.read (some (9 :: List.replicate n 0))) = some (w.sessions i).loopHead := by
      refine PeerSession.resume_message ?_
      rw [hpoint, List.length_replicate]
    rw [PeerSession.Running.loopHead hsane] at hresume
    refine (h.turn_io hannounced hfits hresume ?_ ⟨rfl, id⟩ (by simp [PeerSession.suspend])).reach
      fun history' w' hlater hs => Machine.CanReach.here ⟨hlater.going.later, ?_, fun k hk => ?_⟩
    · rw [Swarm.honest, hpoint]
      exact decide_eq_true fun hpiece => absurd hpiece (by decide)
    · rw [hs]
      rfl
    · rw [hs]
      exact (PeerSession.answersFor_at hpoint).mp hk
  | writingInterested =>
    rw [hpoint] at hsane
    have hready : ((w.sessions i).setState .ready).Running :=
      ⟨hsane, by simp [PeerSession.setState]⟩
    have hresume : (w.sessions i).resume (sessionConfig metadata peerId) (.wrote true 5) =
        some ((w.sessions i).setState .ready).loopHead := by
      rw [PeerSession.resume.eq_def, hpoint]
    rw [hready.loopHead] at hresume
    refine (h.turn_io hannounced hfits hresume ?_ ⟨rfl, id⟩ (by simp [PeerSession.suspend])).reach
      fun history' w' hlater hs => Machine.CanReach.here ⟨hlater.going.later, ?_, fun k hk => ?_⟩
    · rw [Swarm.honest, hpoint]
    · rw [hs]
      rfl
    · rw [hs]
      exact (PeerSession.answersFor_at hpoint).mp hk
  | requesting left =>
    rw [hpoint] at hsane
    refine (h.settle hannounced (left + 1) hfits hsane
      (PeerSession.suspend_eq_self hpoint).symm).mono fun _ _ hreached => ?_
    exact ⟨hreached.1, hreached.2.1, fun k hk =>
      hreached.2.2 k ((PeerSession.answersFor_at hpoint).mp hk)⟩
  | writingRequest block left =>
    rw [hpoint] at hsane
    refine (h.writes hannounced hfits hpoint).reach fun history' w' hlater hs => ?_
    have hsame := PeerSession.same_requestLoop
      { w.sessions i with pendingBlocks := (w.sessions i).pendingBlocks.insert block } left
    rw [← hs] at hsame
    have hrunning : PeerSession.Running
        { w.sessions i with pendingBlocks := (w.sessions i).pendingBlocks.insert block } := hsane
    refine (hlater.going.settle hannounced left (hsame.peerBitfield ▸ hfits) hrunning hs).mono
      fun _ _ hreached => ⟨hreached.1, hreached.2.1, fun k hk => hreached.2.2 k ?_⟩
    rw [hsame.pendingBlocks]
    exact KeyedSet.has_insert.mpr ((PeerSession.answersFor_at hpoint).mp hk)
  | delivering index offset data => exact absurd hpoint (hidle index offset data)
  | _ => simp [PeerSession.inLoop, hpoint] at hin

/-! ## Delivering -/

/-- A block that has come is delivered. -/
theorem Going.deliver (h : Going sha1 metadata peerId contents history w) {index offset : Nat}
    {data : Bytes} (hpoint : (w.sessions i).point = .delivering index offset data) :
    CanReach sha1 metadata peerId contents
      (fun history' w' => Later sha1 metadata peerId contents history w history' w' ∧
        w'.sessions i = ((w.sessions i).forget ⟨index, offset, u32 data.length⟩).refill ∧
        PieceManager.deliveryCount metadata (managerHistory history) <
          PieceManager.deliveryCount metadata (managerHistory history')) history w := by
  have hkept := h.kept hannounced
  have hserved := hkept.served hannounced h.run
  obtain ⟨hheld, hdata⟩ := h.ready.deliveries i index offset data hpoint
  have haccount : (w.sessions i).AnswersFor (blockKey index offset) :=
    (PeerSession.answersFor_at hpoint).mpr hheld
  have hfits := h.ready.bitfields i _ haccount
  have hpending := (hkept.owes h.run haccount).1
  obtain ⟨block, hblock, hkey⟩ := blockOf_of_pending h.run hpending
  obtain ⟨rfl, rfl⟩ := blockKey_inj.mp hkey
  subst hdata
  obtain ⟨m, hcall⟩ := hserved.delivers hannounced (manager_run h.run) h.ready.opened hblock.index
    hpending .written
  have hop : (w.sessions i).operation .written = some (.deliverBlock block.pieceIndex block.offset
      (slice (contents block.pieceIndex) block.offset blockLen) .written) := by
    rw [PeerSession.operation, hpoint]
  have happly : w.manager.apply sha1 (.deliverBlock block.pieceIndex block.offset
      (slice (contents block.pieceIndex) block.offset blockLen) .written) =
        .ok (.reply (.ok true), m) := by
    rw [PieceManager.apply, hcall]
    rfl
  have hanswered : (w.sessions i).answered (.reply (.ok true)) =
      some ((w.sessions i).afterDelivery block.pieceIndex block.offset
        (slice (contents block.pieceIndex) block.offset blockLen) (.ok true)) := by
    rw [PeerSession.answered.eq_def, hpoint]
    rfl
  have hhonest : w.honest contents (i, .call .written (.reply (.ok true))) = true := by
    rw [Swarm.honest, hpoint]
    exact Bool.and_eq_true_iff.mpr ⟨decide_eq_true ⟨hheld, rfl⟩, rfl⟩
  have hsteady : (w.sessions i).Steady ((w.sessions i).forget ⟨block.pieceIndex, block.offset,
      u32 (slice (contents block.pieceIndex) block.offset blockLen).length⟩) := ⟨rfl, id⟩
  obtain ⟨event, w', hstep, hhonest', hlater, hsession⟩ :=
    h.turn_call hannounced hfits hop happly hanswered hhonest
      (hsteady.same (PeerSession.same_refill _)) (PeerSession.requestLoop_not_delivering _)
  refine Machine.CanReach.step hstep hhonest' (Machine.CanReach.here ⟨hlater, hsession, ?_⟩)
  obtain ⟨fate, r, rfl, _⟩ := delivery_of_step hpoint hstep
  unfold managerHistory
  rw [Machine.project_cons_some (callOf_delivering hpoint)]
  exact PieceManager.deliveryCount_delivery hblock.index

/-- A block that a session waits for comes and is delivered. -/
theorem Going.send (h : Going sha1 metadata peerId contents history w)
    (hpoint : (w.sessions i).point = .readingLength) {k : BlockKey}
    (hk : (w.sessions i).pendingBlocks.Has k) :
    CanReach sha1 metadata peerId contents
      (fun history' w' => Later sha1 metadata peerId contents history w history' w' ∧
        PieceManager.deliveryCount metadata (managerHistory history) <
          PieceManager.deliveryCount metadata (managerHistory history')) history w := by
  have hkept := h.kept hannounced
  have haccount : (w.sessions i).AnswersFor k := (PeerSession.answersFor_at hpoint).mpr hk
  have hfits := h.ready.bitfields i k haccount
  have hpending := (hkept.owes h.run haccount).1
  obtain ⟨block, hblock, rfl⟩ := blockOf_of_pending h.run hpending
  have hindex : block.pieceIndex < 2 ^ 32 := Nat.lt_of_lt_of_le hblock.index hannounced.few
  have hoffset : block.offset < 2 ^ 32 := by
    obtain ⟨k, len, hlen, hk, hinside, _⟩ := hblock.shape
    have hlt := (TorrentMetadata.Info.getPieceLength_le hlen).2
    omega
  generalize hdata : slice (contents block.pieceIndex) block.offset blockLen = data
  have hsmall : data.length ≤ blockLen := by
    rw [← hdata, length_slice]
    exact Nat.min_le_left _ _
  have hlen : (PeerSession.piecePayload block.pieceIndex block.offset data).length + 1 =
      data.length + 9 := by
    simp [PeerSession.piecePayload, htonl]
  have hblockLen : blockLen = 16384 := rfl
  obtain ⟨_, w₁, hstep₁, hhonest₁, hlater₁, hs₁⟩ := h.turn_io hannounced hfits
    (PeerSession.resume_length hpoint (show 0 < data.length + 9 by omega) (by omega))
    (by rw [Swarm.honest, hpoint]) ⟨rfl, id⟩ (by simp [PeerSession.suspend])
  have hpoint₁ : (w₁.sessions i).point = .readingPayload (data.length + 9) := by
    rw [hs₁]
    rfl
  have hresume₂ : (w₁.sessions i).resume (sessionConfig metadata peerId)
      (.read (some (Msg.Id.piece.toByte ::
        PeerSession.piecePayload block.pieceIndex block.offset data))) =
      some ((w₁.sessions i).suspend (.delivering block.pieceIndex block.offset data)) := by
    rw [PeerSession.resume_message (by rw [hpoint₁, hlen])]
    have hhandle : (w₁.sessions i).handleMessage (sessionConfig metadata peerId)
        Msg.Id.piece.toByte (PeerSession.piecePayload block.pieceIndex block.offset data) =
        (w₁.sessions i).handlePiece
          (PeerSession.piecePayload block.pieceIndex block.offset data) := rfl
    rw [hhandle, PeerSession.handlePiece,
      PeerSession.parsePiece_piecePayload hindex hoffset data]
  have hheld : (w₁.sessions i).pendingBlocks.Has block.key := by
    rw [hs₁]
    exact hk
  have hfits₁ : Fits metadata (w₁.sessions i).peerBitfield := by
    rw [hs₁]
    exact hfits
  have hhonest : w₁.honest contents (i, .io (.read (some (Msg.Id.piece.toByte ::
      PeerSession.piecePayload block.pieceIndex block.offset data)))) = true := by
    rw [Swarm.honest, hpoint₁]
    exact decide_eq_true fun _ => by omega
  obtain ⟨_, w₂, hstep₂, hhonest₂, hlater₂, hs₂⟩ :=
    hlater₁.going.turn_io hannounced hfits₁ hresume₂ hhonest ⟨rfl, id⟩ (by
      intro index offset d hcome
      obtain ⟨rfl, rfl, rfl⟩ := Point.delivering.inj hcome
      exact ⟨hheld, hdata.symm⟩)
  have hpoint₂ : (w₂.sessions i).point = .delivering block.pieceIndex block.offset data := by
    rw [hs₂]
    rfl
  refine Machine.CanReach.step hstep₁ hhonest₁ (Machine.CanReach.step hstep₂ hhonest₂
    ((hlater₂.going.deliver hannounced hpoint₂).mono fun _ _ hreached => ?_))
  have hlater := hlater₁.trans hlater₂
  exact ⟨hlater.trans hreached.1, Nat.lt_of_le_of_lt hlater.delivered hreached.2.2⟩

/-! ## To the end -/

/-- While somebody answers for a block, one more block can be delivered. -/
theorem Going.progress (h : Going sha1 metadata peerId contents history w) {k : BlockKey}
    (hk : (w.sessions i).AnswersFor k) :
    CanReach sha1 metadata peerId contents
      (fun history' w' => Later sha1 metadata peerId contents history w history' w' ∧
        PieceManager.deliveryCount metadata (managerHistory history) <
          PieceManager.deliveryCount metadata (managerHistory history')) history w := by
  have hkept := h.kept hannounced
  have hin := PeerSession.inLoop_of_answersFor ((hkept.shared h.run).sane i)
    (hkept.not_returning h.run) hk
  by_cases hcome : ∃ index offset data, (w.sessions i).point = .delivering index offset data
  · obtain ⟨index, offset, data, hpoint⟩ := hcome
    exact (h.deliver hannounced hpoint).mono fun _ _ hreached => ⟨hreached.1, hreached.2.2⟩
  · refine (h.bring hannounced (h.ready.bitfields i k hk) hin ?_).trans fun _ _ hreached => ?_
    · exact fun index offset data hpoint => hcome ⟨index, offset, data, hpoint⟩
    · obtain ⟨hlater, hpoint, hheld⟩ := hreached
      refine (hlater.going.send hannounced hpoint (hheld k hk)).mono fun _ _ hsent => ?_
      exact ⟨hlater.trans hsent.1, Nat.lt_of_le_of_lt hlater.delivered hsent.2⟩

/-- Nothing is left when nobody waits for anything and the seeded session has stopped
asking. -/
theorem Going.complete (h : Going sha1 metadata peerId contents history w)
    (hsupplied : Supplied metadata j w) (hrest : (w.sessions j).atRest = true)
    (hnone : ∀ i k, ¬ (w.sessions i).AnswersFor k) : w.manager.isComplete = true := by
  have hkept := h.kept hannounced
  have hdrained := hsupplied.filling.drained hsupplied.unchoked hrest
    fun k hk => hnone j k (hkept.answers j k hk)
  refine PieceManager.complete_of_drained hannounced (manager_run h.run) hkept.serves hdrained ?_
  intro k hk
  obtain ⟨_, hcovered⟩ := covered_of_run h.run hkept.blocks
  obtain ⟨i, _, hi⟩ := hcovered k hk
  exact hnone i k hi

/-- Either the download is complete, or one more block can be delivered. -/
theorem Going.round (h : Going sha1 metadata peerId contents history w)
    (hsupplied : Supplied metadata j w) :
    CanReach sha1 metadata peerId contents
      (fun history' w' => Later sha1 metadata peerId contents history w history' w' ∧
        (w'.manager.isComplete = true ∨
          PieceManager.deliveryCount metadata (managerHistory history) <
            PieceManager.deliveryCount metadata (managerHistory history'))) history w := by
  by_cases hwaits : ∃ i k, (w.sessions i).AnswersFor k
  · obtain ⟨i, k, hk⟩ := hwaits
    exact (h.progress hannounced hk).mono fun _ _ hreached => ⟨hreached.1, Or.inr hreached.2⟩
  have hnone : ∀ i k, ¬ (w.sessions i).AnswersFor k := fun i k hk => hwaits ⟨i, k, hk⟩
  by_cases hrest : (w.sessions j).atRest = true
  · exact Machine.CanReach.here ⟨h.later, Or.inl (h.complete hannounced hsupplied hrest hnone)⟩
  have hidle : ∀ index offset data, (w.sessions j).point ≠ .delivering index offset data := by
    intro index offset data hpoint
    exact hnone j _ ((PeerSession.answersFor_at hpoint).mpr
      (h.ready.deliveries j index offset data hpoint).1)
  have hin : (w.sessions j).inLoop = true := by
    unfold PeerSession.atRest at hrest
    unfold PeerSession.inLoop
    cases hpoint : (w.sessions j).point with
    | returning block rest after =>
      exact absurd hpoint ((h.kept hannounced).not_returning h.run block rest after)
    | _ => simp_all
  -- the session goes on asking, and then waits, so that somebody waits or nothing is left
  refine (h.bring hannounced ⟨hsupplied.seeds.sized, hsupplied.seeds.spare⟩ hin hidle).trans
    fun history' w' hreached => ?_
  obtain ⟨hlater, hpoint, _⟩ := hreached
  by_cases hwaits' : ∃ i k, (w'.sessions i).AnswersFor k
  · obtain ⟨i, k, hk⟩ := hwaits'
    refine (hlater.going.progress hannounced hk).mono fun _ _ hsent => ?_
    exact ⟨hlater.trans hsent.1, Or.inr (Nat.lt_of_le_of_lt hlater.delivered hsent.2)⟩
  · refine Machine.CanReach.here ⟨hlater, Or.inl ?_⟩
    refine hlater.going.complete hannounced (hlater.supplied j hsupplied) ?_
      fun i k hk => hwaits' ⟨i, k, hk⟩
    rw [PeerSession.atRest, hpoint]

/-- Every session in its loop can come to wait for a message. -/
theorem Going.listen (h : Going sha1 metadata peerId contents history w)
    (hfits : Fits metadata (w.sessions i).peerBitfield) (hin : (w.sessions i).inLoop = true) :
    CanReach sha1 metadata peerId contents
      (fun history' w' => Later sha1 metadata peerId contents history w history' w' ∧
        (w'.sessions i).point = .readingLength) history w := by
  by_cases hcome : ∃ index offset data, (w.sessions i).point = .delivering index offset data
  · obtain ⟨index, offset, data, hpoint⟩ := hcome
    refine (h.deliver hannounced hpoint).trans fun history' w' hreached => ?_
    obtain ⟨hlater, hsession, _⟩ := hreached
    have hsane := ((h.kept hannounced).shared h.run).sane i
    unfold PeerSession.Sane at hsane
    rw [hpoint] at hsane
    have hrunning : ((w.sessions i).forget ⟨index, offset, u32 data.length⟩).Running := hsane
    refine (hlater.going.settle hannounced _ ((hlater.steady i).peerBitfield ▸ hfits) hrunning
      hsession).mono fun _ _ hreached => ?_
    exact ⟨hlater.trans hreached.1, hreached.2.1⟩
  · refine (h.bring hannounced hfits hin ?_).mono fun _ _ hreached => ⟨hreached.1, hreached.2.1⟩
    exact fun index offset data hpoint => hcome ⟨index, offset, data, hpoint⟩

/-- A seed unchokes its session, which then fills its pipeline. -/
theorem Going.unchoke (h : Going sha1 metadata peerId contents history w)
    (hpoint : (w.sessions j).point = .readingLength)
    (hseeds : PieceManager.Seeds metadata (w.sessions j).peerBitfield) :
    CanReach sha1 metadata peerId contents
      (fun history' w' => Going sha1 metadata peerId contents history' w' ∧
        Supplied metadata j w') history w := by
  have hfits : Fits metadata (w.sessions j).peerBitfield := ⟨hseeds.sized, hseeds.spare⟩
  obtain ⟨_, w₁, hstep₁, hhonest₁, hlater₁, hs₁⟩ := h.turn_io hannounced hfits
    (PeerSession.resume_length hpoint Nat.one_pos (by decide))
    (by rw [Swarm.honest, hpoint]) ⟨rfl, id⟩ (by simp [PeerSession.suspend])
  have hpoint₁ : (w₁.sessions j).point = .readingPayload 1 := by
    rw [hs₁]
    rfl
  have hresume₂ : (w₁.sessions j).resume (sessionConfig metadata peerId)
      (.read (some [Msg.Id.unchoke.toByte])) =
        some { w₁.sessions j with peerChoking := false }.refill :=
    PeerSession.resume_message hpoint₁
  have hsteady : (w₁.sessions j).Steady { w₁.sessions j with peerChoking := false } :=
    ⟨rfl, fun _ => rfl⟩
  obtain ⟨_, w₂, hstep₂, hhonest₂, hlater₂, hs₂⟩ :=
    hlater₁.going.turn_io hannounced (hs₁ ▸ hfits) hresume₂
      (by
        rw [Swarm.honest, hpoint₁]
        exact decide_eq_true fun hpiece => absurd hpiece (by decide))
      (hsteady.same (PeerSession.same_refill _))
      (fun index offset data hcome =>
        absurd hcome (PeerSession.requestLoop_not_delivering _ index offset data))
  have hsame := PeerSession.same_refill { w₁.sessions j with peerChoking := false }
  have hroom := PeerSession.hasRoom_of_run (session_run hlater₁.going.run j)
  refine Machine.CanReach.step hstep₁ hhonest₁ (Machine.CanReach.step hstep₂ hhonest₂
    (Machine.CanReach.here ⟨hlater₂.going, ⟨?_, ?_⟩, ?_, ?_⟩))
  · intro block left hwriting
    rw [hs₂] at hwriting
    exact absurd hwriting (PeerSession.refill_point block left)
  · intro _
    rw [hs₂]
    exact Or.inl (PeerSession.full_refill hroom.size_le)
  · rw [hs₂, hsame.peerBitfield, hs₁]
    exact hseeds
  · rw [hs₂, hsame.peerChoking]

/-- A seed takes the download to its end. -/
theorem Going.finish (h : Going sha1 metadata peerId contents history w)
    (hsupplied : Supplied metadata j w) :
    CanReach sha1 metadata peerId contents
      (fun history' w' => Going sha1 metadata peerId contents history' w' ∧
        w'.manager.isComplete = true) history w := by
  refine Machine.canReach_of_rank
    (I := fun history w => Going sha1 metadata peerId contents history w ∧
      Supplied metadata j w)
    (fun history => PieceManager.totalCount metadata contents -
      PieceManager.deliveryCount metadata (managerHistory history)) ?_ history w ⟨h, hsupplied⟩
  intro history w hgoing
  refine (hgoing.1.round hannounced hgoing.2).mono fun history' w' hreached => ?_
  obtain ⟨hlater, hcomplete | hmore⟩ := hreached
  · exact Or.inl ⟨hlater.going, hcomplete⟩
  · have hserved := (hlater.going.kept hannounced).served hannounced hlater.going.run
    have hle := hserved.deliveryCount_le
    exact Or.inr ⟨⟨hlater.going, hlater.supplied j hgoing.2⟩, by omega⟩

end Asking

/-- A run that is ready, with a session in its loop whose peer is a seed, can go on to the
end of the download. -/
theorem Going.canComplete (h : Going sha1 metadata peerId contents history w)
    (hannounced : PieceManager.Announced sha1 metadata contents)
    (hin : (w.sessions j).inLoop = true)
    (hseeds : PieceManager.Seeds metadata (w.sessions j).peerBitfield) :
    CanReach sha1 metadata peerId contents
      (fun history' w' => Going sha1 metadata peerId contents history' w' ∧
        w'.manager.isComplete = true) history w := by
  refine (h.listen hannounced ⟨hseeds.sized, hseeds.spare⟩ hin).trans
    fun history₁ w₁ hlistening => ?_
  obtain ⟨hlater, hpoint⟩ := hlistening
  have hseeds₁ : PieceManager.Seeds metadata (w₁.sessions j).peerBitfield :=
    (hlater.steady j).peerBitfield ▸ hseeds
  exact (hlater.going.unchoke hannounced hpoint hseeds₁).trans fun _ _ hsupplied =>
    hsupplied.1.finish hannounced hsupplied.2

/-- Then every piece was verified as the content that was announced. -/
theorem Going.verified (h : Going sha1 metadata peerId contents history w)
    (hannounced : PieceManager.Announced sha1 metadata contents)
    (hcomplete : w.manager.isComplete = true) {p : Nat} (hp : p < metadata.numPieces) :
    PieceManager.verifiedBuffer p (managerHistory history) = some (contents p) := by
  have hdone := (PieceManager.isComplete_iff_of_run (manager_run h.run)).mp hcomplete p hp
  exact ((h.kept hannounced).served hannounced h.run).verified hp hdone

/-- **Every download can be completed.**  Take any run of any number of sessions, in any
interleaving, in which peers are honest and the disk works, up to a state in which the
peers that owe blocks have bitfields of the size of the torrent's with no bit behind the
last piece, what has come from them is what was asked for, and the file is open; and any
session in its loop whose peer is a seed.  Then the run can go on, honestly, to a state in
which every piece is finished and was verified as the content that was announced.

That it can go on rests on peers that owe blocks: where one has choked us since, it answers
the requests that it dropped. -/
theorem download_can_complete (hannounced : PieceManager.Announced sha1 metadata contents)
    (hrun : (machine sha1 metadata peerId).Run history w)
    (hhonest : Machine.Guarded (fun w l => w.honest contents l = true) history)
    (hready : Ready metadata contents w) (hin : (w.sessions j).inLoop = true)
    (hseeds : PieceManager.Seeds metadata (w.sessions j).peerBitfield) :
    ∃ more w', ((machine sha1 metadata peerId).startingAt w).Run more w' ∧
      Machine.Guarded (fun w l => w.honest contents l = true) more ∧
      w'.manager.isComplete = true ∧ ∀ p < metadata.numPieces,
        PieceManager.verifiedBuffer p (managerHistory (more ++ history)) = some (contents p) := by
  have hgoing : Going sha1 metadata peerId contents history w := ⟨hrun, hhonest, hready⟩
  obtain ⟨more, w', hmore, hguarded, hend, hcomplete⟩ := hgoing.canComplete hannounced hin hseeds
  exact ⟨more, w', hmore, hguarded, hcomplete, fun p hp => hend.verified hannounced hcomplete hp⟩

theorem download_can_complete_twoPieces :
    ∃ history more, ∃ w w' : Swarm Bool,
      (machine PieceManager.sampleSha1 PieceManager.zeroSevenSeven samplePeerId).Run history w ∧
      (∀ i, ∃ k, (w.sessions i).pendingBlocks.Has k) ∧
      ((machine PieceManager.sampleSha1 PieceManager.zeroSevenSeven samplePeerId).startingAt w).Run
        more w' ∧
      w'.manager.isComplete = true ∧
      PieceManager.verifiedBuffer 0 (managerHistory (more ++ history)) = some [0, 7] ∧
      PieceManager.verifiedBuffer 1 (managerHistory (more ++ history)) = some [7] := by
  have hfire : (fireAll PieceManager.sampleSha1
      (sessionConfig PieceManager.zeroSevenSeven samplePeerId)
      (new PieceManager.zeroSevenSeven PieceManager.emptyFile true) twoAsk []).any
        (fun r => r.1.all (fun t => t.source.honest PieceManager.zeroSevenPieces t.label) &&
        decide (r.2.manager.fileHandler.isOpen = true ∧ (r.2.sessions false).inLoop = true ∧
          (r.2.sessions true).peerBitfield = [128] ∧ (r.2.sessions false).peerBitfield = [192] ∧
          (r.2.sessions true).pendingBlocks.Has (blockKey 0 0) ∧
          (r.2.sessions false).pendingBlocks.Has (blockKey 1 0) ∧
          ∀ i, (r.2.sessions i).atRest = true)) = true := by
    decide +kernel
  obtain ⟨history, w, hrun, hchecks⟩ := exists_run hfire
  simp only [Bool.and_eq_true, List.all_eq_true, decide_eq_true_eq] at hchecks
  obtain ⟨hsteps, hopened, hin, hfirst, hsecond, hasked, hasked', hrest⟩ := hchecks
  have hseeds : PieceManager.Seeds PieceManager.zeroSevenSeven (w.sessions false).peerBitfield := by
    rw [hsecond]
    exact seeds_zeroSevenSeven
  have hready : Ready PieceManager.zeroSevenSeven PieceManager.zeroSevenPieces w := by
    refine ⟨fun i k _ => ?_, ?_, hopened⟩
    · cases i with
      | false => exact ⟨hseeds.sized, hseeds.spare⟩
      | true =>
        rw [hfirst]
        exact ⟨rfl, PieceManager.spareClear_of_bits (by decide)⟩
    · intro i index offset data hpoint
      have hbusy := hrest i
      rw [PeerSession.atRest, hpoint] at hbusy
      cases hbusy
  obtain ⟨more, w', hmore, _, hcomplete, hall⟩ :=
    download_can_complete announced_zeroSevenSeven hrun hsteps hready hin hseeds
  refine ⟨history, more, w, w', hrun, fun i => ?_, hmore, hcomplete, hall 0 (by decide),
    hall 1 (by decide)⟩
  cases i with
  | false => exact ⟨_, hasked'⟩
  | true => exact ⟨_, hasked⟩

end Swarm

end BitTorrentClient
