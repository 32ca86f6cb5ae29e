/-
  App/Swarm/Refill.lean --- what a session asks for after a PIECE message.

  When the manager takes a block, the session fills its pipeline up; when the manager
  refuses it, the session goes back to its loop and asks for nothing.  A refused block
  stays in the set, and so does its place in the pipeline: asked for again, it does not
  make the set larger.  So the pipeline is filled up, as far as the peer has something
  to offer, unless the manager refuses the block or one of the blocks that are asked for
  is in the set already.
-/
import BitTorrentClient.App.Swarm.Exclusive
import BitTorrentClient.App.Swarm.Views
import BitTorrentClient.App.PeerSession.Capacity
import BitTorrentClient.App.PieceManager.Offers
import BitTorrentClient.Library.Outcome

set_option autoImplicit false

namespace BitTorrentClient

open Library

namespace PieceManager

variable {sha1 : Bytes → Sha1Hash} {metadata : TorrentMetadata} {m m' : PieceManager}
  {idx offset : Nat} {data peerBitfield : Bytes} {fate : DiskFate} {r : Reply}
  {pending : PendingPiece} {p k : Nat}

/-! ## What a delivery changes -/

/-- What a peer offers when the manager has taken or refused a block, in terms of the
state before. -/
structure OffersThen (sha1 : Bytes → Sha1Hash) (m : PieceManager) (idx offset : Nat)
    (data peerBitfield : Bytes) (p k : Nat) : Prop where
  peerHas : pieceBit peerBitfield p = true
  unfinished : m.finished[p]? = some false
  /-- the block does not finish the piece -/
  incomplete : p = idx → ∀ pending, ¬ m.Verifies sha1 idx offset data pending
  inside : ∃ len, m.getPieceLength p = .ok len ∧ k * blockLen < len
  /-- the search begins anew in a piece that is thrown away -/
  free : Free m p k ∨ p = idx ∧ m.Rejects sha1 idx offset data
  /-- the block itself is not pending any more, if it lies inside its piece -/
  idle : ¬ Pending m p k ∨
    blockKey p (k * blockLen) = blockKey idx offset ∧ ∃ pending, m.Accepts idx offset data pending

theorem Accepts.not_verifies (h : m.Accepts idx offset data pending)
    (hwaits : (pending.receive offset data).isFinished = false) (pending' : PendingPiece) :
    ¬ m.Verifies sha1 idx offset data pending' := by
  intro hv
  obtain rfl := h.unique hv.toAccepts
  rw [hv.complete] at hwaits
  cases hwaits

theorem Rejects.not_verifies (h : m.Rejects sha1 idx offset data) (pending' : PendingPiece) :
    ¬ m.Verifies sha1 idx offset data pending' := by
  intro hv
  obtain ⟨pending, expected, ha, _, hhash, hne⟩ := h
  obtain rfl := ha.unique hv.toAccepts
  exact hne (Option.some.inj (hhash.symm.trans hv.hash))

theorem Rejects.accepts (h : m.Rejects sha1 idx offset data) :
    ∃ pending, m.Accepts idx offset data pending := by
  obtain ⟨pending, _, ha, _⟩ := h
  exact ⟨pending, ha⟩

theorem Rejects.complete (h : m.Rejects sha1 idx offset data)
    (ha : m.Accepts idx offset data pending) : (pending.receive offset data).isFinished = true := by
  obtain ⟨pending', _, ha', hcomplete, _⟩ := h
  obtain rfl := ha.unique ha'
  exact hcomplete

theorem not_accepts_of_finished (hdone : m.finished[idx]? = some true) :
    ¬ m.Accepts idx offset data pending := by
  intro ha
  have hunfinished := ha.unfinished
  rw [hdone] at hunfinished
  cases hunfinished

theorem not_accepts_of_out {pending' : PendingPiece} (hopen : m.openPending idx = .ok pending)
    (hout : pending.data.length < offset + data.length) :
    ¬ m.Accepts idx offset data pending' := by
  intro ha
  obtain rfl := Except.ok.inj (hopen.symm.trans ha.opened)
  exact absurd ha.fits (Nat.not_le.mpr hout)

/-- A block inside its piece is not pending any more. -/
theorem Delivery.has_iff (h : m.Delivery sha1 idx offset data fate r m') (b : BlockKey) :
    m'.pendingBlocks.Has b ↔ m.pendingBlocks.Has b ∧
      ¬ (b = blockKey idx offset ∧ ∃ pending, m.Accepts idx offset data pending) := by
  have herased : ∀ pending, m.Accepts idx offset data pending →
      ((m.stored idx offset data pending).pendingBlocks.Has b ↔ m.pendingBlocks.Has b ∧
        ¬ (b = blockKey idx offset ∧ ∃ pending, m.Accepts idx offset data pending)) := by
    intro pending ha
    refine KeyedSet.has_erase.trans (and_congr_right fun _ => not_congr ?_)
    exact (and_iff_left ⟨pending, ha⟩).symm
  have hkept : (∀ pending, ¬ m.Accepts idx offset data pending) →
      (m.pendingBlocks.Has b ↔ m.pendingBlocks.Has b ∧
        ¬ (b = blockKey idx offset ∧ ∃ pending, m.Accepts idx offset data pending)) := by
    intro hnone
    exact (and_iff_left fun hboth => hboth.2.elim hnone).symm
  cases h with
  | finished hdone => exact hkept fun _ => not_accepts_of_finished hdone
  | outOfBounds _ hopen hout => exact hkept fun _ => not_accepts_of_out hopen hout
  | stored ha _ => exact herased _ ha
  | discarded ha _ _ _ _ => exact herased _ ha
  | threw hv _ => exact herased _ hv.toAccepts
  | completed hv _ _ _ => exact herased _ hv.toAccepts

/-- A piece is finished by a block that completes it. -/
theorem Delivery.unfinished_iff (h : m.Delivery sha1 idx offset data fate r m')
    (hreturns : ∀ e, r ≠ .error e) (p : Nat) :
    m'.finished[p]? = some false ↔
      m.finished[p]? = some false ∧
        (p = idx → ∀ pending, ¬ m.Verifies sha1 idx offset data pending) := by
  have hkept : (∀ pending, ¬ m.Verifies sha1 idx offset data pending) →
      (m.finished[p]? = some false ↔ m.finished[p]? = some false ∧
        (p = idx → ∀ pending, ¬ m.Verifies sha1 idx offset data pending)) :=
    fun hnone => (and_iff_left fun _ => hnone).symm
  cases h with
  | finished hdone => exact hkept fun _ hv => not_accepts_of_finished hdone hv.toAccepts
  | outOfBounds _ hopen hout => exact hkept fun _ hv => not_accepts_of_out hopen hout hv.toAccepts
  | stored ha hwaits => exact hkept (ha.not_verifies hwaits)
  | discarded ha hcomplete hhash hne _ =>
    exact hkept (Rejects.not_verifies ⟨_, _, ha, hcomplete, hhash, hne⟩)
  | threw _ _ => exact absurd rfl (hreturns _)
  | completed hv _ hidx _ =>
    change (m.finished.set idx true)[p]? = some false ↔ _
    by_cases heq : p = idx
    · subst heq
      refine iff_of_false ?_ fun hboth => hboth.2 rfl _ hv
      rw [List.getElem?_set_self hidx]
      simp
    · rw [List.getElem?_set_ne (Ne.symm heq)]
      exact (and_iff_left fun hsame => absurd hsame heq).symm

/-- A piece that is thrown away is searched from its start. -/
theorem Delivery.free_iff (h : m.Delivery sha1 idx offset data fate r m') (p k : Nat) :
    Free m' p k ↔ Free m p k ∨ p = idx ∧ m.Rejects sha1 idx offset data := by
  have hkept : ¬ m.Rejects sha1 idx offset data →
      (Free m p k ↔ Free m p k ∨ p = idx ∧ m.Rejects sha1 idx offset data) :=
    fun hnot => (or_iff_left fun hboth => hnot hboth.2).symm
  cases h with
  | finished hdone =>
    exact hkept fun hr => hr.accepts.elim fun _ => not_accepts_of_finished hdone
  | outOfBounds _ hopen hout =>
    exact hkept fun hr => hr.accepts.elim fun _ => not_accepts_of_out hopen hout
  | stored ha hwaits =>
    refine hkept fun hr => ?_
    rw [hr.complete ha] at hwaits
    cases hwaits
  | discarded ha hcomplete hhash hne hidx =>
    change (∃ next, (m.nextOffsets.set idx 0)[p]? = some next ∧ next ≤ k * blockLen) ↔ _
    by_cases heq : p = idx
    · subst heq
      refine iff_of_true ⟨0, List.getElem?_set_self hidx, Nat.zero_le _⟩ ?_
      exact Or.inr ⟨rfl, _, _, ha, hcomplete, hhash, hne⟩
    · rw [List.getElem?_set_ne (Ne.symm heq)]
      exact (or_iff_left fun hboth => heq hboth.1).symm
  | threw hv _ => exact hkept fun hr => hr.not_verifies _ hv
  | completed hv _ _ _ => exact hkept fun hr => hr.not_verifies _ hv

theorem Delivery.getPieceLength (h : m.Delivery sha1 idx offset data fate r m') (p : Nat) :
    m'.getPieceLength p = m.getPieceLength p := by
  cases h <;> rfl

/-- What a peer offers after a delivery. -/
theorem Delivery.offers_iff (h : m.Delivery sha1 idx offset data fate r m')
    (hreturns : ∀ e, r ≠ .error e) (p k : Nat) :
    m'.Offers peerBitfield p k ↔ m.OffersThen sha1 idx offset data peerBitfield p k := by
  have hidle : ¬ Pending m' p k ↔ ¬ Pending m p k ∨
      blockKey p (k * blockLen) = blockKey idx offset ∧
        ∃ pending, m.Accepts idx offset data pending := by
    rw [Pending, h.has_iff, not_and_or, not_not]
    exact Iff.rfl
  constructor
  · rintro ⟨hpeer, hunfinished, ⟨hinside, hfree, hnot⟩⟩
    obtain ⟨hunfinished, hincomplete⟩ := (h.unfinished_iff hreturns p).mp hunfinished
    rw [h.getPieceLength] at hinside
    exact ⟨hpeer, hunfinished, hincomplete, hinside, (h.free_iff p k).mp hfree, hidle.mp hnot⟩
  · rintro ⟨hpeer, hunfinished, hincomplete, hinside, hfree, hnot⟩
    rw [← h.getPieceLength] at hinside
    exact ⟨hpeer, (h.unfinished_iff hreturns p).mpr ⟨hunfinished, hincomplete⟩,
      ⟨hinside, (h.free_iff p k).mpr hfree, hidle.mpr hnot⟩⟩

end PieceManager

namespace Swarm

variable {ι : Type} [DecidableEq ι] {sha1 : Bytes → Sha1Hash} {metadata : TorrentMetadata}
  {peerId : Bytes} {w w' : Swarm ι} {i : ι} {index offset : Nat} {data : Bytes}
  {history : List (Transition (Swarm ι) (ι × Event))}

/-! ## Only blocks of the torrent -/

/-- What a session waits for or answers for are blocks of the torrent. -/
def AsksOf (metadata : TorrentMetadata) (w : Swarm ι) : Prop :=
  ∀ i k, (w.sessions i).pendingBlocks.Has k ∨ (w.sessions i).AnswersFor k →
    ∃ block, PieceManager.BlockOf metadata block ∧ block.key = k

/-- A session answers for nothing new but what it was lent. -/
theorem Books.account {event : Event} {L : Ledger ι BlockKey} (h : Books sha1 w i event L) {j : ι}
    {k : BlockKey} (hk : k ∈ L.account j) :
    (w.sessions j).AnswersFor k ∨ k ∈ L.lent := by
  -- a release that leaves a session with less leaves it with what it answered for
  have hless : ∀ back account : Set BlockKey, account ⊆ w.ledger.account i →
      k ∈ (w.ledger.release i back account).account j → (w.sessions j).AnswersFor k := by
    intro back account hsub hk
    by_cases heq : j = i
    · subst heq
      exact hsub (by simpa [Ledger.release] using hk)
    · have hk : k ∈ w.ledger.account j := by simpa [Ledger.release, heq] using hk
      exact hk
  cases h with
  | same => exact Or.inl hk
  | lent _ =>
    rcases Ledger.mem_account_lend.mp hk with hk | ⟨rfl, rfl⟩
    · exact Or.inl hk
    · exact Or.inr (Or.inl rfl)
  | unwritten hpoint =>
    exact Or.inl (hless _ _ (fun _ hb => (PeerSession.answersFor_at hpoint).mpr (Or.inl hb)) hk)
  | malformed _ _ _ => exact Or.inl (hless _ _ (Set.empty_subset _) hk)
  | known _ _ => exact Or.inl (hless _ _ Set.sdiff_subset hk)
  | taken _ _ => exact Or.inl (hless _ _ Set.sdiff_subset hk)
  | rejected _ _ => exact Or.inl (hless _ _ (Set.Subset.refl _) hk)
  | threw _ _ => exact Or.inl (hless _ _ (Set.empty_subset _) hk)
  | returned hpoint =>
    refine Or.inl (hless _ _ ?_ hk)
    rintro b ⟨block, hblock, rfl⟩
    exact (PeerSession.answersFor_at hpoint).mpr ⟨block, List.mem_cons_of_mem _ hblock, rfl⟩
  | repaid _ => exact Or.inl (hless _ _ (Set.Subset.refl _) hk)

/-- What the manager holds is of the torrent. -/
theorem blockOf_of_pending (hrun : (machine sha1 metadata peerId).Run history w) {k : BlockKey}
    (hk : w.manager.pendingBlocks.Has k) :
    ∃ block, PieceManager.BlockOf metadata block ∧ block.key = k := by
  obtain ⟨block, hmem, hkey⟩ := hk
  exact ⟨block, PieceManager.pendingFit_of_run (manager_run hrun) block hmem, hkey⟩

theorem sane_of_run (hrun : (machine sha1 metadata peerId).Run history w) : w.Sane := by
  refine hrun.invariant ?_ fun w l w' h hstep => ?_
  · rintro w ⟨disk, tracked, rfl⟩
    exact sane_new disk tracked
  · obtain ⟨action, hfire⟩ := hstep
    exact (fire_moved h hfire).1

theorem asksOf_of_run (hrun : (machine sha1 metadata peerId).Run history w) :
    AsksOf metadata w := by
  induction hrun with
  | start hinit =>
    obtain ⟨disk, tracked, rfl⟩ := hinit
    intro i k hk
    exact absurd hk (by simp [new, PeerSession.new, PeerSession.AnswersFor])
  | @snoc history w w' l hsofar hstep ih =>
    obtain ⟨i, event⟩ := l
    have hnext := hsofar.snoc hstep
    obtain ⟨action, hfire⟩ := hstep
    have hsane := sane_of_run hsofar
    obtain ⟨_, hmoved⟩ := fire_moved hsane hfire
    intro j k hk
    rcases hk with hk | hk
    · rcases hmoved.has hk with hk | ⟨rfl, block, left, len, hpoint, _, rfl⟩
      · exact ih j k (Or.inl hk)
      · exact ih j _ (Or.inr ((PeerSession.answersFor_at hpoint).mpr (Or.inr rfl)))
    · rcases (hmoved.books hsane).account hk with hk | hk
      · exact ih j k (Or.inr hk)
      · exact blockOf_of_pending hnext hk

/-! ## Handling a message -/

/-- No write fails. -/
def Succeeds : Action → Prop
  | .io (.wrote ok _) => ok = true
  | .io _ => False
  | .call fate => fate = .written

/-- The session `i` goes on with the message that it handles: no write fails, and no other
session acts. -/
def Works (sha1 : Bytes → Sha1Hash) (config : SessionConfig) (i : ι) (w w' : Swarm ι) : Prop :=
  ∃ action event, Succeeds action ∧ w.fire sha1 config i action = some (event, w')

/-- `_handleMessage` has returned, and the session waits for the next message. -/
def Returned (i : ι) (w : Swarm ι) : Prop := (w.sessions i).point = .readingLength

theorem not_works_of_returned {config : SessionConfig} (h : Returned i w) (w' : Swarm ι) :
    ¬ Works sha1 config i w w' := by
  unfold Returned at h
  rintro ⟨action, event, hok, hfire⟩
  cases action with
  | io io =>
    cases io with
    | wrote ok len => simp [fire, PeerSession.resume, h] at hfire
    | _ => exact hok
  | call fate => simp [fire, PeerSession.operation, h] at hfire

/-- A session that is about to make a call goes on in one way. -/
theorem forces_call {config : SessionConfig} {event : Event}
    (hfire : w.fire sha1 config i (.call .written) = some (event, w'))
    (hcalls : ∀ ok len, (w.sessions i).resume config (.wrote ok len) = none) :
    Forces (Works sha1 config i) w w' := by
  refine ⟨⟨.call .written, event, rfl, hfire⟩, ?_⟩
  rintro u ⟨action, event', hok, hfire'⟩
  cases action with
  | io io =>
    cases io with
    | wrote ok len => simp [fire, hcalls] at hfire'
    | _ => exact hok.elim
  | call fate =>
    obtain rfl : fate = .written := hok
    rw [hfire] at hfire'
    cases hfire'
    rfl

/-- So does one that writes a request. -/
theorem forces_written {config : SessionConfig} {block : Block} {left : Nat}
    (hpoint : (w.sessions i).point = .writingRequest block left) :
    Forces (Works sha1 config i) w
      (w.withSession i ((w.sessions i).requestWritten block left true)) := by
  have hfire : ∀ len, w.fire sha1 config i (.io (.wrote true len)) =
      some (.io (.wrote true len),
        w.withSession i ((w.sessions i).requestWritten block left true)) := by
    intro len
    simp [fire, PeerSession.resume, hpoint]
  refine ⟨⟨.io (.wrote true 0), _, rfl, hfire 0⟩, ?_⟩
  rintro u ⟨action, event', hok, hfire'⟩
  cases action with
  | io io =>
    cases io with
    | wrote ok len =>
      obtain rfl : ok = true := hok
      rw [hfire] at hfire'
      cases hfire'
      rfl
    | _ => exact hok.elim
  | call fate => simp [fire, PeerSession.operation, hpoint] at hfire'

/-! ## The loop that requests blocks -/

/-- What `n` turns of the loop come to, when the peer offers these blocks. -/
structure TurnsTaken (i : ι) (s : PeerSession) (n : Nat) (blocks : List BlockKey)
    (w : Swarm ι) : Prop where
  bitfield : (w.sessions i).peerBitfield = s.peerBitfield
  /-- the first blocks were handed out -/
  rest : PieceManager.InOrder (w.manager.Offers s.peerBitfield) (blocks.drop n)
  size_le : (w.sessions i).pendingBlocks.size ≤ s.pendingBlocks.size + n
  size_eq : (w.sessions i).pendingBlocks.size = s.pendingBlocks.size + n ↔
    n ≤ blocks.length ∧ ∀ b ∈ blocks.take n, ¬ s.pendingBlocks.Has b

omit [DecidableEq ι] in
/-- One more turn, in which there is nothing to ask for. -/
theorem TurnsTaken.nothing {s t : PeerSession} {n : Nat} (h : TurnsTaken i t n [] w)
    (hsame : PeerSession.Same s t) : TurnsTaken i s (n + 1) [] w := by
  have hsize := h.size_le
  have hrest := h.rest
  rw [hsame.pendingBlocks] at hsize
  rw [hsame.peerBitfield] at hrest
  refine ⟨h.bitfield.trans hsame.peerBitfield, by simpa using hrest, by omega, ?_⟩
  refine iff_of_false (by omega) fun hboth => ?_
  exact absurd hboth.1 (by simp)

omit [DecidableEq ι] in
/-- One more turn, in which a block is asked for. -/
theorem TurnsTaken.block {s t : PeerSession} {n : Nat} {block : Block} {rest : List BlockKey}
    (h : TurnsTaken i t n rest w) (hsorted : (block.key :: rest).Pairwise (· < ·))
    (hbitfield : t.peerBitfield = s.peerBitfield)
    (hset : t.pendingBlocks = s.pendingBlocks.insert block) :
    TurnsTaken i s (n + 1) (block.key :: rest) w := by
  have hle := h.size_le
  have hrest := h.rest
  have heq := h.size_eq
  rw [hset] at hle heq
  rw [hbitfield] at hrest
  have hinsert := KeyedSet.size_insert_le s.pendingBlocks block
  refine ⟨h.bitfield.trans hbitfield, hrest, by omega, ?_⟩
  by_cases hheld : s.pendingBlocks.Has block.key
  · -- the block is in the set already, and the set does not grow
    have hsame := KeyedSet.size_insert_of_has hheld
    refine iff_of_false (by omega) fun hboth => ?_
    exact hboth.2 block.key List.mem_cons_self hheld
  · have hgrows := KeyedSet.size_insert_of_not_has hheld
    have hlater : ∀ b ∈ rest.take n, b ≠ block.key := fun b hb =>
      ne_of_gt ((List.pairwise_cons.mp hsorted).1 b (List.mem_of_mem_take hb))
    rw [hgrows, Nat.add_assoc, Nat.add_comm 1 n] at heq
    rw [heq, List.length_cons, Nat.succ_le_succ_iff, List.take_succ_cons]
    refine and_congr_right fun _ => ⟨fun hfresh b hb => ?_, fun hfresh b hb => ?_⟩
    · rcases List.mem_cons.mp hb with rfl | hb
      · exact hheld
      · exact fun hk => hfresh b hb (KeyedSet.has_insert.mpr (Or.inl hk))
    · intro hk
      rcases KeyedSet.has_insert.mp hk with hk | hk
      · exact hfresh b (List.mem_cons_of_mem _ hb) hk
      · exact hlater b hb hk

/-- The swarm after a call of the session `i` that was answered so. -/
def afterAnswer (w : Swarm ι) (i : ι) (s : PeerSession) (m : PieceManager)
    (answer : PieceManager.Answer) : Swarm ι :=
  { w.afterCall i s m with assigned := w.assign i answer }

@[simp] theorem afterAnswer_session {s : PeerSession} {m : PieceManager}
    {answer : PieceManager.Answer} : (w.afterAnswer i s m answer).sessions i = s := by
  simp [afterAnswer, afterCall, withSession]

@[simp] theorem afterAnswer_manager {s : PeerSession} {m : PieceManager}
    {answer : PieceManager.Answer} : (w.afterAnswer i s m answer).manager = m := rfl

@[simp] theorem withSession_session {s : PeerSession} : (w.withSession i s).sessions i = s := by
  simp [withSession]

/-- A call of `requestBlock` that gives nothing. -/
theorem forces_nothing {config : SessionConfig} {left : Nat} {m : PieceManager}
    (hpoint : (w.sessions i).point = .requesting left)
    (hcall : w.manager.requestBlock (w.sessions i).peerBitfield = .ok (none, m)) :
    Forces (Works sha1 config i) w
      (w.afterAnswer i ((w.sessions i).requestLoop left) m (.block none)) := by
  have hop : (w.sessions i).operation .written =
      some (.requestBlock (w.sessions i).peerBitfield) := by rw [PeerSession.operation, hpoint]
  have happly : w.manager.apply sha1 (.requestBlock (w.sessions i).peerBitfield) =
      .ok (.block none, m) := by
    rw [PieceManager.apply, hcall]
    rfl
  have hanswered : (w.sessions i).answered (.block none) =
      some ((w.sessions i).requestLoop left) := by rw [PeerSession.answered.eq_def, hpoint]
  exact forces_call (fire_call hop happly hanswered) (by simp [PeerSession.resume, hpoint])

/-- A call of `requestBlock` that gives a block. -/
theorem forces_block {config : SessionConfig} {left : Nat} {block : Block} {m : PieceManager}
    (hpoint : (w.sessions i).point = .requesting left)
    (hcall : w.manager.requestBlock (w.sessions i).peerBitfield = .ok (some block, m)) :
    Forces (Works sha1 config i) w
      (w.afterAnswer i ((w.sessions i).suspend (.writingRequest block left)) m
        (.block (some block))) := by
  have hop : (w.sessions i).operation .written =
      some (.requestBlock (w.sessions i).peerBitfield) := by rw [PeerSession.operation, hpoint]
  have happly : w.manager.apply sha1 (.requestBlock (w.sessions i).peerBitfield) =
      .ok (.block (some block), m) := by
    rw [PieceManager.apply, hcall]
    rfl
  have hanswered : (w.sessions i).answered (.block (some block)) =
      some ((w.sessions i).suspend (.writingRequest block left)) := by
    rw [PeerSession.answered.eq_def, hpoint]
  exact forces_call (fire_call hop happly hanswered) (by simp [PeerSession.resume, hpoint])

theorem Works.run (h : Works sha1 (sessionConfig metadata peerId) i w w')
    (hrun : (machine sha1 metadata peerId).Run history w) :
    ∃ history', (machine sha1 metadata peerId).Run history' w' := by
  obtain ⟨action, event, _, hfire⟩ := h
  have hstep : (machine sha1 metadata peerId).step w (i, event) w' := ⟨action, hfire⟩
  exact ⟨_, hrun.snoc hstep⟩

/-- The session `i` is about to take `n` turns of the loop, and its peer offers these
blocks. -/
structure TurnsAhead (metadata : TorrentMetadata) (i : ι) (s : PeerSession) (n : Nat)
    (blocks : List BlockKey) (w : Swarm ι) : Prop where
  session : w.sessions i = s.requestLoop n
  running : s.Running
  sized : PieceManager.SizedFor metadata s.peerBitfield
  spare : PieceManager.SpareClear metadata s.peerBitfield
  offers : PieceManager.InOrder (w.manager.Offers s.peerBitfield) blocks

omit [DecidableEq ι] in
/-- No turn is ahead: the session waits for the next message. -/
theorem TurnsAhead.returned {s : PeerSession} {blocks : List BlockKey}
    (h : TurnsAhead metadata i s 0 blocks w) : Returned i w ∧ TurnsTaken i s 0 blocks w := by
  have hat := h.session
  rw [PeerSession.requestLoop, h.running.loopHead] at hat
  refine ⟨?_, ?_, h.offers, ?_, ?_⟩
  · rw [Returned, hat]
    rfl
  · rw [hat]
    rfl
  · rw [hat]
    exact Nat.le_refl _
  · rw [hat]
    exact iff_of_true rfl ⟨Nat.zero_le _, by simp⟩

omit [DecidableEq ι] in
/-- A turn is ahead: the session calls `requestBlock`. -/
theorem TurnsAhead.requesting {s : PeerSession} {n : Nat} {blocks : List BlockKey}
    (h : TurnsAhead metadata i s (n + 1) blocks w) :
    (w.sessions i).point = .requesting n ∧ (w.sessions i).peerBitfield = s.peerBitfield := by
  have hat : w.sessions i = s.suspend (.requesting n) := h.session
  rw [hat]
  exact ⟨rfl, rfl⟩

/-- The turn gives nothing, and the loop goes on. -/
theorem TurnsAhead.nothing {s : PeerSession} {n : Nat} {blocks : List BlockKey}
    {config : SessionConfig} (h : TurnsAhead metadata i s (n + 1) blocks w)
    (hcall : w.manager.requestBlock s.peerBitfield = .ok (none, w.manager)) :
    ∃ w', Forces (Works sha1 config i) w w' ∧
      TurnsAhead metadata i (s.suspend (.requesting n)) n blocks w' := by
  have hat : w.sessions i = s.suspend (.requesting n) := h.session
  obtain ⟨hpoint, hbitfield⟩ := h.requesting
  rw [← hbitfield] at hcall
  refine ⟨_, forces_nothing hpoint hcall, ⟨?_, h.running, h.sized, h.spare, h.offers⟩⟩
  rw [afterAnswer_session, hat]

/-- The turn gives a block, and the loop goes on when the REQUEST for it is written. -/
theorem TurnsAhead.block {s : PeerSession} {n : Nat} {block : Block} {blocks rest : List BlockKey}
    {config : SessionConfig} {m : PieceManager} (h : TurnsAhead metadata i s (n + 1) blocks w)
    (hcall : w.manager.requestBlock s.peerBitfield = .ok (some block, m))
    (hrest : PieceManager.InOrder (m.Offers s.peerBitfield) rest) :
    ∃ u w', Forces (Works sha1 config i) w u ∧ ¬ Returned i u ∧
      Forces (Works sha1 config i) u w' ∧
      TurnsAhead metadata i { s with
        pendingBlocks := s.pendingBlocks.insert block
        point := .writingRequest block n } n rest w' := by
  have hat : w.sessions i = s.suspend (.requesting n) := h.session
  obtain ⟨hpoint, hbitfield⟩ := h.requesting
  rw [← hbitfield] at hcall
  have hwriting : (w.afterAnswer i ((w.sessions i).suspend (.writingRequest block n)) m
      (.block (some block))).sessions i = s.suspend (.writingRequest block n) := by
    rw [afterAnswer_session, hat]
    rfl
  have hpoint' : ((w.afterAnswer i ((w.sessions i).suspend (.writingRequest block n)) m
      (.block (some block))).sessions i).point = .writingRequest block n := by
    rw [hwriting]
    rfl
  refine ⟨_, _, forces_block hpoint hcall, ?_, forces_written hpoint',
    ⟨?_, h.running, h.sized, h.spare, hrest⟩⟩
  · rw [Returned, hpoint']
    simp
  · rw [withSession_session, hwriting]
    rfl

/-- The loop comes to an end, and to one only. -/
theorem ends_requestLoop (hlens : ∀ p, ∃ len, metadata.info.getPieceLength p = .ok len)
    (hn : metadata.numPieces ≤ 2 ^ 32) (n : Nat) :
    ∀ {w : Swarm ι} {history : List (Transition (Swarm ι) (ι × Event))} {s : PeerSession}
      {blocks : List BlockKey}, (machine sha1 metadata peerId).Run history w →
      TurnsAhead metadata i s n blocks w →
      ∃ w' history', (machine sha1 metadata peerId).Run history' w' ∧
        Ends (Works sha1 (sessionConfig metadata peerId) i) (Returned i) w w' ∧
        TurnsTaken i s n blocks w' := by
  induction n with
  | zero =>
    intro w history s blocks hrun hahead
    obtain ⟨hreturned, htaken⟩ := hahead.returned
    exact ⟨w, history, hrun, .refl hreturned (not_works_of_returned hreturned), htaken⟩
  | succ n ih =>
    intro w history s blocks hrun hahead
    have hwaits : ¬ Returned i w := by
      rw [Returned, hahead.requesting.1]
      simp
    rcases PieceManager.requestBlock_inOrder (manager_run hrun) hlens hn hahead.sized hahead.spare
      hahead.offers with ⟨rfl, hcall⟩ | ⟨block, rest, m, rfl, hcall, hrest⟩
    · obtain ⟨u, hforced, hnext⟩ := hahead.nothing hcall
      obtain ⟨_, hrun⟩ := hforced.goes.run hrun
      obtain ⟨w', history', hrun', hends, htaken⟩ := ih hrun hnext
      exact ⟨w', history', hrun', hends.head hforced hwaits,
        htaken.nothing (PeerSession.same_suspend s _)⟩
    · obtain ⟨u, v, hasks, hwrites, hwritten, hnext⟩ := hahead.block hcall hrest
      obtain ⟨_, hrun⟩ := hasks.goes.run hrun
      obtain ⟨_, hrun⟩ := hwritten.goes.run hrun
      -- the loop goes on with the block in the set
      obtain ⟨w', history', hrun', hends, htaken⟩ := ih hrun hnext
      exact ⟨w', history', hrun', (hends.head hwritten hwrites).head hasks hwaits,
        htaken.block hahead.offers.sorted rfl rfl⟩

/-! ## After a PIECE message -/

/-- The session `i` handles a PIECE message that answers a request of its set: the peer
has unchoked us, its bitfield is valid, and the output file is open. -/
structure Answers (metadata : TorrentMetadata) (w : Swarm ι) (i : ι) (index offset : Nat)
    (data : Bytes) : Prop where
  point : (w.sessions i).point = .delivering index offset data
  asked : (w.sessions i).pendingBlocks.Has (blockKey index offset)
  unchoked : (w.sessions i).peerChoking = false
  sized : PieceManager.SizedFor metadata (w.sessions i).peerBitfield
  spare : PieceManager.SpareClear metadata (w.sessions i).peerBitfield
  writable : w.manager.fileHandler.isOpen = true

/-- The set of the session is full, or there is nothing to ask the peer for. -/
def Filled (i : ι) (w : Swarm ι) : Prop :=
  (w.sessions i).pendingBlocks.size = maxPipelineSize ∨
    ∃ m, w.manager.requestBlock (w.sessions i).peerBitfield = .ok (none, m)

/-- The pipeline is filled up whenever `_handleMessage` returns. -/
def Refills (sha1 : Bytes → Sha1Hash) (config : SessionConfig) (i : ι) (w : Swarm ι) : Prop :=
  ∀ w', Relation.ReflTransGen (Works sha1 config i) w w' → Returned i w' → Filled i w'

/-- Of the blocks that are offered, there are no more than the pipeline has room for, or
none of those that there is room for is in the set. -/
def FillsUp (offered : Nat → Nat → Prop) (pending : BlockSet) : Prop :=
  ∃ blocks, PieceManager.InOrder offered blocks ∧
    (blocks.length ≤ maxPipelineSize - pending.size ∨
      ∀ b ∈ blocks.take (maxPipelineSize - pending.size), ¬ pending.Has b)

/-- The manager refuses the block, and the set is full or nothing is offered; or it takes
the block, and what is offered fills the pipeline up. -/
def RefillsWhen (sha1 : Bytes → Sha1Hash) (w : Swarm ι) (i : ι) (index offset : Nat)
    (data : Bytes) : Prop :=
  let s := w.sessions i
  let offered := w.manager.OffersThen sha1 index offset data s.peerBitfield
  (w.manager.Refuses sha1 index offset data →
    s.pendingBlocks.size = maxPipelineSize ∨ ∀ p k, ¬ offered p k) ∧
  (¬ w.manager.Refuses sha1 index offset data →
    FillsUp offered (s.forget ⟨index, offset, u32 data.length⟩).pendingBlocks)

/-- Whether the pipeline is filled up is decided by the turns of the loop. -/
theorem refills_iff_turns (hlens : ∀ p, ∃ len, metadata.info.getPieceLength p = .ok len)
    (hn : metadata.numPieces ≤ 2 ^ 32) {s : PeerSession} {n : Nat} {blocks : List BlockKey}
    (hforced : Forces (Works sha1 (sessionConfig metadata peerId) i) w w')
    (hwaits : ¬ Returned i w) (hrun : (machine sha1 metadata peerId).Run history w')
    (hahead : TurnsAhead metadata i s n blocks w') :
    ∃ size, (size ≤ s.pendingBlocks.size + n) ∧
      (size = s.pendingBlocks.size + n ↔
        n ≤ blocks.length ∧ ∀ b ∈ blocks.take n, ¬ s.pendingBlocks.Has b) ∧
      (Refills sha1 (sessionConfig metadata peerId) i w ↔
        size = maxPipelineSize ∨ blocks.length ≤ n) := by
  obtain ⟨u, _, hrun', hends, htaken⟩ := ends_requestLoop hlens hn n hrun hahead
  refine ⟨(u.sessions i).pendingBlocks.size, htaken.size_le, htaken.size_eq, ?_⟩
  rw [Refills, (hends.head hforced hwaits).forall_iff, Filled, htaken.bitfield]
  refine or_congr_right ?_
  rcases PieceManager.requestBlock_inOrder (manager_run hrun') hlens hn hahead.sized hahead.spare
    htaken.rest with ⟨hnone, hcall⟩ | ⟨block, rest, m, hsome, hcall, _⟩
  · exact iff_of_true ⟨_, hcall⟩ (List.drop_eq_nil_iff.mp hnone)
  · refine iff_of_false ?_ fun hle => ?_
    · rintro ⟨m', hcall'⟩
      rw [hcall] at hcall'
      cases hcall'
    · rw [List.drop_eq_nil_of_le hle] at hsome
      cases hsome

theorem fillsUp_congr {offered offered' : Nat → Nat → Prop} {pending : BlockSet}
    (h : ∀ p k, offered p k ↔ offered' p k) :
    FillsUp offered pending ↔ FillsUp offered' pending := by
  constructor
  · rintro ⟨blocks, hblocks, hwhen⟩
    exact ⟨blocks, hblocks.congr h, hwhen⟩
  · rintro ⟨blocks, hblocks, hwhen⟩
    exact ⟨blocks, hblocks.congr fun p k => (h p k).symm, hwhen⟩

/-- A session that begins to fill its pipeline up. -/
theorem refills_iff_fillsUp (hlens : ∀ p, ∃ len, metadata.info.getPieceLength p = .ok len)
    (hn : metadata.numPieces ≤ 2 ^ 32) {s : PeerSession}
    (hforced : Forces (Works sha1 (sessionConfig metadata peerId) i) w w')
    (hwaits : ¬ Returned i w) (hrun : (machine sha1 metadata peerId).Run history w')
    (hsession : w'.sessions i = s.refill) (hrunning : s.Running)
    (hsized : PieceManager.SizedFor metadata s.peerBitfield)
    (hspare : PieceManager.SpareClear metadata s.peerBitfield)
    (hroom : s.pendingBlocks.size ≤ maxPipelineSize) :
    Refills sha1 (sessionConfig metadata peerId) i w ↔
      FillsUp (w'.manager.Offers s.peerBitfield) s.pendingBlocks := by
  have hturns : (needed s.pendingBlocks.size).toNat = maxPipelineSize - s.pendingBlocks.size := by
    rw [(needed_of_le hroom).2, Int.toNat_natCast]
  have hiff : ∀ blocks, PieceManager.InOrder (w'.manager.Offers s.peerBitfield) blocks →
      (Refills sha1 (sessionConfig metadata peerId) i w ↔
        blocks.length ≤ maxPipelineSize - s.pendingBlocks.size ∨
          ∀ b ∈ blocks.take (maxPipelineSize - s.pendingBlocks.size), ¬ s.pendingBlocks.Has b) := by
    intro blocks hblocks
    have hahead : TurnsAhead metadata i s (maxPipelineSize - s.pendingBlocks.size) blocks w' :=
      ⟨by rw [hsession, PeerSession.refill, hturns], hrunning, hsized, hspare, hblocks⟩
    obtain ⟨size, _, hsize, hiff⟩ := refills_iff_turns hlens hn hforced hwaits hrun hahead
    rw [Nat.add_sub_cancel' hroom] at hsize
    rw [hiff, hsize, or_comm]
    refine ⟨Or.imp_right And.right, fun h => ?_⟩
    rcases Nat.le_total blocks.length (maxPipelineSize - s.pendingBlocks.size) with hle | hge
    · exact Or.inl hle
    · exact h.imp_right fun hfresh => ⟨hge, hfresh⟩
  constructor
  · intro hrefills
    obtain ⟨blocks, hblocks⟩ := PieceManager.exists_inOrder_offers
      (PieceManager.shaped_of_run (manager_run hrun)) s.peerBitfield
    exact ⟨blocks, hblocks, (hiff blocks hblocks).mp hrefills⟩
  · rintro ⟨blocks, hblocks, hwhen⟩
    exact (hiff blocks hblocks).mpr hwhen

/-- A session that goes back to its loop. -/
theorem refills_iff_idle (hlens : ∀ p, ∃ len, metadata.info.getPieceLength p = .ok len)
    (hn : metadata.numPieces ≤ 2 ^ 32) {s : PeerSession}
    (hforced : Forces (Works sha1 (sessionConfig metadata peerId) i) w w')
    (hwaits : ¬ Returned i w) (hrun : (machine sha1 metadata peerId).Run history w')
    (hsession : w'.sessions i = s.loopHead) (hrunning : s.Running)
    (hsized : PieceManager.SizedFor metadata s.peerBitfield)
    (hspare : PieceManager.SpareClear metadata s.peerBitfield) :
    Refills sha1 (sessionConfig metadata peerId) i w ↔
      s.pendingBlocks.size = maxPipelineSize ∨ ∀ p k, ¬ w'.manager.Offers s.peerBitfield p k := by
  obtain ⟨blocks, hblocks⟩ := PieceManager.exists_inOrder_offers
    (PieceManager.shaped_of_run (manager_run hrun)) s.peerBitfield
  have hahead : TurnsAhead metadata i s 0 blocks w' :=
    ⟨hsession, hrunning, hsized, hspare, hblocks⟩
  obtain ⟨size, _, hsize, hiff⟩ := refills_iff_turns hlens hn hforced hwaits hrun hahead
  obtain rfl : size = s.pendingBlocks.size := hsize.mpr ⟨Nat.zero_le _, by simp⟩
  have hnone : blocks.length ≤ 0 ↔ ∀ p k, ¬ w'.manager.Offers s.peerBitfield p k := by
    rw [Nat.le_zero, List.length_eq_zero_iff]
    constructor
    · rintro rfl
      exact PieceManager.inOrder_nil_iff.mp hblocks
    · intro hall
      refine List.eq_nil_iff_forall_not_mem.mpr fun b hb => ?_
      obtain ⟨p, k, _, ho⟩ := (hblocks.mem_iff b).mp hb
      exact hall p k ho
  rw [hiff, hnone]

/-- What a delivery leads to. -/
theorem Answers.forces (h : Answers metadata w i index offset data) {r : Reply} {m : PieceManager}
    (hcall : w.manager.deliverBlock sha1 index offset data .written = .ok (r, m)) :
    Forces (Works sha1 (sessionConfig metadata peerId) i) w
      (w.afterAnswer i ((w.sessions i).afterDelivery index offset data r) m (.reply r)) := by
  have hpoint := h.point
  have hop : (w.sessions i).operation .written =
      some (.deliverBlock index offset data .written) := by rw [PeerSession.operation, hpoint]
  have happly : w.manager.apply sha1 (.deliverBlock index offset data .written) =
      .ok (.reply r, m) := by
    rw [PieceManager.apply, hcall]
    rfl
  have hanswered : (w.sessions i).answered (.reply r) =
      some ((w.sessions i).afterDelivery index offset data r) := by
    rw [PeerSession.answered.eq_def, hpoint]
    cases r with
    | ok accepted => cases accepted <;> rfl
    | error e => rfl
  exact forces_call (fire_call hop happly hanswered) (by simp [PeerSession.resume, hpoint])

/-- The manager looks at the block and answers. -/
theorem Answers.delivery (hrun : (machine sha1 metadata peerId).Run history w)
    (h : Answers metadata w i index offset data) :
    ∃ accepted m,
      w.manager.deliverBlock sha1 index offset data .written = .ok (.ok accepted, m) := by
  have hs := PieceManager.shaped_of_run (manager_run hrun)
  obtain ⟨block, hblock, hkey⟩ := asksOf_of_run hrun i _ (Or.inl h.asked)
  obtain ⟨rfl, rfl⟩ := blockKey_inj.mp hkey
  obtain ⟨len, hlen⟩ := hblock.lengths block.pieceIndex
  obtain ⟨r, m, hcall⟩ := PieceManager.deliverBlock_total hs hblock.index hlen sha1 block.offset
    data .written
  cases r with
  | ok accepted => exact ⟨accepted, m, hcall⟩
  | error e =>
    cases PieceManager.deliverBlock_delivery hcall with
    | threw _ hclosed =>
      rw [h.writable] at hclosed
      cases hclosed

/-- **The pipeline is filled up** after a PIECE message exactly when the manager takes
the block, and of the blocks that the peer offers then there are no more than there is
room for or none that there is room for is in the set; or when it refuses the block, and
the set is full or the peer offers nothing. -/
theorem refills_iff (hn : metadata.numPieces ≤ 2 ^ 32)
    (hrun : (machine sha1 metadata peerId).Run history w)
    (h : Answers metadata w i index offset data) :
    Refills sha1 (sessionConfig metadata peerId) i w ↔ RefillsWhen sha1 w i index offset data := by
  obtain ⟨block, hblock, _⟩ := asksOf_of_run hrun i _ (Or.inl h.asked)
  have hlens := hblock.lengths
  obtain ⟨accepted, m, hcall⟩ := h.delivery hrun
  have hd := PieceManager.deliverBlock_delivery hcall
  have hoffers : ∀ p k, m.Offers (w.sessions i).peerBitfield p k ↔
      w.manager.OffersThen sha1 index offset data (w.sessions i).peerBitfield p k :=
    hd.offers_iff (by simp)
  have hrunning : (w.sessions i).Running :=
    (sane_of_run hrun i).running h.point (Or.inl ⟨_, _, _, rfl⟩)
  have hforced : Forces (Works sha1 (sessionConfig metadata peerId) i) w _ := h.forces hcall
  obtain ⟨_, hnext⟩ := hforced.goes.run hrun
  have hwaits : ¬ Returned i w := by
    rw [Returned, h.point]
    simp
  cases accepted with
  | false =>
    have hrefuses := hd.refused_iff.mp rfl
    have hiff := refills_iff_idle hlens hn hforced hwaits hnext afterAnswer_session hrunning
      h.sized h.spare
    rw [afterAnswer_manager] at hiff
    simp only [hoffers] at hiff
    rw [hiff]
    exact ⟨fun hfilled => ⟨fun _ => hfilled, fun htakes => absurd hrefuses htakes⟩,
      fun hwhen => hwhen.1 hrefuses⟩
  | true =>
    have htakes : ¬ w.manager.Refuses sha1 index offset data := by
      rw [← hd.refused_iff]
      simp
    have hroom := (PeerSession.hasRoom_of_run (session_run hrun i)).size_le
    have hiff := refills_iff_fillsUp hlens hn hforced hwaits hnext afterAnswer_session
      (s := (w.sessions i).forget ⟨index, offset, u32 data.length⟩) hrunning h.sized h.spare
      (Nat.le_trans (KeyedSet.size_erase_le _ _) hroom)
    rw [hiff, afterAnswer_manager]
    refine (fillsUp_congr hoffers).trans ?_
    exact ⟨fun hfills => ⟨fun hrefuses => absurd hrefuses htakes, fun _ => hfills⟩,
      fun hwhen => hwhen.2 htakes⟩

/-- The only block is asked for, and comes. -/
def blockSent (data : Bytes) : List (Unit × Action) :=
  let piece : List Action := [.io (.read (some (htonl (9 + data.length)))),
    .io (.read (some (Msg.Id.piece.toByte :: htonl 0 ++ htonl 0 ++ data)))]
  (opening oneBlock.infoHash [128] ++ asked true 31 ++ piece).map fun action => ((), action)

/-- Two sessions ask for a piece each.  The second loses its peer and gives its block back,
and the piece of the first comes. -/
def pieceSent : List (Bool × Action) :=
  let first : List Action := opening PieceManager.zeroSevenDigest [192] ++ asked true 31
  let second : List Action := opening PieceManager.zeroSevenDigest [128] ++ asked true 31
  let piece : List Action := [.io (.read (some (htonl 10))),
    .io (.read (some (Msg.Id.piece.toByte :: htonl 1 ++ htonl 0 ++ [7])))]
  second.map (fun action => (false, action)) ++ first.map (fun action => (true, action)) ++
    [(false, .io (.read none)), (false, .call .written)] ++ piece.map fun action => (true, action)

/-- What is sent is right, and there is a block to ask for next. -/
theorem refills_iff_rightBlock :
    ∃ history, ∃ w : Swarm Bool,
      (machine PieceManager.sampleSha1 PieceManager.zeroSevenSeven samplePeerId).Run history w ∧
      Answers PieceManager.zeroSevenSeven w true 1 0 [7] ∧ w.manager.nextOffsets = [0, 1] ∧
      Refills PieceManager.sampleSha1 (sessionConfig PieceManager.zeroSevenSeven samplePeerId)
        true w := by
  have hfire : (fireAll PieceManager.sampleSha1
      (sessionConfig PieceManager.zeroSevenSeven samplePeerId)
      (new PieceManager.zeroSevenSeven PieceManager.emptyFile true) pieceSent []).any (fun r =>
        decide ((r.2.sessions true).point = .delivering 1 0 [7] ∧
          (r.2.sessions true).pendingBlocks.Has (blockKey 1 0) ∧
          (r.2.sessions true).peerChoking = false ∧ (r.2.sessions true).peerBitfield = [192] ∧
          r.2.manager.fileHandler.isOpen = true ∧ r.2.manager.nextOffsets = [0, 1] ∧
          ((r.2.sessions true).forget ⟨1, 0, 1⟩).pendingBlocks.elems = [] ∧
          ((r.2.manager.deliverBlock PieceManager.sampleSha1 1 0 [7] .written).toOption.any
            fun d => decide (d.1.toOption = some true)) = true)) =
      true := by decide +kernel
  obtain ⟨history, w, hrun, hchecks⟩ := exists_run hfire
  obtain ⟨hpoint, hasked, hunchoked, hbitfield, hwritable, hnext, hempty, hcall⟩ :=
    of_decide_eq_true hchecks
  have hspare : PieceManager.SpareClear PieceManager.zeroSevenSeven
      (w.sessions true).peerBitfield := by
    rw [hbitfield]
    exact PieceManager.spareClear_of_bits (by decide)
  have hanswers : Answers PieceManager.zeroSevenSeven w true 1 0 [7] :=
    ⟨hpoint, hasked, hunchoked, by rw [hbitfield]; rfl, hspare, hwritable⟩
  refine ⟨history, w, hrun, hanswers, hnext, (refills_iff (by decide) hrun hanswers).mpr ?_⟩
  obtain ⟨accepted, m, hdelivered⟩ := hanswers.delivery hrun
  rw [hdelivered] at hcall
  obtain rfl : accepted = true := Option.some.inj (of_decide_eq_true hcall)
  have hd := PieceManager.deliverBlock_delivery hdelivered
  refine ⟨fun hrefuses => absurd (hd.refused_iff.mpr hrefuses) (by simp), fun _ => ?_⟩
  have hshaped := (PieceManager.shaped_of_run (manager_run hrun)).delivery hd
  have hforgotten : ((w.sessions true).forget ⟨1, 0, u32 ([7] : Bytes).length⟩).pendingBlocks.elems
    = [] := hempty
  obtain ⟨blocks, hblocks⟩ := PieceManager.exists_inOrder_offers hshaped [192]
  refine ⟨blocks, hblocks.congr fun p k => ?_, Or.inr fun b _ hheld => ?_⟩
  · rw [← hbitfield]
    exact hd.offers_iff (by simp) p k
  · obtain ⟨block, hblock, _⟩ := hheld
    rw [hforgotten] at hblock
    cases hblock

/-- What is sent is wrong: the block is free again and its peer has it, but nobody asks
for it. -/
theorem not_refills_corruptBlock :
    ∃ history, ∃ w : Swarm Unit,
      (machine PieceManager.sampleSha1 oneBlock samplePeerId).Run history w ∧
      Answers oneBlock w () 0 0 [9] ∧
      ¬ Refills PieceManager.sampleSha1 (sessionConfig oneBlock samplePeerId) () w := by
  have hfire : (fireAll PieceManager.sampleSha1 (sessionConfig oneBlock samplePeerId)
      (new oneBlock PieceManager.emptyFile true) (blockSent [9]) []).any (fun r =>
        decide ((r.2.sessions ()).point = .delivering 0 0 [9] ∧
          (r.2.sessions ()).pendingBlocks.Has (blockKey 0 0) ∧
          (r.2.sessions ()).peerChoking = false ∧ (r.2.sessions ()).peerBitfield = [128] ∧
          r.2.manager.fileHandler.isOpen = true ∧
          ((r.2.fire PieceManager.sampleSha1 (sessionConfig oneBlock samplePeerId) ()
            (.call .written)).any fun next =>
              decide ((next.2.sessions ()).point = .readingLength ∧
                (next.2.sessions ()).pendingBlocks.size = 1 ∧
                ((next.2.manager.requestBlock
                  (next.2.sessions ()).peerBitfield).toOption.any
                    fun asked => asked.1.isSome) = true)) = true)) = true := by
    decide +kernel
  obtain ⟨history, w, hrun, hchecks⟩ := exists_run hfire
  obtain ⟨hpoint, hasked, hunchoked, hbitfield, hwritable, hnext⟩ := of_decide_eq_true hchecks
  have hspare : PieceManager.SpareClear oneBlock (w.sessions ()).peerBitfield := by
    rw [hbitfield]
    exact PieceManager.spareClear_of_bits (by decide)
  refine ⟨history, w, hrun, ⟨hpoint, hasked, hunchoked, by rw [hbitfield]; rfl, hspare, hwritable⟩,
    fun hrefills => ?_⟩
  obtain ⟨⟨event, w'⟩, hfire', hafter⟩ := (Option.any_eq_true _ _).mp hnext
  obtain ⟨hreturned, hsize, hcall⟩ := of_decide_eq_true hafter
  have hfills := hrefills w' (.single ⟨.call .written, event, rfl, hfire'⟩) hreturned
  rcases hfills with hfull | ⟨m, hnone⟩
  · rw [hsize] at hfull
    cases hfull
  · rw [hnone] at hcall
    cases hcall

end Swarm

end BitTorrentClient
