/-
  App/PieceManager/Judging.lean --- when the hash of a piece is computed.

  `deliverBlock` takes a piece for complete when its counter reaches the number of
  its blocks, and every accepted call adds one to the counter, whatever it
  carried.  `CountsBlocks` is the condition under which the counter means what it
  is used for: a block that is counted completes a block of the piece.  Runs that
  meet it hash no piece with a byte missing.
-/
import BitTorrentClient.App.PieceManager.Received
import BitTorrentClient.App.PieceManager.Totality

set_option autoImplicit false

namespace BitTorrentClient

open Library

namespace PieceManager

variable {sha1 : Bytes → Sha1Hash} {metadata : TorrentMetadata} {m m' : PieceManager}
  {history : List (Transition PieceManager (Op × Answer))}

/-- If the step is a delivery that computes the hash of a piece, the blocks received
since the entry of the piece was created, the one delivered among them, cover it. -/
def JudgesComplete (older : List (Transition PieceManager (Op × Answer)))
    (t : Transition PieceManager (Op × Answer)) : Prop :=
  ∀ idx offset data fate pending, t.label.1 = .deliverBlock idx offset data fate →
    t.source.Accepts idx offset data pending → (pending.receive offset data).isFinished = true →
      Covers (⟨offset, data⟩ :: receivedSince idx older) pending.data.length

/-- If the step is a delivery to a piece that waits for more blocks, and is accepted, it
completes a block of the piece that was not complete before. -/
def CountsBlocks (older : List (Transition PieceManager (Op × Answer)))
    (t : Transition PieceManager (Op × Answer)) : Prop :=
  ∀ idx offset data fate pending, t.label.1 = .deliverBlock idx offset data fate →
    t.source.Accepts idx offset data pending →
    pending.blocksReceived < pending.totalBlocksNeeded →
      CompletesBlock blockLen pending.data.length (receivedSince idx older) ⟨offset, data⟩

/-- While the entry waits for more blocks, no more were counted than are complete. -/
def CountedBy (pending : PendingPiece) (blocks : List Received) : Prop :=
  pending.blocksReceived < pending.totalBlocksNeeded →
    pending.blocksReceived ≤ (completed blockLen pending.data.length blocks).card

/-- No entry counts more blocks than are complete. -/
def Honest (history : List (Transition PieceManager (Op × Answer))) (m : PieceManager) : Prop :=
  ∀ p pending, m.pendingPieces p = some pending → CountedBy pending (receivedSince p history)

/-- The entry a delivery works on: a new one counts nothing. -/
theorem Honest.opened (h : Honest history m) {p : Nat} {pending : PendingPiece}
    (hopen : m.openPending p = .ok pending) : CountedBy pending (receivedSince p history) := by
  unfold openPending at hopen
  split at hopen
  · rename_i stored hstored
    cases hopen
    exact h p _ hstored
  · obtain ⟨len, hlen, hopen⟩ := bind_eq_ok.mp hopen
    cases hopen
    exact fun _ => Nat.zero_le _

/-- A block that completes one more is one more that is complete. -/
theorem CountedBy.received {pending : PendingPiece} {blocks : List Received}
    (h : CountedBy pending blocks) {offset : Nat} {data : Bytes}
    (hwaits : pending.blocksReceived < pending.totalBlocksNeeded)
    (hblock : CompletesBlock blockLen pending.data.length blocks ⟨offset, data⟩) :
    pending.blocksReceived + 1 ≤
      (completed blockLen pending.data.length (⟨offset, data⟩ :: blocks)).card :=
  Nat.lt_of_le_of_lt (h hwaits) (hblock.card_lt blockLen_pos)

theorem Honest.step (h : Honest history m) (hrecord : ∀ p, Recorded history m p)
    {l : Op × Answer} (hstep : m.Step sha1 l m') (hcounts : CountsBlocks history ⟨m, l, m'⟩) :
    Honest (⟨m, l, m'⟩ :: history) m' := by
  intro p pending hsome
  have hentry := hstep.entryStep p (hrecord p).none
  generalize receivedSince p (⟨m, l, m'⟩ :: history) = after at hentry ⊢
  cases hentry with
  | kept hkept => exact h p pending (hkept.symm.trans hsome)
  | opened _ hopen hset =>
    obtain rfl := Option.some.inj (hset.symm.trans hsome)
    exact h.opened hopen
  | @received offset data fate before hlabel ha _ hset =>
    obtain rfl := Option.some.inj (hset.symm.trans hsome)
    intro hmore
    have hwaits : before.blocksReceived < before.totalBlocksNeeded :=
      Nat.lt_of_succ_lt hmore
    have hblock := hcounts p offset data fate before hlabel ha hwaits
    have hlen : (before.receive offset data).data.length = before.data.length :=
      length_overwrite ha.fits
    rw [hlen]
    exact (h.opened ha.opened).received hwaits hblock
  | dropped hnone =>
    rw [hnone] at hsome
    cases hsome

/-- In a state whose entries count honestly, a counted block that makes the piece
complete leaves no byte of it out. -/
theorem Honest.judges (h : Honest history m) (hs : Shaped metadata m) {l : Op × Answer}
    (hcounts : CountsBlocks history ⟨m, l, m'⟩) : JudgesComplete history ⟨m, l, m'⟩ := by
  intro idx offset data fate pending hlabel ha hfinished
  have hcount : pending.blocksReceived + 1 = pending.totalBlocksNeeded := by
    simpa [PendingPiece.isFinished, PendingPiece.receive] using hfinished
  have hwaits : pending.blocksReceived < pending.totalBlocksNeeded := by omega
  have hblock := hcounts idx offset data fate pending hlabel ha hwaits
  have hcard := (h.opened ha.opened).received hwaits hblock
  have hentry := (hs.openPending ha.unfinished ha.opened).1
  rw [hcount, hentry.total, totalBlocks_eq_blockCount] at hcard
  exact covers_of_card blockLen_pos hcard

/-- **Judged when complete.**  In every run in which each accepted block of a piece that
waits for more completes a block that was not complete before, the hash of a piece is
computed only when every byte of its buffer was received since the buffer was created. -/
theorem judgesComplete_of_countsBlocks (hrun : (machine sha1 metadata).Run history m)
    (hcounts : Machine.Always CountsBlocks history) :
    Machine.Always JudgesComplete history := by
  refine hrun.always_of_invariant (I := Honest) ?_ ?_ ?_ hcounts
  · intro s hinit p pending hsome
    obtain ⟨disk, tracked, rfl⟩ := hinit
    simp [new] at hsome
  · intro older s l s' hsofar h hstep hs
    exact h.step (recorded_of_run hsofar) (machine_step hs) hstep
  · intro older s l s' hsofar h hstep _
    exact h.judges (shaped_of_run hsofar) hstep

/-- Both blocks of a piece are asked for and come, the second one first. -/
theorem judgesComplete_of_countsBlocks_secondFirst :
    ∃ history m, (machine onesSevenSha1 twoBlocks).Run history m ∧
      m.finished = [true] ∧ Machine.Always JudgesComplete history := by
  have hrun := run_of_startingAt firstDelivery_run
  have hsize : blockLen = 16384 := rfl
  have hreceived : receivedSince 0 (secondDelivery :: twoRequests) = [⟨16384, [7]⟩] := by
    rw [secondDelivery, receivedSince_of_accepts rfl rfl bothAsked_accepts]
    rfl
  refine ⟨_, _, hrun, rfl, judgesComplete_of_countsBlocks hrun ?_⟩
  refine Machine.always_cons.mpr ⟨?_, Machine.always_cons.mpr ⟨?_, ?_⟩⟩
  · intro idx offset data fate pending hlabel ha _
    obtain ⟨rfl, rfl, rfl, rfl⟩ := Op.deliverBlock.inj hlabel
    -- the ones complete the first block, of which nothing had come
    rw [hreceived]
    have hfits := ha.fits
    rw [firstBlock_length] at hfits
    refine ⟨0, by omega, fun hcomplete => ?_, fun b _ _ hlt => touched_cons.mpr (Or.inl ?_)⟩
    · obtain ⟨f, hf, hle, _⟩ := hcomplete 0 (by omega) (by omega) (by omega)
      obtain rfl := List.mem_singleton.mp hf
      cases hle
    · exact ⟨Nat.zero_le b, by rw [firstBlock_length]; omega⟩
  · intro idx offset data fate pending hlabel ha _
    obtain ⟨rfl, rfl, rfl, rfl⟩ := Op.deliverBlock.inj hlabel
    obtain rfl := ha.unique bothAsked_accepts
    -- the 7 completes the second block, with nothing there yet
    refine ⟨1, ?_, fun hcomplete => ?_, fun b hb hge _ => touched_cons.mpr (Or.inl ?_)⟩
    · rw [List.length_replicate]
      decide
    · obtain ⟨f, hf, _⟩ := hcomplete 16384 (by rw [List.length_replicate]; decide) (by omega)
        (by omega)
      cases hf
    · rw [List.length_replicate] at hb
      refine ⟨?_, ?_⟩
      · dsimp only
        omega
      · change b < 16384 + 1
        omega
  · intro t older hsuffix idx offset data fate pending hlabel
    rcases List.mem_cons.mp (hsuffix.subset List.mem_cons_self) with rfl | hlast
    · cases hlabel
    · obtain rfl := List.mem_singleton.mp hlast
      cases hlabel

/-- An empty block at offset 0 is counted, and the piece of one byte is hashed and
thrown away with no byte of it received. -/
theorem not_judgesComplete_emptyBlock :
    ∃ history m, (machine sampleSha1 (onePiece sevenDigest 1)).Run history m ∧
      (∃ t ∈ history, t.label = (.deliverBlock 0 0 [] .written, .reply (.ok false))) ∧
      ¬ Machine.Always JudgesComplete history := by
  have hrun := runOps_run sampleSha1 (onePiece sevenDigest 1)
    [.deliverBlock 0 0 [] .written] (.start ⟨emptyFile, true, rfl⟩) rfl
  refine ⟨_, _, hrun, ⟨_, List.mem_singleton_self _, rfl⟩, fun h => ?_⟩
  have hcovers := h.head 0 0 [] .written ⟨[0], 0, 1⟩ rfl ⟨rfl, rfl, by decide⟩ rfl
  exact absurd hcovers (by decide)

end PieceManager

end BitTorrentClient
