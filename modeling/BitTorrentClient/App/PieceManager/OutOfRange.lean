/-
  App/PieceManager/OutOfRange.lean --- deliveries that lie outside the torrent.

  The index, the offset and the length of a block come from the peer.  An index past
  the last piece is used to read `_finished`, and an offset past the end of the piece
  is refused only after the piece was given an entry.  A delivery of this kind is
  refused without a trace exactly when the piece exists and had an entry before.
-/
import BitTorrentClient.App.PieceManager.Totality

set_option autoImplicit false

namespace BitTorrentClient

open Library

namespace PieceManager

variable {sha1 : Bytes → Sha1Hash} {metadata : TorrentMetadata} {m m' : PieceManager}
  {history : List (Transition PieceManager (Op × Answer))}

/-- The block is of no piece of the torrent, or reaches past the end of an unfinished
one. -/
def OutOfRange (m : PieceManager) (idx offset : Nat) (data : Bytes) : Prop :=
  m.metadata.numPieces ≤ idx ∨
    (m.finished[idx]? = some false ∧
      ∃ len, m.getPieceLength idx = .ok len ∧ len < offset + data.length)

/-- The call reads no vector out of range, returns false and changes nothing. -/
def RejectsSilently (sha1 : Bytes → Sha1Hash) (m : PieceManager) (idx offset : Nat)
    (data : Bytes) (fate : DiskFate) : Prop :=
  m.deliverBlock sha1 idx offset data fate = .ok (.ok false, m)

/-- Past the last piece, the first read has no meaning. -/
theorem deliverBlock_of_le (hs : Shaped metadata m) {idx : Nat}
    (hidx : metadata.numPieces ≤ idx) (sha1 : Bytes → Sha1Hash) (offset : Nat) (data : Bytes)
    (fate : DiskFate) : m.deliverBlock sha1 idx offset data fate = .error .outOfRange := by
  have hnone : m.finished[idx]? = none :=
    List.getElem?_eq_none ((Nat.le_of_eq hs.finished_length).trans hidx)
  rw [deliverBlock, readAt, hnone]
  rfl

/-- A block that reaches past the end of its piece leaves an entry for the piece. -/
theorem Shaped.outOfBounds (hs : Shaped metadata m) {idx offset len : Nat} {data : Bytes}
    (hunfinished : m.finished[idx]? = some false) (hlen : m.getPieceLength idx = .ok len)
    (hout : len < offset + data.length) (sha1 : Bytes → Sha1Hash) (fate : DiskFate) :
    ∃ pending, m.openPending idx = .ok pending ∧
      m.deliverBlock sha1 idx offset data fate =
        .ok (.ok false, m.setPending idx (some pending)) := by
  have hlen' : metadata.info.getPieceLength idx = .ok len := hs.metadata_eq ▸ hlen
  obtain ⟨pending, hopen⟩ := hs.exists_open hlen'
  have hentry := (hs.openPending hunfinished hopen).1
  obtain rfl : len = pending.data.length := Except.ok.inj (hlen'.symm.trans hentry.length)
  exact ⟨pending, hopen, deliverBlock_of_outOfBounds hunfinished hopen hout⟩

/-- Setting the entry of a piece changes nothing exactly when it is the entry that was
there. -/
theorem setPending_eq_self {idx : Nat} {pending : PendingPiece} :
    m.setPending idx (some pending) = m ↔ m.pendingPieces idx = some pending := by
  constructor
  · intro h
    rw [← h]
    simp
  · intro h
    rw [setPending, ← h, Function.update_eq_self]

/-- **Rejected without a trace.**  In every reachable state, a delivery out of range is
refused with no effect if and only if it names a piece of the torrent that has an entry
already. -/
theorem rejectsSilently_iff (hrun : (machine sha1 metadata).Run history m) {idx offset : Nat}
    {data : Bytes} (hout : m.OutOfRange idx offset data) (fate : DiskFate) :
    m.RejectsSilently sha1 idx offset data fate ↔
      idx < metadata.numPieces ∧ m.pendingPieces idx ≠ none := by
  have hs := shaped_of_run hrun
  rw [RejectsSilently]
  rcases hout with hidx | ⟨hunfinished, len, hlen, hlong⟩
  · rw [hs.metadata_eq] at hidx
    rw [deliverBlock_of_le hs hidx]
    refine iff_of_false (by simp) fun h => ?_
    omega
  · have hidx : idx < metadata.numPieces := by
      rw [← hs.finished_length]
      exact (List.getElem?_eq_some_iff.mp hunfinished).1
    obtain ⟨pending, hopen, hcall⟩ := hs.outOfBounds hunfinished hlen hlong sha1 fate
    rw [hcall, Except.ok.injEq, Prod.mk.injEq, and_iff_right rfl, setPending_eq_self,
      and_iff_right hidx]
    obtain ⟨_, hstored | ⟨hnone, _⟩⟩ := hs.openPending hunfinished hopen
    · simp [hstored]
    · simp [hnone]

/-- The second of two blocks that are too long for their piece. -/
theorem rejectsSilently_iff_second :
    ∃ history m, (machine sampleSha1 (onePiece sevenDigest 1)).Run history m ∧
      m.RejectsSilently sampleSha1 0 0 [7, 7] .written := by
  have hrun := runOps_run sampleSha1 (onePiece sevenDigest 1)
    [.deliverBlock 0 0 [7, 7] .written] (.start ⟨emptyFile, true, rfl⟩) rfl
  refine ⟨_, _, hrun, (rejectsSilently_iff hrun ?_ .written).mpr ⟨by decide, by simp⟩⟩
  exact Or.inr ⟨rfl, 1, rfl, by decide⟩

/-- A block of the piece after the last one reads past the end of `_finished`, and the
first block that is too long for its piece leaves an entry. -/
theorem not_rejectsSilently_first :
    ∃ history m, (machine sampleSha1 (onePiece sevenDigest 1)).Run history m ∧
      (m.OutOfRange 1 0 [7] ∧
        m.deliverBlock sampleSha1 1 0 [7] .written = .error .outOfRange) ∧
      m.OutOfRange 0 0 [7, 7] ∧ ¬ m.RejectsSilently sampleSha1 0 0 [7, 7] .written := by
  refine ⟨[], _, .start ⟨emptyFile, true, rfl⟩, ⟨Or.inl (by decide), rfl⟩,
    Or.inr ⟨rfl, 1, rfl, by decide⟩, fun h => ?_⟩
  have hchanged : (new (onePiece sevenDigest 1) emptyFile true).deliverBlock sampleSha1 0 0 [7, 7]
      .written = .ok (.ok false, (new (onePiece sevenDigest 1) emptyFile true).setPending 0
        (some ⟨[0], 0, 1⟩)) := rfl
  have hsame := (Prod.mk.inj (Except.ok.inj (hchanged.symm.trans h))).2
  exact absurd (setPending_eq_self.mp hsame) (by simp [new])

end PieceManager

end BitTorrentClient
