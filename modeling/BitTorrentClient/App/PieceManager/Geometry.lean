/-
  App/PieceManager/Geometry.lean --- the shape every reachable state has.

  The vectors of the piece manager keep the sizes the constructor gave them, and
  an entry of `_pendingPieces` keeps the length and the block count of its piece.
  These facts need no assumption on the torrent, the calls or the disk, and every
  other invariant is stated on top of them.
-/
import BitTorrentClient.App.PieceManager.Steps

set_option autoImplicit false

namespace BitTorrentClient

open Library

/-! ## Lengths -/

theorem lt_totalBlocks_iff {len k : Nat} : k < totalBlocks len ↔ k * blockLen < len := by
  unfold totalBlocks blockLen
  omega

theorem totalBlocks_pos {len : Nat} (h : 0 < len) : 0 < totalBlocks len := by
  rw [lt_totalBlocks_iff]
  omega

namespace TorrentMetadata

/-- A piece is never longer than the piece length, and its length fits 32 bits. -/
theorem Info.getPieceLength_le {info : Info} {i len : Nat}
    (h : info.getPieceLength i = .ok len) : len ≤ info.pieceLength ∧ len < 2 ^ 32 := by
  have hle := u32_le info.pieceLength
  have hlt := u32_lt info.pieceLength
  simp only [Info.getPieceLength] at h
  split at h
  · split at h
    · simp at h
    · rename_i hpos
      have hmod := Nat.mod_lt (u32 info.fileLength) (Nat.pos_of_ne_zero hpos)
      split at h
      · have := Except.ok.inj h
        omega
      · have := Except.ok.inj h
        omega
  · have := Except.ok.inj h
    omega

/-- With a positive 32-bit piece length every piece has a length, and no piece is
empty. -/
theorem Info.getPieceLength_pos {info : Info} (h1 : 1 ≤ info.pieceLength)
    (h2 : info.pieceLength < 2 ^ 32) (i : Nat) :
    ∃ len, info.getPieceLength i = .ok len ∧ 0 < len := by
  have hu : u32 info.pieceLength = info.pieceLength := u32_of_lt h2
  simp only [Info.getPieceLength, hu]
  split
  · rw [if_neg (by omega)]
    split
    · rename_i hne
      exact ⟨_, rfl, Nat.pos_of_ne_zero hne⟩
    · exact ⟨_, rfl, h1⟩
  · exact ⟨_, rfl, h1⟩

end TorrentMetadata

namespace PieceManager

/-! ## The shape invariant -/

/-- An entry of `_pendingPieces` that belongs to the piece `i`. -/
structure EntryOf (metadata : TorrentMetadata) (i : Nat) (pending : PendingPiece) : Prop where
  index : i < metadata.numPieces
  length : metadata.info.getPieceLength i = .ok pending.data.length
  total : pending.totalBlocksNeeded = totalBlocks pending.data.length

/-- The sizes of the vectors and the shape of the entries. -/
structure Shaped (metadata : TorrentMetadata) (m : PieceManager) : Prop where
  metadata_eq : m.metadata = metadata
  hashes : m.verificationHashes = metadata.info.pieceHashes
  finished_length : m.finished.length = metadata.numPieces
  offsets_length : m.nextOffsets.length = metadata.numPieces
  bitfield_length : m.bitfield.length = (metadata.numPieces + 7) / 8
  pieceSize : m.fileHandler.pieceSize = metadata.info.pieceLength
  entries : ∀ i pending, m.pendingPieces i = some pending → EntryOf metadata i pending

variable {sha1 : Bytes → Sha1Hash} {metadata : TorrentMetadata} {m m' : PieceManager}

theorem shaped_new (disk : Disk) (tracked : Bool) :
    Shaped metadata (new metadata disk tracked) where
  metadata_eq := rfl
  hashes := rfl
  finished_length := List.length_replicate
  offsets_length := List.length_replicate
  bitfield_length := List.length_replicate
  pieceSize := rfl
  entries := by simp [new]

/-- Receiving a block inside the buffer keeps the entry's shape. -/
theorem EntryOf.receive {i offset : Nat} {data : Bytes} {pending : PendingPiece}
    (h : EntryOf metadata i pending) (hfits : offset + data.length ≤ pending.data.length) :
    EntryOf metadata i (pending.receive offset data) := by
  have hlen : (pending.receive offset data).data.length = pending.data.length :=
    length_overwrite hfits
  exact ⟨h.index, by rw [hlen]; exact h.length, by rw [hlen]; exact h.total⟩

/-- The entry a delivery works on: the stored one, or an empty one of the same
shape. -/
theorem Shaped.openPending (h : Shaped metadata m) {idx : Nat} {pending : PendingPiece}
    {done : Bool} (hidx : m.finished[idx]? = some done)
    (hopen : m.openPending idx = .ok pending) :
    EntryOf metadata idx pending ∧
      (m.pendingPieces idx = some pending ∨
        (m.pendingPieces idx = none ∧ pending.blocksReceived = 0)) := by
  have hlt : idx < metadata.numPieces := by
    rw [← h.finished_length]
    exact (List.getElem?_eq_some_iff.mp hidx).1
  unfold PieceManager.openPending at hopen
  split at hopen
  · rename_i stored hstored
    cases hopen
    exact ⟨h.entries idx _ hstored, Or.inl hstored⟩
  · rename_i hnone
    obtain ⟨len, hlen, hopen⟩ := bind_eq_ok.mp hopen
    cases hopen
    have hlen' : metadata.info.getPieceLength idx = .ok len := by
      rw [← h.metadata_eq]; exact hlen
    exact ⟨⟨hlt, by simpa using hlen', by simp⟩, Or.inr ⟨hnone, rfl⟩⟩

theorem Shaped.setPending (h : Shaped metadata m) {idx : Nat} {entry : Option PendingPiece}
    (hentry : ∀ pending, entry = some pending → EntryOf metadata idx pending) :
    Shaped metadata (m.setPending idx entry) :=
  { h with
    entries := by
      intro i pending hi
      by_cases heq : i = idx
      · subst heq
        exact hentry pending (by simpa using hi)
      · exact h.entries i pending (by simpa [heq] using hi) }

theorem Shaped.stored (h : Shaped metadata m) {idx offset : Nat} {data : Bytes}
    {pending : PendingPiece} (ha : m.Accepts idx offset data pending) :
    Shaped metadata (m.stored idx offset data pending) := by
  have hentry := (h.openPending ha.unfinished ha.opened).1.receive ha.fits
  have hset : Shaped metadata (m.setPending idx (some (pending.receive offset data))) :=
    h.setPending fun p hp => Option.some.inj hp ▸ hentry
  exact { hset with }

theorem Shaped.markDiscarded (h : Shaped metadata m) (idx : Nat) :
    Shaped metadata (m.markDiscarded idx) := by
  have hset : Shaped metadata (m.setPending idx none) := h.setPending (by simp)
  exact { hset with offsets_length := by simpa using h.offsets_length }

theorem Shaped.markFinished (h : Shaped metadata m) (idx : Nat) :
    Shaped metadata (m.markFinished idx) := by
  have hset : Shaped metadata (m.setPending idx none) := h.setPending (by simp)
  exact { hset with
    finished_length := by simpa using h.finished_length
    bitfield_length := by simpa using h.bitfield_length }

theorem Shaped.delivery (h : Shaped metadata m) {idx offset : Nat} {data : Bytes}
    {fate : DiskFate} {r : Reply} (hd : m.Delivery sha1 idx offset data fate r m') :
    Shaped metadata m' := by
  cases hd with
  | finished _ => exact h
  | outOfBounds hidx hopen _ =>
    exact h.setPending fun p hp => Option.some.inj hp ▸ (h.openPending hidx hopen).1
  | stored ha _ => exact h.stored ha
  | discarded ha _ _ _ _ => exact (h.stored ha).markDiscarded idx
  | threw hv _ => exact h.stored hv.toAccepts
  | completed hv _ _ _ =>
    have hstored := h.stored hv.toAccepts
    refine Shaped.markFinished ?_ idx
    exact { hstored with pieceSize := by simpa using h.pieceSize }

theorem Shaped.step (h : Shaped metadata m) {l : Op × Answer} (hs : m.Step sha1 l m') :
    Shaped metadata m' := by
  cases hs with
  | requested hr =>
    cases hr with
    | nothing => exact h
    | block _ _ _ hout =>
      rw [hout.target]
      exact { h with offsets_length := by simpa using h.offsets_length }
  | delivered hd => exact h.delivery hd
  | returned hr =>
    cases hr with
    | unknown _ => exact h
    | freed _ _ => exact { h with offsets_length := by simpa using h.offsets_length }

/-- Every reachable state has the shape. -/
theorem shaped_of_run {history : List (Transition PieceManager (Op × Answer))}
    (hrun : (machine sha1 metadata).Run history m) : Shaped metadata m := by
  refine hrun.invariant ?_ fun s l s' hI hs => hI.step (machine_step hs)
  rintro s ⟨disk, tracked, rfl⟩
  exact shaped_new disk tracked

end PieceManager

end BitTorrentClient
