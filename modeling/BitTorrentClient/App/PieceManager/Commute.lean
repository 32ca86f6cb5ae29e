/-
  App/PieceManager/Commute.lean --- deliveries to different pieces commute.

  Whatever a delivery does is decided by its own piece alone: whether it is finished, its
  entry and its announced hash.  What it does is a `Change` of one shape, in which the
  five outcomes differ only by what they leave out, so that the pairs of outcomes need no
  separate treatment: two changes at different pieces commute field by field.
-/
import BitTorrentClient.App.PieceManager.Totality

set_option autoImplicit false

namespace BitTorrentClient

open Library

/-! ## Writes that succeed -/

namespace FileHandler

/-- The stream is open and is still good after the write. -/
structure Succeeds (file : FileHandler) (index : Nat) (data : Bytes) (fate : DiskFate) :
    Prop where
  isOpen : file.isOpen = true
  good : (file.store index data fate).good = true

/-- The file with the data of a piece at its place. -/
def put (file : FileHandler) (index : Nat) (data : Bytes) : FileHandler :=
  { file with content := overwrite 0 file.content (file.position index) data }

variable {file : FileHandler} {index : Nat} {data : Bytes} {fate : DiskFate}

/-- A stream stays good when it was, the position can be sought and the device takes all
there is. -/
theorem store_good_iff : (file.store index data fate).good = true ↔
    file.good = true ∧ file.position index < 2 ^ 63 ∧ fate = .written := by
  unfold store
  split
  · rename_i hbad
    exact iff_of_false (by simpa using hbad) fun h => by simp [h.1] at hbad
  · rename_i hgood
    split
    · rename_i hfar
      exact iff_of_false Bool.false_ne_true fun h => Nat.not_lt.mpr hfar h.2.1
    · rename_i hnear
      rw [and_iff_right (Nat.lt_of_not_le hnear)]
      cases fate with
      | written => simp
      | failsAfter bytes => simp

theorem Succeeds.store_eq (h : file.Succeeds index data fate) :
    file.store index data fate = file.put index data := by
  obtain ⟨hgood, hnear, rfl⟩ := store_good_iff.mp h.good
  rw [store, if_neg (by simpa using hgood), if_neg (Nat.not_le.mpr hnear), put]

/-- Whether a write succeeds does not depend on what the file holds. -/
theorem succeeds_put {q : Nat} {e : Bytes} :
    (file.put q e).Succeeds index data fate ↔ file.Succeeds index data fate := by
  constructor
  · intro h
    have hgood := store_good_iff.mp h.good
    exact ⟨h.isOpen, store_good_iff.mpr hgood⟩
  · intro h
    have hgood := store_good_iff.mp h.good
    exact ⟨h.isOpen, store_good_iff.mpr hgood⟩

/-- The places of two pieces do not meet. -/
theorem position_disjoint {p q : Nat} (hp : p < 2 ^ 32) (hq : q < 2 ^ 32)
    (hsize : file.pieceSize < 2 ^ 32) (hpq : p ≠ q) :
    file.position p + file.pieceSize ≤ file.position q ∨
      file.position q + file.pieceSize ≤ file.position p := by
  have hplace : ∀ {i : Nat}, i < 2 ^ 32 → file.position i = i * file.pieceSize := by
    intro i hi
    refine u64_of_lt ?_
    calc i * file.pieceSize ≤ 2 ^ 32 * file.pieceSize := Nat.mul_le_mul_right _ (Nat.le_of_lt hi)
      _ < 2 ^ 32 * 2 ^ 32 := Nat.mul_lt_mul_of_pos_left hsize (by decide)
      _ = 2 ^ 64 := by decide
  rw [hplace hp, hplace hq, ← Nat.succ_mul, ← Nat.succ_mul]
  rcases Nat.lt_or_gt_of_ne hpq with hlt | hlt
  · exact Or.inl (Nat.mul_le_mul_right _ hlt)
  · exact Or.inr (Nat.mul_le_mul_right _ hlt)

theorem put_comm {p q : Nat} {d e : Bytes} (hp : p < 2 ^ 32) (hq : q < 2 ^ 32)
    (hsize : file.pieceSize < 2 ^ 32) (hpq : p ≠ q) (hd : d.length ≤ file.pieceSize)
    (he : e.length ≤ file.pieceSize) :
    (file.put p d).put q e = (file.put q e).put p d := by
  have hdisjoint := position_disjoint hp hq hsize hpq
  have hcontent := overwrite_comm 0 file.content d e
    (show file.position p + d.length ≤ file.position q ∨
      file.position q + e.length ≤ file.position p by omega)
  change FileHandler.mk _ _
    (overwrite 0 (overwrite 0 _ (file.position p) d) (file.position q) e) _ = _
  rw [hcontent]
  rfl

end FileHandler

namespace PieceManager

variable {sha1 : Bytes → Sha1Hash} {metadata : TorrentMetadata} {m m' : PieceManager}

/-! ## What a delivery changes -/

/-- The change that a delivery makes at its piece. -/
structure Change where
  /-- the entry of the piece afterwards -/
  entry : Option PendingPiece
  /-- the offset of the block that is no longer pending -/
  taken : Option Nat
  /-- the search starts again from the first block -/
  rewound : Bool
  /-- what is written when the piece is finished -/
  written : Option Bytes

/-- Make a change at a piece. -/
def change (m : PieceManager) (idx : Nat) (c : Change) : PieceManager where
  completionNotified :=
    if c.written.isSome then
      if m.metadata.numPieces ≤ m.piecesFinished + 1 then m.completionNotified + 1
      else m.completionNotified
    else m.completionNotified
  progressTracker :=
    if c.written.isSome then m.progressTracker.map ProgressTracker.notifyProgress
    else m.progressTracker
  fileHandler :=
    match c.written with
    | some data => m.fileHandler.put idx data
    | none => m.fileHandler
  metadata := m.metadata
  bitfield :=
    if c.written.isSome then m.bitfield.modify (idx / 8) fun byte => byte ||| pieceMask idx
    else m.bitfield
  pendingPieces := Function.update m.pendingPieces idx c.entry
  verificationHashes := m.verificationHashes
  finished := if c.written.isSome then m.finished.set idx true else m.finished
  piecesFinished := if c.written.isSome then m.piecesFinished + 1 else m.piecesFinished
  pendingBlocks :=
    match c.taken with
    | some offset => m.pendingBlocks.erase ⟨idx, offset, 0⟩
    | none => m.pendingBlocks
  nextOffsets := if c.rewound then m.nextOffsets.set idx 0 else m.nextOffsets

/-- What a delivery replies and changes, from what is known of its piece. -/
def judge (sha1 : Bytes → Sha1Hash) (m : PieceManager) (idx offset : Nat) (data : Bytes) :
    Bool × Change :=
  match m.finished[idx]?, m.openPending idx with
  | some false, .ok pending =>
      if pending.data.length < offset + data.length then (false, ⟨some pending, none, false, none⟩)
      else if (pending.receive offset data).isFinished then
        if m.verificationHashes[idx]? = some (sha1 (pending.receive offset data).data) then
          (true, ⟨none, some offset, false, some data⟩)
        else (false, ⟨none, some offset, true, none⟩)
      else (true, ⟨some (pending.receive offset data), some offset, false, none⟩)
  | _, _ => (true, ⟨m.pendingPieces idx, none, false, none⟩)

/-- The length of a block that is erased plays no part. -/
theorem erase_length (pending : BlockSet) (idx offset length : Nat) :
    pending.erase ⟨idx, offset, length⟩ = pending.erase ⟨idx, offset, 0⟩ :=
  KeyedSet.erase_congr _ rfl

theorem accept_eq_change (m : PieceManager) (idx offset : Nat) (pending : PendingPiece) :
    m.accept idx offset pending = m.change idx ⟨some pending, some offset, false, none⟩ := by
  simp only [accept, change, erase_length, setPending]
  rfl

theorem markDiscarded_eq_change (m : PieceManager) (idx offset : Nat) (pending : PendingPiece) :
    (m.accept idx offset pending).markDiscarded idx =
      m.change idx ⟨none, some offset, true, none⟩ := by
  rw [accept_eq_change]
  simp only [markDiscarded, change, Function.update_idem]
  rfl

theorem markFinished_eq_change (m : PieceManager) (idx offset : Nat) (data : Bytes)
    (pending : PendingPiece) :
    ((m.accept idx offset pending).withFile (m.fileHandler.put idx data)).markFinished idx =
      m.change idx ⟨none, some offset, false, some data⟩ := by
  rw [accept_eq_change]
  simp only [markFinished, withFile, change, Function.update_idem]
  rfl

/-- A delivery whose write, when it makes one, succeeds, does what was judged. -/
theorem Delivery.judged {idx offset : Nat} {data : Bytes} {fate : DiskFate} {r : Reply}
    (h : m.Delivery sha1 idx offset data fate r m')
    (hwrite : ∀ pending, m.Verifies sha1 idx offset data pending →
      m.fileHandler.Succeeds idx data fate) :
    r = .ok (m.judge sha1 idx offset data).1 ∧
      m' = m.change idx (m.judge sha1 idx offset data).2 := by
  cases h with
  | finished hdone =>
    have hjudge : m.judge sha1 idx offset data =
        (true, ⟨m.pendingPieces idx, none, false, none⟩) := by
      rw [judge, hdone]
    have hsame : m = { m with
        pendingPieces := Function.update m.pendingPieces idx (m.pendingPieces idx) } := by
      rw [Function.update_eq_self]
    rw [hjudge]
    exact ⟨rfl, hsame⟩
  | @outOfBounds pending hunfinished hopen hout =>
    have hjudge : m.judge sha1 idx offset data =
        (false, ⟨some pending, none, false, none⟩) := by
      rw [judge, hunfinished, hopen]
      exact if_pos hout
    rw [hjudge]
    exact ⟨rfl, rfl⟩
  | @stored pending ha hwaits =>
    have hjudge : m.judge sha1 idx offset data =
        (true, ⟨some (pending.receive offset data), some offset, false, none⟩) := by
      rw [judge, ha.unfinished, ha.opened]
      simp only [if_neg (Nat.not_lt.mpr ha.fits), hwaits, if_neg Bool.false_ne_true]
    rw [hjudge]
    exact ⟨rfl, accept_eq_change m idx offset _⟩
  | discarded ha hcomplete hexpected hne _ =>
    have hjudge : m.judge sha1 idx offset data = (false, ⟨none, some offset, true, none⟩) := by
      rw [judge, ha.unfinished, ha.opened]
      simp only [if_neg (Nat.not_lt.mpr ha.fits), hcomplete, if_true, hexpected,
        Option.some.injEq, if_neg hne]
    rw [hjudge]
    exact ⟨rfl, markDiscarded_eq_change m idx offset _⟩
  | threw hv hclosed =>
    have hopen := (hwrite _ hv).isOpen
    rw [hclosed] at hopen
    cases hopen
  | completed hv _ _ _ =>
    have hjudge : m.judge sha1 idx offset data =
        (true, ⟨none, some offset, false, some data⟩) := by
      rw [judge, hv.unfinished, hv.opened]
      simp only [if_neg (Nat.not_lt.mpr hv.fits), hv.complete, if_true, hv.hash]
    rw [hjudge, (hwrite _ hv).store_eq]
    exact ⟨rfl, markFinished_eq_change m idx offset data _⟩

/-! ## What a change leaves alone -/

section Elsewhere

variable {p q : Nat} (hpq : p ≠ q) (m : PieceManager) (c : Change)

include hpq in
theorem change_finished : (m.change p c).finished[q]? = m.finished[q]? := by
  simp only [change]
  split
  · rw [List.getElem?_set_ne hpq]
  · rfl

include hpq in
theorem change_pendingPieces : (m.change p c).pendingPieces q = m.pendingPieces q :=
  Function.update_of_ne (Ne.symm hpq) _ _

include hpq in
theorem change_openPending : (m.change p c).openPending q = m.openPending q := by
  rw [openPending, openPending, change_pendingPieces hpq]
  rfl

include hpq in
/-- A change at another piece is not seen by the judgement. -/
theorem change_judge (offset : Nat) (data : Bytes) :
    (m.change p c).judge sha1 q offset data = m.judge sha1 q offset data := by
  have hhashes : (m.change p c).verificationHashes = m.verificationHashes := rfl
  rw [judge, judge, change_finished hpq, change_openPending hpq, change_pendingPieces hpq, hhashes]

include hpq in
theorem change_verifies {offset : Nat} {data : Bytes} {pending : PendingPiece}
    (h : (m.change p c).Verifies sha1 q offset data pending) :
    m.Verifies sha1 q offset data pending where
  unfinished := by rw [← change_finished hpq m c, h.unfinished]
  opened := by rw [← change_openPending hpq m c, h.opened]
  fits := h.fits
  complete := h.complete
  hash := h.hash

/-- Whether a write succeeds is not up to the changes before it. -/
theorem change_succeeds {index : Nat} {data : Bytes} {fate : DiskFate} :
    (m.change p c).fileHandler.Succeeds index data fate ↔
      m.fileHandler.Succeeds index data fate := by
  simp only [change]
  split
  · exact FileHandler.succeeds_put
  · exact Iff.rfl

end Elsewhere

/-! ## Two changes -/

theorem modify_or_comm (bytes : Bytes) (i j : Nat) (a b : UInt8) :
    (bytes.modify i fun byte => byte ||| a).modify j (fun byte => byte ||| b) =
      (bytes.modify j fun byte => byte ||| b).modify i fun byte => byte ||| a := by
  by_cases hij : i = j
  · subst hij
    rw [List.modify_modify_eq, List.modify_modify_eq]
    congr 1
    funext byte
    simp only [Function.comp_apply]
    rw [UInt8.or_assoc, UInt8.or_comm a b, ← UInt8.or_assoc]
  · exact List.modify_modify_ne _ _ _ hij

/-- What the change writes lies in the place of a piece. -/
def Change.Fits (c : Change) (file : FileHandler) : Prop :=
  ∀ data, c.written = some data → data.length ≤ file.pieceSize

attribute [ext] PieceManager

/-- **Changes at different pieces commute.** -/
theorem change_comm {p q : Nat} (hp : p < 2 ^ 32) (hq : q < 2 ^ 32) (hpq : p ≠ q)
    (m : PieceManager) (hsize : m.fileHandler.pieceSize < 2 ^ 32) {c d : Change}
    (hc : c.Fits m.fileHandler) (hd : d.Fits m.fileHandler) :
    (m.change p c).change q d = (m.change q d).change p c := by
  obtain ⟨entry, taken, rewound, written⟩ := c
  obtain ⟨entry', taken', rewound', written'⟩ := d
  apply PieceManager.ext
  case metadata => rfl
  case verificationHashes => rfl
  case completionNotified => cases written <;> cases written' <;> rfl
  case progressTracker => cases written <;> cases written' <;> rfl
  case fileHandler =>
    cases written with
    | none => cases written' <;> rfl
    | some data =>
      cases written' with
      | none => rfl
      | some data' => exact FileHandler.put_comm hp hq hsize hpq (hc data rfl) (hd data' rfl)
  case bitfield =>
    cases written with
    | none => cases written' <;> rfl
    | some data =>
      cases written' with
      | none => rfl
      | some data' => exact modify_or_comm _ _ _ _ _
  case pendingPieces => exact Function.update_comm hpq _ _ _
  case finished =>
    cases written with
    | none => cases written' <;> rfl
    | some data =>
      cases written' with
      | none => rfl
      | some data' => exact List.set_comm _ _ hpq
  case piecesFinished => cases written <;> cases written' <;> rfl
  case pendingBlocks =>
    cases taken with
    | none => cases taken' <;> rfl
    | some offset =>
      cases taken' with
      | none => rfl
      | some offset' => exact KeyedSet.erase_comm _ _ _
  case nextOffsets =>
    cases rewound with
    | false => cases rewound' <;> rfl
    | true =>
      cases rewound' with
      | false => rfl
      | true => exact List.set_comm _ _ hpq

/-! ## Two deliveries -/

/-- What is written is the data of a block that lies in the piece. -/
theorem judge_fits (hs : Shaped metadata m) (idx offset : Nat) (data : Bytes) :
    (m.judge sha1 idx offset data).2.Fits m.fileHandler := by
  intro written hwritten
  unfold judge at hwritten
  split at hwritten
  · rename_i pending hunfinished hopen
    by_cases hout : pending.data.length < offset + data.length
    · simp only [if_pos hout] at hwritten
      cases hwritten
    · have ha : m.Accepts idx offset data pending :=
        ⟨hunfinished, hopen, Nat.le_of_not_lt hout⟩
      rw [if_neg hout] at hwritten
      split at hwritten
      · split at hwritten
        · cases hwritten
          exact ha.size_le hs
        · cases hwritten
      · cases hwritten
  · cases hwritten

/-- A delivery to a piece of the torrent does what is judged. -/
theorem deliverBlock_eq_change (hs : Shaped metadata m) {idx len : Nat}
    (hidx : idx < metadata.numPieces) (hlen : metadata.info.getPieceLength idx = .ok len)
    {offset : Nat} {data : Bytes} {fate : DiskFate}
    (hwrite : ∀ pending, m.Verifies sha1 idx offset data pending →
      m.fileHandler.Succeeds idx data fate) :
    m.deliverBlock sha1 idx offset data fate =
        .ok (.ok (m.judge sha1 idx offset data).1,
          m.change idx (m.judge sha1 idx offset data).2) ∧
      Shaped metadata (m.change idx (m.judge sha1 idx offset data).2) := by
  obtain ⟨r, m', hcall⟩ := deliverBlock_total hs hidx hlen sha1 offset data fate
  have hdelivery := deliverBlock_delivery hcall
  obtain ⟨rfl, rfl⟩ := hdelivery.judged hwrite
  exact ⟨hcall, hs.delivery hdelivery⟩

/-- One delivery after another at a different piece. -/
theorem deliverBlock_after (hs : Shaped metadata m) {p q len len' : Nat} (hpq : p ≠ q)
    (hp : p < metadata.numPieces) (hq : q < metadata.numPieces)
    (hlen : metadata.info.getPieceLength p = .ok len)
    (hlen' : metadata.info.getPieceLength q = .ok len')
    {o o' : Nat} {d d' : Bytes} {fate fate' : DiskFate}
    (hwrite : ∀ pending, m.Verifies sha1 p o d pending → m.fileHandler.Succeeds p d fate)
    (hwrite' : ∀ pending, m.Verifies sha1 q o' d' pending →
      m.fileHandler.Succeeds q d' fate') :
    m.deliverBlock sha1 p o d fate = .ok (.ok (m.judge sha1 p o d).1,
        m.change p (m.judge sha1 p o d).2) ∧
      (m.change p (m.judge sha1 p o d).2).deliverBlock sha1 q o' d' fate' =
        .ok (.ok (m.judge sha1 q o' d').1,
          (m.change p (m.judge sha1 p o d).2).change q (m.judge sha1 q o' d').2) := by
  obtain ⟨hfirst, hs'⟩ := deliverBlock_eq_change hs hp hlen hwrite
  have hsecond := (deliverBlock_eq_change hs' hq hlen' fun pending hv =>
    (change_succeeds m _).mpr (hwrite' pending (change_verifies hpq m _ hv))).1
  rw [change_judge hpq] at hsecond
  exact ⟨hfirst, hsecond⟩

/-- **Deliveries to different pieces commute.**  In every reachable state, two deliveries
to different pieces of the torrent come back in either order, each with the same reply,
and end in the same state, the output file included, provided that each succeeds in
writing the piece it finishes, if it finishes one. -/
theorem deliverBlock_comm (h1 : 1 ≤ metadata.info.pieceLength)
    (h2 : metadata.info.pieceLength < 2 ^ 32)
    {history : List (Transition PieceManager (Op × Answer))}
    (hrun : (machine sha1 metadata).Run history m) {p q : Nat} (hp : p < metadata.numPieces)
    (hq : q < metadata.numPieces) (hp32 : p < 2 ^ 32) (hq32 : q < 2 ^ 32) (hpq : p ≠ q)
    {o o' : Nat} {d d' : Bytes} {fate fate' : DiskFate}
    (hwrite : ∀ pending, m.Verifies sha1 p o d pending → m.fileHandler.Succeeds p d fate)
    (hwrite' : ∀ pending, m.Verifies sha1 q o' d' pending →
      m.fileHandler.Succeeds q d' fate') :
    ∃ r r' m₁ m₂ m', m.deliverBlock sha1 p o d fate = .ok (r, m₁) ∧
      m₁.deliverBlock sha1 q o' d' fate' = .ok (r', m') ∧
      m.deliverBlock sha1 q o' d' fate' = .ok (r', m₂) ∧
      m₂.deliverBlock sha1 p o d fate = .ok (r, m') := by
  have hs := shaped_of_run hrun
  obtain ⟨len, hlen, _⟩ := TorrentMetadata.Info.getPieceLength_pos h1 h2 p
  obtain ⟨len', hlen', _⟩ := TorrentMetadata.Info.getPieceLength_pos h1 h2 q
  obtain ⟨hfirst, hthen⟩ := deliverBlock_after hs hpq hp hq hlen hlen' hwrite hwrite'
  obtain ⟨hfirst', hthen'⟩ :=
    deliverBlock_after hs (Ne.symm hpq) hq hp hlen' hlen hwrite' hwrite
  have hsize : m.fileHandler.pieceSize < 2 ^ 32 := by rwa [hs.pieceSize]
  rw [← change_comm hp32 hq32 hpq m hsize (judge_fits hs p o d) (judge_fits hs q o' d')] at hthen'
  exact ⟨_, _, _, _, _, hfirst, hthen, hfirst', hthen'⟩

/-- A torrent of two pieces of one byte. -/
def twoSevens : TorrentMetadata where
  announce := []
  comment := []
  creationDate := 0
  infoHash := sevenDigest
  info :=
    { pieceHashes := [sevenDigest, sevenDigest]
      rawPieces := sevenDigest.toList ++ sevenDigest.toList
      pieceLength := 1
      fileLength := 2
      fileName := [] }

/-- Both pieces of a file of two bytes arrive and are written, in either order. -/
theorem deliverBlock_comm_twoSevens :
    ∃ m₁ m₂ m', (new twoSevens emptyFile true).deliverBlock sampleSha1 0 0 [7] .written =
        .ok (.ok true, m₁) ∧
      m₁.deliverBlock sampleSha1 1 0 [7] .written = .ok (.ok true, m') ∧
      (new twoSevens emptyFile true).deliverBlock sampleSha1 1 0 [7] .written =
        .ok (.ok true, m₂) ∧
      m₂.deliverBlock sampleSha1 0 0 [7] .written = .ok (.ok true, m') ∧
      m'.fileHandler.content = [7, 7] := by
  have hrun : (machine sampleSha1 twoSevens).Run [] (new twoSevens emptyFile true) :=
    .start ⟨emptyFile, true, rfl⟩
  have hwrite : ∀ pending, (new twoSevens emptyFile true).Verifies sampleSha1 0 0 [7] pending →
      (new twoSevens emptyFile true).fileHandler.Succeeds 0 [7] .written :=
    fun _ _ => ⟨rfl, rfl⟩
  have hwrite' : ∀ pending, (new twoSevens emptyFile true).Verifies sampleSha1 1 0 [7] pending →
      (new twoSevens emptyFile true).fileHandler.Succeeds 1 [7] .written :=
    fun _ _ => ⟨rfl, rfl⟩
  obtain ⟨r, r', m₁, m₂, m', hfirst, hthen, hfirst', hthen'⟩ :=
    deliverBlock_comm (by decide) (by decide) hrun (by decide) (by decide) (by decide) (by decide)
      (by decide) hwrite hwrite'
  obtain ⟨x, y, hx, hy, hcontent⟩ : ∃ x y : PieceManager,
      (new twoSevens emptyFile true).deliverBlock sampleSha1 0 0 [7] .written =
        .ok (.ok true, x) ∧
      x.deliverBlock sampleSha1 1 0 [7] .written = .ok (.ok true, y) ∧
      y.fileHandler.content = [7, 7] := ⟨_, _, rfl, rfl, rfl⟩
  obtain ⟨rfl, rfl⟩ := Prod.mk.inj (Except.ok.inj (hfirst.symm.trans hx))
  obtain ⟨rfl, rfl⟩ := Prod.mk.inj (Except.ok.inj (hthen.symm.trans hy))
  exact ⟨m₁, m₂, m', hfirst, hthen, hfirst', hthen', hcontent⟩

end PieceManager

end BitTorrentClient
