/-
  App/PieceManager/Service.lean --- a manager that is served well.

  `Serves` is what the manager gets when every peer sends what was asked for and the
  disk works: a delivery brings a block that is pending, with its slice of the content
  that was announced, and no block is taken back.  From the construction on, such a
  run keeps every piece in an exchange (`Reassembly`), and a block that was delivered
  is never pending again.  So the search of a piece only moves forward, and when it
  has passed all pieces there is nothing left to ask for: `Drained`.
-/
import BitTorrentClient.App.PieceManager.Reassembly
import BitTorrentClient.App.PieceManager.Selection
import Mathlib.Algebra.Order.BigOperators.Group.Finset

set_option autoImplicit false

namespace BitTorrentClient

open Library

namespace PieceManager

variable {sha1 : Bytes → Sha1Hash} {metadata : TorrentMetadata} {contents : Nat → Bytes}
  {m m' : PieceManager} {history : List (Transition PieceManager (Op × Answer))}

/-- The contents have the lengths and the hashes that the metadata announces.  Pieces are
of at least one byte and of less than 2^32, and there are at most 2^32 of them, so that
they and their numbers fit the 32 bits that they are given on the wire. -/
structure Announced (sha1 : Bytes → Sha1Hash) (metadata : TorrentMetadata)
    (contents : Nat → Bytes) : Prop where
  nonempty : 1 ≤ metadata.info.pieceLength
  small : metadata.info.pieceLength < 2 ^ 32
  few : metadata.numPieces ≤ 2 ^ 32
  length : ∀ p < metadata.numPieces, metadata.info.getPieceLength p = .ok (contents p).length
  hash : ∀ p < metadata.numPieces, metadata.info.pieceHashes[p]? = some (sha1 (contents p))

/-- No piece is empty. -/
theorem Announced.content_pos (h : Announced sha1 metadata contents) {p : Nat}
    (hp : p < metadata.numPieces) : 0 < (contents p).length := by
  obtain ⟨len, hlen, hpos⟩ := TorrentMetadata.Info.getPieceLength_pos h.nonempty h.small p
  rwa [Except.ok.inj ((h.length p hp).symm.trans hlen)]

/-- So every piece starts at a 64-bit position. -/
theorem Announced.fits (h : Announced sha1 metadata contents) :
    metadata.numPieces * metadata.info.pieceLength ≤ 2 ^ 64 :=
  calc metadata.numPieces * metadata.info.pieceLength
      ≤ 2 ^ 32 * 2 ^ 32 := Nat.mul_le_mul h.few (Nat.le_of_lt h.small)
    _ = 2 ^ 64 := by decide

/-- A delivery brings a pending block of the content, no block is taken back and no
write throws. -/
structure Serves (contents : Nat → Bytes) (m : PieceManager) (l : Op × Answer) : Prop where
  delivers : ∀ idx offset data fate, l.1 = .deliverBlock idx offset data fate →
    m.pendingBlocks.Has (blockKey idx offset) ∧ data = slice (contents idx) offset blockLen
  returns : ∀ block, l.1 ≠ .returnBlock block
  writes : ∀ e, l.2 ≠ .reply (.error e)

/-- Every piece is in an exchange that began with the construction, and what was
delivered is not pending. -/
structure Served (metadata : TorrentMetadata) (contents : Nat → Bytes)
    (history : List (Transition PieceManager (Op × Answer))) (m : PieceManager) : Prop where
  exchanged : ∀ p < metadata.numPieces, ∃ j ks, Exchanged p (contents p) [] history m j ks
  fresh : ∀ p < metadata.numPieces, ∀ f ∈ deliveredTo p history,
    ¬ m.pendingBlocks.Has (blockKey p f.offset)

/-! ## One step -/

section Step

variable {p j : Nat} {ks : List Nat} {content : Bytes}

/-- A pending block is one of those handed out. -/
theorem Exchanged.pending_block (h : Exchanged p content [] history m j ks) {offset : Nat}
    (hpending : m.pendingBlocks.Has (blockKey p offset)) :
    ∃ k < j, offset = k * blockLen ∧ blockAt p content.length k ∈ handedOut p history := by
  obtain ⟨k, hk, rfl⟩ := h.pending offset hpending
  refine ⟨k, hk, rfl, ?_⟩
  rw [← List.mem_reverse, h.handed]
  exact List.mem_map_of_mem (List.mem_range.mpr hk)

/-- The blocks that were delivered lie before the next one to be handed out. -/
theorem Exchanged.delivered_lt (h : Exchanged p content [] history m j ks) {f : Received}
    (hf : f ∈ deliveredTo p history) : ∃ k < j, f.offset = k * blockLen := by
  rw [h.blocks.blocks] at hf
  obtain ⟨k, hk, rfl⟩ := List.mem_map.mp hf
  exact ⟨k, h.asked k hk, rfl⟩

theorem Serves.exchanges {l : Op × Answer} (h : Serves contents m l)
    (hserved : Served metadata contents history m) (hp : p < metadata.numPieces) :
    Exchanges p (contents p) history ⟨m, l, m'⟩ := by
  obtain ⟨j, ks, hexchanged⟩ := hserved.exchanged p hp
  refine ⟨?_, fun block hlabel => absurd hlabel (h.returns block), h.writes⟩
  intro offset data fate hlabel
  obtain ⟨hpending, rfl⟩ := h.delivers p offset data fate hlabel
  obtain ⟨k, _, rfl, hmem⟩ := hexchanged.pending_block hpending
  refine ⟨_, hmem, rfl, (slice_min (contents p) _ _).symm, ?_⟩
  exact fun f hf heq => hserved.fresh p hp f hf (heq ▸ hpending)

/-- A delivery that serves the manager is taken. -/
theorem Serves.taken (hserved : Served metadata contents history m)
    (hannounced : Announced sha1 metadata contents) (hs : Shaped metadata m)
    (hrecord : ∀ p, Recorded history m p) {idx offset : Nat} {data : Bytes} {fate : DiskFate}
    {r : Reply} (hserves : Serves contents m (.deliverBlock idx offset data fate, .reply r))
    (hd : m.Delivery sha1 idx offset data fate r m') (hidx : idx < metadata.numPieces) :
    r = .ok true ∧ ∃ pending, m.Accepts idx offset data pending := by
  obtain ⟨j, ks, hexchanged⟩ := hserved.exchanged idx hidx
  have hexchanges : Exchanges idx (contents idx) history ⟨m, _, m'⟩ :=
    hserves.exchanges hserved hidx
  obtain ⟨block, hmem, hoffset, hdata, hnew⟩ := hexchanges.delivers offset data fate rfl
  obtain ⟨k, hk, hnew, hblock⟩ := hexchanged.delivered_block hmem hoffset hdata hnew
  have hrecord' : Recorded (history ++ []) m idx := by
    rw [List.append_nil]
    exact hrecord idx
  rcases hexchanged.taken hs hrecord' (hannounced.length idx hidx) (hannounced.hash idx hidx) hk
      hnew hblock hd with ⟨pending, ha, hr, _⟩ | ⟨pending, ha, hr, _⟩ | ⟨e, hr, _⟩
  · exact ⟨hr, pending, ha⟩
  · exact ⟨hr, pending, ha⟩
  · exact absurd (congrArg Answer.reply hr) (hserves.writes e)

theorem deliveredTo_delivery {idx offset : Nat} {data : Bytes} {fate : DiskFate}
    {answer : Answer} : deliveredTo p
      (⟨m, (.deliverBlock idx offset data fate, answer), m'⟩ :: history) =
        if idx = p then ⟨offset, data⟩ :: deliveredTo p history else deliveredTo p history :=
  rfl

/-- A delivery that comes back is to a piece of the torrent. -/
theorem Delivery.index_lt {idx offset : Nat} {data : Bytes} {fate : DiskFate} {r : Reply}
    (h : m.Delivery sha1 idx offset data fate r m') : idx < m.finished.length := by
  have hlt : ∀ {done : Bool}, m.finished[idx]? = some done → idx < m.finished.length :=
    fun hdone => (List.getElem?_eq_some_iff.mp hdone).1
  cases h with
  | finished hdone => exact hlt hdone
  | outOfBounds hunfinished _ _ => exact hlt hunfinished
  | stored ha _ => exact hlt ha.unfinished
  | discarded ha _ _ _ _ => exact hlt ha.unfinished
  | threw hv _ => exact hlt hv.unfinished
  | completed hv _ _ _ => exact hlt hv.unfinished

/-- A block that was taken is not pending any more. -/
theorem Delivery.erased {idx offset : Nat} {data : Bytes} {fate : DiskFate} {r : Reply}
    {pending : PendingPiece} (h : m.Delivery sha1 idx offset data fate r m')
    (ha : m.Accepts idx offset data pending) (hr : r = .ok true) :
    ¬ m'.pendingBlocks.Has (blockKey idx offset) := by
  have herased : ∀ pending',
      ¬ (m.stored idx offset data pending').pendingBlocks.Has (blockKey idx offset) :=
    fun _ hk => (KeyedSet.has_erase.mp hk).2 rfl
  cases h with
  | finished hdone => exact absurd (ha.unfinished.symm.trans hdone) (by simp)
  | outOfBounds _ _ _ => cases hr
  | stored _ _ => exact herased _
  | discarded _ _ _ _ _ => cases hr
  | threw _ _ => cases hr
  | completed _ _ _ _ => exact herased _

theorem Served.step (h : Served metadata contents history m)
    (hannounced : Announced sha1 metadata contents) (hs : Shaped metadata m)
    (ha : Aligned metadata m) (hrecord : ∀ p, Recorded history m p) {l : Op × Answer}
    (hstep : m.Step sha1 l m') (hserves : Serves contents m l) :
    Served metadata contents (⟨m, l, m'⟩ :: history) m' := by
  have hrecord' : ∀ p, Recorded (history ++ []) m p := by
    intro p
    rw [List.append_nil]
    exact hrecord p
  refine ⟨fun p hp => ?_, fun p hp f hf => ?_⟩
  · obtain ⟨j, ks, hexchanged⟩ := h.exchanged p hp
    exact hexchanged.step hs ha (hrecord' p) (hannounced.length p hp) (hannounced.hash p hp) hstep
      (hserves.exchanges h hp)
  · cases hstep with
    | returned _ => exact absurd rfl (hserves.returns _)
    | @requested peerBitfield r m' hr =>
      rw [deliveredTo_of_not_delivery (by simp)] at hf
      have hold := h.fresh p hp f hf
      cases hr with
      | nothing => exact hold
      | @block i bit block _ _ _ _ hout =>
        intro hpending
        rw [hout.target] at hpending
        rcases KeyedSet.has_insert.mp hpending with hpending | hkey
        · exact hold hpending
        · -- the block handed out now is the next one of its piece
          obtain ⟨hpiece, hoffset⟩ := blockKey_inj.mp hkey
          obtain ⟨j, ks, hexchanged⟩ := h.exchanged p hp
          rw [← hout.key.1, ← hpiece] at hout
          obtain ⟨rfl, _⟩ := hexchanged.handsOut_eq hs ha (hannounced.length p hp) hout
          obtain ⟨k, hk, hdelivered⟩ := hexchanged.delivered_lt hf
          have heq : k * blockLen = j * blockLen := hdelivered.symm.trans hoffset
          exact Nat.ne_of_lt hk (Nat.eq_of_mul_eq_mul_right blockLen_pos heq)
    | @delivered idx offset data fate r m' hd =>
      by_cases hpiece : idx = p
      · subst hpiece
        obtain ⟨hr, pending, haccepts⟩ := Serves.taken h hannounced hs hrecord hserves hd hp
        obtain ⟨_, hless⟩ := hd.accepted hr
        rw [deliveredTo_delivery, if_pos rfl] at hf
        rcases List.mem_cons.mp hf with rfl | hf
        · exact hd.erased haccepts hr
        · exact fun hpending => h.fresh idx hp f hf (hless _ hpending)
      · rw [deliveredTo_delivery, if_neg hpiece] at hf
        rw [(hd.elsewhere hpiece).pending]
        exact h.fresh p hp f hf

/-! ## Runs -/

theorem served_new (hannounced : Announced sha1 metadata contents) (disk : Disk)
    (tracked : Bool) : Served metadata contents [] (new metadata disk tracked) where
  exchanged := by
    intro p hp
    have hpos := hannounced.content_pos hp
    have hrun : (machine sha1 metadata).Run [] (new metadata disk tracked) :=
      .start ⟨disk, tracked, rfl⟩
    refine ⟨0, [], exchanged_start hrun ?_ rfl (fun _ => KeyedSet.has_empty _) ?_ hpos⟩
    · simp [new, hp]
    · simp [new, hp]
  fresh := by simp [deliveredTo]

theorem served_of_run (hannounced : Announced sha1 metadata contents)
    (hrun : (machine sha1 metadata).Run history m)
    (hserves : Machine.Guarded (Serves contents) history) :
    Served metadata contents history m := by
  induction hrun with
  | start hinit =>
    obtain ⟨disk, tracked, rfl⟩ := hinit
    exact served_new hannounced disk tracked
  | snoc hsofar hlast ih =>
    exact (ih hserves.tail).step hannounced (shaped_of_run hsofar) (aligned_of_run hsofar)
      (recorded_of_run hsofar) (machine_step hlast) (hserves _ List.mem_cons_self)

end Step

/-! ## What is left to ask for -/

/-- A block that is pending was handed out, so the search is behind it. -/
theorem Served.not_free_of_pending (h : Served metadata contents history m) {p k : Nat}
    (hp : p < metadata.numPieces) (hin : k * blockLen < (contents p).length)
    (hpending : Pending m p k) : ¬ Free m p k := by
  intro hfree
  obtain ⟨j, ks, hexchanged⟩ := h.exchanged p hp
  obtain ⟨i, hi, heq⟩ := hexchanged.pending _ hpending
  obtain rfl := Nat.eq_of_mul_eq_mul_right blockLen_pos heq
  obtain ⟨next, hnext, hle⟩ := hfree
  obtain rfl := Option.some.inj (hexchanged.next.symm.trans hnext)
  have hlt : k * blockLen < j * blockLen := Nat.mul_lt_mul_of_pos_right hi blockLen_pos
  omega

/-- Every block of an unfinished piece was handed out. -/
def Drained (metadata : TorrentMetadata) (m : PieceManager) : Prop :=
  ∀ p len k, m.finished[p]? = some false → metadata.info.getPieceLength p = .ok len →
    k * blockLen < len → ¬ Free m p k

/-- A peer that has every piece, and sent a bitfield that says so and nothing else. -/
structure Seeds (metadata : TorrentMetadata) (peerBitfield : Bytes) : Prop where
  sized : SizedFor metadata peerBitfield
  spare : SpareClear metadata peerBitfield
  all : ∀ p < metadata.numPieces, pieceBit peerBitfield p = true

/-- When such a peer is asked for nothing, nothing is left. -/
theorem Served.drained_of_none (h : Served metadata contents history m)
    (hannounced : Announced sha1 metadata contents) (hrun : (machine sha1 metadata).Run history m)
    {peerBitfield : Bytes} (hseeds : Seeds metadata peerBitfield)
    (hnone : m.requestBlock peerBitfield = .ok (none, m')) : Drained metadata m := by
  intro p len k hunfinished hlen hin hfree
  have hs := shaped_of_run hrun
  have hp : p < metadata.numPieces :=
    hs.finished_length ▸ (List.getElem?_eq_some_iff.mp hunfinished).1
  obtain rfl : (contents p).length = len :=
    Except.ok.inj ((hannounced.length p hp).symm.trans hlen)
  have hlens : ∀ q, ∃ len, metadata.info.getPieceLength q = .ok len := by
    intro q
    obtain ⟨len, hlen, _⟩ :=
      TorrentMetadata.Info.getPieceLength_pos hannounced.nonempty hannounced.small q
    exact ⟨len, hlen⟩
  have hlen' : m.getPieceLength p = .ok (contents p).length := by
    rw [getPieceLength, hs.metadata_eq, hlen]
  rcases requestBlock_cases hs (aligned_of_run hrun) (bookkeeping_of_run hrun) hlens
      hannounced.few hseeds.sized hseeds.spare with
    ⟨_, hoffers⟩ | ⟨block, m'', _, _, _, _, hsome, _⟩
  · refine hoffers p k ⟨hseeds.all p hp, hunfinished, ⟨_, hlen', hin⟩, hfree, fun hpending => ?_⟩
    exact h.not_free_of_pending hp hin hpending hfree
  · rw [hsome] at hnone
    cases hnone

/-- The search of a piece only moves forward. -/
theorem Serves.free_of_step (hserved : Served metadata contents history m)
    (hannounced : Announced sha1 metadata contents) (hs : Shaped metadata m)
    (hrecord : ∀ p, Recorded history m p) {l : Op × Answer} (hstep : m.Step sha1 l m')
    (hserves : Serves contents m l) {p k : Nat} (hfree : Free m' p k) : Free m p k := by
  cases hstep with
  | returned _ => exact absurd rfl (hserves.returns _)
  | requested hr =>
    cases hr with
    | nothing => exact hfree
    | @block i bit block _ _ _ _ hout =>
      obtain ⟨next, hnext, hle⟩ := hfree
      obtain ⟨start, hstart, _, hafter, hset⟩ := hout.forward
      rw [hset, List.getElem?_set] at hnext
      split at hnext
      · rename_i hpiece
        obtain ⟨hlt, _⟩ := List.getElem?_eq_some_iff.mp hstart
        rw [if_pos hlt] at hnext
        obtain rfl := Option.some.inj hnext
        exact ⟨start, hpiece ▸ hstart, by omega⟩
      · exact ⟨next, hnext, hle⟩
  | @delivered idx offset data fate r _ hd =>
    have hidx : idx < metadata.numPieces := hs.finished_length ▸ hd.index_lt
    obtain ⟨hr, _⟩ := Serves.taken hserved hannounced hs hrecord hserves hd hidx
    obtain ⟨next, hnext, hle⟩ := hfree
    rw [(hd.accepted hr).1] at hnext
    exact ⟨next, hnext, hle⟩

/-- Once nothing is left to ask for, nothing is. -/
theorem Drained.step (h : Drained metadata m) (hserved : Served metadata contents history m)
    (hannounced : Announced sha1 metadata contents) (hs : Shaped metadata m)
    (hrecord : ∀ p, Recorded history m p) {l : Op × Answer} (hstep : m.Step sha1 l m')
    (hserves : Serves contents m l) : Drained metadata m' := by
  intro p len k hunfinished hlen hin hfree
  refine h p len k ?_ hlen hin
    (Serves.free_of_step hserved hannounced hs hrecord hstep hserves hfree)
  rcases hstep.finished_change hs (i := p) with hsame | ⟨_, hdone, _⟩
  · exact hsame ▸ hunfinished
  · exact absurd (hunfinished.symm.trans hdone) (by simp)

/-- In every run a download is complete when all pieces are finished. -/
theorem isComplete_iff_of_run (hrun : (machine sha1 metadata).Run history m) :
    m.isComplete = true ↔ AllFinished metadata m :=
  (bookkeeping_of_run hrun).isComplete_iff (shaped_of_run hrun)

/-- With nothing left to ask for and nothing pending, every piece is finished. -/
theorem complete_of_drained (hannounced : Announced sha1 metadata contents)
    (hrun : (machine sha1 metadata).Run history m)
    (hserves : Machine.Guarded (Serves contents) history) (hdrained : Drained metadata m)
    (hpending : ∀ k, ¬ m.pendingBlocks.Has k) : m.isComplete = true := by
  have hs := shaped_of_run hrun
  have hscheduled := scheduled_of_run hannounced.nonempty hannounced.small hrun
    fun t ht e => (hserves t ht).writes e
  refine (isComplete_iff_of_run hrun).mpr fun p hp => ?_
  have hin : p < m.finished.length := hs.finished_length ▸ hp
  cases hflag : m.finished[p] with
  | true => rw [List.getElem?_eq_getElem hin, hflag]
  | false =>
    have hunfinished : m.finished[p]? = some false := by
      rw [List.getElem?_eq_getElem hin, hflag]
    obtain ⟨k, hk, hleft⟩ := hscheduled.exists_left hannounced.nonempty hannounced.small
      hunfinished (hannounced.length p hp)
    rcases hleft with hfree | hheld
    · exact absurd hfree (hdrained p _ k hunfinished (hannounced.length p hp) hk)
    · exact absurd hheld (hpending _)

/-- A finished piece was verified as its content. -/
theorem Served.verified (h : Served metadata contents history m) {p : Nat}
    (hp : p < metadata.numPieces) (hdone : m.finished[p]? = some true) :
    verifiedBuffer p history = some (contents p) := by
  obtain ⟨j, ks, hexchanged⟩ := h.exchanged p hp
  rcases hexchanged.progressed with ⟨hunfinished, _⟩ | ⟨_, _, hbuffer⟩
  · exact absurd (hunfinished.symm.trans hdone) (by simp)
  · rwa [List.append_nil] at hbuffer

/-- A pending block is taken when it comes, if the file is open. -/
theorem Served.delivers (h : Served metadata contents history m)
    (hannounced : Announced sha1 metadata contents) (hrun : (machine sha1 metadata).Run history m)
    (hopen : m.fileHandler.isOpen = true) {p offset : Nat} (hp : p < metadata.numPieces)
    (hpending : m.pendingBlocks.Has (blockKey p offset)) (fate : DiskFate) :
    ∃ m', m.deliverBlock sha1 p offset (slice (contents p) offset blockLen) fate =
      .ok (.ok true, m') := by
  obtain ⟨j, ks, hexchanged⟩ := h.exchanged p hp
  obtain ⟨k, _, rfl, hmem⟩ := hexchanged.pending_block hpending
  have hrecord : Recorded (history ++ []) m p := by
    rw [List.append_nil]
    exact recorded_of_run hrun p
  obtain ⟨r, m', hcall, htrue⟩ := hexchanged.delivers (shaped_of_run hrun) hrecord hp
    (hannounced.length p hp) (hannounced.hash p hp) hmem
    (fun f hf heq => h.fresh p hp f hf (heq ▸ hpending)) fate
  obtain rfl := htrue hopen
  refine ⟨m', ?_⟩
  rw [← slice_min]
  exact hcall

/-! ## How much is left -/

/-- How many blocks the torrent has. -/
def totalCount (metadata : TorrentMetadata) (contents : Nat → Bytes) : Nat :=
  ∑ p ∈ Finset.range metadata.numPieces, blockCount blockLen (contents p).length

/-- How many blocks were delivered. -/
def deliveryCount (metadata : TorrentMetadata)
    (history : List (Transition PieceManager (Op × Answer))) : Nat :=
  ∑ p ∈ Finset.range metadata.numPieces, (deliveredTo p history).length

theorem Served.deliveredTo_le (h : Served metadata contents history m) {p : Nat}
    (hp : p < metadata.numPieces) :
    (deliveredTo p history).length ≤ blockCount blockLen (contents p).length := by
  obtain ⟨j, ks, hexchanged⟩ := h.exchanged p hp
  exact hexchanged.blocks.length_le blockLen_pos

/-- No block is delivered twice. -/
theorem Served.deliveryCount_le (h : Served metadata contents history m) :
    deliveryCount metadata history ≤ totalCount metadata contents :=
  Finset.sum_le_sum fun _ hp => h.deliveredTo_le (Finset.mem_range.mp hp)

/-- A piece is finished when all its blocks were delivered. -/
theorem Served.finished_iff (h : Served metadata contents history m) {p : Nat}
    (hp : p < metadata.numPieces) : m.finished[p]? = some true ↔
      (deliveredTo p history).length = blockCount blockLen (contents p).length := by
  obtain ⟨j, ks, hexchanged⟩ := h.exchanged p hp
  rcases hexchanged.progressed with ⟨hunfinished, _, hless⟩ | ⟨hdone, hall, _⟩
  · rw [hunfinished]
    exact iff_of_false (by simp) (Nat.ne_of_lt hless)
  · exact iff_of_true hdone hall

/-- All pieces are finished when all blocks were delivered. -/
theorem Served.isComplete_iff (h : Served metadata contents history m)
    (hrun : (machine sha1 metadata).Run history m) : m.isComplete = true ↔
      deliveryCount metadata history = totalCount metadata contents := by
  have hle : ∀ p ∈ Finset.range metadata.numPieces,
      (deliveredTo p history).length ≤ blockCount blockLen (contents p).length :=
    fun p hp => h.deliveredTo_le (Finset.mem_range.mp hp)
  rw [isComplete_iff_of_run hrun, deliveryCount, totalCount, Finset.sum_eq_sum_iff_of_le hle]
  refine forall_congr' fun p => ?_
  rw [Finset.mem_range]
  exact imp_congr_right fun hp => h.finished_iff hp

/-- More steps deliver no less. -/
theorem deliveredTo_cons_length (p : Nat) (t : Transition PieceManager (Op × Answer)) :
    (deliveredTo p history).length ≤ (deliveredTo p (t :: history)).length := by
  rw [deliveredTo]
  split
  · split
    · exact Nat.le_succ _
    · exact Nat.le_refl _
  · exact Nat.le_refl _

theorem deliveryCount_cons (t : Transition PieceManager (Op × Answer)) :
    deliveryCount metadata history ≤ deliveryCount metadata (t :: history) :=
  Finset.sum_le_sum fun p _ => deliveredTo_cons_length p t

/-- A delivery counts. -/
theorem deliveryCount_delivery {idx offset : Nat} {data : Bytes} {fate : DiskFate}
    {answer : Answer} (hidx : idx < metadata.numPieces) :
    deliveryCount metadata history < deliveryCount metadata
      (⟨m, (.deliverBlock idx offset data fate, answer), m'⟩ :: history) := by
  refine Finset.sum_lt_sum (fun p _ => deliveredTo_cons_length p _)
    ⟨idx, Finset.mem_range.mpr hidx, ?_⟩
  rw [deliveredTo_delivery, if_pos rfl]
  exact Nat.lt_succ_self _

end PieceManager

end BitTorrentClient
