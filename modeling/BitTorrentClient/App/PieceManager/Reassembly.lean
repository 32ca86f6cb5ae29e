/-
  App/PieceManager/Reassembly.lean --- one piece, from its first request on.

  The requester hands a piece out by moving an offset through it; the deliverer
  counts blocks.  They share no table of blocks.  For one piece, followed from a
  state in which nothing of it was asked for, they agree: `Exchanged` says that the
  blocks handed out are the first `j` of the piece, and that the blocks delivered
  are the blocks `ks` among those, whatever happens to other pieces meanwhile.
-/
import BitTorrentClient.App.PieceManager.Received
import BitTorrentClient.App.PieceManager.Totality
import BitTorrentClient.App.PieceManager.Scheduler
import BitTorrentClient.App.PieceManager.OnDisk

set_option autoImplicit false

namespace BitTorrentClient

open Library

namespace PieceManager

variable {sha1 : Bytes → Sha1Hash} {metadata : TorrentMetadata} {m m' : PieceManager}
  {before during : List (Transition PieceManager (Op × Answer))}

/-! ## What was handed out and what was delivered -/

/-- The blocks of the piece `p` that the steps handed out, latest first. -/
def handedOut (p : Nat) : List (Transition PieceManager (Op × Answer)) → List Block
  | [] => []
  | t :: older =>
      match t.label.2 with
      | .block (some block) =>
          if block.pieceIndex = p then block :: handedOut p older else handedOut p older
      | _ => handedOut p older

/-- The blocks that the steps delivered to the piece `p`, latest first. -/
def deliveredTo (p : Nat) : List (Transition PieceManager (Op × Answer)) → List Received
  | [] => []
  | t :: older =>
      match t.label.1 with
      | .deliverBlock idx offset data _ =>
          if idx = p then ⟨offset, data⟩ :: deliveredTo p older else deliveredTo p older
      | _ => deliveredTo p older

theorem handedOut_of_not_about {p : Nat} {t : Transition PieceManager (Op × Answer)}
    (hnot : ¬ About p t.label) : handedOut p (t :: during) = handedOut p during := by
  rw [handedOut]
  split
  · rename_i block hblock
    rw [if_neg fun heq => hnot (Or.inr (Or.inr ⟨block, hblock, heq⟩))]
  · rfl

theorem deliveredTo_of_not_delivery {p : Nat} {t : Transition PieceManager (Op × Answer)}
    (hnot : ∀ offset data fate, t.label.1 ≠ .deliverBlock p offset data fate) :
    deliveredTo p (t :: during) = deliveredTo p during := by
  rw [deliveredTo]
  split
  · rename_i idx offset data fate hlabel
    rw [if_neg]
    rintro rfl
    exact hnot offset data fate hlabel
  · rfl

/-- What is asked of a step that is about the piece `p` with this content: a delivery
brings a block that was handed out and not delivered yet, with its slice of the content;
no block is taken back; and no write throws. -/
structure Exchanges (p : Nat) (content : Bytes)
    (older : List (Transition PieceManager (Op × Answer)))
    (t : Transition PieceManager (Op × Answer)) : Prop where
  delivers : ∀ offset data fate, t.label.1 = .deliverBlock p offset data fate →
    ∃ block ∈ handedOut p older, offset = block.offset ∧
      data = slice content block.offset block.length ∧
      ∀ f ∈ deliveredTo p older, f.offset ≠ block.offset
  returns : ∀ block, t.label.1 = .returnBlock block → block.pieceIndex ≠ p
  writes : ∀ e, t.label.2 ≠ .reply (.error e)

/-- A delivery that is not refused moves no search and makes no block pending. -/
theorem Delivery.accepted {idx offset : Nat} {data : Bytes} {fate : DiskFate} {r : Reply}
    (h : m.Delivery sha1 idx offset data fate r m') (hr : r = .ok true) :
    m'.nextOffsets = m.nextOffsets ∧ ∀ k, m'.pendingBlocks.Has k → m.pendingBlocks.Has k := by
  cases h with
  | finished _ => exact ⟨rfl, fun _ hk => hk⟩
  | outOfBounds _ _ _ => cases hr
  | stored _ _ => exact ⟨rfl, fun _ hk => (KeyedSet.has_erase.mp hk).1⟩
  | discarded _ _ _ _ _ => cases hr
  | threw _ _ => cases hr
  | completed _ _ _ _ => exact ⟨rfl, fun _ hk => (KeyedSet.has_erase.mp hk).1⟩

/-- The block `k` of the piece `p` of this length. -/
def blockAt (p len k : Nat) : Block := ⟨p, k * blockLen, min blockLen (len - k * blockLen)⟩

/-! ## The invariant -/

/-- The piece waits for a block, or has all of them and was verified. -/
def Progressed (p : Nat) (content : Bytes)
    (before during : List (Transition PieceManager (Op × Answer))) (m : PieceManager) : Prop :=
  (m.finished[p]? = some false ∧
      receivedSince p (during ++ before) = deliveredTo p during ∧
      (deliveredTo p during).length < blockCount blockLen content.length) ∨
    (m.finished[p]? = some true ∧
      (deliveredTo p during).length = blockCount blockLen content.length ∧
      verifiedBuffer p (during ++ before) = some content)

/-- The first `j` blocks of the piece were handed out, and of those the blocks `ks` were
delivered. -/
structure Exchanged (p : Nat) (content : Bytes)
    (before during : List (Transition PieceManager (Op × Answer))) (m : PieceManager) (j : Nat)
    (ks : List Nat) : Prop where
  handed : (handedOut p during).reverse = (List.range j).map (blockAt p content.length)
  inside : ∀ k < j, k * blockLen < content.length
  blocks : WholeBlocks blockLen content ks (deliveredTo p during)
  asked : ∀ k ∈ ks, k < j
  next : m.nextOffsets[p]? = some (min (j * blockLen) content.length)
  pending : ∀ o, m.pendingBlocks.Has (blockKey p o) → ∃ k < j, o = k * blockLen
  replied : ∀ t ∈ during, ∀ offset data fate, t.label.1 = .deliverBlock p offset data fate →
    t.label.2 = .reply (.ok true)
  progressed : Progressed p content before during m

/-- A step that delivers nothing to the piece and keeps its entry. -/
theorem Progressed.kept {p : Nat} {content : Bytes} {l : Op × Answer}
    (h : Progressed p content before during m) (hrecord : Recorded (during ++ before) m p)
    (hfinished : m'.finished[p]? = m.finished[p]?)
    (hentry : m'.pendingPieces p = m.pendingPieces p)
    (hnot : ∀ offset data fate, l.1 ≠ .deliverBlock p offset data fate) :
    Progressed p content before (⟨m, l, m'⟩ :: during) m' := by
  have hdelivered : deliveredTo p (⟨m, l, m'⟩ :: during) = deliveredTo p during :=
    deliveredTo_of_not_delivery hnot
  rcases h with ⟨hunfinished, hreceived, hcount⟩ | ⟨hdone, hcount, hbuffer⟩
  · refine Or.inl ⟨hfinished.trans hunfinished, ?_, hdelivered ▸ hcount⟩
    rw [hdelivered, ← hreceived, List.cons_append]
    exact receivedSince_kept hrecord.none hentry
      fun offset data fate _ hlabel => absurd hlabel (hnot offset data fate)
  · refine Or.inr ⟨hfinished.trans hdone, hdelivered ▸ hcount, ?_⟩
    rw [List.cons_append, verifiedBuffer_of_same hfinished, hbuffer]

section Entry

variable {p len : Nat} {pending : PendingPiece}

/-- What the entry counts while the piece is not finished. -/
theorem counts_of_opened (hs : Shaped metadata m) (hrecord : Recorded (during ++ before) m p)
    (hlen : metadata.info.getPieceLength p = .ok len) (hunfinished : m.finished[p]? = some false)
    (hreceived : receivedSince p (during ++ before) = deliveredTo p during)
    (hopen : m.openPending p = .ok pending) :
    pending.data.length = len ∧ pending.totalBlocksNeeded = blockCount blockLen len ∧
      pending.blocksReceived = (deliveredTo p during).length := by
  have hentry := (hs.openPending hunfinished hopen).1
  have hdata : len = pending.data.length := Except.ok.inj (hlen.symm.trans hentry.length)
  refine ⟨hdata.symm, ?_, ?_⟩
  · rw [hentry.total, hdata, totalBlocks_eq_blockCount]
  · rw [(hrecord.opened hopen).counted, hreceived]

/-- The last block of a piece leaves the content in the buffer. -/
theorem content_of_isFinished {content data : Bytes} {ks : List Nat} {offset : Nat}
    (hs : Shaped metadata m) (hrecord : Recorded (during ++ before) m p)
    (hlen : metadata.info.getPieceLength p = .ok content.length)
    (hreceived : receivedSince p (during ++ before) = deliveredTo p during)
    (hblocks : WholeBlocks blockLen content ks (⟨offset, data⟩ :: deliveredTo p during))
    (ha : m.Accepts p offset data pending)
    (hcomplete : (pending.receive offset data).isFinished = true) :
    (deliveredTo p during).length + 1 = blockCount blockLen content.length ∧
      (pending.receive offset data).data = content := by
  obtain ⟨hdata, htotal, hcount⟩ :=
    counts_of_opened hs hrecord hlen ha.unfinished hreceived ha.opened
  have hall : (deliveredTo p during).length + 1 = blockCount blockLen content.length := by
    rw [← hcount, ← htotal]
    simpa [PendingPiece.isFinished, PendingPiece.receive] using hcomplete
  have hreplays := (hrecord.opened ha.opened).receive ha.fits
  have hdata' : (pending.receive offset data).data.length = content.length :=
    (length_overwrite ha.fits).trans hdata
  refine ⟨hall, ?_⟩
  rw [hreplays.buffer, hdata', hreceived]
  exact hblocks.assemble_eq blockLen_pos hall

end Entry

namespace Exchanged

variable {p : Nat} {content : Bytes} {j : Nat} {ks : List Nat}

/-- A step about another piece. -/
theorem elsewhere (h : Exchanged p content before during m j ks)
    (hrecord : Recorded (during ++ before) m p) {l : Op × Answer} (hstep : m.Step sha1 l m')
    (hnot : ¬ About p l) : Exchanged p content before (⟨m, l, m'⟩ :: during) m' j ks := by
  have hsame := hstep.elsewhere hnot
  have hdelivery : ∀ offset data fate, l.1 ≠ .deliverBlock p offset data fate :=
    fun offset data fate hlabel => hnot (Or.inl ⟨offset, data, fate, hlabel⟩)
  refine ⟨?_, h.inside, ?_, h.asked, hsame.next.trans h.next, ?_, ?_,
    h.progressed.kept hrecord hsame.finished hsame.entry hdelivery⟩
  · rw [handedOut_of_not_about hnot]
    exact h.handed
  · rw [deliveredTo_of_not_delivery hdelivery]
    exact h.blocks
  · exact fun o ho => h.pending o ((hsame.pending o).mp ho)
  · exact List.forall_mem_cons.mpr
      ⟨fun offset data fate hlabel => absurd hlabel (hdelivery offset data fate), h.replied⟩

/-- The block a request hands out is the next one of the piece. -/
theorem handsOut_eq (h : Exchanged p content before during m j ks) (hs : Shaped metadata m)
    (ha : Aligned metadata m) (hlen : metadata.info.getPieceLength p = .ok content.length)
    {block : Block} (hout : m.HandsOut p block m') :
    block = blockAt p content.length j ∧ j * blockLen < content.length := by
  obtain ⟨k, len, next, hblock⟩ := hout.block hs ha
  obtain rfl : content.length = len := Except.ok.inj (hlen.symm.trans hblock.length)
  obtain rfl := Option.some.inj (h.next.symm.trans hblock.start)
  have hin := hblock.inside
  have hafter := hblock.after
  have hle : j * blockLen ≤ k * blockLen := by omega
  have hjk : k = j := by
    refine Nat.le_antisymm (Nat.le_of_not_lt fun hlt => ?_)
      (Nat.le_of_mul_le_mul_right hle blockLen_pos)
    -- a block the search passed would be pending, but was not handed out
    obtain ⟨i, hi, heq⟩ := h.pending _ (hblock.passed j hlt (Nat.min_le_left _ _))
    have := Nat.eq_of_mul_eq_mul_right blockLen_pos heq
    omega
  subst hjk
  exact ⟨hblock.shape, hin⟩

/-- A request that hands out a block of the piece. -/
theorem handsOut (h : Exchanged p content before during m j ks) (hs : Shaped metadata m)
    (ha : Aligned metadata m) (hrecord : Recorded (during ++ before) m p)
    (hlen : metadata.info.getPieceLength p = .ok content.length) {block : Block}
    (hout : m.HandsOut p block m') (peerBitfield : Bytes) :
    Exchanged p content before
      (⟨m, (.requestBlock peerBitfield, .block (some block)), m'⟩ :: during) m' (j + 1) ks := by
  obtain ⟨rfl, hin⟩ := h.handsOut_eq hs ha hlen hout
  have hpiece : (blockAt p content.length j).pieceIndex = p := rfl
  have hdelivery : ∀ offset data fate,
      Op.requestBlock peerBitfield ≠ .deliverBlock p offset data fate := by simp
  obtain ⟨hlt, _⟩ := List.getElem?_eq_some_iff.mp h.next
  have htarget := hout.target
  have hnext' : m'.nextOffsets[p]? = some (min ((j + 1) * blockLen) content.length) := by
    obtain ⟨_, _, _, _, hset⟩ := hout.forward
    rw [hset, List.getElem?_set_self hlt, Nat.succ_mul]
    simp only [blockAt, Option.some.injEq]
    omega
  refine ⟨?_, ?_, ?_, fun k hk => Nat.lt_succ_of_lt (h.asked k hk), hnext', ?_, ?_, ?_⟩
  · rw [handedOut]
    simp only [hpiece, if_true]
    rw [List.reverse_cons, h.handed, List.range_succ, List.map_append, List.map_singleton]
  · intro k hk
    rcases Nat.lt_succ_iff_lt_or_eq.mp hk with hk | rfl
    · exact h.inside k hk
    · exact hin
  · rw [deliveredTo_of_not_delivery hdelivery]
    exact h.blocks
  · intro o ho
    rw [htarget] at ho
    rcases KeyedSet.has_insert.mp ho with ho | ho
    · obtain ⟨k, hk, rfl⟩ := h.pending o ho
      exact ⟨k, Nat.lt_succ_of_lt hk, rfl⟩
    · exact ⟨j, Nat.lt_succ_self j, (blockKey_inj.mp ho).2⟩
  · exact List.forall_mem_cons.mpr ⟨by simp, h.replied⟩
  · exact h.progressed.kept hrecord (by rw [htarget]) (by rw [htarget]) hdelivery

/-- A delivered block is one of those handed out, and new. -/
theorem delivered_block (h : Exchanged p content before during m j ks) {offset : Nat}
    {data : Bytes} {block : Block} (hblock : block ∈ handedOut p during)
    (hoffset : offset = block.offset)
    (hdata : data = slice content block.offset block.length)
    (hnew : ∀ f ∈ deliveredTo p during, f.offset ≠ block.offset) :
    ∃ k < j, k ∉ ks ∧ (⟨offset, data⟩ : Received) = wholeBlock blockLen content k := by
  rw [← List.mem_reverse, h.handed] at hblock
  obtain ⟨k, hk, rfl⟩ := List.mem_map.mp hblock
  refine ⟨k, List.mem_range.mp hk, ?_, ?_⟩
  · intro hmem
    refine hnew (wholeBlock blockLen content k) ?_ rfl
    rw [h.blocks.blocks]
    exact List.mem_map_of_mem hmem
  · rw [hoffset, hdata]
    simp only [blockAt, wholeBlock, slice_min]

/-- What a delivery of a new block of the piece does: the block is taken, and the piece
goes on waiting, or it was the last one and the buffer is the content. -/
theorem taken (h : Exchanged p content before during m j ks) (hs : Shaped metadata m)
    (hrecord : Recorded (during ++ before) m p)
    (hlen : metadata.info.getPieceLength p = .ok content.length)
    (hhash : metadata.info.pieceHashes[p]? = some (sha1 content)) {offset k : Nat}
    {data : Bytes} (hk : k < j) (hnew : k ∉ ks)
    (hblock : (⟨offset, data⟩ : Received) = wholeBlock blockLen content k) {fate : DiskFate}
    {r : Reply} (hd : m.Delivery sha1 p offset data fate r m') :
    (∃ pending, m.Accepts p offset data pending ∧ r = .ok true ∧
      m' = m.stored p offset data pending ∧
      (deliveredTo p during).length + 1 < blockCount blockLen content.length) ∨
    (∃ pending, m.Accepts p offset data pending ∧ r = .ok true ∧
      m'.finished[p]? = some true ∧ (pending.receive offset data).data = content ∧
      (deliveredTo p during).length + 1 = blockCount blockLen content.length) ∨
    (∃ e, r = .error e ∧ m.fileHandler.isOpen = false) := by
  have hmore : WholeBlocks blockLen content (k :: ks) (⟨offset, data⟩ :: deliveredTo p during) :=
    hblock ▸ h.blocks.cons (h.inside k hk) hnew
  have hle := hmore.length_le blockLen_pos
  rw [List.length_cons] at hle
  -- a new block is left, so the piece is not finished
  obtain ⟨hunfinished, hreceived, _⟩ : m.finished[p]? = some false ∧
      receivedSince p (during ++ before) = deliveredTo p during ∧
      (deliveredTo p during).length < blockCount blockLen content.length := by
    rcases h.progressed with hopen | ⟨_, hcount, _⟩
    · exact hopen
    · omega
  have hfits : offset + data.length ≤ content.length := hmore.fits _ List.mem_cons_self
  cases hd with
  | finished hdone => exact absurd (hunfinished.symm.trans hdone) (by simp)
  | outOfBounds _ hopen hout =>
    have hdata := (counts_of_opened hs hrecord hlen hunfinished hreceived hopen).1
    omega
  | @stored pending ha hwaits =>
    refine Or.inl ⟨pending, ha, rfl, rfl, ?_⟩
    obtain ⟨_, htotal, hcount⟩ :=
      counts_of_opened hs hrecord hlen hunfinished hreceived ha.opened
    have hne : pending.blocksReceived + 1 ≠ pending.totalBlocksNeeded := by
      simpa [PendingPiece.isFinished, PendingPiece.receive] using hwaits
    omega
  | discarded ha hcomplete hexpected hne _ =>
    obtain ⟨_, hcontent⟩ := content_of_isFinished hs hrecord hlen hreceived hmore ha hcomplete
    rw [hs.hashes, hhash] at hexpected
    exact absurd (Option.some.inj hexpected).symm (by rw [hcontent] at hne; exact hne)
  | threw _ hclosed => exact Or.inr (Or.inr ⟨_, rfl, hclosed⟩)
  | @completed pending hv _ hlt _ =>
    obtain ⟨hall, hcontent⟩ :=
      content_of_isFinished hs hrecord hlen hreceived hmore hv.toAccepts hv.complete
    refine Or.inr (Or.inl ⟨pending, hv.toAccepts, rfl, ?_, hcontent, hall⟩)
    exact List.getElem?_set_self hlt

/-- A delivery of a block that was handed out and not delivered yet. -/
theorem delivered (h : Exchanged p content before during m j ks) (hs : Shaped metadata m)
    (hrecord : Recorded (during ++ before) m p)
    (hlen : metadata.info.getPieceLength p = .ok content.length)
    (hhash : metadata.info.pieceHashes[p]? = some (sha1 content)) {offset : Nat}
    {data : Bytes} {fate : DiskFate} {r : Reply} (hd : m.Delivery sha1 p offset data fate r m')
    (hex : Exchanges p content during ⟨m, (.deliverBlock p offset data fate, .reply r), m'⟩) :
    ∃ ks', Exchanged p content before
      (⟨m, (.deliverBlock p offset data fate, .reply r), m'⟩ :: during) m' j ks' := by
  obtain ⟨block, hmem, hoffset, hdata, hfresh⟩ := hex.delivers offset data fate rfl
  obtain ⟨k, hk, hnew, hblock⟩ := h.delivered_block hmem hoffset hdata hfresh
  have hdelivered : deliveredTo p
      (⟨m, (.deliverBlock p offset data fate, .reply r), m'⟩ :: during) =
        ⟨offset, data⟩ :: deliveredTo p during := by
    simp [deliveredTo]
  have htaken := h.taken hs hrecord hlen hhash hk hnew hblock hd
  obtain rfl : r = .ok true := by
    rcases htaken with ⟨_, _, hr, _⟩ | ⟨_, _, hr, _⟩ | ⟨e, hr, _⟩
    · exact hr
    · exact hr
    · exact absurd (congrArg Answer.reply hr) (hex.writes e)
  obtain ⟨hnext, hpending⟩ := hd.accepted rfl
  refine ⟨k :: ks, ?_, h.inside, ?_, List.forall_mem_cons.mpr ⟨hk, h.asked⟩, hnext ▸ h.next,
    fun o ho => h.pending o (hpending _ ho), List.forall_mem_cons.mpr ⟨fun _ _ _ _ => rfl,
      h.replied⟩, ?_⟩
  · rw [handedOut]
    exact h.handed
  · rw [hdelivered, hblock]
    exact h.blocks.cons (h.inside k hk) hnew
  · rcases htaken with ⟨pending, ha, _, rfl, hcount⟩ | ⟨pending, ha, _, hdone, hcontent, hcount⟩ |
      ⟨e, hr, _⟩
    · refine Or.inl ⟨ha.unfinished, ?_, hdelivered ▸ hcount⟩
      rcases h.progressed with ⟨_, hreceived, _⟩ | ⟨hdone, _⟩
      · rw [hdelivered, List.cons_append, ← hreceived]
        refine receivedSince_of_accepts (?_ : _ = some (pending.receive offset data)) rfl ha
        simp
      · exact absurd (ha.unfinished.symm.trans hdone) (by simp)
    · refine Or.inr ⟨hdone, hdelivered ▸ hcount, ?_⟩
      rw [List.cons_append, verifiedBuffer, if_pos ⟨ha.unfinished, hdone⟩, ha.opened]
      simp only [hcontent]
    · cases hr

/-- Every step of an exchange keeps it. -/
theorem step (h : Exchanged p content before during m j ks) (hs : Shaped metadata m)
    (ha : Aligned metadata m) (hrecord : Recorded (during ++ before) m p)
    (hlen : metadata.info.getPieceLength p = .ok content.length)
    (hhash : metadata.info.pieceHashes[p]? = some (sha1 content)) {l : Op × Answer}
    (hstep : m.Step sha1 l m') (hex : Exchanges p content during ⟨m, l, m'⟩) :
    ∃ j' ks', Exchanged p content before (⟨m, l, m'⟩ :: during) m' j' ks' := by
  by_cases habout : About p l
  · cases hstep with
    | requested hr =>
      cases hr with
      | nothing => simp [About] at habout
      | @block i bit b _ _ _ _ hout =>
        obtain rfl : b.pieceIndex = p := by simpa [About] using habout
        have hout' := hout.key.1 ▸ hout
        exact ⟨_, _, h.handsOut hs ha hrecord hlen hout' _⟩
    | @delivered idx offset data fate _ _ hd =>
      obtain rfl : idx = p := by simpa [About] using habout
      obtain ⟨ks', hks'⟩ := h.delivered hs hrecord hlen hhash hd hex
      exact ⟨j, ks', hks'⟩
    | @returned block _ _ hr =>
      refine absurd ?_ (hex.returns block rfl)
      simpa [About] using habout
  · exact ⟨j, ks, h.elsewhere hrecord hstep habout⟩

end Exchanged

/-! ## Runs -/

variable {m₀ : PieceManager} {p : Nat} {content : Bytes}

/-- In a state in which nothing of the piece was asked for, the exchange begins. -/
theorem exchanged_start (hrun : (machine sha1 metadata).Run before m₀)
    (hunfinished : m₀.finished[p]? = some false) (hentry : m₀.pendingPieces p = none)
    (hpending : ∀ o, ¬ m₀.pendingBlocks.Has (blockKey p o)) (hnext : m₀.nextOffsets[p]? = some 0)
    (hcontent : 0 < content.length) : Exchanged p content before [] m₀ 0 [] where
  handed := rfl
  inside := fun k hk => absurd hk (Nat.not_lt_zero k)
  blocks := .nil blockLen content
  asked := by simp
  next := by simpa using hnext
  pending := fun o ho => absurd ho (hpending o)
  replied := by simp
  progressed := by
    refine Or.inl ⟨hunfinished, (recorded_of_run hrun p).none hentry, ?_⟩
    exact totalBlocks_pos hcontent

theorem exchanged_of_run (hrun₀ : (machine sha1 metadata).Run before m₀)
    (hstart : Exchanged p content before [] m₀ 0 [])
    (hlen : metadata.info.getPieceLength p = .ok content.length)
    (hhash : metadata.info.pieceHashes[p]? = some (sha1 content))
    (hrun : ((machine sha1 metadata).startingAt m₀).Run during m)
    (hex : Machine.Always (Exchanges p content) during) :
    ∃ j ks, Exchanged p content before during m j ks := by
  induction hrun with
  | start hs =>
    rw [show _ = m₀ from hs]
    exact ⟨0, [], hstart⟩
  | snoc hsofar hlast ih =>
    obtain ⟨j, ks, h⟩ := ih hex.tail
    have hall := hrun₀.append hsofar
    exact h.step (shaped_of_run hall) (aligned_of_run hall) (recorded_of_run hall p) hlen hhash
      (@machine_step sha1 metadata _ _ _ hlast) hex.head

/-- A block that was handed out and not delivered yet can be delivered: the call comes
back, and with a file that is open it returns true. -/
theorem Exchanged.delivers {j : Nat} {ks : List Nat}
    (h : Exchanged p content before during m j ks) (hs : Shaped metadata m)
    (hrecord : Recorded (during ++ before) m p) (hp : p < metadata.numPieces)
    (hlen : metadata.info.getPieceLength p = .ok content.length)
    (hhash : metadata.info.pieceHashes[p]? = some (sha1 content)) {block : Block}
    (hblock : block ∈ handedOut p during)
    (hnew : ∀ f ∈ deliveredTo p during, f.offset ≠ block.offset) (fate : DiskFate) :
    ∃ r m', m.deliverBlock sha1 p block.offset (slice content block.offset block.length) fate =
        .ok (r, m') ∧ (m.fileHandler.isOpen = true → r = .ok true) := by
  obtain ⟨r, m', hcall⟩ := deliverBlock_total hs hp hlen sha1 block.offset
    (slice content block.offset block.length) fate
  refine ⟨r, m', hcall, fun hopen => ?_⟩
  obtain ⟨k, hk, hk', heq⟩ := h.delivered_block hblock rfl rfl hnew
  rcases h.taken hs hrecord hlen hhash hk hk' heq (deliverBlock_delivery hcall) with
    ⟨_, _, hr, _⟩ | ⟨_, _, hr, _⟩ | ⟨_, _, hclosed⟩
  · exact hr
  · exact hr
  · exact absurd (hopen.symm.trans hclosed) (by simp)

/-- **Reassembly.**  A piece is followed from a reachable state in which it is
unfinished, has no entry and no pending block and is searched from its start, through any
run in which it is only delivered blocks that were handed out, each at most once and with
its slice of a content that has the announced hash, in any order and with anything else
happening to other pieces.  The blocks handed out are distinct and tile the content from
its start; every delivery to the piece returns true; the piece is finished exactly when
the delivered blocks cover the content, and was verified as that content; and a block
that is still to come is taken when it comes. -/
theorem reassembly (h1 : 1 ≤ metadata.info.pieceLength) (h2 : metadata.info.pieceLength < 2 ^ 32)
    (hrun₀ : (machine sha1 metadata).Run before m₀)
    (hunfinished : m₀.finished[p]? = some false) (hentry : m₀.pendingPieces p = none)
    (hpending : ∀ o, ¬ m₀.pendingBlocks.Has (blockKey p o)) (hnext : m₀.nextOffsets[p]? = some 0)
    (hlen : metadata.info.getPieceLength p = .ok content.length)
    (hhash : metadata.info.pieceHashes[p]? = some (sha1 content))
    (hrun : ((machine sha1 metadata).startingAt m₀).Run during m)
    (hex : Machine.Always (Exchanges p content) during) :
    (∃ stop ≤ content.length, Tiles 0
      ((handedOut p during).reverse.map fun block => (block.offset, block.length)) stop) ∧
    (handedOut p during).Nodup ∧
    (∀ t ∈ during, ∀ offset data fate, t.label.1 = .deliverBlock p offset data fate →
      t.label.2 = .reply (.ok true)) ∧
    (m.finished[p]? = some true ↔ Covers (deliveredTo p during) content.length) ∧
    (m.finished[p]? = some true → verifiedBuffer p (during ++ before) = some content) ∧
    ∀ block ∈ handedOut p during, (∀ f ∈ deliveredTo p during, f.offset ≠ block.offset) →
      ∀ fate, ∃ r m',
        m.deliverBlock sha1 p block.offset (slice content block.offset block.length) fate =
          .ok (r, m') ∧ (m.fileHandler.isOpen = true → r = .ok true) := by
  obtain ⟨len, hlen', hpos⟩ := TorrentMetadata.Info.getPieceLength_pos h1 h2 p
  obtain rfl : content.length = len := Except.ok.inj (hlen.symm.trans hlen')
  obtain ⟨j, ks, h⟩ := exchanged_of_run hrun₀
    (exchanged_start hrun₀ hunfinished hentry hpending hnext hpos) hlen hhash hrun hex
  have hall := hrun₀.append hrun
  have hs := shaped_of_run hall
  have hp : p < metadata.numPieces := (List.getElem?_eq_some_iff.mp hhash).1
  refine ⟨⟨min (j * blockLen) content.length, Nat.min_le_right _ _, ?_⟩, ?_, h.replied, ?_, ?_,
    fun block hblock hnew => h.delivers hs (recorded_of_run hall p) hp hlen hhash hblock hnew⟩
  · rw [h.handed, List.map_map]
    exact tiles_blocks blockLen_pos h.inside
  · rw [← List.nodup_reverse, h.handed]
    refine List.nodup_range.map fun a b hab => ?_
    exact Nat.eq_of_mul_eq_mul_right blockLen_pos (congrArg Block.offset hab)
  · rw [h.blocks.covers_iff blockLen_pos]
    rcases h.progressed with ⟨hopen, _, hcount⟩ | ⟨hdone, hcount, _⟩
    · rw [hopen]
      simp only [Option.some.injEq, Bool.false_eq_true, false_iff]
      omega
    · exact iff_of_true hdone hcount
  · intro hdone
    rcases h.progressed with ⟨hopen, _⟩ | ⟨_, _, hbuffer⟩
    · exact absurd (hopen.symm.trans hdone) (by simp)
    · exact hbuffer

/-- Both blocks of a piece are asked for, and the second one comes first. -/
theorem reassembly_secondFirst :
    ∃ during m, ((machine onesSevenSha1 twoBlocks).startingAt
        (new twoBlocks emptyFile true)).Run during m ∧
      (deliveredTo 0 during).map Fragment.offset = [0, 16384] ∧
      m.finished = [true] ∧ verifiedBuffer 0 (during ++ []) = some onesSeven := by
  have hexchanges : Machine.Always (Exchanges 0 onesSeven)
      (firstDelivery :: secondDelivery :: twoRequests) := by
    have hother : ∀ t ∈ twoRequests, ∀ older, Exchanges 0 onesSeven older t := by
      refine List.forall_mem_cons.mpr ⟨fun older => ⟨by simp, by simp, by simp⟩,
        List.forall_mem_singleton.mpr fun older => ⟨by simp, by simp, by simp⟩⟩
    refine Machine.always_cons.mpr ⟨⟨?_, by simp [firstDelivery], by simp [firstDelivery]⟩,
      Machine.always_cons.mpr ⟨⟨?_, by simp [secondDelivery], by simp [secondDelivery]⟩,
        fun t older hsuffix => hother t (hsuffix.subset List.mem_cons_self) older⟩⟩
    · intro offset data fate hlabel
      obtain ⟨_, rfl, rfl, rfl⟩ := Op.deliverBlock.inj hlabel
      refine ⟨⟨0, 0, 16384⟩, by decide, rfl, slice_onesSeven_first.symm, ?_⟩
      exact List.forall_mem_singleton.mpr (by decide)
    · intro offset data fate hlabel
      obtain ⟨_, rfl, rfl, rfl⟩ := Op.deliverBlock.inj hlabel
      exact ⟨⟨0, 16384, 1⟩, by decide, rfl, slice_onesSeven_second.symm, by decide⟩
  have hlen : twoBlocks.info.getPieceLength 0 = .ok onesSeven.length := by
    rw [onesSeven_length]
    rfl
  have hhash : twoBlocks.info.pieceHashes[0]? = some (onesSevenSha1 onesSeven) :=
    congrArg some (if_pos rfl).symm
  obtain ⟨_, _, _, _, hverified, _⟩ := reassembly (by decide) (by decide)
    (.start ⟨emptyFile, true, rfl⟩) rfl rfl (fun o => KeyedSet.has_empty _) rfl hlen hhash
    firstDelivery_run hexchanges
  exact ⟨_, _, firstDelivery_run, rfl, rfl, hverified rfl⟩

end PieceManager

end BitTorrentClient
