/-
  App/PieceManager/Completion.lean --- the bookkeeping of finished pieces.

  That a piece is finished is recorded four times: in `_finished`, in the bit of
  the piece, in the counter and in the absence of an entry.  `Bookkeeping` says
  that the four records agree; one branch of `deliverBlock` updates them all, so
  one lemma about that branch carries the invariant.
-/
import BitTorrentClient.App.PieceManager.Geometry

set_option autoImplicit false

namespace BitTorrentClient

open Library

namespace PieceManager

/-! ## Bits of the bitfield -/

theorem bitSet_eq_testBit (byte : UInt8) {bit : Nat} (h : bit < 8) :
    bitSet byte bit = byte.toNat.testBit bit := by
  have hbit : bit.toUInt8.toNat = bit := by
    simp
    omega
  have hne : ∀ x : UInt8, (x != 0) = (x.toNat != 0) := by
    intro x
    rw [Bool.eq_iff_iff]
    simp [← UInt8.toNat_inj]
  rw [bitSet, hne]
  simp only [UInt8.toNat_and, UInt8.toNat_shiftRight, hbit, Nat.mod_eq_of_lt h]
  rw [Nat.testBit, Nat.and_comm]
  simp

theorem pieceMask_toNat (i : Nat) : (pieceMask i).toNat = 2 ^ (7 - i % 8) := by
  have hlt : 7 - i % 8 < 8 := by omega
  have hpow : 2 ^ (7 - i % 8) < 2 ^ 8 := Nat.pow_lt_pow_right (by omega) hlt
  have hbit : (7 - i % 8).toUInt8.toNat = 7 - i % 8 := by
    simp
    omega
  simp only [pieceMask, UInt8.toNat_shiftLeft, hbit, Nat.mod_eq_of_lt hlt, Nat.shiftLeft_eq]
  simpa using Nat.mod_eq_of_lt hpow

/-- Setting the bit of a piece sets that bit of its byte and no other. -/
theorem bitSet_or_pieceMask (byte : UInt8) (i : Nat) {bit : Nat} (h : bit < 8) :
    bitSet (byte ||| pieceMask i) bit = (bitSet byte bit || decide (bit = 7 - i % 8)) := by
  rw [bitSet_eq_testBit _ h, bitSet_eq_testBit _ h, UInt8.toNat_or, Nat.testBit_or,
    pieceMask_toNat, Nat.testBit_two_pow]
  simp [eq_comm]

/-- The bit of the piece `i`, most significant bit first; bits past the end are
clear. -/
def pieceBit (bitfield : Bytes) (i : Nat) : Bool :=
  match bitfield[i / 8]? with
  | some byte => bitSet byte (7 - i % 8)
  | none => false

/-- The same bit, as `_hasPiece` reads it. -/
theorem hasPiece_eq {m : PieceManager} {i : Nat} (h : i / 8 < m.bitfield.length) :
    m.hasPiece i = .ok (pieceBit m.bitfield i) := by
  simp [hasPiece, readAt, pieceBit, List.getElem?_eq_getElem h, bind, Except.bind, pure,
    Except.pure]

theorem pieceBit_modify {bitfield : Bytes} {idx : Nat} (h : idx / 8 < bitfield.length)
    (i : Nat) :
    pieceBit (bitfield.modify (idx / 8) fun byte => byte ||| pieceMask idx) i =
      (pieceBit bitfield i || decide (i = idx)) := by
  unfold pieceBit
  rw [List.getElem?_modify]
  by_cases hbyte : idx / 8 = i / 8
  · rw [← hbyte, List.getElem?_eq_getElem h]
    simp only [if_true, Option.map_eq_map, Option.map_some]
    rw [bitSet_or_pieceMask _ _ (by omega)]
    have hiff : (7 - i % 8 = 7 - idx % 8) ↔ i = idx := by omega
    simp [hiff]
  · have hne : i ≠ idx := fun heq => hbyte (by rw [heq])
    cases bitfield[i / 8]? <;> simp [hbyte, hne]

/-! ## Counting finished pieces -/

theorem count_set_true {finished : List Bool} {idx : Nat} (h : finished[idx]? = some false) :
    (finished.set idx true).count true = finished.count true + 1 := by
  obtain ⟨hlt, hget⟩ := List.getElem?_eq_some_iff.mp h
  rw [List.count_set hlt, hget]
  simp

theorem count_lt_of_unfinished {finished : List Bool} {idx : Nat}
    (h : finished[idx]? = some false) : finished.count true < finished.length := by
  have hle := List.count_le_length (a := true) (l := finished.set idx true)
  rw [count_set_true h, List.length_set] at hle
  omega

/-- All pieces of the torrent are finished. -/
def AllFinished (metadata : TorrentMetadata) (m : PieceManager) : Prop :=
  ∀ i < metadata.numPieces, m.finished[i]? = some true

/-! ## The invariant -/

/-- The four records of a finished piece agree, and the tracker and the completion
condition were told accordingly. -/
structure Bookkeeping (metadata : TorrentMetadata) (m : PieceManager) : Prop where
  bits : ∀ i, pieceBit m.bitfield i = true ↔ m.finished[i]? = some true
  count : m.piecesFinished = m.finished.count true
  entries : ∀ i, m.finished[i]? = some true → m.pendingPieces i = none
  tracker : ∀ tracker, m.progressTracker = some tracker →
    tracker.finishedPieces = m.piecesFinished
  notified : 0 < metadata.numPieces →
    m.completionNotified = if metadata.numPieces ≤ m.piecesFinished then 1 else 0

variable {sha1 : Bytes → Sha1Hash} {metadata : TorrentMetadata} {m m' : PieceManager}

theorem bookkeeping_new (disk : Disk) (tracked : Bool) :
    Bookkeeping metadata (new metadata disk tracked) where
  bits := by
    intro i
    have hzero : ∀ bit, bit < 8 → bitSet 0 bit = false := by decide
    have hclear : pieceBit (new metadata disk tracked).bitfield i = false := by
      simp only [pieceBit, new, List.getElem?_replicate]
      by_cases hin : i / 8 < (metadata.numPieces + 7) / 8
      · simpa [hin] using hzero _ (by omega)
      · simp [hin]
    rw [hclear]
    simp [new, List.getElem?_replicate]
  count := by simp [new, List.count_replicate]
  entries := by simp [new]
  tracker := by
    intro tracker h
    cases tracked with
    | true => exact (Option.some.inj h) ▸ rfl
    | false => exact absurd h (by simp [new])
  notified := by
    intro hpos
    simp [new]
    omega

/-- The counter counts all pieces exactly when all are finished. -/
theorem Bookkeeping.allFinished_iff (h : Bookkeeping metadata m) (hs : Shaped metadata m) :
    AllFinished metadata m ↔ metadata.numPieces ≤ m.piecesFinished := by
  rw [h.count, ← hs.finished_length]
  constructor
  · intro hall
    have hcount : m.finished.count true = m.finished.length := by
      rw [List.count_eq_length]
      intro b hb
      obtain ⟨i, hi, rfl⟩ := List.getElem_of_mem hb
      have := hall i (hs.finished_length ▸ hi)
      rw [List.getElem?_eq_getElem hi] at this
      exact (Option.some.inj this).symm
    exact Nat.le_of_eq hcount.symm
  · intro hle i hi
    have hcount : m.finished.count true = m.finished.length :=
      Nat.le_antisymm List.count_le_length hle
    have hi' : i < m.finished.length := hs.finished_length ▸ hi
    rw [List.getElem?_eq_getElem hi',
      ← List.count_eq_length.mp hcount _ (List.getElem_mem hi')]

theorem Bookkeeping.isComplete_iff (h : Bookkeeping metadata m) (hs : Shaped metadata m) :
    m.isComplete = true ↔ AllFinished metadata m := by
  rw [h.allFinished_iff hs, isComplete, decide_eq_true_eq, hs.metadata_eq]

/-- Changing the entry of an unfinished piece keeps the books. -/
theorem Bookkeeping.setPending (h : Bookkeeping metadata m) {idx : Nat}
    (hidx : m.finished[idx]? = some false) (entry : Option PendingPiece) :
    Bookkeeping metadata (m.setPending idx entry) :=
  { h with
    entries := by
      intro i hi
      have hne : i ≠ idx := by
        rintro rfl
        simp [hidx] at hi
      simpa [hne] using h.entries i hi }

/-- The branch that finishes a piece updates every record. -/
theorem Bookkeeping.markFinished (h : Bookkeeping metadata m) (hs : Shaped metadata m)
    {idx : Nat} (hidx : m.finished[idx]? = some false) (hbyte : idx / 8 < m.bitfield.length) :
    Bookkeeping metadata (m.markFinished idx) where
  bits := by
    intro i
    obtain ⟨hlt, _⟩ := List.getElem?_eq_some_iff.mp hidx
    rw [markFinished_bitfield, pieceBit_modify hbyte, markFinished_finished, List.getElem?_set]
    by_cases heq : i = idx
    · subst heq
      simp [hlt]
    · simp [heq, Ne.symm heq, h.bits i]
  count := by
    rw [markFinished_piecesFinished, markFinished_finished, count_set_true hidx, h.count]
  entries := by
    intro i hi
    by_cases heq : i = idx
    · simp [heq]
    · rw [markFinished_finished, List.getElem?_set_ne (Ne.symm heq)] at hi
      simpa [heq] using h.entries i hi
  tracker := by
    intro tracker ht
    obtain ⟨before, hbefore, rfl⟩ := Option.map_eq_some_iff.mp ht
    simp [ProgressTracker.notifyProgress, h.tracker before hbefore]
  notified := by
    intro hpos
    have hlt : m.piecesFinished < metadata.numPieces := by
      rw [h.count, ← hs.finished_length]
      exact count_lt_of_unfinished hidx
    have hzero : m.completionNotified = 0 := by
      rw [h.notified hpos, if_neg (by omega)]
    rw [markFinished_completionNotified, markFinished_piecesFinished, hs.metadata_eq, hzero]

theorem Bookkeeping.delivery (h : Bookkeeping metadata m) (hs : Shaped metadata m)
    {idx offset : Nat} {data : Bytes} {fate : DiskFate} {r : Reply}
    (hd : m.Delivery sha1 idx offset data fate r m') : Bookkeeping metadata m' := by
  have hstored : ∀ pending, m.Accepts idx offset data pending →
      Bookkeeping metadata (m.stored idx offset data pending) := fun pending ha =>
    { h.setPending ha.unfinished (some (pending.receive offset data)) with }
  cases hd with
  | finished _ => exact h
  | outOfBounds hidx _ _ => exact h.setPending hidx _
  | stored ha _ => exact hstored _ ha
  | discarded ha _ _ _ _ =>
    have hset : Bookkeeping metadata ((m.stored idx offset data _).setPending idx none) :=
      (hstored _ ha).setPending ha.unfinished none
    exact { hset with }
  | threw hv _ => exact hstored _ hv.toAccepts
  | @completed pending hv _ _ hbyte =>
    let written := (m.stored idx offset data pending).withFile (m.fileHandler.store idx data fate)
    have hshape : Shaped metadata written :=
      { hs.stored hv.toAccepts with pieceSize := by simpa [written] using hs.pieceSize }
    have hbooks : Bookkeeping metadata written := { hstored _ hv.toAccepts with }
    exact hbooks.markFinished hshape hv.unfinished hbyte

theorem Bookkeeping.step (h : Bookkeeping metadata m) (hs : Shaped metadata m)
    {l : Op × Answer} (hstep : m.Step sha1 l m') : Bookkeeping metadata m' := by
  cases hstep with
  | requested hr =>
    cases hr with
    | nothing => exact h
    | block _ _ _ hout => rw [hout.target]; exact { h with }
  | delivered hd => exact h.delivery hs hd
  | returned hr =>
    cases hr with
    | unknown _ => exact h
    | freed _ _ => exact { h with }

/-- The books are kept in every reachable state. -/
theorem bookkeeping_of_run {history : List (Transition PieceManager (Op × Answer))}
    (hrun : (machine sha1 metadata).Run history m) : Bookkeeping metadata m := by
  have hboth : Shaped metadata m ∧ Bookkeeping metadata m := by
    refine hrun.invariant (I := fun s => Shaped metadata s ∧ Bookkeeping metadata s) ?_
      fun s l s' hI hs => ⟨hI.1.step (machine_step hs), hI.2.step hI.1 (machine_step hs)⟩
    rintro s ⟨disk, tracked, rfl⟩
    exact ⟨shaped_new disk tracked, bookkeeping_new disk tracked⟩
  exact hboth.2

/-! ## The moment a piece is finished -/

/-- The recorded step finished the piece `i`: it was a delivery that completed the
buffer of the piece, and the buffer had the announced hash. -/
def Finishes (sha1 : Bytes → Sha1Hash) (metadata : TorrentMetadata) (i : Nat)
    (t : Transition PieceManager (Op × Answer)) : Prop :=
  t.source.finished[i]? = some false ∧ t.target.finished[i]? = some true ∧
    ∃ offset data fate pending,
      t.label.1 = .deliverBlock i offset data fate ∧
      t.source.openPending i = .ok pending ∧
      metadata.info.getPieceLength i = .ok (pending.receive offset data).data.length ∧
      metadata.info.pieceHashes[i]? = some (sha1 (pending.receive offset data).data)

/-- A step that changes a finished flag finishes that piece, and no flag is ever
cleared. -/
theorem Step.finished_change (hs : Shaped metadata m) {l : Op × Answer}
    (hstep : m.Step sha1 l m') {i : Nat} :
    m'.finished[i]? = m.finished[i]? ∨ Finishes sha1 metadata i ⟨m, l, m'⟩ := by
  cases hstep with
  | requested hr =>
    cases hr with
    | nothing => exact Or.inl rfl
    | block _ _ _ hout => exact Or.inl (by rw [hout.target])
  | returned hr => cases hr <;> exact Or.inl rfl
  | @delivered idx offset data fate r m' hd =>
    cases hd with
    | @completed pending hv _ hlt _ =>
      by_cases heq : i = idx
      · subst heq
        have hentry := (hs.openPending hv.unfinished hv.opened).1.receive hv.fits
        refine Or.inr ⟨hv.unfinished, ?_, offset, data, fate, pending, rfl, hv.opened,
          hentry.length, ?_⟩
        · simp [hlt]
        · rw [← hs.hashes]
          exact hv.hash
      · refine Or.inl ?_
        rw [markFinished_finished, List.getElem?_set_ne (Ne.symm heq)]
        rfl
    | _ => exact Or.inl rfl

theorem Step.finished_mono (hs : Shaped metadata m) {l : Op × Answer}
    (hstep : m.Step sha1 l m') {i : Nat} (h : m.finished[i]? = some true) :
    m'.finished[i]? = some true := by
  rcases hstep.finished_change hs with heq | hfin
  · rw [heq, h]
  · exact hfin.2.1

/-- The completion condition is notified by the step that finishes the last piece
and by no other. -/
theorem notified_change (hs : Shaped metadata m) (h : Bookkeeping metadata m)
    {l : Op × Answer} (hstep : m.Step sha1 l m') (hpos : 0 < metadata.numPieces) :
    (¬ AllFinished metadata m ∧ AllFinished metadata m' ∧
        m'.completionNotified = m.completionNotified + 1) ∨
      ((AllFinished metadata m ↔ AllFinished metadata m') ∧
        m'.completionNotified = m.completionNotified) := by
  have hs' := hs.step hstep
  have h' := h.step hs hstep
  have hmono : AllFinished metadata m → AllFinished metadata m' :=
    fun hall i hi => hstep.finished_mono hs (hall i hi)
  by_cases hbefore : AllFinished metadata m
  · refine Or.inr ⟨iff_of_true hbefore (hmono hbefore), ?_⟩
    rw [h.notified hpos, h'.notified hpos, if_pos ((h.allFinished_iff hs).mp hbefore),
      if_pos ((h'.allFinished_iff hs').mp (hmono hbefore))]
  · by_cases hafter : AllFinished metadata m'
    · refine Or.inl ⟨hbefore, hafter, ?_⟩
      rw [h.notified hpos, h'.notified hpos,
        if_neg fun hle => hbefore ((h.allFinished_iff hs).mpr hle),
        if_pos ((h'.allFinished_iff hs').mp hafter)]
    · refine Or.inr ⟨iff_of_false hbefore hafter, ?_⟩
      rw [h.notified hpos, h'.notified hpos,
        if_neg fun hle => hbefore ((h.allFinished_iff hs).mpr hle),
        if_neg fun hle => hafter ((h'.allFinished_iff hs').mpr hle)]

/-- A piece that was finished at some point of a run is finished at its end. -/
theorem finished_mono_of_run {history : List (Transition PieceManager (Op × Answer))}
    (hrun : (machine sha1 metadata).Run history m)
    {t : Transition PieceManager (Op × Answer)} (ht : t ∈ history) {i : Nat}
    (hi : t.source.finished[i]? = some true) : m.finished[i]? = some true := by
  induction hrun with
  | start _ => simp at ht
  | snoc hsofar hlast ih =>
    have hshape := shaped_of_run hsofar
    rcases List.mem_cons.mp ht with rfl | ht
    · exact (machine_step hlast).finished_mono hshape hi
    · exact (machine_step hlast).finished_mono hshape (ih ht)

/-- Every finished piece was finished by a step of the run. -/
theorem finishes_of_run {history : List (Transition PieceManager (Op × Answer))}
    (hrun : (machine sha1 metadata).Run history m) {i : Nat}
    (hi : m.finished[i]? = some true) : ∃ t ∈ history, Finishes sha1 metadata i t := by
  induction hrun with
  | start hinit =>
    obtain ⟨disk, tracked, rfl⟩ := hinit
    simp [new, List.getElem?_replicate] at hi
  | snoc hsofar hlast ih =>
    rcases (machine_step hlast).finished_change (shaped_of_run hsofar) (i := i) with heq | hfin
    · rw [heq] at hi
      obtain ⟨t, ht, hfin⟩ := ih hi
      exact ⟨t, List.mem_cons_of_mem _ ht, hfin⟩
    · exact ⟨_, List.mem_cons_self, hfin⟩

/-- The bit `requestBlock` reads, by the arithmetic it uses, is the bit of the piece
it asks for. -/
theorem bitSet_eq_pieceBit {bitfield : Bytes} {i bit : Nat} {byte : UInt8}
    (hbyte : bitfield[i]? = some byte) (hbit : bit < 8) :
    bitSet byte bit = pieceBit bitfield (i * 8 + (7 - bit)) := by
  have hdiv : (i * 8 + (7 - bit)) / 8 = i := by omega
  have hmod : 7 - (i * 8 + (7 - bit)) % 8 = bit := by omega
  rw [pieceBit, hdiv, hbyte, hmod]

/-- **Completion bookkeeping.**  In every reachable state the bit of a piece, as
`requestBlock` reads it too, is set exactly when the piece is finished and no
other bit is; the counter counts
the finished pieces; a finished piece has no entry, stays finished, and was
finished by a step that found the announced hash; `isComplete` says that all
pieces are finished; and the tracker and the completion condition were told
exactly what happened. -/
theorem completion_bookkeeping {history : List (Transition PieceManager (Op × Answer))}
    (hrun : (machine sha1 metadata).Run history m) :
    (∀ i < metadata.numPieces, pieceBit m.bitfield i = true ↔ m.finished[i]? = some true) ∧
    (∀ i, metadata.numPieces ≤ i → pieceBit m.bitfield i = false) ∧
    (∀ i byte bit, m.bitfield[i]? = some byte → bit < 8 →
      (bitSet byte bit = true ↔ m.finished[i * 8 + (7 - bit)]? = some true)) ∧
    m.piecesFinished = m.finished.count true ∧
    (∀ i, m.finished[i]? = some true → m.pendingPieces i = none) ∧
    (∀ t ∈ history, ∀ i : Nat,
      t.source.finished[i]? = some true → m.finished[i]? = some true) ∧
    (∀ i, m.finished[i]? = some true → ∃ t ∈ history, Finishes sha1 metadata i t) ∧
    (m.isComplete = true ↔ AllFinished metadata m) ∧
    (0 < metadata.numPieces →
      (∀ tracker, m.progressTracker = some tracker →
        tracker.finishedPieces = m.piecesFinished) ∧
      m.completionNotified ≤ 1 ∧
      ∀ t ∈ history,
        (¬ AllFinished metadata t.source ∧ AllFinished metadata t.target ∧
          t.target.completionNotified = t.source.completionNotified + 1) ∨
        ((AllFinished metadata t.source ↔ AllFinished metadata t.target) ∧
          t.target.completionNotified = t.source.completionNotified)) := by
  have hs := shaped_of_run hrun
  have h := bookkeeping_of_run hrun
  refine ⟨fun i _ => h.bits i, ?_, ?_, h.count, h.entries,
    fun t ht i hi => finished_mono_of_run hrun ht hi,
    fun i hi => finishes_of_run hrun hi, h.isComplete_iff hs, ?_⟩
  · intro i hi
    rw [← Bool.not_eq_true, h.bits i, List.getElem?_eq_none (hs.finished_length ▸ hi)]
    simp
  · intro i byte bit hbyte hbit
    rw [bitSet_eq_pieceBit hbyte hbit]
    exact h.bits _
  · intro hpos
    refine ⟨h.tracker, ?_, ?_⟩
    · rw [h.notified hpos]
      split <;> omega
    · intro t ht
      obtain ⟨hstep, earlier, hearlier, _⟩ := hrun.of_mem ht
      exact notified_change (shaped_of_run hearlier) (bookkeeping_of_run hearlier)
        (machine_step hstep) hpos

/-- Two pieces are asked for and come in the other order. -/
theorem completion_bookkeeping_twoPieces :
    ∃ history m, (machine sampleSha1 zeroSevenSeven).Run history m ∧
      m.isComplete = true ∧ m.piecesFinished = 2 ∧ m.completionNotified = 1 ∧
      pieceBit m.bitfield 0 = true ∧ pieceBit m.bitfield 1 = true ∧
      ∀ i, m.finished[i]? = some true →
        ∃ t ∈ history, Finishes sampleSha1 zeroSevenSeven i t := by
  have hcalls : (runOps sampleSha1 (new zeroSevenSeven emptyFile true)
      [.requestBlock [192], .requestBlock [192], .deliverBlock 1 0 [7] .written,
        .deliverBlock 0 0 [0, 7] .written] []).toOption.any (fun r =>
      decide (r.2.finished = [true, true] ∧ r.2.isComplete = true ∧ r.2.piecesFinished = 2 ∧
        r.2.completionNotified = 1)) = true := by
    decide +kernel
  obtain ⟨history, m, hrun, hchecks⟩ := exists_run hcalls
  obtain ⟨hdone, hcomplete, hcount, hnotified⟩ := of_decide_eq_true hchecks
  obtain ⟨hbits, _, _, _, _, _, hfinishes, _⟩ := completion_bookkeeping hrun
  exact ⟨history, m, hrun, hcomplete, hcount, hnotified,
    (hbits 0 (by decide)).mpr (by rw [hdone]; rfl), (hbits 1 (by decide)).mpr (by rw [hdone]; rfl),
    hfinishes⟩

end PieceManager

end BitTorrentClient
