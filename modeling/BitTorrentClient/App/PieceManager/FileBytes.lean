/-
  App/PieceManager/FileBytes.lean --- every byte of the output file.

  A piece is written once, when it is finished, and what is written is the block that
  finished it, as much of it as the device takes.  So the file is the one that was there
  before, with the first bytes of each finished piece replaced: `fileByte` says by what.
  When the manager is served well that block is the one that came last, and a piece of
  more than one block is never in the file as a whole unless it was there before.
-/
import BitTorrentClient.App.PieceManager.OnDisk
import BitTorrentClient.App.PieceManager.Service

set_option autoImplicit false

namespace BitTorrentClient

open Library

namespace PieceManager

variable {sha1 : Bytes → Sha1Hash} {metadata : TorrentMetadata} {contents : Nat → Bytes}
  {m m' : PieceManager} {history : List (Transition PieceManager (Op × Answer))} {initial : Bytes}

/-- What the device took when the piece `i` was marked finished. -/
def reached (i : Nat) : List (Transition PieceManager (Op × Answer)) → Option Bytes
  | [] => none
  | t :: older =>
      if t.source.finished[i]? = some false ∧ t.target.finished[i]? = some true then
        match t.label.1 with
        | .deliverBlock idx _ data fate => some (t.source.fileHandler.transferred idx data fate)
        | _ => none
      else reached i older

/-- The byte at a position of the file, where the file held `initial` before. -/
def fileByte (metadata : TorrentMetadata) (initial : Bytes)
    (history : List (Transition PieceManager (Op × Answer))) (x : Nat) : UInt8 :=
  match reached (x / metadata.info.pieceLength) history with
  | some data =>
      if x % metadata.info.pieceLength < data.length then
        data.getD (x % metadata.info.pieceLength) 0
      else initial.getD x 0
  | none => initial.getD x 0

/-- The file is what the history says, and only finished pieces were written. -/
structure Replayed (metadata : TorrentMetadata) (initial : Bytes)
    (history : List (Transition PieceManager (Op × Answer))) (m : PieceManager) : Prop where
  bytes : ∀ x, m.fileHandler.content.getD x 0 = fileByte metadata initial history x
  unfinished : ∀ i, m.finished[i]? = some false → reached i history = none
  finished : ∀ i, m.finished[i]? = some true → ∃ data, reached i history = some data

/-! ## One step -/

/-- A step leaves the file and the finished pieces alone, or finishes a piece and writes. -/
theorem Step.file_cases {l : Op × Answer} (h : m.Step sha1 l m') :
    (m'.fileHandler.content = m.fileHandler.content ∧ m'.finished = m.finished) ∨
    ∃ idx offset data fate pending, l.1 = .deliverBlock idx offset data fate ∧
      m.Verifies sha1 idx offset data pending ∧ idx < m.finished.length ∧
      m'.fileHandler = m.fileHandler.store idx data fate ∧
      m'.finished = m.finished.set idx true := by
  cases h with
  | requested hr =>
    cases hr with
    | nothing => exact Or.inl ⟨rfl, rfl⟩
    | block _ _ _ hout => exact Or.inl (by rw [hout.target]; exact ⟨rfl, rfl⟩)
  | returned hr => cases hr <;> exact Or.inl ⟨rfl, rfl⟩
  | delivered hd =>
    cases hd with
    | completed hv _ hlt _ => exact Or.inr ⟨_, _, _, _, _, rfl, hv, hlt, rfl, rfl⟩
    | _ => exact Or.inl ⟨rfl, rfl⟩

theorem reached_of_same {l : Op × Answer} {i : Nat} (h : m'.finished[i]? = m.finished[i]?) :
    reached i (⟨m, l, m'⟩ :: history) = reached i history := by
  rw [reached, if_neg]
  rw [h]
  intro hflip
  exact absurd (hflip.1.symm.trans hflip.2) (by simp)

theorem reached_of_finish {idx offset : Nat} {data : Bytes} {fate : DiskFate} {answer : Answer}
    (hbefore : m.finished[idx]? = some false) (hafter : m'.finished[idx]? = some true) :
    reached idx (⟨m, (.deliverBlock idx offset data fate, answer), m'⟩ :: history) =
      some (m.fileHandler.transferred idx data fate) :=
  if_pos ⟨hbefore, hafter⟩

/-- A position lies in the first bytes of a piece, or not. -/
theorem inside_piece_iff {pieceLength idx x n : Nat} (hn : n ≤ pieceLength) :
    (idx * pieceLength ≤ x ∧ x < idx * pieceLength + n) ↔
      x / pieceLength = idx ∧ x % pieceLength < n := by
  rcases Nat.eq_zero_or_pos pieceLength with rfl | hpos
  · omega
  have hx := Nat.div_add_mod x pieceLength
  have hr := Nat.mod_lt x hpos
  constructor
  · intro hin
    have hq : x / pieceLength = idx := by
      rw [Nat.div_eq_iff hpos]
      omega
    subst hq
    rw [Nat.mul_comm] at hx
    exact ⟨rfl, by omega⟩
  · intro hin
    obtain ⟨rfl, hlt⟩ := hin
    rw [Nat.mul_comm] at hx
    omega

/-- The position of a piece does not wrap around. -/
theorem Shaped.position (hs : Shaped metadata m)
    (hfits : metadata.numPieces * metadata.info.pieceLength ≤ 2 ^ 64) {idx : Nat}
    (hidx : idx < metadata.numPieces) :
    m.fileHandler.position idx = idx * metadata.info.pieceLength := by
  have hnext := Nat.mul_le_mul_right metadata.info.pieceLength hidx
  rw [Nat.succ_mul] at hnext
  rw [FileHandler.position, hs.pieceSize]
  refine u64_of_lt ?_
  rcases Nat.eq_zero_or_pos metadata.info.pieceLength with hzero | hpos
  · rw [hzero, Nat.mul_zero]
    decide
  · omega

/-- Finishing a piece. -/
theorem Replayed.finish (h : Replayed metadata initial history m) (hs : Shaped metadata m)
    (hfits : metadata.numPieces * metadata.info.pieceLength ≤ 2 ^ 64) {idx offset : Nat}
    {data : Bytes} {fate : DiskFate} {pending : PendingPiece} {answer : Answer}
    (hv : m.Verifies sha1 idx offset data pending) (hlt : idx < m.finished.length)
    (hfile : m'.fileHandler = m.fileHandler.store idx data fate)
    (hfinished : m'.finished = m.finished.set idx true) :
    Replayed metadata initial (⟨m, (.deliverBlock idx offset data fate, answer), m'⟩ :: history)
      m' := by
  have hentry := (hs.openPending hv.unfinished hv.opened).1
  have hsize : data.length ≤ metadata.info.pieceLength := by
    have hpiece := (TorrentMetadata.Info.getPieceLength_le hentry.length).1
    have hblock := hv.fits
    omega
  have hcount : (m.fileHandler.transferred idx data fate).length ≤ metadata.info.pieceLength := by
    obtain ⟨n, htake⟩ := m.fileHandler.exists_transferred_eq_take idx data fate
    rw [htake, List.length_take]
    omega
  have hidx : idx < metadata.numPieces := hs.finished_length ▸ hlt
  have hnow : m'.finished[idx]? = some true := by
    rw [hfinished, List.getElem?_set_self hlt]
  have hnew : reached idx (⟨m, (.deliverBlock idx offset data fate, answer), m'⟩ :: history) =
      some (m.fileHandler.transferred idx data fate) := reached_of_finish hv.unfinished hnow
  have hother : ∀ i, i ≠ idx → m'.finished[i]? = m.finished[i]? := by
    intro i hne
    rw [hfinished, List.getElem?_set_ne (Ne.symm hne)]
  have hplace := hs.position hfits hidx
  refine ⟨fun x => ?_, fun i hi => ?_, fun i hi => ?_⟩
  · rw [hfile, FileHandler.store_content, getD_overwrite, hplace, fileByte]
    by_cases hpiece : x / metadata.info.pieceLength = idx
    · rw [hpiece, hnew]
      have hold := h.bytes x
      rw [fileByte, hpiece, h.unfinished idx hv.unfinished] at hold
      simp only [inside_piece_iff hcount, hpiece, true_and]
      split
      · congr 1
        have hx := Nat.div_add_mod x metadata.info.pieceLength
        rw [hpiece, Nat.mul_comm] at hx
        omega
      · exact hold
    · rw [if_neg fun hin => hpiece ((inside_piece_iff hcount).mp hin).1,
        reached_of_same (hother _ hpiece)]
      exact h.bytes x
  · by_cases heq : i = idx
    · subst heq
      exact absurd (hi.symm.trans hnow) (by simp)
    · rw [reached_of_same (hother i heq)]
      exact h.unfinished i ((hother i heq).symm.trans hi)
  · by_cases heq : i = idx
    · subst heq
      exact ⟨_, hnew⟩
    · rw [reached_of_same (hother i heq)]
      exact h.finished i ((hother i heq).symm.trans hi)

theorem Replayed.step (h : Replayed metadata initial history m) (hs : Shaped metadata m)
    (hfits : metadata.numPieces * metadata.info.pieceLength ≤ 2 ^ 64) {l : Op × Answer}
    (hstep : m.Step sha1 l m') : Replayed metadata initial (⟨m, l, m'⟩ :: history) m' := by
  obtain ⟨op, answer⟩ := l
  rcases hstep.file_cases with ⟨hcontent, hfinished⟩ |
    ⟨idx, offset, data, fate, pending, hlabel, hv, hlt, hfile, hfinished⟩
  · have hsame : ∀ i, reached i (⟨m, (op, answer), m'⟩ :: history) = reached i history :=
      fun i => reached_of_same (by rw [hfinished])
    refine ⟨fun x => ?_, fun i hi => ?_, fun i hi => ?_⟩
    · rw [hcontent, fileByte, hsame]
      exact h.bytes x
    · rw [hsame]
      exact h.unfinished i (hfinished ▸ hi)
    · rw [hsame]
      exact h.finished i (hfinished ▸ hi)
  · replace hlabel : op = .deliverBlock idx offset data fate := hlabel
    subst hlabel
    exact h.finish hs hfits hv hlt hfile hfinished

/-! ## Runs -/

/-- A run from a file is a run. -/
theorem replayed_of_run (hfits : metadata.numPieces * metadata.info.pieceLength ≤ 2 ^ 64)
    {disk : Disk} {tracked : Bool}
    (hrun : ((machine sha1 metadata).startingAt (new metadata disk tracked)).Run history m) :
    Replayed metadata (disk.existing.getD []) history m := by
  induction hrun with
  | start hinit =>
    obtain rfl := hinit
    refine ⟨fun _ => rfl, fun _ _ => rfl, fun i hi => ?_⟩
    simp [new, List.getElem?_replicate] at hi
  | @snoc history m m' l hsofar hlast ih =>
    have hstep : (machine sha1 metadata).step m l m' := hlast
    exact ih.step (shaped_of_run (run_of_startingAt hsofar)) hfits (machine_step hstep)

/-- Behind the pieces the file stays as it was. -/
theorem drop_content_of_run (hfits : metadata.numPieces * metadata.info.pieceLength ≤ 2 ^ 64)
    {total : Nat} (htotal : ∀ i < metadata.numPieces, ∀ len,
      metadata.info.getPieceLength i = .ok len → i * metadata.info.pieceLength + len ≤ total)
    {disk : Disk} {tracked : Bool}
    (hrun : ((machine sha1 metadata).startingAt (new metadata disk tracked)).Run history m) :
    m.fileHandler.content.drop total = (disk.existing.getD []).drop total := by
  induction hrun with
  | start hinit =>
    obtain rfl := hinit
    rfl
  | @snoc history m m' l hsofar hlast ih =>
    have hstep : (machine sha1 metadata).step m l m' := hlast
    have hs := shaped_of_run (run_of_startingAt hsofar)
    rcases (machine_step hstep).file_cases with ⟨hcontent, _⟩ |
      ⟨idx, _, data, fate, pending, _, hv, hlt, hfile, _⟩
    · rw [hcontent, ih]
    · have hidx : idx < metadata.numPieces := hs.finished_length ▸ hlt
      have hend := htotal idx hidx _ (hs.openPending hv.unfinished hv.opened).1.length
      have hblock := hv.fits
      obtain ⟨n, htake⟩ := m.fileHandler.exists_transferred_eq_take idx data fate
      rw [hfile, FileHandler.store_content, hs.position hfits hidx,
        drop_overwrite_of_le 0 _ _ (by rw [htake, List.length_take]; omega), ih]

/-- **Every byte of the file.**  Take any run of calls, in any order, over any blocks, with
any failures of the device, for a torrent whose pieces all lie below the position 2^64, so
that the position of no piece wraps.  Past the end counting as zero, the file then holds at
every position the byte it held before the download, except for the first bytes of each
finished piece: there it holds what the device took of the one block that finished the
piece. -/
theorem file_bytes (hfits : metadata.numPieces * metadata.info.pieceLength ≤ 2 ^ 64)
    {disk : Disk} {tracked : Bool}
    (hrun : ((machine sha1 metadata).startingAt (new metadata disk tracked)).Run history m) :
    (∀ x, m.fileHandler.content.getD x 0 =
      fileByte metadata (disk.existing.getD []) history x) ∧
    ∀ i < metadata.numPieces,
      (m.finished[i]? = some true ↔ ∃ data, reached i history = some data) := by
  have h := replayed_of_run hfits hrun
  have hs := shaped_of_run (run_of_startingAt hrun)
  refine ⟨h.bytes, fun i hi => ⟨h.finished i, fun hreached => ?_⟩⟩
  obtain ⟨data, hdata⟩ := hreached
  have hin : i < m.finished.length := hs.finished_length ▸ hi
  cases hflag : m.finished[i] with
  | true => rw [List.getElem?_eq_getElem hin, hflag]
  | false =>
    have hnone := h.unfinished i (by rw [List.getElem?_eq_getElem hin, hflag])
    exact absurd (hdata.symm.trans hnone) (Option.some_ne_none _)

/-- The byte 7 finishes the piece of the bytes 0 and 7, and is all that is written. -/
theorem file_bytes_zeroSeven :
    ∃ history m, ((machine sampleSha1 (onePiece zeroSevenDigest 2)).startingAt
        (new (onePiece zeroSevenDigest 2) ⟨some [1, 2, 3], false⟩ true)).Run history m ∧
      m.fileHandler.content.getD 0 0 = 7 ∧ m.fileHandler.content.getD 1 0 = 2 := by
  have hrun := runOps_startingAt sampleSha1 (onePiece zeroSevenDigest 2)
    [.deliverBlock 0 1 [7] .written]
    (m := new (onePiece zeroSevenDigest 2) ⟨some [1, 2, 3], false⟩ true) rfl
  obtain ⟨hbytes, _⟩ := file_bytes (by decide) hrun
  exact ⟨_, _, hrun, hbytes 0, hbytes 1⟩

/-! ## When the manager is served well -/

/-- The block that finishes a piece is the last one that comes. -/
def EndsPieces (history : List (Transition PieceManager (Op × Answer))) (m : PieceManager) : Prop :=
  ∀ p, m.finished[p]? = some true → ∃ f older, deliveredTo p history = f :: older ∧
    reached p history = some f.elems

/-- A step that finishes nothing, and whose delivery, if it is one, is taken. -/
theorem EndsPieces.frame (h : EndsPieces history m) {l : Op × Answer}
    (hfinished : m'.finished = m.finished)
    (htaken : ∀ idx offset data fate, l.1 = .deliverBlock idx offset data fate →
      m.finished[idx]? = some false) : EndsPieces (⟨m, l, m'⟩ :: history) m' := by
  intro p hp
  rw [hfinished] at hp
  obtain ⟨f, older, hlast, hreached⟩ := h p hp
  refine ⟨f, older, ?_, ?_⟩
  · rw [deliveredTo_of_not_delivery, hlast]
    intro offset data fate hlabel
    exact absurd ((htaken p offset data fate hlabel).symm.trans hp) (by simp)
  · rw [reached_of_same (by rw [hfinished]), hreached]

theorem EndsPieces.step (h : EndsPieces history m) {l : Op × Answer} (hstep : m.Step sha1 l m')
    (hgood : m'.fileHandler.good = true)
    (htaken : ∀ idx offset data fate, l.1 = .deliverBlock idx offset data fate →
      m.finished[idx]? = some false) : EndsPieces (⟨m, l, m'⟩ :: history) m' := by
  obtain ⟨op, answer⟩ := l
  rcases hstep.file_cases with ⟨_, hfinished⟩ |
    ⟨idx, offset, data, fate, pending, hlabel, hv, hlt, hfile, hfinished⟩
  · exact h.frame hfinished htaken
  · replace hlabel : op = .deliverBlock idx offset data fate := hlabel
    subst hlabel
    intro p hp
    by_cases heq : p = idx
    · subst heq
      refine ⟨⟨offset, data⟩, deliveredTo p history, if_pos rfl, ?_⟩
      rw [reached_of_finish hv.unfinished hp]
      exact congrArg some (FileHandler.transferred_of_good (hfile ▸ hgood))
    · have hsame : m'.finished[p]? = m.finished[p]? := by
        rw [hfinished, List.getElem?_set_ne (Ne.symm heq)]
      obtain ⟨f, older, hlast, hreached⟩ := h p (hsame.symm.trans hp)
      refine ⟨f, older, ?_, ?_⟩
      · rw [deliveredTo_delivery, if_neg (Ne.symm heq), hlast]
      · rw [reached_of_same hsame, hreached]

theorem endsPieces_of_run (hannounced : Announced sha1 metadata contents)
    (hrun : (machine sha1 metadata).Run history m)
    (hserves : Machine.Guarded (Serves contents) history) (hgood : m.fileHandler.good = true) :
    EndsPieces history m := by
  induction hrun with
  | start hinit =>
    obtain ⟨disk, tracked, rfl⟩ := hinit
    intro p hp
    simp [new, List.getElem?_replicate] at hp
  | @snoc history m m' l hsofar hlast ih =>
    have hstep := machine_step hlast
    have hserved := served_of_run hannounced hsofar hserves.tail
    have hs := shaped_of_run hsofar
    refine (ih hserves.tail (hstep.good_of hgood)).step hstep hgood ?_
    intro idx offset data fate hlabel
    obtain ⟨op, answer⟩ := l
    replace hlabel : op = .deliverBlock idx offset data fate := hlabel
    subst hlabel
    cases hstep with
    | delivered hd =>
      have hidx : idx < metadata.numPieces := hs.finished_length ▸ hd.index_lt
      obtain ⟨_, pending, haccepts⟩ := Serves.taken hserved hannounced hs
        (fun p => recorded_of_run hsofar p) (hserves _ List.mem_cons_self) hd hidx
      exact haccepts.unfinished

end PieceManager

end BitTorrentClient
