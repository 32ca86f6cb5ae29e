/-
  App/Swarm/Disk.lean --- what a swarm leaves on the disk.

  The results on the file (`FileBytes`, `OnDisk`) are about a manager and its calls.
  Among honest peers the calls are known: a block is a slice of the announced content,
  and the block that finishes a piece is the last one that comes.  So the file is known,
  too: the content itself when a piece is one block, and otherwise the last block of
  every piece, at the place of the first.
-/
import BitTorrentClient.App.PieceManager.FileBytes
import BitTorrentClient.App.Swarm.Download

set_option autoImplicit false

namespace BitTorrentClient

open Library

namespace PieceManager

variable {sha1 : Bytes → Sha1Hash} {metadata : TorrentMetadata} {contents : Nat → Bytes}
  {m : PieceManager} {history : List (Transition PieceManager (Op × Answer))}

/-- What was delivered is a block of the content. -/
theorem Served.delivered_slice (h : Served metadata contents history m) {p : Nat}
    (hp : p < metadata.numPieces) {f : Received} (hf : f ∈ deliveredTo p history) :
    ∃ k, k * blockLen < (contents p).length ∧
      f = ⟨k * blockLen, slice (contents p) (k * blockLen) blockLen⟩ := by
  obtain ⟨j, ks, hexchanged⟩ := h.exchanged p hp
  have hmem := hf
  rw [hexchanged.blocks.blocks] at hmem
  obtain ⟨k, hk, rfl⟩ := List.mem_map.mp hmem
  exact ⟨k, hexchanged.inside k (hexchanged.asked k hk), rfl⟩

/-- A piece that is no longer than a block has no other block. -/
theorem first_of_single {k len : Nat} (hinside : k * blockLen < len) (hsingle : len ≤ blockLen) :
    k = 0 := by
  by_contra hne
  have hge := Nat.mul_le_mul_right blockLen (Nat.pos_of_ne_zero hne)
  omega

/-- When pieces are no longer than a block, the block that finishes one is all of it. -/
theorem writesWhole_of_run (hannounced : Announced sha1 metadata contents)
    (hsingle : metadata.info.pieceLength ≤ blockLen)
    (hrun : (machine sha1 metadata).Run history m)
    (hserves : Machine.Guarded (Serves contents) history) :
    Machine.Guarded (WritesWhole sha1) history := by
  induction hrun with
  | start _ => exact fun _ ht => absurd ht List.not_mem_nil
  | @snoc history m m' l hsofar hlast ih =>
    refine List.forall_mem_cons.mpr ⟨?_, ih hserves.tail⟩
    intro idx offset data fate pending hlabel hv
    have hs := shaped_of_run hsofar
    have hserved := served_of_run hannounced hsofar hserves.tail
    have hidx : idx < metadata.numPieces :=
      hs.finished_length ▸ (List.getElem?_eq_some_iff.mp hv.unfinished).1
    have hlen := (hs.openPending hv.unfinished hv.opened).1.length
    obtain ⟨hpending, hdata⟩ :=
      (hserves _ List.mem_cons_self).delivers idx offset data fate hlabel
    have hcontent := Except.ok.inj ((hannounced.length idx hidx).symm.trans hlen)
    have hpiece := (TorrentMetadata.Info.getPieceLength_le hlen).1
    obtain ⟨j, ks, hexchanged⟩ := hserved.exchanged idx hidx
    obtain ⟨k, hk, rfl, _⟩ := hexchanged.pending_block hpending
    obtain rfl : k = 0 := first_of_single (hexchanged.inside k hk) (by omega)
    refine ⟨?_, ?_⟩
    · have hsize := congrArg List.length hdata
      rw [length_slice] at hsize
      omega
    · have hnext := Nat.mul_le_mul_right metadata.info.pieceLength hidx
      have hone := hannounced.nonempty
      have hfits := hannounced.fits
      rw [Nat.succ_mul] at hnext
      rw [hs.pieceSize]
      omega

end PieceManager

namespace Swarm

variable {ι : Type} [DecidableEq ι] {sha1 : Bytes → Sha1Hash} {metadata : TorrentMetadata}
  {peerId : Bytes} {contents : Nat → Bytes} {w : Swarm ι} {disk : Disk} {tracked : Bool}
  {history : List (Transition (Swarm ι) (ι × Event))}

/-- A run from a file is a run. -/
theorem run_of_startingAt
    (hrun : ((machine sha1 metadata peerId).startingAt (new metadata disk tracked)).Run
      history w) : (machine sha1 metadata peerId).Run history w := by
  have hall := Machine.Run.append (M := machine sha1 metadata peerId)
    (.start ⟨disk, tracked, rfl⟩) hrun
  rwa [List.append_nil] at hall

/-- The manager's part of a run from a file. -/
theorem manager_run_of_startingAt
    (hrun : ((machine sha1 metadata peerId).startingAt (new metadata disk tracked)).Run
      history w) :
    ((PieceManager.machine sha1 metadata).startingAt
      (PieceManager.new metadata disk tracked)).Run (managerHistory history) w.manager := by
  refine Machine.Run.project (M := (machine sha1 metadata peerId).startingAt _) ?_ ?_ hrun
  · exact refines_manager
  · intro w hw
    rw [show w = new metadata disk tracked from hw]
    rfl

/-- **What a download leaves in the file.**  Take any run of any number of sessions from
any file, in which peers are honest and the stream stays good.  Where a finished piece
belongs, the file starts with the block of the piece that came last, and goes on with what
it held before. -/
theorem file_lastBlock (hannounced : PieceManager.Announced sha1 metadata contents)
    (hrun : ((machine sha1 metadata peerId).startingAt (new metadata disk tracked)).Run
      history w)
    (hhonest : Machine.Guarded (fun w l => w.honest contents l = true) history)
    (hgood : w.manager.fileHandler.good = true) {p : Nat}
    (hdone : w.manager.finished[p]? = some true) :
    ∃ k older, k * blockLen < (contents p).length ∧
      PieceManager.deliveredTo p (managerHistory history) =
        ⟨k * blockLen, slice (contents p) (k * blockLen) blockLen⟩ :: older ∧
      ∀ r < metadata.info.pieceLength,
        w.manager.fileHandler.content.getD (p * metadata.info.pieceLength + r) 0 =
          if r < (slice (contents p) (k * blockLen) blockLen).length then
            (contents p).getD (k * blockLen + r) 0
          else (disk.existing.getD []).getD (p * metadata.info.pieceLength + r) 0 := by
  have hsofar := run_of_startingAt hrun
  have hkept := kept_of_run hannounced hsofar hhonest
  have hs := PieceManager.shaped_of_run (manager_run hsofar)
  have hp : p < metadata.numPieces :=
    hs.finished_length ▸ (List.getElem?_eq_some_iff.mp hdone).1
  obtain ⟨f, older, hlast, hreached⟩ :=
    PieceManager.endsPieces_of_run hannounced (manager_run hsofar) hkept.serves hgood p hdone
  obtain ⟨k, hk, rfl⟩ := (hkept.served hannounced hsofar).delivered_slice hp
    (hlast ▸ List.mem_cons_self)
  refine ⟨k, older, hk, hlast, fun r hr => ?_⟩
  have hreplayed := PieceManager.replayed_of_run hannounced.fits (manager_run_of_startingAt hrun)
  have hdiv : (p * metadata.info.pieceLength + r) / metadata.info.pieceLength = p := by
    rw [Nat.mul_comm, Nat.mul_add_div hannounced.nonempty, Nat.div_eq_of_lt hr, Nat.add_zero]
  have hmod : (p * metadata.info.pieceLength + r) % metadata.info.pieceLength = r := by
    rw [Nat.mul_comm, Nat.mul_add_mod, Nat.mod_eq_of_lt hr]
  rw [hreplayed.bytes, PieceManager.fileByte, hdiv, hmod, hreached]
  dsimp only
  split
  · rename_i hin
    rw [length_slice] at hin
    rw [List.getD_eq_getElem?_getD, getElem?_slice, if_pos (by omega), List.getD_eq_getElem?_getD]
  · rfl

/-- Steps taken from a state on. -/
theorem fireAll_startingAt {actions : List (ι × Action)} {w₀ w w' : Swarm ι}
    {history history' : List (Transition (Swarm ι) (ι × Event))}
    (hrun : ((machine sha1 metadata peerId).startingAt w₀).Run history w)
    (h : w.fireAll sha1 (sessionConfig metadata peerId) actions history = some (history', w')) :
    ((machine sha1 metadata peerId).startingAt w₀).Run history' w' := by
  induction actions generalizing w history with
  | nil =>
    cases h
    exact hrun
  | cons first rest ih =>
    obtain ⟨i, action⟩ := first
    obtain ⟨⟨event, w₁⟩, hfire, h⟩ := Option.bind_eq_some_iff.mp h
    have hstep : (machine sha1 metadata peerId).step w (i, event) w₁ := ⟨action, hfire⟩
    exact ih (hrun.snoc hstep) h

/-- Two pieces in the file, and a byte that was there before. -/
theorem file_lastBlock_twoPieces :
    ∃ history, ∃ w : Swarm Bool,
      ((machine PieceManager.sampleSha1 PieceManager.zeroSevenSeven samplePeerId).startingAt
        (new PieceManager.zeroSevenSeven ⟨some [1, 2, 3, 4], false⟩ true)).Run history w ∧
      w.manager.isComplete = true ∧ w.manager.fileHandler.content.getD 1 0 = 7 ∧
      w.manager.fileHandler.content.getD 2 0 = 7 ∧ w.manager.fileHandler.content.getD 3 0 = 4 := by
  have hfire : (fireAll PieceManager.sampleSha1
      (sessionConfig PieceManager.zeroSevenSeven samplePeerId)
      (new PieceManager.zeroSevenSeven ⟨some [1, 2, 3, 4], false⟩ true) download []).any (fun r =>
        r.1.all (fun t => t.source.honest PieceManager.zeroSevenPieces t.label) &&
        decide (r.2.manager.isComplete = true ∧ r.2.manager.finished = [true, true] ∧
          r.2.manager.fileHandler.good = true)) = true := by
    decide +kernel
  obtain ⟨⟨history, w⟩, hfired, hchecks⟩ := (Option.any_eq_true _ _).mp hfire
  have hrun := fireAll_startingAt (.start rfl) hfired
  simp only [Bool.and_eq_true, List.all_eq_true, decide_eq_true_eq] at hchecks
  obtain ⟨hsteps, hcomplete, hdone, hgood⟩ := hchecks
  obtain ⟨k₀, _, hk₀, _, hbytes₀⟩ := file_lastBlock announced_zeroSevenSeven hrun hsteps hgood
    (p := 0) (by rw [hdone]; rfl)
  obtain ⟨k₁, _, hk₁, _, hbytes₁⟩ := file_lastBlock announced_zeroSevenSeven hrun hsteps hgood
    (p := 1) (by rw [hdone]; rfl)
  obtain rfl := PieceManager.first_of_single hk₀ (by decide)
  obtain rfl := PieceManager.first_of_single hk₁ (by decide)
  exact ⟨history, w, hrun, hcomplete, hbytes₀ 1 (by decide), hbytes₁ 0 (by decide),
    hbytes₁ 1 (by decide)⟩

/-- A finished piece that is a single block is in the file. -/
theorem region_of_finished (hannounced : PieceManager.Announced sha1 metadata contents)
    (hsingle : metadata.info.pieceLength ≤ blockLen)
    (hrun : (machine sha1 metadata peerId).Run history w)
    (hhonest : Machine.Guarded (fun w l => w.honest contents l = true) history)
    (hgood : w.manager.fileHandler.good = true) {p : Nat}
    (hdone : w.manager.finished[p]? = some true) :
    PieceManager.region metadata w.manager p (contents p).length = contents p := by
  have hsofar := manager_run hrun
  have hkept := kept_of_run hannounced hrun hhonest
  have hs := PieceManager.shaped_of_run hsofar
  have hp : p < metadata.numPieces :=
    hs.finished_length ▸ (List.getElem?_eq_some_iff.mp hdone).1
  have hwhole := PieceManager.writesWhole_of_run hannounced hsingle hsofar hkept.serves
  obtain ⟨buffer, hbuffer, _, _, hregion⟩ :=
    PieceManager.onDisk_of_run hsofar hwhole hgood p hdone
  have hverified := (hkept.served hannounced hrun).verified hp hdone
  obtain rfl := Option.some.inj (hbuffer.symm.trans hverified)
  exact hregion

/-- **Torrents whose pieces are single blocks.**  Among honest peers, and as long as the
stream stays good, every finished piece of such a torrent is in the file as it was
announced; so a complete download is the announced content. -/
theorem file_complete (hannounced : PieceManager.Announced sha1 metadata contents)
    (hsingle : metadata.info.pieceLength ≤ blockLen)
    (hrun : (machine sha1 metadata peerId).Run history w)
    (hhonest : Machine.Guarded (fun w l => w.honest contents l = true) history)
    (hgood : w.manager.fileHandler.good = true) :
    (∀ p, w.manager.finished[p]? = some true →
      PieceManager.region metadata w.manager p (contents p).length = contents p) ∧
    (w.manager.isComplete = true → ∀ p < metadata.numPieces,
      PieceManager.region metadata w.manager p (contents p).length = contents p) := by
  have hall : ∀ p, w.manager.finished[p]? = some true →
      PieceManager.region metadata w.manager p (contents p).length = contents p :=
    fun p hdone => region_of_finished hannounced hsingle hrun hhonest hgood hdone
  refine ⟨hall, fun hcomplete p hp => hall p ?_⟩
  exact (PieceManager.isComplete_iff_of_run (manager_run hrun)).mp hcomplete p hp

theorem file_complete_twoPieces :
    ∃ history, ∃ w : Swarm Bool,
      (machine PieceManager.sampleSha1 PieceManager.zeroSevenSeven samplePeerId).Run history w ∧
      w.manager.isComplete = true ∧
      PieceManager.region PieceManager.zeroSevenSeven w.manager 0 2 = [0, 7] ∧
      PieceManager.region PieceManager.zeroSevenSeven w.manager 1 1 = [7] := by
  obtain ⟨history, w, hrun, hsteps, hcomplete, hgood⟩ := exists_download
  obtain ⟨_, hall⟩ :=
    file_complete announced_zeroSevenSeven (by decide) hrun hsteps hgood
  exact ⟨history, w, hrun, hcomplete, hall hcomplete 0 (by decide), hall hcomplete 1 (by decide)⟩

end Swarm

end BitTorrentClient
