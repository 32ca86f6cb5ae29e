/-
  App/Program/Output.lean --- what the program leaves behind.

  Where pieces are single blocks the file holds them all when the program comes to its
  end (`Disk`), and nothing behind the last of them was ever written (`FileBytes`).  The
  file is never made shorter, so what a longer file held there is still in it.
-/
import BitTorrentClient.App.Program.Ending
import BitTorrentClient.App.Swarm.Disk

set_option autoImplicit false

namespace BitTorrentClient

open Library

namespace PieceManager

variable {sha1 : Bytes → Sha1Hash} {metadata : TorrentMetadata} {data : Bytes}

/-- The content that is announced when a file is cut into pieces. -/
def piecesOf (metadata : TorrentMetadata) (data : Bytes) (p : Nat) : Bytes :=
  slice data (p * metadata.info.pieceLength) metadata.info.pieceLength

/-- No piece reaches behind the file that was cut. -/
theorem Announced.piece_end_le (h : Announced sha1 metadata (piecesOf metadata data)) {p : Nat}
    (hp : p < metadata.numPieces) {len : Nat} (hlen : metadata.info.getPieceLength p = .ok len) :
    p * metadata.info.pieceLength + len ≤ data.length := by
  have hpos := h.content_pos hp
  have hsame := Except.ok.inj ((h.length p hp).symm.trans hlen)
  rw [piecesOf, length_slice] at hpos hsame
  omega

end PieceManager

namespace Swarm

variable {ι : Type} [DecidableEq ι] {sha1 : Bytes → Sha1Hash} {metadata : TorrentMetadata}
  {peerId data : Bytes} {w : Swarm ι} {disk : Disk} {tracked : Bool}
  {history : List (Transition (Swarm ι) (ι × Event))}

/-- A complete download of single blocks, as a file. -/
theorem content_of_complete
    (hannounced : PieceManager.Announced sha1 metadata (PieceManager.piecesOf metadata data))
    (hsingle : metadata.info.pieceLength ≤ blockLen)
    (hcovered : data.length ≤ metadata.numPieces * metadata.info.pieceLength)
    (hrun : ((machine sha1 metadata peerId).startingAt (new metadata disk tracked)).Run history w)
    (hhonest : Machine.Guarded
      (fun w l => w.honest (PieceManager.piecesOf metadata data) l = true) history)
    (hgood : w.manager.fileHandler.good = true) (hcomplete : w.manager.isComplete = true) :
    w.manager.fileHandler.content = data ++ (disk.existing.getD []).drop data.length := by
  have hsofar := run_of_startingAt hrun
  have hall := (PieceManager.isComplete_iff_of_run (manager_run hsofar)).mp hcomplete
  have hbegins : w.manager.fileHandler.content.take data.length = data := by
    refine take_eq_of_slices hannounced.nonempty fun p hp => ?_
    have hpiece : p < metadata.numPieces :=
      Nat.lt_of_mul_lt_mul_right (Nat.lt_of_lt_of_le hp hcovered)
    exact region_of_finished hannounced hsingle hsofar hhonest hgood (hall p hpiece)
  have hbehind : w.manager.fileHandler.content.drop data.length =
      (disk.existing.getD []).drop data.length :=
    PieceManager.drop_content_of_run hannounced.fits
      (fun p hp len hlen => hannounced.piece_end_le hp hlen) (manager_run_of_startingAt hrun)
  rw [← List.take_append_drop data.length w.manager.fileHandler.content, hbegins, hbehind]

end Swarm

namespace Program

variable {sha1 : Bytes → Sha1Hash} {launch : Launch} {disk : Disk} {tracked : Bool} {data : Bytes}
  {history : List (Transition (Program (Fin launch.peers.length))
    (Label (Fin launch.peers.length)))} {p : Program (Fin launch.peers.length)}

/-- The sessions start with the file that was there. -/
theorem swarm_run_startingAt (hrun : (machine sha1 launch disk tracked).Run history p) :
    ((Swarm.machine sha1 launch.metadata launch.peerId).startingAt
      (Swarm.new launch.metadata disk tracked)).Run (swarmHistory history) p.swarm := by
  refine Machine.Run.project (N := (Swarm.machine sha1 launch.metadata launch.peerId).startingAt _)
    refines_swarm ?_ hrun
  rintro p rfl
  rfl

/-- **What the program leaves behind.**  Take any run of the program, in any interleaving, in
which peers are honest, no thread was refused and the stream stays good, for a torrent
whose pieces are single blocks of some data.  When the program has come to its end the file
is that data, followed by what a longer file held behind it before. -/
theorem content_of_terminated
    (hannounced : PieceManager.Announced sha1 launch.metadata
      (PieceManager.piecesOf launch.metadata data))
    (hsingle : launch.metadata.info.pieceLength ≤ blockLen)
    (hcovered : data.length ≤ launch.metadata.numPieces * launch.metadata.info.pieceLength)
    (hrun : (machine sha1 launch disk tracked).Run history p)
    (hhonest : Machine.Guarded
      (fun w l => w.honest (PieceManager.piecesOf launch.metadata data) l = true)
      (swarmHistory history))
    (hgranted : ¬ Refused history) (hgood : p.swarm.manager.fileHandler.good = true)
    (hmain : p.main = .terminated) :
    p.swarm.manager.fileHandler.content = data ++ (disk.existing.getD []).drop data.length := by
  have hall := ((ending_of_run hrun).2 hmain).resolve_right hgranted
  have hcomplete :=
    (PieceManager.isComplete_iff_of_run (Swarm.manager_run (swarm_run hrun))).mpr hall
  exact Swarm.content_of_complete hannounced hsingle hcovered (swarm_run_startingAt hrun) hhonest
    hgood hcomplete

theorem announced_piecesOf :
    PieceManager.Announced sampleSha1 sampleTorrent (PieceManager.piecesOf sampleTorrent [7]) where
  nonempty := by decide
  small := by decide
  few := by decide
  length := by decide
  hash := by decide

/-- One byte is downloaded into a file of three. -/
theorem content_of_terminated_oneBlock :
    ∃ history, ∃ p : Program (Fin 1),
      (machine sampleSha1 (sampleLaunch [samplePeer]) ⟨some [1, 2, 3], false⟩ true).Run
        history p ∧
      p.main = .terminated ∧ p.swarm.manager.fileHandler.content = [7, 2, 3] := by
  have hacts : ((new sampleTorrent ⟨some [1, 2, 3], false⟩ true : Program (Fin 1)).actAll
      sampleSha1 (sessionConfig sampleTorrent Swarm.samplePeerId) (sampleActions 0) []).any
        (fun r =>
      (swarmHistory r.1).all (fun t =>
        t.source.honest (PieceManager.piecesOf sampleTorrent [7]) t.label) &&
      decide (r.2.main = .terminated ∧ r.2.swarm.manager.fileHandler.good = true) &&
      r.1.all (fun t => decide (t.target.main = .unwinding → t.source.main = .stopping 0))) =
        true := by
    decide +kernel
  obtain ⟨history, p, hrun, hchecks⟩ := exists_run (sampleLaunch [samplePeer]) hacts
  simp only [Bool.and_eq_true, List.all_eq_true, decide_eq_true_eq] at hchecks
  obtain ⟨⟨hsteps, hmain, hgood⟩, hthrew⟩ := hchecks
  have hgranted : ¬ Refused history := by
    intro hrefused
    obtain ⟨t, ht, ⟨made, hstarting⟩, hunwinding⟩ := hrefused
    have hstopping := of_decide_eq_true (List.all_eq_true.mp hthrew t ht) hunwinding
    rw [hstarting] at hstopping
    cases hstopping
  exact ⟨history, p, hrun, hmain, content_of_terminated announced_piecesOf (by decide) (by decide)
    hrun hsteps hgranted hgood hmain⟩

end Program

end BitTorrentClient
