/-
  App/PeerSession/Capacity.lean --- the pipeline is never overfull.

  How many blocks to ask for is computed once, and the loop that follows suspends at
  every request, so the bound is not one on the set alone: what the set holds and what
  the loop may still put into it are bounded together.  The session's own moves keep
  that bound, whatever the socket does and whatever the piece manager answers.
-/
import BitTorrentClient.App.PeerSession.Messages

set_option autoImplicit false

namespace BitTorrentClient

open Library

/-- With no more blocks than the pipeline has room for, the difference does not wrap. -/
theorem needed_of_le {pending : Nat} (h : pending ≤ maxPipelineSize) :
    u64 (2 ^ 64 + maxPipelineSize - pending) = maxPipelineSize - pending ∧
      needed pending = (maxPipelineSize - pending : Nat) := by
  have hdifference : u64 (2 ^ 64 + maxPipelineSize - pending) = maxPipelineSize - pending := by
    rw [Nat.add_sub_assoc h]
    unfold u64
    rw [Nat.add_mod_left, Nat.mod_eq_of_lt]
    exact Nat.lt_of_le_of_lt (Nat.sub_le _ _) (by decide)
  refine ⟨hdifference, ?_⟩
  have hsmall : maxPipelineSize - pending ≤ 32 := Nat.sub_le _ _
  rw [needed, hdifference, i32, u32_of_lt (by omega), if_pos (by omega)]

namespace PeerSession

variable {config : SessionConfig} {s s' : PeerSession}

/-- How many blocks the loop that requests blocks may still put into the set. -/
def turnsLeft (s : PeerSession) : Nat :=
  match s.point with
  | .requesting left | .writingRequest _ left => left + 1
  | .returning _ _ (.request left) => left
  | _ => 0

/-- The set has room for all that may still be put into it. -/
def HasRoom (s : PeerSession) : Prop := s.pendingBlocks.size + s.turnsLeft ≤ maxPipelineSize

theorem HasRoom.size_le (h : s.HasRoom) : s.pendingBlocks.size ≤ maxPipelineSize :=
  Nat.le_trans (Nat.le_add_right _ _) h

/-! ## The ends of a step -/

theorem Calm.turnsLeft (h : s.Calm) : s.turnsLeft = 0 := by
  have hasking := h.not_asking
  unfold asking at hasking
  unfold PeerSession.turnsLeft
  split
  · rename_i hpoint
    simp [hpoint] at hasking
  · rename_i hpoint
    simp [hpoint] at hasking
  · rename_i hpoint
    simp [hpoint] at hasking
  · rfl

theorem turnsLeft_requestLoop (n : Nat) : (s.requestLoop n).turnsLeft = n := by
  cases n with
  | zero => exact (loopHead_calm s).turnsLeft
  | succ left => rfl

/-- A loop that goes on with less than there was room for. -/
theorem hasRoom_requestLoop {n : Nat} (h : s.pendingBlocks.size + n ≤ maxPipelineSize) :
    (s.requestLoop n).HasRoom := by
  rw [HasRoom, requestLoop_pendingBlocks, turnsLeft_requestLoop]
  exact h

theorem hasRoom_loopHead (h : s.pendingBlocks.size ≤ maxPipelineSize) : s.loopHead.HasRoom :=
  hasRoom_requestLoop (n := 0) h

/-- The pipeline is filled up to its size and no further. -/
theorem hasRoom_refill (h : s.pendingBlocks.size ≤ maxPipelineSize) : s.refill.HasRoom := by
  unfold refill
  refine hasRoom_requestLoop ?_
  rw [(needed_of_le h).2, Int.toNat_natCast]
  omega

theorem hasRoom_returnLoop_request {left : Nat}
    (h : s.pendingBlocks.size + left ≤ maxPipelineSize) (blocks : List Block) :
    (s.returnLoop (.request left) blocks).HasRoom := by
  cases blocks with
  | nil => exact hasRoom_requestLoop h
  | cons block rest => exact h

/-! ## One step -/

theorem HasRoom.of_same (h : s.HasRoom) (hsame : Same s s') (hturns : s'.turnsLeft = 0) :
    s'.HasRoom := by
  rw [HasRoom, hsame.pendingBlocks, hturns]
  exact h.size_le

theorem HasRoom.handled {message : Option (Msg.Id × Bytes)} (hroom : s.HasRoom)
    (h : s.Handled config message s') : s'.HasRoom := by
  have hset := h.pendingBlocks
  have hsize := hroom.size_le
  cases h with
  | choke => exact hasRoom_loopHead (s := { s with peerChoking := true }) hsize
  | unchoke => exact hasRoom_refill (s := { s with peerChoking := false }) hsize
  | bitfield =>
    rw [HasRoom, hset]
    exact hsize
  | piece _ => exact hsize
  | malformed _ => exact hsize
  | ignored _ => exact hasRoom_loopHead hsize

theorem HasRoom.answered {answer : PieceManager.Answer} (hroom : s.HasRoom)
    (h : s.Answered answer s') : s'.HasRoom := by
  cases h with
  | accepted _ =>
    exact hasRoom_refill (Nat.le_trans (KeyedSet.size_erase_le _ _) hroom.size_le)
  | refused _ => exact hasRoom_loopHead hroom.size_le
  | threw _ => exact hroom.size_le
  | @nothing left hpoint =>
    rw [HasRoom, turnsLeft, hpoint] at hroom
    exact hasRoom_requestLoop (Nat.le_of_succ_le hroom)
  | @block left block hpoint =>
    rw [HasRoom, turnsLeft, hpoint] at hroom
    exact hroom
  | @returned block rest after r hpoint =>
    cases after with
    | request left =>
      rw [HasRoom, turnsLeft, hpoint] at hroom
      exact hasRoom_returnLoop_request hroom rest
    | finish =>
      exact hroom.of_same (same_returnLoop s _ _) (returnLoop_finish_calm s rest).turnsLeft

/-- A block is put into the set only by a turn of the loop that was counted. -/
theorem HasRoom.requestWritten {block : Block} {left : Nat} (hroom : s.HasRoom)
    (hpoint : s.point = .writingRequest block left) (ok : Bool) :
    (s.requestWritten block left ok).HasRoom := by
  rw [HasRoom, turnsLeft, hpoint] at hroom
  have hroom : s.pendingBlocks.size + (left + 1) ≤ maxPipelineSize := hroom
  cases ok with
  | true =>
    have hinsert := KeyedSet.size_insert_le s.pendingBlocks block
    refine hasRoom_requestLoop (s := { s with pendingBlocks := s.pendingBlocks.insert block }) ?_
    dsimp only
    omega
  | false => exact hasRoom_returnLoop_request (by omega) s.pendingBlocks.elems

theorem HasRoom.moves {event : Event} (hroom : s.HasRoom) (h : s.Moves config event s') :
    s'.HasRoom := by
  cases h with
  | quiet _ hsame hcalm _ => exact hroom.of_same hsame hcalm.turnsLeft
  | message _ hhandled => exact hroom.handled hhandled
  | interested _ => exact hasRoom_loopHead (s := s.setState .ready) hroom.size_le
  | written hpoint => exact hroom.requestWritten hpoint _
  | called hanswered => exact hroom.answered hanswered

/-! ## Every run -/

/-- In every reachable state there is room for what may still be put into the set. -/
theorem hasRoom_of_run {history : List (Transition PeerSession Event)}
    (hrun : (machine config).Run history s) : s.HasRoom := by
  refine hrun.invariant ?_ fun s event s' hroom hstep => hroom.moves (step_moves hstep)
  rintro s rfl
  exact Nat.zero_le _

/-- How many blocks the set holds when the step computes how many to ask for, if it
does. -/
def computedFor (t : Transition PeerSession Event) : Option Nat :=
  match received t, t.source.point, t.label with
  | some (.unchoke, _), _, _ => some t.source.pendingBlocks.size
  | none, .delivering index offset data, .call _ (.reply (.ok true)) =>
      some (t.source.forget ⟨index, offset, u32 data.length⟩).pendingBlocks.size
  | _, _, _ => none

theorem computedFor_le {t : Transition PeerSession Event} (hroom : t.source.HasRoom) {pending : Nat}
    (h : computedFor t = some pending) : pending ≤ maxPipelineSize := by
  unfold computedFor at h
  split at h
  · rw [← Option.some.inj h]
    exact hroom.size_le
  · rw [← Option.some.inj h]
    exact Nat.le_trans (KeyedSet.size_erase_le _ _) hroom.size_le
  · cases h

/-- **The pipeline is bounded.**  In every run of a session, whatever its peer sends, its
socket does and the piece manager answers, the set holds at most 32 blocks in the state
reached, and so it did in every state before.  Whenever the number of blocks to ask for
was computed, the difference of unsigned integers did not wrap, and its signed value was
the room that was left. -/
theorem pendingBlocks_bounded {history : List (Transition PeerSession Event)}
    (hrun : (machine config).Run history s) :
    s.pendingBlocks.size ≤ maxPipelineSize ∧
      ∀ t ∈ history, t.source.pendingBlocks.size ≤ maxPipelineSize ∧
        ∀ pending, computedFor t = some pending →
          u64 (2 ^ 64 + maxPipelineSize - pending) = maxPipelineSize - pending ∧
          0 ≤ needed pending ∧ needed pending ≤ maxPipelineSize ∧
          needed pending = maxPipelineSize - pending := by
  refine ⟨(hasRoom_of_run hrun).size_le, fun t ht => ?_⟩
  obtain ⟨_, earlier, hearlier, _⟩ := hrun.of_mem ht
  have hroom := hasRoom_of_run hearlier
  refine ⟨hroom.size_le, fun pending hpending => ?_⟩
  have hle := computedFor_le hroom hpending
  obtain ⟨hdifference, hneeded⟩ := needed_of_le hle
  refine ⟨hdifference, ?_, ?_, ?_⟩
  · omega
  · omega
  · omega

/-- A peer unchokes us and every request goes out: the pipeline is full. -/
def fullPipeline : List Event :=
  [.io (.connected .established), .io (.wrote false 0), .io (.read (some (htonl 1))),
    .io (.read (some [Msg.Id.unchoke.toByte]))] ++
  (List.range 32).flatMap fun piece =>
    [.call .written (.block (some ⟨piece, 0, blockLen⟩)), .io (.wrote true 17)]

theorem pendingBlocks_bounded_fullPipeline :
    ∃ s, new.steps ⟨PieceManager.sevenDigest, List.replicate 20 65, 32⟩ fullPipeline = some s ∧
      s.pendingBlocks.size = 32 ∧ s.pendingBlocks.size ≤ maxPipelineSize := by
  obtain ⟨s, hsteps, hsize⟩ : ∃ s, new.steps ⟨PieceManager.sevenDigest, List.replicate 20 65, 32⟩
      fullPipeline = some s ∧ s.pendingBlocks.size = 32 := ⟨_, rfl, rfl⟩
  obtain ⟨history, hrun⟩ := run_of_steps (.start rfl) hsteps
  exact ⟨s, hsteps, hsize, (pendingBlocks_bounded hrun).1⟩

end PeerSession

end BitTorrentClient
