/-
  App/PieceManager/Refetch.lean --- asking again for a block that was received.

  Nothing records which blocks of a piece were received but the search having
  moved past them.  `Behind` says that it has, for every received block, and then
  no request can hand one out.  Two steps can leave a received block in front of
  the search: taking a block back moves the search to it, past received blocks
  that lie behind it, and a delivery may be of a block the search is not yet past.
  `StaysBehind` is the condition that neither happens.
-/
import BitTorrentClient.App.PieceManager.Received
import BitTorrentClient.App.PieceManager.Totality

set_option autoImplicit false

namespace BitTorrentClient

open Library

namespace PieceManager

variable {sha1 : Bytes → Sha1Hash} {metadata : TorrentMetadata} {m m' : PieceManager}
  {history : List (Transition PieceManager (Op × Answer))}

/-- If the step hands out a block of an unfinished piece, that block was not received
since the entry of the piece was created. -/
def AsksFresh (older : List (Transition PieceManager (Op × Answer)))
    (t : Transition PieceManager (Op × Answer)) : Prop :=
  ∀ peerBitfield block, t.label = (.requestBlock peerBitfield, .block (some block)) →
    t.source.finished[block.pieceIndex]? = some false →
      ∀ f ∈ receivedSince block.pieceIndex older, f.offset ≠ block.offset

/-- If the step is a delivery, it is of a pending block, and carries all of it. -/
def DeliversPending (m : PieceManager) (l : Op × Answer) : Prop :=
  ∀ idx offset data fate, l.1 = .deliverBlock idx offset data fate →
    ⟨idx, offset, data.length⟩ ∈ m.pendingBlocks.elems

/-- The step leaves no received block in front of the search of its piece. -/
structure StaysBehind (sha1 : Bytes → Sha1Hash)
    (older : List (Transition PieceManager (Op × Answer)))
    (t : Transition PieceManager (Op × Answer)) : Prop where
  /-- a pending block that is taken back lies behind every received block of its piece -/
  returned : ∀ block, t.label.1 = .returnBlock block → t.source.pendingBlocks.Has block.key →
    ∀ f ∈ receivedSince block.pieceIndex older, f.offset < block.offset
  /-- a block that is delivered, and does not settle the piece, lies behind the search -/
  delivered : ∀ idx offset data fate pending next,
    t.label.1 = .deliverBlock idx offset data fate →
    t.source.Survives sha1 idx offset data pending →
    t.source.Accepts idx offset data pending → t.source.nextOffsets[idx]? = some next →
      offset < next

/-- The search of every piece is past the blocks received for it. -/
def Behind (history : List (Transition PieceManager (Op × Answer))) (m : PieceManager) : Prop :=
  ∀ p next, m.nextOffsets[p]? = some next → ∀ f ∈ receivedSince p history, f.offset < next

/-- How the search of a piece moves in one step: forwards, back to a block that is
taken back, or to the start of a piece whose entry is dropped. -/
theorem Step.search_moves {l : Op × Answer} (h : m.Step sha1 l m') {p next' : Nat}
    (hnext' : m'.nextOffsets[p]? = some next') :
    (∃ next, m.nextOffsets[p]? = some next ∧ next ≤ next') ∨
    (∃ next block, l.1 = .returnBlock block ∧ block.pieceIndex = p ∧
      m.pendingBlocks.Has block.key ∧ m.nextOffsets[p]? = some next ∧
      next' = min next block.offset) ∨
    m'.pendingPieces p = none := by
  cases h with
  | requested hr =>
    cases hr with
    | nothing => exact Or.inl ⟨next', hnext', Nat.le_refl _⟩
    | @block i bit b _ _ _ _ hout =>
      obtain ⟨next, hnext, _, hle, hset⟩ := hout.forward
      rw [hset, List.getElem?_set] at hnext'
      split at hnext'
      · rename_i heq
        subst heq
        split at hnext'
        · have := Option.some.inj hnext'
          exact Or.inl ⟨next, hnext, by omega⟩
        · cases hnext'
      · exact Or.inl ⟨next', hnext', Nat.le_refl _⟩
  | @delivered idx _ _ _ _ _ hd =>
    cases hd with
    | discarded _ _ _ _ _ =>
      by_cases hp : p = idx
      · subst hp
        exact Or.inr (Or.inr (by simp))
      · rw [markDiscarded_nextOffsets, List.getElem?_set_ne (Ne.symm hp)] at hnext'
        exact Or.inl ⟨next', hnext', Nat.le_refl _⟩
    | _ => exact Or.inl ⟨next', hnext', Nat.le_refl _⟩
  | @returned block _ _ hr =>
    cases hr with
    | unknown _ => exact Or.inl ⟨next', hnext', Nat.le_refl _⟩
    | @freed next hheld hnext =>
      by_cases hp : block.pieceIndex = p
      · subst hp
        obtain ⟨hin, _⟩ := List.getElem?_eq_some_iff.mp hnext
        rw [List.getElem?_set_self hin] at hnext'
        exact Or.inr (Or.inl ⟨next, block, rfl, rfl, hheld, hnext, (Option.some.inj hnext').symm⟩)
      · rw [List.getElem?_set_ne hp] at hnext'
        exact Or.inl ⟨next', hnext', Nat.le_refl _⟩

theorem Behind.step (h : Behind history m)
    (hrecord : ∀ p, Recorded history m p) {l : Op × Answer} (hstep : m.Step sha1 l m')
    (hstays : StaysBehind sha1 history ⟨m, l, m'⟩) : Behind (⟨m, l, m'⟩ :: history) m' := by
  intro p next' hnext' f hf
  have hentry := hstep.entryStep p (hrecord p).none
  rcases hstep.search_moves hnext' with ⟨next, hnext, hle⟩ |
      ⟨next, block, hlabel, rfl, hheld, hnext, rfl⟩ | hnone
  · -- the search did not go back, so only the new block has to be looked at
    generalize receivedSince p (⟨m, l, m'⟩ :: history) = after at hentry hf
    cases hentry with
    | kept _ => exact Nat.lt_of_lt_of_le (h p next hnext f hf) hle
    | opened _ _ _ => exact Nat.lt_of_lt_of_le (h p next hnext f hf) hle
    | received hlabel ha hsurvives _ =>
      rcases List.mem_cons.mp hf with rfl | hf
      · exact Nat.lt_of_lt_of_le
          (hstays.delivered _ _ _ _ _ _ hlabel hsurvives ha hnext) hle
      · exact Nat.lt_of_lt_of_le (h p next hnext f hf) hle
    | dropped _ => simp at hf
  · have hreturned := hstays.returned block hlabel hheld
    generalize receivedSince block.pieceIndex (⟨m, l, m'⟩ :: history) = after at hentry hf
    cases hentry with
    | kept _ => exact Nat.lt_min.mpr ⟨h _ next hnext f hf, hreturned f hf⟩
    | opened _ _ _ => exact Nat.lt_min.mpr ⟨h _ next hnext f hf, hreturned f hf⟩
    | received hdelivers _ _ _ => exact absurd (hlabel.symm.trans hdelivers) (by simp)
    | dropped _ => simp at hf
  · rw [receivedSince_of_none hnone] at hf
    simp at hf

/-- A request hands out no block that is behind the search. -/
theorem Behind.asksFresh (h : Behind history m) {l : Op × Answer} (hstep : m.Step sha1 l m') :
    AsksFresh history ⟨m, l, m'⟩ := by
  intro peerBitfield block hlabel _ f hf
  cases hstep with
  | requested hr =>
    obtain ⟨_, hblock⟩ := Prod.mk.inj hlabel
    obtain rfl := Answer.block.inj hblock
    cases hr with
    | block _ _ _ hout =>
      obtain ⟨next, hnext, hpiece, hle, _⟩ := hout.forward
      rw [← hpiece] at hnext
      have := h _ next hnext f hf
      omega
  | delivered _ => cases hlabel
  | returned _ => cases hlabel

/-- **No received block is asked for again** in a run in which no block is taken back
from in front of a received block of its piece, and every delivered block that leaves its
piece waiting lies behind the search. -/
theorem asksFresh_of_staysBehind (hrun : (machine sha1 metadata).Run history m)
    (hstays : Machine.Always (StaysBehind sha1) history) :
    Machine.Always AsksFresh history := by
  refine hrun.always_of_invariant (I := Behind) ?_ ?_ ?_ hstays
  · intro s _ p next _ f hf
    simp [receivedSince] at hf
  · intro older s l s' hsofar h hstep hs
    exact h.step (recorded_of_run hsofar) (machine_step hs) hstep
  · intro older s l s' _ h _ hs
    exact h.asksFresh (machine_step hs)

/-! ## A piece of two blocks -/

/-- The calls that ask for the blocks deliver nothing and take nothing back. -/
theorem twoRequests_requests :
    ∀ t ∈ twoRequests, ∃ peerBitfield, t.label.1 = .requestBlock peerBitfield :=
  List.forall_mem_cons.mpr ⟨⟨_, rfl⟩, List.forall_mem_singleton.mpr ⟨_, rfl⟩⟩

/-- The second block arrives before the first and lies behind the search. -/
theorem asksFresh_of_staysBehind_secondFirst :
    ∃ history, (machine sampleSha1 twoBlocks).Run history secondArrived ∧
      Machine.Always AsksFresh history := by
  have hrun := run_of_startingAt (secondDelivery_run sampleSha1)
  refine ⟨_, hrun, asksFresh_of_staysBehind hrun (Machine.always_cons.mpr ⟨?_, ?_⟩)⟩
  · refine ⟨fun block hlabel => (by cases hlabel), ?_⟩
    intro idx offset data fate pending next hlabel _ _ hnext
    obtain ⟨rfl, rfl, rfl, rfl⟩ := Op.deliverBlock.inj hlabel
    obtain rfl : 16385 = next := Option.some.inj hnext
    decide
  · intro t older hsuffix
    obtain ⟨bits, hbits⟩ := twoRequests_requests t (hsuffix.subset List.mem_cons_self)
    refine ⟨fun block hlabel => ?_, fun _ _ _ _ _ _ hlabel => ?_⟩
    · rw [hbits] at hlabel
      cases hlabel
    · rw [hbits] at hlabel
      cases hlabel

/-- The first block is taken back after the second one arrived.  The next two requests
are for the first block and, again, for the second. -/
theorem not_asksFresh_returned :
    ∃ history m, (machine sampleSha1 twoBlocks).Run history m ∧
      Machine.Guarded DeliversPending history ∧ ¬ Machine.Always AsksFresh history := by
  have hagain := runOps_run sampleSha1 twoBlocks
    [.returnBlock ⟨0, 0, 16384⟩, .requestBlock [128], .requestBlock [128]]
    (run_of_startingAt (secondDelivery_run sampleSha1)) rfl
  refine ⟨_, _, hagain, ?_, fun h => ?_⟩
  · refine List.forall_mem_cons.mpr ⟨fun _ _ _ _ hlabel => (by cases hlabel), ?_⟩
    refine List.forall_mem_cons.mpr ⟨fun _ _ _ _ hlabel => (by cases hlabel), ?_⟩
    refine List.forall_mem_cons.mpr ⟨fun _ _ _ _ hlabel => (by cases hlabel), ?_⟩
    refine List.forall_mem_cons.mpr ⟨fun idx offset data fate hlabel => ?_, ?_⟩
    · obtain ⟨rfl, rfl, rfl, rfl⟩ := Op.deliverBlock.inj hlabel
      decide
    · intro t ht idx offset data fate hlabel
      obtain ⟨bits, hbits⟩ := twoRequests_requests t ht
      rw [hbits] at hlabel
      cases hlabel
  · refine h.head [128] ⟨0, 16384, 1⟩ rfl rfl ⟨16384, [7]⟩ ?_ rfl
    -- the second block is the only one that was copied
    rw [receivedSince_of_not_accepts rfl fun _ _ _ _ hlabel => (by cases hlabel),
      receivedSince_of_not_accepts rfl fun _ _ _ _ hlabel => (by cases hlabel),
      receivedSince_of_accepts rfl rfl bothAsked_accepts]
    exact List.mem_cons_self

end PieceManager

end BitTorrentClient
