/-
  App/Swarm/NoLeak.lean --- which blocks stay pending for ever.

  A block that is pending and that no session answers for is never handed out
  again.  The sessions lose blocks in three places: a request that cannot be
  written drops its block, an exception out of `_handleMessage` ends the session
  with everything it was given, and a block of a finished piece is taken out of the
  session's set although the manager still counts it as pending.  `KeepsBlocks`
  excludes these three and nothing else; every other step, among them every lost
  connection, keeps all pending blocks in somebody's account.
-/
import BitTorrentClient.App.Swarm.Books

set_option autoImplicit false

namespace BitTorrentClient

open Library

namespace Swarm

variable {ι : Type} {sha1 : Bytes → Sha1Hash} {metadata : TorrentMetadata} {peerId : Bytes}
  {w w' : Swarm ι} {history : List (Transition (Swarm ι) (ι × Event))}

/-- The step loses no block of its session. -/
def KeepsBlocks (sha1 : Bytes → Sha1Hash) (w : Swarm ι) (l : ι × Event) : Prop :=
  match (w.sessions l.1).point, l.2 with
  | .writingRequest block _, .io (.wrote false _) =>
      w.Owes l.1 block.key → (w.sessions l.1).pendingBlocks.Has block.key
  | .readingPayload _, .io (.read (some (msgId :: payload))) =>
      Msg.Id.ofByte msgId = some .piece → payload.length < 8 → ∀ k, ¬ w.Owes l.1 k
  | .delivering index offset data, .call _ _ =>
      (w.manager.finished[index]? = some true → ¬ w.Owes l.1 (blockKey index offset)) ∧
      (w.manager.Throws sha1 index offset data →
        ∀ k, w.Owes l.1 k → k = blockKey index offset)
  | _, _ => True

theorem keepsBlocks_of_harmless {l : ι × Event} (h : w.harmless l = true) :
    w.KeepsBlocks sha1 l := by
  unfold harmless at h
  unfold KeepsBlocks
  split
  · rename_i hpoint hevent
    simp [hpoint, hevent] at h
  · rename_i hpoint hevent
    simp only [hpoint, hevent, decide_eq_true_eq] at h
    exact fun hpiece => absurd hpiece h
  · rename_i hpoint hevent
    simp [hpoint, hevent] at h
  · trivial

theorem covered_new (disk : Disk) (tracked : Bool) :
    (new metadata disk tracked : Swarm ι).ledger.Covered :=
  fun k hk => absurd hk (KeyedSet.has_empty k)

variable [DecidableEq ι]

theorem Books.covered {i : ι} {event : Event} {L : Ledger ι BlockKey}
    (h : Books sha1 w i event L) (hcovered : w.ledger.Covered)
    (hkeeps : w.KeepsBlocks sha1 (i, event)) : L.Covered := by
  unfold KeepsBlocks at hkeeps
  cases h with
  | same => exact hcovered
  | lent _ => exact hcovered.lend _ _
  | @unwritten block left len hpoint =>
    refine hcovered.release fun k hk howes _ => ?_
    simp only [hpoint] at hkeeps
    rcases (PeerSession.answersFor_at hpoint).mp hk with hset | rfl
    · exact hset
    · exact hkeeps howes
  | malformed hpoint hpiece hshort =>
    refine hcovered.release fun k _ howes _ => ?_
    simp only [hpoint] at hkeeps
    exact absurd howes (hkeeps hpiece hshort k)
  | known hpoint hdone =>
    refine hcovered.release fun k hk howes _ => ⟨hk, ?_⟩
    simp only [hpoint] at hkeeps
    rintro rfl
    exact hkeeps.1 hdone howes
  | taken _ _ => exact hcovered.release fun k hk _ hother => ⟨hk, hother⟩
  | rejected _ _ => exact hcovered.release fun k hk _ _ => hk
  | threw hpoint hthrows =>
    refine hcovered.release fun k _ howes hother => ?_
    simp only [hpoint] at hkeeps
    exact absurd (hkeeps.2 hthrows k howes) hother
  | returned hpoint =>
    refine hcovered.release fun k hk _ hother => ?_
    obtain ⟨b, hb, hkey⟩ := (PeerSession.answersFor_at hpoint).mp hk
    rcases List.mem_cons.mp hb with rfl | hb
    · exact absurd hkey.symm hother
    · exact ⟨b, hb, hkey⟩
  | repaid _ => exact hcovered.release fun k hk _ _ => hk

/-- Every session is sane and every pending block accounted for, after a run that
loses none. -/
theorem covered_of_run (hrun : (machine sha1 metadata peerId).Run history w)
    (hkeeps : Machine.Guarded (KeepsBlocks sha1) history) : w.Sane ∧ w.ledger.Covered := by
  refine hrun.guarded_invariant (I := fun w => w.Sane ∧ w.ledger.Covered) ?_ ?_ hkeeps
  · intro w hinit
    obtain ⟨disk, tracked, rfl⟩ := hinit
    exact ⟨sane_new disk tracked, covered_new disk tracked⟩
  · intro w l w' h hguard hstep
    obtain ⟨hsane, hcovered⟩ := h
    obtain ⟨action, hfire⟩ := hstep
    obtain ⟨hsane', hmoved⟩ := fire_moved hsane hfire
    exact ⟨hsane', (hmoved.books hsane).covered hcovered hguard⟩

/-- In every run that loses none, and whenever no session is in the middle of a
message, every pending block is in the set of a live session; and a session that
has ended, however it ended, owes nothing. -/
theorem no_leak (hrun : (machine sha1 metadata peerId).Run history w)
    (hkeeps : Machine.Guarded (KeepsBlocks sha1) history) :
    ((∀ i, (w.sessions i).atRest = true) → ∀ k, w.manager.pendingBlocks.Has k →
      ∃ i, (w.sessions i).Live ∧ (w.sessions i).pendingBlocks.Has k) ∧
    ∀ i, ¬ (w.sessions i).Live → ∀ k, ¬ w.Owes i k := by
  obtain ⟨_, hcovered⟩ := covered_of_run hrun hkeeps
  constructor
  · intro hrest k hk
    obtain ⟨i, _, hi⟩ := hcovered k hk
    exact ⟨i, PeerSession.has_of_atRest (hrest i) hi⟩
  · intro i hended k howes'
    obtain ⟨hk, hassigned⟩ := howes'
    obtain ⟨j, howes, hj⟩ := hcovered k hk
    obtain rfl : i = j := Option.some.inj (hassigned.symm.trans howes.2)
    have hpoint : (w.sessions i).point = .ended := not_not.mp hended
    exact (PeerSession.answersFor_at hpoint).mp hj

/-! ## Two runs -/

/-- One session is unchoked and given the block, and the request is written or not;
then it is told often enough that there is no other block. -/
def requestWritten (ok : Bool) : List (Unit × Action) :=
  (opening oneBlock.infoHash [128] ++ asked ok 31).map fun action => ((), action)

/-- The request is written, and the block is in the set. -/
theorem no_leak_written :
    ∃ history w, (machine PieceManager.sampleSha1 oneBlock samplePeerId).Run history w ∧
      w.manager.pendingBlocks.Has (blockKey 0 0) ∧
      ∃ i : Unit, (w.sessions i).Live ∧ (w.sessions i).pendingBlocks.Has (blockKey 0 0) := by
  have hfire : (fireAll PieceManager.sampleSha1 (sessionConfig oneBlock samplePeerId)
      (new oneBlock PieceManager.emptyFile true) (requestWritten true) []).any (fun r =>
        r.1.all (fun t => t.source.harmless t.label) && (r.2.sessions ()).atRest &&
          decide (r.2.manager.pendingBlocks.Has (blockKey 0 0))) = true := by decide +kernel
  obtain ⟨history, w, hrun, hchecks⟩ := exists_run hfire
  simp only [Bool.and_eq_true, List.all_eq_true, decide_eq_true_eq] at hchecks
  obtain ⟨⟨hharmless, hrest⟩, hpending⟩ := hchecks
  obtain ⟨hheld, _⟩ := no_leak hrun fun t ht => keepsBlocks_of_harmless (hharmless t ht)
  exact ⟨history, w, hrun, hpending, hheld (fun _ => hrest) _ hpending⟩

/-- The request is not written.  The session goes on, and the block stays pending in
the manager and in no set. -/
theorem leak_unwritten :
    ∃ history, ∃ w : Swarm Unit,
      (machine PieceManager.sampleSha1 oneBlock samplePeerId).Run history w ∧
      (∀ i, (w.sessions i).atRest = true) ∧ w.manager.pendingBlocks.Has (blockKey 0 0) ∧
      ¬ ∃ i, (w.sessions i).Live ∧ (w.sessions i).pendingBlocks.Has (blockKey 0 0) := by
  have hfire : (fireAll PieceManager.sampleSha1 (sessionConfig oneBlock samplePeerId)
      (new oneBlock PieceManager.emptyFile true) (requestWritten false) []).any (fun r =>
        (r.2.sessions ()).atRest && decide (r.2.manager.pendingBlocks.Has (blockKey 0 0)) &&
          decide (¬ (r.2.sessions ()).pendingBlocks.Has (blockKey 0 0))) = true := by
    decide +kernel
  obtain ⟨history, w, hrun, hchecks⟩ := exists_run hfire
  simp only [Bool.and_eq_true, decide_eq_true_eq] at hchecks
  obtain ⟨⟨hrest, hpending⟩, hlost⟩ := hchecks
  exact ⟨history, w, hrun, fun _ => hrest, hpending, fun ⟨_, _, hheld⟩ => hlost hheld⟩

end Swarm

end BitTorrentClient
