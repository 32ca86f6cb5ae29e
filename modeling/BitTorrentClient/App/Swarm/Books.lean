/-
  App/Swarm/Books.lean --- the swarm as a ledger.

  The manager lends blocks to sessions: its set holds what is out, and the account
  of a session what it answers for.  `Books` lists every step that changes this
  ledger, as one of the two moves of `Library/Ledger.lean`, with the tests that
  lead there.  What is said about blocks in any run is derived from this list.
-/
import BitTorrentClient.App.Swarm

set_option autoImplicit false

namespace BitTorrentClient

open Library

namespace PieceManager

/-- The block completes a piece that does not have the announced hash. -/
def Rejects (sha1 : Bytes → Sha1Hash) (m : PieceManager) (idx offset : Nat) (data : Bytes) :
    Prop :=
  ∃ pending expected, m.Accepts idx offset data pending ∧
    (pending.receive offset data).isFinished = true ∧
    m.verificationHashes[idx]? = some expected ∧
    expected ≠ sha1 (pending.receive offset data).data

/-- The block completes a piece that cannot be written, because the file is not
open. -/
def Throws (sha1 : Bytes → Sha1Hash) (m : PieceManager) (idx offset : Nat) (data : Bytes) :
    Prop :=
  ∃ pending, m.Verifies sha1 idx offset data pending ∧ m.fileHandler.isOpen = false

theorem HandsOut.pendingBlocks {m m' : PieceManager} {index : Nat} {block : Block} {k : BlockKey}
    (h : m.HandsOut index block m') :
    m'.pendingBlocks.Has k ↔ m.pendingBlocks.Has k ∨ k = block.key := by
  rw [h.target]
  exact KeyedSet.has_insert

theorem Returned.pendingBlocks {m m' : PieceManager} {block : Block} {r : Bool} {k : BlockKey}
    (h : m.Returned block r m') :
    m'.pendingBlocks.Has k ↔ m.pendingBlocks.Has k ∧ k ≠ block.key := by
  cases h with
  | unknown hfree =>
    refine ⟨fun hk => ⟨hk, ?_⟩, And.left⟩
    rintro rfl
    exact hfree hk
  | freed _ _ => exact KeyedSet.has_erase

end PieceManager

namespace Swarm

variable {ι : Type} [DecidableEq ι] {sha1 : Bytes → Sha1Hash} {w w' : Swarm ι} {i : ι}

/-- What is out, to whom, and who answers for it. -/
def ledger (w : Swarm ι) : Ledger ι BlockKey where
  lent := {k | w.manager.pendingBlocks.Has k}
  borrower := w.assigned
  account := fun i => {k | (w.sessions i).AnswersFor k}

/-- The block is pending, and the manager gave it to `i` last. -/
def Owes (w : Swarm ι) (i : ι) (k : BlockKey) : Prop :=
  w.manager.pendingBlocks.Has k ∧ w.assigned k = some i

/-- What a step of the session `i` does to the ledger. -/
inductive Books (sha1 : Bytes → Sha1Hash) (w : Swarm ι) (i : ι) :
    Event → Ledger ι BlockKey → Prop
  /-- nothing -/
  | same {event : Event} : Books sha1 w i event w.ledger
  /-- a free block is lent -/
  | lent {fate : DiskFate} {block : Block} :
      block.key ∉ w.ledger.lent →
      Books sha1 w i (.call fate (.block (some block))) (w.ledger.lend i block.key)
  /-- a request did not go out, and the session keeps its set only -/
  | unwritten {block : Block} {left len : Nat} :
      (w.sessions i).point = .writingRequest block left →
      Books sha1 w i (.io (.wrote false len))
        (w.ledger.release i ∅ {k | (w.sessions i).pendingBlocks.Has k})
  /-- a message was too short, and the session ends with its set -/
  | malformed {len : Nat} {msgId : UInt8} {payload : Bytes} :
      (w.sessions i).point = .readingPayload len → Msg.Id.ofByte msgId = some .piece →
      payload.length < 8 →
      Books sha1 w i (.io (.read (some (msgId :: payload)))) (w.ledger.release i ∅ ∅)
  /-- a block of a finished piece came; the manager did not look at it -/
  | known {index offset : Nat} {data : Bytes} {fate : DiskFate} :
      (w.sessions i).point = .delivering index offset data →
      w.manager.finished[index]? = some true →
      Books sha1 w i (.call fate (.reply (.ok true)))
        (w.ledger.release i ∅ (w.ledger.account i \ {blockKey index offset}))
  /-- a block was taken -/
  | taken {index offset : Nat} {data : Bytes} {fate : DiskFate} {pending : PendingPiece} :
      (w.sessions i).point = .delivering index offset data →
      w.manager.Accepts index offset data pending →
      Books sha1 w i (.call fate (.reply (.ok true)))
        (w.ledger.release i {blockKey index offset}
          (w.ledger.account i \ {blockKey index offset}))
  /-- a block was taken and its piece thrown away; the session keeps its set -/
  | rejected {index offset : Nat} {data : Bytes} {fate : DiskFate} :
      (w.sessions i).point = .delivering index offset data →
      w.manager.Rejects sha1 index offset data →
      Books sha1 w i (.call fate (.reply (.ok false)))
        (w.ledger.release i {blockKey index offset} (w.ledger.account i))
  /-- a block was taken and its piece could not be written; the session ends -/
  | threw {index offset : Nat} {data : Bytes} {fate : DiskFate} {e : StdException} :
      (w.sessions i).point = .delivering index offset data →
      w.manager.Throws sha1 index offset data →
      Books sha1 w i (.call fate (.reply (.error e)))
        (w.ledger.release i {blockKey index offset} ∅)
  /-- a block was given back for good -/
  | returned {block : Block} {rest : List Block} {fate : DiskFate} {r : Bool} :
      (w.sessions i).point = .returning block rest .finish →
      Books sha1 w i (.call fate (.reply (.ok r)))
        (w.ledger.release i {block.key} {k | ∃ b ∈ rest, b.key = k})
  /-- a block was given back, and the session keeps it in its set -/
  | repaid {block : Block} {rest : List Block} {left : Nat} {fate : DiskFate} {r : Bool} :
      (w.sessions i).point = .returning block rest (.request left) →
      Books sha1 w i (.call fate (.reply (.ok r)))
        (w.ledger.release i {block.key} (w.ledger.account i))

/-- The step is neither a failed write nor about a PIECE message. -/
def harmless (w : Swarm ι) (l : ι × Event) : Bool :=
  match (w.sessions l.1).point, l.2 with
  | .writingRequest _ _, .io (.wrote false _) => false
  | .readingPayload _, .io (.read (some (msgId :: _))) =>
      decide (Msg.Id.ofByte msgId ≠ some .piece)
  | .delivering _ _ _, .call _ _ => false
  | _, _ => true

/-- A call that returns blocks and leaves the session with another account. -/
theorem ledger_afterCall {s : PeerSession} {m : PieceManager} {back account : Set BlockKey}
    (hpending : ∀ k, m.pendingBlocks.Has k ↔ w.manager.pendingBlocks.Has k ∧ k ∉ back)
    (haccount : ∀ k, s.AnswersFor k ↔ k ∈ account) :
    (w.afterCall i s m).ledger = w.ledger.release i back account := by
  refine Ledger.ext (Set.ext hpending) rfl (funext fun j => Set.ext fun k => ?_)
  change (Function.update w.sessions i s j).AnswersFor k ↔
    k ∈ Function.update w.ledger.account i account j
  by_cases heq : j = i
  · subst heq
    rw [Function.update_self, Function.update_self]
    exact haccount k
  · rw [Function.update_of_ne heq, Function.update_of_ne heq]
    exact Iff.rfl

/-- A step that returns no block. -/
theorem ledger_withSession {s : PeerSession} {account : Set BlockKey}
    (haccount : ∀ k, s.AnswersFor k ↔ k ∈ account) :
    (w.withSession i s).ledger = w.ledger.release i ∅ account :=
  ledger_afterCall (fun _ => (and_iff_left id).symm) haccount

/-- A step that changes neither the manager's set nor the account. -/
theorem ledger_same {s : PeerSession} {m : PieceManager}
    (hpending : ∀ k, m.pendingBlocks.Has k ↔ w.manager.pendingBlocks.Has k)
    (haccount : ∀ k, s.AnswersFor k ↔ (w.sessions i).AnswersFor k) :
    (w.afterCall i s m).ledger = w.ledger := by
  rw [ledger_afterCall (fun k => (hpending k).trans (and_iff_left id).symm) haccount]
  exact Ledger.ext (Set.sdiff_empty) rfl (Function.update_eq_self i w.ledger.account)

theorem Books.of_eq {event : Event} {L L' : Ledger ι BlockKey} (heq : L' = L)
    (h : Books sha1 w i event L) : Books sha1 w i event L' :=
  heq ▸ h

/-- A delivery, by what the manager did with the block. -/
theorem books_delivered (hs : w.Sane) {index offset : Nat} {data : Bytes} {fate : DiskFate}
    {r : Reply} {m : PieceManager} {s : PeerSession}
    (hpoint : (w.sessions i).point = .delivering index offset data)
    (hd : w.manager.Delivery sha1 index offset data fate r m)
    (hanswered : (w.sessions i).Answered (.reply r) s) :
    Books sha1 w i (.call fate (.reply r)) (w.afterCall i s m).ledger := by
  have hrun : (w.sessions i).Running := (hs i).running hpoint (Or.inl ⟨_, _, _, rfl⟩)
  have hset : ∀ k, (w.sessions i).AnswersFor k ↔ (w.sessions i).pendingBlocks.Has k :=
    fun k => PeerSession.answersFor_call hpoint (Or.inl ⟨_, _, _, rfl⟩)
  -- what the session is left with, for each of the three replies
  obtain rfl := hanswered.delivering hpoint
  have haccepted : r = .ok true → ∀ k,
      ((w.sessions i).afterDelivery index offset data r).AnswersFor k ↔
        k ∈ w.ledger.account i \ {blockKey index offset} := by
    intro hr k
    subst hr
    have hforget : ((w.sessions i).forget ⟨index, offset, u32 data.length⟩).Running := hrun
    rw [PeerSession.afterDelivery, hforget.answersFor_refill]
    exact KeyedSet.has_erase.trans (and_congr (hset k).symm Iff.rfl)
  have hrefused : r = .ok false → ∀ k,
      ((w.sessions i).afterDelivery index offset data r).AnswersFor k ↔
        (w.sessions i).AnswersFor k := by
    intro hr k
    subst hr
    rw [PeerSession.afterDelivery, hrun.answersFor_loopHead, hset]
  have hthrew : (∃ e, r = .error e) → ∀ k,
      ((w.sessions i).afterDelivery index offset data r).AnswersFor k ↔
        k ∈ (∅ : Set BlockKey) := by
    intro hr k
    obtain ⟨e, rfl⟩ := hr
    exact Iff.rfl
  have herased : ∀ pending k,
      (w.manager.stored index offset data pending).pendingBlocks.Has k ↔
        w.manager.pendingBlocks.Has k ∧ k ∉ ({blockKey index offset} : Set BlockKey) :=
    fun _ _ => KeyedSet.has_erase
  have hkept : ∀ k, w.manager.pendingBlocks.Has k ↔
      w.manager.pendingBlocks.Has k ∧ k ∉ (∅ : Set BlockKey) :=
    fun _ => (and_iff_left id).symm
  cases hd with
  | finished hdone =>
    exact (Books.known hpoint hdone).of_eq (ledger_afterCall hkept (haccepted rfl))
  | outOfBounds _ _ _ =>
    exact Books.same.of_eq (ledger_same (fun _ => Iff.rfl) (hrefused rfl))
  | @stored pending ha _ =>
    exact (Books.taken hpoint ha).of_eq (ledger_afterCall (herased pending) (haccepted rfl))
  | @discarded pending expected ha hcomplete hexpected hne _ =>
    exact (Books.rejected hpoint ⟨pending, expected, ha, hcomplete, hexpected, hne⟩).of_eq
      (ledger_afterCall (herased pending) (hrefused rfl))
  | @threw pending e hv hclosed =>
    exact (Books.threw hpoint ⟨pending, hv, hclosed⟩).of_eq
      (ledger_afterCall (herased pending) (hthrew ⟨e, rfl⟩))
  | @completed pending hv _ _ _ =>
    exact (Books.taken hpoint hv.toAccepts).of_eq
      (ledger_afterCall (herased pending) (haccepted rfl))

/-- A request that handed a block out. -/
theorem ledger_lent {left index : Nat} {block : Block} {m : PieceManager}
    (hpoint : (w.sessions i).point = .requesting left)
    (hout : w.manager.HandsOut index block m) :
    ({ w.afterCall i ((w.sessions i).suspend (.writingRequest block left)) m with
        assigned := Function.update w.assigned block.key (some i) } : Swarm ι).ledger =
      w.ledger.lend i block.key := by
  have hset : ∀ k, (w.sessions i).AnswersFor k ↔ (w.sessions i).pendingBlocks.Has k :=
    fun k => PeerSession.answersFor_call hpoint (Or.inr (Or.inl ⟨_, rfl⟩))
  refine Ledger.ext (Set.ext fun k => ?_) rfl (funext fun j => Set.ext fun k => ?_)
  · exact hout.pendingBlocks.trans or_comm
  · rw [Ledger.mem_account_lend]
    change (Function.update w.sessions i _ j).AnswersFor k ↔ (w.sessions j).AnswersFor k ∨ _
    by_cases heq : j = i
    · subst heq
      rw [Function.update_self, hset]
      exact or_congr Iff.rfl (and_iff_right rfl).symm
    · rw [Function.update_of_ne heq]
      exact (or_iff_left fun hboth => heq hboth.1).symm

/-- Every step, by what it does to the ledger. -/
theorem Moved.books (hs : w.Sane) {event : Event} (h : Moved sha1 w i event w') :
    Books sha1 w i event w'.ledger := by
  cases h with
  | @io event s hresumed =>
    have hsame : (∀ k, s.AnswersFor k ↔ (w.sessions i).AnswersFor k) →
        (w.withSession i s).ledger = w.ledger := ledger_same (m := w.manager) fun _ => Iff.rfl
    cases hresumed with
    | quiet _ haccount _ => exact Books.same.of_eq (hsame haccount)
    | written _ _ haccount _ => exact Books.same.of_eq (hsame haccount)
    | unwritten hpoint _ haccount _ =>
      exact (Books.unwritten hpoint).of_eq (ledger_withSession haccount)
    | malformed hpoint hpiece hshort =>
      exact (Books.malformed hpoint hpiece hshort).of_eq (ledger_withSession fun _ => Iff.rfl)
  | @nothing left fate hpoint =>
    have hrun : (w.sessions i).Running := (hs i).running hpoint (Or.inr (Or.inl ⟨_, rfl⟩))
    refine Books.same.of_eq (ledger_same (m := w.manager) (fun _ => Iff.rfl) fun k => ?_)
    rw [hrun.answersFor_requestLoop, PeerSession.answersFor_call hpoint (Or.inr (Or.inl ⟨_, rfl⟩))]
  | lent hpoint hout =>
    exact (Books.lent hout.key.2).of_eq (ledger_lent hpoint hout)
  | delivered hpoint hd hanswered => exact books_delivered hs hpoint hd hanswered
  | @returned block rest after fate r m hpoint hr =>
    have hback : ∀ k, m.pendingBlocks.Has k ↔
        w.manager.pendingBlocks.Has k ∧ k ∉ ({block.key} : Set BlockKey) :=
      fun _ => hr.pendingBlocks
    cases after with
    | finish =>
      exact (Books.returned hpoint).of_eq
        (ledger_afterCall hback fun _ => PeerSession.answersFor_returnLoop_finish rest)
    | request left =>
      have hcall : ∃ b l n, Point.returning block rest (.request left) =
          Point.returning b l (.request n) := ⟨_, _, _, rfl⟩
      have hrun : (w.sessions i).Running := (hs i).running hpoint (Or.inr (Or.inr hcall))
      refine (Books.repaid hpoint).of_eq (ledger_afterCall hback fun k => ?_)
      rw [hrun.answersFor_returnLoop_request]
      exact (PeerSession.answersFor_call hpoint (Or.inr (Or.inr hcall))).symm

end Swarm

end BitTorrentClient
