/-
  App/Swarm/Honest.lean --- runs among honest peers.

  `honest` is the condition on a step under which nothing outside the program is at
  fault: requests get through, a PIECE message brings a block that is in the set of the
  session with the bytes that were announced, a peer that owes a block stays connected,
  and the disk takes every piece.  It says nothing about the order of the steps, about
  who is asked for which block, or about what else peers send.

  In a run of such steps none of the ways in which blocks are lost or asked for twice
  is taken: `Kept`.  So what was proved about runs that lose no block (`NoLeak`),
  about runs that share none (`Exclusive`) and about a manager that is served well
  (`Service`) holds of it.
-/
import BitTorrentClient.App.PieceManager.Service
import BitTorrentClient.App.Swarm.Exclusive
import BitTorrentClient.App.Swarm.NoLeak
import BitTorrentClient.App.Swarm.Views

set_option autoImplicit false

namespace BitTorrentClient

open Library

namespace PeerSession

variable {config : SessionConfig} {s s' : PeerSession}

/-! ## Leaving -/

theorem leaving_loopHead : s.loopHead.leaving = false := by
  unfold loopHead
  split <;> rfl

theorem leaving_requestLoop (n : Nat) : (s.requestLoop n).leaving = false := by
  cases n with
  | zero => exact leaving_loopHead
  | succ left => rfl

theorem leaving_refill : s.refill.leaving = false := by
  unfold refill
  exact leaving_requestLoop _

/-- A session with an empty set has nothing to give back. -/
theorem leaving_returnBlocks (hempty : s.pendingBlocks.elems = []) :
    (s.returnBlocks .finish).leaving = false := by
  rw [returnBlocks, hempty]
  rfl

theorem leaving_handleMessage (msgId : UInt8) (payload : Bytes) :
    (s.handleMessage config msgId payload).leaving = false := by
  unfold handleMessage
  split
  · exact leaving_loopHead
  · exact leaving_refill
  · exact leaving_loopHead
  · rfl
  · unfold handlePiece
    split <;> rfl
  · exact leaving_loopHead

/-- Blocks are given back when a read fails, or when a request cannot be written. -/
theorem leaving_resume {event : IoEvent} (h : s.resume config event = some s')
    (hstays : event = .read none → s.pendingBlocks.elems = []) : s'.leaving = false := by
  have hrun : ∀ t : PeerSession, t.run.leaving = false := fun _ => leaving_loopHead
  unfold resume at h
  split at h
  · rename_i connection hpoint
    unfold connectDone at h
    dsimp only at h
    split at h <;> cases h
    cases connection <;> rfl
  · rename_i handshake ok len hpoint
    cases h
    unfold handshakeWritten
    split
    · exact hrun _
    · split
      · exact hrun _
      · rfl
  · rename_i bytes hpoint
    unfold handshakeRead at h
    split at h
    · cases h
      exact hrun _
    · split at h
      · split at h <;> cases h
        · exact hrun _
        · rfl
      · cases h
  · rename_i known hpoint
    cases h
    cases known with
    | true => exact hrun _
    | false => rfl
  · rename_i bytes hpoint
    unfold lengthRead at h
    split at h
    · cases h
      exact leaving_returnBlocks (hstays rfl)
    · split at h
      · cases h
        split
        · exact leaving_loopHead
        · rfl
      · cases h
  · rename_i len bytes hpoint
    unfold payloadRead at h
    split at h
    · cases h
      exact leaving_returnBlocks (hstays rfl)
    · cases h
    · split at h <;> cases h
      exact leaving_handleMessage _ _
  · cases h
    exact leaving_loopHead
  · rename_i block left ok len hpoint
    cases h
    unfold requestWritten
    split
    · unfold returnBlocks
      cases s.pendingBlocks.elems with
      | nil => exact leaving_requestLoop left
      | cons _ _ => rfl
    · exact leaving_requestLoop left
  · cases h

end PeerSession

/-- The call came back without an exception. -/
def PieceManager.Answer.returned : PieceManager.Answer → Bool
  | .reply (.error _) => false
  | _ => true

theorem PieceManager.Answer.returned_iff {answer : PieceManager.Answer} :
    answer.returned = true ↔ ∀ e, answer ≠ .reply (.error e) := by
  cases answer with
  | block block => simp [returned]
  | reply r => cases r <;> simp [returned]

namespace Swarm

variable {ι : Type} {sha1 : Bytes → Sha1Hash} {metadata : TorrentMetadata} {peerId : Bytes}
  {contents : Nat → Bytes} {w w' : Swarm ι} {i : ι} {event : Event}
  {history : List (Transition (Swarm ι) (ι × Event))}

/-- The step is one that honest peers and a working disk leave us with.  What a PIECE
message brings has to be in the set of the session, where a request stays that its peer
dropped at a CHOKE: such a request may be answered as well. -/
def honest (contents : Nat → Bytes) (w : Swarm ι) (l : ι × Event) : Bool :=
  match (w.sessions l.1).point, l.2 with
  | .writingRequest _ _, .io (.wrote ok _) => ok
  | .readingPayload _, .io (.read (some (msgId :: payload))) =>
      decide (Msg.Id.ofByte msgId = some .piece → 8 ≤ payload.length)
  | .delivering index offset data, .call _ answer =>
      decide ((w.sessions l.1).pendingBlocks.Has (blockKey index offset) ∧
        data = slice (contents index) offset blockLen) && answer.returned
  | _, .io (.read none) => (w.sessions l.1).pendingBlocks.elems.isEmpty
  | _, _ => true

theorem honest_written {block : Block} {left len : Nat} {ok : Bool}
    (h : w.honest contents (i, .io (.wrote ok len)) = true)
    (hpoint : (w.sessions i).point = .writingRequest block left) : ok = true := by
  simpa [honest, hpoint] using h

theorem honest_piece {len : Nat} {msgId : UInt8} {payload : Bytes}
    (h : w.honest contents (i, .io (.read (some (msgId :: payload)))) = true)
    (hpoint : (w.sessions i).point = .readingPayload len)
    (hpiece : Msg.Id.ofByte msgId = some .piece) : 8 ≤ payload.length := by
  simpa [honest, hpoint, hpiece] using h

theorem honest_delivering {index offset : Nat} {data : Bytes} {fate : DiskFate}
    {answer : PieceManager.Answer} (h : w.honest contents (i, .call fate answer) = true)
    (hpoint : (w.sessions i).point = .delivering index offset data) :
    ((w.sessions i).pendingBlocks.Has (blockKey index offset) ∧
      data = slice (contents index) offset blockLen) ∧ answer.returned = true := by
  simpa only [honest, hpoint, Bool.and_eq_true, decide_eq_true_eq] using h

theorem honest_stays (h : w.honest contents (i, .io (.read none)) = true) :
    (w.sessions i).pendingBlocks.elems = [] := by
  unfold honest at h
  cases hpoint : (w.sessions i).point <;> simpa [hpoint] using h

variable [DecidableEq ι]

/-! ## What honest steps keep -/

/-- What holds after every run of honest steps. -/
structure Kept (sha1 : Bytes → Sha1Hash) (contents : Nat → Bytes)
    (history : List (Transition (Swarm ι) (ι × Event))) (w : Swarm ι) : Prop where
  shares : Machine.Guarded (KeepsShares sha1) history
  blocks : Machine.Guarded (KeepsBlocks sha1) history
  serves : Machine.Guarded (PieceManager.Serves contents) (managerHistory history)
  stays : ∀ i, (w.sessions i).leaving = false
  /-- so a session that has ended waits for nothing -/
  answers : ∀ i k, (w.sessions i).pendingBlocks.Has k → (w.sessions i).AnswersFor k

omit [DecidableEq ι] in
/-- The call of a session that delivers. -/
theorem callOf_delivering {index offset : Nat} {data : Bytes} {fate : DiskFate}
    {answer : PieceManager.Answer} (hpoint : (w.sessions i).point = .delivering index offset data) :
    callOf ⟨w, (i, .call fate answer), w'⟩ =
      some (.deliverBlock index offset data fate, answer) := by
  unfold callOf
  dsimp only
  rw [PeerSession.operation, hpoint]
  rfl

section Step

variable (hannounced : PieceManager.Announced sha1 metadata contents)
  (hrun : (machine sha1 metadata peerId).Run history w) (h : Kept sha1 contents history w)

include hrun h

theorem Kept.shared : w.Shared := shared_of_run hrun h.shares

/-- Nobody is giving blocks back. -/
theorem Kept.not_returning (block : Block) (rest : List Block) (after : AfterReturn) :
    (w.sessions i).point ≠ .returning block rest after := by
  intro hpoint
  cases after with
  | request left => exact (h.shared hrun).not_returning_request block rest left hpoint
  | finish =>
    have hstays := h.stays i
    unfold PeerSession.leaving at hstays
    rw [hpoint] at hstays
    cases hstays

/-- What a session waits for is pending, and was given to it last. -/
theorem Kept.owes {k : BlockKey} (hk : (w.sessions i).AnswersFor k) : w.Owes i k :=
  (h.shared hrun).exclusive i k hk

/-- A call of an honest step serves the manager. -/
theorem Kept.serves_step (hstep : (machine sha1 metadata peerId).step w (i, event) w')
    (hhonest : w.honest contents (i, event) = true) {l : PieceManager.Op × PieceManager.Answer}
    (hcall : callOf ⟨w, (i, event), w'⟩ = some l) : PieceManager.Serves contents w.manager l := by
  have hmanager := refines_manager w (i, event) w' hstep
  rw [hcall] at hmanager
  have hdid := PieceManager.machine_step hmanager
  unfold callOf at hcall
  split at hcall
  · cases hcall
  · rename_i fate answer hevent
    dsimp only at hevent
    subst hevent
    obtain ⟨op, hop, rfl⟩ := Option.map_eq_some_iff.mp hcall
    unfold PeerSession.operation at hop
    split at hop
    · rename_i index offset data hpoint
      cases hop
      obtain ⟨⟨hheld, hdata⟩, hreturned⟩ := honest_delivering hhonest hpoint
      have hpending := (h.owes hrun ((PeerSession.answersFor_at hpoint).mpr hheld)).1
      refine ⟨?_, by simp, PieceManager.Answer.returned_iff.mp hreturned⟩
      intro idx o d f hlabel
      obtain ⟨rfl, rfl, rfl, _⟩ := PieceManager.Op.deliverBlock.inj hlabel
      exact ⟨hpending, hdata⟩
    · cases hop
      refine ⟨by simp, by simp, ?_⟩
      cases hdid with
      | requested _ => simp
    · rename_i block rest after hpoint
      exact absurd hpoint (h.not_returning hrun block rest after)
    · cases hop

theorem Kept.stays_step (hstep : (machine sha1 metadata peerId).step w (i, event) w')
    (hhonest : w.honest contents (i, event) = true) (j : ι) :
    (w'.sessions j).leaving = false := by
  obtain ⟨action, hfire⟩ := hstep
  obtain ⟨_, hmoved⟩ := fire_moved (h.shared hrun).sane hfire
  by_cases heq : j = i
  · subst heq
    obtain ⟨hsession, _⟩ := fire_session hfire
    cases event with
    | io io =>
      refine PeerSession.leaving_resume hsession fun hlost => ?_
      subst hlost
      exact honest_stays hhonest
    | call fate answer =>
      generalize w'.sessions j = s at hsession
      cases PeerSession.answered_answered hsession with
      | accepted _ => exact PeerSession.leaving_refill
      | refused _ => exact PeerSession.leaving_loopHead
      | threw _ => rfl
      | nothing _ => exact PeerSession.leaving_requestLoop _
      | block _ => rfl
      | returned hpoint => exact absurd hpoint (h.not_returning hrun _ _ _)
  · rw [hmoved.other heq]
    exact h.stays j

/-- A session answers for all that it waits for. -/
theorem Kept.answers_step (hstep : (machine sha1 metadata peerId).step w (i, event) w')
    (hhonest : w.honest contents (i, event) = true) {j : ι} {k : BlockKey}
    (hk : (w'.sessions j).pendingBlocks.Has k) : (w'.sessions j).AnswersFor k := by
  have hsane := (h.shared hrun).sane
  obtain ⟨action, hfire⟩ := hstep
  obtain ⟨_, hmoved⟩ := fire_moved hsane hfire
  by_cases heq : j = i
  · subst heq
    cases hmoved with
    | @io event s hresumed =>
      have hs : (w.withSession j s).sessions j = s := Function.update_self ..
      rw [hs] at hk ⊢
      cases hresumed with
      | quiet hset haccount _ => exact (haccount k).mpr (h.answers j k (hset ▸ hk))
      | @written block left len _ hpoint hset haccount _ =>
        rw [hset] at hk
        refine (haccount k).mpr ((PeerSession.answersFor_at hpoint).mpr ?_)
        exact KeyedSet.has_insert.mp hk
      | unwritten hpoint _ _ _ => exact absurd (honest_written hhonest hpoint) (by simp)
      | malformed hpoint hpiece hshort =>
        exact absurd (honest_piece hhonest hpoint hpiece) (Nat.not_le.mpr hshort)
    | @nothing left fate hpoint =>
      have hs : (w.withSession j ((w.sessions j).requestLoop left)).sessions j =
        (w.sessions j).requestLoop left := Function.update_self ..
      rw [hs] at hk ⊢
      rw [PeerSession.requestLoop_pendingBlocks] at hk
      have hrunning := (hsane j).running hpoint (Or.inr (Or.inl ⟨_, rfl⟩))
      exact (hrunning.answersFor_requestLoop left).mpr hk
    | @lent left index fate block m hpoint hout =>
      have hs : (w.afterCall j ((w.sessions j).suspend (.writingRequest block left)) m).sessions j =
        (w.sessions j).suspend (.writingRequest block left) := Function.update_self ..
      dsimp only at hk ⊢
      rw [hs] at hk ⊢
      exact Or.inl hk
    | @delivered index offset data fate r m s hpoint hd hanswered =>
      have hs : (w.afterCall j s m).sessions j = s := Function.update_self ..
      rw [hs] at hk ⊢
      have hrunning := (hsane j).running hpoint (Or.inl ⟨_, _, _, rfl⟩)
      obtain ⟨_, hreturned⟩ := honest_delivering hhonest hpoint
      rw [hanswered.delivering hpoint] at hk ⊢
      cases r with
      | error e => cases hreturned
      | ok accepted =>
        cases accepted with
        | false =>
          rw [PeerSession.afterDelivery, PeerSession.loopHead_pendingBlocks] at hk
          exact hrunning.answersFor_loopHead.mpr hk
        | true =>
          have hforget : ((w.sessions j).forget ⟨index, offset, u32 data.length⟩).Running :=
            hrunning
          rw [PeerSession.afterDelivery, (PeerSession.same_refill _).pendingBlocks] at hk
          exact hforget.answersFor_refill.mpr hk
    | returned hpoint _ => exact absurd hpoint (h.not_returning hrun _ _ _)
  · rw [hmoved.other heq] at hk ⊢
    exact h.answers j k hk

include hannounced

theorem Kept.served :
    PieceManager.Served metadata contents (managerHistory history) w.manager :=
  PieceManager.served_of_run hannounced (manager_run hrun) h.serves

/-- A block that an honest session delivers is taken. -/
theorem Kept.delivery (hstep : (machine sha1 metadata peerId).step w (i, event) w')
    (hhonest : w.honest contents (i, event) = true) {index offset : Nat} {data : Bytes}
    (hpoint : (w.sessions i).point = .delivering index offset data) :
    w.manager.Takes sha1 index offset data ∧
      ∃ pending, w.manager.Accepts index offset data pending := by
  have hsofar := manager_run hrun
  obtain ⟨fate, r, rfl, hd⟩ := delivery_of_step hpoint hstep
  have hs := PieceManager.shaped_of_run hsofar
  obtain ⟨hr, haccepts⟩ := PieceManager.Serves.taken (h.served hannounced hrun) hannounced hs
    (PieceManager.recorded_of_run hsofar)
    (h.serves_step hrun hstep hhonest (callOf_delivering hpoint)) hd
    (hs.finished_length ▸ hd.index_lt)
  exact ⟨hd.accepted_iff.mp hr, haccepts⟩

theorem Kept.keepsShares (hstep : (machine sha1 metadata peerId).step w (i, event) w')
    (hhonest : w.honest contents (i, event) = true) : w.KeepsShares sha1 (i, event) := by
  unfold KeepsShares
  split
  · rename_i hpoint hevent
    dsimp only at hpoint hevent
    subst hevent
    exact absurd (honest_written hhonest hpoint) (by simp)
  · intro j _ hleaving
    rw [h.stays j] at hleaving
    cases hleaving
  · rename_i index offset data fate answer hpoint hevent
    dsimp only at hpoint hevent
    subst hevent
    obtain ⟨htakes, pending, haccepts⟩ := h.delivery hannounced hrun hstep hhonest hpoint
    obtain ⟨⟨hheld, _⟩, _⟩ := honest_delivering hhonest hpoint
    have hmine := (h.owes hrun ((PeerSession.answersFor_at hpoint).mpr hheld)).2
    refine ⟨fun hrejects => ?_, fun pending _ j hne hother => ?_⟩
    · obtain ⟨hcomplete, expected, hhash, hwrong⟩ := haccepts.refuses (Or.inr hrejects)
      obtain hwaits | ⟨hv, _⟩ := haccepts.takes htakes
      · rw [hcomplete] at hwaits
        cases hwaits
      · exact absurd (Option.some.inj (hhash.symm.trans hv.hash)) hwrong
    · exact hne (Option.some.inj ((h.owes hrun hother).2.symm.trans hmine))
  · trivial

theorem Kept.keepsBlocks (hstep : (machine sha1 metadata peerId).step w (i, event) w')
    (hhonest : w.honest contents (i, event) = true) : w.KeepsBlocks sha1 (i, event) := by
  unfold KeepsBlocks
  split
  · rename_i hpoint hevent
    dsimp only at hpoint hevent
    subst hevent
    exact absurd (honest_written hhonest hpoint) (by simp)
  · rename_i msgId payload hpoint hevent
    dsimp only at hpoint hevent
    subst hevent
    exact fun hpiece hshort =>
      absurd (honest_piece hhonest hpoint hpiece) (Nat.not_le.mpr hshort)
  · rename_i index offset data fate answer hpoint hevent
    dsimp only at hpoint hevent
    subst hevent
    obtain ⟨htakes, pending, haccepts⟩ := h.delivery hannounced hrun hstep hhonest hpoint
    refine ⟨fun hdone => ?_, fun hthrows => ?_⟩
    · exact absurd (haccepts.unfinished.symm.trans hdone) (by simp)
    · obtain ⟨pending', hv, hclosed⟩ := hthrows
      obtain rfl := haccepts.unique hv.toAccepts
      obtain hwaits | ⟨_, hopen⟩ := haccepts.takes htakes
      · rw [hv.complete] at hwaits
        cases hwaits
      · rw [hclosed] at hopen
        cases hopen
  · trivial

/-- One honest step more. -/
theorem Kept.step (hstep : (machine sha1 metadata peerId).step w (i, event) w')
    (hhonest : w.honest contents (i, event) = true) :
    Kept sha1 contents (⟨w, (i, event), w'⟩ :: history) w' where
  shares := List.forall_mem_cons.mpr ⟨h.keepsShares hannounced hrun hstep hhonest, h.shares⟩
  blocks := List.forall_mem_cons.mpr ⟨h.keepsBlocks hannounced hrun hstep hhonest, h.blocks⟩
  serves := by
    unfold managerHistory
    cases hcall : callOf ⟨w, (i, event), w'⟩ with
    | none =>
      rw [Machine.project_cons_none hcall]
      exact h.serves
    | some l =>
      rw [Machine.project_cons_some hcall]
      exact List.forall_mem_cons.mpr
        ⟨h.serves_step hrun hstep hhonest hcall, h.serves⟩
  stays := h.stays_step hrun hstep hhonest
  answers := fun _ _ => h.answers_step hrun hstep hhonest

end Step

/-- Runs of honest steps lose no block, share none and serve the manager. -/
theorem kept_of_run (hannounced : PieceManager.Announced sha1 metadata contents)
    (hrun : (machine sha1 metadata peerId).Run history w)
    (hhonest : Machine.Guarded (fun w l => w.honest contents l = true) history) :
    Kept sha1 contents history w := by
  induction hrun with
  | start hinit =>
    obtain ⟨disk, tracked, rfl⟩ := hinit
    exact ⟨fun t ht => absurd ht List.not_mem_nil, fun t ht => absurd ht List.not_mem_nil,
      fun t ht => absurd ht List.not_mem_nil, fun _ => rfl, fun _ _ hk => hk⟩
  | snoc hsofar hlast ih =>
    exact (ih hhonest.tail).step hannounced hsofar hlast (hhonest _ List.mem_cons_self)

end Swarm

end BitTorrentClient
