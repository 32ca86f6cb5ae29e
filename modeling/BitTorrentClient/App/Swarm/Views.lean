/-
  App/Swarm/Views.lean --- a run of the swarm as its parts see it.

  A step of the swarm is a step of one session, and a call it makes is a step of the
  manager.  So what a session goes through in a run of the swarm is a run of that
  session, and what the manager goes through is a run of the manager: everything that
  was proved about the two holds in the swarm.
-/
import BitTorrentClient.App.Swarm.Books
import BitTorrentClient.App.PeerSession.Conduct
import BitTorrentClient.App.PeerSession.Pipeline
import BitTorrentClient.App.PieceManager.Totality

set_option autoImplicit false

namespace BitTorrentClient

open Library

namespace PieceManager

/-- The piece is finished already, or the block lies inside it and the piece waits for
more or can be written. -/
def Takes (sha1 : Bytes → Sha1Hash) (m : PieceManager) (idx offset : Nat) (data : Bytes) : Prop :=
  m.finished[idx]? = some true ∨
    ∃ pending, m.Accepts idx offset data pending ∧
      ((pending.receive offset data).isFinished = false ∨
        m.Verifies sha1 idx offset data pending ∧ m.fileHandler.isOpen = true)

/-- The block reaches past the end of an unfinished piece, or completes one that does
not have the announced hash. -/
def Refuses (sha1 : Bytes → Sha1Hash) (m : PieceManager) (idx offset : Nat) (data : Bytes) :
    Prop :=
  (∃ pending, m.finished[idx]? = some false ∧ m.openPending idx = .ok pending ∧
    pending.data.length < offset + data.length) ∨ m.Rejects sha1 idx offset data

section Reply

variable {sha1 : Bytes → Sha1Hash} {m m' : PieceManager} {idx offset : Nat} {data : Bytes}
  {fate : DiskFate} {r : Reply} {pending : PendingPiece}

/-- A block inside an unfinished piece is taken only if the piece waits for more or can
be written. -/
theorem Accepts.takes (h : m.Accepts idx offset data pending)
    (htakes : m.Takes sha1 idx offset data) :
    (pending.receive offset data).isFinished = false ∨
      m.Verifies sha1 idx offset data pending ∧ m.fileHandler.isOpen = true := by
  obtain hdone | ⟨pending', ha, hnext⟩ := htakes
  · rw [h.unfinished] at hdone
    cases hdone
  · obtain rfl := h.unique ha
    exact hnext

/-- A block inside an unfinished piece is refused only if it completes the piece with
another hash. -/
theorem Accepts.refuses (h : m.Accepts idx offset data pending)
    (hrefuses : m.Refuses sha1 idx offset data) :
    (pending.receive offset data).isFinished = true ∧ ∃ expected,
      m.verificationHashes[idx]? = some expected ∧
      expected ≠ sha1 (pending.receive offset data).data := by
  obtain ⟨pending', _, hopen, hout⟩ | ⟨pending', expected, ha, hcomplete, hhash, hne⟩ := hrefuses
  · obtain rfl := Except.ok.inj (h.opened.symm.trans hopen)
    exact absurd h.fits (Nat.not_le.mpr hout)
  · obtain rfl := h.unique ha
    exact ⟨hcomplete, expected, hhash, hne⟩

/-- The manager answers true to what it takes. -/
theorem Delivery.accepted_iff (h : m.Delivery sha1 idx offset data fate r m') :
    r = .ok true ↔ m.Takes sha1 idx offset data := by
  cases h with
  | finished hdone => exact iff_of_true rfl (Or.inl hdone)
  | outOfBounds hunfinished hopen hout =>
    refine iff_of_false (by simp) ?_
    rintro (hdone | ⟨pending', ha, _⟩)
    · rw [hunfinished] at hdone
      cases hdone
    · obtain rfl := Except.ok.inj (hopen.symm.trans ha.opened)
      exact absurd ha.fits (Nat.not_le.mpr hout)
  | stored ha hwaits => exact iff_of_true rfl (Or.inr ⟨_, ha, Or.inl hwaits⟩)
  | discarded ha hcomplete hhash hne _ =>
    refine iff_of_false (by simp) fun htakes => ?_
    obtain hwaits | ⟨hv, _⟩ := ha.takes htakes
    · rw [hcomplete] at hwaits
      cases hwaits
    · exact hne (Option.some.inj (hhash.symm.trans hv.hash))
  | threw hv hclosed =>
    refine iff_of_false (by simp) fun htakes => ?_
    obtain hwaits | ⟨_, hopen⟩ := hv.toAccepts.takes htakes
    · rw [hv.complete] at hwaits
      cases hwaits
    · rw [hclosed] at hopen
      cases hopen
  | completed hv hopen _ _ =>
    exact iff_of_true rfl (Or.inr ⟨_, hv.toAccepts, Or.inr ⟨hv, hopen⟩⟩)

/-- The manager answers false to what it refuses. -/
theorem Delivery.refused_iff (h : m.Delivery sha1 idx offset data fate r m') :
    r = .ok false ↔ m.Refuses sha1 idx offset data := by
  have hverifies : ∀ pending, m.Verifies sha1 idx offset data pending →
      ¬ m.Refuses sha1 idx offset data := by
    intro pending hv hrefuses
    obtain ⟨_, expected, hhash, hne⟩ := hv.toAccepts.refuses hrefuses
    exact hne (Option.some.inj (hhash.symm.trans hv.hash))
  cases h with
  | finished hdone =>
    refine iff_of_false (by simp) ?_
    rintro (⟨_, hunfinished, _⟩ | ⟨_, _, ha, _⟩)
    · rw [hdone] at hunfinished
      cases hunfinished
    · have hunfinished := ha.unfinished
      rw [hdone] at hunfinished
      cases hunfinished
  | outOfBounds hunfinished hopen hout =>
    exact iff_of_true rfl (Or.inl ⟨_, hunfinished, hopen, hout⟩)
  | stored ha hwaits =>
    refine iff_of_false (by simp) fun hrefuses => ?_
    rw [(ha.refuses hrefuses).1] at hwaits
    cases hwaits
  | discarded ha hcomplete hhash hne _ =>
    exact iff_of_true rfl (Or.inr ⟨_, _, ha, hcomplete, hhash, hne⟩)
  | threw hv _ => exact iff_of_false (by simp) (hverifies _ hv)
  | completed hv _ _ _ => exact iff_of_false (by simp) (hverifies _ hv)

end Reply

end PieceManager

namespace Swarm

variable {ι : Type} [DecidableEq ι] {sha1 : Bytes → Sha1Hash} {metadata : TorrentMetadata}
  {peerId : Bytes} {w w' : Swarm ι} {i : ι}
  {history : List (Transition (Swarm ι) (ι × Event))}

/-! ## The sessions -/

/-- The step as an event of the session `i`, if it is one. -/
def eventOf (i : ι) (t : Transition (Swarm ι) (ι × Event)) : Option Event :=
  if t.label.1 = i then some t.label.2 else none

/-- What the session `i` went through. -/
def sessionHistory (i : ι) (history : List (Transition (Swarm ι) (ι × Event))) :
    List (Transition PeerSession Event) :=
  Machine.project (fun w => w.sessions i) (eventOf i) history

/-- A step of the swarm is a step of its session, and leaves the others alone. -/
theorem fire_session {config : SessionConfig} {action : Action} {event : Event}
    (h : w.fire sha1 config i action = some (event, w')) :
    (w.sessions i).step config event = some (w'.sessions i) ∧
      ∀ j, j ≠ i → w'.sessions j = w.sessions j := by
  have hself : ∀ s, Function.update w.sessions i s i = s := fun s => Function.update_self ..
  rcases fire_cases h with ⟨io, s, rfl, hresume, rfl⟩ |
      ⟨fate, op, answer, m, s, rfl, _, _, hanswered, rfl⟩
  · refine ⟨?_, fun j hne => Function.update_of_ne hne _ _⟩
    rw [PeerSession.step, hresume]
    exact congrArg some (hself s).symm
  · refine ⟨?_, fun j hne => Function.update_of_ne hne _ _⟩
    rw [PeerSession.step, hanswered]
    exact congrArg some (hself s).symm

theorem refines_session (i : ι) :
    Machine.Refines (fun w : Swarm ι => w.sessions i) (eventOf i)
      (machine sha1 metadata peerId)
      (PeerSession.machine (sessionConfig metadata peerId)) := by
  intro w l w' hstep
  obtain ⟨j, event⟩ := l
  obtain ⟨action, hfire⟩ := hstep
  obtain ⟨hstep, hother⟩ := fire_session hfire
  unfold eventOf
  by_cases heq : j = i
  · subst heq
    rw [if_pos rfl]
    exact hstep
  · rw [if_neg heq]
    exact hother i (Ne.symm heq)

theorem session_init (i : ι) (w : Swarm ι) (h : (machine sha1 metadata peerId).init w) :
    (PeerSession.machine (sessionConfig metadata peerId)).init (w.sessions i) := by
  obtain ⟨disk, tracked, rfl⟩ := h
  rfl

/-- What a session goes through is a run of that session. -/
theorem session_run (hrun : (machine sha1 metadata peerId).Run history w) (i : ι) :
    (PeerSession.machine (sessionConfig metadata peerId)).Run (sessionHistory i history)
      (w.sessions i) :=
  hrun.project (refines_session i) (session_init i)

/-! ## The manager -/

/-- The step as a call of the manager, if it is one. -/
def callOf (t : Transition (Swarm ι) (ι × Event)) :
    Option (PieceManager.Op × PieceManager.Answer) :=
  match t.label.2 with
  | .io _ => none
  | .call fate answer =>
      ((t.source.sessions t.label.1).operation fate).map fun op => (op, answer)

/-- What the manager went through. -/
def managerHistory (history : List (Transition (Swarm ι) (ι × Event))) :
    List (Transition PieceManager (PieceManager.Op × PieceManager.Answer)) :=
  Machine.project manager callOf history

theorem refines_manager :
    Machine.Refines (manager : Swarm ι → PieceManager) callOf (machine sha1 metadata peerId)
      (PieceManager.machine sha1 metadata) := by
  intro w l w' hstep
  obtain ⟨j, event⟩ := l
  obtain ⟨action, hfire⟩ := hstep
  rcases fire_cases hfire with ⟨io, s, rfl, _, rfl⟩ |
      ⟨fate, op, answer, m, s, rfl, hop, happly, _, rfl⟩
  · rfl
  · unfold callOf
    dsimp only
    rw [hop]
    exact happly

/-- What the manager goes through is a run of the manager. -/
theorem manager_run (hrun : (machine sha1 metadata peerId).Run history w) :
    (PieceManager.machine sha1 metadata).Run (managerHistory history) w.manager := by
  refine hrun.project refines_manager fun w hinit => ?_
  obtain ⟨disk, tracked, rfl⟩ := hinit
  exact ⟨disk, tracked, rfl⟩

/-- What the manager answers to a delivery. -/
theorem delivery_of_step {event : Event} {index offset : Nat} {data : Bytes}
    (hpoint : (w.sessions i).point = .delivering index offset data)
    (hstep : (machine sha1 metadata peerId).step w (i, event) w') :
    ∃ fate r, event = .call fate (.reply r) ∧
      w.manager.Delivery sha1 index offset data fate r w'.manager := by
  have hcall := refines_manager w (i, event) w' hstep
  obtain ⟨action, hfire⟩ := hstep
  cases event with
  | io event =>
    have hresume : (w.sessions i).resume _ event = some _ := (fire_session hfire).1
    simp [PeerSession.resume, hpoint] at hresume
  | call fate answer =>
    have hop : (w.sessions i).operation fate = some (.deliverBlock index offset data fate) := by
      rw [PeerSession.operation, hpoint]
    unfold callOf at hcall
    dsimp only at hcall
    rw [hop] at hcall
    cases PieceManager.machine_step hcall with
    | delivered hd => exact ⟨fate, _, rfl, hd⟩

end Swarm

end BitTorrentClient
