/-
  App/Swarm/Effort.lean --- how much a session does before it reads again.

  A message makes a session ask for up to 32 blocks, one after another.  The loop goes
  on after a request that could not be written, and such a turn first gives back every
  block of the set; the set stays as it is, so the next turn may do the same.  The work
  for one message is therefore not linear in the size of the pipeline.  `requestEffort`
  is the most that such a loop comes to, and the state keeps what is left of it.
-/
import BitTorrentClient.App.PeerSession.Capacity
import BitTorrentClient.App.Swarm.Once
import Mathlib.Algebra.BigOperators.Ring.Finset
import Mathlib.Algebra.Order.BigOperators.Group.Finset

set_option autoImplicit false

namespace BitTorrentClient

open Library

/-- The socket delivered what was waited for, or failed to. -/
def Event.isRead : Event → Bool
  | .io (.read _) => true
  | _ => false

/-- The most steps that a loop of so many turns takes, from a set of so many blocks: in
each turn a call and a write, and after a write that failed a call for every block. -/
def requestEffort : Nat → Nat → Nat
  | _, 0 => 0
  | pending, left + 1 =>
      2 + max (pending + requestEffort pending left) (requestEffort (pending + 1) left)

/-! ## The loop that requests blocks -/

theorem requestEffort_mono (left : Nat) : Monotone fun pending => requestEffort pending left := by
  induction left with
  | zero => exact fun _ _ _ => Nat.le_refl _
  | succ left ih =>
    refine monotone_nat_of_le_succ fun pending => ?_
    have hfails := ih (Nat.le_succ pending)
    have hwrites := ih (Nat.le_succ (pending + 1))
    simp only [requestEffort, Nat.succ_eq_add_one] at hfails hwrites ⊢
    omega

/-- The worst is that the first turns succeed and the others fail. -/
theorem requestEffort_le_product (left : Nat) :
    ∀ pending, ∃ failing ≤ left,
      requestEffort pending left ≤ 2 * left + failing * (pending + left - failing) := by
  induction left with
  | zero => exact fun _ => ⟨0, Nat.le_refl _, Nat.zero_le _⟩
  | succ left ih =>
    intro pending
    obtain ⟨f, hf, hle⟩ := ih pending
    obtain ⟨g, hg, hle'⟩ := ih (pending + 1)
    rcases Nat.le_total (pending + requestEffort pending left)
        (requestEffort (pending + 1) left) with h | h
    · refine ⟨g, Nat.le_succ_of_le hg, ?_⟩
      rw [requestEffort, max_eq_right h]
      have hsame : pending + 1 + left - g = pending + (left + 1) - g := by omega
      rw [hsame] at hle'
      omega
    · refine ⟨f + 1, Nat.succ_le_succ hf, ?_⟩
      rw [requestEffort, max_eq_left h]
      have hsame : pending + (left + 1) - (f + 1) = pending + left - f := by omega
      have hpaid : pending ≤ pending + left - f := by omega
      rw [hsame, Nat.add_mul f 1, Nat.one_mul]
      omega

/-- With room for every block that may come into the set: 32 turns, and 16 of them give 16
blocks back. -/
theorem requestEffort_le {pending left : Nat} (hroom : pending + left ≤ maxPipelineSize) :
    requestEffort pending left ≤ 320 := by
  obtain ⟨f, hf, hle⟩ := requestEffort_le_product left pending
  have hroom : pending + left ≤ 32 := hroom
  have hsquare : 4 * f * (pending + left - f) ≤ 32 ^ 2 :=
    calc 4 * f * (pending + left - f) ≤ (f + (pending + left - f)) ^ 2 := four_mul_le_sq_add _ _
      _ ≤ 32 ^ 2 := Nat.pow_le_pow_left (by omega) 2
  rw [Nat.mul_assoc] at hsquare
  omega

namespace PeerSession

variable {config : SessionConfig} {s s' : PeerSession} {event : Event}
  {history : List (Transition PeerSession Event)}

/-- How often the session waited for its peer. -/
def reads (history : List (Transition PeerSession Event)) : Nat :=
  history.countP fun t => t.label.isRead

/-- The most steps that the session takes before it reads from the socket. -/
def effort (s : PeerSession) : Nat :=
  let pending := s.pendingBlocks.size
  match s.point with
  | .readingHandshake | .readingLength | .readingPayload _ | .ended => 0
  | .writingHandshake _ | .loggingEndpoint | .writingInterested => 1
  | .connecting => 2
  | .delivering _ _ _ => 321
  | .requesting left => requestEffort pending (left + 1)
  | .writingRequest _ left =>
      1 + max (pending + requestEffort pending left) (requestEffort (pending + 1) left)
  | .returning _ rest (.request left) => rest.length + 1 + requestEffort pending left
  | .returning _ rest .finish => rest.length + 1

/-! ## Where a step ends -/

@[simp] theorem effort_loopHead (s : PeerSession) : s.loopHead.effort = 0 := by
  rcases loopHead_cases s with h | h
  · rw [h]
    rfl
  · rw [h]
    rfl

@[simp] theorem effort_run (s : PeerSession) : s.run.effort = 0 := effort_loopHead _

@[simp] theorem effort_requestLoop (s : PeerSession) (left : Nat) :
    (s.requestLoop left).effort = requestEffort s.pendingBlocks.size left := by
  cases left with
  | zero => exact effort_loopHead s
  | succ left => rfl

theorem effort_returnLoop_request (s : PeerSession) (left : Nat) (blocks : List Block) :
    (s.returnLoop (.request left) blocks).effort =
      blocks.length + requestEffort s.pendingBlocks.size left := by
  cases blocks with
  | nil =>
    rw [List.length_nil, Nat.zero_add]
    exact effort_requestLoop s left
  | cons block rest => rfl

theorem effort_returnLoop_finish (s : PeerSession) (blocks : List Block) :
    (s.returnLoop .finish blocks).effort = blocks.length := by
  cases blocks with
  | nil => rfl
  | cons block rest => rfl

theorem effort_refill (h : s.pendingBlocks.size ≤ maxPipelineSize) : s.refill.effort ≤ 320 := by
  rw [refill, effort_requestLoop]
  apply requestEffort_le
  rw [(needed_of_le h).2, Int.toNat_natCast]
  omega

/-! ## One step -/

/-- A call leaves less to do. -/
theorem Answered.effort_lt {answer : PieceManager.Answer} (hroom : s.HasRoom)
    (h : s.Answered answer s') : s'.effort < s.effort := by
  cases h with
  | @accepted index offset data hpoint =>
    have hset := Nat.le_trans (KeyedSet.size_erase_le s.pendingBlocks
      ⟨index, offset, u32 data.length⟩) hroom.size_le
    have hrefill := effort_refill (s := s.forget ⟨index, offset, u32 data.length⟩) hset
    have hhere : s.effort = 321 := by rw [effort, hpoint]
    omega
  | refused hpoint =>
    rw [effort_loopHead, effort, hpoint]
    exact Nat.succ_pos _
  | threw hpoint =>
    rw [effort, effort, hpoint]
    exact Nat.succ_pos _
  | @nothing left hpoint =>
    rw [effort_requestLoop, effort, hpoint]
    have hless := Nat.le_max_left
      (s.pendingBlocks.size + requestEffort s.pendingBlocks.size left)
      (requestEffort (s.pendingBlocks.size + 1) left)
    simp only [requestEffort]
    omega
  | @block left block hpoint =>
    have hturn : (s.suspend (.writingRequest block left)).effort =
        1 + max (s.pendingBlocks.size + requestEffort s.pendingBlocks.size left)
          (requestEffort (s.pendingBlocks.size + 1) left) := rfl
    rw [hturn, effort, hpoint]
    simp only [requestEffort]
    omega
  | @returned block rest after r hpoint =>
    cases after with
    | request left =>
      rw [effort_returnLoop_request, effort, hpoint]
      simp only
      omega
    | finish =>
      rw [effort_returnLoop_finish, effort, hpoint]
      exact Nat.lt_succ_self _

/-- Whether its request was written or not, a turn of the loop is over. -/
theorem effort_requestWritten {block : Block} {left : Nat} (ok : Bool)
    (hpoint : s.point = .writingRequest block left) :
    (s.requestWritten block left ok).effort < s.effort := by
  have hturn : s.effort =
      1 + max (s.pendingBlocks.size + requestEffort s.pendingBlocks.size left)
        (requestEffort (s.pendingBlocks.size + 1) left) := by
    rw [effort, hpoint]
  cases ok with
  | false =>
    have hreturn : (s.requestWritten block left false).effort =
        s.pendingBlocks.size + requestEffort s.pendingBlocks.size left :=
      effort_returnLoop_request s left s.pendingBlocks.elems
    omega
  | true =>
    have hloop : (s.requestWritten block left true).effort =
        requestEffort (s.pendingBlocks.insert block).size left := effort_requestLoop _ left
    have hinsert := KeyedSet.size_insert_le s.pendingBlocks block
    have hmono := requestEffort_mono left hinsert
    dsimp only at hmono
    omega

theorem effort_connectDone {connection : Connection} (hpoint : s.point = .connecting)
    (h : s.connectDone config connection = some s') : s'.effort < s.effort := by
  have hhere : s.effort = 2 := by rw [effort, hpoint]
  unfold connectDone at h
  dsimp only at h
  split at h
  · rename_i handshake _
    have hwriting : s'.effort = 1 := by
      rw [← Option.some.inj h]
      rfl
    omega
  · cases h

theorem effort_handshakeWritten {handshake : HandshakeMsg} (ok : Bool) (len : Nat)
    (hpoint : s.point = .writingHandshake handshake) :
    (s.handshakeWritten handshake ok len).effort < s.effort := by
  have hhere : s.effort = 1 := by rw [effort, hpoint]
  have hthere : (s.handshakeWritten handshake ok len).effort = 0 := by
    unfold handshakeWritten
    split
    · exact effort_run _
    · split
      · exact effort_run _
      · rfl
  omega

/-- Whatever a session does without reading leaves it with less to do. -/
theorem effort_lt (hroom : s.HasRoom) (hstep : s.step config event = some s')
    (hfree : event.isRead = false) : s'.effort < s.effort := by
  cases event with
  | call fate answer => exact (answered_answered hstep).effort_lt hroom
  | io event =>
    change s.resume config event = some s' at hstep
    unfold resume at hstep
    split at hstep
    · rename_i hpoint
      exact effort_connectDone hpoint hstep
    · rename_i hpoint
      cases hstep
      exact effort_handshakeWritten _ _ hpoint
    · cases hfree
    · rename_i known hpoint
      have hhere : s.effort = 1 := by rw [effort, hpoint]
      cases hstep
      cases known with
      | true =>
        rw [if_pos rfl, effort_run, hhere]
        exact Nat.one_pos
      | false =>
        rw [if_neg Bool.false_ne_true, hhere]
        exact Nat.one_pos
    · cases hfree
    · cases hfree
    · rename_i hpoint
      cases hstep
      rw [effort_loopHead, effort, hpoint]
      exact Nat.one_pos
    · rename_i hpoint
      cases hstep
      exact effort_requestWritten _ hpoint
    · cases hstep

theorem effort_handshakeRead {bytes : Option Bytes}
    (h : s.handshakeRead config bytes = some s') : s'.effort ≤ 321 := by
  unfold handshakeRead at h
  split at h
  · cases h
    rw [effort_run]
    exact Nat.zero_le _
  · split at h
    · split at h
      · cases h
        rw [effort_run]
        exact Nat.zero_le _
      · cases h
        have hlogging : (s.suspend .loggingEndpoint).effort = 1 := rfl
        omega
    · cases h

/-- A connection that is lost gives the blocks of the set back. -/
theorem effort_lost (hroom : s.HasRoom) :
    ((s.setState .error).returnBlocks .finish).effort ≤ 321 := by
  have hset : s.pendingBlocks.elems.length ≤ 32 := hroom.size_le
  have hreturn := effort_returnLoop_finish (s.setState .error) s.pendingBlocks.elems
  have hsame : (s.setState .error).returnBlocks .finish =
      (s.setState .error).returnLoop .finish s.pendingBlocks.elems := rfl
  rw [hsame, hreturn]
  omega

theorem effort_lengthRead {bytes : Option Bytes} (hroom : s.HasRoom)
    (h : s.lengthRead bytes = some s') : s'.effort ≤ 321 := by
  unfold lengthRead at h
  split at h
  · cases h
    exact effort_lost hroom
  · split at h
    · cases h
      split
      · rw [effort_loopHead]
        exact Nat.zero_le _
      · exact Nat.zero_le _
    · cases h

theorem Handled.effort_le {message : Option (Msg.Id × Bytes)} (hroom : s.HasRoom)
    (h : s.Handled config message s') : s'.effort ≤ 321 := by
  cases h with
  | choke =>
    rw [effort_loopHead]
    exact Nat.zero_le _
  | unchoke =>
    have hrefill := effort_refill (s := { s with peerChoking := false }) hroom.size_le
    omega
  | @bitfield payload =>
    have hwriting : ((s.handleBitfield config payload).suspend .writingInterested).effort = 1 := rfl
    omega
  | piece _ => exact Nat.le_refl _
  | malformed _ => exact Nat.zero_le _
  | ignored _ =>
    rw [effort_loopHead]
    exact Nat.zero_le _

theorem effort_payloadRead {len : Nat} {bytes : Option Bytes} (hroom : s.HasRoom)
    (h : s.payloadRead config len bytes = some s') : s'.effort ≤ 321 := by
  unfold payloadRead at h
  split at h
  · cases h
    exact effort_lost hroom
  · cases h
  · rename_i msgId payload
    split at h
    · cases h
      exact (handleMessage_handled msgId payload).effort_le hroom
    · cases h

/-- After a read there is one message to handle at most. -/
theorem effort_le (hroom : s.HasRoom) (hstep : s.step config event = some s')
    (hread : event.isRead = true) : s'.effort ≤ 321 := by
  cases event with
  | call fate answer => cases hread
  | io event =>
    change s.resume config event = some s' at hstep
    unfold resume at hstep
    split at hstep
    · cases hread
    · cases hread
    · exact effort_handshakeRead hstep
    · cases hread
    · exact effort_lengthRead hroom hstep
    · exact effort_payloadRead hroom hstep
    · cases hread
    · cases hread
    · cases hstep

/-! ## Runs -/

/-- In every stretch of a run of a session, each read is followed by 321 steps at most. -/
theorem length_le_reads {later earlier : List (Transition PeerSession Event)}
    (hrun : (machine config).Run (later ++ earlier) s) :
    later.length ≤ 322 * reads later + 321 := by
  have hrank : later.length + s.effort ≤ (321 + 1) * reads later + 321 := by
    refine Machine.Run.length_le_of_rank effort Event.isRead ?_ ?_ ?_ hrun
    · intro s hinit
      cases hinit
      exact (by decide : 2 ≤ 321)
    · intro older s event s' hsofar hstep hfree
      exact effort_lt (hasRoom_of_run hsofar) hstep hfree
    · intro older s event s' hsofar hstep hread
      exact effort_le (hasRoom_of_run hsofar) hstep hread
  omega

/-! ## Messages that bring blocks -/

/-- The step received a PIECE message. -/
def isPiece (t : Transition PeerSession Event) : Bool :=
  match received t with
  | some (.piece, _) => true
  | _ => false

/-- How many PIECE messages came. -/
def pieces (history : List (Transition PeerSession Event)) : Nat := history.countP isPiece

/-- How often the session waited for anything else; a PIECE message takes two reads. -/
def otherReads (history : List (Transition PeerSession Event)) : Nat :=
  reads history - 2 * pieces history

/-- How many blocks were delivered. -/
def deliveries (history : List (Transition PeerSession Event)) : Nat :=
  history.countP fun t => (arrived t).isSome

/-- One if there may be a PIECE message that brought no block yet. -/
def unbrought (s : PeerSession) : Nat :=
  match s.point with
  | .delivering _ _ _ | .ended => 1
  | _ => 0

theorem unbrought_le (s : PeerSession) : s.unbrought ≤ 1 := by
  unfold unbrought
  split
  · exact Nat.le_refl 1
  · exact Nat.le_refl 1
  · exact Nat.zero_le 1

theorem unbrought_of_listening (h : s.listening = true) : s.unbrought = 0 := by
  unfold listening at h
  unfold unbrought
  split
  · rename_i hpoint
    simp [hpoint] at h
  · rename_i hpoint
    simp [hpoint] at h
  · rfl

theorem Handled.unbrought {payload : Bytes}
    (h : s.Handled config (some (.piece, payload)) s') : s'.unbrought = 1 := by
  cases h with
  | piece _ => rfl
  | malformed _ => rfl
  | ignored hother => exact absurd rfl (hother _ _ rfl).2.2.2

/-- Only a delivery is called for with a block to deliver. -/
theorem Answered.unbrought {answer : PieceManager.Answer} (h : s.Answered answer s')
    (fate : DiskFate) (hnone : (arrived ⟨s, .call fate answer, s'⟩).isSome = false) :
    s.unbrought = 0 := by
  cases h with
  | accepted hpoint =>
    rw [arrived, hpoint] at hnone
    cases hnone
  | refused hpoint =>
    rw [arrived, hpoint] at hnone
    cases hnone
  | threw hpoint =>
    rw [arrived, hpoint] at hnone
    cases hnone
  | nothing hpoint => rw [PeerSession.unbrought, hpoint]
  | block hpoint => rw [PeerSession.unbrought, hpoint]
  | returned hpoint => rw [PeerSession.unbrought, hpoint]

/-- A step that receives no PIECE message, at a point without a block to deliver. -/
theorem pieces_idle (h : pieces history ≤ deliveries history + s.unbrought)
    (hidle : s.unbrought = 0) (hpiece : isPiece ⟨s, event, s'⟩ = false) :
    pieces (⟨s, event, s'⟩ :: history) ≤
      deliveries (⟨s, event, s'⟩ :: history) + s'.unbrought := by
  have hpieces : pieces (⟨s, event, s'⟩ :: history) = pieces history :=
    List.countP_cons_of_neg (by rw [hpiece]; exact Bool.false_ne_true)
  have hdeliveries : deliveries history ≤ deliveries (⟨s, event, s'⟩ :: history) :=
    List.Sublist.countP_le (List.sublist_cons_self _ _)
  omega

/-- A PIECE message brings a block, or is the last thing that the session reads. -/
theorem pieces_step (h : pieces history ≤ deliveries history + s.unbrought)
    (hstep : s.step config event = some s') :
    pieces (⟨s, event, s'⟩ :: history) ≤
      deliveries (⟨s, event, s'⟩ :: history) + s'.unbrought := by
  cases step_moves hstep with
  | quiet hlistening _ _ hreceived =>
    exact pieces_idle h (unbrought_of_listening hlistening) (by rw [isPiece, hreceived])
  | @message len event s' hpoint hhandled =>
    have hidle : s.unbrought = 0 := by rw [unbrought, hpoint]
    cases hpiece : isPiece ⟨s, .io event, s'⟩ with
    | false => exact pieces_idle h hidle hpiece
    | true =>
      obtain ⟨payload, hreceived⟩ : ∃ payload,
          received ⟨s, .io event, s'⟩ = some (.piece, payload) := by
        unfold isPiece at hpiece
        split at hpiece
        · rename_i payload hreceived
          exact ⟨payload, hreceived⟩
        · cases hpiece
      rw [hreceived] at hhandled
      have hpieces : pieces (⟨s, .io event, s'⟩ :: history) = pieces history + 1 :=
        List.countP_cons_of_pos hpiece
      have hdeliveries : deliveries history ≤ deliveries (⟨s, .io event, s'⟩ :: history) :=
        List.Sublist.countP_le (List.sublist_cons_self _ _)
      have hbrings := hhandled.unbrought
      omega
  | interested hpoint =>
    exact pieces_idle h (by rw [unbrought, hpoint]) (by simp [isPiece, received])
  | written hpoint =>
    exact pieces_idle h (by rw [unbrought, hpoint]) (by simp [isPiece, received])
  | @called fate answer s' hanswered =>
    have hpiece : isPiece ⟨s, .call fate answer, s'⟩ = false := by
      rw [isPiece, received_call]
    cases hnone : (arrived ⟨s, .call fate answer, s'⟩).isSome with
    | false => exact pieces_idle h (hanswered.unbrought fate hnone) hpiece
    | true =>
      have hpieces : pieces (⟨s, .call fate answer, s'⟩ :: history) = pieces history :=
        List.countP_cons_of_neg (by rw [hpiece]; exact Bool.false_ne_true)
      have hdeliveries : deliveries (⟨s, .call fate answer, s'⟩ :: history) =
          deliveries history + 1 := List.countP_cons_of_pos hnone
      have hlast := unbrought_le s
      omega

theorem pieces_le (hrun : (machine config).Run history s) :
    pieces history ≤ deliveries history + 1 := by
  have hall : pieces history ≤ deliveries history + s.unbrought := by
    induction hrun with
    | start hs => exact Nat.zero_le _
    | snoc _ hlast ih => exact pieces_step ih hlast
  have hlast := unbrought_le s
  omega

end PeerSession

namespace Swarm

variable {ι : Type} [DecidableEq ι] {sha1 : Bytes → Sha1Hash} {metadata : TorrentMetadata}
  {peerId : Bytes} {w : Swarm ι} {later earlier : List (Transition (Swarm ι) (ι × Event))}

theorem sessionHistory_append (i : ι) :
    sessionHistory i (later ++ earlier) = sessionHistory i later ++ sessionHistory i earlier :=
  List.filterMap_append

/-- Every step is a step of one session. -/
theorem countP_eq_sum [Fintype ι] (counted : Transition PeerSession Event → Bool)
    (history : List (Transition (Swarm ι) (ι × Event))) :
    history.countP (fun t => counted (turnOf t)) =
      ∑ i, (sessionHistory i history).countP counted := by
  induction history with
  | nil => simp [sessionHistory, Machine.project]
  | cons t older ih =>
    have hone : ∀ i, (sessionHistory i (t :: older)).countP counted =
        (sessionHistory i older).countP counted +
          if t.label.1 = i then (if counted (turnOf t) = true then 1 else 0) else 0 := by
      intro i
      unfold sessionHistory
      by_cases hi : t.label.1 = i
      · subst hi
        have hread : eventOf t.label.1 t = some t.label.2 := if_pos rfl
        rw [Machine.project_cons_some hread, if_pos rfl, List.countP_cons]
        rfl
      · have hread : eventOf i t = none := if_neg hi
        rw [Machine.project_cons_none hread, if_neg hi, Nat.add_zero]
    rw [List.countP_cons, ih, Finset.sum_congr rfl fun i _ => hone i, Finset.sum_add_distrib,
      Finset.sum_ite_eq, if_pos (Finset.mem_univ _)]

theorem length_eq_sum [Fintype ι] (history : List (Transition (Swarm ι) (ι × Event))) :
    history.length = ∑ i, (sessionHistory i history).length := by
  have hcount := countP_eq_sum (fun _ => true) history
  simpa only [List.countP_true] using hcount

theorem arrivals_eq_sum [Fintype ι] (history : List (Transition (Swarm ι) (ι × Event))) :
    (arrivals history).length = ∑ i, PeerSession.deliveries (sessionHistory i history) := by
  rw [arrivals, List.length_filterMap_eq_countP]
  refine Eq.trans ?_ (countP_eq_sum _ history)
  refine List.countP_congr fun t _ => ?_
  rw [Option.isSome_map]

theorem session_length_le (hrun : (machine sha1 metadata peerId).Run (later ++ earlier) w)
    (i : ι) :
    (sessionHistory i later).length ≤
      322 * PeerSession.reads (sessionHistory i later) + 321 := by
  have hview := session_run hrun i
  rw [sessionHistory_append] at hview
  exact PeerSession.length_le_reads hview

theorem length_le [Fintype ι] (hrun : (machine sha1 metadata peerId).Run (later ++ earlier) w) :
    later.length ≤
      322 * ∑ i, PeerSession.reads (sessionHistory i later) + 321 * Fintype.card ι :=
  calc later.length = ∑ i, (sessionHistory i later).length := length_eq_sum later
    _ ≤ ∑ i, (322 * PeerSession.reads (sessionHistory i later) + 321) :=
        Finset.sum_le_sum fun i _ => session_length_le hrun i
    _ = 322 * ∑ i, PeerSession.reads (sessionHistory i later) + 321 * Fintype.card ι := by
        rw [Finset.sum_add_distrib, ← Finset.mul_sum, Finset.sum_const, Finset.card_univ,
          nsmul_eq_mul, Nat.cast_id, Nat.mul_comm (Fintype.card ι)]

/-- **The work for a message is bounded.**  Take any stretch of any run of any number of
sessions, in any interleaving, whatever the peers and the disk do.  A session takes at most
321 steps in it, and 322 more for every time that it read from its socket; and there are no
other steps. -/
theorem work_bounded [Fintype ι] (hrun : (machine sha1 metadata peerId).Run (later ++ earlier) w) :
    (∀ i, (sessionHistory i later).length ≤
      322 * PeerSession.reads (sessionHistory i later) + 321) ∧
    later.length ≤
      322 * ∑ i, PeerSession.reads (sessionHistory i later) + 321 * Fintype.card ι :=
  ⟨session_length_le hrun, length_le hrun⟩

/-- A torrent of 32 pieces of one byte. -/
def manyPieces : TorrentMetadata :=
  { oneBlock with
    info := { oneBlock.info with
      pieceHashes := List.replicate 32 PieceManager.sevenDigest
      rawPieces := (List.replicate 32 PieceManager.sevenDigest.toList).flatten
      fileLength := 32 } }

/-- A peer unchokes us; half of the requests go out, and each of the others fails.  After
each failure the whole set is given back, most of which the manager has back already. -/
def halfWritten : List (Unit × Action) :=
  let sent : List Action := [.call .written, .io (.wrote true 17)]
  let unsent : List Action := [.call .written, .io (.wrote false 0)] ++ asking 16
  (opening oneBlock.infoHash [255, 255, 255, 255] ++ (List.replicate 16 sent).flatten ++
    (List.replicate 16 unsent).flatten).map fun action => ((), action)

/-- So many steps are taken between two reads. -/
example : (fireAll PieceManager.sampleSha1 (sessionConfig manyPieces samplePeerId)
    (new manyPieces PieceManager.emptyFile true) halfWritten []).any (fun r =>
      decide ((r.2.sessions ()).point = .readingLength ∧ r.1.length = 9 + 320)) = true := by
  decide +kernel

theorem work_bounded_oneBlock :
    ∃ history, ∃ w : Swarm Unit,
      (machine PieceManager.sampleSha1 oneBlock samplePeerId).Run history w ∧
      PeerSession.reads (sessionHistory () history) = 5 ∧ history.length ≤ 322 * 5 + 321 := by
  have hfire : (fireAll PieceManager.sampleSha1 (sessionConfig oneBlock samplePeerId)
      (new oneBlock PieceManager.emptyFile true)
      ((opening oneBlock.infoHash [128] ++ asked true 31).map fun action => ((), action)) []).any
      (fun r => decide (PeerSession.reads (sessionHistory () r.1) = 5)) = true := by
    decide +kernel
  obtain ⟨history, w, hrun, hreads⟩ := exists_run hfire
  have hreads := of_decide_eq_true hreads
  have hstretch :
      (machine PieceManager.sampleSha1 oneBlock samplePeerId).Run (history ++ []) w := by
    rwa [List.append_nil]
  have hwork := (work_bounded hstretch).2
  rw [Fintype.sum_unique, Fintype.card_unit, Nat.mul_one] at hwork
  refine ⟨history, w, hrun, hreads, ?_⟩
  rwa [← hreads]

/-- **A download takes a bounded number of steps.**  In every run of any number of sessions,
in any interleaving, in which peers are honest and the disk works, the steps that all
sessions took are no more than so many for each block of the torrent, for each session, and
for each read that was no part of a PIECE message. -/
theorem download_bounded [Fintype ι] {contents : Nat → Bytes}
    {history : List (Transition (Swarm ι) (ι × Event))}
    (hannounced : PieceManager.Announced sha1 metadata contents)
    (hrun : (machine sha1 metadata peerId).Run history w)
    (hhonest : Machine.Guarded (fun w l => w.honest contents l = true) history) :
    history.length ≤
      322 * (2 * (PieceManager.totalCount metadata contents + Fintype.card ι) +
        ∑ i, PeerSession.otherReads (sessionHistory i history)) + 321 * Fintype.card ι := by
  have hblocks : (arrivals history).length ≤ PieceManager.totalCount metadata contents := by
    have hserved := (kept_of_run hannounced hrun hhonest).served hannounced hrun
    have honce := once_of_run hannounced hrun hhonest
    exact Nat.le_trans honce.arrivals_le (honce.requests_le hserved)
  have hreads : ∀ i, PeerSession.reads (sessionHistory i history) ≤
      2 * (PeerSession.deliveries (sessionHistory i history) + 1) +
        PeerSession.otherReads (sessionHistory i history) := by
    intro i
    have hpieces := PeerSession.pieces_le (session_run hrun i)
    unfold PeerSession.otherReads
    omega
  have hall : ∑ i, PeerSession.reads (sessionHistory i history) ≤
      2 * (PieceManager.totalCount metadata contents + Fintype.card ι) +
        ∑ i, PeerSession.otherReads (sessionHistory i history) := by
    calc ∑ i, PeerSession.reads (sessionHistory i history)
        ≤ ∑ i, (2 * (PeerSession.deliveries (sessionHistory i history) + 1) +
            PeerSession.otherReads (sessionHistory i history)) :=
          Finset.sum_le_sum fun i _ => hreads i
      _ = 2 * ((arrivals history).length + Fintype.card ι) +
            ∑ i, PeerSession.otherReads (sessionHistory i history) := by
          rw [Finset.sum_add_distrib, ← Finset.mul_sum, Finset.sum_add_distrib, ← arrivals_eq_sum,
            Finset.sum_const, Finset.card_univ, nsmul_eq_mul, Nat.cast_id, Nat.mul_one]
      _ ≤ _ := by omega
  have hstretch : (machine sha1 metadata peerId).Run (history ++ []) w := by
    rwa [List.append_nil]
  have hwork := length_le hstretch
  omega

/-- Two sessions, each of which reads five times besides its block. -/
theorem download_bounded_twoPieces :
    ∃ history, ∃ w : Swarm Bool,
      (machine PieceManager.sampleSha1 PieceManager.zeroSevenSeven samplePeerId).Run history w ∧
      w.manager.isComplete = true ∧
      history.length ≤ 322 * (2 * (2 + 2) + 2 * 5) + 321 * 2 := by
  have hfire : (fireAll PieceManager.sampleSha1
      (sessionConfig PieceManager.zeroSevenSeven samplePeerId)
      (new PieceManager.zeroSevenSeven PieceManager.emptyFile true) download []).any (fun r =>
        r.1.all (fun t => t.source.honest PieceManager.zeroSevenPieces t.label) &&
        decide (r.2.manager.isComplete = true ∧
          ∀ i, PeerSession.otherReads (sessionHistory i r.1) = 5)) = true := by
    decide +kernel
  obtain ⟨history, w, hrun, hchecks⟩ := exists_run hfire
  simp only [Bool.and_eq_true, List.all_eq_true, decide_eq_true_eq] at hchecks
  obtain ⟨hsteps, hcomplete, hother⟩ := hchecks
  have hwork := download_bounded announced_zeroSevenSeven hrun hsteps
  rw [Finset.sum_congr rfl fun i _ => hother i, Finset.sum_const, Finset.card_univ,
    totalCount_zeroSevenSeven, Fintype.card_bool, nsmul_eq_mul] at hwork
  exact ⟨history, w, hrun, hcomplete, hwork⟩

end Swarm

end BitTorrentClient
