/-
  App/PeerSession/Conduct.lean --- three rules of the protocol, for one session.

  A block is requested only with a bitfield of the right size at hand, and only while
  the peer does not choke us; and the set of a session holds the requests the peer
  still has to answer.  The session checks none of the three where it would have to:
  it never reads the choke flag it keeps, a missing bitfield stops nothing, and its
  set is emptied at accepted blocks only.  For each rule, the condition under which
  the messages of the peer and the answers of the manager keep it.
-/
import BitTorrentClient.App.PeerSession.Messages

set_option autoImplicit false

namespace BitTorrentClient

open Library

namespace PeerSession

variable {config : SessionConfig} {s s' : PeerSession}
  {history : List (Transition PeerSession Event)}

/-! ## Choking -/

/-- The block that the session delivers leaves room in the pipeline once it is
accepted. -/
def hasRoom (s : PeerSession) : Bool :=
  match s.point with
  | .delivering index offset data =>
      decide (0 < needed (s.forget ⟨index, offset, u32 data.length⟩).pendingBlocks.size)
  | _ => false

/-- If the manager accepts the block that the step delivers, and that leaves room in the
pipeline, the peer does not choke us. -/
def AcceptsUnchoked (older : List (Transition PeerSession Event))
    (t : Transition PeerSession Event) : Prop :=
  ∀ k, delivered t = some (k, .ok true) → t.source.hasRoom = true → choked older = false

theorem choked_of_none {t : Transition PeerSession Event} (h : received t = none) :
    choked (t :: history) = choked history := by
  rw [choked, h]

/-- The pipeline is filled up only if it has room. -/
theorem asking_refill : s.refill.asking = true ↔ 0 < needed s.pendingBlocks.size := by
  unfold refill
  cases hturns : (needed s.pendingBlocks.size).toNat with
  | zero =>
    rw [requestLoop, (loopHead_calm s).not_asking]
    simpa using Int.toNat_eq_zero.mp hturns
  | succ left =>
    refine iff_of_true rfl ?_
    omega

/-- A session that requests blocks after a block was accepted had room for them. -/
theorem Moves.hasRoom {event : Event} {k : BlockKey} (h : s.Moves config event s')
    (haccepted : delivered ⟨s, event, s'⟩ = some (k, .ok true)) (hasking : s'.asking = true) :
    s.hasRoom = true := by
  obtain ⟨index, offset, data, hpoint, _, rfl⟩ := h.delivery haccepted
  rw [PeerSession.hasRoom, hpoint]
  exact decide_eq_true (asking_refill.mp hasking)

/-- **Requests respect choking**, as long as the manager accepts no block while the peer
chokes us and the pipeline has room. -/
theorem asking_unchoked (hrun : (machine config).Run history s)
    (haccepts : Machine.Always AcceptsUnchoked history) (hasking : s.asking = true) :
    choked history = false := by
  refine hrun.always (I := fun older s => s.asking = true → choked older = false) ?_ ?_ haccepts
    hasking
  · intro s hinit hnew
    cases hinit
    cases hnew
  · intro older s event s' _ h hunchoked hstep hasking
    have hmoves := step_moves hstep
    rcases hmoves.asking hasking with ⟨hbefore, hnone⟩ | ⟨payload, hunchoke⟩ | ⟨k, haccepted⟩
    · rw [choked_of_none hnone]
      exact h hbefore
    · rw [choked, hunchoke]
    · rw [choked_of_none (received_of_delivered haccepted)]
      exact hunchoked k haccepted (hmoves.hasRoom haccepted hasking)

/-! ## The bitfield -/

/-- The size a bitfield of the torrent has. -/
def bitfieldSize (config : SessionConfig) : Nat := (config.totalNumOfPieces + 7) / 8

/-- If the session is about to call `requestBlock`, its bitfield has the right size. -/
def Sized (config : SessionConfig) (s : PeerSession) : Prop :=
  ∀ left, s.point = .requesting left → s.peerBitfield.length = bitfieldSize config

/-- If the step begins to request blocks, a bitfield of the right size has arrived. -/
def BeginsWithBitfield (config : SessionConfig) (older : List (Transition PeerSession Event))
    (t : Transition PeerSession Event) : Prop :=
  BeginsAsking t → bitfieldArrived config older = true

/-- The bitfield of a session is empty until one of the right size has arrived, and has
that size from then on. -/
def BitfieldKept (config : SessionConfig) (history : List (Transition PeerSession Event))
    (s : PeerSession) : Prop :=
  if bitfieldArrived config history = true then s.peerBitfield.length = bitfieldSize config
  else s.peerBitfield = []

theorem bitfieldArrived_of_ne {t : Transition PeerSession Event}
    (h : ∀ payload, received t ≠ some (.bitfield, payload)) :
    bitfieldArrived config (t :: history) = bitfieldArrived config history := by
  rw [bitfieldArrived]
  split
  · rename_i payload hpayload
    exact absurd hpayload (h payload)
  · rfl

theorem beginsAsking_not_bitfield {t : Transition PeerSession Event} (h : BeginsAsking t)
    (payload : Bytes) : received t ≠ some (.bitfield, payload) := by
  rcases h with ⟨_, hunchoke⟩ | ⟨_, haccepted⟩
  · rw [hunchoke]
    simp
  · rw [received_of_delivered haccepted]
    simp

/-- A step that is no BITFIELD message keeps the bitfield. -/
theorem BitfieldKept.same {t : Transition PeerSession Event}
    (h : BitfieldKept config history s) (hbits : s'.peerBitfield = s.peerBitfield)
    (hne : ∀ payload, received t ≠ some (.bitfield, payload)) :
    BitfieldKept config (t :: history) s' := by
  unfold BitfieldKept
  rw [bitfieldArrived_of_ne hne, hbits]
  exact h

/-- A message that is handled replaces the bitfield by one of the right size, or keeps
it. -/
theorem BitfieldKept.handled {t : Transition PeerSession Event}
    (h : BitfieldKept config history s) (hhandled : s.Handled config (received t) s') :
    BitfieldKept config (t :: history) s' := by
  generalize hmessage : received t = message at hhandled
  cases hhandled with
  | choke => exact h.same (same_loopHead _).peerBitfield (by simp [hmessage])
  | unchoke => exact h.same (same_refill _).peerBitfield (by simp [hmessage])
  | piece _ => exact h.same rfl (by simp [hmessage])
  | malformed _ => exact h.same rfl (by simp [hmessage])
  | ignored hother =>
    refine h.same (same_loopHead s).peerBitfield fun payload hbitfield => ?_
    exact (hother _ _ (hmessage.symm.trans hbitfield)).2.2.1 rfl
  | @bitfield payload =>
    unfold BitfieldKept
    rw [bitfieldArrived, hmessage]
    by_cases hsize : payload.length = (config.totalNumOfPieces + 7) / 8
    · have hnew : s.handleBitfield config payload = { s with peerBitfield := payload } := by
        rw [handleBitfield, if_neg (not_not.mpr hsize)]
      rw [hnew]
      simp [suspend, hsize, bitfieldSize]
    · have hold : s.handleBitfield config payload = s.setState .error := by
        rw [handleBitfield, if_pos hsize]
      rw [hold]
      simp only [hsize, decide_false, Bool.false_or]
      exact h

theorem BitfieldKept.step {event : Event} (h : BitfieldKept config history s)
    (hmoves : s.Moves config event s') : BitfieldKept config (⟨s, event, s'⟩ :: history) s' := by
  cases hmoves with
  | quiet _ hsame _ hnone => exact h.same hsame.peerBitfield (by simp [hnone])
  | message _ hhandled => exact h.handled hhandled
  | interested hpoint =>
    exact h.same ((same_setState s _).trans (same_loopHead _)).peerBitfield (by simp [received])
  | @written block left len ok hpoint =>
    refine h.same ?_ (by simp [received])
    unfold requestWritten
    split
    · exact (same_returnLoop s _ _).peerBitfield
    · exact (same_requestLoop { s with pendingBlocks := s.pendingBlocks.insert block } left).2
  | called hanswered =>
    refine h.same ?_ (by simp [received])
    cases hanswered with
    | accepted _ => exact (same_refill _).peerBitfield
    | refused _ => exact (same_loopHead s).peerBitfield
    | threw _ => rfl
    | nothing _ => exact (same_requestLoop s _).peerBitfield
    | block _ => rfl
    | returned _ => exact (same_returnLoop s _ _).peerBitfield

theorem bitfieldKept_of_run (hrun : (machine config).Run history s) :
    BitfieldKept config history s := by
  refine hrun.always (G := fun _ _ => True) ?_ ?_ fun _ _ _ => trivial
  · intro s hinit
    cases hinit
    rfl
  · intro older s event s' _ h _ hstep
    exact h.step (step_moves hstep)

/-- In runs that begin to request blocks only when the bitfield has arrived, it is there
whenever they do. -/
theorem arrived_of_asking (hrun : (machine config).Run history s)
    (hbegins : Machine.Always (BeginsWithBitfield config) history) (hasking : s.asking = true) :
    bitfieldArrived config history = true := by
  refine hrun.always (I := fun older s => s.asking = true → bitfieldArrived config older = true)
    ?_ ?_ hbegins hasking
  · intro s hinit hnew
    cases hinit
    cases hnew
  · intro older s event s' _ h hguard hstep hasking
    rcases (step_moves hstep).asking hasking with ⟨hbefore, hnone⟩ | hbegin
    · rw [bitfieldArrived_of_ne (by simp [hnone])]
      exact h hbefore
    · rw [bitfieldArrived_of_ne (beginsAsking_not_bitfield hbegin)]
      exact hguard hbegin

/-- The pipeline of an empty set is filled up. -/
theorem refill_of_empty (h : ∀ k, ¬ s.pendingBlocks.Has k) :
    s.refill.point = .requesting 31 := by
  have hle : s.pendingBlocks.size ≤ ([] : List BlockKey).length :=
    KeyedSet.size_le fun k hk => absurd hk (h k)
  have hsize : s.pendingBlocks.size = 0 := Nat.le_zero.mp hle
  unfold refill
  rw [hsize]
  rfl

/-- A session with an empty set that begins to request blocks does request one. -/
theorem Moves.requesting {event : Event} (h : s.Moves config event s')
    (hempty : ∀ k, ¬ s.pendingBlocks.Has k) (hbegins : BeginsAsking ⟨s, event, s'⟩) :
    s'.point = .requesting 31 := by
  obtain ⟨payload, hunchoke⟩ | ⟨k, haccepted⟩ := hbegins
  · obtain ⟨_, _, hhandled⟩ := h.handled hunchoke
    cases hhandled with
    | unchoke => exact refill_of_empty hempty
    | ignored hother => exact absurd rfl (hother _ _ rfl).2.1
  · obtain ⟨index, offset, data, hpoint, _, rfl⟩ := h.delivery haccepted
    exact refill_of_empty fun k hk => hempty k (KeyedSet.has_erase.mp hk).1

/-- A session that is not requesting blocks adds none to its set. -/
theorem Moves.has {event : Event} {k : BlockKey} (h : s.Moves config event s')
    (hasking : s.asking = false) (hk : s'.pendingBlocks.Has k) : s.pendingBlocks.Has k := by
  cases h with
  | quiet _ hsame _ _ => exact hsame.pendingBlocks ▸ hk
  | message _ hhandled => exact hhandled.pendingBlocks ▸ hk
  | interested _ => exact ((same_setState s _).trans (same_loopHead _)).pendingBlocks ▸ hk
  | written hpoint =>
    rw [PeerSession.asking, hpoint] at hasking
    cases hasking
  | called hanswered => exact hanswered.has hk

theorem bitfieldArrived_mono {t : Transition PeerSession Event}
    (h : bitfieldArrived config history = true) : bitfieldArrived config (t :: history) = true := by
  rw [bitfieldArrived]
  split
  · rw [h, Bool.or_true]
  · exact h

theorem BitfieldKept.eq_nil (h : BitfieldKept config history s)
    (hmissing : bitfieldArrived config history = false) : s.peerBitfield = [] := by
  unfold BitfieldKept at h
  rwa [if_neg (Bool.eq_false_iff.mp hmissing)] at h

/-- The session calls `requestBlock` with a bitfield of the right size only. -/
def AsksSized (config : SessionConfig) (history : List (Transition PeerSession Event)) : Prop :=
  Machine.Always (fun _ t => Sized config t.target) history

/-- A step that begins to request blocks, with an empty set and no bitfield, does so with
a bitfield of the wrong size. -/
theorem Moves.not_sized {event : Event} (h : s.Moves config event s')
    (hpieces : 0 < config.totalNumOfPieces) (hempty : ∀ k, ¬ s.pendingBlocks.Has k)
    (hnil : s'.peerBitfield = []) (hbegins : BeginsAsking ⟨s, event, s'⟩) :
    ¬ Sized config s' := by
  intro hsized
  have hlength := hsized 31 (h.requesting hempty hbegins)
  rw [hnil, bitfieldSize, List.length_nil] at hlength
  omega

/-- A session that never asks with a bitfield of the wrong size requests nothing before
the bitfield has arrived. -/
theorem idle_of_missing (hrun : (machine config).Run history s)
    (hpieces : 0 < config.totalNumOfPieces) (hsized : AsksSized config history)
    (hmissing : bitfieldArrived config history = false) :
    (∀ k, ¬ s.pendingBlocks.Has k) ∧ s.asking = false := by
  refine hrun.always (I := fun older s => bitfieldArrived config older = false →
    (∀ k, ¬ s.pendingBlocks.Has k) ∧ s.asking = false) ?_ ?_ hsized hmissing
  · intro s hinit _
    cases hinit
    exact ⟨KeyedSet.has_empty, rfl⟩
  · intro older s event s' hsofar h hsized hstep hmissing
    have hbefore : bitfieldArrived config older = false := by
      cases harrived : bitfieldArrived config older with
      | false => rfl
      | true => rw [bitfieldArrived_mono harrived] at hmissing; cases hmissing
    obtain ⟨hempty, hidle⟩ := h hbefore
    have hmoves := step_moves hstep
    have hnil := (bitfieldKept_of_run (hsofar.snoc hstep)).eq_nil hmissing
    refine ⟨fun k hk => hempty k (hmoves.has hidle hk), Bool.eq_false_iff.mpr fun hasking => ?_⟩
    rcases hmoves.asking hasking with ⟨hasked, _⟩ | hbegins
    · rw [hidle] at hasked
      cases hasked
    · exact hmoves.not_sized hpieces hempty hnil hbegins hsized

theorem BitfieldKept.sized (h : BitfieldKept config history s)
    (hsize : config.totalNumOfPieces = 0 ∨ bitfieldArrived config history = true) :
    s.peerBitfield.length = bitfieldSize config := by
  unfold BitfieldKept at h
  split at h
  · exact h
  · rename_i hmissing
    obtain hnone | harrived := hsize
    · rw [h, bitfieldSize, hnone, List.length_nil]
    · exact absurd harrived hmissing

/-- **The size of the bitfield.**  A session asks with a bitfield of the right size only,
if and only if there is no piece to ask for, or the session begins to request blocks
only after a bitfield of the right size has arrived. -/
theorem asksSized_iff (hrun : (machine config).Run history s) :
    AsksSized config history ↔
      config.totalNumOfPieces = 0 ∨ Machine.Always (BeginsWithBitfield config) history := by
  constructor
  · intro hsized
    by_cases hpieces : config.totalNumOfPieces = 0
    · exact Or.inl hpieces
    · refine Or.inr fun t older hsuffix hbegins => ?_
      have hpos : 0 < config.totalNumOfPieces := Nat.pos_of_ne_zero hpieces
      obtain ⟨hsofar, hstep⟩ := hrun.of_suffix hsuffix
      have hkept := bitfieldKept_of_run (hsofar.snoc hstep)
      by_contra hmissing
      have hmissing : bitfieldArrived config older = false := Bool.eq_false_iff.mpr hmissing
      obtain ⟨hempty, _⟩ := idle_of_missing hsofar hpos
        (Machine.Always.of_suffix hsized ((List.suffix_cons _ _).trans hsuffix)) hmissing
      have hnil : t.target.peerBitfield = [] := by
        refine hkept.eq_nil ?_
        rwa [bitfieldArrived_of_ne (beginsAsking_not_bitfield hbegins)]
      exact (step_moves hstep).not_sized hpos hempty hnil hbegins (hsized t older hsuffix)
  · intro hwhen t older hsuffix left hpoint
    obtain ⟨hsofar, hstep⟩ := hrun.of_suffix hsuffix
    have hrun' := hsofar.snoc hstep
    refine (bitfieldKept_of_run hrun').sized (hwhen.imp_right fun hbegins => ?_)
    have hasking : t.target.asking = true := by rw [asking, hpoint]
    exact arrived_of_asking hrun' (hbegins.of_suffix hsuffix) hasking

end PeerSession

end BitTorrentClient
