/-
  App/PeerSession/Pipeline.lean --- whether the set of a session holds live requests.

  The peer drops what it was asked for when it sends a CHOKE, and a PIECE message
  answers the request that it names.  The set of a session loses a block in one place,
  when the manager accepts its delivery.  So a request dies in the set in two ways: a
  CHOKE finds blocks in the set, or the manager refuses a block of the set.  Without
  these two, the set holds live requests only, whatever else happens.
-/
import BitTorrentClient.App.PeerSession.Messages

set_option autoImplicit false

namespace BitTorrentClient

open Library

namespace PeerSession

variable {config : SessionConfig} {s s' : PeerSession} {k : BlockKey}
  {history : List (Transition PeerSession Event)}

/-- The block of the PIECE message that is being handled. -/
def deliveringKey (s : PeerSession) : Option BlockKey :=
  match s.point with
  | .delivering index offset _ => some (blockKey index offset)
  | _ => none

/-- A CHOKE finds the set empty, and a block that the manager refuses is not in it. -/
def KeepsLive (t : Transition PeerSession Event) : Prop :=
  (∀ payload, received t = some (.choke, payload) → ∀ k, ¬ t.source.pendingBlocks.Has k) ∧
  ∀ k, delivered t = some (k, .ok false) → ¬ t.source.pendingBlocks.Has k

/-- The set holds requests that the peer still has to answer, and no more than there
are. -/
structure LiveRequests (history : List (Transition PeerSession Event)) (s : PeerSession) :
    Prop where
  live : ∀ k, s.pendingBlocks.Has k → outstanding k history = true
  /-- so the free slots of the pipeline are not under-counted -/
  slots : s.pendingBlocks.size ≤ (unanswered history).length

/-! ## The requests to answer -/

theorem outstanding_of_none {t : Transition PeerSession Event} (hreceived : received t = none)
    (hrequested : requested t = none) : outstanding k (t :: history) = outstanding k history := by
  rw [outstanding, hreceived, hrequested]

/-- A request stays to be answered unless a CHOKE or its block comes. -/
theorem outstanding_mono {t : Transition PeerSession Event}
    (h : outstanding k history = true) (hchoke : ∀ payload, received t ≠ some (.choke, payload))
    (hpiece : ∀ payload, received t = some (.piece, payload) → pieceKey payload ≠ some k) :
    outstanding k (t :: history) = true := by
  rw [outstanding]
  split
  · rename_i payload hreceived
    exact absurd hreceived (hchoke payload)
  · rename_i payload hreceived
    rw [h, Bool.and_true]
    exact decide_eq_true (hpiece payload hreceived)
  · rw [h, Bool.or_true]
  · exact h

/-- A request that was written has to be answered. -/
theorem outstanding_requested {t : Transition PeerSession Event} {block : Block}
    (h : requested t = some block) : outstanding block.key (t :: history) = true := by
  have hreceived : received t = none := by
    unfold requested at h
    split at h
    · rename_i hpoint _
      simp [received, hpoint]
    · cases h
  rw [outstanding, hreceived, h]
  simp

/-- What has to be answered was requested. -/
theorem mem_unanswered (h : outstanding k history = true) : k ∈ unanswered history := by
  refine List.mem_filter.mpr ⟨List.mem_dedup.mpr ?_, h⟩
  induction history with
  | nil => cases h
  | cons t older ih =>
    have hlater : outstanding k older = true →
        k ∈ (t :: older).filterMap fun t => (requested t).map Block.key := by
      intro holder
      obtain ⟨u, hu, hkey⟩ := List.mem_filterMap.mp (ih holder)
      exact List.mem_filterMap.mpr ⟨u, List.mem_cons_of_mem t hu, hkey⟩
    rw [outstanding] at h
    split at h
    · cases h
    · exact hlater (Bool.and_eq_true_iff.mp h).2
    · rename_i block hrequested _ _
      rcases Bool.or_eq_true_iff.mp h with hkey | holder
      · refine List.mem_filterMap.mpr ⟨t, List.mem_cons_self, ?_⟩
        rw [hrequested, Option.map_some, of_decide_eq_true hkey]
      · exact hlater holder
    · exact hlater h

theorem LiveRequests.of_outstanding
    (h : ∀ k, s.pendingBlocks.Has k → outstanding k history = true) :
    LiveRequests history s :=
  ⟨h, KeyedSet.size_le fun k hk => mem_unanswered (h k hk)⟩

/-! ## One step -/

/-- Unless the session has ended, each block of its set has to be answered, or its answer
is being handled. -/
def Owed (history : List (Transition PeerSession Event)) (s : PeerSession) : Prop :=
  s.finishing = false → ∀ k, s.pendingBlocks.Has k →
    outstanding k history = true ∨ s.deliveringKey = some k

theorem deliveringKey_of_calm (h : s.Calm) : s.deliveringKey = none := by
  unfold Calm listening finishing at h
  unfold deliveringKey
  cases hpoint : s.point <;> simp_all

theorem finishing_of_listening (h : s.listening = true) : s.finishing = false := by
  unfold listening at h
  unfold finishing
  cases hpoint : s.point <;> simp_all

/-- A live session at rest has not left the loop and delivers nothing. -/
theorem idle_of_atRest (hlive : s.Live) (hrest : s.atRest = true) :
    s.finishing = false ∧ s.deliveringKey = none := by
  unfold atRest at hrest
  unfold Live at hlive
  unfold finishing deliveringKey
  cases hpoint : s.point <;> simp_all

/-- A step that adds nothing to the set and answers nothing. -/
theorem Owed.keep {t : Transition PeerSession Event} (h : Owed history s)
    (hstays : s.finishing = false) (hidle : s.deliveringKey = none)
    (hset : s'.pendingBlocks = s.pendingBlocks)
    (hmono : ∀ k, outstanding k history = true → outstanding k (t :: history) = true) :
    Owed (t :: history) s' := by
  intro _ k hk
  rcases h hstays k (hset ▸ hk) with howed | hkey
  · exact Or.inl (hmono k howed)
  · rw [hidle] at hkey
    cases hkey

theorem mono_of_ne {t : Transition PeerSession Event}
    (hchoke : ∀ payload, received t ≠ some (.choke, payload))
    (hpiece : ∀ payload, received t ≠ some (.piece, payload)) (k : BlockKey)
    (h : outstanding k history = true) : outstanding k (t :: history) = true :=
  outstanding_mono h hchoke fun payload hp => absurd hp (hpiece payload)

theorem mono_of_none {t : Transition PeerSession Event} (hnone : received t = none) (k : BlockKey)
    (h : outstanding k history = true) : outstanding k (t :: history) = true :=
  mono_of_ne (by simp [hnone]) (by simp [hnone]) k h

/-- A message answers what it names and, a CHOKE apart, nothing else. -/
theorem Handled.owed {len : Nat} {t : Transition PeerSession Event} (h : Owed history s)
    (hpoint : s.point = .readingPayload len)
    (hguard : ∀ payload, received t = some (.choke, payload) → ∀ k, ¬ s.pendingBlocks.Has k)
    (hhandled : s.Handled config (received t) s') : Owed (t :: history) s' := by
  have hstays : s.finishing = false := by rw [finishing, hpoint]
  have hidle : s.deliveringKey = none := by rw [deliveringKey, hpoint]
  have hset := hhandled.pendingBlocks
  generalize hmessage : received t = message at hhandled hguard
  cases hhandled with
  | choke =>
    intro _ k hk
    exact absurd (hset ▸ hk) (hguard _ rfl k)
  | unchoke =>
    exact h.keep hstays hidle hset (mono_of_ne (by simp [hmessage]) (by simp [hmessage]))
  | bitfield =>
    exact h.keep hstays hidle hset (mono_of_ne (by simp [hmessage]) (by simp [hmessage]))
  | ignored hother =>
    refine h.keep hstays hidle hset (mono_of_ne (fun payload hchoke => ?_) fun payload hpiece => ?_)
    · exact (hother _ _ (hmessage.symm.trans hchoke)).1 rfl
    · exact (hother _ _ (hmessage.symm.trans hpiece)).2.2.2 rfl
  | @piece payload index offset data hparse =>
    intro _ k hk
    have hkey : pieceKey payload = some (blockKey index offset) := by rw [pieceKey, hparse]
    by_cases hthis : blockKey index offset = k
    · exact Or.inr (congrArg some hthis)
    · rcases h hstays k hk with howed | hdelivering
      · refine Or.inl (outstanding_mono howed (by simp [hmessage]) fun payload' hpiece => ?_)
        obtain ⟨_, rfl⟩ := Prod.mk.inj (Option.some.inj (hmessage.symm.trans hpiece))
        rw [hkey]
        exact fun heq => hthis (Option.some.inj heq)
      · rw [hidle] at hdelivering
        cases hdelivering
  | malformed _ =>
    intro hstays'
    cases hstays'

theorem received_call (fate : DiskFate) (answer : PieceManager.Answer) :
    received ⟨s, .call fate answer, s'⟩ = none := by
  simp [received]

/-- A delivery takes its block out of the set, or is refused. -/
theorem Answered.owed {fate : DiskFate} {answer : PieceManager.Answer}
    (hanswered : s.Answered answer s') (h : Owed history s)
    (hguard : ∀ k, delivered ⟨s, .call fate answer, s'⟩ = some (k, .ok false) →
      ¬ s.pendingBlocks.Has k) : Owed (⟨s, .call fate answer, s'⟩ :: history) s' := by
  have hmono : ∀ k, outstanding k history = true →
      outstanding k (⟨s, .call fate answer, s'⟩ :: history) = true :=
    mono_of_none (received_call fate answer)
  cases hanswered with
  | @accepted index offset data hpoint =>
    intro _ k hk
    have hk := (same_refill (s.forget ⟨index, offset, u32 data.length⟩)).pendingBlocks ▸ hk
    obtain ⟨hheld, hother⟩ := KeyedSet.has_erase.mp hk
    rcases h (by rw [finishing, hpoint]) k hheld with howed | hkey
    · exact Or.inl (hmono k howed)
    · rw [deliveringKey, hpoint] at hkey
      exact absurd (Option.some.inj hkey).symm hother
  | @refused index offset data hpoint =>
    intro _ k hk
    have hk := (same_loopHead s).pendingBlocks ▸ hk
    rcases h (by rw [finishing, hpoint]) k hk with howed | hkey
    · exact Or.inl (hmono k howed)
    · rw [deliveringKey, hpoint] at hkey
      obtain rfl := Option.some.inj hkey
      exact absurd hk (hguard _ (by rw [delivered, hpoint]))
  | threw _ =>
    intro hstays
    cases hstays
  | nothing hpoint =>
    exact h.keep (by rw [finishing, hpoint]) (by rw [deliveringKey, hpoint])
      (same_requestLoop s _).pendingBlocks hmono
  | block hpoint =>
    exact h.keep (by rw [finishing, hpoint]) (by rw [deliveringKey, hpoint]) rfl hmono
  | @returned block rest after r hpoint =>
    cases after with
    | request left =>
      exact h.keep (by rw [finishing, hpoint]) (by rw [deliveringKey, hpoint])
        (same_returnLoop s _ _).pendingBlocks hmono
    | finish =>
      intro hstays
      rw [finishing_returnLoop] at hstays
      cases hstays

theorem requestWritten_owed {block : Block} {left len : Nat} {ok : Bool} (h : Owed history s)
    (hpoint : s.point = .writingRequest block left) :
    Owed (⟨s, .io (.wrote ok len), s.requestWritten block left ok⟩ :: history)
      (s.requestWritten block left ok) := by
  have hmono : ∀ k, outstanding k history = true →
      outstanding k (⟨s, .io (.wrote ok len), s.requestWritten block left ok⟩ :: history) = true :=
    mono_of_none (by simp [received])
  have hstays : s.finishing = false := by rw [finishing, hpoint]
  have hidle : s.deliveringKey = none := by rw [deliveringKey, hpoint]
  cases ok with
  | false =>
    exact h.keep hstays hidle
      (same_returnLoop s (.request left) s.pendingBlocks.elems).pendingBlocks
      hmono
  | true =>
    intro _ k hk
    have hk := (same_requestLoop { s with pendingBlocks := s.pendingBlocks.insert block }
      left).pendingBlocks ▸ hk
    rcases KeyedSet.has_insert.mp hk with hk | rfl
    · rcases h hstays k hk with howed | hkey
      · exact Or.inl (hmono k howed)
      · rw [hidle] at hkey
        cases hkey
    · exact Or.inl (outstanding_requested (by rw [requested, hpoint]))

theorem Owed.step {event : Event} (h : Owed history s) (hguard : KeepsLive ⟨s, event, s'⟩)
    (hmoves : s.Moves config event s') : Owed (⟨s, event, s'⟩ :: history) s' := by
  obtain ⟨hchoke, hrefused⟩ := hguard
  cases hmoves with
  | quiet hlistening hsame _ hnone =>
    exact h.keep (finishing_of_listening hlistening) (deliveringKey_of_calm (Or.inl hlistening))
      hsame.pendingBlocks (mono_of_none hnone)
  | message hpoint hhandled => exact hhandled.owed h hpoint hchoke
  | interested hpoint =>
    exact h.keep (by rw [finishing, hpoint]) (by rw [deliveringKey, hpoint])
      ((same_setState s _).trans (same_loopHead _)).pendingBlocks
      (mono_of_none (by simp [received]))
  | written hpoint => exact requestWritten_owed h hpoint
  | called hanswered => exact hanswered.owed h hrefused

theorem deliveringKey_requestLoop (left : Nat) : (s.requestLoop left).deliveringKey = none := by
  cases left with
  | zero => exact deliveringKey_of_calm (loopHead_calm s)
  | succ left => rfl

theorem deliveringKey_returnLoop (after : AfterReturn) (blocks : List Block) :
    (s.returnLoop after blocks).deliveringKey = none := by
  cases blocks with
  | nil =>
    cases after with
    | request left => exact deliveringKey_requestLoop left
    | finish => rfl
  | cons block rest => rfl

theorem Handled.deliveringKey {message : Option (Msg.Id × Bytes)}
    (h : s.Handled config message s') (hkey : s'.deliveringKey = some k) :
    ∃ payload, message = some (.piece, payload) ∧ pieceKey payload = some k := by
  cases h with
  | choke =>
    rw [deliveringKey_of_calm (loopHead_calm _)] at hkey
    cases hkey
  | unchoke =>
    rw [refill, deliveringKey_requestLoop] at hkey
    cases hkey
  | bitfield => cases hkey
  | piece hparse => exact ⟨_, rfl, by rw [pieceKey, hparse]; exact hkey⟩
  | malformed _ => cases hkey
  | ignored _ =>
    rw [deliveringKey_of_calm (loopHead_calm _)] at hkey
    cases hkey

/-- A block is about to be delivered right after the PIECE message that brought it. -/
theorem Moves.deliveringKey {event : Event} (h : s.Moves config event s')
    (hkey : s'.deliveringKey = some k) :
    ∃ payload, received ⟨s, event, s'⟩ = some (.piece, payload) ∧ pieceKey payload = some k := by
  cases h with
  | quiet _ _ hcalm _ =>
    rw [deliveringKey_of_calm hcalm] at hkey
    cases hkey
  | message _ hhandled => exact hhandled.deliveringKey hkey
  | interested _ =>
    rw [deliveringKey_of_calm (loopHead_calm _)] at hkey
    cases hkey
  | written _ =>
    unfold requestWritten at hkey
    split at hkey
    · rw [returnBlocks, deliveringKey_returnLoop] at hkey
      cases hkey
    · rw [deliveringKey_requestLoop] at hkey
      cases hkey
  | called hanswered =>
    cases hanswered with
    | accepted _ =>
      rw [refill, deliveringKey_requestLoop] at hkey
      cases hkey
    | refused _ =>
      rw [deliveringKey_of_calm (loopHead_calm _)] at hkey
      cases hkey
    | threw _ => cases hkey
    | nothing _ =>
      rw [deliveringKey_requestLoop] at hkey
      cases hkey
    | block _ => cases hkey
    | returned _ =>
      rw [deliveringKey_returnLoop] at hkey
      cases hkey

/-- The block that is about to be delivered has been answered. -/
theorem answered_of_delivering (hrun : (machine config).Run history s)
    (hkey : s.deliveringKey = some k) : outstanding k history = false := by
  cases hrun with
  | start hs =>
    cases hs
    cases hkey
  | snoc _ hstep =>
    obtain ⟨payload, hreceived, hnamed⟩ := (step_moves hstep).deliveringKey hkey
    rw [outstanding, hreceived]
    simp [hnamed]

/-! ## Runs -/

theorem sane_of_run (hrun : (machine config).Run history s) : s.Sane := by
  refine hrun.invariant ?_ fun s event s' h hstep => h.step hstep
  intro s hinit
  cases hinit
  exact sane_new

theorem owed_of_run (hrun : (machine config).Run history s)
    (hkeeps : Machine.Always (fun _ => KeepsLive) history) : Owed history s := by
  refine hrun.always ?_ ?_ hkeeps
  · intro s hinit _ k hk
    cases hinit
    exact absurd hk (KeyedSet.has_empty k)
  · intro older s event s' _ h hguard hstep
    exact h.step hguard (step_moves hstep)

/-- Whenever the session waits for a message, its set holds live requests. -/
def StaysLive (history : List (Transition PeerSession Event)) : Prop :=
  Machine.Always (fun older t => t.target.listening = true → LiveRequests (t :: older) t.target)
    history

/-- A CHOKE leads back to the loop. -/
theorem Moves.choke {event : Event} {payload : Bytes} (h : s.Moves config event s')
    (hchoke : received ⟨s, event, s'⟩ = some (.choke, payload)) (hsane : s.Sane) :
    s'.listening = true ∧ s'.pendingBlocks = s.pendingBlocks := by
  obtain ⟨len, hpoint, hhandled⟩ := h.handled hchoke
  unfold Sane at hsane
  rw [hpoint] at hsane
  cases hhandled with
  | choke =>
    have hrun : Running { s with peerChoking := true } := hsane
    rw [hrun.loopHead]
    exact ⟨rfl, rfl⟩
  | ignored hother => exact absurd rfl (hother _ _ rfl).1

/-- A refused delivery leads back to the loop. -/
theorem Moves.refused {event : Event} (h : s.Moves config event s')
    (hrefused : delivered ⟨s, event, s'⟩ = some (k, .ok false)) (hsane : s.Sane) :
    s.deliveringKey = some k ∧ s'.listening = true ∧ s'.pendingBlocks = s.pendingBlocks := by
  obtain ⟨index, offset, data, hpoint, rfl, rfl⟩ := h.delivery hrefused
  have hkey : s.deliveringKey = some (blockKey index offset) := by
    rw [PeerSession.deliveringKey, hpoint]
  rw [afterDelivery, (hsane.running hpoint (Or.inl ⟨_, _, _, rfl⟩)).loopHead]
  exact ⟨hkey, rfl, rfl⟩

/-- **The set holds live requests**, whenever the session waits for a message, if and
only if every CHOKE finds the set empty and the manager refuses no block of the set. -/
theorem staysLive_iff (hrun : (machine config).Run history s) :
    StaysLive history ↔ Machine.Always (fun _ => KeepsLive) history := by
  constructor
  · intro hlive t older hsuffix
    obtain ⟨hsofar, hstep⟩ := hrun.of_suffix hsuffix
    have hsane := sane_of_run hsofar
    have hmoves := step_moves hstep
    have hlive := hlive t older hsuffix
    refine ⟨fun payload hchoke k hk => ?_, fun k hrefused hk => ?_⟩
    · obtain ⟨hlistening, hset⟩ := hmoves.choke hchoke hsane
      have howed := (hlive hlistening).live k (hset ▸ hk)
      rw [outstanding, hchoke] at howed
      cases howed
    · obtain ⟨hkey, hlistening, hset⟩ := hmoves.refused hrefused hsane
      have howed := (hlive hlistening).live k (hset ▸ hk)
      rw [outstanding_of_none (received_of_delivered hrefused) (requested_of_delivered hrefused),
        answered_of_delivering hsofar hkey] at howed
      cases howed
  · intro hkeeps t older hsuffix hlistening
    obtain ⟨hsofar, hstep⟩ := hrun.of_suffix hsuffix
    have howed := owed_of_run (hsofar.snoc hstep) (hkeeps.of_suffix hsuffix)
    refine LiveRequests.of_outstanding fun k hk => ?_
    rcases howed (finishing_of_listening hlistening) k hk with h | hkey
    · exact h
    · rw [deliveringKey_of_calm (Or.inl hlistening)] at hkey
      cases hkey

end PeerSession

end BitTorrentClient
