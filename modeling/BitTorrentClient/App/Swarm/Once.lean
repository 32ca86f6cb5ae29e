/-
  App/Swarm/Once.lean --- every block is asked for once and arrives once.

  Read off the history of the swarm are the requests that were written and the blocks
  that were delivered, each with the session it went through.  Between the two, and
  before the first, a block is with one session only: the manager hands a block out
  once (`Service`), a session that writes a request is the only one that answers for
  it (`Exclusive`), and a block that was delivered is not pending again.  `Once` puts
  this together step by step, and counting the blocks of the torrent bounds both lists.
-/
import BitTorrentClient.App.Swarm.Download
import BitTorrentClient.App.Swarm.Refill
import Mathlib.Algebra.BigOperators.Group.Finset.Piecewise

set_option autoImplicit false

namespace BitTorrentClient

open Library

namespace PeerSession

variable {config : SessionConfig} {s s' : PeerSession} {event : Event} {k : BlockKey}

/-- The block that the step delivered. -/
def arrived (t : Transition PeerSession Event) : Option BlockKey :=
  match t.source.point, t.label with
  | .delivering index offset _, .call _ _ => some (blockKey index offset)
  | _, _ => none

theorem arrived_eq_some {t : Transition PeerSession Event} (h : arrived t = some k) :
    ∃ index offset data fate answer, t.source.point = .delivering index offset data ∧
      t.label = .call fate answer ∧ k = blockKey index offset := by
  unfold arrived at h
  split at h
  · rename_i hpoint hlabel
    cases h
    exact ⟨_, _, _, _, _, hpoint, hlabel, rfl⟩
  · cases h

theorem requested_eq_some {t : Transition PeerSession Event} {block : Block}
    (h : requested t = some block) :
    ∃ left len, t.source.point = .writingRequest block left ∧ t.label = .io (.wrote true len) := by
  unfold requested at h
  split at h
  · rename_i hpoint hlabel
    cases h
    exact ⟨_, _, hpoint, hlabel⟩
  · cases h

/-- A session answers a call without adding to its set. -/
theorem Answered.less {answer : PieceManager.Answer} (h : s.Answered answer s')
    (hk : s'.pendingBlocks.Has k) : s.pendingBlocks.Has k := by
  cases h with
  | accepted _ =>
    rw [(same_refill _).pendingBlocks] at hk
    exact (KeyedSet.has_erase.mp hk).1
  | refused _ => exact (same_loopHead s).pendingBlocks ▸ hk
  | threw _ => exact hk
  | nothing _ => exact (same_requestLoop s _).pendingBlocks ▸ hk
  | block _ => exact hk
  | returned _ => exact (same_returnLoop s _ _).pendingBlocks ▸ hk

/-- What is in the set was there before, or was just asked for. -/
theorem Moves.held (h : s.Moves config event s') (hk : s'.pendingBlocks.Has k) :
    s.pendingBlocks.Has k ∨ ∃ block, requested ⟨s, event, s'⟩ = some block ∧ block.key = k := by
  cases h with
  | quiet _ hsame _ _ => exact Or.inl (hsame.pendingBlocks ▸ hk)
  | message _ hhandled => exact Or.inl (hhandled.pendingBlocks ▸ hk)
  | interested _ =>
    rw [(same_loopHead _).pendingBlocks] at hk
    exact Or.inl hk
  | @written block left len ok hpoint =>
    cases ok with
    | false =>
      replace hk : (s.returnBlocks (.request left)).pendingBlocks.Has k := hk
      rw [returnBlocks, (same_returnLoop s _ _).pendingBlocks] at hk
      exact Or.inl hk
    | true =>
      have hset : (s.requestWritten block left true).pendingBlocks =
          s.pendingBlocks.insert block :=
        (same_requestLoop _ _).pendingBlocks
      rw [hset] at hk
      rcases KeyedSet.has_insert.mp hk with hold | rfl
      · exact Or.inl hold
      · refine Or.inr ⟨block, ?_, rfl⟩
        rw [requested, hpoint]
  | called hanswered => exact Or.inl (hanswered.less hk)

end PeerSession

namespace PieceManager

variable {metadata : TorrentMetadata} {contents : Nat → Bytes} {m m' : PieceManager}
  {history : List (Transition PieceManager (Op × Answer))} {p : Nat}

/-- No block is handed out twice. -/
theorem Served.handed_keys (h : Served metadata contents history m) (hp : p < metadata.numPieces) :
    ((handedOut p history).map Block.key).Nodup := by
  obtain ⟨j, ks, hexchanged⟩ := h.exchanged p hp
  have hkeys : ((handedOut p history).map Block.key).reverse =
      (List.range j).map fun k => blockKey p (k * blockLen) := by
    rw [← List.map_reverse, hexchanged.handed, List.map_map]
    rfl
  rw [← List.nodup_reverse, hkeys]
  refine List.Nodup.map (fun k k' heq => ?_) List.nodup_range
  obtain ⟨_, hoffset⟩ := blockKey_inj.mp heq
  exact Nat.eq_of_mul_eq_mul_right (by decide) hoffset

theorem handedOut_subset {t : Transition PieceManager (Op × Answer)} {block : Block}
    (h : block ∈ handedOut p history) : block ∈ handedOut p (t :: history) := by
  rw [handedOut]
  split
  · split
    · exact List.mem_cons_of_mem _ h
    · exact h
  · exact h

theorem handedOut_lent {op : Op} {block : Block} :
    handedOut block.pieceIndex (⟨m, (op, .block (some block)), m'⟩ :: history) =
      block :: handedOut block.pieceIndex history :=
  if_pos rfl

theorem deliveredTo_subset {t : Transition PieceManager (Op × Answer)} {f : Received}
    (h : f ∈ deliveredTo p history) : f ∈ deliveredTo p (t :: history) := by
  rw [deliveredTo]
  split
  · split
    · exact List.mem_cons_of_mem _ h
    · exact h
  · exact h

/-- A delivery counts once. -/
theorem deliveryCount_delivery_eq {idx offset : Nat} {data : Bytes} {fate : DiskFate}
    {answer : Answer} (hidx : idx < metadata.numPieces) :
    deliveryCount metadata (⟨m, (.deliverBlock idx offset data fate, answer), m'⟩ :: history) =
      deliveryCount metadata history + 1 := by
  have hpiece : ∀ p ∈ Finset.range metadata.numPieces,
      (deliveredTo p (⟨m, (.deliverBlock idx offset data fate, answer), m'⟩ :: history)).length =
        (deliveredTo p history).length + if idx = p then 1 else 0 := by
    intro p _
    rw [deliveredTo_delivery]
    split <;> rfl
  rw [deliveryCount, Finset.sum_congr rfl hpiece, Finset.sum_add_distrib, Finset.sum_ite_eq,
    if_pos (Finset.mem_range.mpr hidx), deliveryCount]

/-- The keys of the blocks of the torrent. -/
def allKeys (metadata : TorrentMetadata) (contents : Nat → Bytes) : Finset BlockKey :=
  ((Finset.range metadata.numPieces).sigma fun p =>
    Finset.range (blockCount blockLen (contents p).length)).image fun x =>
      blockKey x.1 (x.2 * blockLen)

theorem mem_allKeys {k : BlockKey} : k ∈ allKeys metadata contents ↔
    ∃ p < metadata.numPieces, ∃ n, n * blockLen < (contents p).length ∧
      k = blockKey p (n * blockLen) := by
  unfold allKeys
  constructor
  · intro hk
    obtain ⟨x, hx, rfl⟩ := Finset.mem_image.mp hk
    obtain ⟨hp, hn⟩ := Finset.mem_sigma.mp hx
    exact ⟨x.1, Finset.mem_range.mp hp, x.2,
      (lt_blockCount_iff blockLen_pos).mp (Finset.mem_range.mp hn), rfl⟩
  · intro hk
    obtain ⟨p, hp, n, hn, rfl⟩ := hk
    refine Finset.mem_image.mpr ⟨⟨p, n⟩, Finset.mem_sigma.mpr ⟨?_, ?_⟩, rfl⟩
    · exact Finset.mem_range.mpr hp
    · exact Finset.mem_range.mpr ((lt_blockCount_iff blockLen_pos).mpr hn)

theorem card_allKeys_le : (allKeys metadata contents).card ≤ totalCount metadata contents := by
  refine Finset.card_image_le.trans (le_of_eq ?_)
  rw [Finset.card_sigma]
  exact Finset.sum_congr rfl fun p _ => Finset.card_range _

theorem deliveryCount_other {l : Op × Answer}
    (h : ∀ idx offset data fate, l.1 ≠ .deliverBlock idx offset data fate) :
    deliveryCount metadata (⟨m, l, m'⟩ :: history) = deliveryCount metadata history :=
  Finset.sum_congr rfl fun p _ => by rw [deliveredTo_of_not_delivery (h p)]

end PieceManager

namespace Swarm

variable {ι : Type} {sha1 : Bytes → Sha1Hash} {metadata : TorrentMetadata} {peerId : Bytes}
  {contents : Nat → Bytes} {w w' : Swarm ι} {i : ι} {event : Event}
  {history : List (Transition (Swarm ι) (ι × Event))} {t : Transition (Swarm ι) (ι × Event)}

/-- The step, as the session sees it that took it. -/
def turnOf (t : Transition (Swarm ι) (ι × Event)) : Transition PeerSession Event :=
  ⟨t.source.sessions t.label.1, t.label.2, t.target.sessions t.label.1⟩

/-- The requests that were written, the newest first, with the sessions that wrote them. -/
def requests (history : List (Transition (Swarm ι) (ι × Event))) : List (ι × Block) :=
  history.filterMap fun t => (PeerSession.requested (turnOf t)).map fun block => (t.label.1, block)

/-- The blocks that were delivered, the newest first, with the sessions they came to. -/
def arrivals (history : List (Transition (Swarm ι) (ι × Event))) : List (ι × BlockKey) :=
  history.filterMap fun t => (PeerSession.arrived (turnOf t)).map fun k => (t.label.1, k)

theorem requests_cons (history : List (Transition (Swarm ι) (ι × Event)))
    (t : Transition (Swarm ι) (ι × Event)) :
    (PeerSession.requested (turnOf t) = none ∧ requests (t :: history) = requests history) ∨
    ∃ block, PeerSession.requested (turnOf t) = some block ∧
      requests (t :: history) = (t.label.1, block) :: requests history := by
  rw [requests, List.filterMap_cons]
  cases PeerSession.requested (turnOf t) with
  | none => exact Or.inl ⟨rfl, rfl⟩
  | some block => exact Or.inr ⟨block, rfl, rfl⟩

theorem arrivals_cons (history : List (Transition (Swarm ι) (ι × Event)))
    (t : Transition (Swarm ι) (ι × Event)) :
    (PeerSession.arrived (turnOf t) = none ∧ arrivals (t :: history) = arrivals history) ∨
    ∃ k, PeerSession.arrived (turnOf t) = some k ∧
      arrivals (t :: history) = (t.label.1, k) :: arrivals history := by
  rw [arrivals, List.filterMap_cons]
  cases PeerSession.arrived (turnOf t) with
  | none => exact Or.inl ⟨rfl, rfl⟩
  | some k => exact Or.inr ⟨k, rfl, rfl⟩

theorem requests_subset {r : ι × Block} (h : r ∈ requests history) :
    r ∈ requests (t :: history) := by
  rcases requests_cons history t with ⟨_, hsame⟩ | ⟨_, _, hmore⟩
  · exact hsame ▸ h
  · exact hmore ▸ List.mem_cons_of_mem _ h

/-- A step is a call of the manager or none. -/
theorem managerHistory_cons (history : List (Transition (Swarm ι) (ι × Event)))
    (t : Transition (Swarm ι) (ι × Event)) :
    managerHistory (t :: history) = managerHistory history ∨
      ∃ call, managerHistory (t :: history) = call :: managerHistory history := by
  unfold managerHistory
  cases hcall : callOf t with
  | none => exact Or.inl (Machine.project_cons_none hcall)
  | some l => exact Or.inr ⟨_, Machine.project_cons_some hcall⟩

/-- A step that delivers nothing does not count. -/
theorem deliveryCount_silent (h : PeerSession.arrived (turnOf t) = none) :
    PieceManager.deliveryCount metadata (managerHistory (t :: history)) =
      PieceManager.deliveryCount metadata (managerHistory history) := by
  unfold managerHistory
  cases hcall : callOf t with
  | none => rw [Machine.project_cons_none hcall]
  | some l =>
    rw [Machine.project_cons_some hcall]
    refine PieceManager.deliveryCount_other fun idx offset data fate hlabel => ?_
    unfold callOf at hcall
    split at hcall
    · cases hcall
    · rename_i fate' answer hevent
      obtain ⟨op, hop, rfl⟩ := Option.map_eq_some_iff.mp hcall
      cases hpoint : (t.source.sessions t.label.1).point with
      | delivering index' offset' data' =>
        have hpoint' : (turnOf t).source.point = .delivering index' offset' data' := hpoint
        have hlabel' : (turnOf t).label = .call fate' answer := hevent
        rw [PeerSession.arrived, hpoint', hlabel'] at h
        cases h
      | requesting _ =>
        rw [PeerSession.operation, hpoint] at hop
        cases hop
        cases hlabel
      | returning _ _ _ =>
        rw [PeerSession.operation, hpoint] at hop
        cases hop
        cases hlabel
      | _ =>
        rw [PeerSession.operation, hpoint] at hop
        cases hop

/-- The call by which a session was lent a block. -/
theorem managerHistory_lent (history : List (Transition (Swarm ι) (ι × Event)))
    {config : SessionConfig} {fate : DiskFate} {block : Block}
    (h : (w.sessions i).Moves config (.call fate (.block (some block))) (w'.sessions i)) :
    ∃ op, managerHistory (⟨w, (i, .call fate (.block (some block))), w'⟩ :: history) =
      ⟨w.manager, (op, .block (some block)), w'.manager⟩ :: managerHistory history := by
  cases h with
  | called hanswered =>
    generalize w'.sessions i = s at hanswered
    cases hanswered with
    | block hpoint =>
      have hop : (w.sessions i).operation fate =
          some (.requestBlock (w.sessions i).peerBitfield) := by
        rw [PeerSession.operation, hpoint]
      exact ⟨_, Machine.project_cons_some
        (congrArg (Option.map fun op => (op, PieceManager.Answer.block (some block))) hop)⟩

/-- What holds of the two lists after every run of honest steps. -/
structure Once (metadata : TorrentMetadata)
    (history : List (Transition (Swarm ι) (ι × Event))) (w : Swarm ι) : Prop where
  /-- a block that is about to be asked for was never asked for -/
  unwritten : ∀ i block left, (w.sessions i).point = .writingRequest block left →
    ∀ r ∈ requests history, r.2.key ≠ block.key
  handed : ∀ r ∈ requests history, r.2.pieceIndex < metadata.numPieces ∧
    ∃ b ∈ PieceManager.handedOut r.2.pieceIndex (managerHistory history), b.key = r.2.key
  written : ∀ i k, (w.sessions i).pendingBlocks.Has k →
    ∃ block, (i, block) ∈ requests history ∧ block.key = k
  asked : ∀ a ∈ arrivals history, ∃ block, (a.1, block) ∈ requests history ∧ block.key = a.2
  delivered : ∀ a ∈ arrivals history, ∃ p f, p < metadata.numPieces ∧
    f ∈ PieceManager.deliveredTo p (managerHistory history) ∧ a.2 = blockKey p f.offset
  requestedOnce : ((requests history).map fun r => r.2.key).Nodup
  arrivedOnce : ((arrivals history).map Prod.snd).Nodup
  count : (arrivals history).length =
    PieceManager.deliveryCount metadata (managerHistory history)

theorem once_new (disk : Disk) (tracked : Bool) :
    Once metadata [] (new metadata disk tracked : Swarm ι) where
  unwritten := fun _ _ _ hpoint => by cases hpoint
  handed := fun _ hr => absurd hr List.not_mem_nil
  written := fun _ k hk => absurd hk (KeyedSet.has_empty k)
  asked := fun _ ha => absurd ha List.not_mem_nil
  delivered := fun _ ha => absurd ha List.not_mem_nil
  requestedOnce := List.nodup_nil
  arrivedOnce := List.nodup_nil
  count := (Finset.sum_const_zero (s := Finset.range metadata.numPieces)).symm

variable [DecidableEq ι]

/-- The session that took the step moved, and no other. -/
theorem turn_moves (hstep : (machine sha1 metadata peerId).step w (i, event) w') :
    (w.sessions i).Moves (sessionConfig metadata peerId) event (w'.sessions i) ∧
      ∀ j, j ≠ i → w'.sessions j = w.sessions j := by
  obtain ⟨action, hfire⟩ := hstep
  obtain ⟨hsession, hothers⟩ := fire_session hfire
  exact ⟨PeerSession.step_moves hsession, hothers⟩

/-- What a session waits for it has asked for. -/
theorem Once.written_step (h : Once metadata history w)
    (hstep : (machine sha1 metadata peerId).step w (i, event) w') (j : ι) (k : BlockKey)
    (hk : (w'.sessions j).pendingBlocks.Has k) :
    ∃ block, (j, block) ∈ requests (⟨w, (i, event), w'⟩ :: history) ∧ block.key = k := by
  obtain ⟨hmoves, hothers⟩ := turn_moves hstep
  have hold : (w.sessions j).pendingBlocks.Has k →
      ∃ block, (j, block) ∈ requests (⟨w, (i, event), w'⟩ :: history) ∧ block.key = k := by
    intro hheld
    obtain ⟨block, hmem, hkey⟩ := h.written j k hheld
    exact ⟨block, requests_subset hmem, hkey⟩
  by_cases heq : j = i
  · subst heq
    rcases hmoves.held hk with hheld | ⟨block, hrequested, hkey⟩
    · exact hold hheld
    · refine ⟨block, ?_, hkey⟩
      rcases requests_cons history ⟨w, (j, event), w'⟩ with
        ⟨hnone, _⟩ | ⟨block', hsome, hmore⟩
      · exact absurd (hrequested.symm.trans hnone) (Option.some_ne_none _)
      · obtain rfl := Option.some.inj (hrequested.symm.trans hsome)
        exact hmore ▸ List.mem_cons_self
  · rw [hothers j heq] at hk
    exact hold hk

section Step

variable (hannounced : PieceManager.Announced sha1 metadata contents)
  (hrun : (machine sha1 metadata peerId).Run history w) (hkept : Kept sha1 contents history w)
  (h : Once metadata history w)

include hannounced hrun hkept

/-- A block that a session answers for is pending, was handed out, and is a block of
the torrent. -/
theorem Kept.handed {k : BlockKey} (hk : (w.sessions i).AnswersFor k) :
    ∃ p offset, k = blockKey p offset ∧ p < metadata.numPieces ∧
      w.manager.pendingBlocks.Has (blockKey p offset) ∧
      ∃ b ∈ PieceManager.handedOut p (managerHistory history), b.key = k := by
  have hpending := (hkept.owes hrun hk).1
  obtain ⟨block, hblock, rfl⟩ := blockOf_of_pending hrun hpending
  obtain ⟨j, ks, hexchanged⟩ := (hkept.served hannounced hrun).exchanged _ hblock.index
  obtain ⟨n, _, hoffset, hmem⟩ := hexchanged.pending_block hpending
  exact ⟨block.pieceIndex, block.offset, rfl, hblock.index, hpending, _, hmem,
    blockKey_inj.mpr ⟨rfl, hoffset.symm⟩⟩

include h

/-- A request goes out for a block that was handed out and not asked for. -/
theorem Once.requested_step :
    (∀ r ∈ requests (⟨w, (i, event), w'⟩ :: history), r.2.pieceIndex < metadata.numPieces ∧
      ∃ b ∈ PieceManager.handedOut r.2.pieceIndex
        (managerHistory (⟨w, (i, event), w'⟩ :: history)), b.key = r.2.key) ∧
    ((requests (⟨w, (i, event), w'⟩ :: history)).map fun r => r.2.key).Nodup := by
  have hmono : ∀ p b, b ∈ PieceManager.handedOut p (managerHistory history) →
      b ∈ PieceManager.handedOut p (managerHistory (⟨w, (i, event), w'⟩ :: history)) := by
    intro p b hb
    rcases managerHistory_cons history ⟨w, (i, event), w'⟩ with hsame | ⟨call, hmore⟩
    · exact hsame ▸ hb
    · exact hmore ▸ PieceManager.handedOut_subset hb
  have hold : ∀ r ∈ requests history, r.2.pieceIndex < metadata.numPieces ∧
      ∃ b ∈ PieceManager.handedOut r.2.pieceIndex
        (managerHistory (⟨w, (i, event), w'⟩ :: history)), b.key = r.2.key := by
    intro r hr
    obtain ⟨hp, b, hb, hkey⟩ := h.handed r hr
    exact ⟨hp, b, hmono _ b hb, hkey⟩
  rcases requests_cons history ⟨w, (i, event), w'⟩ with
    ⟨_, hsame⟩ | ⟨block, hsome, hmore⟩
  · rw [hsame]
    exact ⟨hold, h.requestedOnce⟩
  · obtain ⟨left, len, hpoint, _⟩ := PeerSession.requested_eq_some hsome
    rw [hmore]
    refine ⟨List.forall_mem_cons.mpr ⟨?_, hold⟩, List.nodup_cons.mpr ⟨fun hmem => ?_,
      h.requestedOnce⟩⟩
    · have haccount : (w.sessions i).AnswersFor block.key :=
        (PeerSession.answersFor_at hpoint).mpr (Or.inr rfl)
      obtain ⟨p, offset, hkey, hp, _, b, hb, hb'⟩ := hkept.handed hannounced hrun haccount
      obtain ⟨rfl, rfl⟩ := blockKey_inj.mp hkey
      exact ⟨hp, b, hmono _ b hb, hb'⟩
    · obtain ⟨r, hr, hkey⟩ := List.mem_map.mp hmem
      exact h.unwritten i block left hpoint r hr hkey

variable (hhonest : w.honest contents (i, event) = true)

include hhonest

/-- A block arrives that was asked for and had not come. -/
theorem Once.arrived_step :
    (∀ a ∈ arrivals (⟨w, (i, event), w'⟩ :: history),
      ∃ block, (a.1, block) ∈ requests (⟨w, (i, event), w'⟩ :: history) ∧ block.key = a.2) ∧
    (∀ a ∈ arrivals (⟨w, (i, event), w'⟩ :: history), ∃ p f, p < metadata.numPieces ∧
      f ∈ PieceManager.deliveredTo p (managerHistory (⟨w, (i, event), w'⟩ :: history)) ∧
      a.2 = blockKey p f.offset) ∧
    ((arrivals (⟨w, (i, event), w'⟩ :: history)).map Prod.snd).Nodup ∧
    (arrivals (⟨w, (i, event), w'⟩ :: history)).length =
      PieceManager.deliveryCount metadata (managerHistory (⟨w, (i, event), w'⟩ :: history)) := by
  have hasked : ∀ a ∈ arrivals history,
      ∃ block, (a.1, block) ∈ requests (⟨w, (i, event), w'⟩ :: history) ∧ block.key = a.2 := by
    intro a ha
    obtain ⟨block, hmem, hkey⟩ := h.asked a ha
    exact ⟨block, requests_subset hmem, hkey⟩
  have hdelivered : ∀ a ∈ arrivals history, ∃ p f, p < metadata.numPieces ∧
      f ∈ PieceManager.deliveredTo p (managerHistory (⟨w, (i, event), w'⟩ :: history)) ∧
      a.2 = blockKey p f.offset := by
    intro a ha
    obtain ⟨p, f, hp, hf, hkey⟩ := h.delivered a ha
    rcases managerHistory_cons history ⟨w, (i, event), w'⟩ with hsame | ⟨call, hmore⟩
    · exact ⟨p, f, hp, hsame ▸ hf, hkey⟩
    · exact ⟨p, f, hp, hmore ▸ PieceManager.deliveredTo_subset hf, hkey⟩
  rcases arrivals_cons history ⟨w, (i, event), w'⟩ with
    ⟨hnone, hsame⟩ | ⟨k, hsome, hmore⟩
  · rw [hsame, deliveryCount_silent hnone]
    exact ⟨hasked, hdelivered, h.arrivedOnce, h.count⟩
  · obtain ⟨index, offset, data, fate, answer, hpoint, hlabel, rfl⟩ :=
      PeerSession.arrived_eq_some hsome
    replace hlabel : event = .call fate answer := hlabel
    subst hlabel
    obtain ⟨⟨hheld, _⟩, _⟩ := honest_delivering hhonest hpoint
    have haccount : (w.sessions i).AnswersFor (blockKey index offset) :=
      (PeerSession.answersFor_at hpoint).mpr hheld
    obtain ⟨p, offset', hkey, hp, hpending, _⟩ := hkept.handed hannounced hrun haccount
    obtain ⟨rfl, rfl⟩ := blockKey_inj.mp hkey
    have hcalls : managerHistory (⟨w, (i, .call fate answer), w'⟩ :: history) =
        ⟨w.manager, (.deliverBlock index offset data fate, answer), w'.manager⟩ ::
          managerHistory history := Machine.project_cons_some (callOf_delivering hpoint)
    rw [hcalls] at hdelivered
    rw [hmore, hcalls]
    refine ⟨List.forall_mem_cons.mpr ⟨?_, hasked⟩, List.forall_mem_cons.mpr ⟨?_, hdelivered⟩,
      List.nodup_cons.mpr ⟨fun hmem => ?_, h.arrivedOnce⟩, ?_⟩
    · obtain ⟨block, hmem, hblock⟩ := h.written i _ hheld
      exact ⟨block, requests_subset hmem, hblock⟩
    · refine ⟨index, ⟨offset, data⟩, hp, ?_, rfl⟩
      rw [PieceManager.deliveredTo_delivery, if_pos rfl]
      exact List.mem_cons_self
    · obtain ⟨a, ha, heq⟩ := List.mem_map.mp hmem
      obtain ⟨q, f, hq, hf, hkey'⟩ := h.delivered a ha
      obtain ⟨rfl, rfl⟩ := blockKey_inj.mp (heq.symm.trans hkey')
      exact (hkept.served hannounced hrun).fresh _ hq f hf hpending
    · rw [PieceManager.deliveryCount_delivery_eq hp, List.length_cons, h.count]

variable (hstep : (machine sha1 metadata peerId).step w (i, event) w')

include hstep

/-- A block that is handed out was never asked for. -/
theorem Once.unwritten_step (j : ι) (block : Block) (left : Nat)
    (hpoint : (w'.sessions j).point = .writingRequest block left) :
    ∀ r ∈ requests (⟨w, (i, event), w'⟩ :: history), r.2.key ≠ block.key := by
  obtain ⟨hmoves, hothers⟩ := turn_moves hstep
  intro r hr hkey
  by_cases heq : j = i
  · subst heq
    obtain ⟨fate, rfl⟩ := hmoves.writes hpoint
    have hsame : requests (⟨w, (j, .call fate (.block (some block))), w'⟩ :: history) =
        requests history := by
      rcases requests_cons history
        ⟨w, (j, .call fate (.block (some block))), w'⟩ with ⟨_, hsame⟩ | ⟨block', hsome, _⟩
      · exact hsame
      · obtain ⟨_, _, _, hlabel⟩ := PeerSession.requested_eq_some hsome
        cases hlabel
    rw [hsame] at hr
    have hserved := (hkept.step hannounced hrun hstep hhonest).served hannounced (hrun.snoc hstep)
    obtain ⟨_, b, hb, hbkey⟩ := h.handed r hr
    obtain ⟨hpiece, _⟩ := blockKey_inj.mp hkey
    have haccount : (w'.sessions j).AnswersFor block.key :=
      (PeerSession.answersFor_at hpoint).mpr (Or.inr rfl)
    obtain ⟨block', hblock', hkey'⟩ := asksOf_of_run (hrun.snoc hstep) j _ (Or.inr haccount)
    obtain ⟨hpiece', _⟩ := blockKey_inj.mp hkey'
    -- the step itself is the newest of those that handed out blocks of the piece
    obtain ⟨op, hcalls⟩ := managerHistory_lent history hmoves
    have hnodup := hserved.handed_keys (hpiece' ▸ hblock'.index)
    rw [hcalls, PieceManager.handedOut_lent, List.map_cons] at hnodup
    exact (List.nodup_cons.mp hnodup).1
      (List.mem_map.mpr ⟨b, hpiece ▸ hb, hbkey.trans hkey⟩)
  · rw [hothers j heq] at hpoint
    rcases requests_cons history ⟨w, (i, event), w'⟩ with
      ⟨_, hsame⟩ | ⟨block', hsome, hmore⟩
    · exact h.unwritten j block left hpoint r (hsame ▸ hr) hkey
    · rw [hmore] at hr
      rcases List.mem_cons.mp hr with rfl | hr
      · obtain ⟨left', _, hpoint', _⟩ := PeerSession.requested_eq_some hsome
        have hi : (w.sessions i).AnswersFor block.key :=
          (PeerSession.answersFor_at hpoint').mpr (Or.inr hkey.symm)
        have hj : (w.sessions j).AnswersFor block.key :=
          (PeerSession.answersFor_at hpoint).mpr (Or.inr rfl)
        have howner := (hkept.owes hrun hi).2.symm.trans (hkept.owes hrun hj).2
        exact heq (Option.some.inj howner).symm
      · exact h.unwritten j block left hpoint r hr hkey

theorem Once.step : Once metadata (⟨w, (i, event), w'⟩ :: history) w' where
  unwritten := h.unwritten_step hannounced hrun hkept hhonest hstep
  handed := (h.requested_step hannounced hrun hkept).1
  written := h.written_step hstep
  asked := (h.arrived_step hannounced hrun hkept hhonest).1
  delivered := (h.arrived_step hannounced hrun hkept hhonest).2.1
  requestedOnce := (h.requested_step hannounced hrun hkept).2
  arrivedOnce := (h.arrived_step hannounced hrun hkept hhonest).2.2.1
  count := (h.arrived_step hannounced hrun hkept hhonest).2.2.2

end Step

theorem once_of_run (hannounced : PieceManager.Announced sha1 metadata contents)
    (hrun : (machine sha1 metadata peerId).Run history w)
    (hhonest : Machine.Guarded (fun w l => w.honest contents l = true) history) :
    Once metadata history w := by
  induction hrun with
  | start hinit =>
    obtain ⟨disk, tracked, rfl⟩ := hinit
    exact once_new disk tracked
  | @snoc history w w' l hsofar hlast ih =>
    have hkept := kept_of_run hannounced hsofar hhonest.tail
    exact (ih hhonest.tail).step hannounced hsofar hkept (hhonest _ List.mem_cons_self) hlast

omit [DecidableEq ι] in
/-- No more blocks are asked for than the torrent has. -/
theorem Once.requests_le (h : Once metadata history w)
    (hserved : PieceManager.Served metadata contents (managerHistory history) w.manager) :
    (requests history).length ≤ PieceManager.totalCount metadata contents := by
  have hsubset : ((requests history).map fun r => r.2.key).toFinset ⊆
      PieceManager.allKeys metadata contents := by
    intro k hk
    obtain ⟨r, hr, rfl⟩ := List.mem_map.mp (List.mem_toFinset.mp hk)
    obtain ⟨hp, b, hb, hkey⟩ := h.handed r hr
    obtain ⟨j, ks, hexchanged⟩ := hserved.exchanged _ hp
    rw [← List.mem_reverse, hexchanged.handed] at hb
    obtain ⟨n, hn, rfl⟩ := List.mem_map.mp hb
    exact PieceManager.mem_allKeys.mpr
      ⟨_, hp, n, hexchanged.inside n (List.mem_range.mp hn), hkey.symm⟩
  calc (requests history).length
      = ((requests history).map fun r => r.2.key).toFinset.card := by
        rw [List.toFinset_card_of_nodup h.requestedOnce, List.length_map]
    _ ≤ (PieceManager.allKeys metadata contents).card := Finset.card_le_card hsubset
    _ ≤ PieceManager.totalCount metadata contents := PieceManager.card_allKeys_le

omit [DecidableEq ι] in
/-- What arrived was asked for. -/
theorem Once.arrivals_le (h : Once metadata history w) :
    (arrivals history).length ≤ (requests history).length := by
  have hsubset : (arrivals history).map Prod.snd ⊆ (requests history).map fun r => r.2.key := by
    intro k hk
    obtain ⟨a, ha, rfl⟩ := List.mem_map.mp hk
    obtain ⟨block, hmem, hkey⟩ := h.asked a ha
    exact List.mem_map.mpr ⟨_, hmem, hkey⟩
  have hle := (h.arrivedOnce.subperm hsubset).length_le
  rwa [List.length_map, List.length_map] at hle

/-- **Each block once.**  In every run of any number of sessions, in any interleaving, in
which peers are honest and the disk works, no block is asked for twice, of whomever, no
block arrives twice, and what arrives comes to the session that asked for it.  The download
is complete when as many blocks have arrived as the torrent has, and then exactly these
were asked for. -/
theorem requested_once (hannounced : PieceManager.Announced sha1 metadata contents)
    (hrun : (machine sha1 metadata peerId).Run history w)
    (hhonest : Machine.Guarded (fun w l => w.honest contents l = true) history) :
    ((requests history).map fun r => r.2.key).Nodup ∧
    ((arrivals history).map Prod.snd).Nodup ∧
    (∀ a ∈ arrivals history, ∃ block, (a.1, block) ∈ requests history ∧ block.key = a.2) ∧
    (requests history).length ≤ PieceManager.totalCount metadata contents ∧
    (w.manager.isComplete = true ↔
      (arrivals history).length = PieceManager.totalCount metadata contents) ∧
    (w.manager.isComplete = true →
      (requests history).length = PieceManager.totalCount metadata contents) := by
  have h := once_of_run hannounced hrun hhonest
  have hserved := (kept_of_run hannounced hrun hhonest).served hannounced hrun
  have hle := h.requests_le hserved
  have hcomplete : w.manager.isComplete = true ↔
      (arrivals history).length = PieceManager.totalCount metadata contents := by
    rw [h.count]
    exact hserved.isComplete_iff (manager_run hrun)
  refine ⟨h.requestedOnce, h.arrivedOnce, h.asked, hle, hcomplete, fun hdone => ?_⟩
  exact Nat.le_antisymm hle ((hcomplete.mp hdone) ▸ h.arrivals_le)

theorem totalCount_zeroSevenSeven :
    PieceManager.totalCount PieceManager.zeroSevenSeven PieceManager.zeroSevenPieces = 2 := by
  decide

theorem requested_once_twoPieces :
    ∃ history, ∃ w : Swarm Bool,
      (machine PieceManager.sampleSha1 PieceManager.zeroSevenSeven samplePeerId).Run history w ∧
      (requests history).length = 2 ∧ (arrivals history).length = 2 ∧
      ((arrivals history).map Prod.snd).Nodup := by
  obtain ⟨history, w, hrun, hsteps, hcomplete, _⟩ := exists_download
  obtain ⟨_, honce, _, _, hiff, hall⟩ := requested_once announced_zeroSevenSeven hrun hsteps
  have hrequests := (hall hcomplete).trans totalCount_zeroSevenSeven
  have harrivals := (hiff.mp hcomplete).trans totalCount_zeroSevenSeven
  exact ⟨history, w, hrun, hrequests, harrivals, honce⟩

end Swarm

end BitTorrentClient
