/-
  App/Swarm/Exclusive.lean --- which blocks are asked for twice.

  The set of a session is meant to be its share of the manager's set.  It stops
  being so when a block leaves the manager's set and stays in the session's: after
  `_returnBlocks`, when the session goes on; after a block that completes a piece
  with the wrong hash; after a block that another peer delivered.  The manager may
  then hand the block out a second time.  `KeepsShares` excludes these steps.
-/
import BitTorrentClient.App.Swarm.Books

set_option autoImplicit false

namespace BitTorrentClient

open Library

namespace Swarm

variable {ι : Type} {sha1 : Bytes → Sha1Hash} {metadata : TorrentMetadata} {peerId : Bytes}
  {w w' : Swarm ι} {i : ι} {event : Event} {history : List (Transition (Swarm ι) (ι × Event))}

/-- The step leaves no block behind in a set. -/
def KeepsShares (sha1 : Bytes → Sha1Hash) (w : Swarm ι) (l : ι × Event) : Prop :=
  match (w.sessions l.1).point, l.2 with
  | .writingRequest _ _, .io (.wrote false _) =>
      (w.sessions l.1).pendingBlocks = KeyedSet.empty
  | .writingRequest block _, .io (.wrote true _) =>
      ∀ j, j ≠ l.1 → (w.sessions j).leaving = true →
        ¬ (w.sessions j).pendingBlocks.Has block.key
  | .delivering index offset data, .call _ _ =>
      (w.manager.Rejects sha1 index offset data →
        ¬ (w.sessions l.1).pendingBlocks.Has (blockKey index offset)) ∧
      ∀ pending, w.manager.Accepts index offset data pending →
        ∀ j, j ≠ l.1 → ¬ (w.sessions j).AnswersFor (blockKey index offset)
  | _, _ => True

theorem keepsShares_of_harmless {l : ι × Event} (h : w.harmless l = true)
    (hstay : ∀ j, j ≠ l.1 → (w.sessions j).leaving = false) : w.KeepsShares sha1 l := by
  unfold harmless at h
  unfold KeepsShares
  split
  · rename_i hpoint hevent
    simp [hpoint, hevent] at h
  · intro j hne hleaving
    simp [hstay j hne] at hleaving
  · rename_i hpoint hevent
    simp [hpoint, hevent] at h
  · trivial

/-- No block is in the sets of two live sessions. -/
def SetsDisjoint (w : Swarm ι) : Prop :=
  ∀ i j k, i ≠ j → (w.sessions i).Live → (w.sessions j).Live →
    (w.sessions i).pendingBlocks.Has k → ¬ (w.sessions j).pendingBlocks.Has k

/-- What holds after every run that leaves no block behind. -/
structure Shared (w : Swarm ι) : Prop where
  sane : w.Sane
  exclusive : w.ledger.Exclusive
  disjoint : w.SetsDisjoint
  /-- nobody is giving back blocks that stay in his set -/
  quits : ∀ i, (w.sessions i).repaying = false

theorem shared_new (disk : Disk) (tracked : Bool) :
    Shared (new metadata disk tracked : Swarm ι) where
  sane := sane_new disk tracked
  exclusive := fun _ k hk => absurd hk (KeyedSet.has_empty k)
  disjoint := fun _ _ k _ _ _ hk => absurd hk (KeyedSet.has_empty k)
  quits := fun _ => rfl

theorem Shared.not_returning_request (h : w.Shared) (block : Block) (rest : List Block)
    (left : Nat) : (w.sessions i).point ≠ .returning block rest (.request left) := by
  intro hpoint
  have hquits := h.quits i
  unfold PeerSession.repaying at hquits
  rw [hpoint] at hquits
  cases hquits

/-- A block that no other session answers for is in no other account. -/
theorem others_of_not {k : BlockKey} (h : ∀ j, j ≠ i → ¬ (w.sessions j).AnswersFor k) :
    ∀ j, j ≠ i → ∀ l ∈ w.ledger.account j, l ∉ ({k} : Set BlockKey) := by
  intro j hj l hl hkey
  have heq : l = k := hkey
  exact h j hj (heq ▸ hl)

variable [DecidableEq ι]

/-! ## The ledger -/

theorem Shared.books (h : w.Shared) (hkeeps : w.KeepsShares sha1 (i, event))
    {L : Ledger ι BlockKey} (hbooks : Books sha1 w i event L) : L.Exclusive := by
  unfold KeepsShares at hkeeps
  cases hbooks with
  | same => exact h.exclusive
  | lent hfree => exact h.exclusive.lend _ hfree
  | unwritten hpoint =>
    refine h.exclusive.release (fun k hk => ?_) (fun _ _ => id) fun _ _ _ _ => id
    exact (PeerSession.answersFor_at hpoint).mpr (Or.inl hk)
  | malformed _ _ _ =>
    exact h.exclusive.release (Set.empty_subset _) (fun _ _ => id) fun _ _ _ _ => id
  | known _ _ =>
    exact h.exclusive.release (fun _ hk => hk.1) (fun _ _ => id) fun _ _ _ _ => id
  | @taken index offset data fate pending hpoint ha =>
    simp only [hpoint] at hkeeps
    exact h.exclusive.release (fun _ hk => hk.1) (fun _ hk => hk.2)
      (others_of_not (hkeeps.2 pending ha))
  | @rejected index offset data fate hpoint hrejects =>
    simp only [hpoint] at hkeeps
    have hfree : blockKey index offset ∉ w.ledger.account i :=
      fun hk => hkeeps.1 hrejects ((PeerSession.answersFor_at hpoint).mp hk)
    obtain ⟨pending, _, ha, _⟩ := hrejects
    refine h.exclusive.release (fun _ hk => hk) ?_ (others_of_not (hkeeps.2 pending ha))
    intro k hk hback
    have hkey : k = blockKey index offset := hback
    exact hfree (hkey ▸ hk)
  | @threw index offset data fate e hpoint hthrows =>
    simp only [hpoint] at hkeeps
    obtain ⟨pending, hv, _⟩ := hthrows
    exact h.exclusive.release (Set.empty_subset _) (fun _ hk => absurd hk id)
      (others_of_not (hkeeps.2 pending hv.toAccepts))
  | @returned block rest fate r hpoint =>
    have haccount : ∀ k, (w.sessions i).AnswersFor k ↔ ∃ b ∈ block :: rest, b.key = k :=
      fun k => PeerSession.answersFor_at hpoint
    have hsane := h.sane i
    unfold PeerSession.Sane at hsane
    rw [hpoint] at hsane
    -- the blocks to give back are the end of a set, so no two have one key
    have hkeyed : Keyed Block.key (block :: rest) :=
      (w.sessions i).pendingBlocks.keyed.sublist hsane.sublist
    have hfirst : block.key ∈ w.ledger.account i :=
      (haccount _).mpr ⟨block, List.mem_cons_self, rfl⟩
    refine h.exclusive.release ?_ ?_ (others_of_not fun j hj hk => hj (h.exclusive.eq hk hfirst))
    · intro k hk
      obtain ⟨b, hb, hkey⟩ := hk
      exact (haccount k).mpr ⟨b, List.mem_cons_of_mem _ hb, hkey⟩
    · intro k hk hback
      obtain ⟨b, hb, hkey⟩ := hk
      have hlater := (List.pairwise_cons.mp hkeyed).1 b hb
      exact ne_of_gt hlater (hkey.trans hback)
  | repaid hpoint => exact absurd hpoint (h.not_returning_request _ _ _)

/-! ## The sets -/

/-- A set grows only by a request that was written. -/
theorem Moved.has (h : Moved sha1 w i event w') {j : ι} {k : BlockKey}
    (hk : (w'.sessions j).pendingBlocks.Has k) :
    (w.sessions j).pendingBlocks.Has k ∨ j = i ∧ ∃ block left len,
      (w.sessions i).point = .writingRequest block left ∧ event = .io (.wrote true len) ∧
        k = block.key := by
  by_cases heq : j = i
  · subst heq
    cases h with
    | @io event s hresumed =>
      replace hk : s.pendingBlocks.Has k := by simpa [withSession] using hk
      cases hresumed with
      | quiet hset _ _ => exact Or.inl (hset ▸ hk)
      | @written block left len _ hpoint hset _ _ =>
        rw [hset] at hk
        rcases KeyedSet.has_insert.mp hk with hk | hk
        · exact Or.inl hk
        · exact Or.inr ⟨rfl, block, left, len, hpoint, rfl, hk⟩
      | unwritten _ hset _ _ => exact Or.inl (hset ▸ hk)
      | malformed _ _ _ => exact Or.inl hk
    | @nothing left fate hpoint =>
      replace hk : ((w.sessions j).requestLoop left).pendingBlocks.Has k := by
        simpa [withSession] using hk
      rw [PeerSession.requestLoop_pendingBlocks] at hk
      exact Or.inl hk
    | @lent left index fate block m hpoint hout =>
      replace hk : ((w.sessions j).suspend (.writingRequest block left)).pendingBlocks.Has k := by
        simpa [afterCall, withSession] using hk
      exact Or.inl hk
    | @delivered index offset data fate r m s hpoint hd hanswered =>
      replace hk : s.pendingBlocks.Has k := by simpa [afterCall, withSession] using hk
      exact Or.inl (hanswered.has hk)
    | @returned block rest after fate r m hpoint hr =>
      replace hk : ((w.sessions j).returnLoop after rest).pendingBlocks.Has k := by
        simpa [afterCall, withSession] using hk
      rw [PeerSession.returnLoop_pendingBlocks] at hk
      exact Or.inl hk
  · rw [h.other heq] at hk
    exact Or.inl hk

theorem Shared.disjoint_step (h : w.Shared) (hlive : (w.sessions i).Live)
    (hkeeps : w.KeepsShares sha1 (i, event)) (hmoved : Moved sha1 w i event w') :
    w'.SetsDisjoint := by
  have hlive' : ∀ j, (w'.sessions j).Live → (w.sessions j).Live := by
    intro j hj
    by_cases heq : j = i
    · exact heq ▸ hlive
    · rwa [hmoved.other heq] at hj
  -- a block that was just written is in no other live set
  have hfresh : ∀ block left len j, (w.sessions i).point = .writingRequest block left →
      event = .io (.wrote true len) → j ≠ i → (w.sessions j).Live →
        ¬ (w.sessions j).pendingBlocks.Has block.key := by
    intro block left len j hpoint hevent hne hj hheld
    subst hevent
    unfold KeepsShares at hkeeps
    simp only [hpoint] at hkeeps
    have hstays : (w.sessions j).leaving ≠ true := fun hleaving => hkeeps j hne hleaving hheld
    have hwriting : block.key ∈ w.ledger.account i :=
      (PeerSession.answersFor_at hpoint).mpr (Or.inr rfl)
    exact hne (h.exclusive.eq (PeerSession.answersFor_of_has hj hstays hheld) hwriting)
  intro a b k hne ha hb hka hkb
  rcases hmoved.has hka with hka | ⟨rfl, block, left, len, hpoint, hevent, rfl⟩
  · rcases hmoved.has hkb with hkb | ⟨rfl, block, left, len, hpoint, hevent, rfl⟩
    · exact h.disjoint a b k hne (hlive' a ha) (hlive' b hb) hka hkb
    · exact hfresh block left len a hpoint hevent hne (hlive' a ha) hka
  · have hkb : (w.sessions b).pendingBlocks.Has block.key := by
      rcases hmoved.has hkb with hkb | ⟨hsame, _⟩
      · exact hkb
      · exact absurd hsame.symm hne
    exact hfresh block left len b hpoint hevent (Ne.symm hne) (hlive' b hb) hkb

theorem Shared.quits_step (h : w.Shared) (hkeeps : w.KeepsShares sha1 (i, event))
    (hmoved : Moved sha1 w i event w') (j : ι) : (w'.sessions j).repaying = false := by
  by_cases heq : j = i
  · subst heq
    unfold KeepsShares at hkeeps
    cases hmoved with
    | @io event s hresumed =>
      have hs : s.repaying = false := by
        cases hresumed with
        | quiet _ _ hquits => exact hquits
        | written _ _ _ hquits => exact hquits
        | unwritten hpoint _ _ hquits =>
          simp only [hpoint] at hkeeps
          exact hquits hkeeps
        | malformed _ _ _ => rfl
      simpa [withSession] using hs
    | @nothing left fate hpoint =>
      simpa [withSession] using PeerSession.repaying_requestLoop left
    | @lent left index fate block m hpoint hout =>
      have hs : ((w.sessions j).suspend (.writingRequest block left)).repaying = false := rfl
      simpa [afterCall, withSession] using hs
    | @delivered index offset data fate r m s hpoint hd hanswered =>
      have hs : s.repaying = false := by
        rw [hanswered.delivering hpoint]
        cases r with
        | error e => rfl
        | ok accepted =>
          cases accepted with
          | false => exact PeerSession.repaying_loopHead
          | true => exact PeerSession.repaying_refill
      simpa [afterCall, withSession] using hs
    | @returned block rest after fate r m hpoint hr =>
      cases after with
      | finish =>
        simpa [afterCall, withSession] using PeerSession.repaying_returnLoop_finish rest
      | request left => exact absurd hpoint (h.not_returning_request block rest left)
  · rw [hmoved.other heq]
    exact h.quits j

/-! ## Runs -/

theorem shared_of_run (hrun : (machine sha1 metadata peerId).Run history w)
    (hkeeps : Machine.Guarded (KeepsShares sha1) history) : w.Shared := by
  refine hrun.guarded_invariant (I := Shared) ?_ ?_ hkeeps
  · intro w hinit
    obtain ⟨disk, tracked, rfl⟩ := hinit
    exact shared_new disk tracked
  · intro w l w' h hguard hstep
    obtain ⟨action, hfire⟩ := hstep
    obtain ⟨hsane, hmoved⟩ := fire_moved h.sane hfire
    exact ⟨hsane, h.books hguard (hmoved.books h.sane),
      h.disjoint_step (fire_live hfire) hguard hmoved, h.quits_step hguard hmoved⟩

/-- In every run that leaves no block behind, no block is in the sets of two live
sessions, and a session returns only blocks that the manager gave to it last. -/
theorem exclusive_assignment (hrun : (machine sha1 metadata peerId).Run history w)
    (hkeeps : Machine.Guarded (KeepsShares sha1) history) :
    w.SetsDisjoint ∧
    ∀ t ∈ history, ∀ fate block,
      (t.source.sessions t.label.1).operation fate = some (.returnBlock block) →
        t.source.assigned block.key = some t.label.1 := by
  refine ⟨(shared_of_run hrun hkeeps).disjoint, ?_⟩
  intro t ht fate block hop
  obtain ⟨_, earlier, hearlier, hsuffix⟩ := hrun.of_mem ht
  have h := shared_of_run hearlier fun u hu => hkeeps u (hsuffix.subset hu)
  have hreturning : ∃ rest after,
      (t.source.sessions t.label.1).point = .returning block rest after := by
    unfold PeerSession.operation at hop
    split at hop
    · cases hop
    · cases hop
    · rename_i b rest after hpoint
      obtain rfl : b = block := by simpa using hop
      exact ⟨rest, after, hpoint⟩
    · cases hop
  obtain ⟨rest, after, hpoint⟩ := hreturning
  cases after with
  | request left => exact absurd hpoint (h.not_returning_request block rest left)
  | finish =>
    have haccount : block.key ∈ t.source.ledger.account t.label.1 :=
      (PeerSession.answersFor_at hpoint).mpr ⟨block, List.mem_cons_self, rfl⟩
    exact (h.exclusive _ _ haccount).2

/-! ## Two runs -/

/-- Two sessions ask for a block each.  The first loses its peer and gives its block back, and
a third session asks for it. -/
def givenBack : List (Fin 3 × Action) :=
  let asks (bitfield : Bytes) : List Action :=
    opening PieceManager.zeroSevenDigest bitfield ++ asked true 31
  (asks [128]).map (fun action => (0, action)) ++ (asks [192]).map (fun action => (1, action)) ++
    [(0, .io (.read none)), (0, .call .written)] ++ (asks [128]).map fun action => (2, action)

/-- One session asks for the only block and gets a wrong byte; then the other one
asks for the block. -/
def bothAsk : List (Bool × Action) :=
  let wrong : List Action := [.io (.read (some (htonl 10))),
    .io (.read (some (Msg.Id.piece.toByte :: htonl 0 ++ htonl 0 ++ [9]))), .call .written]
  (opening oneBlock.infoHash [128] ++ asked true 31 ++ wrong).map (fun action => (true, action)) ++
    (opening oneBlock.infoHash [128] ++ asked true 0).map fun action => (false, action)

theorem exclusive_assignment_givenBack :
    ∃ history, ∃ w : Swarm (Fin 3),
      (machine PieceManager.sampleSha1 PieceManager.zeroSevenSeven samplePeerId).Run history w ∧
      (w.sessions 1).pendingBlocks.Has (blockKey 1 0) ∧
      (w.sessions 2).pendingBlocks.Has (blockKey 0 0) ∧ w.SetsDisjoint ∧
      ∃ t ∈ history,
        (t.source.sessions 0).operation .written = some (.returnBlock ⟨0, 0, 2⟩) ∧
        t.source.assigned (blockKey 0 0) = some 0 := by
  have hfire : (fireAll PieceManager.sampleSha1
      (sessionConfig PieceManager.zeroSevenSeven samplePeerId)
      (new PieceManager.zeroSevenSeven PieceManager.emptyFile true) givenBack []).any (fun r =>
        r.1.all (fun t => t.source.harmless t.label &&
          decide (∀ j, j ≠ t.label.1 → (t.source.sessions j).leaving = false)) &&
        r.1.any (fun t => decide (t.label.1 = 0 ∧
          (t.source.sessions 0).operation .written = some (.returnBlock ⟨0, 0, 2⟩))) &&
        decide ((r.2.sessions 1).pendingBlocks.Has (blockKey 1 0) ∧
          (r.2.sessions 2).pendingBlocks.Has (blockKey 0 0))) = true := by
    decide +kernel
  obtain ⟨history, w, hrun, hchecks⟩ := exists_run hfire
  simp only [Bool.and_eq_true, List.all_eq_true, List.any_eq_true, decide_eq_true_eq] at hchecks
  obtain ⟨⟨hharmless, t, ht, hown, hreturns⟩, hsecond, hthird⟩ := hchecks
  have hkeeps : Machine.Guarded (KeepsShares PieceManager.sampleSha1) history :=
    fun u hu => keepsShares_of_harmless (hharmless u hu).1 (hharmless u hu).2
  obtain ⟨hdisjoint, hassigned⟩ := exclusive_assignment hrun hkeeps
  refine ⟨history, w, hrun, hsecond, hthird, hdisjoint, t, ht, hreturns, ?_⟩
  rw [← hown] at hreturns ⊢
  exact hassigned t ht .written _ hreturns

/-- The wrong byte throws the piece away, and the block is handed out again while it
is still in the set of the first session. -/
theorem not_exclusive_bothAsk :
    ∃ history, ∃ w : Swarm Bool,
      (machine PieceManager.sampleSha1 oneBlock samplePeerId).Run history w ∧
      ¬ w.SetsDisjoint := by
  have hfire : (fireAll PieceManager.sampleSha1 (sessionConfig oneBlock samplePeerId)
      (new oneBlock PieceManager.emptyFile true) bothAsk []).any (fun r =>
        decide ((r.2.sessions true).Live ∧ (r.2.sessions false).Live ∧
          (r.2.sessions true).pendingBlocks.Has (blockKey 0 0) ∧
          (r.2.sessions false).pendingBlocks.Has (blockKey 0 0))) = true := by
    decide +kernel
  obtain ⟨history, w, hrun, hchecks⟩ := exists_run hfire
  obtain ⟨htrue, hfalse, hfirst, hsecond⟩ := of_decide_eq_true hchecks
  exact ⟨history, w, hrun, fun hdisjoint =>
    hdisjoint true false _ (by decide) htrue hfalse hfirst hsecond⟩

end Swarm

end BitTorrentClient
