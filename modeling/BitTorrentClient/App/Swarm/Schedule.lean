/-
  App/Swarm/Schedule.lean --- sessions that are not interrupted.

  Sessions share the piece manager and nothing else.  What a session does with its socket
  is therefore independent of the other sessions, and only the order of the calls of the
  manager can be told.  A run in which sessions interrupt each other at every socket
  operation has the same calls, and the same events for every session, as one in which a
  session goes on until its call has come back.

  `Recorded` is the swarm together with what the manager and each session have seen, so
  that lists of steps that come to the same were also seen to be the same.
-/
import BitTorrentClient.Library.Interleaving
import BitTorrentClient.App.Swarm.Views

set_option autoImplicit false

namespace BitTorrentClient

open Library Interleaving

/-- The step is one of the socket. -/
def Action.isIo : Action → Bool
  | .io _ => true
  | .call _ => false

def Event.isIo : Event → Bool
  | .io _ => true
  | .call _ _ => false

namespace Swarm

variable {ι : Type} [DecidableEq ι]

/-- The swarm, and what its parts have seen, newest first. -/
@[ext]
structure Recorded (ι : Type) where
  swarm : Swarm ι
  calls : List (Transition PieceManager (PieceManager.Op × PieceManager.Answer))
  events : ι → List (Transition PeerSession Event)

/-- What was seen in a history. -/
def recorded (history : List (Transition (Swarm ι) (ι × Event))) (w : Swarm ι) : Recorded ι where
  swarm := w
  calls := managerHistory history
  events := fun i => sessionHistory i history

namespace Recorded

variable {sha1 : Bytes → Sha1Hash} {config : SessionConfig} {x y z : Recorded ι} {i j : ι}

/-- What has been seen after one more step. -/
def after (x : Recorded ι) (t : Transition (Swarm ι) (ι × Event)) : Recorded ι where
  swarm := t.target
  calls := managerHistory [t] ++ x.calls
  events := fun i => sessionHistory i [t] ++ x.events i

/-- One step, recorded. -/
def fire (sha1 : Bytes → Sha1Hash) (config : SessionConfig) (x : Recorded ι)
    (step : ι × Action) : Option (Recorded ι) :=
  (x.swarm.fire sha1 config step.1 step.2).map fun r =>
    x.after ⟨x.swarm, (step.1, r.1), r.2⟩

/-- The session `i` goes on from a socket operation. -/
def went (x : Recorded ι) (i : ι) (event : Event) (s : PeerSession) : Recorded ι where
  swarm := x.swarm.withSession i s
  calls := x.calls
  events := Function.update x.events i (⟨x.swarm.sessions i, event, s⟩ :: x.events i)

/-- The session `i` goes on from a call. -/
def called (x : Recorded ι) (i : ι) (fate : DiskFate) (op : PieceManager.Op)
    (answer : PieceManager.Answer) (m : PieceManager) (s : PeerSession) : Recorded ι where
  swarm := { x.swarm.afterCall i s m with assigned := x.swarm.assign i answer }
  calls := ⟨x.swarm.manager, (op, answer), m⟩ :: x.calls
  events := Function.update x.events i
    (⟨x.swarm.sessions i, .call fate answer, s⟩ :: x.events i)

/-- A step is seen by its own session. -/
theorem after_events (t : Transition (Swarm ι) (ι × Event)) :
    (x.after t).events = Function.update x.events t.label.1
      (⟨t.source.sessions t.label.1, t.label.2, t.target.sessions t.label.1⟩ ::
        x.events t.label.1) := by
  funext i
  by_cases hi : t.label.1 = i
  · subst hi
    have hread : eventOf t.label.1 t = some t.label.2 := if_pos rfl
    rw [Function.update_self]
    change sessionHistory t.label.1 [t] ++ x.events t.label.1 = _
    rw [sessionHistory, Machine.project_cons_some hread]
    rfl
  · have hread : eventOf i t = none := if_neg hi
    rw [Function.update_of_ne (Ne.symm hi)]
    change sessionHistory i [t] ++ x.events i = _
    rw [sessionHistory, Machine.project_cons_none hread]
    rfl

theorem after_io (x : Recorded ι) (i : ι) (event : IoEvent) (s : PeerSession) :
    x.after ⟨x.swarm, (i, .io event), x.swarm.withSession i s⟩ = x.went i (.io event) s := by
  refine Recorded.ext rfl rfl ?_
  rw [after_events]
  dsimp only [Swarm.withSession]
  rw [Function.update_self]
  rfl

theorem after_call {fate : DiskFate} {op : PieceManager.Op} (answer : PieceManager.Answer)
    (m : PieceManager) (s : PeerSession) (hop : (x.swarm.sessions i).operation fate = some op) :
    x.after ⟨x.swarm, (i, .call fate answer), (x.called i fate op answer m s).swarm⟩ =
      x.called i fate op answer m s := by
  have hcall : callOf (⟨x.swarm, (i, .call fate answer), (x.called i fate op answer m s).swarm⟩ :
      Transition (Swarm ι) (ι × Event)) = some (op, answer) := by
    rw [callOf]
    exact congrArg (Option.map fun op => (op, answer)) hop
  refine Recorded.ext rfl ?_ ?_
  · exact congrArg (· ++ x.calls) (Machine.project_cons_some hcall)
  · rw [after_events]
    dsimp only [called, Swarm.afterCall, Swarm.withSession]
    rw [Function.update_self]

theorem fire_io (x : Recorded ι) (i : ι) (event : IoEvent) :
    x.fire sha1 config (i, .io event) =
      ((x.swarm.sessions i).resume config event).map (x.went i (.io event)) := by
  cases hresume : (x.swarm.sessions i).resume config event with
  | none => simp [fire, Swarm.fire, hresume]
  | some s =>
    rw [Option.map_some, ← after_io]
    simp [fire, Swarm.fire, hresume]

theorem fire_call {fate : DiskFate} {op : PieceManager.Op} {answer : PieceManager.Answer}
    {m : PieceManager} {s : PeerSession} (hop : (x.swarm.sessions i).operation fate = some op)
    (happly : x.swarm.manager.apply sha1 op = .ok (answer, m))
    (hanswered : (x.swarm.sessions i).answered answer = some s) :
    x.fire sha1 config (i, .call fate) = some (x.called i fate op answer m s) := by
  rw [fire, Swarm.fire_call hop happly hanswered, ← after_call answer m s hop]
  rfl

theorem fire_call_cases {fate : DiskFate} (h : x.fire sha1 config (i, .call fate) = some y) :
    ∃ op answer m s, (x.swarm.sessions i).operation fate = some op ∧
      x.swarm.manager.apply sha1 op = .ok (answer, m) ∧
      (x.swarm.sessions i).answered answer = some s ∧ y = x.called i fate op answer m s := by
  obtain ⟨⟨event, w⟩, hfire, rfl⟩ := Option.map_eq_some_iff.mp h
  obtain ⟨op, hop, hfire⟩ := Option.bind_eq_some_iff.mp hfire
  split at hfire
  · cases hfire
  · rename_i answer m happly
    obtain ⟨s, hanswered, hfire⟩ := Option.bind_eq_some_iff.mp hfire
    cases hfire
    exact ⟨op, answer, m, s, hop, happly, hanswered, after_call answer m s hop⟩

/-! ## Steps of two sessions -/

theorem went_sessions (x : Recorded ι) (event : Event) (s : PeerSession) (hne : j ≠ i) :
    (x.went i event s).swarm.sessions j = x.swarm.sessions j :=
  Function.update_of_ne hne _ _

theorem called_sessions (x : Recorded ι) (fate : DiskFate) (op : PieceManager.Op)
    (answer : PieceManager.Answer) (m : PieceManager) (s : PeerSession) (hne : j ≠ i) :
    (x.called i fate op answer m s).swarm.sessions j = x.swarm.sessions j :=
  Function.update_of_ne hne _ _

theorem went_went {event event' : Event} {s s' : PeerSession} (hne : j ≠ i) :
    (x.went i event s).went j event' s' = (x.went j event' s').went i event s := by
  unfold went Swarm.withSession
  dsimp only
  rw [Function.update_comm hne, Function.update_comm hne, Function.update_of_ne hne,
    Function.update_of_ne hne, Function.update_of_ne (Ne.symm hne),
    Function.update_of_ne (Ne.symm hne)]

theorem called_went {fate : DiskFate} {op : PieceManager.Op} {answer : PieceManager.Answer}
    {m : PieceManager} {event' : Event} {s s' : PeerSession} (hne : j ≠ i) :
    (x.called i fate op answer m s).went j event' s' =
      (x.went j event' s').called i fate op answer m s := by
  unfold went called Swarm.afterCall Swarm.withSession Swarm.assign
  dsimp only
  rw [Function.update_comm hne, Function.update_comm hne, Function.update_of_ne hne,
    Function.update_of_ne hne, Function.update_of_ne (Ne.symm hne),
    Function.update_of_ne (Ne.symm hne)]

/-- Two steps of different sessions, one of them of the socket, can be taken the other way
round. -/
theorem fire_swap {a b : Action} (hne : j ≠ i) (hio : a.isIo = true ∨ b.isIo = true)
    (ha : x.fire sha1 config (i, a) = some y) (hb : y.fire sha1 config (j, b) = some z) :
    ∃ y', x.fire sha1 config (j, b) = some y' ∧ y'.fire sha1 config (i, a) = some z := by
  cases a with
  | io event =>
    rw [fire_io] at ha
    obtain ⟨s, hresume, rfl⟩ := Option.map_eq_some_iff.mp ha
    cases b with
    | io event' =>
      rw [fire_io, went_sessions x _ s hne] at hb
      obtain ⟨s', hresume', rfl⟩ := Option.map_eq_some_iff.mp hb
      refine ⟨x.went j (.io event') s', ?_, ?_⟩
      · rw [fire_io, hresume']
        rfl
      · rw [fire_io, went_sessions x _ s' (Ne.symm hne), hresume, went_went hne]
        rfl
    | call fate =>
      obtain ⟨op, answer, m, s', hop, happly, hanswered, rfl⟩ := fire_call_cases hb
      rw [went_sessions x _ s hne] at hop hanswered
      refine ⟨x.called j fate op answer m s', fire_call hop happly hanswered, ?_⟩
      rw [fire_io, called_sessions x _ _ _ _ _ (Ne.symm hne), hresume,
        ← called_went (Ne.symm hne)]
      rfl
  | call fate =>
    obtain ⟨op, answer, m, s, hop, happly, hanswered, rfl⟩ := fire_call_cases ha
    cases b with
    | io event' =>
      rw [fire_io, called_sessions x _ _ _ _ _ hne] at hb
      obtain ⟨s', hresume', rfl⟩ := Option.map_eq_some_iff.mp hb
      refine ⟨x.went j (.io event') s', ?_, ?_⟩
      · rw [fire_io, hresume']
        rfl
      · rw [called_went hne]
        apply fire_call
        · rw [went_sessions x _ s' (Ne.symm hne)]
          exact hop
        · exact happly
        · rw [went_sessions x _ s' (Ne.symm hne)]
          exact hanswered
    | call fate' =>
      rcases hio with hio | hio
      · cases hio
      · cases hio

end Recorded

/-! ## What a step uses -/

/-- A step uses its session, and a call the manager too. -/
def uses (step : ι × Action) : Option ι → Bool
  | some i => decide (step.1 = i)
  | none => !step.2.isIo

theorem uses_own (step : ι × Action) : uses step (some step.1) = true := decide_eq_true rfl

theorem independent_iff {a b : ι × Action} :
    Independent uses a b ↔ b.1 ≠ a.1 ∧ (a.2.isIo = true ∨ b.2.isIo = true) := by
  constructor
  · intro h
    refine ⟨of_decide_eq_false (h (some a.1) (uses_own a)), ?_⟩
    cases ha : a.2.isIo with
    | true => exact Or.inl rfl
    | false =>
      have hb : (!b.2.isIo) = false := h none (by simp [uses, ha])
      exact Or.inr (by simpa using hb)
  · intro h k hk
    cases k with
    | none =>
      have ha : a.2.isIo = false := by simpa [uses] using hk
      rcases h.2 with hio | hio
      · rw [hio] at ha
        cases ha
      · simp [uses, hio]
    | some i =>
      have ha : a.1 = i := of_decide_eq_true hk
      exact decide_eq_false (ha ▸ h.1)

variable {sha1 : Bytes → Sha1Hash} {metadata : TorrentMetadata} {peerId : Bytes}
  {config : SessionConfig} {w w' : Swarm ι} {history : List (Transition (Swarm ι) (ι × Event))}

theorem commutes_fire : Commutes uses (Recorded.fire (ι := ι) sha1 config) := by
  have hsub : ∀ a b : ι × Action, Independent uses a b → ∀ x z : Recorded ι,
      ((x.fire sha1 config a).bind fun y => y.fire sha1 config b) = some z →
      ((x.fire sha1 config b).bind fun y => y.fire sha1 config a) = some z := by
    intro a b hindependent x z h
    obtain ⟨y, ha, hb⟩ := Option.bind_eq_some_iff.mp h
    obtain ⟨hne, hio⟩ := independent_iff.mp hindependent
    obtain ⟨y', hb', ha'⟩ := Recorded.fire_swap hne hio ha hb
    exact Option.bind_eq_some_iff.mpr ⟨y', hb', ha'⟩
  intro a b hindependent x
  exact Option.ext fun z => ⟨hsub a b hindependent x z, hsub b a hindependent.symm x z⟩

/-! ## Runs -/

theorem recorded_cons (history : List (Transition (Swarm ι) (ι × Event)))
    (t : Transition (Swarm ι) (ι × Event)) :
    recorded (t :: history) t.target = (recorded history t.source).after t := by
  have hparts : t :: history = [t] ++ history := rfl
  refine Recorded.ext rfl ?_ (funext fun i => ?_)
  · rw [hparts]
    exact List.filterMap_append
  · rw [hparts]
    exact List.filterMap_append

theorem recorded_fire (history : List (Transition (Swarm ι) (ι × Event))) {i : ι}
    {action : Action} {event : Event} (h : w.fire sha1 config i action = some (event, w')) :
    (recorded history w).fire sha1 config (i, action) =
      some (recorded (⟨w, (i, event), w'⟩ :: history) w') := by
  have hfire : (recorded history w).swarm.fire sha1 config i action = some (event, w') := h
  have hcons := recorded_cons history ⟨w, (i, event), w'⟩
  rw [Recorded.fire, hfire]
  exact congrArg some hcons.symm

/-- The steps of a run. -/
theorem schedule_of_run (hrun : (machine sha1 metadata peerId).Run history w) :
    ∃ disk tracked, ∃ schedule : List (ι × Action),
      schedule.foldlM (Recorded.fire sha1 (sessionConfig metadata peerId))
        (recorded [] (new metadata disk tracked)) = some (recorded history w) := by
  induction hrun with
  | start hs =>
    obtain ⟨disk, tracked, rfl⟩ := hs
    exact ⟨disk, tracked, [], rfl⟩
  | @snoc history w w' l _ hlast ih =>
    obtain ⟨disk, tracked, schedule, hschedule⟩ := ih
    obtain ⟨action, hfire⟩ := hlast
    refine ⟨disk, tracked, schedule ++ [(l.1, action)], ?_⟩
    have hstep := recorded_fire history hfire
    rw [List.foldlM_append, hschedule]
    exact (Option.bind_some _ _).trans (by rw [List.foldlM_cons, hstep]; rfl)

/-- A step as a schedule has it: whose it is, and whether it is one of the socket. -/
def kind (t : Transition (Swarm ι) (ι × Event)) : ι × Bool := (t.label.1, t.label.2.isIo)

theorem fire_isIo {i : ι} {action : Action} {event : Event}
    (h : w.fire sha1 config i action = some (event, w')) : event.isIo = action.isIo := by
  cases action with
  | io io =>
    obtain ⟨_, _, h⟩ := Option.bind_eq_some_iff.mp h
    cases h
    rfl
  | call fate =>
    obtain ⟨_, _, h⟩ := Option.bind_eq_some_iff.mp h
    split at h
    · cases h
    · obtain ⟨_, _, h⟩ := Option.bind_eq_some_iff.mp h
      cases h
      rfl

/-- Steps that can be taken make a run. -/
theorem run_of_schedule {schedule : List (ι × Action)} {y : Recorded ι}
    (hrun : (machine sha1 metadata peerId).Run history w)
    (h : schedule.foldlM (Recorded.fire sha1 (sessionConfig metadata peerId))
      (recorded history w) = some y) :
    ∃ history' w', (machine sha1 metadata peerId).Run history' w' ∧ recorded history' w' = y ∧
      history'.reverse.map kind = history.reverse.map kind ++
        schedule.map fun step => (step.1, step.2.isIo) := by
  induction schedule generalizing history w with
  | nil =>
    refine ⟨history, w, hrun, Option.some.inj h, ?_⟩
    rw [List.map_nil, List.append_nil]
  | cons step rest ih =>
    obtain ⟨x, hstep, hrest⟩ := Option.bind_eq_some_iff.mp h
    obtain ⟨⟨event, w₁⟩, hfire, _⟩ := Option.map_eq_some_iff.mp hstep
    have hnext : (machine sha1 metadata peerId).step w (step.1, event) w₁ := ⟨step.2, hfire⟩
    have hx := Option.some.inj (hstep.symm.trans (recorded_fire history hfire))
    rw [hx] at hrest
    obtain ⟨history', w', hrun', hy, hkinds⟩ := ih (hrun.snoc hnext) hrest
    refine ⟨history', w', hrun', hy, ?_⟩
    rw [hkinds, List.reverse_cons, List.map_append, List.map_cons, List.append_assoc]
    rw [kind, fire_isIo hfire]
    rfl

/-- A session is interrupted right after a call only, or when it has taken its last step. -/
def Whole (history : List (Transition (Swarm ι) (ι × Event))) : Prop :=
  Uninterrupted (fun t => t.label.1) (fun t => t.label.2.isIo) history.reverse

instance (history : List (Transition (Swarm ι) (ι × Event))) : Decidable (Whole history) :=
  inferInstanceAs (Decidable (Uninterrupted _ _ history.reverse))

/-- **Sessions need not be interrupted.**  For every run of any number of sessions, in any
interleaving, there is a run to the same state in which no session is interrupted between
two calls of the manager, and neither the manager nor any session can tell the two
apart. -/
theorem run_whole (hrun : (machine sha1 metadata peerId).Run history w) :
    ∃ history', (machine sha1 metadata peerId).Run history' w ∧ Whole history' ∧
      managerHistory history' = managerHistory history ∧
      ∀ i, sessionHistory i history' = sessionHistory i history := by
  obtain ⟨disk, tracked, schedule, hschedule⟩ := schedule_of_run hrun
  obtain ⟨schedule', hsame, hwhole⟩ := exists_uninterrupted uses Prod.fst
    (fun step => step.2.isIo) (fun a b ha hne => independent_iff.mpr ⟨hne, Or.inl ha⟩) schedule
  rw [foldlM_eq_of_sameOrders commutes_fire (fun step => ⟨some step.1, uses_own step⟩) hsame]
    at hschedule
  obtain ⟨history', w', hrun', hy, hkinds⟩ :=
    run_of_schedule (.start ⟨disk, tracked, rfl⟩) hschedule
  obtain rfl : w' = w := congrArg Recorded.swarm hy
  refine ⟨history', hrun', ?_, congrArg Recorded.calls hy,
    fun i => congrFun (congrArg Recorded.events hy) i⟩
  have hwhole : Uninterrupted Prod.fst Prod.snd
      (schedule'.map fun step => (step.1, step.2.isIo)) := uninterrupted_map.mpr hwhole
  rw [List.reverse_nil, List.map_nil, List.nil_append] at hkinds
  rw [← hkinds] at hwhole
  exact uninterrupted_map.mp hwhole

/-- Two sessions in turn. -/
def alternating (actions : List Action) : List (Bool × Action) :=
  actions.flatMap fun action => [(true, action), (false, action)]

theorem run_whole_alternating :
    ∃ history, ∃ w : Swarm Bool,
      (machine PieceManager.sampleSha1 oneBlock samplePeerId).Run history w ∧ ¬ Whole history ∧
      ∃ history', (machine PieceManager.sampleSha1 oneBlock samplePeerId).Run history' w ∧
        Whole history' ∧ managerHistory history' = managerHistory history := by
  have hfire : (fireAll PieceManager.sampleSha1 (sessionConfig oneBlock samplePeerId)
      (new oneBlock PieceManager.emptyFile true)
      (alternating (opening oneBlock.infoHash [128] ++ [.call .written])) []).any
      (fun r => !decide (Whole r.1)) = true := by
    decide +kernel
  obtain ⟨history, w, hrun, hinterrupted⟩ := exists_run hfire
  obtain ⟨history', hrun', hwhole, hcalls, _⟩ := run_whole hrun
  exact ⟨history, w, hrun, by simpa using hinterrupted, history', hrun', hwhole, hcalls⟩

end Swarm

end BitTorrentClient
