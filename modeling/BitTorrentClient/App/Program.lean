/-
  App/Program.lean --- the program as a whole (`main.cpp`, `download` of
  `app/torrent_orchestrator.cpp`, `start` and `stop` of `app/peer_manager.cpp`).

  `main` loads the torrent, asks the tracker for peers, makes a session for each of
  them and starts threads that run the sessions; then it waits for the download and
  joins the threads.  An exception that leaves `download` is caught in `main`, after
  the orchestrator was destroyed, and with it the vector of threads.

  The vector is built with four objects that are no threads, and the threads are
  appended to them.  Joining an object that is no thread throws, and destroying one
  that is a thread terminates the program: both are rules of the standard library.

  The sessions are the swarm.  Once an exception has left `download` the destruction
  of what they use has begun, and they take no step here any more.
-/
import BitTorrentClient.Core.Announce
import BitTorrentClient.Core.TorrentFile
import BitTorrentClient.App.PeerManager
import BitTorrentClient.App.Swarm
import BitTorrentClient.App.TorrentOrchestrator

set_option autoImplicit false

namespace BitTorrentClient

open Library Bencode

/-! ## Before the sessions -/

/-- What the program finds: the file, the random numbers, the network and the disk. -/
structure Surroundings (Url : Type) where
  path : String
  verbose : Bool
  file : FileOutcome
  draw : Nat → Fin Tracker.characters.length
  urls : UrlLibrary Url
  get : Bytes → HttpResponse
  disk : Disk

/-- What `download` has before it starts the sessions. -/
structure Launch where
  metadata : TorrentMetadata
  peerId : Bytes
  peers : List Peer
  deriving DecidableEq

/-- Load the torrent and ask the tracker. -/
def Surroundings.launch {Url : Type} (env : Surroundings Url) (sha1 : Bytes → Sha1Hash)
    (fuel : Nat) : Except Stop Launch := do
  let metadata ← Loader.parseTorrentData sha1 fuel env.path env.file
  let peerId := Tracker.generateId 20 env.draw
  let trackerResponse ← Tracker.announceAndGetPeers env.urls env.get fuel metadata peerId
  let peers := PeerManager.deserializePeerBuffer trackerResponse.peersBlob
  pure { metadata := metadata, peerId := peerId, peers := peers }

/-! ## The threads -/

/-- What an object of the thread vector stands for. -/
inductive ThreadObject where
  /-- no thread: none was started for it, or it was joined -/
  | vacant
  /-- a thread that runs the sessions -/
  | running
  /-- a thread that has nothing left to run and was not joined yet -/
  | returned
  deriving DecidableEq, Repr

/-- There is a thread to join. -/
def ThreadObject.joinable : ThreadObject → Bool
  | .vacant => false
  | .running => true
  | .returned => true

/-- How many threads the sessions get. -/
def threadCount : Nat := 4

/-- Where the main thread is. -/
inductive MainPoint where
  /-- in the loop of `start`, with this many threads started -/
  | starting (made : Nat)
  /-- in the wait for the download -/
  | waiting (point : WaitPoint)
  /-- in the loop of `stop`, about to join this object -/
  | stopping (next : Nat)
  /-- an exception has left `download`, and the orchestrator is to be destroyed -/
  | unwinding
  /-- `download` has returned, and the orchestrator is to be destroyed -/
  | returning
  /-- the program is over, with this status -/
  | exited (status : Nat)
  /-- the program was terminated -/
  | terminated
  deriving DecidableEq, Repr

/-- The program, from the loop of `start` on. -/
structure Program (ι : Type) where
  main : MainPoint
  threadPool : List ThreadObject
  swarm : Swarm ι
  /-- a call of `deliverBlock` is about to notify and then to return -/
  owes : Bool

namespace Program

variable {ι : Type}

/-- What may happen next. -/
inductive Action (ι : Type) where
  /-- the main thread goes on; where it starts a thread, the system grants it or not -/
  | main (granted : Bool)
  /-- a session takes a step -/
  | session (i : ι) (action : BitTorrentClient.Action)
  /-- the call that is about to notify does it -/
  | notify
  /-- a thread finds that no session is left -/
  | leave (thread : Nat)
  deriving DecidableEq, Repr

/-- What happened. -/
inductive Label (ι : Type) where
  | main (granted : Bool)
  | session (i : ι) (event : Event)
  | notify
  | leave (thread : Nat)

/-- The objects are made and no thread is started. -/
def new (metadata : TorrentMetadata) (disk : Disk) (tracked : Bool) : Program ι where
  main := .starting 0
  threadPool := List.replicate threadCount .vacant
  swarm := Swarm.new metadata disk tracked
  owes := false

/-- The sessions may take steps: the main thread has not left `download`, and there is
a thread to run them. -/
def serving (p : Program ι) : Bool :=
  match p.main with
  | .starting _ | .waiting _ | .stopping _ => p.threadPool.contains .running
  | _ => false

/-- No other call of the manager comes between the effects of a call and its return. -/
def admits (p : Program ι) : BitTorrentClient.Action → Bool
  | .io _ => true
  | .call _ => !p.owes

/-- Destroy the orchestrator; without a thread that was not joined the program goes on
to this status. -/
def destroy (p : Program ι) (status : Nat) : Program ι :=
  if p.threadPool.any ThreadObject.joinable then { p with main := .terminated }
  else { p with main := .exited status }

/-- The main thread goes on. -/
def advance (p : Program ι) (granted : Bool) : Option (Program ι) :=
  match p.main with
  | .starting made =>
      if made = threadCount then some { p with main := .waiting .outside }
      else if granted then
        some { p with main := .starting (made + 1), threadPool := p.threadPool ++ [.running] }
      else some { p with main := .unwinding }
  | .waiting .passed => some { p with main := .stopping 0 }
  | .waiting point =>
      (point.next p.swarm.manager.isComplete).map fun point => { p with main := .waiting point }
  | .stopping next =>
      match p.threadPool[next]? with
      | none => some { p with main := .returning }
      | some .vacant => some { p with main := .unwinding }
      | some .running => none
      | some .returned => some { p with
          main := .stopping (next + 1)
          threadPool := p.threadPool.set next .vacant }
  | .unwinding => some (p.destroy 1)
  | .returning => some (p.destroy 0)
  | .exited _ => none
  | .terminated => none

/-- A notification reaches the main thread while it waits. -/
def notified (p : Program ι) : Program ι :=
  match p.main with
  | .waiting point => { p with main := .waiting point.notified, owes := false }
  | _ => { p with owes := false }

/-- The swarm after a step of a session. -/
def withSwarm (p : Program ι) (w : Swarm ι) : Program ι :=
  { p with
    swarm := w
    owes := p.owes ||
      decide (p.swarm.manager.completionNotified < w.manager.completionNotified) }

/-- No session is left to run. -/
def Deserted (p : Program ι) : Prop := ∀ i, (p.swarm.sessions i).point = .ended

instance [Fintype ι] (p : Program ι) : Decidable p.Deserted :=
  inferInstanceAs (Decidable (∀ i, (p.swarm.sessions i).point = .ended))

variable [DecidableEq ι] [Fintype ι]

/-- One step. -/
def act (sha1 : Bytes → Sha1Hash) (config : SessionConfig) (p : Program ι) :
    Action ι → Option (Label ι × Program ι)
  | .main granted => (p.advance granted).map fun p' => (.main granted, p')
  | .session i action =>
      if p.serving && p.admits action then
        (p.swarm.fire sha1 config i action).map fun r => (.session i r.1, p.withSwarm r.2)
      else none
  | .notify => if p.owes then some (.notify, p.notified) else none
  | .leave thread =>
      if p.Deserted ∧ p.threadPool[thread]? = some .running then
        some (.leave thread, { p with threadPool := p.threadPool.set thread .returned })
      else none

/-- The program from the start of the sessions on, under any interleaving. -/
def machine (sha1 : Bytes → Sha1Hash) (launch : Launch) (disk : Disk) (tracked : Bool) :
    Machine (Program (Fin launch.peers.length)) (Label (Fin launch.peers.length)) where
  init p := p = new launch.metadata disk tracked
  step p l p' :=
    ∃ action, p.act sha1 (sessionConfig launch.metadata launch.peerId) action = some (l, p')

/-- Take steps one after another, recording them newest first. -/
def actAll (sha1 : Bytes → Sha1Hash) (config : SessionConfig) (p : Program ι) :
    List (Action ι) → List (Transition (Program ι) (Label ι)) →
      Option (List (Transition (Program ι) (Label ι)) × Program ι)
  | [], history => some (history, p)
  | action :: rest, history => do
      let (l, p') ← p.act sha1 config action
      actAll sha1 config p' rest (⟨p, l, p'⟩ :: history)

theorem actAll_run {sha1 : Bytes → Sha1Hash} {launch : Launch} {disk : Disk} {tracked : Bool}
    (actions : List (Action (Fin launch.peers.length)))
    {p p' : Program (Fin launch.peers.length)}
    {history history' : List (Transition (Program (Fin launch.peers.length))
      (Label (Fin launch.peers.length)))}
    (hrun : (machine sha1 launch disk tracked).Run history p)
    (h : p.actAll sha1 (sessionConfig launch.metadata launch.peerId) actions history =
      some (history', p')) : (machine sha1 launch disk tracked).Run history' p' := by
  induction actions generalizing p history with
  | nil =>
    cases h
    exact hrun
  | cons action rest ih =>
    obtain ⟨⟨l, p₁⟩, hact, h⟩ := Option.bind_eq_some_iff.mp h
    have hstep : (machine sha1 launch disk tracked).step p l p₁ := ⟨action, hact⟩
    exact ih (hrun.snoc hstep) h

/-- A run that takes these steps, when they can be taken. -/
theorem exists_run {sha1 : Bytes → Sha1Hash} (launch : Launch) {disk : Disk} {tracked : Bool}
    {actions : List (Action (Fin launch.peers.length))}
    {holds : List (Transition (Program (Fin launch.peers.length))
      (Label (Fin launch.peers.length))) × Program (Fin launch.peers.length) → Bool}
    (h : ((new launch.metadata disk tracked).actAll sha1
      (sessionConfig launch.metadata launch.peerId) actions []).any holds = true) :
    ∃ history p, (machine sha1 launch disk tracked).Run history p ∧ holds (history, p) = true := by
  obtain ⟨⟨history, p⟩, hact, hholds⟩ := (Option.any_eq_true _ _).mp h
  exact ⟨history, p, actAll_run actions (.start rfl) hact, hholds⟩

/-! ## What one step can do -/

variable {sha1 : Bytes → Sha1Hash} {config : SessionConfig} {p p' : Program ι}

omit [DecidableEq ι] [Fintype ι] in
/-- What the main thread does, by where it is. -/
inductive Advanced (p : Program ι) : Program ι → Prop
  | counted : p.main = .starting threadCount → Advanced p { p with main := .waiting .outside }
  | started {made : Nat} : p.main = .starting made → made ≠ threadCount →
      Advanced p { p with main := .starting (made + 1), threadPool := p.threadPool ++ [.running] }
  | denied {made : Nat} : p.main = .starting made → made ≠ threadCount →
      Advanced p { p with main := .unwinding }
  | passed : p.main = .waiting .passed → Advanced p { p with main := .stopping 0 }
  | waited {point point' : WaitPoint} : p.main = .waiting point →
      point.next p.swarm.manager.isComplete = some point' →
      Advanced p { p with main := .waiting point' }
  | stopped {next : Nat} : p.main = .stopping next → p.threadPool[next]? = none →
      Advanced p { p with main := .returning }
  | threw {next : Nat} : p.main = .stopping next → p.threadPool[next]? = some .vacant →
      Advanced p { p with main := .unwinding }
  | joined {next : Nat} : p.main = .stopping next → p.threadPool[next]? = some .returned →
      Advanced p { p with
        main := .stopping (next + 1)
        threadPool := p.threadPool.set next .vacant }
  | unwound : p.main = .unwinding → Advanced p (p.destroy 1)
  | returned : p.main = .returning → Advanced p (p.destroy 0)

omit [DecidableEq ι] [Fintype ι] in
theorem advance_advanced {granted : Bool} (h : p.advance granted = some p') : p.Advanced p' := by
  unfold advance at h
  split at h
  · rename_i made hmain
    split at h
    · rename_i hall
      cases h
      exact .counted (hall ▸ hmain)
    · rename_i hfew
      split at h
      · cases h
        exact .started hmain hfew
      · cases h
        exact .denied hmain hfew
  · rename_i hmain
    cases h
    exact .passed hmain
  · rename_i point _ hmain
    obtain ⟨point', hnext, rfl⟩ := Option.map_eq_some_iff.mp h
    exact .waited hmain hnext
  · rename_i next hmain
    split at h
    · rename_i hend
      cases h
      exact .stopped hmain hend
    · rename_i hvacant
      cases h
      exact .threw hmain hvacant
    · cases h
    · rename_i hreturned
      cases h
      exact .joined hmain hreturned
  · rename_i hmain
    cases h
    exact .unwound hmain
  · rename_i hmain
    cases h
    exact .returned hmain
  · cases h
  · cases h

/-- The step relation, by the kind of step. -/
inductive Step (sha1 : Bytes → Sha1Hash) (config : SessionConfig) (p : Program ι) :
    Label ι → Program ι → Prop
  | main {granted : Bool} {p' : Program ι} : p.Advanced p' → Step sha1 config p (.main granted) p'
  | session {i : ι} {action : BitTorrentClient.Action} {event : Event} {w : Swarm ι} :
      p.serving = true → p.admits action = true →
      p.swarm.fire sha1 config i action = some (event, w) →
      Step sha1 config p (.session i event) (p.withSwarm w)
  | notified : p.owes = true → Step sha1 config p .notify p.notified
  | left {thread : Nat} : p.Deserted → p.threadPool[thread]? = some .running →
      Step sha1 config p (.leave thread)
        { p with threadPool := p.threadPool.set thread .returned }

theorem act_step {action : Action ι} {l : Label ι}
    (h : p.act sha1 config action = some (l, p')) : p.Step sha1 config l p' := by
  cases action with
  | main granted =>
    obtain ⟨_, hadvance, h⟩ := Option.map_eq_some_iff.mp h
    cases h
    exact .main (advance_advanced hadvance)
  | session i action =>
    obtain ⟨hmay, h⟩ := Option.ite_none_right_eq_some.mp h
    obtain ⟨hserving, hadmits⟩ := Bool.and_eq_true_iff.mp hmay
    obtain ⟨⟨event, w⟩, hfire, h⟩ := Option.map_eq_some_iff.mp h
    cases h
    exact .session hserving hadmits hfire
  | notify =>
    obtain ⟨howes, h⟩ := Option.ite_none_right_eq_some.mp h
    cases h
    exact .notified howes
  | leave thread =>
    obtain ⟨⟨hdeserted, hrunning⟩, h⟩ := Option.ite_none_right_eq_some.mp h
    cases h
    exact .left hdeserted hrunning

omit [DecidableEq ι] [Fintype ι] in
@[simp] theorem notified_swarm (p : Program ι) : p.notified.swarm = p.swarm := by
  unfold notified
  split <;> rfl

omit [DecidableEq ι] [Fintype ι] in
@[simp] theorem notified_threadPool (p : Program ι) : p.notified.threadPool = p.threadPool := by
  unfold notified
  split <;> rfl

omit [DecidableEq ι] [Fintype ι] in
@[simp] theorem destroy_swarm (p : Program ι) (status : Nat) :
    (p.destroy status).swarm = p.swarm := by
  unfold destroy
  split <;> rfl

omit [DecidableEq ι] [Fintype ι] in
@[simp] theorem destroy_threadPool (p : Program ι) (status : Nat) :
    (p.destroy status).threadPool = p.threadPool := by
  unfold destroy
  split <;> rfl

omit [DecidableEq ι] [Fintype ι] in
@[simp] theorem destroy_owes (p : Program ι) (status : Nat) :
    (p.destroy status).owes = p.owes := by
  unfold destroy
  split <;> rfl

omit [DecidableEq ι] [Fintype ι] in
/-- The main thread takes no part in the swarm. -/
theorem Advanced.swarm (h : p.Advanced p') : p'.swarm = p.swarm := by
  cases h with
  | unwound _ => exact destroy_swarm p 1
  | returned _ => exact destroy_swarm p 0
  | _ => rfl

/-! ## The swarm in the program -/

/-- The step of a session, if it was one. -/
def swarmStep (t : Transition (Program ι) (Label ι)) : Option (ι × Event) :=
  match t.label with
  | .session i event => some (i, event)
  | _ => none

/-- What the sessions did. -/
def swarmHistory (history : List (Transition (Program ι) (Label ι))) :
    List (Transition (Swarm ι) (ι × Event)) :=
  Machine.project Program.swarm swarmStep history

variable {launch : Launch} {disk : Disk} {tracked : Bool}
  {history : List (Transition (Program (Fin launch.peers.length))
    (Label (Fin launch.peers.length)))} {q : Program (Fin launch.peers.length)}

theorem refines_swarm : Machine.Refines Program.swarm swarmStep (machine sha1 launch disk tracked)
    (Swarm.machine sha1 launch.metadata launch.peerId) := by
  rintro p l p' ⟨action, hact⟩
  cases act_step hact with
  | main hadvanced => exact hadvanced.swarm
  | @session i action event w _ _ hfire => exact ⟨action, hfire⟩
  | notified _ => exact notified_swarm p
  | left _ _ => rfl

/-- Whatever the program does, its sessions and their manager make a run of the swarm. -/
theorem swarm_run (hrun : (machine sha1 launch disk tracked).Run history q) :
    (Swarm.machine sha1 launch.metadata launch.peerId).Run (swarmHistory history) q.swarm := by
  refine Machine.Run.project refines_swarm ?_ hrun
  rintro p rfl
  exact ⟨disk, tracked, rfl⟩

end Program

/-- How a run of the program ends. -/
inductive Ending where
  | exited (status : Nat)
  | terminated
  deriving DecidableEq, Repr

/-- The program can end like this.  The progress display is there without `-v` only. -/
inductive Surroundings.Ends {Url : Type} (env : Surroundings Url) (sha1 : Bytes → Sha1Hash) :
    Ending → Prop
  /-- an exception leaves the constructor, or `download` before the sessions -/
  | refused {fuel : Nat} {e : StdException} : env.launch sha1 fuel = .error (.throws e) →
      Ends env sha1 (.exited 1)
  | exited {fuel : Nat} {launch : Launch} {history : List (Transition _ _)} {p : Program _}
      {status : Nat} : env.launch sha1 fuel = .ok launch →
      (Program.machine sha1 launch env.disk (!env.verbose)).Run history p →
      p.main = .exited status → Ends env sha1 (.exited status)
  | terminated {fuel : Nat} {launch : Launch} {history : List (Transition _ _)} {p : Program _} :
      env.launch sha1 fuel = .ok launch →
      (Program.machine sha1 launch env.disk (!env.verbose)).Run history p →
      p.main = .terminated → Ends env sha1 .terminated

/-! ## An example -/

namespace Program

/-- The digest of the info dictionary of the example. -/
def infoDigest : Sha1Hash :=
  ⟨[114, 107, 99, 141, 105, 57, 94, 223, 246, 45, 71, 246, 76, 100, 41, 129, 115, 120, 205, 172],
    rfl⟩

/-- A torrent of one piece of one byte. -/
def sampleTorrent : TorrentMetadata :=
  { Swarm.oneBlock with announce := ascii "http://t/a", infoHash := infoDigest }

/-- SHA1 on the piece and on the info dictionary of the example. -/
def sampleSha1 (data : Bytes) : Sha1Hash :=
  if data = Loader.hashedInfo sampleTorrent.info then infoDigest
  else PieceManager.sampleSha1 data

/-- One byte of a query. -/
def queryByte (byte : UInt8) : Bytes :=
  let plain := Tracker.characters ++ ascii "*-._"
  if plain.contains byte then [byte]
  else if byte = 32 then ascii "+"
  else ascii "%" ++ [Tracker.characters.getD (byte.toNat / 16) 0,
    Tracker.characters.getD (byte.toNat % 16) 0]

/-- A query, as it is printed. -/
def queryOf (params : List (Bytes × Bytes)) : Bytes :=
  List.intercalate (ascii "&")
    (params.map fun param => param.1.flatMap queryByte ++ ascii "=" ++ param.2.flatMap queryByte)

/-- A URL without a query of its own, and the query it is given. -/
def sampleUrls : UrlLibrary (Bytes × Bytes) where
  parse announce := some (announce, [])
  searchParams := queryOf
  setSearch url query := (url.1, query)
  href url := url.1 ++ ascii "?" ++ url.2

/-- A torrent file and a tracker that names these peers. -/
def sampleSurroundings (peers : List Peer) : Surroundings (Bytes × Bytes) where
  path := "some.torrent"
  verbose := false
  file := .read (encode (.dict (Loader.rootOf sampleTorrent)))
  draw _ := ⟨10, by decide⟩
  urls := sampleUrls
  get _ := ⟨200, "", encode (PeerManager.reply 1800 peers)⟩
  disk := PieceManager.emptyFile

def samplePeer : Peer := ⟨6881, List.Vector.replicate 4 127⟩

/-- What the program starts the sessions with. -/
def sampleLaunch (peers : List Peer) : Launch where
  metadata := sampleTorrent
  peerId := Swarm.samplePeerId
  peers := peers

/-- The threads are started and the wait begins. -/
def begun (ι : Type) : List (Action ι) := List.replicate 8 (.main true)

/-- The session downloads the piece, the main thread is woken up and goes on to the end. -/
def sampleActions {ι : Type} (i : ι) : List (Action ι) :=
  let piece : List BitTorrentClient.Action := [.io (.read (some (htonl 10))),
    .io (.read (some (Msg.Id.piece.toByte :: htonl 0 ++ htonl 0 ++ [7]))), .call .written]
  let download := Swarm.opening infoDigest [128] ++ Swarm.asked true 31 ++ piece
  begun ι ++ download.map (fun action => .session i action) ++
    [.notify, .main true, .main true, .main true, .main true, .main true]

end Program

end BitTorrentClient
