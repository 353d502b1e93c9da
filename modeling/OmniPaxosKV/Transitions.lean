import OmniPaxosKV.Server
import OmniPaxosKV.ReleaseOrder

-- The steps of a server as rules: what each of them can do, guards included.
namespace OmniPaxosKV.Transitions

-- Tasks of the clock's synchronization, and tasks that are over.
def background : Task T → Bool
  | .sendMasterTime _ => true
  | .answerSync _ => true
  | .syncStart => true
  | .syncWait _ => true
  | .resync _ => true
  | .finished => true
  | .panicked => true
  | _ => false

def sync : Message T → Bool
  | .sequencePaxos ⟨_,_,.syncReq⟩ => true
  | .sequencePaxos ⟨_,_,.syncAnswer _⟩ => true
  | _ => false

inductive Advance [Entry T] (hasher : List UInt8 → UInt64) :
    SequencePaxos T → Task T → SequencePaxos T → Task T → Prop where
  | setDecidedIdx : Advance hasher s (.setDecidedIdx idx)
      {s with internalStorage:=(InternalStorage.setDecidedIdx idx s.internalStorage).2} .finished
  | free (found : s.queue.buffers.late key = some r) : Advance hasher s (.freeFromLate sender key newDeadline)
      {s with queue:=s.queue.freeFromLate key newDeadline,
              history:={s.history with freed:=s.history.freed++[(sender,newDeadline,r)]}} .finished
  | freeNothing (absent : s.queue.buffers.late key = none) :
      Advance hasher s (.freeFromLate sender key newDeadline) s .finished
  | insert (kept : (s.queue.insert entry imLeader).2.2 = none) :
      Advance hasher s (.insert entry imLeader speculation)
        {s with queue:=(s.queue.insert entry imLeader).1}
        (.awaitRelease (Request.getId entry) s.queue.nextChannel speculation)
  | insertLate (chosen : (s.queue.insert entry imLeader).2.2 = some newDeadline) :
      Advance hasher s (.insert entry imLeader speculation)
        {s with queue:=(s.queue.insert entry imLeader).1}
        (.announce (Request.getId entry) newDeadline s.queue.nextChannel speculation)
  | announce : Advance hasher s (.announce entryId newDeadline notifier speculation)
      {s with
        outgoing:=s.outgoing++s.peers.map fun peer => .sequencePaxos ⟨s.pid,peer,.newDeadline entryId newDeadline⟩
        history:={s.history with announced:=s.history.announced++[(entryId,newDeadline)]}}
      (.awaitRelease entryId notifier speculation)
  | append (released : s.queue.released.lookup notifier = some req) :
      Advance hasher s (.awaitRelease entryId notifier speculation)
        (s.appendReleased hasher req speculation).1 (s.appendReleased hasher req speculation).2
  | lose (gone : notifier ∈ s.queue.dropped) : Advance hasher s (.awaitRelease entryId notifier speculation) s .finished
  | queueAck {ack : Ack T} : Advance hasher s (.queueAck ack) {s with outgoingClients:=s.outgoingClients++[ack]} .finished
  | background (before : background task = true) (after : background task' = true) (clock : ClockState)
      (extra : List (Message T)) (syncs : ∀ m ∈ extra, sync m = true) :
      Advance hasher s task {s with queue:={s.queue with clock:=clock},outgoing:=s.outgoing++extra} task'

theorem advance_sound [Entry T] {s next : SequencePaxos T} (ran : s.advance hasher now task = some (next,task')) :
    Advance hasher s task next task' := by
  have quiet : ∀ {clock : ClockState} {task task' : Task T}, background task = true → background task' = true →
      Advance hasher s task {s with queue:={s.queue with clock:=clock}} task' := by
    intro clock task task' before after
    have one : Advance hasher s task {s with queue:={s.queue with clock:=clock},outgoing:=s.outgoing++[]} task' :=
      .background before after clock [] (fun _ member => nomatch member)
    simpa using one
  cases task with
  | setDecidedIdx idx => cases Option.some.inj ran; exact .setDecidedIdx
  | freeFromLate sender key newDeadline =>
    simp only [SequencePaxos.advance,Option.some.injEq,Prod.mk.injEq] at ran
    obtain ⟨rfl,rfl⟩ := ran
    cases found : s.queue.buffers.late key with
    | none =>
      simp only [Queue.freeFromLate_none found,List.append_nil]
      exact .freeNothing found
    | some r => exact .free found
  | sendMasterTime t =>
    simp only [SequencePaxos.advance] at ran
    split at ran
    · cases Option.some.inj ran; exact quiet rfl rfl
    · cases ran
  | answerSync sender =>
    cases Option.some.inj ran
    exact .background rfl rfl s.queue.clock _ (by simp [sync])
  | insert entry imLeader speculation =>
    simp only [SequencePaxos.advance] at ran
    have channel : (s.queue.insert entry imLeader).2.1 = s.queue.nextChannel := rfl
    split at ran
    · rename_i queue notifier inserted
      cases Option.some.inj ran
      rw [inserted] at channel
      cases channel
      have rule : Advance hasher s (.insert entry imLeader speculation) _ _ := .insert (congrArg (·.2.2) inserted)
      rwa [inserted] at rule
    · rename_i queue notifier newDeadline inserted
      cases Option.some.inj ran
      rw [inserted] at channel
      cases channel
      have rule : Advance hasher s (.insert entry imLeader speculation) _ _ := .insertLate (congrArg (·.2.2) inserted)
      rwa [inserted] at rule
  | announce entryId newDeadline notifier speculation => cases Option.some.inj ran; exact .announce
  | awaitRelease entryId notifier speculation =>
    simp only [SequencePaxos.advance] at ran
    split at ran
    · rename_i req released
      have parts := Option.some.inj ran
      rw [Prod.ext_iff] at parts
      obtain ⟨rfl,rfl⟩ := parts
      exact .append released
    · split at ran
      · cases Option.some.inj ran; exact .lose ‹_›
      · cases ran
  | queueAck ack => cases Option.some.inj ran; exact .queueAck
  | syncStart =>
    simp only [SequencePaxos.advance] at ran
    split at ran
    · cases Option.some.inj ran; exact quiet rfl rfl
    · cases Option.some.inj ran
      exact .background rfl rfl s.queue.clock _ (by simp [sync])
  | syncWait t0 =>
    simp only [SequencePaxos.advance] at ran
    split at ran
    · cases Option.some.inj ran
      split <;> exact quiet rfl rfl
    · split at ran
      · cases ran
      · cases Option.some.inj ran
        split <;> exact quiet rfl rfl
  | resync corrected => cases Option.some.inj ran; exact quiet rfl rfl
  | finished => cases ran
  | panicked => cases ran

theorem Advance.tasks [Entry T] {s next : SequencePaxos T} (ran : Advance hasher s task next task') :
    next.tasks = s.tasks := by
  cases ran with
  | append released => unfold SequencePaxos.appendReleased; split <;> rfl
  | _ => rfl

-- The two answers a client gets for a decided command.
def answer : ServerMessage → Bool
  | .write _ => true
  | .read _ _ => true
  | _ => false

-- Actions that carry no request and no confirm.
def calm : Server.Act → Bool
  | .tick => true
  | .tryBecomeLeader => true
  | .startSignals _ => true
  | .cluster (.leaderStartSignal _) => true
  | _ => false

abbrev spawn (s : Server) (task : Task Command) : Server := s.withPaxos (s.seqPaxos.spawn task)

-- Proposals and confirms by the role they meet, and everything else. A confirm
-- comes from a client's connection or, in principle, inside a cluster message.
inductive Step (hasher : List UInt8 → UInt64) : Server → Server.Act → Server → Prop where
  | speculate (idle : s.mainLoop = .idle) (leads : s.role = .leader) (made : s.newCommand sender commandId kv = command) :
      Step hasher s (.client sender (.append commandId kv))
        {spawn s (.insert command true (some (s.store.handleCommand command).1)) with
          privateCommandId:=s.privateCommandId+1
          store:=(s.store.handleCommand command).2
          proposed:=s.proposed++[⟨command,.leader,some (s.store.handleCommand command).1⟩]}
  | propose (idle : s.mainLoop = .idle) (follows : s.role = .follower) (made : s.newCommand sender commandId kv = command) :
      Step hasher s (.client sender (.append commandId kv))
        {spawn s (.insert command false none) with
          privateCommandId:=s.privateCommandId+1
          proposed:=s.proposed++[⟨command,.follower,none⟩]}
  | refuse (stopped : s.seqPaxos.internalStorage.stateCache.stopsign.isSome = true) :
      Step hasher s (.client sender (.append commandId kv)) {s with mainLoop:=.panicked}
  | confirm (idle : s.mainLoop = .idle) (carried : action.confirms = some (command,lastIdx))
      (loop : MainLoop) (first : loop = .idle ∨ loop = .readDecidedIdx) :
      Step hasher s action
        {spawn s (.setDecidedIdx lastIdx) with
          store:=if s.role = .follower then (s.store.handleCommand command).2 else s.store
          confirmed:=s.confirmed++[(command,lastIdx,s.role)]
          mainLoop:=loop}
  | newDeadline (idle : s.mainLoop = .idle) :
      Step hasher s (.cluster (.omniPaxosMessage (.sequencePaxos ⟨sender,receiver,.newDeadline entryId newDeadline⟩)))
        {spawn s (.freeFromLate sender entryId newDeadline) with mainLoop:=.readDecidedIdx}
  | synchronize (idle : s.mainLoop = .idle) (sync : background task = true) :
      Step hasher s (.cluster m) {spawn s task with mainLoop:=.readDecidedIdx}
  | heartbeat (idle : s.mainLoop = .idle) (ble : BallotLeaderElection) :
      Step hasher s (.cluster m) {s with omnipaxos:={s.omnipaxos with ble:=ble},mainLoop:=.readDecidedIdx}
  | signal (idle : s.mainLoop = .idle) (quiet : calm action = true)
      (clients : ∀ m ∈ toClient, ∃ t, m.2 = .startSignal t) (peers : ∀ m ∈ toCluster, ∃ t, m.2 = .leaderStartSignal t) :
      Step hasher s action {s with toClient:=s.toClient++toClient,toCluster:=s.toCluster++toCluster}
  | behind (loop : s.mainLoop = .readDecidedIdx) (newer : s.currentDecidedIdx < s.decidedIdx) :
      Step hasher s .decided {s with mainLoop:=.readDecidedSuffix s.decidedIdx}
  | upToDate (loop : s.mainLoop = .readDecidedIdx) (known : s.decidedIdx ≤ s.currentDecidedIdx) :
      Step hasher s .decided {s with mainLoop:=.idle}
  | replay (loop : s.mainLoop = .readDecidedSuffix idx)
      (suffix : s.seqPaxos.internalStorage.readDecidedSuffix s.currentDecidedIdx = .ok (some entries))
      (decided : Server.decidedCommands entries = some commands) (answers : ∀ m ∈ toClient, answer m.2 = true) :
      Step hasher s .decided
        {s with
          currentDecidedIdx:=idx
          store:=⟨s.store.database.applyAll (commands.map Command.kvCmd),s.store.executed++commands⟩
          toClient:=s.toClient++toClient
          mainLoop:=.idle}
  | crash (current : Nat) : Step hasher s .decided {s with currentDecidedIdx:=current,mainLoop:=.panicked}
  | rest (idle : s.mainLoop = .idle) (quiet : calm action = true) (ble : BallotLeaderElection) (clock : LogicalClock) :
      Step hasher s action {s with omnipaxos:={s.omnipaxos with ble:=ble,electionClock:=clock}}
  | elect (idle : s.mainLoop = .idle) (quiet : calm action = true) (ble : BallotLeaderElection)
      (clock : LogicalClock) (n : Ballot) :
      Step hasher s action
        {s with omnipaxos:={seqPaxos:=s.seqPaxos.handleLeader n,ble:=ble,electionClock:=clock}}
  | reconnect (idle : s.mainLoop = .idle) :
      Step hasher s (.reconnected pid) (s.withPaxos (s.seqPaxos.reconnected pid))
  | send (idle : s.mainLoop = .idle) : Step hasher s .send s.sendOutgoingMsgs
  | task (found : s.seqPaxos.tasks[place]? = some task) (ran : Advance hasher s.seqPaxos task next task') :
      Step hasher s (.task place now) (s.withPaxos {next with tasks:=s.seqPaxos.tasks.set place task'})
  | wait (waits : ReleaseOrder.Waits s.seqPaxos.queue queue) :
      Step hasher s .wait (s.withPaxos {s.seqPaxos with queue:=queue})
  | clockTick (clock : ClockState) (fired : List Channel) : Step hasher s (.clockTick fast)
      (s.withPaxos {s.seqPaxos with queue:={s.seqPaxos.queue with clock:=clock,fired:=fired}})
  | clockSync (clock : ClockState) (fired : List Channel) : Step hasher s (.clockTick fast)
      (s.withPaxos ({s.seqPaxos with queue:={s.seqPaxos.queue with clock:=clock,fired:=fired}}.spawn .syncStart))

theorem append_sound {s : Server} (idle : s.mainLoop = .idle) :
    Step hasher s (.client sender (.append commandId kv)) (s.appendToLog sender commandId kv) := by
  unfold Server.appendToLog
  dsimp only
  split
  · rename_i refused
    unfold SequencePaxos.append at refused
    split at refused
    · exact .refuse ‹_›
    · cases refused
  · rename_i seqPaxos store proposed
    unfold SequencePaxos.append at proposed
    split at proposed
    · cases proposed
    · simp only [Option.some.injEq] at proposed
      unfold SequencePaxos.proposeEntry at proposed
      split at proposed
      · rename_i follows
        cases proposed
        have rule : Step hasher s (.client sender (.append commandId kv)) _ := .propose idle follows rfl
        rw [show s.role = .follower from follows]
        exact rule
      · rename_i leads
        cases proposed
        have rule : Step hasher s (.client sender (.append commandId kv)) _ := .speculate idle leads rfl
        rw [show s.role = .leader from leads]
        exact rule

theorem cluster_sound {s : Server} (idle : s.mainLoop = .idle) :
    Step hasher s (.cluster m) (s.handleClusterMessage m) := by
  cases m with
  | leaderStartSignal startTime =>
    have rule : Step hasher s (.cluster (.leaderStartSignal startTime))
        {s.sendClientStartSignals startTime with toCluster:=s.toCluster++[]} := .signal idle rfl (by simp) (by simp)
    rw [List.append_nil] at rule
    exact rule
  | omniPaxosMessage m =>
    cases m with
    | ble m =>
      have rule : Step hasher s (.cluster (.omniPaxosMessage (.ble m))) _ := .heartbeat idle (s.omnipaxos.ble.handle m)
      simpa [Server.handleClusterMessage,OmniPaxos.handleIncoming,Server.confirmIn] using rule
    | sequencePaxos p =>
      obtain ⟨sender,receiver,msg⟩ := p
      cases msg with
      | confirm entry acceptedIdx => exact .confirm idle rfl .readDecidedIdx (.inr rfl)
      | newDeadline entryId newDeadline =>
        have rule : Step hasher s
            (.cluster (.omniPaxosMessage (.sequencePaxos ⟨sender,receiver,.newDeadline entryId newDeadline⟩))) _ :=
          .newDeadline idle
        simpa [Server.handleClusterMessage,OmniPaxos.handleIncoming,SequencePaxos.handle,Server.confirmIn,spawn,
          Server.withPaxos] using rule
      | ack req hash speculation acceptedIdx =>
        have rule : Step hasher s
            (.cluster (.omniPaxosMessage (.sequencePaxos ⟨sender,receiver,.ack req hash speculation acceptedIdx⟩))) _ :=
          .heartbeat idle s.omnipaxos.ble
        simpa [Server.handleClusterMessage,OmniPaxos.handleIncoming,SequencePaxos.handle,Server.confirmIn] using rule
      | syncReq =>
        have rule : Step hasher s (.cluster (.omniPaxosMessage (.sequencePaxos ⟨sender,receiver,.syncReq⟩)))
            {spawn s (.answerSync sender) with mainLoop:=.readDecidedIdx} := .synchronize idle rfl
        simpa [Server.handleClusterMessage,OmniPaxos.handleIncoming,SequencePaxos.handle,Server.confirmIn,spawn,
          Server.withPaxos] using rule
      | syncAnswer t =>
        have rule : Step hasher s (.cluster (.omniPaxosMessage (.sequencePaxos ⟨sender,receiver,.syncAnswer t⟩)))
            {spawn s (.sendMasterTime t) with mainLoop:=.readDecidedIdx} := .synchronize idle rfl
        simpa [Server.handleClusterMessage,OmniPaxos.handleIncoming,SequencePaxos.handle,Server.confirmIn,spawn,
          Server.withPaxos] using rule

theorem updateDatabaseAndRespond_eq (s : Server) (commands : List Command) :
    ∃ toClient, (∀ m ∈ toClient, answer m.2 = true) ∧ s.updateDatabaseAndRespond commands =
      {s with
        store:=⟨s.store.database.applyAll (commands.map Command.kvCmd),s.store.executed++commands⟩
        toClient:=s.toClient++toClient} := by
  induction commands generalizing s with
  | nil => exact ⟨[],by simp,by simp [Server.updateDatabaseAndRespond]⟩
  | cons command rest ih =>
    obtain ⟨later,answers,same⟩ := ih
      {s with
        store:=(s.store.handleCommand command).2
        toClient:=s.toClient++s.respond command (s.store.handleCommand command).1}
    refine ⟨s.respond command (s.store.handleCommand command).1++later,?_,?_⟩
    · intro m member
      rcases List.mem_append.mp member with own | other
      · unfold Server.respond at own
        split at own
        · cases List.mem_singleton.mp own
          split <;> rfl
        · cases own
      · exact answers m other
    · simp only [Server.updateDatabaseAndRespond]
      rw [same]
      simp [Store.handleCommand,Database.apply]

theorem decidedSuffix_sound {s : Server} (loop : s.mainLoop = .readDecidedSuffix idx) :
    Step hasher s .decided (s.handleDecidedSuffix idx) := by
  unfold Server.handleDecidedSuffix
  split
  · rename_i entries suffix
    dsimp only
    split
    · rename_i commands decided
      obtain ⟨toClient,answers,same⟩ := updateDatabaseAndRespond_eq {s with currentDecidedIdx:=idx} commands
      rw [same]
      exact .replay loop suffix decided answers
    · exact .crash idx
  · exact .crash s.currentDecidedIdx

theorem clockTick_sound {s : Server} : Step hasher s (.clockTick fast) (s.withPaxos (s.seqPaxos.clockTick fast)) := by
  unfold SequencePaxos.clockTick
  dsimp only
  split
  · exact .clockSync (s.seqPaxos.queue.clock.tick fast).1 (s.seqPaxos.queue.fired++(s.seqPaxos.queue.clock.tick fast).2.1)
  · exact .clockTick (s.seqPaxos.queue.clock.tick fast).1 (s.seqPaxos.queue.fired++(s.seqPaxos.queue.clock.tick fast).2.1)

theorem tick_sound {s : Server} (idle : s.mainLoop = .idle) : Step hasher s .tick {s with omnipaxos:=s.omnipaxos.tick} := by
  unfold OmniPaxos.tick
  split
  · unfold OmniPaxos.electionTimeout
    split
    · exact .rest idle rfl _ _
    · exact .elect idle rfl _ _ _
  · exact .rest idle rfl s.omnipaxos.ble _

theorem step_sound {s : Server} (ran : s.step hasher action = some next) : Step hasher s action next := by
  cases action <;> simp only [Server.step] at ran
  case client sender m =>
    split at ran
    · rename_i idle
      cases Option.some.inj ran
      cases m with
      | append commandId kv => exact append_sound idle
      | ack command lastIdx =>
        have rule : Step hasher s (.client sender (.ack command lastIdx)) _ := .confirm idle rfl .idle (.inl rfl)
        rw [←idle] at rule
        exact rule
    · cases ran
  case cluster m =>
    split at ran
    · cases Option.some.inj ran; exact cluster_sound ‹_›
    · cases ran
  case decided =>
    split at ran
    · rename_i loop
      cases Option.some.inj ran
      unfold Server.handleDecidedIdx
      split
      · exact .behind loop ‹_›
      · exact .upToDate loop (Nat.le_of_not_lt ‹_›)
    · cases Option.some.inj ran; exact decidedSuffix_sound ‹_›
    · cases ran
  case tick =>
    split at ran
    · cases Option.some.inj ran; exact tick_sound ‹_›
    · cases ran
  case tryBecomeLeader =>
    split at ran
    · cases Option.some.inj ran; exact .elect ‹_› rfl s.omnipaxos.ble s.omnipaxos.electionClock _
    · cases ran
  case reconnected pid =>
    split at ran
    · cases Option.some.inj ran; exact .reconnect ‹_›
    · cases ran
  case startSignals startTime =>
    split at ran
    · cases Option.some.inj ran; exact .signal ‹_› rfl (by simp) (by simp)
    · cases ran
  case send =>
    split at ran
    · cases Option.some.inj ran; exact .send ‹_›
    · cases ran
  case task place now =>
    split at ran
    · cases ran
    · obtain ⟨paxos,moved,rfl⟩ := Option.map_eq_some_iff.mp ran
      unfold SequencePaxos.runTask at moved
      split at moved
      · cases moved
      · rename_i task found
        split at moved
        · cases moved
        · rename_i after task' advanced
          cases Option.some.inj moved
          have rule := advance_sound advanced
          rw [rule.tasks]
          exact .task found rule
  case wait =>
    split at ran
    · cases ran
    · obtain ⟨paxos,moved,rfl⟩ := Option.map_eq_some_iff.mp ran
      obtain ⟨queue,waited,rfl⟩ := Option.map_eq_some_iff.mp moved
      exact .wait (ReleaseOrder.wait_sound waited)
  case clockTick fast =>
    split at ran
    · cases ran
    · cases Option.some.inj ran; exact clockTick_sound

end OmniPaxosKV.Transitions
