import OmniPaxosKV.Execution
import OmniPaxosKV.History

-- A follower's database as a function of its log: each confirm executes one
-- command, and the replay executes decided commands once more.
namespace OmniPaxosKV.Replay
open Machine Transitions History Execution

abbrev after (commands : List Command) : Database := Database.new.applyAll (commands.map Command.kvCmd)

theorem after_concat (commands : List Command) (command : Command) :
    after (commands++[command]) = (after commands).apply command.kvCmd := by
  unfold after
  rw [List.map_append,Database.applyAll_append]
  rfl

-- A suffix executed again leaves the database as it is.
theorem after_replay (commands : List Command) (k : Nat) :
    (after commands).applyAll ((commands.drop k).map Command.kvCmd) = after commands := by
  have parts : commands.map Command.kvCmd = (commands.take k).map Command.kvCmd++(commands.drop k).map Command.kvCmd := by
    rw [←List.map_append,List.take_append_drop]
  unfold after
  rw [parts]
  exact Database.applyAll_replay ..

theorem getEntryType_eq {s : SequencePaxos Command} (storing : Storing hasher s) (idx : Nat) :
    s.internalStorage.getEntryType idx = if idx < s.log.length then some .entry else none := by
  unfold InternalStorage.getEntryType
  rw [storing.compacted,storing.accepted,storing.running,if_neg (Nat.not_lt_zero idx)]
  dsimp only
  split
  · rw [if_pos (by omega)]
  · split
    · rw [if_pos (by omega)]
    · rw [if_neg (by omega)]

theorem decidedCommands_read (entries : List Command) (k : Nat)
    (decided : Server.decidedCommands ((entries.zipIdx k).map fun (entry,idx) =>
      if idx+start < stop then LogEntry.decided entry else .undecided entry) = some commands) : commands = entries := by
  induction entries generalizing k commands with
  | nil => cases decided; rfl
  | cons entry rest ih =>
    rw [List.zipIdx_cons,List.map_cons] at decided
    dsimp only at decided
    split at decided
    · simp only [Server.decidedCommands] at decided
      obtain ⟨later,found,rfl⟩ := Option.map_eq_some_iff.mp decided
      rw [ih (k+1) found]
    · cases decided

-- The second lock reads exactly the decided part of the log.
theorem readDecidedSuffix_log {s : SequencePaxos Command} (storing : Storing hasher s)
    (suffix : s.internalStorage.readDecidedSuffix start = .ok (some entries))
    (decided : Server.decidedCommands entries = some commands) :
    s.decidedIdx ≤ s.log.length ∧ commands = (s.log.take s.decidedIdx).drop start := by
  unfold InternalStorage.readDecidedSuffix at suffix
  split at suffix
  · rename_i newer
    unfold InternalStorage.read at suffix
    rw [if_neg (Nat.ne_zero_of_lt newer),getEntryType_eq storing,getEntryType_eq storing] at suffix
    by_cases inside : s.decidedIdx-1 < s.log.length
    · have first : start < s.log.length := Nat.lt_of_le_of_lt (Nat.le_sub_one_of_lt newer) inside
      have bound : s.decidedIdx ≤ s.log.length := by omega
      rw [if_pos inside,if_pos first] at suffix
      simp only [InternalStorage.createReadLogEntries,Storage.getEntries,MemoryStorage.getEntries,checkedSub,
        storing.trimmed,Nat.zero_le,if_true,Nat.sub_zero] at suffix
      cases suffix
      exact ⟨bound,(decidedCommands_read _ 0 decided).trans (if_pos ⟨Nat.le_of_lt newer,bound⟩)⟩
    · rw [if_neg inside] at suffix
      cases suffix
  · cases suffix

-- The index that a task is about to store.
def due : Task Command → Option Nat
  | .setDecidedIdx idx => some idx
  | _ => none

-- Confirms whose task has yet to set the decided index.
def pending (s : Server) : Nat := s.seqPaxos.tasks.countP fun task => (due task).isSome

def decides (s : Server) : Server.Act → Option Nat
  | .task place _ => s.seqPaxos.tasks[place]?.bind due
  | _ => none

def replays : MainLoop → Bool
  | .readDecidedSuffix _ => true
  | _ => false

-- Confirms come in log order to a follower that has logged their commands,
-- their tasks run in that order, and no task is pending when entries are replayed.
def InTurn (s : Server) (action : Server.Act) : Prop :=
  ((proposal s action).isSome = true → s.role = .follower) ∧
  (∀ pair ∈ action.confirms, s.role = .follower ∧ pair.2 = s.decidedIdx+pending s+1 ∧
    s.log[s.decidedIdx+pending s]?.map Command.kvCmd = some pair.1.kvCmd) ∧
  (∀ idx ∈ decides s action, idx = s.decidedIdx+1) ∧
  (replays (stage s action) = true → pending s = 0)

instance (s : Server) (action : Server.Act) : Decidable (InTurn s action) :=
  inferInstanceAs (Decidable (_ ∧ _ ∧ _ ∧ _))

-- The database is what the confirmed part of the log makes of the empty one.
structure Followed (s : Server) : Prop where
  inside : s.decidedIdx+pending s ≤ s.log.length
  database : s.store.database = after (s.log.take (s.decidedIdx+pending s))

theorem Followed.keep {s next : Server} (followed : Followed s) (log : s.log <+: next.log)
    (confirmed : next.decidedIdx+pending next = s.decidedIdx+pending s)
    (database : next.store.database = s.store.database) : Followed next := by
  obtain ⟨rest,same⟩ := log
  refine ⟨?_,?_⟩
  · rw [confirmed,←same,List.length_append]
    exact Nat.le_add_right_of_le followed.inside
  · rw [confirmed,database,←same,List.take_append_of_le_length followed.inside]
    exact followed.database

theorem pending_spawn {s next : Server} (tasks : next.seqPaxos.tasks = s.seqPaxos.tasks++[task]) :
    pending next = pending s+if (due task).isSome then 1 else 0 := by
  unfold pending
  rw [tasks,List.countP_append,List.countP_singleton]

theorem followed_confirm {s next : Server} (followed : Followed s) (command : Command)
    (entry : s.log[s.decidedIdx+pending s]?.map Command.kvCmd = some command.kvCmd)
    (log : next.log = s.log) (decided : next.decidedIdx = s.decidedIdx)
    (tasks : next.seqPaxos.tasks = s.seqPaxos.tasks++[.setDecidedIdx lastIdx])
    (database : next.store.database = (s.store.handleCommand command).2.database) : Followed next := by
  have more : pending next = pending s+1 := pending_spawn tasks
  obtain ⟨logged,found,same⟩ := Option.map_eq_some_iff.mp entry
  have bound := (List.getElem?_eq_some_iff.mp found).1
  refine ⟨?_,?_⟩
  · rw [decided,more,log]
    exact bound
  · rw [decided,more,log,database,←Nat.add_assoc,List.take_add_one,found]
    change _ = after (_++[logged])
    rw [after_concat,←followed.database,same]
    rfl

theorem followed_replay {s next : Server} (storing : Storing hasher s.seqPaxos) (followed : Followed s)
    (settled : pending s = 0)
    (suffix : s.seqPaxos.internalStorage.readDecidedSuffix s.currentDecidedIdx = .ok (some entries))
    (decided : Server.decidedCommands entries = some commands) (paxos : next.seqPaxos = s.seqPaxos)
    (database : next.store.database = s.store.database.applyAll (commands.map Command.kvCmd)) : Followed next := by
  obtain ⟨_,rfl⟩ := readDecidedSuffix_log storing suffix decided
  have unchanged : next.store.database = s.store.database := by
    rw [database,followed.database,settled]
    exact after_replay ..
  refine followed.keep ?_ ?_ unchanged
  · unfold Server.log; rw [paxos]
  · unfold pending Server.decidedIdx; rw [paxos]

theorem due_background (idle : background task = true) : due task = none := by
  cases task with
  | setDecidedIdx => cases idle
  | _ => rfl

theorem pending_set {s : Server} (next : SequencePaxos Command) (found : s.seqPaxos.tasks[place]? = some task)
    (task' : Task Command) :
    pending (s.withPaxos {next with tasks:=s.seqPaxos.tasks.set place task'})+(if (due task).isSome then 1 else 0) =
      pending s+if (due task').isSome then 1 else 0 :=
  countP_set (fun task => (due task).isSome) found task'

theorem followed_advance {s : Server} (storing : Storing hasher s.seqPaxos) (followed : Followed s)
    (inTurn : InTurn s (.task place now)) (found : s.seqPaxos.tasks[place]? = some task)
    (ran : Advance hasher s.seqPaxos task next task') :
    Followed (s.withPaxos {next with tasks:=s.seqPaxos.tasks.set place task'}) := by
  have count := pending_set next found task'
  have other : due task = none → due task' = none → s.log <+: next.log → next.decidedIdx = s.decidedIdx →
      Followed (s.withPaxos {next with tasks:=s.seqPaxos.tasks.set place task'}) := by
    intro before after log decided
    rw [before,after] at count
    exact followed.keep log (congrArg₂ (·+·) decided count) rfl
  cases ran with
  | setDecidedIdx =>
    have next : _ = s.decidedIdx+1 := inTurn.2.2.1 _ (by rw [decides,found]; rfl)
    subst next
    refine followed.keep (List.prefix_refl _) ?_ rfl
    change s.decidedIdx+1+pending _ = s.decidedIdx+pending s
    rw [Nat.add_assoc,Nat.add_comm 1]
    exact congrArg (s.decidedIdx+·) count
  | append released =>
    have grown := appendReleased_eq storing
    refine other rfl ?_ ?_ ?_
    · rw [grown]; rfl
    · rw [grown]; exact List.prefix_append ..
    · rw [grown]
  | background before after => exact other (due_background before) (due_background after) (List.prefix_refl _) rfl
  | _ => exact other rfl rfl (List.prefix_refl _) rfl

theorem followed_step {s next : Server} (storing : Storing hasher s.seqPaxos) (followed : Followed s)
    (inTurn : InTurn s action) (ran : Step hasher s action next) : Followed next := by
  have spawned : ∀ {next : Server} {task}, next.seqPaxos.tasks = s.seqPaxos.tasks++[task] → due task = none →
      next.log = s.log → next.decidedIdx = s.decidedIdx → next.store.database = s.store.database → Followed next := by
    intro next task tasks silent log decided database
    have same := pending_spawn tasks
    rw [silent] at same
    exact followed.keep (by rw [log]) (congrArg₂ (·+·) decided same) database
  have role : ∀ {s' : SequencePaxos Command} {omnipaxos : OmniPaxos Command}, omnipaxos.seqPaxos = s' →
      SameButRole s.seqPaxos s' → Followed {s with omnipaxos:=omnipaxos} := by
    intro s' omnipaxos equal same
    subst equal
    have log : s.log <+: omnipaxos.seqPaxos.log := by rw [same.log]
    exact followed.keep log (congrArg₂ (·+·) same.decidedIdx (congrArg (List.countP _) same.tasks)) rfl
  cases ran with
  | speculate _ leads => exact nomatch leads.symm.trans (inTurn.1 rfl)
  | propose => exact spawned rfl rfl rfl rfl rfl
  | confirm _ carried =>
    obtain ⟨follows,_,entry⟩ := inTurn.2.1 _ carried
    refine followed_confirm followed _ entry rfl rfl rfl ?_
    change (if s.role = .follower then _ else s.store).database = _
    rw [if_pos follows]
  | newDeadline => exact spawned rfl rfl rfl rfl rfl
  | synchronize _ idle => exact spawned rfl (due_background idle) rfl rfl rfl
  | clockSync => exact spawned rfl rfl rfl rfl rfl
  | replay loop suffix decided =>
    have settled := inTurn.2.2.2 (congrArg replays loop)
    exact followed_replay storing followed settled suffix decided rfl rfl
  | elect _ _ _ _ n => exact role rfl (sameButRole_handleLeader _ n storing.batched)
  | reconnect => exact role rfl (sameButRole_reconnected ..)
  | task found advanced => exact followed_advance storing followed inTurn found advanced
  | _ => exact followed.keep (List.prefix_refl _) rfl rfl

-- With no decided index on its way, the database is what the decided commands
-- of the log make of the empty one.
def Replicated (s : Server) : Prop :=
  s.role = .follower → pending s = 0 → s.store.database = after (s.log.take s.decidedIdx)

theorem database_follows_log (hasher : List UInt8 → UInt64) (config : ServerConfig) (now : SystemTime)
    (actions : List Server.Act) (s : Server) (path : Runs (Server.step hasher) InTurn (.new config now) actions s) :
    Replicated s := by
  have both := path.invariant (fun s => Storing hasher s.seqPaxos ∧ Followed s) ?_ ⟨storing_new,⟨Nat.le_refl _,rfl⟩⟩
  · intro _ settled
    have database := both.2.database
    rw [settled] at database
    exact database
  · intro s action next known inTurn ran
    have moved := step_sound ran
    exact ⟨storing_step known.1 moved,followed_step known.1 known.2 inTurn moved⟩

-- Two requests that write one key, in the order in which the replica logs them.
def copy (number : Nat) (value : String) : Command :=
  {clientId:=1,coordinatorId:=2,id:=.ofNat number,privateId:=number,deadline:=0,kvCmd:=.put "x" value}

def appendNext (place : Nat) : List Server.Act :=
  [Server.Act.task place 0,.wait,.wait]++List.replicate 21 (Server.Act.clockTick true)++[Server.Act.wait,.task place 0]

def twoEntries : List Server.Act :=
  [Server.Act.client 1 (.append 0 (.put "x" "1"))]++appendNext 0++[Server.Act.client 1 (.append 1 (.put "x" "2"))]++appendNext 1

def confirmed (number : Nat) (value : String) : Server.Act := .client 1 (.ack (copy number value) (number+1))

theorem database_follows_log_in_turn : ∃ s, Runs (Server.step SipHash.hash) InTurn sampleServer
    (twoEntries++[confirmed 0 "1",confirmed 1 "2",.task 2 0,.task 3 0]++peerMessage) s ∧ s.role = .follower ∧
    pending s = 0 ∧ s.decidedIdx = 2 ∧ Replicated s := by
  obtain ⟨s,path,follows,settled,decided⟩ := run_reaches (Server.step SipHash.hash) InTurn
    (fun s => s.role = .follower ∧ pending s = 0 ∧ s.decidedIdx = 2) sampleServer
    (twoEntries++[confirmed 0 "1",confirmed 1 "2",.task 2 0,.task 3 0]++peerMessage) (by decide +kernel)
  exact ⟨s,path,follows,settled,decided,database_follows_log SipHash.hash _ _ _ s path⟩

-- The later write is confirmed first, and the earlier one overwrites it.
theorem database_leaves_log : ¬ ∀ (config : ServerConfig) (now : SystemTime) (actions : List Server.Act) (s : Server),
    Reaches (Server.step SipHash.hash) (.new config now) actions s → Replicated s := by
  intro claimed
  obtain ⟨s,path,follows,settled,differ⟩ := run_reaches (Server.step SipHash.hash) (fun _ _ => True)
    (fun s => s.role = .follower ∧ pending s = 0 ∧ s.store.database.db "x" ≠ (after (s.log.take s.decidedIdx)).db "x")
    sampleServer (twoEntries++[confirmed 1 "2",confirmed 0 "1",.task 3 0,.task 2 0]) (by decide +kernel)
  rw [claimed _ _ _ s path follows settled] at differ
  exact differ rfl

end OmniPaxosKV.Replay
