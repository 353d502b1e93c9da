import OmniPaxosKV.Replay
import OmniPaxosKV.Requests

-- What a leader answers before the command's place in the log is known, and when
-- that is the answer the log gives.
namespace OmniPaxosKV.Speculation
open Machine Transitions History Requests Execution Replay

abbrev commands (proposed : List Proposal) : List Command := proposed.map Proposal.command

-- The request that a task is about to append.
def releasedTo (s : Server) : Task Command → Option Command
  | .awaitRelease _ notifier _ => s.seqPaxos.queue.released.lookup notifier
  | _ => none

def appends (s : Server) : Server.Act → Option Command
  | .task place _ => s.seqPaxos.tasks[place]?.bind (releasedTo s)
  | _ => none

-- Requests and confirms meet a leader, requests enter the log in the order in
-- which they were proposed, and entries are replayed only when everything
-- proposed has been decided.
def AsProposed (s : Server) (action : Server.Act) : Prop :=
  ((proposal s action).isSome = true → s.role = .leader) ∧
  (action.confirms.isSome = true → s.role = .leader) ∧
  (∀ req ∈ appends s action, req.privateId = s.log.length) ∧
  (replays (stage s action) = true → s.privateCommandId ≤ s.decidedIdx)

instance (s : Server) (action : Server.Act) : Decidable (AsProposed s action) :=
  inferInstanceAs (Decidable (_ ∧ _ ∧ _ ∧ _))

structure Speculated (s : Server) : Prop where
  database : s.store.database = after (commands s.proposed)
  answered : ∀ (k : Nat) p, s.proposed[k]? = some p →
    p.speculation = some ((after ((commands s.proposed).take k)).handleCommand p.command.kvCmd).1
  inOrder : ∀ (k : Nat) command, s.log[k]? = some command → command.privateId = k

theorem Speculated.keep {s next : Server} (speculated : Speculated s)
    (database : next.store.database = s.store.database) (proposed : next.proposed = s.proposed)
    (log : next.log = s.log) : Speculated next := by
  refine ⟨?_,?_,?_⟩
  · rw [database,proposed]; exact speculated.database
  · rw [proposed]; exact speculated.answered
  · rw [log]; exact speculated.inOrder

-- Every entry of the log is a proposal of this server.
theorem log_original {s : Server} (storing : Storing hasher s.seqPaxos) (owned : Owned s owner) {k : Nat}
    (found : s.log[k]? = some command) : Original s.proposed command := by
  have bound := (List.getElem?_eq_some_iff.mp found).1
  rw [←storing.count] at bound
  have recorded := List.getElem?_eq_getElem bound
  obtain ⟨_,_,_,entry⟩ := storing.acked k _ _ recorded
  cases entry.symm.trans found
  exact (owned.acked _ (List.mem_map.mpr ⟨_,List.mem_of_getElem? recorded,rfl⟩)).1

-- Below its length the log holds the proposals' commands.
theorem log_take {s : Server} (storing : Storing hasher s.seqPaxos) (owned : Owned s owner) (speculated : Speculated s)
    {bound : Nat} (inside : bound ≤ s.log.length) : after (s.log.take bound) = after ((commands s.proposed).take bound) := by
  unfold after
  congr 1
  apply List.ext_getElem?
  intro k
  by_cases below : k < bound
  · have found := List.getElem?_eq_getElem (Nat.lt_of_lt_of_le below inside)
    obtain ⟨p,deadline,there,same⟩ := log_original storing owned found
    rw [speculated.inOrder k _ found] at there
    rw [List.getElem?_map,List.getElem?_map,List.getElem?_take_of_lt below,List.getElem?_take_of_lt below,found,
      List.getElem?_map,there,same]
    rfl
  · rw [List.getElem?_map,List.getElem?_map,List.getElem?_take_eq_none (Nat.le_of_not_lt below),
      List.getElem?_take_eq_none (Nat.le_of_not_lt below)]

theorem speculated_propose {s next : Server} (speculated : Speculated s) (p : Proposal)
    (answer : p.speculation = some (s.store.handleCommand p.command).1)
    (database : next.store.database = (s.store.handleCommand p.command).2.database)
    (proposed : next.proposed = s.proposed++[p]) (log : next.log = s.log) : Speculated next := by
  refine ⟨?_,?_,by rw [log]; exact speculated.inOrder⟩
  · rw [database,proposed,commands,List.map_append]
    change _ = after (commands s.proposed++[p.command])
    rw [after_concat,←speculated.database]
    rfl
  · intro k q found
    have whole : commands next.proposed = commands s.proposed++[p.command] := by
      rw [proposed,commands,List.map_append]
      rfl
    have same : ∀ k ≤ s.proposed.length, (commands next.proposed).take k = (commands s.proposed).take k := by
      intro k bound
      rw [whole,List.take_append_of_le_length (by rw [List.length_map]; exact bound)]
    rw [proposed] at found
    rcases getElem?_concat_cases found with old | ⟨last,rfl⟩
    · rw [same k (Nat.le_of_lt (List.getElem?_eq_some_iff.mp old).1)]
      exact speculated.answered k q old
    · rw [same k (Nat.le_of_eq last),last,List.take_of_length_le (by rw [List.length_map]),←speculated.database]
      exact answer

theorem speculated_append {s next : Server} (speculated : Speculated s) (req : Command)
    (number : req.privateId = s.log.length) (database : next.store.database = s.store.database)
    (proposed : next.proposed = s.proposed) (log : next.log = s.log++[req]) : Speculated next := by
  refine ⟨?_,?_,?_⟩
  · rw [database,proposed]; exact speculated.database
  · rw [proposed]; exact speculated.answered
  · intro k command found
    rw [log] at found
    rcases getElem?_concat_cases found with old | ⟨last,rfl⟩
    · exact speculated.inOrder k command old
    · exact number.trans last.symm

-- With everything proposed in the log and decided, the replay changes nothing.
theorem speculated_replay {s next : Server} (storing : Storing hasher s.seqPaxos) (owned : Owned s owner)
    (speculated : Speculated s) (decidedAll : s.privateCommandId ≤ s.decidedIdx)
    (suffix : s.seqPaxos.internalStorage.readDecidedSuffix s.currentDecidedIdx = .ok (some entries))
    (decided : Server.decidedCommands entries = some replayed) (proposed : next.proposed = s.proposed)
    (log : next.log = s.log) (database : next.store.database = s.store.database.applyAll (replayed.map Command.kvCmd)) :
    Speculated next := by
  obtain ⟨inside,rfl⟩ := readDecidedSuffix_log storing suffix decided
  have everything : (commands s.proposed).take s.decidedIdx = commands s.proposed := by
    rw [List.take_of_length_le]
    rw [List.length_map,←owned.counter]
    exact decidedAll
  have current : s.store.database = after (s.log.take s.decidedIdx) := by
    rw [log_take storing owned speculated inside,everything]
    exact speculated.database
  refine speculated.keep ?_ proposed log
  rw [database,current]
  exact after_replay ..

theorem speculated_step {s next : Server} (storing : Storing hasher s.seqPaxos) (owned : Owned s owner)
    (speculated : Speculated s) (asProposed : AsProposed s action) (ran : Step hasher s action next) : Speculated next := by
  cases ran with
  | speculate => exact speculated_propose speculated ⟨_,_,_⟩ rfl rfl rfl rfl
  | propose _ follows => exact nomatch follows.symm.trans (asProposed.1 rfl)
  | confirm _ carried =>
    have leads := asProposed.2.1 (by rw [carried]; rfl)
    refine speculated.keep ?_ rfl rfl
    change (if s.role = .follower then _ else s.store).database = _
    rw [leads]
    rfl
  | replay loop suffix decided =>
    have decidedAll := asProposed.2.2.2 (congrArg replays loop)
    exact speculated_replay storing owned speculated decidedAll suffix decided rfl rfl rfl
  | elect _ _ _ _ n => exact speculated.keep rfl rfl (sameButRole_handleLeader s.seqPaxos n storing.batched).log
  | reconnect => exact speculated.keep rfl rfl (sameButRole_reconnected s.seqPaxos _).log
  | task found advanced =>
    cases advanced with
    | append released =>
      have last := asProposed.2.2.1 _ (by rw [appends,found]; exact released)
      refine speculated_append speculated _ last rfl rfl ?_
      rw [appendReleased_eq storing]
      rfl
    | _ => exact speculated.keep rfl rfl rfl
  | _ => exact speculated.keep rfl rfl rfl

-- The answer in every ack is the one that the log before the acked entry gives.
def Linearizable (s : Server) : Prop :=
  ∀ client command hash result idx, (client,.ack command hash (some result) idx) ∈ s.toClient →
    result = ((after (s.log.take (idx-1))).handleCommand command.kvCmd).1

theorem linearizable_of_speculated {s : Server} (storing : Storing hasher s.seqPaxos) (acking : Acking s)
    (owned : Owned s owner) (speculated : Speculated s) : Linearizable s := by
  intro client command hash result idx sent
  obtain ⟨ack,member,rfl,_,answer,rfl⟩ := acking.sent _ _ _ _ _ sent
  obtain ⟨⟨p,deadline,there,same⟩,q,there',answered⟩ := owned.acked ack member
  cases there.symm.trans there'
  obtain ⟨⟨_,snapshot⟩,present,rfl⟩ := List.mem_map.mp member
  obtain ⟨k,recorded⟩ := List.mem_iff_getElem?.mp present
  obtain ⟨_,last,_,entry⟩ := storing.acked k _ _ recorded
  rw [speculated.inOrder k _ entry] at there
  have given := speculated.answered k p there
  rw [answered,answer] at given
  have logged := log_take storing owned speculated (Nat.le_of_lt (List.getElem?_eq_some_iff.mp entry).1)
  dsimp only at last same ⊢
  rw [last,Nat.add_sub_cancel,logged,same]
  exact Option.some.inj given

theorem speculation_linearizable (hasher : List UInt8 → UInt64) (config : ServerConfig) (now : SystemTime)
    (actions : List Server.Act) (s : Server) (path : Runs (Server.step hasher) AsProposed (.new config now) actions s) :
    Linearizable s := by
  have start : Speculated (.new config now) := by
    refine ⟨rfl,?_,?_⟩
    · intro k p found; simp [Server.new] at found
    · intro k command found
      cases List.getElem?_nil.symm.trans found
  have all := path.invariant
    (fun s => Storing hasher s.seqPaxos ∧ Acking s ∧ (∃ owner, Owned s owner) ∧ Speculated s) ?_
    ⟨storing_new,acking_new config now,⟨_,owned_new config now (fun _ => 0)⟩,start⟩
  · obtain ⟨storing,acking,⟨owner,owned⟩,speculated⟩ := all
    exact linearizable_of_speculated storing acking owned speculated
  · intro s action next known asProposed ran
    obtain ⟨storing,acking,⟨owner,owned⟩,speculated⟩ := known
    have moved := step_sound ran
    exact ⟨storing_step storing moved,acking_step storing acking moved,owned_step storing owned moved,
      speculated_step storing owned speculated asProposed moved⟩

-- A write and a read of one key, proposed in this order by a leader.
def write : Server.Act := .client 1 (.append 0 (.put "x" "1"))

def read : Server.Act := .client 1 (.append 1 (.get "x"))

-- What the acks sent so far answer, by index.
def answers (s : Server) : List (Nat × Option (Option String)) :=
  s.toClient.filterMap fun m => match m.2 with
    | .ack _ _ (some result) idx => some (idx,result)
    | _ => none

theorem speculation_linearizable_in_order : ∃ s, Runs (Server.step SipHash.hash) AsProposed sampleServer
    ([.tryBecomeLeader,write]++appendNext 0++[read]++appendNext 1++[.task 0 0,.task 1 0,.send]) s ∧
    answers s = [(1,none),(2,some (some "1"))] ∧ Linearizable s := by
  obtain ⟨s,path,answered⟩ := run_reaches (Server.step SipHash.hash) AsProposed
    (fun s => answers s = [(1,none),(2,some (some "1"))]) sampleServer
    ([.tryBecomeLeader,write]++appendNext 0++[read]++appendNext 1++[.task 0 0,.task 1 0,.send]) (by decide +kernel)
  exact ⟨s,path,answered,speculation_linearizable SipHash.hash _ _ _ s path⟩

-- An ack whose answer is not the log's.
def misleads (s : Server) : ServerMessage → Bool
  | .ack command _ (some result) idx => result ≠ ((after (s.log.take (idx-1))).handleCommand command.kvCmd).1
  | _ => false

-- The task of the read runs first, and the read enters the log before the write
-- it has seen.
theorem speculation_misleads : ¬ ∀ (config : ServerConfig) (now : SystemTime) (actions : List Server.Act) (s : Server),
    Reaches (Server.step SipHash.hash) (.new config now) actions s → Linearizable s := by
  intro claimed
  obtain ⟨s,path,⟨client,m⟩,sent,wrong⟩ := run_reaches (Server.step SipHash.hash) (fun _ _ => True)
    (fun s => ∃ m ∈ s.toClient, misleads s m.2 = true) sampleServer
    ([.tryBecomeLeader,write,read]++appendNext 1++[.task 1 0,.send]) (by decide +kernel)
  unfold misleads at wrong
  split at wrong
  · rename_i command hash result idx same
    cases same
    exact of_decide_eq_true wrong (claimed _ _ _ s path client command hash result idx sent)
  · cases wrong

end OmniPaxosKV.Speculation
