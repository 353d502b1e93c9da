import OmniPaxosKV.Replay

-- The decided index of one replica: when it only grows, and when the entries
-- below it can be read.
namespace OmniPaxosKV.Decided
open Machine Transitions History Execution Replay

-- The decided index as the storage has it, beside the cached one.
abbrev storedIdx (s : Server) : Nat := s.seqPaxos.internalStorage.storage.ld

theorem decides_none {s : Server} (other : ∀ place now, action ≠ .task place now) : decides s action = none := by
  cases action with
  | task place now => exact absurd rfl (other place now)
  | _ => rfl

theorem calm_decides {s : Server} (quiet : calm action = true) : decides s action = none := by
  apply decides_none
  intro place now equal
  subst equal
  cases quiet

theorem confirms_decides {s : Server} (carried : action.confirms = some pair) : decides s action = none := by
  apply decides_none
  intro place now equal
  subst equal
  cases carried

-- A task writes both copies of the index, and nothing else writes either.
theorem handleLeader_stored (s : SequencePaxos Command) (n : Ballot) :
    (s.handleLeader n).internalStorage.storage.ld = s.internalStorage.storage.ld := by
  unfold SequencePaxos.handleLeader
  split
  · rfl
  · split <;> rfl

theorem advance_decided {s next : SequencePaxos Command} (storing : Storing hasher s)
    (ran : Advance hasher s task next task') : next.decidedIdx = (due task).getD s.decidedIdx ∧
      next.internalStorage.storage.ld = (due task).getD s.internalStorage.storage.ld := by
  cases ran with
  | append released =>
    rw [appendReleased_eq storing]
    exact ⟨rfl,rfl⟩
  | background before =>
    rw [due_background before]
    exact ⟨rfl,rfl⟩
  | _ => exact ⟨rfl,rfl⟩

theorem step_writes {s next : Server} (storing : Storing hasher s.seqPaxos) (ran : Step hasher s action next) :
    next.decidedIdx = (decides s action).getD s.decidedIdx ∧ storedIdx next = (decides s action).getD (storedIdx s) := by
  cases ran with
  | confirm _ carried => rw [confirms_decides carried]; exact ⟨rfl,rfl⟩
  | signal _ quiet => rw [calm_decides quiet]; exact ⟨rfl,rfl⟩
  | rest _ quiet => rw [calm_decides quiet]; exact ⟨rfl,rfl⟩
  | elect _ quiet _ _ n =>
    rw [calm_decides quiet]
    exact ⟨(sameButRole_handleLeader _ n storing.batched).decidedIdx,handleLeader_stored ..⟩
  | reconnect =>
    refine ⟨(sameButRole_reconnected s.seqPaxos _).decidedIdx,?_⟩
    change (s.seqPaxos.reconnected _).internalStorage.storage.ld = _
    unfold SequencePaxos.reconnected
    split
    · rfl
    · split <;> rfl
  | task found advanced =>
    simp only [decides,found,Option.bind_some]
    obtain ⟨cached,stored⟩ := advance_decided storing advanced
    exact ⟨cached,stored⟩
  | _ => exact ⟨rfl,rfl⟩

-- A task that sets the decided index does not set it back.
def NotBack (s : Server) (action : Server.Act) : Prop := ∀ idx ∈ decides s action, s.decidedIdx ≤ idx

instance (s : Server) (action : Server.Act) : Decidable (NotBack s action) :=
  inferInstanceAs (Decidable (∀ idx ∈ decides s action, s.decidedIdx ≤ idx))

theorem notBack_iff {s next : Server} (storing : Storing hasher s.seqPaxos) (ran : Step hasher s action next) :
    s.decidedIdx ≤ next.decidedIdx ↔ NotBack s action := by
  rw [(step_writes storing ran).1]
  unfold NotBack
  cases decides s action with
  | none => simp
  | some idx => simp

theorem storing_visited {s : Server} (storing : Storing hasher s.seqPaxos) (ran : s.step hasher action = some next) :
    Storing hasher next.seqPaxos := storing_step storing (step_sound ran)

theorem stored_visited {s : Server} (both : Storing hasher s.seqPaxos ∧ storedIdx s = s.decidedIdx)
    (ran : s.step hasher action = some next) : Storing hasher next.seqPaxos ∧ storedIdx next = next.decidedIdx := by
  obtain ⟨cached,stored⟩ := step_writes both.1 (step_sound ran)
  refine ⟨storing_visited both.1 ran,?_⟩
  rw [cached,stored,both.2]

-- Neither copy of the index falls along a run.
def NeverBack (hasher : List UInt8 → UInt64) (s : Server) (actions : List Server.Act) : Prop :=
  ((visited (Server.step hasher) s actions).map Server.decidedIdx).Pairwise (· ≤ ·) ∧
  ((visited (Server.step hasher) s actions).map storedIdx).Pairwise (· ≤ ·)

instance (hasher : List UInt8 → UInt64) (s : Server) (actions : List Server.Act) : Decidable (NeverBack hasher s actions) :=
  inferInstanceAs (Decidable (_ ∧ _))

theorem decided_never_back_iff (hasher : List UInt8 → UInt64) (config : ServerConfig) (now : SystemTime)
    (actions : List Server.Act) (s : Server) (path : Reaches (Server.step hasher) (.new config now) actions s) :
    NeverBack hasher (.new config now) actions ↔ Runs (Server.step hasher) NotBack (.new config now) actions s := by
  have copies : ∀ s ∈ visited (Server.step hasher) (.new config now) actions,
      Storing hasher s.seqPaxos ∧ storedIdx s = s.decidedIdx :=
    visited_all _ (fun _ _ _ both ran => stored_visited both ran) ⟨storing_new,rfl⟩
  have same : (visited (Server.step hasher) (.new config now) actions).map storedIdx =
      (visited (Server.step hasher) (.new config now) actions).map Server.decidedIdx :=
    List.map_congr_left fun s member => (copies s member).2
  unfold NeverBack
  rw [same,and_self]
  exact grows_iff Server.decidedIdx (fun s => Storing hasher s.seqPaxos)
    (fun _ _ _ storing ran => storing_visited storing ran)
    (fun _ _ _ storing ran => notBack_iff storing (step_sound ran)) path storing_new

-- Two confirms in the order of their indices, and their tasks in this order or the other.
def twoConfirms (one two : Nat) : List Server.Act :=
  [.client 1 (.ack otherCopy 1),.client 1 (.ack otherCopy 2),.task one 0,.task two 0]

theorem decided_never_back_in_order : ∃ s, Reaches (Server.step SipHash.hash) sampleServer (twoConfirms 0 1) s ∧
    s.decidedIdx = 2 ∧ NeverBack SipHash.hash sampleServer (twoConfirms 0 1) := by
  obtain ⟨s,path,decided⟩ := run_reaches (Server.step SipHash.hash) NotBack (fun s => s.decidedIdx = 2) sampleServer
    (twoConfirms 0 1) (by decide +kernel)
  have reached : Reaches (Server.step SipHash.hash) sampleServer (twoConfirms 0 1) s := path.weaken fun _ _ _ => trivial
  exact ⟨s,reached,decided,(decided_never_back_iff SipHash.hash _ _ _ s reached).mpr path⟩

theorem decided_goes_back : ¬ ∀ (config : ServerConfig) (now : SystemTime) (actions : List Server.Act) (s : Server),
    Reaches (Server.step SipHash.hash) (.new config now) actions s → NeverBack SipHash.hash (.new config now) actions := by
  intro claimed
  obtain ⟨s,path,_⟩ := run_reaches (Server.step SipHash.hash) (fun _ _ => True) (fun s => s.decidedIdx = 1) sampleServer
    (twoConfirms 1 0) (by decide +kernel)
  exact absurd (claimed _ _ _ s path) (by decide +kernel)

theorem decidedCommands_some (start stop : Nat) (entries : List Command) (k : Nat) (inside : k+entries.length+start ≤ stop) :
    Server.decidedCommands ((entries.zipIdx k).map fun (entry,idx) =>
      if idx+start < stop then LogEntry.decided entry else .undecided entry) = some entries := by
  induction entries generalizing k with
  | nil => rfl
  | cons entry rest ih =>
    rw [List.length_cons] at inside
    rw [List.zipIdx_cons,List.map_cons]
    dsimp only
    rw [if_pos (by omega)]
    simp only [Server.decidedCommands]
    rw [ih (k+1) (by omega)]
    rfl

theorem getEntries_eq {s : SequencePaxos Command} (storing : Storing hasher s) (ordered : start ≤ stop)
    (inside : stop ≤ s.log.length) :
    Storage.getEntries start stop s.internalStorage.storage = .ok ((s.log.take stop).drop start) := by
  change MemoryStorage.getEntries start stop s.internalStorage.storage = _
  simp only [MemoryStorage.getEntries,checkedSub,storing.trimmed,Nat.zero_le,if_true,Nat.sub_zero]
  exact congrArg Except.ok (if_pos ⟨ordered,inside⟩)

-- Exactly what the two unwraps of the replay ask for.
theorem readDecidedSuffix_iff {s : SequencePaxos Command} (storing : Storing hasher s) (start : Nat) :
    (∃ entries commands, s.internalStorage.readDecidedSuffix start = .ok (some entries) ∧
      Server.decidedCommands entries = some commands) ↔ start < s.decidedIdx ∧ s.decidedIdx ≤ s.log.length := by
  constructor
  · intro held
    obtain ⟨entries,commands,suffix,decided⟩ := held
    refine ⟨?_,(readDecidedSuffix_log storing suffix decided).1⟩
    unfold InternalStorage.readDecidedSuffix at suffix
    split at suffix
    · assumption
    · cases suffix
  · intro held
    obtain ⟨newer,inside⟩ := held
    have last : s.decidedIdx-1 < s.log.length := by omega
    refine ⟨_,(s.log.take s.decidedIdx).drop start,?_,
      decidedCommands_some start s.decidedIdx _ 0 ?_⟩
    · unfold InternalStorage.readDecidedSuffix InternalStorage.read
      rw [if_pos newer,if_neg (Nat.ne_zero_of_lt newer),getEntryType_eq storing,getEntryType_eq storing,if_pos last,
        if_pos (Nat.lt_of_lt_of_le newer inside)]
      dsimp only [InternalStorage.createReadLogEntries]
      rw [getEntries_eq storing (Nat.le_of_lt newer) inside]
      rfl
    · rw [List.length_drop,List.length_take]
      omega

-- Decided entries are read while there are new ones and the log holds them all.
def Readable (s : Server) (action : Server.Act) : Prop :=
  replays (stage s action) = true → s.currentDecidedIdx < s.decidedIdx ∧ s.decidedIdx ≤ s.log.length

instance (s : Server) (action : Server.Act) : Decidable (Readable s action) := inferInstanceAs (Decidable (_ → _ ∧ _))

theorem step_running {s : Server} (ran : s.step hasher action = some next) : s.mainLoop ≠ .panicked := by
  intro panicked
  cases action <;> simp [Server.step,panicked] at ran

theorem suffix_iff {s : Server} (storing : Storing hasher s.seqPaxos) :
    (s.handleDecidedSuffix idx).mainLoop ≠ .panicked ↔ s.currentDecidedIdx < s.decidedIdx ∧ s.decidedIdx ≤ s.log.length := by
  rw [←readDecidedSuffix_iff storing]
  unfold Server.handleDecidedSuffix
  constructor
  · intro running
    split at running
    · rename_i entries suffix
      dsimp only at running
      split at running
      · exact ⟨_,_,suffix,‹_›⟩
      · exact absurd rfl running
    · exact absurd rfl running
  · intro held
    obtain ⟨entries,commands,suffix,decided⟩ := held
    simp only [suffix,decided]
    exact nofun

-- Only the replay of decided entries can end the main loop.
theorem step_keeps_running {s next : Server} (storing : Storing hasher s.seqPaxos) (running : s.mainLoop ≠ .panicked)
    (ran : Step hasher s action next) (other : action ≠ .decided) : next.mainLoop ≠ .panicked := by
  cases ran with
  | refuse stopped => rw [storing.running] at stopped; cases stopped
  | confirm _ _ loop first => rcases first with rfl | rfl <;> exact nofun
  | newDeadline | synchronize | heartbeat => exact nofun
  | behind | upToDate | replay | crash => exact absurd rfl other
  | _ => exact running

theorem panics_iff {s next : Server} (storing : Storing hasher s.seqPaxos) (ran : s.step hasher action = some next) :
    next.mainLoop ≠ .panicked ↔ Readable s action := by
  have running := step_running ran
  cases action with
  | decided =>
    unfold Readable
    simp only [stage]
    simp only [Server.step] at ran
    split at ran
    · rename_i first
      cases Option.some.inj ran
      rw [first]
      refine iff_of_true ?_ fun replayed => Bool.noConfusion replayed
      unfold Server.handleDecidedIdx
      intro panicked
      split at panicked <;> cases panicked
    · rename_i second
      cases Option.some.inj ran
      rw [suffix_iff storing,second]
      exact ⟨fun held _ => held,fun held => held rfl⟩
    · cases ran
  | _ =>
    refine iff_of_true (step_keeps_running storing running (step_sound ran) ?_) ?_
    · intro same
      cases same
    · intro replayed
      cases replayed

theorem decided_entries_readable_iff (hasher : List UInt8 → UInt64) (config : ServerConfig) (now : SystemTime)
    (actions : List Server.Act) (s : Server) (path : Reaches (Server.step hasher) (.new config now) actions s) :
    s.mainLoop ≠ .panicked ↔ Runs (Server.step hasher) Readable (.new config now) actions s :=
  safe_iff (fun s => s.mainLoop ≠ .panicked) (fun s => Storing hasher s.seqPaxos)
    (fun _ _ _ storing ran => storing_visited storing ran) (fun _ _ _ storing ran => panics_iff storing ran)
    (fun _ _ _ ran => step_running ran) path storing_new nofun

theorem decided_entries_readable_logged : ∃ s, Reaches (Server.step SipHash.hash) sampleServer
    (request++append++confirm++[.task 1 0]++peerMessage) s ∧ s.currentDecidedIdx = 1 ∧ s.mainLoop ≠ .panicked := by
  obtain ⟨s,path,current⟩ := run_reaches (Server.step SipHash.hash) Readable (fun s => s.currentDecidedIdx = 1)
    sampleServer (request++append++confirm++[.task 1 0]++peerMessage) (by decide +kernel)
  have reached : Reaches (Server.step SipHash.hash) sampleServer (request++append++confirm++[.task 1 0]++peerMessage) s :=
    path.weaken fun _ _ _ => trivial
  exact ⟨s,reached,current,(decided_entries_readable_iff SipHash.hash _ _ _ s reached).mpr path⟩

-- The confirm overtakes the request, whose entry the other replicas have.
theorem decided_entries_crash : ¬ ∀ (config : ServerConfig) (now : SystemTime) (actions : List Server.Act) (s : Server),
    Reaches (Server.step SipHash.hash) (.new config now) actions s → s.mainLoop ≠ .panicked := by
  intro claimed
  obtain ⟨s,path,panicked⟩ := run_reaches (Server.step SipHash.hash) (fun _ _ => True)
    (fun s => s.mainLoop = .panicked) sampleServer (confirm++[.task 0 0]++peerMessage) (by decide +kernel)
  exact claimed _ _ _ s path panicked

end OmniPaxosKV.Decided
