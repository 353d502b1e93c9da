import OmniPaxosKV.SipHash
import OmniPaxosKV.Transitions

-- How often a client's command is executed. Three places execute: a leader when
-- the command is proposed, a follower when it is confirmed, and the replay of
-- the decided entries after a cluster message.
namespace OmniPaxosKV.Execution
open Machine Transitions

-- `origin` says which client's command a replica's command stands for.
variable {Q : Type} [DecidableEq Q] (origin : Command → Q)

def Proposed (s : Server) (q : Q) : Prop := ∃ p ∈ s.proposed, origin p.command = q

def Confirmed (s : Server) (q : Q) : Prop := ∃ entry ∈ s.confirmed, origin entry.1 = q

instance (s : Server) (q : Q) : Decidable (Proposed origin s q) :=
  inferInstanceAs (Decidable (∃ p ∈ s.proposed, origin p.command = q))

instance (s : Server) (q : Q) : Decidable (Confirmed origin s q) :=
  inferInstanceAs (Decidable (∃ entry ∈ s.confirmed, origin entry.1 = q))

def executions (s : Server) (q : Q) : Nat := s.store.executed.countP fun c => origin c = q

-- The command that a request becomes.
def proposal (s : Server) : Server.Act → Option Command
  | .client sender (.append commandId kv) => some (s.newCommand sender commandId kv)
  | _ => none

-- Where the main loop stands when it goes on with decided entries.
def stage (s : Server) : Server.Act → MainLoop
  | .decided => s.mainLoop
  | _ => .idle

-- Request and confirm come once each and meet the same role, and no cluster
-- message finds a decided index that has not been applied.
def Steady (s : Server) (action : Server.Act) : Prop :=
  (∀ command ∈ proposal s action, ¬ Proposed origin s (origin command) ∧
    ∀ entry ∈ s.confirmed, origin entry.1 = origin command → s.role = entry.2.2) ∧
  (∀ pair ∈ action.confirms, ¬ Confirmed origin s (origin pair.1) ∧
    ∀ p ∈ s.proposed, origin p.command = origin pair.1 → p.role = s.role) ∧
  (stage s action = .readDecidedIdx → s.decidedIdx ≤ s.currentDecidedIdx)

instance (s : Server) (action : Server.Act) : Decidable (Steady origin s action) :=
  inferInstanceAs (Decidable (_ ∧ _ ∧ _))

variable {origin}

-- Every execution has its proposal or its confirm.
structure Accounted (origin : Command → Q) (s : Server) : Prop where
  loop : ∀ idx, s.mainLoop ≠ .readDecidedSuffix idx
  executed : ∀ q, executions origin s q = s.proposed.countP (fun p => p.role = .leader ∧ origin p.command = q)+
    s.confirmed.countP (fun entry => entry.2.2 = .follower ∧ origin entry.1 = q)
  proposedOnce : ∀ q, s.proposed.countP (fun p => origin p.command = q) ≤ 1
  confirmedOnce : ∀ q, s.confirmed.countP (fun entry => origin entry.1 = q) ≤ 1
  roles : ∀ p ∈ s.proposed, ∀ entry ∈ s.confirmed, origin entry.1 = origin p.command → p.role = entry.2.2

theorem Accounted.keep {s next : Server} (accounted : Accounted origin s)
    (loop : ∀ idx, next.mainLoop ≠ .readDecidedSuffix idx) (executed : next.store.executed = s.store.executed)
    (proposed : next.proposed = s.proposed) (confirmed : next.confirmed = s.confirmed) : Accounted origin next := by
  refine ⟨loop,?_,?_,?_,?_⟩
  · unfold executions
    rw [executed,proposed,confirmed]
    exact accounted.executed
  · rw [proposed]; exact accounted.proposedOnce
  · rw [confirmed]; exact accounted.confirmedOnce
  · rw [proposed,confirmed]; exact accounted.roles

theorem countP_concat_le {l : List α} {a : α} {f : α → Q} (once : ∀ q, l.countP (fun x => f x = q) ≤ 1)
    (fresh : ¬ ∃ x ∈ l, f x = f a) (q : Q) : (l++[a]).countP (fun x => f x = q) ≤ 1 := by
  rw [List.countP_append,List.countP_singleton]
  split
  · rename_i same
    have none : l.countP (fun x => f x = q) = 0 := by
      rw [List.countP_eq_zero]
      intro x member equal
      exact fresh ⟨x,member,(of_decide_eq_true equal).trans (of_decide_eq_true same).symm⟩
    rw [none]
  · exact once q

theorem accounted_propose {s next : Server} (accounted : Accounted origin s) (p : Proposal)
    (fresh : ¬ Proposed origin s (origin p.command))
    (agree : ∀ entry ∈ s.confirmed, origin entry.1 = origin p.command → p.role = entry.2.2)
    (loop : next.mainLoop = s.mainLoop) (proposed : next.proposed = s.proposed++[p])
    (confirmed : next.confirmed = s.confirmed)
    (executed : next.store.executed = s.store.executed++if p.role = .leader then [p.command] else []) :
    Accounted origin next := by
  refine ⟨by rw [loop]; exact accounted.loop,?_,?_,?_,?_⟩
  · intro q
    have before := accounted.executed q
    unfold executions at before ⊢
    rw [executed,proposed,confirmed,List.countP_append,List.countP_append,before,List.countP_singleton]
    split
    · rename_i leads
      simp only [List.countP_singleton,leads,true_and]
      omega
    · rename_i follows
      simp [follows]
  · rw [proposed]
    exact countP_concat_le accounted.proposedOnce fresh
  · rw [confirmed]; exact accounted.confirmedOnce
  · intro p' member entry present same
    rw [proposed] at member
    rw [confirmed] at present
    rcases List.mem_append.mp member with old | new
    · exact accounted.roles p' old entry present same
    · cases List.mem_singleton.mp new
      exact agree entry present same

theorem accounted_confirm {s next : Server} (accounted : Accounted origin s) (command : Command) (lastIdx : Nat)
    (fresh : ¬ Confirmed origin s (origin command))
    (agree : ∀ p ∈ s.proposed, origin p.command = origin command → p.role = s.role)
    (loop : ∀ idx, next.mainLoop ≠ .readDecidedSuffix idx) (proposed : next.proposed = s.proposed)
    (confirmed : next.confirmed = s.confirmed++[(command,lastIdx,s.role)])
    (executed : next.store.executed = s.store.executed++if s.role = .follower then [command] else []) :
    Accounted origin next := by
  refine ⟨loop,?_,?_,?_,?_⟩
  · intro q
    have before := accounted.executed q
    unfold executions at before ⊢
    rw [executed,proposed,confirmed,List.countP_append,List.countP_append,before,List.countP_singleton]
    split
    · rename_i follows
      simp only [List.countP_singleton,follows,true_and]
      omega
    · rename_i leads
      simp [leads]
  · rw [proposed]; exact accounted.proposedOnce
  · rw [confirmed]
    exact countP_concat_le accounted.confirmedOnce fresh
  · intro p member entry present same
    rw [proposed] at member
    rw [confirmed] at present
    rcases List.mem_append.mp present with old | new
    · exact accounted.roles p member entry old same
    · cases List.mem_singleton.mp new
      exact agree p member same.symm

theorem accounted_step {s next : Server} (accounted : Accounted origin s) (steady : Steady origin s action)
    (ran : Step hasher s action next) : Accounted origin next := by
  cases ran with
  | speculate _ leads made =>
    obtain ⟨fresh,agree⟩ := steady.1 _ rfl
    subst made
    refine accounted_propose accounted ⟨_,.leader,_⟩ fresh ?_ rfl rfl rfl rfl
    intro entry member same
    exact leads.symm.trans (agree entry member same)
  | propose _ follows made =>
    obtain ⟨fresh,agree⟩ := steady.1 _ rfl
    subst made
    refine accounted_propose accounted ⟨_,.follower,_⟩ fresh ?_ rfl rfl rfl (List.append_nil _).symm
    intro entry member same
    exact follows.symm.trans (agree entry member same)
  | confirm _ carried loop first =>
    obtain ⟨fresh,agree⟩ := steady.2.1 _ carried
    refine accounted_confirm accounted _ _ fresh agree ?_ rfl rfl ?_
    · rcases first with rfl | rfl <;> exact nofun
    · change (if s.role = .follower then _ else s.store).executed = _
      split
      · rfl
      · exact (List.append_nil _).symm
  | behind loop newer => exact absurd (steady.2.2 loop) (Nat.not_le.mpr newer)
  | replay loop => exact absurd loop (accounted.loop _)
  | newDeadline | synchronize | heartbeat | upToDate | crash => exact accounted.keep nofun rfl rfl rfl
  | refuse => exact accounted.keep nofun rfl rfl rfl
  | _ => exact accounted.keep accounted.loop rfl rfl rfl

theorem accounted_new (config : ServerConfig) (now : SystemTime) : Accounted origin (.new config now) := by
  refine ⟨nofun,fun q => rfl,fun q => Nat.zero_le _,fun q => Nat.zero_le _,?_⟩
  intro p member
  cases member

-- What comes once and always with one role counts once under that role.
theorem countP_role {l : List α} (f : α → Q) (role : α → Role) (once : ∀ q, l.countP (fun x => f x = q) ≤ 1)
    (member : a ∈ l) (steady : ∀ x ∈ l, f x = f a → role x = met) (asked : Role) :
    l.countP (fun x => role x = asked ∧ f x = f a) = if met = asked then 1 else 0 := by
  split
  · rename_i same
    have counted : l.countP (fun x => role x = asked ∧ f x = f a) = l.countP (fun x => f x = f a) := by
      refine List.countP_congr ?_
      intro x present
      simp only [decide_eq_true_eq]
      exact ⟨fun both => both.2,fun equal => ⟨(steady x present equal).trans same,equal⟩⟩
    have positive : 0 < l.countP (fun x => f x = f a) := List.countP_pos_iff.mpr ⟨a,member,decide_eq_true rfl⟩
    rw [counted]
    exact Nat.le_antisymm (once _) positive
  · rename_i distinct
    rw [List.countP_eq_zero]
    intro x present both
    obtain ⟨here,equal⟩ := of_decide_eq_true both
    exact distinct ((steady x present equal).symm.trans here)

theorem Accounted.exactlyOnce {s : Server} (accounted : Accounted origin s) (proposed : Proposed origin s q)
    (confirmed : Confirmed origin s q) : executions origin s q = 1 := by
  obtain ⟨p,member,rfl⟩ := proposed
  obtain ⟨entry,present,same⟩ := confirmed
  have speculated := countP_role (fun p : Proposal => origin p.command) Proposal.role accounted.proposedOnce member
    (fun p' there equal => accounted.roles p' there entry present (same.trans equal.symm)) .leader
  have followed := countP_role (fun entry : Command × Nat × Role => origin entry.1) (fun entry => entry.2.2)
    accounted.confirmedOnce present
    (fun entry' there equal => (accounted.roles p member entry' there (equal.trans same)).symm) .follower
  rw [same] at followed
  rw [accounted.executed,speculated,followed,accounted.roles p member entry present same]
  cases entry.2.2 <;> rfl

theorem executed_exactly_once (hasher : List UInt8 → UInt64) (origin : Command → Q) (config : ServerConfig)
    (now : SystemTime) (actions : List Server.Act) (s : Server)
    (path : Runs (Server.step hasher) (Steady origin) (.new config now) actions s) (q : Q)
    (proposed : Proposed origin s q) (confirmed : Confirmed origin s q) : executions origin s q = 1 := by
  have accounted := path.invariant (Accounted origin)
    (fun _ _ _ accounted steady ran => accounted_step accounted steady (step_sound ran)) (accounted_new config now)
  exact accounted.exactlyOnce proposed confirmed

-- One replica of three, one client's request, and its confirm.
def sampleServer : Server := .new {serverId:=1,nodes:=[1,2,3],clockSyncIntervalMs:=1000} (Duration.fromMillis 1000)

def otherCopy : Command := {clientId:=1,coordinatorId:=2,id:=7,privateId:=0,deadline:=0,kvCmd:=.put "x" "1"}

def request : List Server.Act := [.client 1 (.append 7 (.put "x" "1"))]

def confirm : List Server.Act := [.client 1 (.ack otherCopy 1)]

-- The proposal's task waits for the deadline and appends.
def append : List Server.Act :=
  [Server.Act.task 0 0,.wait,.wait]++List.replicate 21 (Server.Act.clockTick true)++[Server.Act.wait,.task 0 0]

-- Any message of a peer makes the main loop look for decided entries.
def peerMessage : List Server.Act := [.cluster (.omniPaxosMessage (.sequencePaxos ⟨2,1,.syncReq⟩)),.decided,.decided]

theorem executed_exactly_once_on_confirm : ∃ s, Runs (Server.step SipHash.hash) (Steady Command.key) sampleServer
    (request++append++confirm) s ∧ Proposed Command.key s otherCopy.key ∧ Confirmed Command.key s otherCopy.key ∧
    executions Command.key s otherCopy.key = 1 := by
  obtain ⟨s,path,proposed,confirmed⟩ := run_reaches (Server.step SipHash.hash) (Steady Command.key)
    (fun s => Proposed Command.key s otherCopy.key ∧ Confirmed Command.key s otherCopy.key)
    sampleServer (request++append++confirm) (by decide +kernel)
  exact ⟨s,path,proposed,confirmed,
    executed_exactly_once SipHash.hash Command.key _ _ _ s path otherCopy.key proposed confirmed⟩

-- The replay executes again what the confirm executed.
theorem executed_twice : ¬ ∀ (config : ServerConfig) (now : SystemTime) (actions : List Server.Act) (s : Server),
    Reaches (Server.step SipHash.hash) (.new config now) actions s → ∀ q, Proposed Command.key s q →
    Confirmed Command.key s q → executions Command.key s q = 1 := by
  intro claimed
  obtain ⟨s,path,proposed,confirmed,twice⟩ := run_reaches (Server.step SipHash.hash) (fun _ _ => True)
    (fun s => Proposed Command.key s otherCopy.key ∧ Confirmed Command.key s otherCopy.key ∧
      executions Command.key s otherCopy.key = 2)
    sampleServer (request++append++confirm++[.task 1 0]++peerMessage) (by decide +kernel)
  have once := claimed _ _ _ s path otherCopy.key proposed confirmed
  rw [twice] at once
  cases once

end OmniPaxosKV.Execution
