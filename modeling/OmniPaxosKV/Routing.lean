import OmniPaxosKV.Numbering

-- Which client the proxy answers, and with whose result.
namespace OmniPaxosKV.Routing
open Machine Transitions History Requests Network Agreement OmniPaxosKV.Numbering

variable {n : Nat}

-- The ack of a task that goes on to answer its client.
def winning : Handler → Option (Nat × Receipt)
  | .confirming ack r _ => some (ack,r)
  | .responding ack r => some (ack,r)
  | _ => none

-- The task, and its ack, that completes a quorum by its next write to the votes.
def decisive (p : Proxy) : Proxy.Act → Option (Nat × Receipt)
  | .put conn => match p.connections[conn]? with
    | some ⟨_,.read _ r stored⟩ => if Votes.Decisive p (Proxy.tally stored r.suspect) then some (conn,r) else none
    | _ => none
  | _ => none

theorem winning_forwarded : winning (forwarded number m remaining) = none := by
  unfold forwarded
  split <;> rfl

theorem winning_confirmed {ack : Nat} : winning (Votes.confirmed ack r remaining) = some (ack,r) := by
  unfold Votes.confirmed
  split <;> rfl

theorem winning_working (wins : winning handler = some pair) : Votes.working handler = some pair := by
  cases handler <;> first | exact wins | cases wins

theorem confirm_connections (p : Proxy) (conn ack : Nat) (r : Receipt) (remaining : List Nat) (server : Nat) (ok : Bool) :
    (p.confirm conn ack r remaining server ok).connections = (p.setHandler conn
      (if ok then Votes.confirmed ack r (remaining.erase server) else .returned)).connections := by
  cases ok with
  | true => exact (Votes.confirmRest_parts ..).1
  | false => rfl

theorem respond_connections (p : Proxy) (conn ack : Nat) (r : Receipt) (ok : Bool) :
    (p.respond conn ack r ok).connections =
      (p.setHandler conn (if ok then .deleting ack r else .returned)).connections := by
  cases ok <;> rfl

-- A task answers for the ack that it answered for before, or for the one that
-- has just completed a quorum.
theorem winner_step {p next : Proxy} (ran : Proxy.Step p action next) (there : next.connections[j]? = some c)
    (wins : winning c.handler = some (k,r)) :
    (∃ c', p.connections[j]? = some c' ∧ winning c'.handler = some (k,r)) ∨ decisive p action = some (j,r) := by
  have moved : ∀ {conn new}, next.connections = (p.setHandler conn new).connections →
      (winning new = some (k,r) → (∃ c', p.connections[conn]? = some c' ∧ winning c'.handler = some (k,r)) ∨
        decisive p action = some (conn,r)) →
      (∃ c', p.connections[j]? = some c' ∧ winning c'.handler = some (k,r)) ∨ decisive p action = some (j,r) := by
    intro conn new connections own
    rw [connections] at there
    rcases Votes.connection_cases there with ⟨rfl,same⟩ | ⟨_,before⟩
    · rw [same] at wins
      exact own wins
    · exact .inl ⟨c,before,wins⟩
  cases ran with
  | connect =>
    rcases getElem?_concat_cases there with old | ⟨_,rfl⟩
    · exact .inl ⟨c,old,wins⟩
    · cases wins
  | request found => exact moved rfl (fun wins => nomatch winning_forwarded.symm.trans wins)
  | forward found pending => exact moved rfl (fun wins => nomatch winning_forwarded.symm.trans wins)
  | receive found =>
    rename_i m _
    cases m with
    | ack => exact moved rfl (fun wins => by cases wins)
    | _ => exact .inl ⟨c,there,wins⟩
  | put found =>
    rename_i conn source r' stored ack
    refine moved (Votes.put_parts ..).1 ?_
    intro wins
    split at wins
    · rename_i won
      rw [winning_confirmed] at wins
      cases wins
      exact .inr (by simp only [decisive,found,if_pos won])
    · cases wins
  | confirm found pending =>
    refine moved (confirm_connections ..) ?_
    intro wins
    split at wins
    · rw [winning_confirmed] at wins
      exact .inl ⟨_,found,wins⟩
    · cases wins
  | respond found =>
    refine moved (respond_connections ..) ?_
    intro wins
    split at wins <;> cases wins
  | disconnect | get | delete => exact moved rfl (fun wins => by cases wins)

theorem confirmRest_toClient (p : Proxy) (conn ack : Nat) (r : Receipt) (remaining : List Nat) :
    (p.confirmRest conn ack r remaining).toClient = p.toClient := by
  unfold Proxy.confirmRest
  split <;> rfl

theorem put_toClient (p : Proxy) (conn ack : Nat) (r : Receipt) (stored : Option Vote) :
    (p.put conn ack r stored).toClient = p.toClient := by
  unfold Proxy.put
  dsimp only
  split
  · exact confirmRest_toClient ..
  · rfl

theorem confirm_toClient (p : Proxy) (conn ack : Nat) (r : Receipt) (remaining : List Nat) (server : Nat) (ok : Bool) :
    (p.confirm conn ack r remaining server ok).toClient = p.toClient := by
  unfold Proxy.confirm
  split
  · exact confirmRest_toClient ..
  · rfl

theorem respond_toClient {p : Proxy} {conn conn' ack : Nat} {r : Receipt} {hash : UInt64}
    (written : (conn',.ack cmd hash suspect lastIdx) ∈ (p.respond conn ack r ok).toClient) :
    (conn',.ack cmd hash suspect lastIdx) ∈ p.toClient ∨
    (conn' = conn ∧ cmd = r.cmd ∧ hash = r.hash ∧ suspect = r.suspect ∧ lastIdx = r.lastIdx) := by
  cases ok with
  | true =>
    rcases List.mem_append.mp written with old | new
    · exact .inl old
    · cases List.mem_singleton.mp new
      exact .inr ⟨rfl,rfl,rfl,rfl,rfl⟩
  | false => exact .inl written

-- Only a task that completed a quorum writes an ack, and writes the one it took.
theorem written_step {p next : Proxy} (ran : Proxy.Step p action next) {hash : UInt64}
    (written : (conn,.ack cmd hash suspect lastIdx) ∈ next.toClient) :
    (conn,.ack cmd hash suspect lastIdx) ∈ p.toClient ∨
    ∃ c k r, p.connections[conn]? = some c ∧ winning c.handler = some (k,r) ∧
      r.cmd = cmd ∧ r.hash = hash ∧ r.suspect = suspect ∧ r.lastIdx = lastIdx := by
  have kept : next.toClient = p.toClient → (conn,.ack cmd hash suspect lastIdx) ∈ p.toClient ∨
      ∃ c k r, p.connections[conn]? = some c ∧ winning c.handler = some (k,r) ∧
        r.cmd = cmd ∧ r.hash = hash ∧ r.suspect = suspect ∧ r.lastIdx = lastIdx := fun same => .inl (same ▸ written)
  cases ran with
  | receive found =>
    rename_i m _
    cases m with
    | startSignal ts =>
      rcases List.mem_append.mp written with old | new
      · exact .inl old
      · cases List.mem_singleton.mp new
    | _ => exact kept rfl
  | put found => exact kept (put_toClient ..)
  | confirm found pending => exact kept (confirm_toClient ..)
  | respond found =>
    rcases respond_toClient written with old | ⟨rfl,rfl,rfl,rfl,rfl⟩
    · exact .inl old
    · exact .inr ⟨_,_,_,found,rfl,rfl,rfl,rfl,rfl⟩
  | _ => exact kept rfl

def completes (c : Cluster n) : Cluster.Act n → Option (Nat × Receipt)
  | .proxy action => decisive c.proxy action
  | _ => none

theorem moves_decisive {c next : Cluster n} (ran : Moves hasher c action next) : next.proxy = c.proxy ∨
    ∃ act, Proxy.Step c.proxy act next.proxy ∧ ∀ pair, decisive c.proxy act = some pair → completes c action = some pair := by
  cases ran with
  | proxy _ moved => exact .inr ⟨_,moved,fun _ => id⟩
  | take _ _ _ _ moved => exact .inr ⟨_,moved,fun _ same => by cases same⟩
  | deliver => exact .inl (arrive_proxy ..)
  | exchange | server => exact .inl rfl

-- The acks that were written, or will be, meet a condition on connection and ack.
structure Answering (good : Cluster n → Nat → Receipt → Prop) (c : Cluster n) : Prop where
  winners : ∀ (conn : Nat) connection k r, c.proxy.connections[conn]? = some connection →
    winning connection.handler = some (k,r) → good c conn r
  written : ∀ conn cmd hash suspect lastIdx, (conn,.ack cmd hash suspect lastIdx) ∈ c.proxy.toClient →
    ∃ r ∈ c.proxy.received, r.cmd = cmd ∧ r.hash = hash ∧ r.suspect = suspect ∧ r.lastIdx = lastIdx ∧ good c conn r

theorem answering_moves {good : Cluster n → Nat → Receipt → Prop} {c next : Cluster n}
    (valid : Valid hasher faultTolerance c) (answering : Answering good c) (ran : Moves hasher c action next)
    (lasting : ∀ conn r, good c conn r → good next conn r)
    (meets : ∀ pair ∈ completes c action, good c pair.1 pair.2) : Answering good next := by
  obtain ⟨t,_,follows⟩ := valid.papers
  have received := (moves_proxyGrows ran).received.subset
  rcases moves_decisive ran with same | ⟨act,moved,implied⟩
  · refine ⟨?_,?_⟩
    · intro conn connection k r there wins
      rw [same] at there
      exact lasting _ _ (answering.winners conn connection k r there wins)
    · intro conn cmd hash suspect lastIdx member
      rw [same] at member
      obtain ⟨r,known,one,two,three,four,fine⟩ := answering.written conn cmd hash suspect lastIdx member
      exact ⟨r,received known,one,two,three,four,lasting _ _ fine⟩
  · refine ⟨?_,?_⟩
    · intro conn connection k r there wins
      rcases winner_step moved there wins with ⟨before,found,held⟩ | completed
      · exact lasting _ _ (answering.winners conn before k r found held)
      · exact lasting _ _ (meets _ (implied _ completed))
    · intro conn cmd hash suspect lastIdx member
      rcases written_step moved member with old | ⟨connection,k,r,found,wins,one,two,three,four⟩
      · obtain ⟨r,known,one,two,three,four,fine⟩ := answering.written conn cmd hash suspect lastIdx old
        exact ⟨r,received known,one,two,three,four,lasting _ _ fine⟩
      · have known := List.mem_of_getElem? (follows.holds found (winning_working wins))
        exact ⟨r,received known,one,two,three,four,lasting _ _ (answering.winners conn connection k r found wins)⟩

theorem answering_new {good : Cluster n → Nat → Receipt → Prop} {configs : Fin n → ServerConfig}
    (created : Cluster.new configs times faultTolerance = some c) : Answering good c := by
  cases Cluster.new_eq created
  refine ⟨?_,?_⟩
  · intro conn connection k r there; simp at there
  · intro conn cmd hash suspect lastIdx member; cases member

-- The connection is the one from which the acked command's request was read.
def Requested (c : Cluster n) (conn : Nat) (r : Receipt) : Prop :=
  ∃ i : Fin n, r.source = i.val ∧ ∃ number ∈ (c.arrivals i)[r.cmd.privateId]?,
    c.proxy.requests[number]? = some (conn,.append r.cmd.id r.cmd.kvCmd)

instance (c : Cluster n) (conn : Nat) (r : Receipt) : Decidable (Requested c conn r) :=
  inferInstanceAs (Decidable (∃ _ : Fin n, _))

-- Every ack that was written answers a request of the connection it was written to.
def Routed (c : Cluster n) : Prop :=
  ∀ conn cmd hash suspect lastIdx, (conn,.ack cmd hash suspect lastIdx) ∈ c.proxy.toClient →
    ∃ r ∈ c.proxy.received, r.cmd = cmd ∧ r.hash = hash ∧ r.suspect = suspect ∧ r.lastIdx = lastIdx ∧ Requested c conn r

-- The ack that completes a quorum is in the hands of the connection that asked.
def AskedHere (c : Cluster n) (action : Cluster.Act n) : Prop := ∀ pair ∈ completes c action, Requested c pair.1 pair.2

instance (c : Cluster n) (action : Cluster.Act n) : Decidable (AskedHere c action) :=
  inferInstanceAs (Decidable (∀ pair ∈ completes c action, _))

theorem moves_arrivals {c next : Cluster n} (ran : Moves hasher c action next) (i : Fin n) :
    c.arrivals i <+: next.arrivals i := by
  cases ran with
  | deliver message _ moved =>
    rename_i cause _ _ _
    cases cause with
    | ack => exact List.prefix_refl _
    | request number =>
      simp only [Cluster.arrive,Cluster.updateServer,Function.update_apply]
      split
      · rename_i same
        subst same
        exact List.prefix_append ..
      · exact List.prefix_refl _
  | _ => exact List.prefix_refl _

theorem Requested.grow {c next : Cluster n} (requested : Requested c conn r) (ran : Moves hasher c action next) :
    Requested next conn r := by
  obtain ⟨i,source,number,arrived,asked⟩ := requested
  exact ⟨i,source,number,getElem?_grown (moves_arrivals ran i) arrived,
    getElem?_grown (moves_proxyGrows ran).requests asked⟩

theorem responses_routed (hasher : List UInt8 → UInt64) (configs : Fin n → ServerConfig) (times : Fin n → SystemTime)
    (faultTolerance : Nat) (initial c : Cluster n) (actions : List (Cluster.Act n))
    (created : Cluster.new configs times faultTolerance = some initial)
    (path : Runs (Cluster.step hasher) AskedHere initial actions c) : Routed c := by
  have both := path.invariant (fun c => Valid hasher faultTolerance c ∧ Answering Requested c) ?_
    ⟨valid_new created,answering_new created⟩
  · exact both.2.written
  · intro c action next known askedHere ran
    have moved := moves_sound ran
    exact ⟨valid_moves known.1 moved,
      answering_moves known.1 known.2 moved (fun _ _ requested => requested.grow moved) askedHere⟩

def third : Fin 3 := Fin.last 2

-- The first client reads a key, and the acks of the last two replicas for it are
-- in the hands of the two connections.
def acksTaken : List (Cluster.Act 3) :=
  startUp++Cluster.Act.proxy (.request 0 (.append 7 (.get "x")))::relay 0 [0,1,2]++[Cluster.Act.deliver 1,.deliver 2]++
  acknowledge second 0++acknowledge third 0++[Cluster.Act.take 0 0,.take 1 0]

-- The acks are counted in this order, and the last task answers its client.
def answeredBy (early late : Nat) : List (Cluster.Act 3) :=
  [.proxy (.get early),.proxy (.put early),.proxy (.get late),.proxy (.put late),.proxy (.confirm late 0 true),
   .proxy (.confirm late 1 true),.proxy (.confirm late 2 true),.proxy (.respond late true)]

theorem responses_routed_back : ∃ c : Cluster 3, Runs (Cluster.step SipHash.hash) AskedHere sampleCluster
    (acksTaken++answeredBy 1 0) c ∧ c.proxy.toClient.map Prod.fst = [0] ∧ Routed c := by
  obtain ⟨c,path,answered⟩ := run_reaches (Cluster.step SipHash.hash) AskedHere
    (fun c => c.proxy.toClient.map Prod.fst = [0]) sampleCluster (acksTaken++answeredBy 1 0) (by decide +kernel)
  exact ⟨c,path,answered,responses_routed SipHash.hash sampleConfig (fun _ => Duration.fromMillis 1000) 1
    sampleCluster c (acksTaken++answeredBy 1 0) rfl path⟩

def isAck : ServerMessage → Bool
  | .ack .. => true
  | _ => false

-- The other client's task completes the quorum.
theorem response_misrouted : ¬ ∀ (n : Nat) (configs : Fin n → ServerConfig) (times : Fin n → SystemTime)
    (faultTolerance : Nat) (initial c : Cluster n) (actions : List (Cluster.Act n)),
    Cluster.new configs times faultTolerance = some initial → Reaches (Cluster.step SipHash.hash) initial actions c →
    Routed c := by
  intro claimed
  obtain ⟨c,path,⟨⟨conn,m⟩,written,rfl,answer⟩,misrouted⟩ := run_reaches (Cluster.step SipHash.hash) (fun _ _ => True)
    (fun c => (∃ m ∈ c.proxy.toClient, m.1 = 1 ∧ isAck m.2 = true) ∧ ∀ r ∈ c.proxy.received, ¬ Requested c 1 r)
    sampleCluster (acksTaken++answeredBy 0 1) (by decide +kernel)
  have routed := claimed 3 sampleConfig (fun _ => Duration.fromMillis 1000) 1 sampleCluster c
    (acksTaken++answeredBy 0 1) rfl path
  cases m with
  | ack cmd hash suspect lastIdx =>
    obtain ⟨r,member,_,_,_,_,requested⟩ := routed _ cmd hash suspect lastIdx written
    exact misrouted r member requested
  | _ => cases answer

-- What a leader answered to a proposal, and to a read.
def Answers (s : Server) : Prop :=
  ∀ p ∈ s.proposed, p.speculation.isSome = true → p.role = .leader ∧
    ∀ key, p.command.kvCmd = .get key → ∃ value, p.speculation = some (some value)

theorem answers_step {s next : Server} (answers : Answers s) (ran : Step hasher s action next) : Answers next := by
  cases ran with
  | speculate _ _ made =>
    intro p member answered
    rcases List.mem_append.mp member with old | new
    · exact answers p old answered
    · cases List.mem_singleton.mp new
      refine ⟨rfl,?_⟩
      intro key read
      simp only at read ⊢
      simp [Store.handleCommand,read,Database.handleCommand]
  | propose =>
    intro p member answered
    rcases List.mem_append.mp member with old | new
    · exact answers p old answered
    · cases List.mem_singleton.mp new
      cases answered
  | _ => exact answers

-- A leader acked this history, and this is the result it had for its last
-- command; for a read it is a value.
def AnsweredByLeader (c : Cluster n) (cmd : Command) (hash : UInt64) (suspect : Speculation) : Prop :=
  ∃ (i : Fin n) (ack : Ack Command) (p : Proposal), ack ∈ acks (c.servers i) ∧ ack.hash = hash ∧ ack.req.key = cmd.key ∧
    (c.servers i).proposed[ack.req.privateId]? = some p ∧ p.role = .leader ∧ p.speculation = suspect ∧
    suspect.isSome = true ∧ ∀ key, cmd.kvCmd = .get key → ∃ value, suspect = some (some value)

def LedAnswers (c : Cluster n) : Prop :=
  ∀ conn cmd hash suspect lastIdx, (conn,.ack cmd hash suspect lastIdx) ∈ c.proxy.toClient →
    AnsweredByLeader c cmd hash suspect

-- The ack that completes a quorum is a leader's own.
def LeaderLast (c : Cluster n) (action : Cluster.Act n) : Prop :=
  ∀ pair ∈ completes c action, pair.2.suspect.isSome = true

instance (c : Cluster n) (action : Cluster.Act n) : Decidable (LeaderLast c action) :=
  inferInstanceAs (Decidable (∀ pair ∈ completes c action, _))

-- An ack that carries a result is a leader's, and the result is the one it had
-- when it took the request.
theorem answeredByLeader {c : Cluster n} (known : Known hasher faultTolerance c) (answers : ∀ i, Answers (c.servers i))
    (member : r ∈ c.proxy.received) (some : r.suspect.isSome = true) : AnsweredByLeader c r.cmd r.hash r.suspect := by
  obtain ⟨i,ack,snapshot,_,_,recorded,req,hash,speculation,_⟩ := receipt_acked known.valid member
  obtain ⟨owner,owned⟩ := known.owned i
  have present : ack ∈ acks (c.servers i) := List.mem_map.mpr ⟨_,recorded,rfl⟩
  obtain ⟨⟨p,deadline,there,dated⟩,q,found,answered⟩ := owned.acked ack present
  cases there.symm.trans found
  have same : p.speculation = r.suspect := answered.trans speculation
  obtain ⟨leads,read⟩ := answers i p (List.mem_of_getElem? there) (same ▸ some)
  have command : p.command.kvCmd = r.cmd.kvCmd := by rw [←req,dated]; rfl
  refine ⟨i,ack,p,present,hash,congrArg Command.key req,there,leads,same,some,?_⟩
  intro key get
  rw [←same]
  exact read key (command.trans get)

theorem responses_led (hasher : List UInt8 → UInt64) (configs : Fin n → ServerConfig) (times : Fin n → SystemTime)
    (faultTolerance : Nat) (initial c : Cluster n) (actions : List (Cluster.Act n))
    (created : Cluster.new configs times faultTolerance = some initial)
    (path : Runs (Cluster.step hasher) LeaderLast initial actions c) : LedAnswers c := by
  have start : ∀ i, Answers (initial.servers i) := by
    cases Cluster.new_eq created
    intro i p member
    cases member
  have all := path.invariant (fun c => Known hasher faultTolerance c ∧ (∀ i, Answers (c.servers i)) ∧
    Answering (fun _ _ r => r.suspect.isSome = true) c) ?_ ⟨known_new created,start,answering_new created⟩
  · obtain ⟨known,answers,answering⟩ := all
    intro conn cmd hash suspect lastIdx member
    obtain ⟨r,received,rfl,rfl,rfl,rfl,some⟩ := answering.written conn cmd hash suspect lastIdx member
    exact answeredByLeader known answers received some
  · intro c action next holds leaderLast ran
    obtain ⟨known,answers,answering⟩ := holds
    have moved := moves_sound ran
    exact ⟨known_moves known moved,moves_each Answers (fun _ _ _ answers ran => answers_step answers ran) moved answers,
      answering_moves known.valid answering moved (fun _ _ => id) leaderLast⟩

theorem responses_led_last : ∃ c : Cluster 3, Runs (Cluster.step SipHash.hash) LeaderLast sampleCluster
    (acksTaken++answeredBy 1 0) c ∧ c.proxy.toClient.map Prod.fst = [0] ∧ LedAnswers c := by
  obtain ⟨c,path,answered⟩ := run_reaches (Cluster.step SipHash.hash) LeaderLast
    (fun c => c.proxy.toClient.map Prod.fst = [0]) sampleCluster (acksTaken++answeredBy 1 0) (by decide +kernel)
  exact ⟨c,path,answered,responses_led SipHash.hash sampleConfig (fun _ => Duration.fromMillis 1000) 1
    sampleCluster c (acksTaken++answeredBy 1 0) rfl path⟩

def withoutResult : ServerMessage → Bool
  | .ack _ _ none _ => true
  | _ => false

-- The leader's result is stored, and the follower's ack is written all the same.
theorem response_without_result : ¬ ∀ (n : Nat) (configs : Fin n → ServerConfig) (times : Fin n → SystemTime)
    (faultTolerance : Nat) (initial c : Cluster n) (actions : List (Cluster.Act n)),
    Cluster.new configs times faultTolerance = some initial → Reaches (Cluster.step SipHash.hash) initial actions c →
    LedAnswers c := by
  intro claimed
  obtain ⟨c,path,⟨conn,m⟩,written,empty⟩ := run_reaches (Cluster.step SipHash.hash) (fun _ _ => True)
    (fun c => ∃ m ∈ c.proxy.toClient, withoutResult m.2 = true)
    sampleCluster (acksTaken++answeredBy 0 1) (by decide +kernel)
  have led := claimed 3 sampleConfig (fun _ => Duration.fromMillis 1000) 1 sampleCluster c
    (acksTaken++answeredBy 0 1) rfl path
  unfold withoutResult at empty
  split at empty
  · rename_i cmd hash lastIdx same
    cases same
    obtain ⟨_,_,_,_,_,_,_,_,_,some,_⟩ := led conn cmd hash none lastIdx written
    cases some
  · cases empty

end OmniPaxosKV.Routing
