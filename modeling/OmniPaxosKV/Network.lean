import OmniPaxosKV.Cluster
import OmniPaxosKV.History
import OmniPaxosKV.Votes

-- The cluster's steps as rules, and what holds across servers and proxy in
-- every interleaving of them.
namespace OmniPaxosKV.Network
open Machine Transitions History

variable {n ack : Nat}

inductive Moves (hasher : List UInt8 → UInt64) : Cluster n → Cluster.Act n → Cluster n → Prop where
  | proxy (internal : Cluster.proxyInternal action = true) (ran : Proxy.Step c.proxy action proxy) :
      Moves hasher c (.proxy action) {c with proxy:=proxy}
  | take (found : c.proxy.connections[conn]? = some connection) (source : connection.receiver = i.val)
      (message : (c.servers i).toClient[place]? = some (1,m)) (fresh : (i.val,place) ∉ c.taken)
      (ran : Proxy.Step c.proxy (.receive conn place m) proxy) :
      Moves hasher c (.take conn place) {c with proxy:=proxy,taken:=c.taken++[(i.val,place)]}
  | deliver (message : c.proxy.toServer[place]? = some (i.val,m,cause)) (fresh : place ∉ c.delivered)
      (ran : Step hasher (c.servers i) (.client 1 m) s) :
      Moves hasher c (.deliver place) {(c.updateServer i s).arrive i cause with delivered:=c.delivered++[place]}
  | exchange (message : (c.servers source).toCluster[place]? = some ((c.servers target).id,m))
      (ran : Step hasher (c.servers target) (.cluster m) s) :
      Moves hasher c (.exchange source place target)
        {c.updateServer target s with exchanged:=c.exchanged++[(source.val,place)]}
  | server (internal : Cluster.serverInternal action = true) (ran : Step hasher (c.servers i) action s) :
      Moves hasher c (.server i action) (c.updateServer i s)

theorem moves_sound {c next : Cluster n} (ran : c.step hasher action = some next) : Moves hasher c action next := by
  cases action <;> simp only [Cluster.step] at ran
  case proxy action =>
    split at ran
    · rename_i internal
      obtain ⟨proxy,moved,rfl⟩ := Option.map_eq_some_iff.mp ran
      exact .proxy internal (Proxy.step_sound moved)
    · cases ran
  case take conn place =>
    split at ran
    · cases ran
    · rename_i connection found
      split at ran
      · rename_i bound
        split at ran
        · rename_i m message
          split at ran
          · cases ran
          · rename_i fresh
            obtain ⟨proxy,moved,rfl⟩ := Option.map_eq_some_iff.mp ran
            exact .take (i := ⟨connection.receiver,bound⟩) found rfl message fresh (Proxy.step_sound moved)
        · cases ran
      · cases ran
  case deliver place =>
    split at ran
    · cases ran
    · rename_i target m cause message
      split at ran
      · rename_i bound
        split at ran
        · cases ran
        · rename_i fresh
          obtain ⟨s,moved,rfl⟩ := Option.map_eq_some_iff.mp ran
          exact .deliver (i := ⟨target,bound⟩) message fresh (step_sound moved)
      · cases ran
  case exchange source place target =>
    split at ran
    · cases ran
    · rename_i pid m message
      split at ran
      · rename_i meets
        obtain ⟨s,moved,rfl⟩ := Option.map_eq_some_iff.mp ran
        exact .exchange (meets.1 ▸ message) (step_sound moved)
      · cases ran
  case server i action =>
    split at ran
    · rename_i internal
      obtain ⟨s,moved,rfl⟩ := Option.map_eq_some_iff.mp ran
      exact .server internal (step_sound moved)
    · cases ran

theorem arrive_servers (c : Cluster n) (i : Fin n) (cause : Cause) : (c.arrive i cause).servers = c.servers := by
  cases cause <;> rfl

theorem arrive_proxy (c : Cluster n) (i : Fin n) (cause : Cause) : (c.arrive i cause).proxy = c.proxy := by
  cases cause <;> rfl

-- What makes a server take a step: a message of the proxy, one of a peer, or itself.
inductive Prompted (c : Cluster n) : Cluster.Act n → Fin n → Server.Act → Prop where
  | deliver (message : c.proxy.toServer[place]? = some (i.val,m,cause)) : Prompted c (.deliver place) i (.client 1 m)
  | exchange (message : (c.servers source).toCluster[place]? = some (pid,m)) :
      Prompted c (.exchange source place i) i (.cluster m)
  | server (internal : Cluster.serverInternal act = true) : Prompted c (.server i act) i act

-- At most one server takes a step, and it is a step of its own.
theorem moves_prompted {c next : Cluster n} (ran : Moves hasher c action next) (i : Fin n) :
    next.servers i = c.servers i ∨ ∃ act, Prompted c action i act ∧ Step hasher (c.servers i) act (next.servers i) ∧
      ∀ j, j ≠ i → next.servers j = c.servers j := by
  have updated : ∀ {j : Fin n} {s act}, Prompted c action j act → Step hasher (c.servers j) act s →
      Function.update c.servers j s i = c.servers i ∨ ∃ act, Prompted c action i act ∧
        Step hasher (c.servers i) act (Function.update c.servers j s i) ∧
        ∀ j', j' ≠ i → Function.update c.servers j s j' = c.servers j' := by
    intro j s act prompted moved
    by_cases same : i = j
    · subst i
      rw [Function.update_self]
      exact .inr ⟨act,prompted,moved,fun j' distinct => Function.update_of_ne distinct ..⟩
    · rw [Function.update_of_ne same]
      exact .inl rfl
  cases ran with
  | proxy | take => exact .inl rfl
  | deliver message _ moved =>
    simp only [arrive_servers]
    exact updated (.deliver message) moved
  | exchange message moved => exact updated (.exchange message) moved
  | server internal moved => exact updated (.server internal) moved

theorem moves_servers {c next : Cluster n} (ran : Moves hasher c action next) (i : Fin n) :
    next.servers i = c.servers i ∨ ∃ act, Step hasher (c.servers i) act (next.servers i) := by
  rcases moves_prompted ran i with same | ⟨act,_,moved,_⟩
  · exact .inl same
  · exact .inr ⟨act,moved⟩

theorem moves_each {c next : Cluster n} (valid : Server → Prop)
    (preserved : ∀ s act s', valid s → Step hasher s act s' → valid s') (ran : Moves hasher c action next)
    (before : ∀ i, valid (c.servers i)) (i : Fin n) : valid (next.servers i) := by
  rcases moves_servers ran i with same | ⟨act,moved⟩
  · rw [same]
    exact before i
  · exact preserved _ act _ (before i) moved

-- The proxy takes a step of its own, or none.
theorem moves_proxy {c next : Cluster n} (ran : Moves hasher c action next) :
    next.proxy = c.proxy ∨ ∃ act, Proxy.Step c.proxy act next.proxy := by
  cases ran with
  | proxy _ moved => exact .inr ⟨_,moved⟩
  | take _ _ _ _ moved => exact .inr ⟨_,moved⟩
  | deliver => exact .inl (arrive_proxy ..)
  | exchange | server => exact .inl rfl

-- A message to a server carries the request, or the ack, that it names as its cause.
def Caused (p : Proxy) (entry : Nat × ClientMessage × Cause) : Prop :=
  match entry.2.2 with
  | .request number => ∃ conn, p.requests[number]? = some (conn,entry.2.1)
  | .ack k => k ∈ p.broadcasts ∧ ∃ r, p.received[k]? = some r ∧ entry.2.1 = .ack r.cmd r.lastIdx

def isAppend : ClientMessage → Bool
  | .append .. => true
  | .ack .. => false

structure Sent (p : Proxy) : Prop where
  caused : ∀ entry ∈ p.toServer, Caused p entry
  forwards : ∀ (i : Nat) (c : Connection) number m remaining, p.connections[i]? = some c →
    c.handler = .forwarding number m remaining → ∃ conn, p.requests[number]? = some (conn,m)
  appends : ∀ request ∈ p.requests, isAppend request.2 = true

structure ProxyGrows (p next : Proxy) : Prop where
  requests : p.requests <+: next.requests
  received : p.received <+: next.received
  broadcasts : p.broadcasts <+: next.broadcasts

theorem Caused.grow {p next : Proxy} (caused : Caused p entry) (grows : ProxyGrows p next) : Caused next entry := by
  obtain ⟨target,m,cause⟩ := entry
  cases cause with
  | request number =>
    obtain ⟨conn,found⟩ := caused
    exact ⟨conn,getElem?_grown grows.requests found⟩
  | ack k =>
    obtain ⟨broadcast,r,found,same⟩ := caused
    exact ⟨grows.broadcasts.subset broadcast,r,getElem?_grown grows.received found,same⟩

theorem Sent.advance {p next : Proxy} (sent : Sent p) (grows : ProxyGrows p next)
    (connections : next.connections = (p.setHandler conn new).connections)
    (appends : ∀ request ∈ next.requests, isAppend request.2 = true)
    (forwards : ∀ number m remaining, new = .forwarding number m remaining →
      ∃ conn, next.requests[number]? = some (conn,m))
    (toServer : ∀ entry ∈ next.toServer, entry ∈ p.toServer ∨ Caused next entry) : Sent next := by
  refine ⟨?_,?_,appends⟩
  · intro entry member
    rcases toServer entry member with old | caused
    · exact (sent.caused entry old).grow grows
    · exact caused
  · intro i c number m remaining present busy
    rw [connections] at present
    rcases Votes.connection_cases present with ⟨_,same⟩ | ⟨_,there⟩
    · exact forwards number m remaining (same.symm.trans busy)
    · obtain ⟨conn,found⟩ := sent.forwards i c number m remaining there busy
      exact ⟨conn,getElem?_grown grows.requests found⟩

theorem confirmRest_kept (p : Proxy) (conn ack : Nat) (r : Receipt) (remaining : List Nat) :
    (p.confirmRest conn ack r remaining).requests = p.requests ∧
    (p.confirmRest conn ack r remaining).toServer = p.toServer := by
  unfold Proxy.confirmRest
  split <;> exact ⟨rfl,rfl⟩

theorem put_kept (p : Proxy) (conn ack : Nat) (r : Receipt) (stored : Option Vote) :
    (p.put conn ack r stored).requests = p.requests ∧ (p.put conn ack r stored).toServer = p.toServer := by
  unfold Proxy.put
  dsimp only
  split
  · exact confirmRest_kept ..
  · exact ⟨rfl,rfl⟩

theorem proxy_grows {p next : Proxy} (ran : Proxy.Step p action next) : ProxyGrows p next := by
  have whole : ∀ {α} (l : List α), l <+: l := fun l => List.prefix_refl l
  cases ran with
  | request => exact ⟨List.prefix_append ..,whole _,whole _⟩
  | receive =>
    rename_i m _ _
    cases m with
    | ack => exact ⟨whole _,List.prefix_append ..,whole _⟩
    | _ => exact ⟨whole _,whole _,whole _⟩
  | put found =>
    refine ⟨by rw [(put_kept ..).1],by rw [(Votes.put_parts ..).2.1],?_⟩
    rw [(Votes.put_parts ..).2.2.2]
    split
    · exact List.prefix_append ..
    · exact whole _
  | confirm =>
    unfold Proxy.confirm
    split
    · obtain ⟨_,received,_,broadcasts⟩ := Votes.confirmRest_parts ..
      exact ⟨by rw [(confirmRest_kept ..).1],by rw [received],by rw [broadcasts]⟩
    · exact ⟨whole _,whole _,whole _⟩
  | respond =>
    unfold Proxy.respond
    split <;> exact ⟨whole _,whole _,whole _⟩
  | _ => exact ⟨whole _,whole _,whole _⟩

-- Where a task stands after it forwarded a request to one more server.
def forwarded (number : Nat) (m : ClientMessage) (remaining : List Nat) : Handler :=
  if remaining = [] then .selecting else .forwarding number m remaining

theorem forwarded_cases (same : forwarded number m remaining = .forwarding number' m' remaining') :
    number' = number ∧ m' = m := by
  unfold forwarded at same
  split at same <;> cases same
  exact ⟨rfl,rfl⟩

-- A task that forwards nothing new.
theorem Sent.move {p next : Proxy} (sent : Sent p) (grows : ProxyGrows p next)
    (connections : next.connections = (p.setHandler conn new).connections) (requests : next.requests = p.requests)
    (idle : ∀ number m remaining, new ≠ .forwarding number m remaining)
    (toServer : ∀ entry ∈ next.toServer, entry ∈ p.toServer ∨ Caused next entry) : Sent next :=
  sent.advance grows connections (requests ▸ sent.appends) (fun _ _ _ same => absurd same (idle _ _ _)) toServer

theorem sent_connect {p : Proxy} (sent : Sent p) :
    Sent {p with connections:=p.connections++[⟨receiver,.selecting⟩]} := by
  refine ⟨sent.caused,?_,sent.appends⟩
  intro i c number m remaining present busy
  rcases getElem?_concat_cases present with old | ⟨_,rfl⟩
  · exact sent.forwards i c number m remaining old busy
  · cases busy

theorem sent_request {p : Proxy} (sent : Sent p) (conn : Nat) (m : ClientMessage) (asks : isAppend m = true)
    (grows : ProxyGrows p (p.takeRequest conn m)) : Sent (p.takeRequest conn m) := by
  have requests : (p.takeRequest conn m).requests = p.requests++[(conn,m)] := rfl
  have connections : (p.takeRequest conn m).connections =
      (p.setHandler conn (forwarded p.requests.length m (List.range p.servers))).connections := rfl
  refine sent.advance grows connections ?_ ?_ (fun _ => .inl)
  · intro request member
    rw [requests] at member
    rcases List.mem_append.mp member with old | new
    · exact sent.appends request old
    · cases List.mem_singleton.mp new
      exact asks
  · intro number m' remaining same
    obtain ⟨rfl,rfl⟩ := forwarded_cases same
    exact ⟨conn,by rw [requests]; exact List.getElem?_concat_length⟩

theorem sent_forward {p : Proxy} (sent : Sent p) (found : p.connections[conn]? = some ⟨source,.forwarding number m remaining⟩)
    (grows : ProxyGrows p (p.forward conn number m remaining server ok)) :
    Sent (p.forward conn number m remaining server ok) := by
  obtain ⟨asker,asked⟩ := sent.forwards conn _ number m remaining found rfl
  have connections : (p.forward conn number m remaining server ok).connections =
      (p.setHandler conn (forwarded number m (remaining.erase server))).connections := rfl
  refine sent.advance grows connections sent.appends ?_ ?_
  · intro number' m' remaining' same
    obtain ⟨rfl,rfl⟩ := forwarded_cases same
    exact ⟨asker,asked⟩
  · intro entry member
    rcases List.mem_append.mp member with old | new
    · exact .inl old
    · split at new
      · cases List.mem_singleton.mp new
        exact .inr ⟨asker,asked⟩
      · cases new

theorem confirmed_idle (ack : Nat) (r : Receipt) (remaining : List Nat) :
    Votes.confirmed ack r remaining ≠ .forwarding number m remaining' := by
  unfold Votes.confirmed
  split <;> exact nofun

theorem sent_confirm {p : Proxy} (sent : Sent p) (follows : Votes.Follows quorum p t)
    (found : p.connections[conn]? = some ⟨source,.confirming ack r remaining⟩)
    (grows : ProxyGrows p (p.confirm conn ack r remaining server ok)) :
    Sent (p.confirm conn ack r remaining server ok) := by
  have told : ack ∈ p.broadcasts := follows.winners ▸ follows.stands found
  have there : p.received[ack]? = some r := follows.holds found rfl
  cases ok with
  | false => exact sent.move grows rfl rfl nofun (fun _ => .inl)
  | true =>
    obtain ⟨connections,received,_,broadcasts⟩ := Votes.confirmRest_parts
      {p with toServer:=p.toServer++[(server,ClientMessage.ack r.cmd r.lastIdx,Cause.ack ack)]}
      conn ack r (remaining.erase server)
    obtain ⟨requests,toServer⟩ := confirmRest_kept
      {p with toServer:=p.toServer++[(server,ClientMessage.ack r.cmd r.lastIdx,Cause.ack ack)]}
      conn ack r (remaining.erase server)
    refine sent.move grows connections requests (fun _ _ _ => confirmed_idle _ _ _) ?_
    intro entry member
    change entry ∈ (Proxy.confirmRest _ conn ack r (remaining.erase server)).toServer at member
    rw [toServer] at member
    rcases List.mem_append.mp member with old | new
    · exact .inl old
    · cases List.mem_singleton.mp new
      exact .inr ⟨grows.broadcasts.subset told,r,getElem?_grown grows.received there,rfl⟩

theorem sent_step {p next : Proxy} (sent : Sent p) (follows : Votes.Follows quorum p t)
    (asks : ∀ conn m, action = .request conn m → isAppend m = true) (ran : Proxy.Step p action next) : Sent next := by
  have grows := proxy_grows ran
  cases ran with
  | connect => exact sent_connect sent
  | request found => exact sent_request sent _ _ (asks _ _ rfl) grows
  | forward found pending => exact sent_forward sent found grows
  | receive found =>
    rename_i m _
    cases m with
    | ack => exact sent.move grows rfl rfl nofun (fun _ => .inl)
    | _ => exact ⟨sent.caused,sent.forwards,sent.appends⟩
  | put found =>
    refine sent.move grows (Votes.put_parts ..).1 (put_kept ..).1 ?_ ?_
    · intro number m remaining
      split
      · exact confirmed_idle _ _ _
      · exact nofun
    · intro entry member
      rw [(put_kept ..).2] at member
      exact .inl member
  | confirm found pending => exact sent_confirm sent follows found grows
  | respond found =>
    rename_i ok _ _ _
    cases ok <;> exact sent.move grows rfl rfl nofun (fun _ => .inl)
  | disconnect | get | delete => exact sent.move grows rfl rfl nofun (fun _ => .inl)

theorem moves_asks {c next : Cluster n} (ran : Moves hasher c action next) :
    next.proxy = c.proxy ∨ ∃ act, (∀ conn m, act = .request conn m → isAppend m = true) ∧
      Proxy.Step c.proxy act next.proxy := by
  cases ran with
  | proxy internal moved =>
    refine .inr ⟨_,?_,moved⟩
    intro conn m equal
    subst equal
    cases m with
    | append => rfl
    | ack => cases internal
  | take _ _ _ _ moved =>
    refine .inr ⟨_,?_,moved⟩
    intro conn m same
    cases same
  | deliver => exact .inl (arrive_proxy ..)
  | exchange | server => exact .inl rfl

end OmniPaxosKV.Network
