import OmniPaxosKV.Machine
import OmniPaxosKV.KeyMap
import OmniPaxosKV.Command

-- How the servers of a cluster connect to each other and to their clients before any of
-- them goes on: each dials the peers with a smaller id and listens for the others.
namespace OmniPaxosKV.Bootstrap
open Machine

inductive RegistrationMessage where
  | nodeRegister (id : NodeId)
  | clientRegister
  deriving DecidableEq

-- A stream, whose dialer is no node if it is a client. The accepting side drops it if
-- it cannot read who has dialed it.
structure Link where
  dialer : Option NodeId
  target : NodeId
  handshake : Option RegistrationMessage := none
  accepted : Bool := false
  identified : Bool := false
  dropped : Bool := false

inductive NewConnection where
  | toPeer (peerId : NodeId) (link : Nat)
  | toClient (clientId : ClientId) (link : Nat)
  deriving DecidableEq

inductive Listener where
  | unbound | bound | aborted
  deriving DecidableEq

structure Network where
  listener : Listener := .unbound
  connectionSource : List NewConnection := []
  peerConnections : KeyMap NodeId Nat := .empty
  clientConnections : List (ClientId × Nat) := []
  maxClientId : ClientId := 0
  initialized : Bool := false
  panicked : Bool := false

-- The task that a node runs for one smaller peer.
inductive Connector where
  | dialing
  | connected (link : Nat)
  | registered (link : Nat)
  | failed
  deriving DecidableEq

structure World where
  made : Nat := 0
  links : KeyMap Nat Link := .empty
  networks : NodeId → Network := fun _ => {}
  connectors : NodeId × NodeId → Connector := fun _ => .dialing

structure Deployment where
  nodes : List NodeId
  distinct : nodes.Nodup
  numClients : NodeId → Nat

def Deployment.peers (d : Deployment) (id : NodeId) : List NodeId := d.nodes.filter (· ≠ id)

inductive Act where
  | bind (id : NodeId)
  | connect (myId peer : NodeId)
  | handshake (myId peer : NodeId)
  | handshakeFails (myId peer : NodeId)
  | accept (link : Nat)
  | register (link : Nat)
  | unreadable (link : Nat)
  | receive (id : NodeId)
  | clientConnect (server : NodeId)
  | clientRegister (link : Nat)
  deriving DecidableEq

def World.updateNetwork (w : World) (id : NodeId) (network : Network) : World :=
  {w with networks:=Function.update w.networks id network}

-- What reaches the loop of a node that has already left it is gone.
def Network.arrive (n : Network) (new : NewConnection) : Network :=
  if n.initialized then n else {n with connectionSource:=n.connectionSource++[new]}

def Network.allConnected (n : Network) (peers : List NodeId) (numClients : Nat) : Bool :=
  numClients ≤ n.clientConnections.length && peers.all fun peer => (n.peerConnections peer).isSome

def Network.checkConnected (n : Network) (peers : List NodeId) (numClients : Nat) : Network :=
  if n.allConnected peers numClients then {n with listener:=.aborted,initialized:=true} else n

def Network.initializeConnections (n : Network) (peers : List NodeId) (numClients : Nat) : Option Network :=
  match n.connectionSource with
  | [] => none
  | .toPeer peer link::rest =>
    if peer ∈ peers then
      some (({n with connectionSource:=rest,peerConnections:=n.peerConnections.insert peer link}).checkConnected peers numClients)
    -- There is no slot for a node that is no peer.
    else some {n with connectionSource:=rest,panicked:=true}
  | .toClient client link::rest =>
    some (({n with
      connectionSource:=rest
      clientConnections:=n.clientConnections.filter (fun (held : ClientId × Nat) => held.1 ≠ client)++[(client,link)]}).checkConnected peers numClients)

def step (d : Deployment) (w : World) : Act → Option World
  | .bind id =>
    if id ∈ d.nodes ∧ (w.networks id).listener = .unbound then
      some (w.updateNetwork id {w.networks id with listener:=.bound})
    else none
  | .connect myId peer =>
    if myId ∈ d.nodes ∧ peer ∈ d.peers myId ∧ peer < myId ∧ w.connectors (myId,peer) = .dialing ∧
        (w.networks peer).listener = .bound then
      some {w with
        made:=w.made+1
        links:=w.links.insert w.made {dialer:=some myId,target:=peer}
        connectors:=Function.update w.connectors (myId,peer) (.connected w.made)}
    else none
  | .handshake myId peer => match w.connectors (myId,peer) with
    | .connected k => match w.links k with
      | none => none
      | some link => some (({w with
          links:=w.links.insert k {link with handshake:=some (.nodeRegister myId)}
          connectors:=Function.update w.connectors (myId,peer) (.registered k)}).updateNetwork myId
            ((w.networks myId).arrive (.toPeer peer k)))
    | _ => none
  -- The task gives up, and the other end finds the stream closed.
  | .handshakeFails myId peer => match w.connectors (myId,peer) with
    | .connected _ => some {w with connectors:=Function.update w.connectors (myId,peer) .failed}
    | _ => none
  | .accept k => match w.links k with
    | none => none
    | some link =>
      if link.accepted = false ∧ (w.networks link.target).listener = .bound then
        some {w with links:=w.links.insert k {link with accepted:=true}}
      else none
  | .register k => match w.links k with
    | none => none
    | some link =>
      if link.accepted ∧ link.identified = false ∧ link.dropped = false then
        let network := w.networks link.target
        let w := {w with links:=w.links.insert k {link with identified:=true}}
        match link.handshake with
        | none => none
        | some (.nodeRegister id) => some (w.updateNetwork link.target (network.arrive (.toPeer id k)))
        | some .clientRegister =>
          let nextClientId := network.maxClientId+1
          some (w.updateNetwork link.target
            (({network with maxClientId:=nextClientId}).arrive (.toClient nextClientId k)))
      else none
  -- The handshake cannot be deserialized, or the stream ends before it has come.
  | .unreadable k => match w.links k with
    | none => none
    | some link =>
      if link.accepted ∧ link.identified = false ∧ link.dropped = false then
        some {w with links:=w.links.insert k {link with dropped:=true}}
      else none
  | .receive id =>
    if id ∈ d.nodes ∧ (w.networks id).initialized = false ∧ (w.networks id).panicked = false then
      ((w.networks id).initializeConnections (d.peers id) (d.numClients id)).map (w.updateNetwork id)
    else none
  | .clientConnect server =>
    if (w.networks server).listener = .bound then
      some {w with made:=w.made+1,links:=w.links.insert w.made {dialer:=none,target:=server}}
    else none
  | .clientRegister k => match w.links k with
    | none => none
    | some link =>
      if link.dialer = none ∧ link.handshake = none then
        some {w with links:=w.links.insert k {link with handshake:=some .clientRegister}}
      else none

-- The stream a node has, or will have, for a peer.
def Holds (n : Network) (peer : NodeId) (link : Nat) : Prop :=
  n.peerConnections peer = some link ∨ .toPeer peer link ∈ n.connectionSource

-- A stream that one of the two nodes has dialed and, if it was the peer, that the node
-- has identified.
def Joined (w : World) (id peer : NodeId) (link : Nat) : Prop :=
  w.connectors (id,peer) = .registered link ∨
    (w.connectors (peer,id) = .registered link ∧ ∃ l, w.links link = some l ∧ l.identified = true)

structure Linked (d : Deployment) (w : World) : Prop where
  fresh : ∀ k link, w.links k = some link → k < w.made
  connected : ∀ i j k, w.connectors (i,j) = .connected k → ∃ link, w.links k = some link ∧
    link.dialer = some i ∧ link.target = j ∧ link.handshake = none
  registered : ∀ i j k, w.connectors (i,j) = .registered k → (∃ link, w.links k = some link ∧
    link.dialer = some i ∧ link.target = j ∧ link.handshake = some (.nodeRegister i)) ∧ Holds (w.networks i) j k
  busy : ∀ i j, w.connectors (i,j) ≠ .dialing → i ∈ d.nodes ∧ j ∈ d.peers i ∧ j < i
  dialed : ∀ k link i, w.links k = some link → link.dialer = some i → link.handshake ≠ none →
    w.connectors (i,link.target) = .registered k
  visited : ∀ k link, w.links k = some link → link.dialer = none → link.handshake ≠ none →
    link.handshake = some .clientRegister
  identified : ∀ k link, w.links k = some link → link.identified = true → link.handshake ≠ none ∧
    ∀ i, link.handshake = some (.nodeRegister i) → Holds (w.networks link.target) i k
  held : ∀ i p k, Holds (w.networks i) p k → Joined w i p k
  dropped : ∀ k link, w.links k = some link → link.dropped = true → link.identified = false

def NewConnection.clientId : NewConnection → Option ClientId
  | .toPeer .. => none
  | .toClient client _ => some client

-- The clients that a node has, or will have.
def Network.clients (n : Network) : List ClientId :=
  n.clientConnections.map Prod.fst++n.connectionSource.filterMap NewConnection.clientId

structure Local (d : Deployment) (id : NodeId) (n : Network) : Prop where
  ended : n.listener = .aborted ↔ n.initialized = true
  full : n.initialized = true → ∀ peer ∈ d.peers id, ∃ link, n.peerConnections peer = some link
  enough : n.initialized = true → d.numClients id ≤ n.clientConnections.length
  sane : n.panicked = false
  distinct : n.clients.Nodup
  numbered : ∀ client ∈ n.clients, 1 ≤ client ∧ client ≤ n.maxClientId

structure Sound (d : Deployment) (w : World) : Prop where
  linked : Linked d w
  nodes : ∀ id, Local d id (w.networks id)

theorem updateNetwork_self (w : World) (id : NodeId) (n : Network) : (w.updateNetwork id n).networks id = n :=
  Function.update_self ..

theorem updateNetwork_apply (w : World) (id other : NodeId) (n : Network) :
    (w.updateNetwork id n).networks other = if other = id then n else w.networks other := Function.update_apply ..

@[simp] theorem updateNetwork_made (w : World) (id : NodeId) (n : Network) : (w.updateNetwork id n).made = w.made := rfl

@[simp] theorem updateNetwork_links (w : World) (id : NodeId) (n : Network) : (w.updateNetwork id n).links = w.links := rfl

@[simp] theorem updateNetwork_connectors (w : World) (id : NodeId) (n : Network) :
    (w.updateNetwork id n).connectors = w.connectors := rfl

theorem holds_arrive (n : Network) (new : NewConnection) :
    Holds (n.arrive new) peer link ↔ Holds n peer link ∨ (n.initialized = false ∧ new = .toPeer peer link) := by
  unfold Network.arrive Holds
  cases n.initialized with
  | true => simp
  | false => simp [or_assoc,eq_comm]

-- Of two peers only one has dialed the other.
theorem Linked.oneWay (linked : Linked d w) (one : w.connectors (node,peer) = .registered link)
    (two : w.connectors (peer,node) = .registered other) : False := by
  have less := (linked.busy node peer (by simp [one])).2.2
  have more := (linked.busy peer node (by simp [two])).2.2
  exact Nat.lt_asymm less more

theorem Joined.unique (linked : Linked d w) (first : Joined w node peer link) (second : Joined w node peer other) :
    link = other := by
  rcases first with one | ⟨one,_⟩ <;> rcases second with two | ⟨two,_⟩
  · exact Connector.registered.inj (one.symm.trans two)
  · exact (linked.oneWay one two).elim
  · exact (linked.oneWay two one).elim
  · exact Connector.registered.inj (one.symm.trans two)

-- Both ends of a connection have the same stream.
theorem Joined.meet (linked : Linked d w) (near : Joined w node peer link) (far : Joined w peer node other) : link = other := by
  rcases near with one | ⟨one,_⟩ <;> rcases far with two | ⟨two,_⟩
  · exact (linked.oneWay one two).elim
  · exact Connector.registered.inj (one.symm.trans two)
  · exact Connector.registered.inj (one.symm.trans two)
  · exact (linked.oneWay two one).elim

theorem Linked.sameHolds (linked : Linked d w) (same : ∀ peer link, Holds n peer link ↔ Holds (w.networks node) peer link) :
    Linked d (w.updateNetwork node n) := by
  have holds : ∀ i peer link, Holds ((w.updateNetwork node n).networks i) peer link ↔ Holds (w.networks i) peer link := by
    intro i peer link
    rw [updateNetwork_apply]
    split
    · rename_i here
      rw [here]
      exact same peer link
    · rfl
  refine ⟨linked.fresh,linked.connected,?_,linked.busy,linked.dialed,linked.visited,?_,?_,linked.dropped⟩
  · intro i j k reg
    rw [holds]
    exact linked.registered i j k reg
  · intro k link found seen
    refine ⟨(linked.identified k link found seen).1,?_⟩
    intro i message
    rw [holds]
    exact (linked.identified k link found seen).2 i message
  · intro i peer k has
    rw [holds] at has
    exact linked.held i peer k has

theorem linked_handshake {link : Link} (linked : Linked d w) (free : (w.networks i).initialized = false)
    (dialed : w.connectors (i,j) = .connected k) (found : w.links k = some link) :
    Linked d (({w with
      links:=w.links.insert k {link with handshake:=some (.nodeRegister i)}
      connectors:=Function.update w.connectors (i,j) (.registered k)}).updateNetwork i
        ((w.networks i).arrive (.toPeer j k))) := by
  obtain ⟨link',found',own,target,silent⟩ := linked.connected i j k dialed
  cases Option.some.inj (found.symm.trans found')
  obtain ⟨fresh,connected,registered,busy,dialed,visited,identified,held,dropped⟩ := linked
  have holds : ∀ node peer other, Holds (if node = i then (w.networks i).arrive (.toPeer j k) else w.networks node) peer other ↔
      Holds (w.networks node) peer other ∨ (node = i ∧ peer = j ∧ other = k) := by
    intro node peer other
    split
    · rename_i here
      rw [holds_arrive,here,NewConnection.toPeer.injEq]
      simp [free,eq_comm]
    · rename_i elsewhere
      simp [elsewhere]
  constructor <;> simp only [updateNetwork_apply,updateNetwork_made,updateNetwork_links,updateNetwork_connectors,
    KeyMap.insert_apply,Function.update_apply,holds,Joined]
  case fresh => grind
  case connected => grind
  case registered => grind
  case busy => grind
  case dialed => grind
  case visited => grind
  case identified => grind
  case held => grind [Joined]
  case dropped => grind

theorem linked_connect (linked : Linked d w) (mine : i ∈ d.nodes) (peer : j ∈ d.peers i) (smaller : j < i)
    (dialing : w.connectors (i,j) = .dialing) :
    Linked d {w with
      made:=w.made+1
      links:=w.links.insert w.made {dialer:=some i,target:=j}
      connectors:=Function.update w.connectors (i,j) (.connected w.made)} := by
  obtain ⟨fresh,connected,registered,busy,dialed,visited,identified,held,dropped⟩ := linked
  have unused : w.links w.made = none := by
    cases there : w.links w.made with
    | none => rfl
    | some link => exact absurd (fresh _ _ there) (Nat.lt_irrefl _)
  constructor <;> simp only [KeyMap.insert_apply,Function.update_apply,Joined]
  case fresh => grind
  case connected =>
    intro node other k dials
    split at dials
    · rename_i same
      cases same
      cases dials
      exact ⟨_,if_pos rfl,rfl,rfl,rfl⟩
    · obtain ⟨link,there,rest⟩ := connected node other k dials
      exact ⟨link,by rw [if_neg (Nat.ne_of_lt (fresh k link there)),there],rest⟩
  case registered => grind
  case busy => grind
  case dialed => grind
  case visited => grind
  case identified => grind
  case held => grind [Joined]
  case dropped => grind

theorem linked_handshakeFails (linked : Linked d w) (dialed : w.connectors (i,j) = .connected k) :
    Linked d {w with connectors:=Function.update w.connectors (i,j) .failed} := by
  obtain ⟨fresh,connected,registered,busy,dialed,visited,identified,held,dropped⟩ := linked
  constructor <;> simp only [Function.update_apply,Joined]
  case fresh => exact fresh
  case connected => grind
  case registered => grind
  case busy => grind
  case dialed => grind
  case visited => exact visited
  case identified => exact identified
  case held => grind [Joined]
  case dropped => grind

theorem linked_accept {link : Link} (linked : Linked d w) (found : w.links k = some link) :
    Linked d {w with links:=w.links.insert k {link with accepted:=true}} := by
  obtain ⟨fresh,connected,registered,busy,dialed,visited,identified,held,dropped⟩ := linked
  constructor <;> simp only [KeyMap.insert_apply,Joined]
  case fresh => grind
  case connected => grind
  case registered => grind
  case busy => exact busy
  case dialed => grind
  case visited => grind
  case identified => grind
  case held => grind [Joined]
  case dropped => grind

theorem linked_unreadable {link : Link} (linked : Linked d w) (found : w.links k = some link) (unseen : link.identified = false) :
    Linked d {w with links:=w.links.insert k {link with dropped:=true}} := by
  obtain ⟨fresh,connected,registered,busy,dialed,visited,identified,held,dropped⟩ := linked
  constructor <;> simp only [KeyMap.insert_apply,Joined]
  case fresh => grind
  case connected => grind
  case registered => grind
  case busy => exact busy
  case dialed => grind
  case visited => grind
  case identified => grind
  case held => grind [Joined]
  case dropped => grind

theorem linked_clientConnect (linked : Linked d w) (server : NodeId) :
    Linked d {w with made:=w.made+1,links:=w.links.insert w.made {dialer:=none,target:=server}} := by
  obtain ⟨fresh,connected,registered,busy,dialed,visited,identified,held,dropped⟩ := linked
  have unused : w.links w.made = none := by
    cases there : w.links w.made with
    | none => rfl
    | some link => exact absurd (fresh _ _ there) (Nat.lt_irrefl _)
  constructor <;> simp only [KeyMap.insert_apply,Joined]
  case fresh => grind
  case connected => grind
  case registered => grind
  case busy => exact busy
  case dialed => grind
  case visited => grind
  case identified => grind
  case held => grind [Joined]
  case dropped => grind

theorem linked_clientRegister {link : Link} (linked : Linked d w) (found : w.links k = some link)
    (client : link.dialer = none) (silent : link.handshake = none) :
    Linked d {w with links:=w.links.insert k {link with handshake:=some .clientRegister}} := by
  obtain ⟨fresh,connected,registered,busy,dialed,visited,identified,held,dropped⟩ := linked
  constructor <;> simp only [KeyMap.insert_apply,Joined]
  case fresh => grind
  case connected => grind
  case registered => grind
  case busy => exact busy
  case dialed => grind
  case visited => grind
  case identified => grind
  case held => grind [Joined]
  case dropped => grind

-- Whoever registers as a node has dialed the stream.
theorem Linked.registrar {link : Link} (linked : Linked d w) (found : w.links k = some link)
    (message : link.handshake = some (.nodeRegister peer)) : w.connectors (peer,link.target) = .registered k := by
  cases dialer : link.dialer with
  | none =>
    have client := linked.visited k link found dialer (by simp [message])
    simp [message] at client
  | some i =>
    have dials := linked.dialed k link i found dialer (by simp [message])
    obtain ⟨⟨link',found',_,_,message'⟩,_⟩ := linked.registered i link.target k dials
    cases Option.some.inj (found.symm.trans found')
    cases message.symm.trans message'
    exact dials

theorem linked_register {link : Link} (linked : Linked d w) (found : w.links k = some link) (spoken : link.handshake ≠ none)
    (readable : link.dropped = false)
    (grows : ∀ peer other, Holds (w.networks link.target) peer other → Holds n peer other)
    (arrived : ∀ peer other, Holds n peer other → Holds (w.networks link.target) peer other ∨
      (link.handshake = some (.nodeRegister peer) ∧ other = k))
    (mine : ∀ peer, link.handshake = some (.nodeRegister peer) → Holds n peer k) :
    Linked d (({w with links:=w.links.insert k {link with identified:=true}}).updateNetwork link.target n) := by
  have registrar : ∀ peer, link.handshake = some (.nodeRegister peer) → w.connectors (peer,link.target) = .registered k :=
    fun peer message => linked.registrar found message
  obtain ⟨fresh,connected,registered,busy,dialed,visited,identified,held,dropped⟩ := linked
  have holds : ∀ node peer other, Holds (w.networks node) peer other →
      Holds (if node = link.target then n else w.networks node) peer other := by
    intro node peer other has
    split
    · rename_i here
      exact grows peer other (here ▸ has)
    · exact has
  constructor <;> simp only [updateNetwork_apply,updateNetwork_made,updateNetwork_links,updateNetwork_connectors,
    KeyMap.insert_apply,Joined]
  case fresh => grind
  case connected => grind
  case registered => grind
  case busy => exact busy
  case dialed => grind
  case visited => grind
  case identified => grind
  case held => grind [Joined]
  case dropped => grind

theorem mem_peers {d : Deployment} : peer ∈ d.peers node ↔ peer ∈ d.nodes ∧ peer ≠ node := by
  simp [Deployment.peers]

-- A node that has left its loop has a stream for each peer, and needs no other.
theorem holds_left (linked : Linked d w) (full : ∀ peer ∈ d.peers node, ∃ link, (w.networks node).peerConnections peer = some link)
    (dials : w.connectors (peer,node) = .registered link) : Holds (w.networks node) peer link := by
  obtain ⟨mine,member,_⟩ := linked.busy peer node (by simp [dials])
  obtain ⟨other,slot⟩ := full peer (mem_peers.mpr ⟨mine,fun same => (mem_peers.mp member).2 same.symm⟩)
  rcases linked.held node peer other (.inl slot) with one | ⟨one,_⟩
  · exact (linked.oneWay one dials).elim
  · cases dials.symm.trans one
    exact .inl slot

theorem holds_checkConnected : Holds (Network.checkConnected n peers numClients) peer link ↔ Holds n peer link := by
  unfold Network.checkConnected
  split <;> rfl

-- Taking what came in changes where a stream is held, not which.
theorem holds_taken {n next : Network} (once : ∀ peer link other, Holds n peer link → Holds n peer other → link = other)
    (known : ∀ peer link, Holds n peer link → peer ∈ peers) (ran : n.initializeConnections peers numClients = some next) :
    Holds next peer link ↔ Holds n peer link := by
  unfold Network.initializeConnections at ran
  split at ran
  · cases ran
  · rename_i first k rest source
    have there : Holds n first k := .inr (by rw [source]; exact List.mem_cons_self)
    rw [if_pos (known first k there)] at ran
    cases ran
    rw [holds_checkConnected]
    constructor
    · rintro (slot | queued)
      · simp only [KeyMap.insert_apply] at slot
        split at slot
        · rename_i same
          cases slot
          exact same ▸ there
        · exact .inl slot
      · exact .inr (by rw [source]; exact List.mem_cons_of_mem _ queued)
    · intro has
      by_cases same : peer = first
      · subst same
        cases once peer link k has there
        exact .inl (KeyMap.insert_self _)
      · rcases has with slot | queued
        · exact .inl ((KeyMap.insert_of_ne _ same).trans slot)
        · rw [source] at queued
          rcases List.mem_cons.mp queued with now | later
          · cases now
            exact absurd rfl same
          · exact .inr later
  · rename_i client k rest source
    cases ran
    rw [holds_checkConnected]
    unfold Holds
    simp only [source,List.mem_cons,reduceCtorEq,false_or]

theorem allConnected_iff : Network.allConnected n peers numClients = true ↔
    numClients ≤ n.clientConnections.length ∧ ∀ peer ∈ peers, ∃ link, n.peerConnections peer = some link := by
  simp [Network.allConnected,Option.isSome_iff_exists]

theorem local_checkConnected {n : Network} (sound : Local d node n) :
    Local d node (n.checkConnected (d.peers node) (d.numClients node)) := by
  unfold Network.checkConnected
  split
  · rename_i all
    obtain ⟨enough,full⟩ := allConnected_iff.mp all
    exact ⟨iff_of_true rfl rfl,fun _ => full,fun _ => enough,sound.sane,sound.distinct,sound.numbered⟩
  · exact sound

-- A client whose number is new to the node replaces no other.
theorem unlisted (n : Network) (client : ClientId) (apart : ∀ other ∈ n.clientConnections.map Prod.fst, other ≠ client) :
    n.clientConnections.filter (fun (held : ClientId × Nat) => held.1 ≠ client) = n.clientConnections := by
  refine List.filter_eq_self.mpr ?_
  intro held member
  simpa only [decide_eq_true_eq] using apart held.1 (List.mem_map_of_mem member)

theorem Local.apart {n : Network} (sound : Local d node n) (source : n.connectionSource = .toClient client link::rest) :
    ∀ other ∈ n.clientConnections.map Prod.fst, other ≠ client := by
  have distinct := sound.distinct
  rw [Network.clients,source] at distinct
  intro other member same
  exact (List.nodup_append.mp distinct).2.2 other member client List.mem_cons_self same

theorem local_taken {n next : Network} (sound : Local d node n) (free : n.initialized = false)
    (known : ∀ peer link, Holds n peer link → peer ∈ d.peers node)
    (ran : n.initializeConnections (d.peers node) (d.numClients node) = some next) : Local d node next := by
  have open' : ¬ n.listener = .aborted := fun ended => by simp [sound.ended.mp ended] at free
  unfold Network.initializeConnections at ran
  split at ran
  · cases ran
  · rename_i first k rest source
    rw [if_pos (known first k (.inr (by rw [source]; exact List.mem_cons_self)))] at ran
    cases ran
    have same : ({n with connectionSource:=rest,peerConnections:=n.peerConnections.insert first k} : Network).clients = n.clients := by
      rw [Network.clients,Network.clients,source]
      rfl
    refine local_checkConnected ⟨sound.ended,fun ready => by simp [free] at ready,fun ready => by simp [free] at ready,
      sound.sane,?_,?_⟩
    · rw [same]; exact sound.distinct
    · rw [same]; exact sound.numbered
  · rename_i client k rest source
    cases ran
    have all : n.clients = n.clientConnections.map Prod.fst++client::rest.filterMap NewConnection.clientId := by
      simp [Network.clients,source,NewConnection.clientId]
    have same : ({n with connectionSource:=rest,clientConnections:=
        n.clientConnections.filter (fun (held : ClientId × Nat) => held.1 ≠ client)++[(client,k)]} : Network).clients = n.clients := by
      rw [all,unlisted n client (sound.apart source)]
      simp [Network.clients]
    refine local_checkConnected ⟨sound.ended,fun ready => by simp [free] at ready,fun ready => by simp [free] at ready,
      sound.sane,?_,?_⟩
    · rw [same]; exact sound.distinct
    · rw [same]; exact sound.numbered

theorem local_arrive_peer {n : Network} (sound : Local d node n) (peer : NodeId) (link : Nat) :
    Local d node (n.arrive (.toPeer peer link)) := by
  unfold Network.arrive
  split
  · exact sound
  · have same : ({n with connectionSource:=n.connectionSource++[.toPeer peer link]} : Network).clients = n.clients := by
      simp [Network.clients,NewConnection.clientId]
    refine ⟨sound.ended,sound.full,sound.enough,sound.sane,?_,?_⟩
    · rw [same]; exact sound.distinct
    · rw [same]; exact sound.numbered

theorem local_arrive_client {n : Network} (sound : Local d node n) (link : Nat) :
    Local d node (({n with maxClientId:=n.maxClientId+1}).arrive (.toClient (n.maxClientId+1) link)) := by
  have later : ∀ client ∈ n.clients, 1 ≤ client ∧ client ≤ n.maxClientId+1 :=
    fun client member => ⟨(sound.numbered client member).1,Nat.le_succ_of_le (sound.numbered client member).2⟩
  unfold Network.arrive
  split
  · exact ⟨sound.ended,sound.full,sound.enough,sound.sane,sound.distinct,later⟩
  · have grown : ({n with maxClientId:=n.maxClientId+1,connectionSource:=n.connectionSource++[.toClient (n.maxClientId+1) link]} :
        Network).clients = n.clients++[n.maxClientId+1] := by
      simp [Network.clients,NewConnection.clientId]
    refine ⟨sound.ended,sound.full,sound.enough,sound.sane,?_,?_⟩
    · rw [grown]
      refine List.nodup_append.mpr ⟨sound.distinct,List.nodup_singleton _,?_⟩
      rintro client member _ single rfl
      cases List.mem_singleton.mp single
      exact Nat.not_succ_le_self _ (sound.numbered _ member).2
    · rw [grown]
      intro client member
      rcases List.mem_append.mp member with old | single
      · exact later client old
      · cases List.mem_singleton.mp single
        exact ⟨Nat.succ_pos _,Nat.le_refl _⟩

theorem Sound.updateNetwork {w' : World} (sound : Sound d w) (linked : Linked d (w'.updateNetwork node n)) (same : w'.networks = w.networks)
    (known : Local d node n) : Sound d (w'.updateNetwork node n) := by
  refine ⟨linked,?_⟩
  intro other
  rw [updateNetwork_apply]
  split
  · rename_i here
    exact here ▸ known
  · rw [same]
    exact sound.nodes other

theorem Sound.known (sound : Sound d w) (has : Holds (w.networks node) peer link) : peer ∈ d.peers node := by
  rcases sound.linked.held node peer link has with one | ⟨one,_⟩
  · exact (sound.linked.busy node peer (by simp [one])).2.1
  · obtain ⟨mine,member,_⟩ := sound.linked.busy peer node (by simp [one])
    exact mem_peers.mpr ⟨mine,fun same => (mem_peers.mp member).2 same.symm⟩

-- A node whose own task has not registered yet is still waiting for that stream.
theorem Sound.waiting (sound : Sound d w) (dials : w.connectors (node,peer) = .connected k) :
    (w.networks node).initialized = false := by
  cases ready : (w.networks node).initialized with
  | false => rfl
  | true =>
    obtain ⟨_,member,_⟩ := sound.linked.busy node peer (by simp [dials])
    obtain ⟨link,slot⟩ := (sound.nodes node).full ready peer member
    rcases sound.linked.held node peer link (.inl slot) with one | ⟨one,_⟩
    · cases dials.symm.trans one
    · have less := (sound.linked.busy node peer (by simp [dials])).2.2
      have more := (sound.linked.busy peer node (by simp [one])).2.2
      exact (Nat.lt_asymm less more).elim

theorem step_sound {w next : World} (sound : Sound d w) (ran : step d w action = some next) : Sound d next := by
  cases action <;> simp only [step] at ran
  case bind node =>
    split at ran
    · rename_i meets
      cases ran
      refine sound.updateNetwork (sound.linked.sameHolds fun _ _ => Iff.rfl) rfl ?_
      have old := sound.nodes node
      have open' : (w.networks node).initialized = false := by
        cases ready : (w.networks node).initialized with
        | false => rfl
        | true => cases meets.2.symm.trans (old.ended.mpr ready)
      exact ⟨by simp [open'],old.full,old.enough,old.sane,old.distinct,old.numbered⟩
    · cases ran
  case connect i j =>
    split at ran
    · rename_i meets
      cases ran
      exact ⟨linked_connect sound.linked meets.1 meets.2.1 meets.2.2.1 meets.2.2.2.1,sound.nodes⟩
    · cases ran
  case handshake i j =>
    split at ran
    · rename_i k dials
      split at ran
      · cases ran
      · rename_i link found
        cases ran
        exact sound.updateNetwork (linked_handshake sound.linked (sound.waiting dials) dials found) rfl
          (local_arrive_peer (sound.nodes i) j k)
    · cases ran
  case handshakeFails i j =>
    split at ran
    · rename_i k dials
      cases ran
      exact ⟨linked_handshakeFails sound.linked dials,sound.nodes⟩
    · cases ran
  case accept k =>
    split at ran
    · cases ran
    · rename_i link found
      split at ran <;> cases ran
      exact ⟨linked_accept sound.linked found,sound.nodes⟩
  case register k =>
    split at ran
    · cases ran
    · rename_i link found
      split at ran
      · rename_i meets
        have known := sound.nodes link.target
        split at ran
        · cases ran
        · rename_i peer message
          cases ran
          refine sound.updateNetwork (linked_register sound.linked found (by simp [message]) meets.2.2 ?_ ?_ ?_) rfl
            (local_arrive_peer known peer k)
          · intro other stream has
            exact (holds_arrive _ _).mpr (.inl has)
          · intro other stream has
            rcases (holds_arrive _ _).mp has with old | ⟨_,new⟩
            · exact .inl old
            · cases new
              exact .inr ⟨message,rfl⟩
          · intro other message'
            cases message.symm.trans message'
            rw [holds_arrive]
            cases ready : (w.networks link.target).initialized with
            | false => exact .inr ⟨rfl,rfl⟩
            | true => exact .inl (holds_left sound.linked (known.full ready) (sound.linked.registrar found message))
        · rename_i message
          cases ran
          refine sound.updateNetwork (linked_register sound.linked found (by simp [message]) meets.2.2 ?_ ?_ ?_) rfl
            (local_arrive_client known k)
          · intro other stream has
            exact (holds_arrive _ _).mpr (.inl has)
          · intro other stream has
            rcases (holds_arrive _ _).mp has with old | ⟨_,new⟩
            · exact .inl old
            · cases new
          · intro other message'
            cases message.symm.trans message'
      · cases ran
  case unreadable k =>
    split at ran
    · cases ran
    · rename_i link found
      split at ran
      · rename_i meets
        cases ran
        exact ⟨linked_unreadable sound.linked found meets.2.1,sound.nodes⟩
      · cases ran
  case receive node =>
    split at ran
    · rename_i meets
      obtain ⟨n,taken,rfl⟩ := Option.map_eq_some_iff.mp ran
      have once : ∀ peer link other, Holds (w.networks node) peer link → Holds (w.networks node) peer other → link = other :=
        fun peer link other one two => (sound.linked.held _ _ _ one).unique sound.linked (sound.linked.held _ _ _ two)
      refine sound.updateNetwork (sound.linked.sameHolds fun peer link =>
        holds_taken once (fun peer link has => sound.known has) taken) rfl ?_
      exact local_taken (sound.nodes node) meets.2.1 (fun peer link has => sound.known has) taken
    · cases ran
  case clientConnect server =>
    split at ran <;> cases ran
    exact ⟨linked_clientConnect sound.linked server,sound.nodes⟩
  case clientRegister k =>
    split at ran
    · cases ran
    · rename_i link found
      split at ran
      · rename_i meets
        cases ran
        exact ⟨linked_clientRegister sound.linked found meets.1 meets.2,sound.nodes⟩
      · cases ran

def fails : Act → Bool
  | .handshakeFails .. | .unreadable _ => true
  | _ => false

-- The runs in which no task gives up.
abbrev Goes (d : Deployment) : World → List Act → World → Prop := Runs (step d) (fun _ action => fails action = false)

-- A pair whose stream both ends know.
def Met (pair : NodeId × NodeId) (w : World) : Prop :=
  ∃ k link, w.connectors pair = .registered k ∧ w.links k = some link ∧ link.identified = true

-- A pair that can meet no more: the dialing task has given up, or the other end has.
def Lost (pair : NodeId × NodeId) (w : World) : Prop :=
  w.connectors pair = .failed ∨ ∃ k link, (w.connectors pair = .connected k ∨ w.connectors pair = .registered k) ∧
    w.links k = some link ∧ link.dropped = true

theorem Lost.busy (lost : Lost pair w) : w.connectors pair ≠ .dialing := by
  rcases lost with failed | ⟨k,link,connected | registered,_⟩
  · simp [failed]
  · simp [connected]
  · simp [registered]

-- What a step never takes back.
structure Onward (w next : World) : Prop where
  listener : ∀ node, (w.networks node).listener ≠ .unbound → (next.networks node).listener ≠ .unbound
  initialized : ∀ node, (w.networks node).initialized = true → (next.networks node).initialized = true
  registered : ∀ pair k, w.connectors pair = .registered k → next.connectors pair = .registered k
  connected : ∀ pair k, w.connectors pair = .connected k →
    next.connectors pair = .connected k ∨ next.connectors pair = .registered k ∨ next.connectors pair = .failed
  failed : ∀ pair, w.connectors pair = .failed → next.connectors pair = .failed
  links : ∀ k link, w.links k = some link → ∃ link', next.links k = some link' ∧
    (link.identified = true → link'.identified = true) ∧ (link.dropped = true → link'.dropped = true)

theorem Onward.trans (first : Onward w middle) (second : Onward middle next) : Onward w next := by
  refine ⟨fun node bound => second.listener node (first.listener node bound),
    fun node ready => second.initialized node (first.initialized node ready),
    fun pair k dials => second.registered pair k (first.registered pair k dials),?_,
    fun pair fails => second.failed pair (first.failed pair fails),?_⟩
  · intro pair k dials
    rcases first.connected pair k dials with still | sent | failed
    · exact second.connected pair k still
    · exact .inr (.inl (second.registered pair k sent))
    · exact .inr (.inr (second.failed pair failed))
  · intro k link found
    obtain ⟨link',found',seen,gone⟩ := first.links k link found
    obtain ⟨link'',found'',seen',gone'⟩ := second.links k link' found'
    exact ⟨link'',found'',seen'∘seen,gone'∘gone⟩

theorem Lost.onward (lost : Lost pair w) (onward : Onward w next) : Lost pair next := by
  rcases lost with failed | ⟨k,link,dials,found,gone⟩
  · exact .inl (onward.failed pair failed)
  · obtain ⟨link',found',_,gone'⟩ := onward.links k link found
    rcases dials with connected | registered
    · rcases onward.connected pair k connected with still | sent | failed
      · exact .inr ⟨k,link',.inl still,found',gone' gone⟩
      · exact .inr ⟨k,link',.inr sent,found',gone' gone⟩
      · exact .inl failed
    · exact .inr ⟨k,link',.inr (onward.registered pair k registered),found',gone' gone⟩

theorem onward_network (w : World) (node : NodeId) (n : Network)
    (listener : (w.networks node).listener ≠ .unbound → n.listener ≠ .unbound)
    (ready : (w.networks node).initialized = true → n.initialized = true) : Onward w (w.updateNetwork node n) := by
  refine ⟨?_,?_,fun _ _ dials => dials,fun _ _ dials => .inl dials,fun _ fails => fails,
    fun _ link found => ⟨link,found,id,id⟩⟩
  · intro other bound
    rw [updateNetwork_apply]
    split
    · exact listener (‹other = node› ▸ bound)
    · exact bound
  · intro other done
    rw [updateNetwork_apply]
    split
    · exact ready (‹other = node› ▸ done)
    · exact done

theorem onward_arrive (w : World) (node : NodeId) (new : NewConnection) :
    Onward w (w.updateNetwork node ((w.networks node).arrive new)) := by
  apply onward_network <;> unfold Network.arrive <;> split <;> exact fun held => held

theorem onward_link {link : Link} (link' : Link) (found : w.links k = some link)
    (seen : link.identified = true → link'.identified = true) (gone : link.dropped = true → link'.dropped = true) :
    Onward w {w with links:=w.links.insert k link'} := by
  refine ⟨fun _ bound => bound,fun _ ready => ready,fun _ _ dials => dials,fun _ _ dials => .inl dials,
    fun _ fails => fails,?_⟩
  intro other old there
  simp only [KeyMap.insert_apply]
  split
  · rename_i same
    cases Option.some.inj ((same ▸ there).symm.trans found)
    exact ⟨link',rfl,seen,gone⟩
  · exact ⟨old,there,id,id⟩

theorem onward_made (linked : Linked d w) (link : Link) : Onward w {w with made:=w.made+1,links:=w.links.insert w.made link} := by
  refine ⟨fun _ bound => bound,fun _ ready => ready,fun _ _ dials => dials,fun _ _ dials => .inl dials,
    fun _ fails => fails,?_⟩
  intro other old there
  exact ⟨old,(KeyMap.insert_of_ne _ (Nat.ne_of_lt (linked.fresh other old there))).trans there,id,id⟩

-- A task that has dialed has either sent its handshake or given up.
theorem onward_connector (w : World) (pair : NodeId × NodeId) (c : Connector)
    (unsettled : (∀ k, w.connectors pair ≠ .registered k) ∧ w.connectors pair ≠ .failed)
    (same : ∀ k, w.connectors pair = .connected k → c = .registered k ∨ c = .failed) :
    Onward w {w with connectors:=Function.update w.connectors pair c} := by
  have elsewhere : ∀ {other state}, w.connectors other = state → w.connectors pair ≠ state →
      Function.update w.connectors pair c other = state := by
    rintro other state dials apart
    refine (Function.update_of_ne ?_ _ _).trans dials
    rintro rfl
    exact apart dials
  refine ⟨fun _ bound => bound,fun _ ready => ready,fun _ k dials => elsewhere dials (unsettled.1 k),?_,
    fun _ fails => elsewhere fails unsettled.2,fun _ link found => ⟨link,found,id,id⟩⟩
  intro other k dials
  by_cases here : other = pair
  · subst here
    exact .inr (by simpa only [Function.update_self] using same k dials)
  · exact .inl ((Function.update_of_ne here _ _).trans dials)

theorem taken_onward {n next : Network} (ran : n.initializeConnections peers numClients = some next) :
    (n.listener ≠ .unbound → next.listener ≠ .unbound) ∧ (n.initialized = true → next.initialized = true) := by
  have checked : ∀ n : Network, (n.listener ≠ .unbound → (n.checkConnected peers numClients).listener ≠ .unbound) ∧
      (n.initialized = true → (n.checkConnected peers numClients).initialized = true) := by
    intro n
    unfold Network.checkConnected
    split
    · exact ⟨fun _ => nofun,fun _ => rfl⟩
    · exact ⟨id,id⟩
  unfold Network.initializeConnections at ran
  split at ran
  · cases ran
  · rename_i peer link rest source
    split at ran <;> cases ran
    · exact checked {n with connectionSource:=rest,peerConnections:=n.peerConnections.insert peer link}
    · exact ⟨id,id⟩
  · rename_i client link rest source
    cases ran
    exact checked {n with
      connectionSource:=rest
      clientConnections:=n.clientConnections.filter (fun (held : ClientId × Nat) => held.1 ≠ client)++[(client,link)]}

theorem step_onward {w next : World} (sound : Sound d w) (ran : step d w action = some next) : Onward w next := by
  cases action <;> simp only [step] at ran
  case bind node =>
    split at ran <;> cases ran
    exact onward_network w node _ (fun _ impossible => by cases impossible) id
  case connect i j =>
    split at ran
    · rename_i meets
      cases ran
      exact (onward_made sound.linked _).trans
        (onward_connector _ (i,j) _ ⟨fun k => by simp [meets.2.2.2.1],by simp [meets.2.2.2.1]⟩ fun k => by simp [meets.2.2.2.1])
    · cases ran
  case handshake i j =>
    split at ran
    · rename_i k dials
      split at ran
      · cases ran
      · rename_i link found
        cases ran
        exact ((onward_link {link with handshake:=some (.nodeRegister i)} found id id).trans
          (onward_connector _ (i,j) _ ⟨fun k => by simp [dials],by simp [dials]⟩ fun k' same => .inl
            (congrArg _ (Connector.connected.inj (dials.symm.trans same))))).trans (onward_arrive _ i _)
    · cases ran
  case handshakeFails i j =>
    split at ran
    · rename_i k dials
      cases ran
      exact onward_connector _ (i,j) _ ⟨fun k => by simp [dials],by simp [dials]⟩ fun _ _ => .inr rfl
    · cases ran
  case accept k =>
    split at ran
    · cases ran
    · rename_i link found
      split at ran <;> cases ran
      exact onward_link _ found id id
  case register k =>
    split at ran
    · cases ran
    · rename_i link found
      split at ran
      · split at ran <;> cases ran
        · exact (onward_link {link with identified:=true} found (fun _ => rfl) id).trans (onward_arrive _ _ _)
        · refine (onward_link {link with identified:=true} found (fun _ => rfl) id).trans (onward_network _ _ _ ?_ ?_) <;>
            unfold Network.arrive <;> split <;> exact fun held => held
      · cases ran
  case unreadable k =>
    split at ran
    · cases ran
    · rename_i link found
      split at ran <;> cases ran
      exact onward_link {link with dropped:=true} found id (fun _ => rfl)
  case receive node =>
    split at ran
    · obtain ⟨n,taken,rfl⟩ := Option.map_eq_some_iff.mp ran
      exact onward_network w node n (taken_onward taken).1 (taken_onward taken).2
    · cases ran
  case clientConnect server =>
    split at ran <;> cases ran
    exact onward_made sound.linked _
  case clientRegister k =>
    split at ran
    · cases ran
    · rename_i link found
      split at ran <;> cases ran
      exact onward_link _ found id id

-- A step that changes no stream's state and no task's stream loses no pair.
theorem lost_before {w next : World} (lost : Lost pair next) (failed : next.connectors pair = .failed → w.connectors pair = .failed)
    (streams : ∀ k, next.connectors pair = .connected k ∨ next.connectors pair = .registered k →
      w.connectors pair = .connected k ∨ w.connectors pair = .registered k)
    (links : ∀ k link, next.links k = some link → link.dropped = true → ∃ link', w.links k = some link' ∧ link'.dropped = true) :
    Lost pair w := by
  rcases lost with fails | ⟨k,link,dials,found,gone⟩
  · exact .inl (failed fails)
  · obtain ⟨link',found',gone'⟩ := links k link found gone
    exact .inr ⟨k,link',streams k dials,found',gone'⟩

theorem dropped_before {w : World} {link link' : Link} (found : w.links k = some link) (same : link'.dropped = link.dropped) :
    ∀ other old, w.links.insert k link' other = some old → old.dropped = true →
      ∃ link, w.links other = some link ∧ link.dropped = true := by
  intro other old there gone
  rw [KeyMap.insert_apply] at there
  split at there
  · rename_i here
    cases there
    exact ⟨link,here ▸ found,same.symm.trans gone⟩
  · exact ⟨old,there,gone⟩

theorem step_unlost {w next : World} (linked : Linked d w) (kept : ∀ pair, ¬ Lost pair w) (fine : fails action = false)
    (ran : step d w action = some next) : ∀ pair, ¬ Lost pair next := by
  intro pair lost
  refine kept pair ?_
  cases action <;> simp only [step] at ran
  case handshakeFails | unreadable => cases fine
  case connect i j =>
    split at ran <;> cases ran
    have fresh := linked.fresh
    have connected := linked.connected
    have registered := linked.registered
    simp only [Lost,KeyMap.insert_apply,Function.update_apply] at lost ⊢
    grind
  case handshake i j =>
    split at ran
    · rename_i k dials
      split at ran <;> cases ran
      rename_i link found
      refine lost_before lost ?_ ?_ (dropped_before found rfl) <;>
        simp only [updateNetwork_connectors,Function.update_apply] <;> split
      · exact fun same => by cases same
      · exact id
      · rename_i same
        rintro k' (same' | same')
        · cases same'
        · cases same'
          exact .inl (same ▸ dials)
      · exact fun _ => id
    · cases ran
  case receive node =>
    split at ran
    · obtain ⟨n,taken,rfl⟩ := Option.map_eq_some_iff.mp ran
      exact lost
    · cases ran
  case bind =>
    split at ran <;> cases ran
    exact lost
  case clientConnect server =>
    split at ran <;> cases ran
    refine lost_before lost id (fun _ => id) ?_
    intro k link found gone
    simp only [KeyMap.insert_apply] at found
    split at found
    · cases found
      cases gone
    · exact ⟨link,found,gone⟩
  case accept k | clientRegister k =>
    split at ran
    · cases ran
    · rename_i link found
      split at ran <;> cases ran
      exact lost_before lost id (fun _ => id) (dropped_before found rfl)
  case register k =>
    split at ran
    · cases ran
    · rename_i link found
      split at ran
      · split at ran <;> cases ran <;> exact lost_before lost id (fun _ => id) (dropped_before found rfl)
      · cases ran

theorem Met.onward (met : Met pair w) (onward : Onward w next) : Met pair next := by
  obtain ⟨k,link,dials,found,seen⟩ := met
  obtain ⟨link',found',seen',_⟩ := onward.links k link found
  exact ⟨k,link',onward.registered pair k dials,found',seen' seen⟩

structure Healthy (d : Deployment) (w : World) : Prop where
  sound : Sound d w
  unlost : ∀ pair, ¬ Lost pair w

theorem healthy_step {w next : World} (healthy : Healthy d w) (fine : fails action = false)
    (ran : step d w action = some next) : Healthy d next :=
  ⟨step_sound healthy.sound ran,step_unlost healthy.sound.linked healthy.unlost fine ran⟩

theorem all_bound (healthy : Healthy d w) : ∃ actions next, Goes d w actions next ∧
    Healthy d next ∧ ∀ node ∈ d.nodes, (next.networks node).listener ≠ .unbound := by
  refine Runs.traverse (Healthy d) (fun node w => (w.networks node).listener ≠ .unbound) d.nodes
    (fun _ _ _ healthy fine ran => healthy_step healthy fine ran)
    (fun node _ _ _ healthy ran bound => (step_onward healthy.sound ran).listener node bound) ?_ healthy
  intro node member w _
  by_cases unbound : (w.networks node).listener = .unbound
  · refine ⟨[.bind node],_,Runs.nil.snoc rfl (by simp only [step]; rw [if_pos ⟨member,unbound⟩]),?_⟩
    rw [updateNetwork_self]
    nofun
  · exact ⟨[],w,.nil,unbound⟩

-- What is left to do before both ends of a stream know it.
def unmet (w : World) (pair : NodeId × NodeId) : Nat :=
  match w.connectors pair with
  | .dialing => 4
  | .connected _ => 3
  | .registered k => if (w.links k).any (·.identified) then 0 else if (w.links k).any (·.accepted) then 1 else 2
  | .failed => 0

-- A listener that is still needed is there.
theorem Healthy.listening (healthy : Healthy d w) (bound : (w.networks peer).listener ≠ .unbound)
    (open' : (w.networks peer).initialized = false) : (w.networks peer).listener = .bound := by
  cases listener : (w.networks peer).listener with
  | unbound => exact absurd listener bound
  | bound => rfl
  | aborted => simp [((healthy.sound.nodes peer).ended.mp listener)] at open'

-- A node that has left its loop is met by all that dial it.
theorem Sound.met_of_left (sound : Sound d w) (mine : i ∈ d.nodes) (peer : j ∈ d.peers i) (smaller : j < i)
    (ready : (w.networks j).initialized = true) : Met (i,j) w := by
  have theirs : i ∈ d.peers j := mem_peers.mpr ⟨mine,fun same => (mem_peers.mp peer).2 same.symm⟩
  obtain ⟨k,slot⟩ := (sound.nodes j).full ready i theirs
  rcases sound.linked.held j i k (.inl slot) with one | ⟨one,link,found,seen⟩
  · have larger := (sound.linked.busy j i (by simp [one])).2.2
    exact (Nat.lt_asymm smaller larger).elim
  · exact ⟨k,link,one,found,seen⟩

theorem pair_advances (healthy : Healthy d w) (mine : i ∈ d.nodes) (peer : j ∈ d.peers i) (smaller : j < i)
    (bound : (w.networks j).listener ≠ .unbound) (apart : ¬ Met (i,j) w) :
    ∃ action next, fails action = false ∧ step d w action = some next ∧ unmet next (i,j) < unmet w (i,j) := by
  have listening : (w.networks j).listener = .bound := by
    refine healthy.listening bound ?_
    cases ready : (w.networks j).initialized with
    | false => rfl
    | true => exact absurd (healthy.sound.met_of_left mine peer smaller ready) apart
  cases dials : w.connectors (i,j) with
  | failed => exact absurd (.inl dials) (healthy.unlost (i,j))
  | dialing =>
    refine ⟨.connect i j,_,rfl,by simp only [step]; rw [if_pos ⟨mine,peer,smaller,dials,listening⟩],?_⟩
    simp [unmet,dials]
  | connected k =>
    obtain ⟨link,found,_⟩ := healthy.sound.linked.connected i j k dials
    refine ⟨.handshake i j,_,rfl,by simp only [step,dials,found]; rfl,?_⟩
    simp only [unmet,dials,updateNetwork_connectors,Function.update_self]
    split
    · decide
    · split <;> decide
  | registered k =>
    obtain ⟨⟨link,found,_,target,message⟩,_⟩ := healthy.sound.linked.registered i j k dials
    have unseen : link.identified = false := by
      cases seen : link.identified with
      | false => rfl
      | true => exact absurd ⟨k,link,dials,found,seen⟩ apart
    have there : link.dropped = false := by
      cases gone : link.dropped with
      | false => rfl
      | true => exact absurd (.inr ⟨k,link,.inr dials,found,gone⟩) (healthy.unlost (i,j))
    cases accepted : link.accepted with
    | false =>
      refine ⟨.accept k,_,rfl,by simp only [step,found]; rw [if_pos ⟨accepted,target ▸ listening⟩],?_⟩
      simp [unmet,dials,found,accepted,unseen]
    | true =>
      refine ⟨.register k,_,rfl,by simp only [step,found]; rw [if_pos ⟨accepted,unseen,there⟩,message],?_⟩
      simp [unmet,dials,found,accepted,unseen]

theorem all_met (healthy : Healthy d w) (bound : ∀ node ∈ d.nodes, (w.networks node).listener ≠ .unbound) :
    ∃ actions next, Goes d w actions next ∧ Healthy d next ∧ (∀ node ∈ d.nodes, (next.networks node).listener ≠ .unbound) ∧
      ∀ i ∈ d.nodes, ∀ j ∈ d.peers i, j < i → Met (i,j) next := by
  let valid (w : World) := Healthy d w ∧ ∀ node ∈ d.nodes, (w.networks node).listener ≠ .unbound
  have preserved : ∀ w action next, valid w → fails action = false → step d w action = some next → valid next :=
    fun w action next held fine ran => ⟨healthy_step held.1 fine ran,
      fun node member => (step_onward held.1.sound ran).listener node (held.2 node member)⟩
  have achieve : ∀ pair ∈ d.nodes ×ˢ d.nodes, ∀ w, valid w → ∃ actions next, Goes d w actions next ∧
      (pair.2 ∈ d.peers pair.1 → pair.2 < pair.1 → Met pair next) := by
    rintro ⟨i,j⟩ member w held
    obtain ⟨mine,_⟩ := List.pair_mem_product.mp member
    by_cases wanted : j ∈ d.peers i ∧ j < i
    · have advance : ∀ w, valid w → ¬ Met (i,j) w → ∃ actions next, Goes d w actions next ∧ valid next ∧
          unmet next (i,j) < unmet w (i,j) := by
        intro w held apart
        obtain ⟨action,next,fine,ran,less⟩ := pair_advances held.1 mine wanted.1 wanted.2
          (held.2 j (mem_peers.mp wanted.1).1) apart
        exact ⟨_,next,Runs.nil.snoc fine ran,preserved w action next held fine ran,less⟩
      obtain ⟨actions,next,path,_,met⟩ := Runs.exhaust valid (Met (i,j)) (unmet · (i,j)) advance held
      exact ⟨actions,next,path,fun _ _ => met⟩
    · exact ⟨[],w,.nil,fun peer smaller => absurd ⟨peer,smaller⟩ wanted⟩
  obtain ⟨actions,next,path,known,all⟩ := Runs.traverse valid
    (fun pair w => pair.2 ∈ d.peers pair.1 → pair.2 < pair.1 → Met pair w) (d.nodes ×ˢ d.nodes) preserved
    (fun pair _ _ _ held ran met member smaller => (met member smaller).onward (step_onward held.1.sound ran)) achieve
    ⟨healthy,bound⟩
  refine ⟨actions,next,path,known.1,known.2,?_⟩
  intro i mine j peer smaller
  exact all (i,j) (List.pair_mem_product.mpr ⟨mine,(mem_peers.mp peer).1⟩) peer smaller

-- With nothing left to come in, what a node is to hold for its peers it holds.
theorem filled (healthy : Healthy d w) (met : ∀ i ∈ d.nodes, ∀ j ∈ d.peers i, j < i → Met (i,j) w) (mine : node ∈ d.nodes)
    (taken : (w.networks node).connectionSource = []) (peer : NodeId) (member : peer ∈ d.peers node) :
    ∃ link, (w.networks node).peerConnections peer = some link := by
  have slot : ∀ link, Holds (w.networks node) peer link → (w.networks node).peerConnections peer = some link := by
    rintro link (slot | queued)
    · exact slot
    · rw [taken] at queued
      cases queued
  have linked := healthy.sound.linked
  rcases Nat.lt_or_gt_of_ne (mem_peers.mp member).2 with smaller | larger
  · obtain ⟨k,_,dials,_⟩ := met node mine peer member smaller
    exact ⟨k,slot k (linked.registered node peer k dials).2⟩
  · have theirs : node ∈ d.peers peer := mem_peers.mpr ⟨mine,fun same => (mem_peers.mp member).2 same.symm⟩
    obtain ⟨k,link,dials,found,seen⟩ := met peer (mem_peers.mp member).1 node theirs larger
    obtain ⟨⟨link',found',_,target,message⟩,_⟩ := linked.registered peer node k dials
    cases Option.some.inj (found.symm.trans found')
    have has := (linked.identified k link found seen).2 peer message
    rw [target] at has
    exact ⟨k,slot k has⟩

theorem checkConnected_cases (n : Network) (peers : List NodeId) (numClients : Nat) :
    (n.checkConnected peers numClients).initialized = true ∨
      (n.allConnected peers numClients = false ∧ n.checkConnected peers numClients = n) := by
  unfold Network.checkConnected
  split
  · exact .inl rfl
  · exact .inr ⟨Bool.eq_false_of_not_eq_true ‹_›,rfl⟩

theorem client_arrives (healthy : Healthy d w) (mine : node ∈ d.nodes) (listening : (w.networks node).listener = .bound)
    (open' : (w.networks node).initialized = false) (taken : (w.networks node).connectionSource = []) :
    ∃ (actions : List Act) (next : World) (n : Network), Goes d w actions next ∧
      next.networks node = n.checkConnected (d.peers node) (d.numClients node) ∧
      n.connectionSource = [] ∧ n.peerConnections = (w.networks node).peerConnections ∧
      n.clientConnections.length = (w.networks node).clientConnections.length+1 := by
  have sane := (healthy.sound.nodes node).sane
  have ran : ∃ final, run (step d) (fun _ action => fails action = false) w
      [.clientConnect node,.clientRegister w.made,.accept w.made,.register w.made,.receive node] = some final ∧
      final.networks node = ({w.networks node with
        maxClientId:=(w.networks node).maxClientId+1
        clientConnections:=(w.networks node).clientConnections.filter
          (fun (held : ClientId × Nat) => held.1 ≠ (w.networks node).maxClientId+1)++
            [((w.networks node).maxClientId+1,w.made)]} : Network).checkConnected (d.peers node) (d.numClients node) := by
    simp [run,step,fails,listening,mine,open',taken,sane,Network.arrive,Network.initializeConnections,updateNetwork_apply]
  obtain ⟨final,ran,last⟩ := ran
  refine ⟨_,final,_,run_sound ran,last,taken,rfl,?_⟩
  have fresh : ∀ other ∈ (w.networks node).clientConnections.map Prod.fst, other ≠ (w.networks node).maxClientId+1 := by
    rintro other member rfl
    exact Nat.not_succ_le_self _ ((healthy.sound.nodes node).numbered _ (List.mem_append_left _ member)).2
  simp only [unlisted _ _ fresh,List.length_append,List.length_singleton]

-- Taking what came in leaves less of it, and keeps the clients there are.
theorem taken_less {n : Network} (sound : Local d node n) (known : ∀ peer link, Holds n peer link → peer ∈ d.peers node)
    (source : n.connectionSource = new::rest) :
    ∃ next, n.initializeConnections (d.peers node) (d.numClients node) = some next ∧ (next.initialized = true ∨
      (next.connectionSource = rest ∧ n.clientConnections.length ≤ next.clientConnections.length)) := by
  unfold Network.initializeConnections
  rw [source]
  cases new with
  | toPeer peer link =>
    have member := known peer link (.inr (by rw [source]; exact List.mem_cons_self))
    dsimp only
    rw [if_pos member]
    refine ⟨_,rfl,?_⟩
    rcases checkConnected_cases {n with connectionSource:=rest,peerConnections:=n.peerConnections.insert peer link}
      (d.peers node) (d.numClients node) with done | ⟨_,same⟩
    · exact .inl done
    · rw [same]
      exact .inr ⟨rfl,Nat.le_refl _⟩
  | toClient client link =>
    refine ⟨_,rfl,?_⟩
    rcases checkConnected_cases {n with
      connectionSource:=rest
      clientConnections:=n.clientConnections.filter (fun (held : ClientId × Nat) => held.1 ≠ client)++[(client,link)]}
      (d.peers node) (d.numClients node) with done | ⟨_,same⟩
    · exact .inl done
    · rw [same,unlisted n client (sound.apart source)]
      refine .inr ⟨rfl,?_⟩
      rw [List.length_append]
      exact Nat.le_add_right _ _

-- What has come in and the clients that a node still waits for.
def lacking (d : Deployment) (node : NodeId) (w : World) : Nat :=
  (w.networks node).connectionSource.length+(d.numClients node-(w.networks node).clientConnections.length)

theorem node_advances (healthy : Healthy d w) (met : ∀ i ∈ d.nodes, ∀ j ∈ d.peers i, j < i → Met (i,j) w) (mine : node ∈ d.nodes)
    (bound : (w.networks node).listener ≠ .unbound) (open' : (w.networks node).initialized = false) :
    ∃ actions next, Goes d w actions next ∧ ((next.networks node).initialized = true ∨ lacking d node next < lacking d node w) := by
  have sound := healthy.sound.nodes node
  cases source : (w.networks node).connectionSource with
  | nil =>
    obtain ⟨actions,next,n,path,last,empty,slots,more⟩ := client_arrives healthy mine (healthy.listening bound open') open' source
    refine ⟨actions,next,path,?_⟩
    rcases checkConnected_cases n (d.peers node) (d.numClients node) with done | ⟨missing,same⟩
    · exact .inl (last ▸ done)
    · refine .inr ?_
      have short : ¬ d.numClients node ≤ n.clientConnections.length := by
        intro enough
        have all := allConnected_iff.mpr ⟨enough,fun peer member => slots ▸ filled healthy met mine source peer member⟩
        exact Bool.false_ne_true (missing.symm.trans all)
      simp only [lacking,last,same,empty,source,more,List.length_nil] at *
      omega
  | cons new rest =>
    obtain ⟨n,took,less⟩ := taken_less sound (fun peer link has => healthy.sound.known has) source
    refine ⟨[.receive node],w.updateNetwork node n,Runs.nil.snoc rfl ?_,?_⟩
    · simp only [step]
      rw [if_pos ⟨mine,open',sound.sane⟩,took]
      rfl
    · rw [updateNetwork_self]
      rcases less with done | ⟨shorter,more⟩
      · exact .inl done
      · refine .inr ?_
        rw [lacking,lacking,updateNetwork_self,shorter,source,List.length_cons]
        omega

theorem all_left (healthy : Healthy d w) (bound : ∀ node ∈ d.nodes, (w.networks node).listener ≠ .unbound)
    (met : ∀ i ∈ d.nodes, ∀ j ∈ d.peers i, j < i → Met (i,j) w) :
    ∃ actions next, Goes d w actions next ∧ ∀ node ∈ d.nodes, (next.networks node).initialized = true := by
  let valid (w : World) := Healthy d w ∧ (∀ node ∈ d.nodes, (w.networks node).listener ≠ .unbound) ∧
    ∀ i ∈ d.nodes, ∀ j ∈ d.peers i, j < i → Met (i,j) w
  have preserved : ∀ w action next, valid w → fails action = false → step d w action = some next → valid next := by
    rintro w action next ⟨healthy,bound,met⟩ fine ran
    have onward := step_onward healthy.sound ran
    exact ⟨healthy_step healthy fine ran,fun node member => onward.listener node (bound node member),
      fun i mine j peer smaller => (met i mine j peer smaller).onward onward⟩
  have achieve : ∀ node ∈ d.nodes, ∀ w, valid w → ∃ actions next, Goes d w actions next ∧
      (next.networks node).initialized = true := by
    intro node mine w held
    -- A node that has left has nothing left to do.
    let left (w : World) := if (w.networks node).initialized then 0 else lacking d node w+1
    have advance : ∀ w, valid w → ¬ (w.networks node).initialized = true → ∃ actions next, Goes d w actions next ∧
        valid next ∧ left next < left w := by
      intro w held waits
      obtain ⟨actions,next,path,less⟩ := node_advances held.1 held.2.2 mine (held.2.1 node mine) (Bool.eq_false_of_not_eq_true waits)
      refine ⟨actions,next,path,path.invariant valid preserved held,?_⟩
      simp only [left,if_neg waits]
      split
      · exact Nat.succ_pos _
      · rcases less with done | less
        · exact absurd done ‹_›
        · exact Nat.succ_lt_succ less
    obtain ⟨actions,next,path,_,done⟩ := Runs.exhaust valid (fun w => (w.networks node).initialized = true) left advance held
    exact ⟨actions,next,path,done⟩
  obtain ⟨actions,next,path,_,all⟩ := Runs.traverse valid (fun node w => (w.networks node).initialized = true) d.nodes preserved
    (fun node _ _ _ held ran ready => (step_onward held.1.sound ran).initialized node ready) achieve ⟨healthy,bound,met⟩
  exact ⟨actions,next,path,all⟩

theorem start_sound (d : Deployment) : Sound d {} := by
  have none : ∀ {node peer link}, ¬ Holds (({} : World).networks node) peer link := by
    rintro node peer link (slot | queued)
    · cases slot
    · cases queued
  refine ⟨⟨nofun,nofun,nofun,fun _ _ busy => absurd rfl busy,nofun,nofun,nofun,fun _ _ _ has => absurd has none,nofun⟩,?_⟩
  intro node
  exact ⟨iff_of_false nofun nofun,nofun,nofun,rfl,List.nodup_nil,nofun⟩

theorem reached_sound (path : Reaches (step d) {} actions w) : Sound d w :=
  path.invariant (Sound d) (fun _ _ _ sound _ ran => step_sound sound ran) (start_sound d)

-- Of a pair that is lost, one node is never through.
theorem Sound.lost_waits (sound : Sound d w) (lost : Lost (i,j) w) (done : ∀ node ∈ d.nodes, (w.networks node).initialized = true) :
    False := by
  obtain ⟨mine,member,smaller⟩ := sound.linked.busy i j lost.busy
  obtain ⟨k,link,dials,found,seen⟩ := sound.met_of_left mine member smaller (done j (mem_peers.mp member).1)
  rcases lost with failed | ⟨k',link',connected | registered,found',gone⟩
  · cases dials.symm.trans failed
  · cases dials.symm.trans connected
  · cases dials.symm.trans registered
    cases found.symm.trans found'
    cases (sound.linked.dropped k link found gone).symm.trans seen

-- In every interleaving of the nodes' tasks and of any clients, once every node has its
-- listening address: no slot is missing, both ends of a connection hold the same stream,
-- no two of a node's clients have one number, and a node that has stopped listening is
-- still dialed by nobody. All nodes can still get through exactly if no dialing task has
-- failed at its handshake and no stream was dropped with the handshake unread: no task
-- tries again after either.
theorem nodes_connect (d : Deployment) (actions : List Act) (w : World) (path : Reaches (step d) {} actions w) :
    (∀ node, (w.networks node).panicked = false) ∧
    (∀ node peer link other, (w.networks node).peerConnections peer = some link →
      (w.networks peer).peerConnections node = some other → link = other) ∧
    (∀ node, (w.networks node).clients.Nodup ∧
      ∀ client ∈ (w.networks node).clients, 1 ≤ client ∧ client ≤ (w.networks node).maxClientId) ∧
    (∀ node ∈ d.nodes, (w.networks node).listener = .aborted →
      d.numClients node ≤ (w.networks node).clientConnections.length ∧
      ∀ peer ∈ d.peers node, (∃ link, (w.networks node).peerConnections peer = some link) ∧
        (node < peer → ∃ link, w.connectors (peer,node) = .registered link)) ∧
    ((∃ later final, Reaches (step d) w later final ∧ ∀ node ∈ d.nodes, (final.networks node).initialized = true) ↔
      ∀ pair, ¬ Lost pair w) := by
  have sound := reached_sound path
  refine ⟨fun node => (sound.nodes node).sane,?_,?_,?_,?_⟩
  · intro node peer link other near far
    exact (sound.linked.held node peer link (.inl near)).meet sound.linked (sound.linked.held peer node other (.inl far))
  · intro node
    have known := sound.nodes node
    exact ⟨known.distinct,known.numbered⟩
  · intro node mine ended
    have known := sound.nodes node
    have ready := known.ended.mp ended
    refine ⟨known.enough ready,?_⟩
    intro peer member
    refine ⟨known.full ready peer member,?_⟩
    intro smaller
    have theirs : node ∈ d.peers peer := mem_peers.mpr ⟨mine,fun same => (mem_peers.mp member).2 same.symm⟩
    obtain ⟨link,_,dials,_⟩ := sound.met_of_left (mem_peers.mp member).1 theirs smaller ready
    exact ⟨link,dials⟩
  · constructor
    · rintro ⟨later,final,path',done⟩ ⟨i,j⟩ lost
      obtain ⟨sound',lost'⟩ := path'.invariant (fun w => Sound d w ∧ Lost (i,j) w)
        (fun _ _ _ held _ ran => ⟨step_sound held.1 ran,held.2.onward (step_onward held.1 ran)⟩) ⟨sound,lost⟩
      exact sound'.lost_waits lost' done
    · intro unlost
      obtain ⟨first,bound,path₁,healthy₁,listening⟩ := all_bound ⟨sound,unlost⟩
      obtain ⟨second,met,path₂,healthy₂,listening,pairs⟩ := all_met healthy₁ listening
      obtain ⟨third,final,path₃,all⟩ := all_left healthy₂ listening pairs
      exact ⟨_,final,((path₁.append path₂).append path₃).weaken (fun _ _ _ => trivial),all⟩

def sampleDeployment : Deployment := ⟨[1,2],by decide,fun _ => 0⟩

-- Node 2 has dialed node 1, which has let it in and left.
theorem nodes_connect_pair : ∃ w, (w.networks 1).listener = .aborted ∧
    (∃ link, (w.networks 1).peerConnections 2 = some link) ∧
    ∃ later final, Reaches (step sampleDeployment) w later final ∧ ∀ node ∈ [1,2], (final.networks node).initialized = true := by
  obtain ⟨w,path,ended,settled,there⟩ := run_reaches (step sampleDeployment) (fun _ _ => True)
    (fun w => (w.networks 1).listener = .aborted ∧ w.connectors (2,1) = .registered 0 ∧
      (w.links 0).map Link.dropped = some false) {}
    [.bind 1,.connect 2 1,.handshake 2 1,.accept 0,.register 0,.receive 1] (by decide +kernel)
  obtain ⟨_,_,_,left,all⟩ := nodes_connect sampleDeployment _ w path
  obtain ⟨_,full⟩ := left 1 (by decide) ended
  refine ⟨w,ended,(full 2 (by decide)).1,all.mpr ?_⟩
  rintro ⟨i,j⟩ lost
  obtain ⟨mine,member,smaller⟩ := (reached_sound path).linked.busy i j lost.busy
  simp only [sampleDeployment,List.mem_cons,List.not_mem_nil,or_false] at mine
  obtain ⟨peer,_⟩ := mem_peers.mp member
  simp only [sampleDeployment,List.mem_cons,List.not_mem_nil,or_false] at peer
  rcases mine with rfl | rfl <;> rcases peer with rfl | rfl
  · exact absurd smaller (by decide)
  · exact absurd smaller (by decide)
  · rcases lost with failed | ⟨k,link,connected | registered,found,gone⟩
    · cases settled.symm.trans failed
    · cases settled.symm.trans connected
    · cases settled.symm.trans registered
      rw [found,Option.map_some,gone] at there
      cases there
  · exact absurd smaller (by decide)

end OmniPaxosKV.Bootstrap
