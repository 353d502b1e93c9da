import OmniPaxosKV.Server

namespace OmniPaxosKV

-- Votes for one history hash: how many, and the leader's speculation if it came.
abbrev Vote := Nat × Speculation

inductive PRCommand where
  | put (key : UInt64) (val : Vote)
  | delete (key : UInt64)
  | get (key : UInt64)

structure VoteDatabase where
  db : KeyMap UInt64 Vote := .empty
  quorum : Nat

def VoteDatabase.handleCommand (s : VoteDatabase) : PRCommand → Option (Option Vote) × VoteDatabase
  | .put key val => (none,{s with db:=s.db.insert key val})
  | .delete key => (none,{s with db:=s.db.remove key})
  | .get key => (some (s.db key),s)

-- An ack as a connection task takes it from its server's channel. `source` and
-- `place` say which message of which server it is.
structure Receipt where
  source : Nat
  place : Nat
  cmd : Command
  hash : UInt64
  suspect : Speculation
  lastIdx : Nat
  deriving DecidableEq, Repr

-- A connection task between two awaits. `ack` is the number of the ack it is
-- working on, counted over all acks the proxy has received.
inductive Handler where
  | selecting
  | forwarding (request : Nat) (m : ClientMessage) (remaining : List Nat)
  | received (ack : Nat) (r : Receipt)
  | read (ack : Nat) (r : Receipt) (stored : Option Vote)
  | confirming (ack : Nat) (r : Receipt) (remaining : List Nat)
  | responding (ack : Nat) (r : Receipt)
  | deleting (ack : Nat) (r : Receipt)
  | returned
  deriving DecidableEq, Repr

structure Connection where
  receiver : Nat
  handler : Handler := .selecting
  deriving DecidableEq, Repr

-- Why a message went out: a client's request, or a received ack.
inductive Cause where
  | request (number : Nat)
  | ack (number : Nat)
  deriving DecidableEq, Repr

-- `broadcasts` and `completed` list the acks whose handler began, and finished,
-- telling the servers; `toServer` and `toClient` are what went into the channels.
structure Proxy where
  servers : Nat
  db : VoteDatabase
  connections : List Connection := []
  requests : List (Nat × ClientMessage) := []
  received : List Receipt := []
  broadcasts : List Nat := []
  completed : List Nat := []
  toServer : List (Nat × ClientMessage × Cause) := []
  toClient : List (Nat × ServerMessage) := []

namespace Proxy

-- `nodes.len() - fault_tolerance` underflows when more faults are tolerated than there are nodes.
def new (nodes faultTolerance : Nat) : Option Proxy :=
  if faultTolerance ≤ nodes then some {servers:=nodes,db:={quorum:=nodes-faultTolerance}} else none

theorem new_eq {p : Proxy} (created : new nodes faultTolerance = some p) :
    p = {servers:=nodes,db:={quorum:=nodes-faultTolerance}} := by
  unfold new at created
  split at created
  · exact (Option.some.inj created).symm
  · cases created

def tally (stored : Option Vote) (suspect : Speculation) : Vote :=
  match stored with
  | some (counter,leaderSpec) => (counter+1,if leaderSpec.isSome then leaderSpec else suspect)
  | none => (1,suspect)

def setHandler (p : Proxy) (conn : Nat) (handler : Handler) : Proxy :=
  {p with connections:=p.connections.modify conn fun c => {c with handler:=handler}}

def forwardRest (p : Proxy) (conn request : Nat) (m : ClientMessage) (remaining : List Nat) : Proxy :=
  p.setHandler conn (if remaining = [] then .selecting else .forwarding request m remaining)

def confirmRest (p : Proxy) (conn ack : Nat) (r : Receipt) (remaining : List Nat) : Proxy :=
  if remaining = [] then {p.setHandler conn (.responding ack r) with completed:=p.completed++[ack]}
  else p.setHandler conn (.confirming ack r remaining)

def takeRequest (p : Proxy) (conn : Nat) (m : ClientMessage) : Proxy :=
  {p.forwardRest conn p.requests.length m (List.range p.servers) with requests:=p.requests++[(conn,m)]}

-- A send to a server that is gone is logged and skipped.
def forward (p : Proxy) (conn request : Nat) (m : ClientMessage) (remaining : List Nat) (server : Nat) (ok : Bool) :
    Proxy :=
  {p.forwardRest conn request m (remaining.erase server) with
    toServer:=p.toServer++if ok then [(server,m,.request request)] else []}

def receive (p : Proxy) (conn : Nat) (source place : Nat) : ServerMessage → Proxy
  | .ack cmd hash suspect lastIdx =>
    let r := ⟨source,place,cmd,hash,suspect,lastIdx⟩
    {p.setHandler conn (.received p.received.length r) with received:=p.received++[r]}
  | .startSignal ts => {p with toClient:=p.toClient++[(conn,.startSignal ts)]}
  | _ => p

def get (p : Proxy) (conn ack : Nat) (r : Receipt) : Proxy :=
  let (stored,db) := p.db.handleCommand (.get r.hash)
  {p with db:=db}.setHandler conn (.read ack r (stored.getD none))

def put (p : Proxy) (conn ack : Nat) (r : Receipt) (stored : Option Vote) : Proxy :=
  let vote := tally stored r.suspect
  let p := {p with db:=(p.db.handleCommand (.put r.hash vote)).2}
  if p.db.quorum ≤ vote.1 ∧ vote.2.isSome then
    {p.confirmRest conn ack r (List.range p.servers) with broadcasts:=p.broadcasts++[ack]}
  else p.setHandler conn .selecting

-- A confirm that cannot be sent, or a response that cannot be written, ends the task.
def confirm (p : Proxy) (conn ack : Nat) (r : Receipt) (remaining : List Nat) (server : Nat) (ok : Bool) : Proxy :=
  if ok then
    {p with toServer:=p.toServer++[(server,ClientMessage.ack r.cmd r.lastIdx,Cause.ack ack)]}.confirmRest
      conn ack r (remaining.erase server)
  else p.setHandler conn .returned

def respond (p : Proxy) (conn ack : Nat) (r : Receipt) (ok : Bool) : Proxy :=
  if ok then
    {p.setHandler conn (.deleting ack r) with
      toClient:=p.toClient++[(conn,.ack r.cmd r.hash r.suspect r.lastIdx)]}
  else p.setHandler conn .returned

def delete (p : Proxy) (conn : Nat) (r : Receipt) : Proxy :=
  {p with db:=(p.db.handleCommand (.delete r.hash)).2}.setHandler conn .selecting

inductive Act where
  | connect (receiver : Nat)
  | request (conn : Nat) (m : ClientMessage)
  | forward (conn server : Nat) (ok : Bool)
  | disconnect (conn : Nat)
  | receive (conn place : Nat) (m : ServerMessage)
  | get (conn : Nat)
  | put (conn : Nat)
  | confirm (conn server : Nat) (ok : Bool)
  | respond (conn : Nat) (ok : Bool)
  | delete (conn : Nat)
  deriving DecidableEq

-- `ok` is whether a send found the other end alive. The accept loop hands the
-- channels of servers 1, 2, … to its connections in turn; any assignment, and
-- any number of connections, is allowed here.
def step (p : Proxy) : Act → Option Proxy
  | .connect receiver => some {p with connections:=p.connections++[⟨receiver,.selecting⟩]}
  | .request conn m => match p.connections[conn]? with
    | some ⟨_,.selecting⟩ => some (p.takeRequest conn m)
    | _ => none
  | .forward conn server ok => match p.connections[conn]? with
    | some ⟨_,.forwarding request m remaining⟩ =>
      if server ∈ remaining then some (p.forward conn request m remaining server ok) else none
    | _ => none
  | .disconnect conn => match p.connections[conn]? with
    | some ⟨_,.selecting⟩ => some (p.setHandler conn .returned)
    | _ => none
  | .receive conn place m => match p.connections[conn]? with
    | some ⟨source,.selecting⟩ => some (p.receive conn source place m)
    | _ => none
  | .get conn => match p.connections[conn]? with
    | some ⟨_,.received ack r⟩ => some (p.get conn ack r)
    | _ => none
  | .put conn => match p.connections[conn]? with
    | some ⟨_,.read ack r stored⟩ => some (p.put conn ack r stored)
    | _ => none
  | .confirm conn server ok => match p.connections[conn]? with
    | some ⟨_,.confirming ack r remaining⟩ =>
      if server ∈ remaining then some (p.confirm conn ack r remaining server ok) else none
    | _ => none
  | .respond conn ok => match p.connections[conn]? with
    | some ⟨_,.responding ack r⟩ => some (p.respond conn ack r ok)
    | _ => none
  | .delete conn => match p.connections[conn]? with
    | some ⟨_,.deleting _ r⟩ => some (p.delete conn r)
    | _ => none

-- The same steps as rules, one for each point where a task can be taken up.
inductive Step : Proxy → Act → Proxy → Prop where
  | connect : Step p (.connect receiver) {p with connections:=p.connections++[⟨receiver,.selecting⟩]}
  | request (found : p.connections[conn]? = some ⟨source,.selecting⟩) :
      Step p (.request conn m) (p.takeRequest conn m)
  | forward (found : p.connections[conn]? = some ⟨source,.forwarding request m remaining⟩)
      (pending : server ∈ remaining) :
      Step p (.forward conn server ok) (p.forward conn request m remaining server ok)
  | disconnect (found : p.connections[conn]? = some ⟨source,.selecting⟩) :
      Step p (.disconnect conn) (p.setHandler conn .returned)
  | receive (found : p.connections[conn]? = some ⟨source,.selecting⟩) :
      Step p (.receive conn place m) (p.receive conn source place m)
  | get {ack : Nat} (found : p.connections[conn]? = some ⟨source,.received ack r⟩) :
      Step p (.get conn) (p.get conn ack r)
  | put {ack : Nat} (found : p.connections[conn]? = some ⟨source,.read ack r stored⟩) :
      Step p (.put conn) (p.put conn ack r stored)
  | confirm {ack : Nat} (found : p.connections[conn]? = some ⟨source,.confirming ack r remaining⟩)
      (pending : server ∈ remaining) :
      Step p (.confirm conn server ok) (p.confirm conn ack r remaining server ok)
  | respond {ack : Nat} (found : p.connections[conn]? = some ⟨source,.responding ack r⟩) :
      Step p (.respond conn ok) (p.respond conn ack r ok)
  | delete {ack : Nat} (found : p.connections[conn]? = some ⟨source,.deleting ack r⟩) :
      Step p (.delete conn) (p.delete conn r)

theorem step_sound (ran : step p action = some next) : Step p action next := by
  cases action <;> simp only [step] at ran
  case connect => cases Option.some.inj ran; exact .connect
  all_goals
    split at ran
    · first
      | cases Option.some.inj ran
        first
        | exact .request ‹_› | exact .disconnect ‹_› | exact .receive ‹_› | exact .get ‹_›
        | exact .put ‹_› | exact .respond ‹_› | exact .delete ‹_›
      | split at ran
        · cases Option.some.inj ran
          first | exact .forward ‹_› ‹_› | exact .confirm ‹_› ‹_›
        · cases ran
    · cases ran

end Proxy
end OmniPaxosKV
