import OmniPaxosKV.Proxy
import Mathlib.Data.Fintype.Basic

namespace OmniPaxosKV

-- Servers, proxy and the network between them. Messages stay where they were
-- sent from; `taken`, `delivered` and `exchanged` say which have arrived, so
-- that each arrives at most once, after any delay and in any order. `arrivals`
-- lists, for each server, the client requests it was given, by their numbers.
structure Cluster (n : Nat) where
  servers : Fin n → Server
  proxy : Proxy
  taken : List (Nat × Nat) := []
  delivered : List Nat := []
  exchanged : List (Nat × Nat) := []
  arrivals : Fin n → List Nat := fun _ => []

namespace Cluster
variable {n : Nat}

def new (configs : Fin n → ServerConfig) (times : Fin n → SystemTime) (faultTolerance : Nat) : Option (Cluster n) :=
  (Proxy.new n faultTolerance).map fun proxy => {servers:=fun i => .new (configs i) (times i),proxy:=proxy}

theorem new_eq {configs : Fin n → ServerConfig} (created : new configs times faultTolerance = some c) :
    c = {servers:=fun i => .new (configs i) (times i),proxy:={servers:=n,db:={quorum:=n-faultTolerance}}} := by
  obtain ⟨proxy,made,rfl⟩ := Option.map_eq_some_iff.mp created
  rw [Proxy.new_eq made]

inductive Act (n : Nat) where
  | proxy (action : Proxy.Act)
  | take (conn place : Nat)
  | deliver (place : Nat)
  | exchange (source : Fin n) (place : Nat) (target : Fin n)
  | server (i : Fin n) (action : Server.Act)

-- What the proxy does by itself; clients send nothing but appends.
def proxyInternal : Proxy.Act → Bool
  | .receive .. => false
  | .request _ (.ack ..) => false
  | _ => true

-- What a server does by itself.
def serverInternal : Server.Act → Bool
  | .client .. => false
  | .cluster .. => false
  | _ => true

def updateServer (c : Cluster n) (i : Fin n) (s : Server) : Cluster n :=
  {c with servers:=Function.update c.servers i s}

def arrive (c : Cluster n) (i : Fin n) : Cause → Cluster n
  | .request number => {c with arrivals:=Function.update c.arrivals i (c.arrivals i++[number])}
  | .ack _ => c

variable (hasher : List UInt8 → UInt64)

-- The proxy is client 1 of every server.
def step (c : Cluster n) : Act n → Option (Cluster n)
  | .proxy action =>
    if proxyInternal action then (c.proxy.step action).map fun proxy => {c with proxy:=proxy} else none
  | .take conn place => match c.proxy.connections[conn]? with
    | none => none
    | some connection =>
      if bound : connection.receiver < n then
        match (c.servers ⟨connection.receiver,bound⟩).toClient[place]? with
        | some (1,m) =>
          if (connection.receiver,place) ∈ c.taken then none
          else (c.proxy.step (.receive conn place m)).map fun proxy =>
            {c with proxy:=proxy,taken:=c.taken++[(connection.receiver,place)]}
        | _ => none
      else none
  | .deliver place => match c.proxy.toServer[place]? with
    | none => none
    | some (target,m,cause) =>
      if bound : target < n then
        if place ∈ c.delivered then none
        else ((c.servers ⟨target,bound⟩).step hasher (.client 1 m)).map fun s =>
          {(c.updateServer ⟨target,bound⟩ s).arrive ⟨target,bound⟩ cause with delivered:=c.delivered++[place]}
      else none
  | .exchange source place target => match (c.servers source).toCluster[place]? with
    | none => none
    | some (pid,m) =>
      if (c.servers target).id = pid ∧ (source.val,place) ∉ c.exchanged then
        ((c.servers target).step hasher (.cluster m)).map fun s =>
          {c.updateServer target s with exchanged:=c.exchanged++[(source.val,place)]}
      else none
  | .server i action =>
    if serverInternal action then ((c.servers i).step hasher action).map (c.updateServer i) else none

end Cluster
end OmniPaxosKV
