import OmniPaxosKV.Votes

-- The proxy's accept loop: which servers' channels the connections are given, and
-- which are left unread.
namespace OmniPaxosKV

-- Beside the connections: how many clients were accepted, and the channels that are
-- still to be given out, with the server that each comes from.
structure Acceptor where
  proxy : Proxy
  counter : Nat := 0
  serverReceivers : KeyMap Nat Nat
  panicked : Bool := false

namespace Acceptor
open Machine

-- One channel for each node, under its position in the list.
def receiversFor (nodes : Nat) : KeyMap Nat Nat := (List.range nodes).foldl (fun map i => map.insert i i) .empty

def new (nodes faultTolerance : Nat) : Option Acceptor :=
  (Proxy.new nodes faultTolerance).map fun proxy => {proxy:=proxy,serverReceivers:=receiversFor nodes}

-- A client is counted before its channel is looked up, and the lookup is unwrapped.
def accept (s : Acceptor) : Acceptor :=
  let counter := s.counter+1
  match s.serverReceivers counter with
  | none => {s with counter:=counter,panicked:=true}
  | some receiver => {s with
      counter:=counter
      serverReceivers:=s.serverReceivers.remove counter
      proxy:={s.proxy with connections:=s.proxy.connections++[⟨receiver,.selecting⟩]}}

inductive Act where
  | accept
  | proxy (action : Proxy.Act)

-- Only the loop makes connections, and its panic ends the process.
def step (s : Acceptor) (action : Act) : Option Acceptor :=
  if s.panicked then none else
  match action with
  | .accept => some s.accept
  | .proxy (.connect _) => none
  | .proxy action => (s.proxy.step action).map fun proxy => {s with proxy:=proxy}

def accepted (actions : List Act) : Nat := actions.countP (· matches .accept)

-- The loop is alive, and each server's channel has a task that reads it.
def EveryServerRead (nodes : Nat) (s : Acceptor) : Prop :=
  s.panicked = false ∧ ∀ server < nodes, ∃ c ∈ s.proxy.connections, c.receiver = server ∧ c.handler ≠ .returned

-- The servers whose channels were given out, in the order of the connections.
def readers (p : Proxy) : List Nat := p.connections.map Connection.receiver

section Connections
variable {p next : Proxy}

theorem readers_setHandler (p : Proxy) (conn : Nat) (handler : Handler) : readers (p.setHandler conn handler) = readers p := by
  refine List.ext_getElem? fun i => ?_
  unfold readers
  rw [List.getElem?_map,List.getElem?_map,Votes.getElem?_setHandler]
  cases p.connections[i]? with
  | none => rfl
  | some c => by_cases here : conn = i <;> simp [here]

theorem readers_step (ran : Proxy.Step p action next) (kept : ∀ receiver, action ≠ .connect receiver) :
    readers next = readers p := by
  cases ran with
  | connect => exact absurd rfl (kept _)
  | receive found =>
    rename_i m place
    cases m with
    | ack => exact readers_setHandler ..
    | startSignal | write | read => rfl
  | put found =>
    unfold readers
    rw [(Votes.put_parts ..).1]
    exact readers_setHandler ..
  | confirm found pending =>
    unfold Proxy.confirm readers
    split
    · rw [(Votes.confirmRest_parts ..).1]
      exact readers_setHandler ..
    · exact readers_setHandler ..
  | respond found =>
    unfold Proxy.respond
    split <;> exact readers_setHandler ..
  | request | forward | disconnect | get | delete => exact readers_setHandler ..

-- An ack is taken from a channel that a connection was given.
theorem received_step (ran : Proxy.Step p action next) (member : r ∈ next.received) :
    r ∈ p.received ∨ r.source ∈ readers p := by
  cases ran with
  | receive found =>
    rename_i m place
    cases m with
    | ack cmd hash suspect lastIdx =>
      rcases List.mem_append.mp member with old | new
      · exact .inl old
      · cases List.mem_singleton.mp new
        exact .inr (List.mem_map_of_mem (List.mem_of_getElem? found))
    | startSignal | write | read => exact .inl member
  | put found =>
    rw [(Votes.put_parts ..).2.1] at member
    exact .inl member
  | confirm found pending =>
    unfold Proxy.confirm at member
    split at member
    · rw [(Votes.confirmRest_parts ..).2.1] at member
      exact .inl member
    · exact .inl member
  | respond found =>
    unfold Proxy.respond at member
    split at member <;> exact .inl member
  | connect | request | forward | disconnect | get | delete => exact .inl member

end Connections

theorem receiversFor_apply (nodes key : Nat) : receiversFor nodes key = if key < nodes then some key else none := by
  induction nodes with
  | zero => rfl
  | succ nodes ih =>
    unfold receiversFor at ih ⊢
    rw [List.range_succ,List.foldl_append,List.foldl_cons,List.foldl_nil,KeyMap.insert_apply,ih]
    by_cases last : key = nodes
    · rw [if_pos last,if_pos (by omega),last]
    · rw [if_neg last]
      exact if_congr (by omega) rfl rfl

-- The channels of servers 1, 2 and so on are gone, that of server 0 stays.
structure Dealt (nodes : Nat) (s : Acceptor) : Prop where
  left : ∀ key, s.serverReceivers key = if key < nodes ∧ (key = 0 ∨ s.counter < key) then some key else none
  bound : s.counter ≤ nodes
  panicked : s.panicked = true ↔ s.counter = nodes
  dealt : readers s.proxy = List.range' 1 (min s.counter (nodes-1))
  read : ∀ r ∈ s.proxy.received, r.source ≠ 0

theorem dealt_new {start : Acceptor} (atLeastOne : 1 ≤ nodes) (created : new nodes faultTolerance = some start) :
    Dealt nodes start := by
  unfold new at created
  obtain ⟨proxy,made,rfl⟩ := Option.map_eq_some_iff.mp created
  rw [Proxy.new_eq made]
  refine ⟨?_,Nat.zero_le _,?_,?_,?_⟩
  · intro key
    change receiversFor nodes key = if key < nodes ∧ (key = 0 ∨ 0 < key) then some key else none
    rw [receiversFor_apply]
    exact if_congr (by omega) rfl rfl
  · exact iff_of_false nofun (by simp only; omega)
  · simp [readers]
  · intro r member
    cases member

theorem accept_some {s : Acceptor} (found : s.serverReceivers (s.counter+1) = some receiver) : s.accept =
    {s with
      counter:=s.counter+1
      serverReceivers:=s.serverReceivers.remove (s.counter+1)
      proxy:={s.proxy with connections:=s.proxy.connections++[⟨receiver,.selecting⟩]}} := by
  simp only [accept,found]

theorem accept_none {s : Acceptor} (absent : s.serverReceivers (s.counter+1) = none) : s.accept =
    {s with counter:=s.counter+1,panicked:=true} := by
  simp only [accept,absent]

-- The next channel is there until the servers are used up.
theorem dealt_accept {s : Acceptor} (dealt : Dealt nodes s) (alive : s.panicked = false) : Dealt nodes s.accept := by
  have counted : s.counter ≠ nodes := fun last => by
    rw [dealt.panicked.mpr last] at alive
    cases alive
  have bound := dealt.bound
  have next := dealt.left (s.counter+1)
  have given := dealt.dealt
  by_cases inside : s.counter+1 < nodes
  · rw [if_pos ⟨inside,.inr (Nat.lt_succ_self _)⟩] at next
    rw [accept_some next]
    refine ⟨?_,Nat.le_of_lt inside,?_,?_,dealt.read⟩
    · intro key
      simp only [KeyMap.remove_apply,dealt.left key]
      by_cases here : key = s.counter+1
      · rw [if_pos here,if_neg (by omega)]
      · rw [if_neg here]
        exact if_congr (by omega) rfl rfl
    · simp only [alive]
      exact iff_of_false Bool.false_ne_true (by omega)
    · have grown : readers {s.proxy with connections:=s.proxy.connections++[⟨s.counter+1,.selecting⟩]} =
          readers s.proxy++[s.counter+1] := by
        simp [readers]
      rw [grown,given,Nat.min_eq_left (by omega),Nat.min_eq_left (by simp only; omega),List.range'_concat]
      simp [Nat.add_comm]
  · rw [if_neg (by omega)] at next
    rw [accept_none next]
    refine ⟨?_,by simp only; omega,iff_of_true rfl (by simp only; omega),?_,dealt.read⟩
    · intro key
      simp only [dealt.left key]
      exact if_congr (by omega) rfl rfl
    · change readers s.proxy = List.range' 1 (min (s.counter+1) (nodes-1))
      rw [given,Nat.min_eq_left (by omega),Nat.min_eq_right (by omega)]
      congr 1
      omega

theorem dealt_proxy {s : Acceptor} {after : Proxy} (dealt : Dealt nodes s) (ran : Proxy.Step s.proxy action after)
    (kept : ∀ receiver, action ≠ .connect receiver) : Dealt nodes {s with proxy:=after} := by
  refine ⟨dealt.left,dealt.bound,dealt.panicked,(readers_step ran kept).trans dealt.dealt,?_⟩
  intro r member
  rcases received_step ran member with old | given
  · exact dealt.read r old
  · rw [dealt.dealt] at given
    have positive := (List.mem_range'_1.mp given).1
    omega

theorem dealt_step {s next : Acceptor} (dealt : Dealt nodes s) (ran : s.step action = some next) :
    Dealt nodes next ∧ next.counter = s.counter+accepted [action] := by
  unfold step at ran
  split at ran
  · cases ran
  · rename_i alive
    cases action with
    | accept =>
      cases Option.some.inj ran
      refine ⟨dealt_accept dealt (Bool.eq_false_iff.mpr alive),?_⟩
      unfold accept
      dsimp only
      split <;> rfl
    | proxy inner =>
      have others : ∀ receiver, inner ≠ .connect receiver := by
        rintro receiver rfl
        cases ran
      have moved : (s.proxy.step inner).map (fun proxy => {s with proxy:=proxy}) = some next := by
        cases inner <;> first | exact ran | cases ran
      obtain ⟨proxy,stepped,rfl⟩ := Option.map_eq_some_iff.mp moved
      exact ⟨dealt_proxy dealt (Proxy.step_sound stepped) others,rfl⟩

theorem dealt_runs {start s : Acceptor} (atLeastOne : 1 ≤ nodes) (created : new nodes faultTolerance = some start)
    (path : Reaches step start actions s) : Dealt nodes s ∧ s.counter = accepted actions := by
  refine path.recorded (fun actions s => Dealt nodes s ∧ s.counter = accepted actions) ?_ ⟨dealt_new atLeastOne created,?_⟩
  · rintro actions s action next _ ⟨dealt,counted⟩ ran
    obtain ⟨still,more⟩ := dealt_step dealt ran
    refine ⟨still,?_⟩
    rw [more,counted,accepted,accepted,accepted,List.countP_append]
  · unfold new at created
    obtain ⟨proxy,_,rfl⟩ := Option.map_eq_some_iff.mp created
    rfl

-- However many clients are accepted, in whatever order with the rest: the n-th one
-- ends the proxy, the ones before it are given the channels from the second server
-- on, and nothing of the first server is ever read.
theorem every_server_read_never (nodes faultTolerance : Nat) (atLeastOne : 1 ≤ nodes) (start : Acceptor)
    (created : new nodes faultTolerance = some start) (actions : List Act) (s : Acceptor)
    (path : Reaches step start actions s) :
    ¬ EveryServerRead nodes s ∧ (s.panicked = true ↔ accepted actions = nodes) ∧
    readers s.proxy = List.range' 1 (min (accepted actions) (nodes-1)) ∧ ∀ r ∈ s.proxy.received, r.source ≠ 0 := by
  obtain ⟨dealt,counted⟩ := dealt_runs atLeastOne created path
  refine ⟨?_,counted ▸ dealt.panicked,counted ▸ dealt.dealt,dealt.read⟩
  rintro ⟨_,all⟩
  obtain ⟨c,member,first,_⟩ := all 0 atLeastOne
  have given : c.receiver ∈ readers s.proxy := List.mem_map_of_mem member
  rw [dealt.dealt,first] at given
  have positive := (List.mem_range'_1.mp given).1
  omega

def threeNodes : Acceptor := {proxy:={servers:=3,db:={quorum:=2}},serverReceivers:=receiversFor 3}

-- Two clients, and an ack of the second server to the first of them.
def twoClients : List Act :=
  [.accept,.proxy (.receive 0 0 (.ack ⟨1,1,0,0,0,.get "x"⟩ 0 none 1)),.accept]

theorem every_server_read_two : ∃ s, Reaches step threeNodes twoClients s ∧ s.proxy.received.length = 1 ∧
    ¬ EveryServerRead 3 s ∧ readers s.proxy = [1,2] := by
  obtain ⟨s,path,taken⟩ := run_reaches step (fun _ _ => True) (fun s => s.proxy.received.length = 1) threeNodes twoClients
    (by decide +kernel)
  obtain ⟨unread,_,given,_⟩ := every_server_read_never 3 1 (by decide) threeNodes rfl _ _ path
  exact ⟨s,path,taken,unread,given⟩

theorem accept_panics : ¬ ∀ (nodes faultTolerance : Nat) (start : Acceptor) (actions : List Act) (s : Acceptor), 1 ≤ nodes →
    new nodes faultTolerance = some start → Reaches step start actions s → 1 ≤ accepted actions → EveryServerRead nodes s := by
  intro claimed
  obtain ⟨s,path,stopped⟩ := run_reaches step (fun _ _ => True) (fun s => s.panicked = true) threeNodes
    [.accept,.accept,.accept] (by decide +kernel)
  have alive := (claimed 3 1 threeNodes _ s (by decide) rfl path (by decide)).1
  rw [stopped] at alive
  cases alive

end Acceptor
end OmniPaxosKV
