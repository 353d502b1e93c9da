import OmniPaxosKV.Machine
import OmniPaxosKV.Server

-- The client that produces the load: what it records of its requests, and when
-- its main loop ends.
namespace OmniPaxosKV

-- Records that a resize adds have these defaults.
structure RequestData where
  requestTime : Int := 0
  write : Bool := false
  responseTime : Option Int := none
  deriving DecidableEq, Repr

structure ClientData where
  requestData : List RequestData := []
  responseCount : Nat := 0

namespace ClientData

def newRequest (d : ClientData) (isWrite : Bool) (now : Int) : ClientData :=
  {d with requestData:=d.requestData++[{requestTime:=now,write:=isWrite}]}

-- A vector's `resize` cuts it off at the new length or fills it up.
def resize (data : List RequestData) (len : Nat) : List RequestData :=
  data.take len++List.replicate (len-data.length) ({} : RequestData)

def newResponse (d : ClientData) (commandId : CommandId) (now : Int) : ClientData where
  requestData := (resize d.requestData (commandId.toNat+1)).modify commandId.toNat fun r => {r with responseTime:=some now}
  responseCount := d.responseCount+1

def requestCount (d : ClientData) : Nat := d.requestData.length

end ClientData

-- The share of reads in an interval only enters a random choice.
structure RequestInterval where
  durationSec : Nat
  requestsPerSec : Nat
  deriving DecidableEq, Repr

def RequestInterval.getRequestDelay (i : RequestInterval) : Option Duration :=
  if i.requestsPerSec = 0 then some (Duration.fromMillis 999999000)
  else if 1000/i.requestsPerSec = 0 then none
  else some (Duration.fromMillis (1000/i.requestsPerSec))

-- Both timers of the interval can be made; a timer without a period panics.
def RequestInterval.starts (i : RequestInterval) : Bool := i.durationSec ≠ 0 && i.getRequestDelay.isSome

-- The number of the request a message answers; there is none in a start signal.
def ServerMessage.commandId : ServerMessage → Option CommandId
  | .write id => some id
  | .read id _ => some id
  | .ack command _ _ _ => some command.id
  | .startSignal _ => none

-- Waiting for the start signal, or in the main loop with the intervals to come.
inductive ClientLoop where
  | waiting
  | running (intervals : List RequestInterval)
  | finished
  | panicked
  deriving DecidableEq, Repr

-- `sent` has the time and kind of each request and `answered` the number of each
-- response, as they happened.
structure Client where
  requests : List RequestInterval
  activeServer : NodeId
  clientData : ClientData := {}
  finalRequestCount : Option Nat := none
  nextRequestId : CommandId := 0
  loop : ClientLoop := .waiting
  outgoing : List (NodeId × ClientMessage) := []
  sent : List (Int × Bool) := []
  answered : List Nat := []

namespace Client
open Machine

def handleServerMessage (s : Client) (m : ServerMessage) (now : Int) : Client :=
  match m.commandId with
  | none => s
  | some id => {s with clientData:=s.clientData.newResponse id now,answered:=s.answered++[id.toNat]}

def sendRequest (s : Client) (isWrite : Bool) (now : Int) : Client :=
  let key := toString s.nextRequestId.toNat
  let cmd : KVCommand := if isWrite then .put key key else .get key
  {s with
    outgoing:=s.outgoing++[(s.activeServer,.append s.nextRequestId cmd)]
    clientData:=s.clientData.newRequest isWrite now
    nextRequestId:=s.nextRequestId+1
    sent:=s.sent++[(now,isWrite)]}

def runFinished (s : Client) : Bool :=
  match s.finalRequestCount with
  | some count => decide (count ≤ s.clientData.requestCount)
  | none => false

def enter (s : Client) : List RequestInterval → Client
  | [] => {s with loop:=.finished}
  | first::rest => {s with loop:=if first.starts then .running rest else .panicked}

-- One branch of the loop's `select`; the timers may go off at any time.
inductive Act where
  | receive (m : ServerMessage) (now : Int)
  | request (isWrite : Bool) (now : Int)
  | nextInterval

def leaveIfFinished (s : Client) : Client := if s.runFinished then {s with loop:=.finished} else s

def step (s : Client) : Act → Option Client
  | .receive m now => match s.loop with
    | .waiting => match m with
      | .startSignal _ => some (s.enter s.requests)
      | _ => some {s with loop:=.panicked}
    | .running _ => some (s.handleServerMessage m now).leaveIfFinished
    | _ => none
  | .request isWrite now => match s.loop,s.finalRequestCount with
    | .running _,none => some (s.sendRequest isWrite now)
    | _,_ => none
  | .nextInterval => match s.loop with
    | .running (next::rest) => some (s.enter (next::rest))
    | .running [] => some {s with finalRequestCount:=some s.clientData.requestCount}.leaveIfFinished
    | _ => none

-- One record for each request sent, with what was recorded when it was sent, and a
-- response time exactly if it was answered.
structure Exact (s : Client) : Prop where
  records : s.clientData.requestData.map (fun r => (r.requestTime,r.write)) = s.sent
  responses : ∀ (i : Nat) r, s.clientData.requestData[i]? = some r → (r.responseTime.isSome = true ↔ i ∈ s.answered)
  count : s.clientData.requestCount = s.sent.length

def NamesSent (s : Client) : Act → Prop
  | .receive m _ => ∀ id ∈ m.commandId, id.toNat < s.sent.length
  | _ => True

def NamesLast (s : Client) : Act → Prop
  | .receive m _ => ∀ id ∈ m.commandId, id.toNat+1 = s.sent.length
  | _ => True

instance (s : Client) : (action : Act) → Decidable (NamesSent s action)
  | .receive m _ => Option.decidableForallMem m.commandId
  | .request _ _ => .isTrue trivial
  | .nextInterval => .isTrue trivial

instance (s : Client) : (action : Act) → Decidable (NamesLast s action)
  | .receive m _ => Option.decidableForallMem m.commandId
  | .request _ _ => .isTrue trivial
  | .nextInterval => .isTrue trivial

def AllAnswered (s : Client) : Prop := ∀ i < s.sent.length, i ∈ s.answered

-- No request is unanswered when the last interval ends.
def AnsweredInTime (s : Client) : Act → Prop
  | .nextInterval => s.loop = .running [] → s.AllAnswered
  | _ => True

instance (s : Client) : Decidable s.AllAnswered := inferInstanceAs (Decidable (∀ i < s.sent.length, i ∈ s.answered))

instance (s : Client) (action : Act) : Decidable (AnsweredInTime s action) := by
  cases action <;> unfold AnsweredInTime <;> infer_instance

-- Nothing is sent before the start, and there is no final count until the loop ends.
structure Started (s : Client) : Prop where
  waiting : s.loop = .waiting → s.sent = []
  count : s.loop ≠ .finished → s.finalRequestCount = none

def Named (s : Client) : Prop := ∀ i ∈ s.answered, i < s.sent.length

section Bookkeeping

theorem length_resize (data : List RequestData) (len : Nat) : (ClientData.resize data len).length = len := by
  simp only [ClientData.resize,List.length_append,List.length_take,List.length_replicate]
  omega

theorem requestCount_newResponse (d : ClientData) (id : CommandId) (now : Int) :
    (d.newResponse id now).requestCount = id.toNat+1 := by
  simp only [ClientData.newResponse,ClientData.requestCount,List.length_modify,length_resize]

theorem resize_length (data : List RequestData) : ClientData.resize data data.length = data := by
  simp [ClientData.resize]

theorem exact_new (requests : List RequestInterval) (activeServer : NodeId) :
    Exact {requests:=requests,activeServer:=activeServer} := by
  refine ⟨rfl,?_,rfl⟩
  intro i r found
  simp at found

theorem exact_keep {s next : Client} (exact : Exact s) (data : next.clientData = s.clientData) (sent : next.sent = s.sent)
    (answered : next.answered = s.answered) : Exact next := by
  obtain ⟨records,responses,count⟩ := exact
  rw [←data,←sent] at records count
  rw [←data,←answered] at responses
  exact ⟨records,responses,count⟩

theorem exact_request {s : Client} (exact : Exact s) (named : Named s) (isWrite : Bool) (now : Int) :
    Exact (s.sendRequest isWrite now) := by
  have length : s.clientData.requestData.length = s.sent.length := exact.count
  refine ⟨?_,?_,?_⟩
  · simp [sendRequest,ClientData.newRequest,exact.records]
  · intro i r found
    rcases getElem?_concat_cases found with old | ⟨rfl,rfl⟩
    · exact exact.responses i r old
    · refine ⟨fun set => by simp at set,fun member => ?_⟩
      have known := named _ member
      omega
  · simp [sendRequest,ClientData.newRequest,ClientData.requestCount,length]

-- A response keeps the records only if there is none to cut off.
theorem exact_response_iff {s : Client} (exact : Exact s) (id : CommandId) (now : Int)
    (next : Client) (data : next.clientData = s.clientData.newResponse id now) (sent : next.sent = s.sent)
    (answered : next.answered = s.answered++[id.toNat]) : Exact next ↔ id.toNat+1 = s.sent.length := by
  constructor
  · intro still
    have count := still.count
    rw [data,requestCount_newResponse,sent] at count
    exact count
  · intro last
    have whole : id.toNat+1 = s.clientData.requestData.length := last.trans exact.count.symm
    have records : next.clientData.requestData =
        s.clientData.requestData.modify id.toNat fun r => {r with responseTime:=some now} := by
      rw [data,ClientData.newResponse,whole,resize_length]
    refine ⟨?_,?_,?_⟩
    · rw [records,sent,←exact.records]
      refine List.ext_getElem? fun k => ?_
      simp only [List.getElem?_map,List.getElem?_modify]
      cases s.clientData.requestData[k]? with
      | none => rfl
      | some r => by_cases here : id.toNat = k <;> simp [here]
    · intro i r found
      rw [records,List.getElem?_modify] at found
      rw [answered,List.mem_append,List.mem_singleton]
      obtain ⟨old,there,rfl⟩ := Option.map_eq_some_iff.mp found
      by_cases here : id.toNat = i
      · simp [here]
      · rw [if_neg here]
        rw [exact.responses i old there]
        exact ⟨.inl,fun either => either.resolve_right (Ne.symm here)⟩
    · rw [data,requestCount_newResponse,last,sent]

theorem leaveIfFinished_fields (s : Client) : s.leaveIfFinished.clientData = s.clientData ∧ s.leaveIfFinished.sent = s.sent ∧
    s.leaveIfFinished.answered = s.answered := by
  unfold leaveIfFinished
  split <;> exact ⟨rfl,rfl,rfl⟩

theorem enter_fields (s : Client) (intervals : List RequestInterval) : (s.enter intervals).clientData = s.clientData ∧
    (s.enter intervals).sent = s.sent ∧ (s.enter intervals).answered = s.answered := by
  cases intervals <;> exact ⟨rfl,rfl,rfl⟩

end Bookkeeping

-- The things one step can be, with the guards.
inductive Steps : Client → Act → Client → Prop where
  | start (waits : s.loop = .waiting) : Steps s (.receive (.startSignal time) now) (s.enter s.requests)
  | refuse (waits : s.loop = .waiting) (other : m.commandId = some commandId) : Steps s (.receive m now) {s with loop:=.panicked}
  | ignore (runs : s.loop = .running intervals) (other : m.commandId = none) : Steps s (.receive m now) s.leaveIfFinished
  | respond (runs : s.loop = .running intervals) (answers : m.commandId = some commandId) :
      Steps s (.receive m now) {s with clientData:=s.clientData.newResponse commandId now,
                                       answered:=s.answered++[commandId.toNat]}.leaveIfFinished
  | request (runs : s.loop = .running intervals) : Steps s (.request isWrite now) (s.sendRequest isWrite now)
  | next (runs : s.loop = .running (interval::rest)) : Steps s .nextInterval (s.enter (interval::rest))
  | last (runs : s.loop = .running []) : Steps s .nextInterval
      {s with finalRequestCount:=some s.clientData.requestCount}.leaveIfFinished

theorem step_sound {s next : Client} (ran : s.step action = some next) : Steps s action next := by
  cases action with
  | receive m now =>
    simp only [step] at ran
    split at ran
    · rename_i waits
      cases m with
      | startSignal time =>
        cases Option.some.inj ran
        exact .start waits
      | write | read | ack =>
        cases Option.some.inj ran
        exact .refuse waits rfl
    · rename_i runs
      cases Option.some.inj ran
      cases answers : m.commandId with
      | none =>
        simp only [handleServerMessage,answers]
        exact .ignore runs answers
      | some id =>
        simp only [handleServerMessage,answers]
        exact .respond runs answers
    · cases ran
  | request isWrite now =>
    simp only [step] at ran
    split at ran
    · cases Option.some.inj ran
      exact .request ‹_›
    · cases ran
  | nextInterval =>
    simp only [step] at ran
    split at ran
    · cases Option.some.inj ran
      exact .next ‹_›
    · cases Option.some.inj ran
      exact .last ‹_›
    · cases ran

section Runs

theorem step_exact_iff {s next : Client} (started : Started s) (named : Named s) (exact : Exact s) (known : NamesSent s action)
    (ran : Steps s action next) : Exact next ↔ NamesLast s action := by
  cases ran with
  | start waits =>
    obtain ⟨data,sent,answered⟩ := enter_fields s s.requests
    exact iff_of_true (exact_keep exact data sent answered) (fun id member => by cases member)
  | refuse waits other =>
    have impossible := known _ other
    rw [started.waiting waits] at impossible
    cases impossible
  | ignore runs other =>
    obtain ⟨data,sent,answered⟩ := leaveIfFinished_fields s
    refine iff_of_true (exact_keep exact data sent answered) fun id member => ?_
    rw [other] at member
    cases member
  | respond runs answers =>
    rename_i id m now intervals
    obtain ⟨data,sent,answered⟩ := leaveIfFinished_fields
      {s with clientData:=s.clientData.newResponse id now,answered:=s.answered++[id.toNat]}
    rw [exact_response_iff exact id now _ data sent answered]
    simp only [NamesLast,answers,Option.mem_def,Option.some.injEq,forall_eq']
  | request runs => exact iff_of_true (exact_request exact named _ _) trivial
  | next runs =>
    obtain ⟨data,sent,answered⟩ := enter_fields s _
    exact iff_of_true (exact_keep exact data sent answered) trivial
  | last runs =>
    obtain ⟨data,sent,answered⟩ := leaveIfFinished_fields {s with finalRequestCount:=some s.clientData.requestCount}
    exact iff_of_true (exact_keep exact data sent answered) trivial

theorem started_enter {s : Client} (intervals : List RequestInterval) (fresh : s.finalRequestCount = none) :
    Started (s.enter intervals) := by
  cases intervals with
  | nil => exact ⟨nofun,fun running => absurd rfl running⟩
  | cons first rest =>
    refine ⟨?_,fun _ => fresh⟩
    simp only [enter]
    split <;> nofun

-- While the loop runs there is no final count, so a response does not end it.
theorem Started.stays {s : Client} (started : Started s) (runs : s.loop = .running intervals) (data : ClientData)
    (answered : List Nat) : leaveIfFinished {s with clientData:=data,answered:=answered} =
      {s with clientData:=data,answered:=answered} := by
  unfold leaveIfFinished runFinished
  simp only [started.count (by rw [runs]; nofun)]
  rfl

-- The final count is the count, so the end of the last interval ends the loop.
theorem last_finishes (s : Client) : leaveIfFinished {s with finalRequestCount:=some s.clientData.requestCount} =
    {s with finalRequestCount:=some s.clientData.requestCount,loop:=.finished} := by
  unfold leaveIfFinished runFinished
  simp

theorem step_started {s next : Client} (started : Started s) (ran : Steps s action next) : Started next := by
  cases ran with
  | start waits => exact started_enter _ (started.count (by rw [waits]; nofun))
  | refuse waits other => exact ⟨nofun,fun _ => started.count (by rw [waits]; nofun)⟩
  | ignore runs other =>
    rw [started.stays runs s.clientData s.answered]
    exact started
  | respond runs answers =>
    rw [started.stays runs]
    exact ⟨started.waiting,started.count⟩
  | request runs =>
    refine ⟨fun waits => ?_,started.count⟩
    cases runs.symm.trans waits
  | next runs => exact started_enter _ (started.count (by rw [runs]; nofun))
  | last runs =>
    rw [last_finishes]
    exact ⟨nofun,fun running => absurd rfl running⟩

theorem step_named {s next : Client} (named : Named s) (known : NamesSent s action) (ran : Steps s action next) :
    Named next := by
  cases ran with
  | start waits =>
    obtain ⟨_,sent,answered⟩ := enter_fields s s.requests
    unfold Named
    rwa [sent,answered]
  | refuse waits other => exact named
  | ignore runs other =>
    obtain ⟨_,sent,answered⟩ := leaveIfFinished_fields s
    unfold Named
    rwa [sent,answered]
  | respond runs answers =>
    rename_i id m now intervals
    obtain ⟨_,sent,answered⟩ := leaveIfFinished_fields
      {s with clientData:=s.clientData.newResponse id now,answered:=s.answered++[id.toNat]}
    intro i member
    rw [answered] at member
    rw [sent]
    rcases List.mem_append.mp member with old | new
    · exact named i old
    · cases List.mem_singleton.mp new
      exact known id answers
  | request runs =>
    intro i member
    have bound := named i member
    simp only [sendRequest,List.length_append,List.length_singleton]
    exact Nat.lt_succ_of_lt bound
  | next runs => exact named
  | last runs =>
    rw [last_finishes]
    exact named

theorem step_answered_iff {s next : Client} (started : Started s) (ran : Steps s action next) :
    (next.loop = .finished → next.AllAnswered) ↔ AnsweredInTime s action := by
  cases ran with
  | start waits =>
    obtain ⟨_,sent,_⟩ := enter_fields s s.requests
    refine iff_of_true (fun _ i bound => ?_) trivial
    rw [sent,started.waiting waits] at bound
    cases bound
  | refuse waits other => exact iff_of_true nofun trivial
  | ignore runs other =>
    rw [started.stays runs s.clientData s.answered]
    exact iff_of_true (fun ended => by cases runs.symm.trans ended) trivial
  | respond runs answers =>
    rw [started.stays runs]
    exact iff_of_true (fun ended => by cases runs.symm.trans ended) trivial
  | request runs => exact iff_of_true (fun ended => by cases runs.symm.trans ended) trivial
  | next runs =>
    refine iff_of_true ?_ ?_
    · simp only [enter]
      split <;> nofun
    · simp [AnsweredInTime,runs]
  | last runs =>
    rw [last_finishes]
    simp only [AnsweredInTime,runs,forall_const]
    rfl

theorem finished_stops {s next : Client} (ended : s.loop = .finished) : ¬ Steps s action next := by
  intro ran
  cases ran with
  | _ running => cases ended.symm.trans running

theorem started_new (requests : List RequestInterval) (activeServer : NodeId) :
    Started {requests:=requests,activeServer:=activeServer} :=
  ⟨fun _ => rfl,fun _ => rfl⟩

end Runs

-- In every run with responses to sent requests, the records are right in every
-- state exactly if each response is to the last request sent until then.
theorem bookkeeping_iff (requests : List RequestInterval) (activeServer : NodeId) (actions : List Act) (s : Client)
    (path : Runs step NamesSent {requests:=requests,activeServer:=activeServer} actions s) :
    (∀ state ∈ visited step {requests:=requests,activeServer:=activeServer} actions, Exact state) ↔
    Runs step NamesLast {requests:=requests,activeServer:=activeServer} actions s := by
  refine visited_iff Exact (fun s => Started s ∧ Named s) ?_ ?_ path ⟨started_new ..,nofun⟩ (exact_new ..)
  · rintro s action next ⟨started,named⟩ known ran
    exact ⟨step_started started (step_sound ran),step_named named known (step_sound ran)⟩
  · rintro s action next ⟨started,named⟩ exact known ran
    exact step_exact_iff started named exact known (step_sound ran)

def oneInterval : Client := {requests:=[⟨1,10⟩],activeServer:=2}

-- Each request is answered before the next one is sent.
def oneByOne : List Act :=
  [.receive (.startSignal 0) 0,.request true 1,.receive (.write 0) 3,.request false 5,.receive (.read 1 none) 8]

theorem bookkeeping_one_by_one : ∃ s, Runs step NamesSent oneInterval oneByOne s ∧
    (∀ state ∈ visited step oneInterval oneByOne, Exact state) ∧ s.clientData.requestData = [⟨1,true,some 3⟩,⟨5,false,some 8⟩] := by
  obtain ⟨s,path,records⟩ := run_reaches step (fun s action => NamesSent s action ∧ NamesLast s action)
    (fun s => s.clientData.requestData = [⟨1,true,some 3⟩,⟨5,false,some 8⟩]) oneInterval oneByOne (by decide +kernel)
  have known := path.weaken fun _ _ both => both.1
  exact ⟨s,known,(bookkeeping_iff _ _ _ _ known).mpr (path.weaken fun _ _ both => both.2),records⟩

-- The first request is answered when the second has been sent, and the record of
-- the second is gone.
def answeredLate : List Act :=
  [.receive (.startSignal 0) 0,.request true 1,.request false 5,.receive (.write 0) 8]

theorem record_lost : ¬ ∀ (requests : List RequestInterval) (activeServer : NodeId) (actions : List Act) (s : Client),
    Runs step NamesSent {requests:=requests,activeServer:=activeServer} actions s →
    ∀ state ∈ visited step {requests:=requests,activeServer:=activeServer} actions, Exact state := by
  intro claimed
  obtain ⟨s,path,short⟩ := run_reaches step NamesSent (fun s => s.clientData.requestCount ≠ s.sent.length) oneInterval
    answeredLate (by decide +kernel)
  exact short (claimed _ _ _ s path s path.visited_final).count

-- The loop ends with all requests answered exactly if they are when the last
-- interval ends: it ends there, and waits for nothing.
theorem finished_answered_iff (requests : List RequestInterval) (activeServer : NodeId) (actions : List Act) (s : Client)
    (path : Reaches step {requests:=requests,activeServer:=activeServer} actions s) :
    (s.loop = .finished → s.AllAnswered) ↔
    Runs step AnsweredInTime {requests:=requests,activeServer:=activeServer} actions s := by
  refine safe_iff (fun s => s.loop = .finished → s.AllAnswered) Started
    (fun _ _ _ started ran => step_started started (step_sound ran))
    (fun _ _ _ started ran => step_answered_iff started (step_sound ran))
    (fun _ _ _ ran ended => absurd (step_sound ran) (finished_stops ended)) path (started_new ..) nofun

-- The last answer comes before the interval ends.
theorem finished_answered_in_time : ∃ s, Runs step AnsweredInTime oneInterval (oneByOne++[.nextInterval]) s ∧
    s.loop = .finished ∧ s.AllAnswered := by
  obtain ⟨s,path,ended⟩ := run_reaches step AnsweredInTime (fun s => s.loop = .finished) oneInterval
    (oneByOne++[.nextInterval]) (by decide +kernel)
  have reached : Reaches step oneInterval (oneByOne++[.nextInterval]) s := path.weaken fun _ _ _ => trivial
  exact ⟨s,path,ended,(finished_answered_iff _ _ _ _ reached).mpr path ended⟩

-- The interval ends before the only request is answered.
def unanswered : List Act := [.receive (.startSignal 0) 0,.request true 1,.nextInterval]

theorem finished_unanswered : ¬ ∀ (requests : List RequestInterval) (activeServer : NodeId) (actions : List Act) (s : Client),
    Reaches step {requests:=requests,activeServer:=activeServer} actions s → s.loop = .finished → s.AllAnswered := by
  intro claimed
  obtain ⟨s,path,ended,pending⟩ := run_reaches step (fun _ _ => True) (fun s => s.loop = .finished ∧ ¬ s.AllAnswered)
    oneInterval unanswered (by decide +kernel)
  exact pending (claimed _ _ _ s path ended)

end Client
end OmniPaxosKV
