import OmniPaxosKV.Timekeeping

-- A follower's syncs with the master: the tasks on both sides, the messages
-- between them and the channel that hands the answers to the syncs.
namespace OmniPaxosKV

-- A sync task at its next await. `t0` is what the system clock said when it began.
inductive Sync where
  | spawned
  | stamped (t0 : SystemTime)
  | requested (t0 : SystemTime)
  | listening (t0 : SystemTime)
  | corrected (realTime : SystemTime)
  | finished
  deriving DecidableEq, Repr

-- An answer, with the moment at which the master read its clock for it.
structure Reading where
  time : SystemTime
  moment : SystemTime
  deriving DecidableEq, Repr

-- A sync that took its answer: when it began, the answer, and when it had it.
structure Exchange where
  t0 : SystemTime
  leaderTime : Reading
  t1 : SystemTime
  deriving DecidableEq, Repr

def Exchange.corrected (x : Exchange) : SystemTime := x.leaderTime.time+(x.t1-x.t0)/2

-- `requests` are on their way to the master and `answering` have a task there;
-- `answers` are on their way back, `posting` have a task here, and `channel` is
-- what the syncs read from. An answer says nothing of the request it is for.
structure ClockSync where
  clock : ClockState
  now : SystemTime := 0
  syncs : List Sync := []
  requests : Nat := 0
  answering : Nat := 0
  answers : List Reading := []
  posting : List Reading := []
  channel : List Reading := []
  completed : List Exchange := []

namespace ClockSync
open Machine

inductive Act where
  | elapse (span : Duration)
  | tick (fast : Bool)
  | stamp (sync : Nat)
  | send (sync : Nat)
  | lock (sync : Nat)
  | take (sync : Nat)
  | resync (sync : Nat)
  | deliverRequest
  | answer
  | deliverAnswer (place : Nat)
  | post (place : Nat)

def listens : Sync → Bool
  | .listening _ => true
  | _ => false

def locked (s : ClockSync) : Bool := s.syncs.any listens

def setSync (s : ClockSync) (i : Nat) (sync : Sync) : ClockSync := {s with syncs:=s.syncs.set i sync}

-- `shows` is what the master's logical clock shows at each moment. Reading a clock
-- is over before anything else happens, so time moves on with it.
def step (shows : SystemTime → SystemTime) (s : ClockSync) : Act → Option ClockSync
  | .elapse span => some {s with now:=s.now+span}
  | .tick fast =>
    let ticked := s.clock.tick fast
    some {s with clock:=ticked.1,syncs:=s.syncs++if ticked.2.2 then [.spawned] else []}
  | .stamp i => match s.syncs[i]? with
    | some .spawned => some {s.setSync i (.stamped s.now) with now:=s.now+1}
    | _ => none
  | .send i => match s.syncs[i]? with
    | some (.stamped t0) => some {s.setSync i (.requested t0) with requests:=s.requests+1}
    | _ => none
  -- The lock on the receiver is kept until the answer is there.
  | .lock i => match s.syncs[i]? with
    | some (.requested t0) => if s.locked then none else some (s.setSync i (.listening t0))
    | _ => none
  | .take i => match s.syncs[i]?,s.channel with
    | some (.listening t0),leaderTime::rest =>
      let exchange := ⟨t0,leaderTime,s.now⟩
      some {s.setSync i (.corrected exchange.corrected) with channel:=rest,completed:=s.completed++[exchange]}
    | _,_ => none
  | .resync i => match s.syncs[i]? with
    | some (.corrected realTime) => some {s.setSync i .finished with clock:=s.clock.resync realTime}
    | _ => none
  | .deliverRequest =>
    if 0 < s.requests then some {s with requests:=s.requests-1,answering:=s.answering+1} else none
  | .answer =>
    if 0 < s.answering then
      some {s with answering:=s.answering-1,answers:=s.answers++[⟨shows s.now,s.now⟩],now:=s.now+1}
    else none
  | .deliverAnswer place => match s.answers[place]? with
    | some reading => some {s with answers:=s.answers.eraseIdx place,posting:=s.posting++[reading]}
    | none => none
  | .post place => match s.posting[place]? with
    | some reading =>
      if s.channel.length < 100 then
        some {s with posting:=s.posting.eraseIdx place,channel:=s.channel++[reading]}
      else none
    | none => none

-- The answers that the master has read its clock for and no sync has taken yet.
def underWay (s : ClockSync) : List Reading := s.answers++s.posting++s.channel

-- Those of them that a sync without the receiver may still get: the first in the
-- channel goes to the sync that holds it.
def stray (s : ClockSync) : List Reading := s.answers++s.posting++if s.locked then s.channel.tail else s.channel

-- A sync begins when no answer read before can come to it.
def Clear (s : ClockSync) : Act → Prop
  | .stamp _ => s.stray = []
  | _ => True

-- The master's clock runs at the rate of real time.
def RealTimeRate (shows : SystemTime → SystemTime) : Prop := ∀ a b, a ≤ b → shows b = shows a+(b-a)

-- The answer was read during the sync; with a master at the rate of real time, the
-- corrected time is then within half the round trip of the master's.
structure OwnAnswer (shows : SystemTime → SystemTime) (x : Exchange) : Prop where
  read : x.leaderTime.time = shows x.leaderTime.moment
  during : x.t0 ≤ x.leaderTime.moment ∧ x.leaderTime.moment ≤ x.t1
  close : RealTimeRate shows → Timekeeping.Within ((x.t1-x.t0)/2) x.corrected (shows x.t1)

theorem ownAnswer {x : Exchange} (read : x.leaderTime.time = shows x.leaderTime.moment) (after : x.t0 < x.leaderTime.moment)
    (before : x.leaderTime.moment ≤ x.t1) : OwnAnswer shows x := by
  refine ⟨read,⟨Nat.le_of_lt after,before⟩,fun rate => ?_⟩
  have passed := rate _ _ before
  have later : Nat.succ x.t0 ≤ x.leaderTime.moment := after
  unfold Exchange.corrected Timekeeping.Within
  rw [read,passed]
  omega

-- When the sync began, while it waits for its answer.
def Sync.since : Sync → Option SystemTime
  | .stamped t0 => some t0
  | .requested t0 => some t0
  | .listening t0 => some t0
  | _ => none

def offered (s : ClockSync) (sync : Sync) : List Reading := if listens sync then s.underWay else s.stray

theorem stray_sublist (s : ClockSync) : s.stray.Sublist s.underWay := by
  unfold stray underWay
  refine List.Sublist.append_left ?_ _
  split
  · exact List.tail_sublist _
  · exact List.Sublist.refl _

theorem mem_offered {s : ClockSync} (member : r ∈ s.offered sync) : r ∈ s.underWay := by
  unfold offered at member
  split at member
  · exact member
  · exact (stray_sublist s).subset member

structure Timely (shows : SystemTime → SystemTime) (s : ClockSync) : Prop where
  read : ∀ r ∈ s.underWay, r.time = shows r.moment ∧ r.moment < s.now
  begun : ∀ sync ∈ s.syncs, ∀ t0, Sync.since sync = some t0 → t0 < s.now ∧ ∀ r ∈ s.offered sync, t0 < r.moment
  single : ∀ (i j : Nat) (a b : SystemTime), s.syncs[i]? = some (.listening a) → s.syncs[j]? = some (.listening b) → i = j
  own : ∀ x ∈ s.completed, OwnAnswer shows x

theorem locked_iff (s : ClockSync) : s.locked = true ↔ ∃ (i : Nat) (t0 : SystemTime), s.syncs[i]? = some (.listening t0) := by
  unfold locked
  rw [List.any_eq_true]
  constructor
  · rintro ⟨sync,member,hears⟩
    obtain ⟨i,found⟩ := List.mem_iff_getElem?.mp member
    cases sync <;> cases hears
    exact ⟨i,_,found⟩
  · rintro ⟨i,t0,found⟩
    exact ⟨_,List.mem_of_getElem? found,rfl⟩

-- A sync that neither gets the receiver nor gives it up.
theorem locked_set {s : ClockSync} (found : s.syncs[i]? = some sync) (same : listens sync' = listens sync) :
    (s.setSync i sync').locked = s.locked := by
  have inside := (List.getElem?_eq_some_iff.mp found).1
  have mapped : ∀ syncs : List Sync, syncs.any listens = (syncs.map listens).any id := by
    intro syncs
    rw [List.any_map]
    rfl
  simp only [locked,setSync,mapped,List.map_set,same]
  congr 1
  refine List.ext_getElem? fun k => ?_
  by_cases here : i = k
  · subst here
    rw [List.getElem?_set_self (by simpa using inside),List.getElem?_map,found]
    rfl
  · rw [List.getElem?_set_ne here]

theorem listening_set {s : ClockSync} (found : (s.setSync i sync).syncs[k]? = some (.listening t0)) :
    (k = i ∧ sync = .listening t0) ∨ (k ≠ i ∧ s.syncs[k]? = some (.listening t0)) := by
  simp only [setSync] at found
  by_cases here : i = k
  · subst here
    have inside := (List.getElem?_eq_some_iff.mp found).1
    rw [List.length_set] at inside
    rw [List.getElem?_set_self inside] at found
    exact .inl ⟨rfl,Option.some.inj found⟩
  · rw [List.getElem?_set_ne here] at found
    exact .inr ⟨Ne.symm here,found⟩

-- What a step has to show: answers come from before or are read now, and a waiting
-- sync is offered no more than it was, but for what is read now.
theorem Timely.next {s next : ClockSync} (timely : Timely shows s)
    (read : ∀ r ∈ next.underWay, r ∈ s.underWay ∨ (r = ⟨shows s.now,s.now⟩ ∧ s.now < next.now)) (now : s.now ≤ next.now)
    (offered : ∀ sync' ∈ next.syncs, ∀ t0, Sync.since sync' = some t0 → ∃ sync ∈ s.syncs, Sync.since sync = some t0 ∧
      ∀ r ∈ next.offered sync', r ∈ s.offered sync ∨ s.now ≤ r.moment)
    (single : ∀ (i j : Nat) (a b : SystemTime), next.syncs[i]? = some (.listening a) →
      next.syncs[j]? = some (.listening b) → i = j)
    (own : ∀ x ∈ next.completed, OwnAnswer shows x) : Timely shows next := by
  refine ⟨?_,?_,single,own⟩
  · intro r member
    rcases read r member with old | ⟨rfl,later⟩
    · exact ⟨(timely.read r old).1,Nat.lt_of_lt_of_le (timely.read r old).2 now⟩
    · exact ⟨rfl,later⟩
  · intro sync' member t0 since
    obtain ⟨sync,present,since,less⟩ := offered sync' member t0 since
    obtain ⟨before,later⟩ := timely.begun sync present t0 since
    refine ⟨Nat.lt_of_lt_of_le before now,fun r member => ?_⟩
    rcases less r member with old | new
    · exact later r old
    · exact Nat.lt_of_lt_of_le before new

-- Steps of the network and the tasks, which leave the syncs alone.
theorem Timely.pass {s next : ClockSync} (timely : Timely shows s) (syncs : next.syncs = s.syncs)
    (read : ∀ r ∈ next.underWay, r ∈ s.underWay ∨ (r = ⟨shows s.now,s.now⟩ ∧ s.now < next.now))
    (stray : ∀ r ∈ next.stray, r ∈ s.stray ∨ s.now ≤ r.moment) (now : s.now ≤ next.now)
    (completed : next.completed = s.completed) : Timely shows next := by
  refine timely.next read now ?_ (syncs ▸ timely.single) (completed ▸ timely.own)
  intro sync member t0 since
  refine ⟨sync,syncs ▸ member,since,fun r given => ?_⟩
  unfold offered at given ⊢
  split
  · rename_i hears
    rw [if_pos hears] at given
    exact (read r given).imp_right fun new => Nat.le_of_eq (congrArg Reading.moment new.1).symm
  · rename_i waits
    rw [if_neg waits] at given
    exact stray r given

-- The holder of the receiver is offered all that is under way, and the others all
-- but its first answer; a step of the network treats both alike.
theorem Timely.network {s next : ClockSync} (timely : Timely shows s) (syncs : next.syncs = s.syncs) (now : s.now ≤ next.now)
    (completed : next.completed = s.completed)
    (given : ∀ cut, cut = id ∨ cut = List.tail → ∀ r ∈ next.answers++next.posting++cut next.channel,
      r ∈ s.answers++s.posting++cut s.channel ∨ (r = ⟨shows s.now,s.now⟩ ∧ s.now < next.now)) : Timely shows next := by
  have locked : next.locked = s.locked := by unfold ClockSync.locked; rw [syncs]
  refine timely.pass syncs (given id (.inl rfl)) ?_ now completed
  intro r member
  have alike : r ∈ s.stray ∨ (r = ⟨shows s.now,s.now⟩ ∧ s.now < next.now) := by
    unfold stray at member ⊢
    rw [locked] at member
    split
    · rename_i held
      rw [if_pos held] at member
      exact given List.tail (.inr rfl) r member
    · rename_i free
      rw [if_neg free] at member
      exact given id (.inl rfl) r member
  exact alike.imp_right fun new => Nat.le_of_eq (congrArg Reading.moment new.1).symm

theorem Timely.move {s next : ClockSync} (timely : Timely shows s) (sync' : Sync) (found : s.syncs[i]? = some sync)
    (same : listens sync' = listens sync) (kept : ∀ t0, Sync.since sync' = some t0 → Sync.since sync = some t0)
    (syncs : next.syncs = (s.setSync i sync').syncs) (answers : next.answers = s.answers) (posting : next.posting = s.posting)
    (channel : next.channel = s.channel) (now : next.now = s.now) (completed : next.completed = s.completed) :
    Timely shows next := by
  have underWay : next.underWay = s.underWay := by unfold ClockSync.underWay; rw [answers,posting,channel]
  have locked : next.locked = s.locked := by
    rw [←locked_set found same]
    unfold ClockSync.locked
    rw [syncs]
  have stray : next.stray = s.stray := by unfold ClockSync.stray; rw [answers,posting,channel,locked]
  refine timely.next (fun r member => .inl (underWay ▸ member)) (Nat.le_of_eq now.symm) ?_ ?_ (completed ▸ timely.own)
  · intro other member t0 since
    rw [syncs] at member
    have begun : ∃ sync ∈ s.syncs, Sync.since sync = some t0 ∧ listens other = listens sync := by
      rcases List.mem_or_eq_of_mem_set member with old | rfl
      · exact ⟨other,old,since,rfl⟩
      · exact ⟨sync,List.mem_of_getElem? found,kept t0 since,same⟩
    obtain ⟨sync,present,since,alike⟩ := begun
    refine ⟨sync,present,since,fun r given => .inl ?_⟩
    unfold offered at given ⊢
    rwa [←alike,←underWay,←stray]
  · intro k l a b first second
    rw [syncs] at first second
    have listened : ∀ (k : Nat) (t0 : SystemTime), (s.setSync i sync').syncs[k]? = some (.listening t0) →
        ∃ t0' : SystemTime, s.syncs[k]? = some (.listening t0') := by
      intro k t0 there
      rcases listening_set there with ⟨rfl,rfl⟩ | ⟨_,old⟩
      · cases sync <;> cases same
        exact ⟨_,found⟩
      · exact ⟨t0,old⟩
    obtain ⟨_,first⟩ := listened k a first
    obtain ⟨_,second⟩ := listened l b second
    exact timely.single _ _ _ _ first second

theorem mem_tail_concat {l : List α} (member : r ∈ (l++[a]).tail) : r ∈ l.tail ∨ r = a := by
  cases l with
  | nil => cases member
  | cons first rest => simpa using member

-- The sync that takes the receiver is offered what it was offered before, as no
-- other had it.
theorem Timely.locks {s : ClockSync} (timely : Timely shows s) (found : s.syncs[i]? = some (.requested t0))
    (free : s.locked = false) : Timely shows (s.setSync i (.listening t0)) := by
  have none : ∀ (k : Nat) (t : SystemTime), s.syncs[k]? ≠ some (.listening t) := by
    intro k t there
    rw [(locked_iff s).mpr ⟨k,t,there⟩] at free
    cases free
  have all : s.stray = s.underWay := by simp only [stray,underWay,free,Bool.false_eq_true,if_false]
  refine timely.next (fun r => .inl) (Nat.le_refl _) ?_ ?_ timely.own
  · intro other member t since
    have begun : ∃ sync ∈ s.syncs, Sync.since sync = some t ∧ listens sync = false := by
      rcases List.mem_or_eq_of_mem_set member with old | rfl
      · refine ⟨other,old,since,?_⟩
        obtain ⟨k,there⟩ := List.mem_iff_getElem?.mp old
        cases other <;> first | rfl | exact absurd there (none k _)
      · exact ⟨_,List.mem_of_getElem? found,since,rfl⟩
    obtain ⟨sync,present,since,waits⟩ := begun
    refine ⟨sync,present,since,fun r given => .inl ?_⟩
    have whole : r ∈ (s.setSync i (.listening t0)).underWay := mem_offered given
    unfold offered
    rw [if_neg (by rw [waits]; simp),all]
    exact whole
  · intro k l a b first second
    rcases listening_set first with ⟨rfl,_⟩ | ⟨_,old⟩
    · rcases listening_set second with ⟨rfl,_⟩ | ⟨_,old⟩
      · rfl
      · exact absurd old (none l b)
    · exact absurd old (none k a)

-- Once the receiver is free again, the others are offered what is left, which is
-- what they were offered before.
theorem Timely.takes {s : ClockSync} (timely : Timely shows s) (found : s.syncs[i]? = some (.listening t0))
    (waiting : s.channel = leaderTime::rest) : Timely shows
      {s.setSync i (.corrected (Exchange.corrected ⟨t0,leaderTime,s.now⟩)) with
        channel:=rest,completed:=s.completed++[⟨t0,leaderTime,s.now⟩]} := by
  have held : s.locked = true := (locked_iff s).mpr ⟨i,t0,found⟩
  have member : leaderTime ∈ s.underWay := by
    unfold underWay
    rw [waiting]
    exact List.mem_append_right _ List.mem_cons_self
  have left : s.stray = s.answers++s.posting++rest := by simp only [stray,held,if_true,waiting,List.tail_cons]
  refine timely.next ?_ (Nat.le_refl _) ?_ ?_ ?_
  · intro r present
    refine .inl ((stray_sublist s).subset ?_)
    rw [left]
    exact present
  · intro other present t since
    rcases List.mem_or_eq_of_mem_set present with old | rfl
    · refine ⟨other,old,since,fun r given => .inl ?_⟩
      have among : r ∈ s.stray := by
        rw [left]
        exact mem_offered given
      unfold offered
      split
      · exact (stray_sublist s).subset among
      · exact among
    · cases since
  · intro k l a b first second
    rcases listening_set first with ⟨_,wrong⟩ | ⟨other,old⟩
    · cases wrong
    · exact absurd (timely.single _ _ _ _ old found) other
  · intro x present
    rcases List.mem_append.mp present with old | new
    · exact timely.own x old
    · cases List.mem_singleton.mp new
      obtain ⟨read,before⟩ := timely.read leaderTime member
      exact ownAnswer read ((timely.begun _ (List.mem_of_getElem? found) t0 rfl).2 _ member) (Nat.le_of_lt before)

theorem Timely.stamps {s : ClockSync} (timely : Timely shows s) (found : s.syncs[i]? = some .spawned)
    (clear : s.stray = []) : Timely shows {s.setSync i (.stamped s.now) with now:=s.now+1} := by
  have locked : ({s.setSync i (.stamped s.now) with now:=s.now+1} : ClockSync).locked = s.locked :=
    locked_set found rfl
  have none : ({s.setSync i (.stamped s.now) with now:=s.now+1} : ClockSync).stray = [] := by
    rw [←clear]
    unfold stray
    rw [locked]
    rfl
  refine ⟨?_,?_,?_,timely.own⟩
  · intro r member
    exact ⟨(timely.read r member).1,Nat.lt_succ_of_lt (timely.read r member).2⟩
  · intro sync member t0 since
    rcases List.mem_or_eq_of_mem_set member with old | rfl
    · obtain ⟨before,later⟩ := timely.begun sync old t0 since
      refine ⟨Nat.lt_succ_of_lt before,fun r given => later r ?_⟩
      unfold offered at given ⊢
      rwa [none,←clear] at given
    · cases Option.some.inj since
      refine ⟨Nat.lt_succ_self _,fun r given => ?_⟩
      rw [offered,if_neg (by simp [listens]),none] at given
      cases given
  · intro k l a b first second
    rcases listening_set first with ⟨_,wrong⟩ | ⟨_,first⟩
    · cases wrong
    · rcases listening_set second with ⟨_,wrong⟩ | ⟨_,second⟩
      · cases wrong
      · exact timely.single _ _ _ _ first second

theorem Timely.spawn {s next : ClockSync} (timely : Timely shows s) (spawned : List Sync)
    (idle : ∀ sync ∈ spawned, sync = .spawned) (syncs : next.syncs = s.syncs++spawned)
    (answers : next.answers = s.answers) (posting : next.posting = s.posting) (channel : next.channel = s.channel)
    (now : next.now = s.now) (completed : next.completed = s.completed) :
    Timely shows next := by
  have underWay : next.underWay = s.underWay := by unfold ClockSync.underWay; rw [answers,posting,channel]
  have deaf : spawned.any listens = false := by
    refine List.any_eq_false.mpr fun sync member => ?_
    rw [idle sync member]
    simp [listens]
  have locked : next.locked = s.locked := by
    unfold ClockSync.locked
    rw [syncs,List.any_append,deaf,Bool.or_false]
  have stray : next.stray = s.stray := by unfold ClockSync.stray; rw [answers,posting,channel,locked]
  refine timely.next (fun r member => .inl (underWay ▸ member)) (Nat.le_of_eq now.symm) ?_ ?_ (completed ▸ timely.own)
  · intro sync member t0 since
    rw [syncs] at member
    rcases List.mem_append.mp member with old | new
    · refine ⟨sync,old,since,fun r given => .inl ?_⟩
      unfold offered at given ⊢
      rwa [underWay,stray] at given
    · rw [idle sync new] at since
      cases since
  · intro i j a b first second
    have listening : ∀ (k : Nat) (t : SystemTime), next.syncs[k]? = some (.listening t) →
        s.syncs[k]? = some (.listening t) := by
      intro k t there
      rw [syncs,List.getElem?_append] at there
      split at there
      · exact there
      · cases idle _ (List.mem_of_getElem? there)
    exact timely.single _ _ _ _ (listening i a first) (listening j b second)

theorem Timely.answers {s : ClockSync} (timely : Timely shows s) :
    Timely shows {s with answering:=s.answering-1,answers:=s.answers++[⟨shows s.now,s.now⟩],now:=s.now+1} := by
  refine timely.network rfl (Nat.le_succ _) rfl fun cut _ r member => ?_
  simp only [List.mem_append,List.mem_singleton] at member ⊢
  rcases member with ((old | rfl) | old) | old
  · exact .inl (.inl (.inl old))
  · exact .inr ⟨rfl,Nat.lt_succ_self _⟩
  · exact .inl (.inl (.inr old))
  · exact .inl (.inr old)

theorem Timely.delivers {s : ClockSync} (timely : Timely shows s) (found : s.answers[place]? = some reading) :
    Timely shows {s with answers:=s.answers.eraseIdx place,posting:=s.posting++[reading]} := by
  refine timely.network rfl (Nat.le_refl _) rfl fun cut _ r member => .inl ?_
  simp only [List.mem_append,List.mem_singleton] at member ⊢
  rcases member with (old | old | rfl) | old
  · exact .inl (.inl (List.mem_of_mem_eraseIdx old))
  · exact .inl (.inr old)
  · exact .inl (.inl (List.mem_of_getElem? found))
  · exact .inr old

theorem Timely.posts {s : ClockSync} (timely : Timely shows s) (found : s.posting[place]? = some reading) :
    Timely shows {s with posting:=s.posting.eraseIdx place,channel:=s.channel++[reading]} := by
  refine timely.network rfl (Nat.le_refl _) rfl fun cut either r member => .inl ?_
  have ends : r ∈ cut (s.channel++[reading]) → r ∈ cut s.channel ∨ r = reading := by
    rcases either with rfl | rfl
    · exact fun last => (List.mem_append.mp last).imp_right List.mem_singleton.mp
    · exact mem_tail_concat
  simp only [List.mem_append] at member ⊢
  rcases member with (old | old) | last
  · exact .inl (.inl old)
  · exact .inl (.inr (List.mem_of_mem_eraseIdx old))
  · rcases ends last with old | rfl
    · exact .inr old
    · exact .inl (.inr (List.mem_of_getElem? found))

theorem step_timely {s next : ClockSync} (timely : Timely shows s) (clear : Clear s action)
    (ran : s.step shows action = some next) : Timely shows next := by
  cases action <;> simp only [step] at ran
  case elapse span =>
    cases Option.some.inj ran
    exact timely.pass rfl (fun _ => .inl) (fun _ => .inl) (Nat.le_add_right ..) rfl
  case tick fast =>
    cases Option.some.inj ran
    refine timely.spawn (if (s.clock.tick fast).2.2 then [.spawned] else []) ?_ rfl rfl rfl rfl rfl rfl
    intro sync member
    split at member
    · exact List.mem_singleton.mp member
    · cases member
  case stamp i =>
    split at ran
    · rename_i found
      cases Option.some.inj ran
      exact timely.stamps found clear
    · cases ran
  case send i =>
    split at ran
    · rename_i t0 found
      cases Option.some.inj ran
      exact timely.move (.requested t0) found rfl (fun _ => id) rfl rfl rfl rfl rfl rfl
    · cases ran
  case lock i =>
    split at ran
    · rename_i t0 found
      split at ran
      · cases ran
      · rename_i free
        cases Option.some.inj ran
        exact timely.locks found (Bool.eq_false_iff.mpr free)
    · cases ran
  case take i =>
    split at ran
    · rename_i t0 leaderTime rest found waiting
      cases Option.some.inj ran
      exact timely.takes found waiting
    · cases ran
  case resync i =>
    split at ran
    · rename_i realTime found
      cases Option.some.inj ran
      exact timely.move .finished found rfl (fun _ => id) rfl rfl rfl rfl rfl rfl
    · cases ran
  case deliverRequest =>
    split at ran
    · cases Option.some.inj ran
      exact timely.pass rfl (fun _ => .inl) (fun _ => .inl) (Nat.le_refl _) rfl
    · cases ran
  case answer =>
    split at ran
    · cases Option.some.inj ran
      exact timely.answers
    · cases ran
  case deliverAnswer place =>
    split at ran
    · rename_i reading found
      cases Option.some.inj ran
      exact timely.delivers found
    · cases ran
  case post place =>
    split at ran
    · rename_i reading found
      split at ran
      · cases Option.some.inj ran
        exact timely.posts found
      · cases ran
    · cases ran

theorem runs_timely {clock : ClockState} (path : Runs (step shows) Clear {clock:=clock} actions s) : Timely shows s := by
  refine path.invariant (Timely shows) (fun _ _ _ timely clear ran => step_timely timely clear ran) ?_
  refine ⟨?_,?_,?_,?_⟩
  · intro r member; cases member
  · intro sync member; cases member
  · intro i j a b first; simp at first
  · intro x member; cases member

section Straying

-- A sync has taken an answer that was read before it began.
def Misled (s : ClockSync) : Prop := ∃ x ∈ s.completed, x.leaderTime.moment < x.t0

-- The run can go on to a sync that is misled.
def CanMislead (shows : SystemTime → SystemTime) (s : ClockSync) : Prop :=
  ∃ actions final, Reaches (step shows) s actions final ∧ Misled final

theorem CanMislead.before {s next : ClockSync} (later : CanMislead shows next) (ran : s.step shows action = some next) :
    CanMislead shows s := by
  obtain ⟨actions,final,path,misled⟩ := later
  exact ⟨action::actions,final,(Runs.snoc .nil trivial ran).append path,misled⟩

theorem setSync_self (s : ClockSync) (sync : Sync) (found : s.syncs[i]? = some old) :
    (s.setSync i sync).syncs[i]? = some sync :=
  List.getElem?_set_self (List.getElem?_eq_some_iff.mp found).1

theorem setSync_other (s : ClockSync) (sync : Sync) (distinct : i ≠ k) : (s.setSync i sync).syncs[k]? = s.syncs[k]? :=
  List.getElem?_set_ne distinct

variable {s : ClockSync} {i k : Nat}

-- With the receiver free, the sync takes it and what comes first in the channel.
theorem mislead_channel (found : s.syncs[i]? = some (.requested t0)) (free : s.locked = false)
    (waiting : s.channel = r::rest) (old : r.moment < t0) : CanMislead shows s := by
  have locks : s.step shows (.lock i) = some (s.setSync i (.listening t0)) := by
    simp only [step,found,free,Bool.false_eq_true,if_false]
  let final : ClockSync := {s.setSync i (.corrected (Exchange.corrected ⟨t0,r,s.now⟩)) with
    channel:=rest,completed:=s.completed++[⟨t0,r,s.now⟩]}
  have takes : step shows (s.setSync i (.listening t0)) (.take i) = some final := by
    have listening := setSync_self s (.listening t0) found
    have same : (s.setSync i (.listening t0)).channel = r::rest := waiting
    simp only [step,listening,same,final]
    simp only [setSync,List.set_set]
  refine CanMislead.before (CanMislead.before ⟨[],final,.nil,?_⟩ takes) locks
  exact ⟨⟨t0,r,s.now⟩,List.mem_append_right _ (List.mem_singleton.mpr rfl),old⟩

theorem mislead_posting (found : s.syncs[i]? = some (.requested t0)) (free : s.locked = false)
    (empty : s.channel = []) (member : r ∈ s.posting) (old : r.moment < t0) : CanMislead shows s := by
  obtain ⟨place,there⟩ := List.mem_iff_getElem?.mp member
  have posts : s.step shows (.post place) = some {s with posting:=s.posting.eraseIdx place,channel:=[r]} := by
    simp only [step,there,empty,List.length_nil,List.nil_append]
    rfl
  exact (mislead_channel (s := {s with posting:=s.posting.eraseIdx place,channel:=[r]}) found free rfl old).before posts

theorem mislead_answers (found : s.syncs[i]? = some (.requested t0)) (free : s.locked = false)
    (empty : s.channel = []) (member : r ∈ s.answers) (old : r.moment < t0) : CanMislead shows s := by
  obtain ⟨place,there⟩ := List.mem_iff_getElem?.mp member
  have arrives : s.step shows (.deliverAnswer place) =
      some {s with answers:=s.answers.eraseIdx place,posting:=s.posting++[r]} := by
    simp only [step,there]
  refine (mislead_posting (s := {s with answers:=s.answers.eraseIdx place,posting:=s.posting++[r]}) found free empty ?_
    old).before arrives
  exact List.mem_append_right _ (List.mem_singleton.mpr rfl)

theorem mislead_free (found : s.syncs[i]? = some (.requested t0)) (free : s.locked = false)
    (member : r ∈ s.underWay) (old : ∀ r ∈ s.underWay, r.moment < t0) : CanMislead shows s := by
  cases waiting : s.channel with
  | cons first rest =>
    refine mislead_channel found free waiting (old first ?_)
    unfold underWay
    rw [waiting]
    exact List.mem_append_right _ List.mem_cons_self
  | nil =>
    have past := old r member
    unfold underWay at member
    rw [waiting,List.append_nil] at member
    rcases List.mem_append.mp member with answered | posted
    · exact mislead_answers found free waiting answered past
    · exact mislead_posting found free waiting posted past

-- The holder of the receiver takes the first answer and makes room.
theorem mislead_held (found : s.syncs[i]? = some (.requested t0)) (holds : s.syncs[k]? = some (.listening t))
    (single : ∀ (j : Nat) (b : SystemTime), s.syncs[j]? = some (.listening b) → j = k) (waiting : s.channel = first::rest)
    (member : r ∈ s.answers++s.posting++rest) (old : ∀ r ∈ s.answers++s.posting++rest, r.moment < t0) :
    CanMislead shows s := by
  have distinct : k ≠ i := by
    rintro rfl
    cases found.symm.trans holds
  let taken : Exchange := ⟨t,first,s.now⟩
  let next : ClockSync :=
    {s.setSync k (.corrected taken.corrected) with channel:=rest,completed:=s.completed++[taken]}
  have takes : s.step shows (.take k) = some next := by simp only [step,holds,waiting,next,taken]
  have free : next.locked = false := by
    rw [Bool.eq_false_iff]
    intro held
    obtain ⟨j,b,there⟩ := (locked_iff _).mp held
    rcases listening_set (s := s) there with ⟨_,wrong⟩ | ⟨other,still⟩
    · cases wrong
    · exact other (single j b still)
  have still : next.syncs[i]? = some (.requested t0) := (setSync_other s _ distinct).trans found
  exact (mislead_free (s := next) still free member old).before takes

theorem erase_last (l : List α) (a : α) : (l++[a])[l.length]? = some a ∧ (l++[a]).eraseIdx l.length = l := by
  refine ⟨by simp,?_⟩
  rw [List.eraseIdx_append_of_length_le (Nat.le_refl _),Nat.sub_self]
  exact List.append_nil _

-- With nothing in the channel, the master answers a request that is under way, and
-- its answer overtakes the others and goes to the holder.
theorem mislead_served (found : s.syncs[i]? = some (.requested t0)) (holds : s.syncs[k]? = some (.listening t))
    (single : ∀ (j : Nat) (b : SystemTime), s.syncs[j]? = some (.listening b) → j = k) (pending : s.requests = n+1)
    (empty : s.channel = []) (member : r ∈ s.answers++s.posting) (old : ∀ r ∈ s.answers++s.posting, r.moment < t0) :
    CanMislead shows s := by
  let fresh : Reading := ⟨shows s.now,s.now⟩
  let read : ClockSync := {s with requests:=n,answers:=s.answers++[fresh],now:=s.now+1}
  have arrives : s.step shows .deliverRequest = some {s with requests:=n,answering:=s.answering+1} := by
    simp only [step,pending,Nat.add_sub_cancel]
    exact if_pos (Nat.succ_pos _)
  have answers : step shows {s with requests:=n,answering:=s.answering+1} .answer = some read := by
    simp only [step,read,fresh,Nat.add_sub_cancel]
    exact if_pos (Nat.succ_pos _)
  have returns : read.step shows (.deliverAnswer s.answers.length) =
      some {read with answers:=s.answers,posting:=s.posting++[fresh]} := by
    simp only [step,read,erase_last]
  have posts : step shows {read with answers:=s.answers,posting:=s.posting++[fresh]} (.post s.posting.length) =
      some {read with answers:=s.answers,posting:=s.posting,channel:=[fresh]} := by
    have none : read.channel = [] := empty
    simp only [step,erase_last,none,List.length_nil,List.nil_append]
    rfl
  have misled : CanMislead shows {read with answers:=s.answers,posting:=s.posting,channel:=[fresh]} := by
    refine mislead_held (s := {read with answers:=s.answers,posting:=s.posting,channel:=[fresh]}) found holds single rfl
      (List.mem_append_left _ member) fun r present => old r ?_
    rwa [List.append_nil] at present
  exact (((misled.before posts).before returns).before answers).before arrives

-- A sync that begins with such an answer about can be misled: if another holds the
-- receiver, that one is served first.
theorem begin_misled (timely : Timely shows s) (found : s.syncs[i]? = some .spawned) (strays : s.stray ≠ []) :
    CanMislead shows s := by
  obtain ⟨r,member⟩ := List.exists_mem_of_ne_nil _ strays
  let asked : ClockSync := {s.setSync i (.requested s.now) with now:=s.now+1,requests:=s.requests+1}
  have stamps : s.step shows (.stamp i) = some {s.setSync i (.stamped s.now) with now:=s.now+1} := by
    simp only [step,found]
  have sends : step shows {s.setSync i (.stamped s.now) with now:=s.now+1} (.send i) = some asked := by
    have stamped := setSync_self s (.stamped s.now) found
    simp only [step,stamped,asked]
    simp only [setSync,List.set_set]
  suffices CanMislead shows asked from (this.before sends).before stamps
  have requested : asked.syncs[i]? = some (.requested s.now) := setSync_self s _ found
  have old : ∀ r ∈ s.underWay, r.moment < s.now := fun r member => (timely.read r member).2
  have locked : asked.locked = s.locked := locked_set found rfl
  cases held : s.locked with
  | false =>
    exact mislead_free (s := asked) requested (locked.trans held) ((stray_sublist s).subset member) old
  | true =>
    obtain ⟨k,t,holds⟩ := (locked_iff s).mp held
    have distinct : i ≠ k := by
      rintro rfl
      cases found.symm.trans holds
    have holds' : asked.syncs[k]? = some (.listening t) := (setSync_other s _ distinct).trans holds
    have single : ∀ (j : Nat) (b : SystemTime), asked.syncs[j]? = some (.listening b) → j = k := by
      intro j b there
      rcases listening_set (s := s) there with ⟨_,wrong⟩ | ⟨_,still⟩
      · cases wrong
      · exact timely.single _ _ _ _ still holds
    have left : s.stray = s.answers++s.posting++s.channel.tail := by simp only [stray,held,if_true]
    rw [left] at member
    cases waiting : s.channel with
    | cons first rest =>
      rw [waiting,List.tail_cons] at member
      refine mislead_held (s := asked) requested holds' single waiting member fun r present => old r ?_
      refine (stray_sublist s).subset ?_
      rw [left,waiting]
      exact present
    | nil =>
      rw [waiting,List.tail_nil,List.append_nil] at member
      refine mislead_served (s := asked) requested holds' single rfl waiting member fun r present => old r ?_
      exact List.mem_append_left _ present

end Straying

-- In every run whose syncs begin with no earlier answer about, each takes an answer
-- that the master read while it was waiting; and a sync that begins with one about
-- can end up with it.
theorem syncs_take_own_answer (shows : SystemTime → SystemTime) (clock : ClockState)
    (path : Runs (step shows) Clear {clock:=clock} actions s) :
    (∀ x ∈ s.completed, OwnAnswer shows x) ∧
    ∀ (i : Nat), s.syncs[i]? = some .spawned → ¬ Clear s (.stamp i) → ∃ later final,
      Reaches (step shows) s later final ∧ ∃ x ∈ final.completed, ¬ OwnAnswer shows x := by
  have timely := runs_timely path
  refine ⟨timely.own,fun i found strays => ?_⟩
  obtain ⟨later,final,path,x,member,early⟩ := begin_misled timely found strays
  exact ⟨later,final,path,x,member,fun own => absurd own.during.1 (Nat.not_le.mpr early)⟩

instance (s : ClockSync) : (action : Act) → Decidable (Clear s action)
  | .stamp _ => inferInstanceAs (Decidable (_ = _))
  | .elapse _ | .tick _ | .send _ | .lock _ | .take _ | .resync _ | .deliverRequest | .answer | .deliverAnswer _ |
    .post _ => .isTrue trivial

def sampleSync : ClockSync := {clock:=.new 2 (Duration.fromMicros 10) (Duration.fromMicros 10) 1 0}

-- Both syncs are waiting before the master reads its clock for either.
def answeredTogether : List Act :=
  [.tick true,.tick false,.stamp 0,.stamp 1,.send 0,.send 1,.elapse 100,.deliverRequest,.deliverRequest,.answer,
    .elapse 10,.answer,.lock 1,.deliverAnswer 1,.post 0,.take 1,.lock 0,.deliverAnswer 0,.elapse 50,.post 0,.take 0,
    .resync 0,.resync 1]

theorem syncs_take_own_answer_together : ∃ s, Runs (step id) Clear sampleSync answeredTogether s ∧
    s.completed = [⟨1,⟨113,113⟩,114⟩,⟨0,⟨102,102⟩,164⟩] ∧ ∀ x ∈ s.completed, OwnAnswer id x := by
  obtain ⟨s,path,taken⟩ := run_reaches (step id) Clear
    (fun s => s.completed = [⟨1,⟨113,113⟩,114⟩,⟨0,⟨102,102⟩,164⟩]) sampleSync answeredTogether (by decide +kernel)
  exact ⟨s,path,taken,(syncs_take_own_answer id _ path).1⟩

-- The second sync gets to the receiver first, and with it to the answer that was
-- read for the first before the second began.
def overtaken : List Act :=
  [.tick true,.stamp 0,.send 0,.deliverRequest,.elapse 100,.answer,.elapse 100,.tick true,.stamp 1,.send 1,.lock 1,
    .deliverAnswer 0,.post 0,.take 1]

theorem earlier_answer_taken : ¬ ∀ (shows : SystemTime → SystemTime) (clock : ClockState) (actions : List Act)
    (s : ClockSync), Reaches (step shows) {clock:=clock} actions s → ∀ x ∈ s.completed, OwnAnswer shows x := by
  intro own
  obtain ⟨s,path,taken⟩ := run_reaches (step id) (fun _ _ => True)
    (fun s => ∃ x ∈ s.completed, x.leaderTime.moment < x.t0) sampleSync overtaken (by decide +kernel)
  obtain ⟨x,member,early⟩ := taken
  exact absurd (own id _ _ s path x member).during.1 (Nat.not_le.mpr early)

end ClockSync
end OmniPaxosKV
