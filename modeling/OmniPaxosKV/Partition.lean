import OmniPaxosKV.Convergence
import OmniPaxosKV.Takeover

-- What a leader can do without: as long as it and the members of one prepare quorum
-- hear each other, it stays, whatever becomes of all other heartbeats.
namespace OmniPaxosKV.Partition
open Machine Heartbeats Convergence
open Ballots (Electorate step)
open Leadership (rank lt_iff_rank updateLeader_spec takesOver)
open Takeover (Once backers backers_card)

variable {n : Nat} {pids : Fin n → NodeId} {config : Nat} {c next : Electorate n} {i k : Fin n}
variable {quorum : Quorum} {members : Finset (Fin n)} {top : Ballot}

-- As many nodes as may prepare share one with as many as may accept.
def Overlaps (quorum : Quorum) (n : Nat) : Prop :=
  ∀ readers writers, quorum.isPrepareQuorum readers = true → quorum.isAcceptQuorum writers = true → n < readers+writers

theorem validate_overlaps {cluster : ClusterConfig} (valid : cluster.validate = .ok ()) :
    Overlaps (.new cluster.flexibleQuorum cluster.nodes.length) cluster.nodes.length := by
  intro readers writers prepare accept
  unfold ClusterConfig.validate at valid
  obtain ⟨_,_,valid⟩ := bind_ok valid
  obtain ⟨_,_,valid⟩ := bind_ok valid
  cases quorum : cluster.flexibleQuorum with
  | none =>
    rw [quorum] at prepare accept
    have reads : cluster.nodes.length/2+1 ≤ readers := of_decide_eq_true prepare
    have writes : cluster.nodes.length/2+1 ≤ writers := of_decide_eq_true accept
    omega
  | some sizes =>
    rw [quorum] at valid prepare accept
    obtain ⟨_,overlap,_⟩ := bind_ok valid
    have apart : cluster.nodes.length < sizes.readQuorumSize+sizes.writeQuorumSize :=
      of_decide_eq_true (validConfig_holds overlap)
    have reads : sizes.readQuorumSize ≤ readers := of_decide_eq_true prepare
    have writes : sizes.writeQuorumSize ≤ writers := of_decide_eq_true accept
    omega

-- A quorum to prepare is at least as large as one to accept.
theorem validate_accepts {cluster : ClusterConfig} (valid : cluster.validate = .ok ())
    (prepare : (Quorum.new cluster.flexibleQuorum cluster.nodes.length).isPrepareQuorum readers = true) :
    (Quorum.new cluster.flexibleQuorum cluster.nodes.length).isAcceptQuorum readers = true := by
  unfold ClusterConfig.validate at valid
  obtain ⟨_,_,valid⟩ := bind_ok valid
  obtain ⟨_,_,valid⟩ := bind_ok valid
  cases quorum : cluster.flexibleQuorum with
  | none =>
    rw [quorum] at prepare
    exact prepare
  | some sizes =>
    rw [quorum] at valid prepare
    obtain ⟨_,_,valid⟩ := bind_ok valid
    obtain ⟨_,_,valid⟩ := bind_ok valid
    obtain ⟨_,_,larger⟩ := bind_ok valid
    have reads : sizes.readQuorumSize ≤ readers := of_decide_eq_true prepare
    have apart : sizes.writeQuorumSize ≤ sizes.readQuorumSize := of_decide_eq_true (validConfig_holds larger)
    exact decide_eq_true (le_trans apart reads)

theorem quorums_meet {others : Finset (Fin n)} (overlaps : Overlaps quorum n) (prepare : quorum.isPrepareQuorum others.card = true)
    (accept : quorum.isAcceptQuorum members.card = true) : ∃ j, j ∈ others ∧ j ∈ members := by
  have more := overlaps _ _ prepare accept
  have inside := Finset.inter_nonempty_of_card_lt_card_add_card (Finset.subset_univ others) (Finset.subset_univ members)
    (by rw [Finset.card_univ,Fintype.card_fin]; exact more)
  obtain ⟨j,member⟩ := inside
  exact ⟨j,Finset.mem_inter.mp member⟩

-- The heartbeats that have to arrive in time: between the leader and the members.
def Attended (k : Fin n) (members : Finset (Fin n)) (c : Electorate n) : Ballots.Act n → Prop
  | .timeout i _ _ =>
    (i = k → ∀ j ∈ members, j ≠ i → ∃ reply ∈ (node c i).heartbeatReplies, reply.ballot.pid = (node c j).pid) ∧
    (i ∈ members → i ≠ k → ∃ reply ∈ (node c i).heartbeatReplies, reply.ballot.pid = (node c k).pid)
  | .deliver .. => True
  | .setPriority .. => True

-- The network loses, delays and reorders, but does not repeat.
def Faithful (c : Electorate n) (action : Ballots.Act n) : Prop := Undisturbed c action ∧ Once c action

def Connected (k : Fin n) (members : Finset (Fin n)) (c : Electorate n) (action : Ballots.Act n) : Prop :=
  Faithful c action ∧ Attended k members c action

-- What an answer must say, if it is the leader's or a member's.
def Supports (pids : Fin n → NodeId) (top : Ballot) (k : Fin n) (members : Finset (Fin n)) (reply : HeartbeatReply) : Prop :=
  (reply.ballot.pid = pids k → reply.ballot = top) ∧ ∀ j ∈ members, reply.ballot.pid = pids j → reply.happy = true

-- One leader for all, happy members, and every answer to a current round supports them.
structure Kept (pids : Fin n → NodeId) (config : Nat) (quorum : Quorum) (top : Ballot) (k : Fin n) (members : Finset (Fin n))
    (c : Electorate n) : Prop where
  sound : Sound pids config c
  valid : Takeover.Valid pids c
  quorum : ∀ i, (node c i).quorum = quorum
  holder : (node c k).currentBallot = top
  leads : ∀ i, (node c i).leader = top
  happy : ∀ i ∈ members, (node c i).happy = true
  heard : ∀ i, Heard pids (Supports pids top k members) c i

theorem Kept.capped (kept : Kept pids config quorum top k members c) (held : Held pids config c b) : rank b ≤ rank top := by
  obtain ⟨h,_,_,below⟩ := held
  rw [←kept.leads h]
  exact le_trans below (kept.sound.below h)

theorem Kept.settles (kept : Kept pids config quorum top k members c) (i : Fin n) : (node c i).updateLeader.leader = top := by
  have under := kept.capped (kept.sound.update_held i)
  obtain ⟨_,_,sameConfig,_⟩ := kept.sound.update_held i
  have own := (kept.sound.own k).2
  rw [kept.holder] at own
  refine eq_of_rank (sameConfig.trans own.symm) (le_antisymm under ?_)
  rw [←kept.leads i]
  exact update_above _

theorem Kept.followed (kept : Kept pids config quorum top k members c) :
    ∀ reply ∈ (node c k).heartbeatReplies, rank reply.leader ≤ rank (node c k).currentBallot := by
  intro reply member
  obtain ⟨j,told⟩ := kept.sound.heard member
  rw [kept.holder,←kept.leads j]
  exact told.leader

-- A member that is attended to stays happy.
theorem Kept.member_happy (kept : Kept pids config quorum top k members c) (leader : k ∈ members)
    (prepare : quorum.isPrepareQuorum members.card = true) (accept : quorum.isAcceptQuorum members.card = true)
    (attended : Attended k members c (.timeout i state promise)) (member : i ∈ members) :
    ((node c i).updateLeader.updateHappiness state).happy = true := by
  have sound := kept.sound
  rcases eq_or_ne i k with rfl | other
  · have count : members.card ≤ (node c i).heartbeatReplies.length+1 := by
      refine members_count sound.distinct fun j present apart => ?_
      obtain ⟨reply,stored,pid⟩ := attended.1 rfl j present apart
      exact ⟨reply,stored,pid.trans (sound.pid j)⟩
    refine happy_counted ((kept.settles i).trans kept.holder.symm) kept.followed (fun _ => ?_) fun _ => ?_
    · rw [kept.quorum i]
      exact accept_mono accept count
    · rw [kept.quorum i]
      exact prepare_mono prepare count
  · obtain ⟨reply,stored,pid⟩ := attended.2 member other
    have same := pid.trans (sound.pid k)
    obtain ⟨ballot,happy⟩ := (kept.heard i).stored sound stored
    refine happy_following ?_ stored ((ballot same).trans (kept.settles i).symm) (happy k leader same)
    rw [kept.settles i,←kept.holder]
    intro mine
    have own := (sound.own k).1
    rw [mine] at own
    exact other (sound.distinct ((sound.own i).1.symm.trans own))

-- A takeover takes a prepare quorum of unhappy nodes, and that has a happy member.
theorem Kept.stays (kept : Kept pids config quorum top k members c) (leader : k ∈ members)
    (overlaps : Overlaps quorum n) (prepare : quorum.isPrepareQuorum members.card = true)
    (accept : quorum.isAcceptQuorum members.card = true) (attended : Attended k members c (.timeout i state promise)) :
    takesOver (node c i) state = false := by
  by_cases member : i ∈ members
  · unfold takesOver
    rw [kept.member_happy leader prepare accept attended member]
    rfl
  · rw [Bool.eq_false_iff]
    intro taken
    simp only [takesOver,Bool.and_eq_true,List.all_eq_true] at taken
    obtain ⟨⟨_,unhappy⟩,reads⟩ := taken
    rw [kept.quorum i,←backers_card kept.valid kept.sound.distinct i] at reads
    obtain ⟨j,backs,inside⟩ := quorums_meet overlaps reads accept
    rcases Finset.mem_insert.mp backs with rfl | answered
    · exact member inside
    · obtain ⟨reply,stored,pid⟩ := List.mem_map.mp (Finset.mem_filter.mp answered).2
      have happy := ((kept.heard i).stored kept.sound stored).2 j inside pid
      have sad := unhappy reply stored
      rw [happy] at sad
      cases sad

theorem Kept.telling (kept : Kept pids config quorum top k members c) : Telling (Supports pids top k members) c := by
  intro j round
  refine ⟨fun pid => ?_,fun h member pid => ?_⟩
  · cases kept.sound.distinct ((kept.sound.own j).1.symm.trans pid)
    exact kept.holder
  · cases kept.sound.distinct ((kept.sound.own j).1.symm.trans pid)
    exact kept.happy j member

theorem kept_step (kept : Kept pids config quorum top k members c) (leader : k ∈ members) (overlaps : Overlaps quorum n)
    (prepare : quorum.isPrepareQuorum members.card = true) (accept : quorum.isAcceptQuorum members.card = true)
    (connected : Connected k members c action) (ran : step c action = some next) :
    Kept pids config quorum top k members next ∧ ∀ i, (node next i).currentBallot = (node c i).currentBallot := by
  have sound := kept.sound
  obtain ⟨⟨quiet,once⟩,attended⟩ := connected
  have sound' := (sound_step sound quiet ran).1
  have valid' := Takeover.step_valid sound.distinct kept.valid once ran
  have heard' := fun i => heard_step sound kept.telling (kept.heard i) quiet ran
  have nodes : ∀ j, (node next j).quorum = quorum ∧ (node next j).leader = top ∧
      (node next j).currentBallot = (node c j).currentBallot ∧ (j ∈ members → (node next j).happy = true) := by
    intro j
    have rests : Unmoved c next j → (node next j).quorum = quorum ∧ (node next j).leader = top ∧
        (node next j).currentBallot = (node c j).currentBallot ∧ (j ∈ members → (node next j).happy = true) := by
      intro unmoved
      rw [unmoved.quorum,unmoved.leader,unmoved.ballot,unmoved.happy]
      exact ⟨kept.quorum j,kept.leads j,rfl,kept.happy j⟩
    rcases step_cases ran quiet with ⟨h,state,promise,rfl,becomes⟩ | ⟨_,_,h,rfl,m,_,_,becomes⟩
    · rcases eq_or_ne j h with rfl | other
      · have stays := kept.stays leader overlaps prepare accept attended
        have renewed := sound.renewed quiet
        have same : elected (node c j) state = top := by
          rw [elected,if_neg (by rw [stays]; exact Bool.false_ne_true)]
          exact kept.settles j
        rw [becomes.here,renewed.quorum,renewed.current,stays]
        rcases renewed.outcome with ⟨behind,_,_⟩ | ⟨_,leads,content⟩
        · -- A promise above the leader would be some node's ballot, and none is above it.
          have under := kept.capped (sound.promised quiet behind).1
          rw [same,lt_iff_rank] at behind
          exact absurd behind (not_lt.mpr under)
        · refine ⟨kept.quorum j,leads.trans same,rfl,fun member => ?_⟩
          rw [content,kept.member_happy leader prepare accept attended member,Bool.or_true]
      · refine rests ?_
        constructor <;> rw [becomes.others j other]
    · exact rests (unmoved_deliver becomes j)
  exact ⟨⟨sound',valid',fun j => (nodes j).1,(nodes k).2.2.1.trans kept.holder,fun j => (nodes j).2.1,
    fun j => (nodes j).2.2.2,heard'⟩,fun j => (nodes j).2.2.1⟩

-- One more sweep after the election leaves no answer of an unhappy node under way.
theorem sweeps_content (sound : Sound pids config c) (some : Fin n) {sweeps : List (List (Ballots.Act n))}
    (enough : 7 ≤ sweeps.length) (fair : ∀ sweep ∈ sweeps, Sweeps sweep) (path : Runs step Calm c sweeps.flatten final) :
    ∃ b k, Elected pids config b k final ∧ ∀ i, Heard pids (fun reply => reply.happy = true) final i := by
  obtain ⟨first,last,rfl⟩ : ∃ first last, sweeps = first++[last] :=
    ⟨_,_,(List.dropLast_append_getLast (List.ne_nil_of_length_pos (by omega))).symm⟩
  rw [List.flatten_append] at path
  obtain ⟨middle,earlier,later⟩ := path.split
  rw [List.flatten_singleton] at later
  obtain ⟨b,k,chosen⟩ := sweeps_elect sound some
    (by rw [List.length_append,List.length_singleton] at enough; omega)
    (fun sweep member => fair sweep (List.mem_append_left _ member)) earlier
  obtain ⟨chosen,content⟩ := later.sweep Closes (Elected pids config b k)
    (fun i c => Heard pids (fun reply => reply.happy = true) c i)
    (fun _ _ _ chosen calm ran => (elected_step chosen calm ran).1)
    (fun i c action next chosen calm ran acted => by
      have telling : Telling (fun reply => reply.happy = true) c := fun j _ => (chosen.follows j).2
      rcases step_at chosen.sound calm ran i with ⟨state,promise,s,renewed,becomes,_⟩ | ⟨rests,_⟩
      · exact heard_timeout chosen.sound becomes renewed
      · exact heard_step chosen.sound telling (acted.resolve_left rests) calm.1 ran) chosen
  exact ⟨b,k,chosen,fun i => content i (fair last (List.mem_append_right _ List.mem_cons_self) i)⟩

theorem quorum_step (same : ∀ i, (node c i).quorum = quorum) (sound : Sound pids config c) (quiet : Undisturbed c action)
    (ran : step c action = some next) : ∀ i, (node next i).quorum = quorum := by
  intro j
  rw [←same j]
  rcases step_cases ran quiet with ⟨i,state,promise,rfl,becomes⟩ | ⟨_,_,i,rfl,m,_,_,becomes⟩
  · rcases eq_or_ne j i with rfl | other
    · rw [becomes.here]
      exact (sound.renewed quiet).quorum
    · rw [becomes.others j other]
  · exact (unmoved_deliver becomes j).quorum

-- What a cluster has of its start in every run that repeats no heartbeat.
structure Grounded (pids : Fin n → NodeId) (config : Nat) (quorum : Quorum) (c : Electorate n) : Prop where
  sound : Sound pids config c
  valid : Takeover.Valid pids c
  quorum : ∀ i, (node c i).quorum = quorum

theorem grounded_step (grounded : Grounded pids config quorum c) (faithful : Faithful c action)
    (ran : step c action = some next) : Grounded pids config quorum next :=
  ⟨(sound_step grounded.sound faithful.1 ran).1,
    Takeover.step_valid grounded.sound.distinct grounded.valid faithful.2 ran,
    quorum_step grounded.quorum grounded.sound faithful.1 ran⟩

theorem elected_kept (grounded : Grounded pids config quorum c) (chosen : Elected pids config top k c)
    (content : ∀ i, Heard pids (fun reply => reply.happy = true) c i) (members : Finset (Fin n)) :
    Kept pids config quorum top k members c := by
  refine ⟨chosen.sound,grounded.valid,grounded.quorum,chosen.holder,fun i => (chosen.follows i).1,
    fun i _ => (chosen.follows i).2,?_⟩
  intro i j m sent receiver reply answers round
  refine ⟨fun pid => ?_,fun _ _ _ => ?_⟩
  · exact (chosen.heard i j m sent receiver reply answers round pid).1
  · exact content i j m sent receiver reply answers round

section Fresh
variable {cluster : ClusterConfig} (priorities : Fin cluster.nodes.length → Nat)

theorem fresh_grounded (valid : cluster.validate = .ok ()) (distinct : cluster.nodes.Nodup) :
    Grounded cluster.nodes.get cluster.configurationId (.new cluster.flexibleQuorum cluster.nodes.length)
      (freshElection cluster priorities) := by
  refine ⟨fresh_sound priorities valid distinct,?_,fun i => ?_⟩
  · exact @Takeover.start_valid _ (fun i => ⟨cluster,{pid:=cluster.nodes.get i,leaderPriority:=priorities i}⟩)
      (fun _ => none) fun _ => distinct
  · change Quorum.new cluster.flexibleQuorum ((cluster.nodes.filter (· ≠ cluster.nodes.get i)).length+1) = _
    rw [peers_count distinct (cluster.nodes.get_mem i)]

-- A network that repeats no heartbeat, and seven rounds in which all nodes hear of
-- each other. From then on the one leader needs the members of a prepare quorum
-- only: whatever else is lost or delayed, no node takes over, nobody turns to
-- another leader, and rounds return the leader's ballot to it alone.
theorem leader_survives (valid : cluster.validate = .ok ()) (distinct : cluster.nodes.Nodup)
    (before : Runs step Faithful (freshElection cluster priorities) actions middle)
    (sweeps : List (List (Ballots.Act cluster.nodes.length))) (enough : 7 ≤ sweeps.length)
    (fair : ∀ sweep ∈ sweeps, Sweeps sweep)
    (path : Runs step (fun c action => Calm c action ∧ Once c action) middle sweeps.flatten settled) :
    ∃ b k, (node settled k).currentBallot = b ∧ (∀ i, (node settled i).leader = b) ∧
      ∀ members : Finset (Fin cluster.nodes.length), k ∈ members →
        (Quorum.new cluster.flexibleQuorum cluster.nodes.length).isPrepareQuorum members.card = true →
        ∀ later final, Runs step (Connected k members) settled later final →
          (∀ i, (node final i).leader = b ∧ (node final i).currentBallot = (node settled i).currentBallot) ∧
          (∀ i ∈ members, (node final i).happy = true) ∧
          ∀ i state promise, Connected k members final (.timeout i state promise) →
            ((node final i).hbTimeout state promise).1 = if i = k then some b else none := by
  have overlaps := validate_overlaps valid
  have grounded := before.invariant (Grounded cluster.nodes.get cluster.configurationId _)
    (fun _ _ _ grounded faithful ran => grounded_step grounded faithful ran) (fresh_grounded priorities valid distinct)
  have several : 0 < cluster.nodes.length := by
    unfold ClusterConfig.validate at valid
    obtain ⟨_,several,_⟩ := bind_ok valid
    exact Nat.lt_trans Nat.zero_lt_one (of_decide_eq_true (validConfig_holds several))
  obtain ⟨b,k,chosen,content⟩ := sweeps_content grounded.sound ⟨0,several⟩ enough fair
    (path.weaken fun _ _ calm => calm.1)
  have grounded' := path.invariant (Grounded cluster.nodes.get cluster.configurationId _)
    (fun _ _ _ grounded calm ran => grounded_step grounded ⟨calm.1.1,calm.2⟩ ran) grounded
  refine ⟨b,k,chosen.holder,fun i => (chosen.follows i).1,fun members leader prepare later final further => ?_⟩
  have accept := validate_accepts valid prepare
  obtain ⟨kept,same⟩ := further.invariant
    (fun c => Kept cluster.nodes.get cluster.configurationId (.new cluster.flexibleQuorum cluster.nodes.length) b k members c ∧
      ∀ i, (node c i).currentBallot = (node settled i).currentBallot)
    (fun c action next known connected ran => by
      obtain ⟨kept,same⟩ := kept_step known.1 leader overlaps prepare accept connected ran
      exact ⟨kept,fun i => (same i).trans (known.2 i)⟩) ⟨elected_kept grounded' chosen content members,fun _ => rfl⟩
  refine ⟨fun i => ⟨kept.leads i,same i⟩,kept.happy,fun i state promise connected => ?_⟩
  obtain ⟨next,ran⟩ : ∃ next, step final (.timeout i state promise) = some next := ⟨_,rfl⟩
  obtain ⟨kept',_⟩ := kept_step kept leader overlaps prepare accept connected ran
  exact round_returns kept'.sound ran kept'.holder (kept'.leads i)

end Fresh

instance attendedDecidable (c : Electorate n) (action : Ballots.Act n) : Decidable (Attended k members c action) :=
  match action with
  | .timeout .. => inferInstanceAs (Decidable ((_ → ∀ _ ∈ members, _ → ∃ _ ∈ _, _) ∧ (_ → _ → ∃ _ ∈ _, _)))
  | .deliver .. => inferInstanceAs (Decidable True)
  | .setPriority .. => inferInstanceAs (Decidable True)

instance connectedDecidable (c : Electorate n) (action : Ballots.Act n) : Decidable (Connected k members c action) :=
  inferInstanceAs (Decidable ((_ ∧ _) ∧ _))

-- Three nodes, of which the last leads. Then the second hears nobody any more.
def sampleTrio : ClusterConfig := ⟨1,[1,2,3],none⟩

def sampleFirst : Fin sampleTrio.nodes.length := ⟨0,by decide⟩
def sampleSecond : Fin sampleTrio.nodes.length := ⟨1,by decide⟩
def sampleLeader : Fin sampleTrio.nodes.length := ⟨2,by decide⟩

def sampleTimeouts : List (Ballots.Act sampleTrio.nodes.length) :=
  (List.finRange sampleTrio.nodes.length).map fun i => .timeout i (.follower,.none) {}

-- Each node asks its two peers, then answers both.
def sampleSweep (p : Nat) : List (Ballots.Act sampleTrio.nodes.length) :=
  [4*p,4*p+2].flatMap (fun place =>
    [.deliver sampleFirst place sampleSecond,.deliver sampleFirst (place+1) sampleLeader,
      .deliver sampleSecond place sampleFirst,.deliver sampleSecond (place+1) sampleLeader,
      .deliver sampleLeader place sampleFirst,.deliver sampleLeader (place+1) sampleSecond])++sampleTimeouts

def sampleSweeps : List (List (Ballots.Act sampleTrio.nodes.length)) := (List.range 7).map sampleSweep

-- The second node asks, closes two rounds with no answer, and asks in vain again.
def sampleCut : List (Ballots.Act sampleTrio.nodes.length) :=
  [.deliver sampleFirst 29 sampleLeader,.deliver sampleLeader 28 sampleFirst,.deliver sampleSecond 28 sampleFirst,
    .timeout sampleSecond (.follower,.none) {},.deliver sampleFirst 30 sampleLeader,
    .timeout sampleSecond (.follower,.none) {},.deliver sampleLeader 30 sampleFirst,
    .timeout sampleFirst (.follower,.none) {},.timeout sampleLeader (.leader,.prepare) {}]

def sampleMembers : Finset (Fin sampleTrio.nodes.length) := {sampleFirst,sampleLeader}

theorem sampleSweeps_fair : ∀ sweep ∈ sampleSweeps, Sweeps sweep := by
  intro sweep member i
  obtain ⟨p,_,rfl⟩ := List.mem_map.mp member
  exact ⟨_,List.mem_append_right _ (List.mem_map_of_mem (List.mem_finRange i)),rfl⟩

theorem leader_survives_trio : ∃ settled final,
    Runs step (fun c action => Calm c action ∧ Once c action) (freshElection sampleTrio fun _ => 0) sampleSweeps.flatten settled ∧
    Runs step (Connected sampleLeader sampleMembers) settled sampleCut final ∧
    ∃ b, ∀ i, (node settled i).leader = b ∧ (node final i).leader = b ∧
      (node final i).currentBallot = (node settled i).currentBallot := by
  obtain ⟨settled,path,only,ran⟩ := run_reaches step (fun c action => Calm c action ∧ Once c action)
    (fun c => (∀ k, (node c k).currentBallot = (node c sampleFirst).leader → k = sampleLeader) ∧
      (run step (Connected sampleLeader sampleMembers) c
        sampleCut).isSome = true) (freshElection sampleTrio fun _ => 0) sampleSweeps.flatten (by decide +kernel)
  obtain ⟨final,ran⟩ := Option.isSome_iff_exists.mp ran
  obtain ⟨b,k,holder,leads,survives⟩ := leader_survives (fun _ => 0) (by rfl) (by decide) .nil sampleSweeps (by decide)
    sampleSweeps_fair path
  cases only k (holder.trans (leads _).symm)
  obtain ⟨same,_⟩ := survives sampleMembers (by decide) (by decide) sampleCut final (run_sound ran)
  exact ⟨settled,final,path,run_sound ran,b,fun i => ⟨leads i,same i⟩⟩

end OmniPaxosKV.Partition
