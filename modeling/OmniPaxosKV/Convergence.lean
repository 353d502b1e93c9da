import OmniPaxosKV.Heartbeats

-- How an election ends: in a cluster left to itself, whatever was lost or delayed
-- before, a few rounds in which all nodes hear of each other bring them to one
-- leader, and it stays.
namespace OmniPaxosKV.Convergence
open Machine Heartbeats
open Ballots (Electorate Elector step)
open Leadership (rank lt_iff_rank le_iff_rank not_lt_iff_rank updateLeader_spec known raised takesOver)

variable {n : Nat} {pids : Fin n → NodeId} {config : Nat} {c next : Electorate n} {i : Fin n}

-- Every heartbeat of a round arrives before the round is closed.
def Calm (c : Electorate n) (action : Ballots.Act n) : Prop := Undisturbed c action ∧ Complete c action

def Closes (i : Fin n) : Ballots.Act n → Prop
  | .timeout j _ _ => j = i
  | .deliver .. => False
  | .setPriority .. => False

-- In a calm step a node closes a round that all others answered, or rests.
theorem step_at (sound : Sound pids config c) (calm : Calm c action) (ran : step c action = some next) (i : Fin n) :
    (∃ state promise s, Renewed (node c i) state promise s ∧ Becomes c next i s ∧ Answered pids c i) ∨
    (¬ Closes i action ∧ Unmoved c next i) := by
  rcases step_cases ran calm.1 with ⟨j,state,promise,rfl,becomes⟩ | ⟨_,_,j,rfl,m,_,_,becomes⟩
  · rcases eq_or_ne i j with rfl | other
    · exact .inl ⟨state,promise,_,sound.renewed calm.1,becomes,answered_complete sound calm.2⟩
    · refine .inr ⟨fun same => other same.symm,?_⟩
      constructor <;> rw [becomes.others i other]
  · exact .inr ⟨not_false,unmoved_deliver becomes i⟩

instance calmDecidable (c : Electorate n) (action : Ballots.Act n) : Decidable (Calm c action) :=
  inferInstanceAs (Decidable (_ ∧ _))

-- All leaders were once at most `top`, a ballot of node `k`.
structure Topped (pids : Fin n → NodeId) (config : Nat) (top : Ballot) (k : Fin n) (c : Electorate n) : Prop where
  sound : Sound pids config c
  confident : Confident top c
  pid : top.pid = pids k
  config : top.configId = config
  reached : rank top ≤ rank (node c k).currentBallot

def Broken (top : Ballot) (c : Electorate n) : Prop := ∃ h, rank top < rank (node c h).currentBallot

theorem broken_later (later : Later c next) (broken : Broken top c) : Broken top next := by
  obtain ⟨h,above⟩ := broken
  exact ⟨h,lt_of_lt_of_le above (later.ballot h)⟩

theorem topped_step (topped : Topped pids config top k c) (calm : Calm c action) (ran : step c action = some next) :
    Topped pids config top k next := by
  obtain ⟨sound,later⟩ := sound_step topped.sound calm.1 ran
  exact ⟨sound,confident_step topped.sound topped.confident calm.1 calm.2 ran,topped.pid,topped.config,
    le_trans topped.reached (later.ballot k)⟩

theorem capped (intact : ¬ Broken top c) (held : Held pids config c b) : rank b ≤ rank top := by
  obtain ⟨h,_,_,below⟩ := held
  by_contra above
  exact intact ⟨h,lt_of_lt_of_le (not_le.mp above) below⟩

theorem Topped.holder (topped : Topped pids config top k c) (intact : ¬ Broken top c) :
    (node c k).currentBallot = top ∧ (node c k).leader = top := by
  have sound := topped.sound
  have leader := capped intact (sound.held k)
  obtain ⟨_,_,sameConfig,_⟩ := sound.held k
  constructor
  · refine eq_of_rank ((sound.own k).2.trans topped.config.symm) (le_antisymm ?_ topped.reached)
    exact le_trans (sound.below k) leader
  · refine eq_of_rank (sameConfig.trans topped.config.symm) (le_antisymm leader ?_)
    exact le_trans topped.reached (sound.below k)

-- What a node that answered with `top` as its own says of it.
def Praises (pids : Fin n → NodeId) (top : Ballot) (k : Fin n) (reply : HeartbeatReply) : Prop :=
  reply.ballot.pid = pids k → reply.ballot = top ∧ reply.happy = true

-- No node is above `top`, and the leader that a node settles on is `top`.
theorem happy_settled (state : Role × Phase) (sound : Sound pids config c) (answered : Answered pids c i)
    (highest : ∀ j, rank (node c j).leader ≤ rank top) (holder : (node c k).currentBallot = top)
    (heard : i ≠ k → Heard pids (Praises pids top k) c i) :
    (node c i).updateLeader.leader = top ∧ ((node c i).updateLeader.updateHappiness state).happy = true := by
  have own := sound.own k
  rw [holder] at own
  have cap : ∀ {b}, Held pids config c b → rank b ≤ rank top := by
    rintro b ⟨h,_,_,below⟩
    exact le_trans below (le_trans (sound.below h) (highest h))
  have under := cap (sound.update_held i)
  obtain ⟨_,_,sameConfig,_⟩ := sound.update_held i
  rcases eq_or_ne i k with rfl | other
  · have settles : (node c i).updateLeader.leader = top := by
      refine eq_of_rank (sameConfig.trans own.2.symm) (le_antisymm under ?_)
      rw [←holder]
      exact le_trans (sound.below i) (update_above _)
    refine ⟨settles,happy_leading sound answered (settles.trans holder.symm) ?_⟩
    intro reply member more
    obtain ⟨j,told⟩ := sound.heard member
    rw [holder] at more
    exact absurd more (not_lt.mpr (le_trans told.leader (highest j)))
  · obtain ⟨reply,member,pid⟩ := answered k other.symm
    obtain ⟨same,happy⟩ := (heard other).stored sound member pid
    have settles : (node c i).updateLeader.leader = top := by
      refine eq_of_rank (sameConfig.trans own.2.symm) (le_antisymm under ?_)
      rw [←same]
      exact (updateLeader_spec _).2.2 _ (List.mem_cons_of_mem _ (List.mem_map_of_mem member))
    refine ⟨settles,happy_following ?_ member (same.trans settles.symm) happy⟩
    rw [settles]
    intro mine
    exact other (sound.distinct ((sound.own i).1.symm.trans (mine ▸ own.1)))

-- The first rounds: the holder of `top` is happy, the others hear it, and follow.
def Gathers (pids : Fin n → NodeId) (top : Ballot) (k : Fin n) : ℕ → Fin n → Electorate n → Prop
  | 0,i,c => i = k → (node c i).happy = true
  | 1,i,c => Heard pids (Praises pids top k) c i
  | _,i,c => (node c i).leader = top ∧ (node c i).happy = true

theorem gathers_step (stage : ℕ) (i : Fin n) (topped : Topped pids config top k c)
    (before : ∀ earlier < stage, ∀ j, Broken top c ∨ Gathers pids top k earlier j c) (calm : Calm c action)
    (ran : step c action = some next) (acted : Closes i action ∨ Broken top c ∨ Gathers pids top k stage i c) :
    Broken top next ∨ Gathers pids top k stage i next := by
  have sound := topped.sound
  obtain ⟨sound',later⟩ := sound_step sound calm.1 ran
  by_cases broken : Broken top next
  · exact .inl broken
  right
  have intact : ¬ Broken top c := fun earlier => broken (broken_later later earlier)
  replace before := fun earlier less j => (before earlier less j).resolve_left intact
  have highest : ∀ j, rank (node c j).leader ≤ rank top := fun j => capped intact (sound.held j)
  obtain ⟨holder,_⟩ := topped.holder intact
  match stage with
  | 0 =>
    rintro rfl
    rcases step_at sound calm ran i with ⟨state,promise,s,renewed,becomes,answered⟩ | ⟨rests,unmoved⟩
    · obtain ⟨_,happy⟩ := happy_settled state sound answered highest holder (absurd rfl)
      rw [becomes.here]
      exact (stays_happy happy renewed).2.2
    · rw [unmoved.happy]
      exact ((acted.resolve_left rests).resolve_left intact) rfl
  | 1 =>
    have telling : Telling (Praises pids top k) c := by
      intro j round pid
      cases sound.distinct ((sound.own j).1.symm.trans pid)
      exact ⟨holder,before 0 Nat.one_pos k rfl⟩
    rcases step_at sound calm ran i with ⟨state,promise,s,renewed,becomes,_⟩ | ⟨rests,_⟩
    · exact heard_timeout sound becomes renewed
    · exact heard_step sound telling ((acted.resolve_left rests).resolve_left intact) calm.1 ran
  | later+2 =>
    rcases step_at sound calm ran i with ⟨state,promise,s,renewed,becomes,answered⟩ | ⟨rests,unmoved⟩
    · obtain ⟨settles,happy⟩ := happy_settled state sound answered highest holder
        (fun _ => before 1 (by omega) i)
      constructor
      · obtain ⟨_,_,sameConfig,_⟩ := sound'.held i
        refine eq_of_rank (sameConfig.trans topped.config.symm) (le_antisymm (capped broken (sound'.held i)) ?_)
        rw [becomes.here,←settles]
        exact renewed.leader_above
      · rw [becomes.here]
        exact (stays_happy happy renewed).2.2
    · change (node next i).leader = top ∧ (node next i).happy = true
      rw [unmoved.leader,unmoved.happy]
      exact (acted.resolve_left rests).resolve_left intact

-- One leader for all nodes, and no answer under way that could make one unhappy.
structure Elected (pids : Fin n → NodeId) (config : Nat) (top : Ballot) (k : Fin n) (c : Electorate n) : Prop where
  sound : Sound pids config c
  holder : (node c k).currentBallot = top
  follows : ∀ i, (node c i).leader = top ∧ (node c i).happy = true
  heard : ∀ i, Heard pids (Praises pids top k) c i

theorem elected_step (chosen : Elected pids config top k c) (calm : Calm c action) (ran : step c action = some next) :
    Elected pids config top k next ∧ ∀ i, (node next i).currentBallot = (node c i).currentBallot := by
  have sound := chosen.sound
  obtain ⟨sound',later⟩ := sound_step sound calm.1 ran
  have highest : ∀ j, rank (node c j).leader ≤ rank top := fun j => by rw [(chosen.follows j).1]
  have closed : ∀ i, (node next i).currentBallot = (node c i).currentBallot ∧ (node next i).happy = true := by
    intro i
    rcases step_at sound calm ran i with ⟨state,promise,s,renewed,becomes,answered⟩ | ⟨_,unmoved⟩
    · obtain ⟨_,happy⟩ := happy_settled state sound answered highest chosen.holder (fun _ => chosen.heard i)
      rw [becomes.here]
      exact (stays_happy happy renewed).2
    · rw [unmoved.ballot,unmoved.happy]
      exact ⟨rfl,(chosen.follows i).2⟩
  have telling : Telling (Praises pids top k) c := by
    intro j round pid
    cases sound.distinct ((sound.own j).1.symm.trans pid)
    exact ⟨chosen.holder,(chosen.follows k).2⟩
  refine ⟨⟨sound',(closed k).1.trans chosen.holder,fun i => ⟨?_,(closed i).2⟩,
    fun i => heard_step sound telling (chosen.heard i) calm.1 ran⟩,fun i => (closed i).1⟩
  obtain ⟨h,_,sameConfig,below⟩ := sound'.held i
  have own := (sound.own k).2
  rw [chosen.holder] at own
  refine eq_of_rank (sameConfig.trans own.symm) (le_antisymm ?_ ?_)
  · rw [(closed h).1] at below
    exact le_trans below (le_trans (sound.below h) (highest h))
  · rw [←(chosen.follows i).1]
    exact later.leader i

-- Some node took a ballot above `top`; when all have heard it, no node moves again.
structure Frozen (pids : Fin n → NodeId) (config : Nat) (top : Ballot) (h : Fin n) (ballots : Fin n → Ballot)
    (c : Electorate n) : Prop where
  sound : Sound pids config c
  confident : Confident top c
  above : rank top < rank (ballots h)
  kept : ∀ j, (node c j).currentBallot = ballots j
  heard : ∀ i, Heard pids (fun reply => reply.ballot.pid = pids h → rank top < rank reply.ballot) c i

theorem Frozen.happy (frozen : Frozen pids config top h ballots c) (answered : Answered pids c i) :
    ((node c i).updateLeader.updateHappiness state).happy = true := by
  refine happy_above frozen.sound frozen.confident answered ?_
  rcases eq_or_ne i h with rfl | other
  · have above := frozen.above
    rw [←frozen.kept i] at above
    exact lt_of_lt_of_le above (le_trans (frozen.sound.below i) (update_above _))
  · obtain ⟨reply,member,pid⟩ := answered h other.symm
    refine lt_of_lt_of_le ((frozen.heard i).stored frozen.sound member pid) ?_
    exact (updateLeader_spec _).2.2 _ (List.mem_cons_of_mem _ (List.mem_map_of_mem member))

theorem telling_above (sound : Sound pids config c) (above : rank top < rank (node c h).currentBallot) :
    Telling (fun reply => reply.ballot.pid = pids h → rank top < rank reply.ballot) c := by
  intro j round pid
  cases sound.distinct ((sound.own j).1.symm.trans pid)
  exact above

theorem frozen_step (frozen : Frozen pids config top h ballots c) (calm : Calm c action) (ran : step c action = some next) :
    Frozen pids config top h ballots next := by
  have sound := frozen.sound
  refine ⟨(sound_step sound calm.1 ran).1,confident_step sound frozen.confident calm.1 calm.2 ran,frozen.above,?_,?_⟩
  · intro i
    rw [←frozen.kept i]
    rcases step_at sound calm ran i with ⟨state,promise,s,renewed,becomes,answered⟩ | ⟨_,unmoved⟩
    · rw [becomes.here]
      exact (stays_happy (frozen.happy answered) renewed).2.1
    · exact unmoved.ballot
  · have above := frozen.above
    rw [←frozen.kept h] at above
    exact fun i => heard_step sound (telling_above sound above) (frozen.heard i) calm.1 ran

-- The last rounds: the highest of the ballots that will not change is heard, and followed.
def Follows (pids : Fin n → NodeId) (ballots : Fin n → Ballot) (m : Fin n) : ℕ → Fin n → Electorate n → Prop
  | 0,i,c => Heard pids (fun reply => reply.ballot.pid = pids m → reply.ballot = ballots m) c i
  | _,i,c => (node c i).leader = ballots m ∧ (node c i).happy = true

theorem follows_step (stage : ℕ) (i : Fin n) (frozen : Frozen pids config top h ballots c)
    (highest : ∀ j, rank (ballots j) ≤ rank (ballots m)) (before : ∀ earlier < stage, ∀ j, Follows pids ballots m earlier j c)
    (calm : Calm c action) (ran : step c action = some next) (acted : Closes i action ∨ Follows pids ballots m stage i c) :
    Follows pids ballots m stage i next := by
  have sound := frozen.sound
  match stage with
  | 0 =>
    have telling : Telling (fun reply => reply.ballot.pid = pids m → reply.ballot = ballots m) c := by
      intro j round pid
      cases sound.distinct ((sound.own j).1.symm.trans pid)
      exact frozen.kept m
    rcases step_at sound calm ran i with ⟨state,promise,s,renewed,becomes,_⟩ | ⟨rests,_⟩
    · exact heard_timeout sound becomes renewed
    · exact heard_step sound telling (acted.resolve_left rests) calm.1 ran
  | later+1 =>
    rcases step_at sound calm ran i with ⟨state,promise,s,renewed,becomes,answered⟩ | ⟨rests,unmoved⟩
    · have frozen' := frozen_step frozen calm ran
      have reached : rank (ballots m) ≤ rank (node c i).updateLeader.leader := by
        rcases eq_or_ne i m with rfl | other
        · rw [←frozen.kept i]
          exact le_trans (sound.below i) (update_above _)
        · obtain ⟨reply,member,pid⟩ := answered m other.symm
          rw [←Heard.stored (before 0 (Nat.succ_pos _) i) sound member pid]
          exact (updateLeader_spec _).2.2 _ (List.mem_cons_of_mem _ (List.mem_map_of_mem member))
      constructor
      · obtain ⟨j,_,sameConfig,below⟩ := frozen'.sound.held i
        have own := (sound.own m).2
        rw [frozen.kept m] at own
        refine eq_of_rank (sameConfig.trans own.symm) (le_antisymm ?_ ?_)
        · rw [frozen'.kept j] at below
          exact le_trans below (highest j)
        · rw [becomes.here]
          exact le_trans reached renewed.leader_above
      · rw [becomes.here]
        exact (stays_happy (frozen.happy answered) renewed).2.2
    · change (node next i).leader = ballots m ∧ (node next i).happy = true
      rw [unmoved.leader,unmoved.happy]
      exact acted.resolve_left rests

theorem frozen_elected (frozen : Frozen pids config top h ballots c) (highest : ∀ j, rank (ballots j) ≤ rank (ballots m))
    (follows : ∀ stage < 2, ∀ i, Follows pids ballots m stage i c) : Elected pids config (ballots m) m c := by
  have sound := frozen.sound
  refine ⟨sound,frozen.kept m,follows 1 (by decide),?_⟩
  intro i j message sent receiver reply answers round pid
  have same := follows 0 (by decide) i j message sent receiver reply answers round pid
  refine ⟨same,frozen.confident.replies j message sent reply answers ?_⟩
  have below := (sound.replies j message sent reply answers).below
  rw [same] at below
  exact lt_of_lt_of_le (lt_of_lt_of_le frozen.above (highest h)) below

-- Every node closes a round in the sweep.
def Sweeps (sweep : List (Ballots.Act n)) : Prop := ∀ i, ∃ action ∈ sweep, Closes i action

theorem gathered (sound : Sound pids config c) (some : Fin n) {sweeps : List (List (Ballots.Act n))}
    (enough : 3 ≤ sweeps.length) (fair : ∀ sweep ∈ sweeps, Sweeps sweep) (path : Runs step Calm c sweeps.flatten final) :
    ∃ top k, Topped pids config top k final ∧ (Broken top final ∨ Elected pids config top k final) := by
  have : Nonempty (Fin n) := ⟨some⟩
  obtain ⟨i,most⟩ := Finite.exists_max fun i => rank (node c i).leader
  obtain ⟨k,pid,sameConfig,reached⟩ := sound.held i
  have topped : Topped pids config (node c i).leader k c :=
    ⟨sound,confident_below sound most,pid,sameConfig,reached⟩
  obtain ⟨topped,stages⟩ := path.stages Closes (Topped pids config (node c i).leader k)
    (fun stage j later => Broken (node c i).leader later ∨ Gathers pids (node c i).leader k stage j later)
    (fun _ _ _ topped calm ran => topped_step topped calm ran)
    (fun stage j _ _ _ topped before calm ran => gathers_step stage j topped before calm ran) fair topped
  refine ⟨_,k,topped,?_⟩
  by_cases broken : Broken (node c i).leader final
  · exact .inl broken
  right
  have settled := fun stage less j => (stages stage less j).resolve_left broken
  exact ⟨topped.sound,(topped.holder broken).1,settled 2 (by omega),settled 1 (by omega)⟩

-- A ballot above `top` spreads in one sweep, and two more settle on the highest there is.
theorem overtaken (topped : Topped pids config top k c) (broken : Broken top c) {first : List (Ballots.Act n)}
    {rest : List (List (Ballots.Act n))} (enough : 2 ≤ rest.length) (fair : Sweeps first) (fairly : ∀ sweep ∈ rest, Sweeps sweep)
    (path : Runs step Calm c first middle) (paths : Runs step Calm middle rest.flatten final) :
    ∃ b m, Elected pids config b m final := by
  obtain ⟨h,above⟩ := broken
  obtain ⟨⟨topped,above⟩,heard⟩ := path.sweep Closes
    (fun c => Topped pids config top k c ∧ rank top < rank (node c h).currentBallot)
    (fun i c => Heard pids (fun reply => reply.ballot.pid = pids h → rank top < rank reply.ballot) c i)
    (fun c action next known calm ran => by
      have later := (sound_step known.1.sound calm.1 ran).2
      exact ⟨topped_step known.1 calm ran,lt_of_lt_of_le known.2 (later.ballot h)⟩)
    (fun i c action next known calm ran acted => by
      have sound := known.1.sound
      rcases step_at sound calm ran i with ⟨state,promise,s,renewed,becomes,_⟩ | ⟨rests,_⟩
      · exact heard_timeout sound becomes renewed
      · exact heard_step sound (telling_above sound known.2) (acted.resolve_left rests) calm.1 ran) ⟨topped,above⟩
  have : Nonempty (Fin n) := ⟨h⟩
  obtain ⟨m,highest⟩ := Finite.exists_max fun j => rank (node middle j).currentBallot
  obtain ⟨frozen,follows⟩ := paths.stages Closes (Frozen pids config top h fun j => (node middle j).currentBallot)
    (Follows pids (fun j => (node middle j).currentBallot) m) (fun _ _ _ frozen calm ran => frozen_step frozen calm ran)
    (fun stage i _ _ _ frozen before calm ran => follows_step stage i frozen highest before calm ran) fairly
    ⟨topped.sound,topped.confident,above,fun _ => rfl,fun i => heard i (fair i)⟩
  exact ⟨_,m,frozen_elected frozen highest fun stage less => follows stage (by omega)⟩

theorem sweeps_elect (sound : Sound pids config c) (some : Fin n) {sweeps : List (List (Ballots.Act n))}
    (enough : 6 ≤ sweeps.length) (fair : ∀ sweep ∈ sweeps, Sweeps sweep) (path : Runs step Calm c sweeps.flatten final) :
    ∃ b m, Elected pids config b m final := by
  obtain ⟨one,two,three,four,rest,rfl,more⟩ : ∃ one two three four rest, sweeps = [one,two,three]++four::rest ∧ 2 ≤ rest.length := by
    match sweeps, enough with
    | one::two::three::four::rest,enough => exact ⟨one,two,three,four,rest,rfl,by simpa using enough⟩
  rw [List.flatten_append,List.flatten_cons] at path
  obtain ⟨middle,first,others⟩ := path.split
  obtain ⟨spread,second,last⟩ := others.split
  have fairly := fun sweep member => fair sweep (List.mem_append_right _ member)
  have exact : 3 ≤ [one,two,three].length := Nat.le_refl 3
  obtain ⟨top,k,topped,broken | chosen⟩ := gathered sound some exact
    (fun sweep member => fair sweep (List.mem_append_left _ member)) first
  · exact overtaken topped broken more (fairly four List.mem_cons_self)
      (fun sweep member => fairly sweep (List.mem_cons_of_mem _ member)) second last
  · exact ⟨top,k,others.invariant (Elected pids config top k)
      (fun _ _ _ chosen calm ran => (elected_step chosen calm ran).1) chosen⟩

-- What the holder of the leading ballot gets from a round, and the others do not.
theorem round_returns (sound : Sound pids config next) (ran : step c (.timeout i state promise) = some next)
    (holder : (node next k).currentBallot = top) (leads : (node next i).leader = top) :
    ((node c i).hbTimeout state promise).1 = if i = k then some top else none := by
  have here : node next i = ((node c i).hbTimeout state promise).2 := by
    cases Option.some.inj ran
    simp only [node,Function.update_self]
    rfl
  have returns : ((node c i).hbTimeout state promise).1 =
      if (node next i).leader = (node next i).currentBallot then some (node next i).currentBallot else none := by
    rw [here]
    rfl
  rw [returns,leads]
  rcases eq_or_ne i k with rfl | other
  · rw [holder,if_pos rfl,if_pos rfl]
  · rw [if_neg other]
    refine if_neg fun same => other ?_
    have pid := (sound.own k).1
    rw [holder,same] at pid
    exact sound.distinct ((sound.own i).1.symm.trans pid)

theorem elected_returns (chosen : Elected pids config top k c) (calm : Calm c (.timeout i state promise)) :
    ((node c i).hbTimeout state promise).1 = if i = k then some top else none := by
  obtain ⟨next,ran⟩ : ∃ next, step c (.timeout i state promise) = some next := ⟨_,rfl⟩
  have chosen' := (elected_step chosen calm ran).1
  exact round_returns chosen'.sound ran chosen'.holder (chosen'.follows i).1

section Fresh
variable (cluster : ClusterConfig) (priorities : Fin cluster.nodes.length → Nat)

-- The election settings of each node of one cluster.
def clusterConfigs (i : Fin cluster.nodes.length) : BLEConfig :=
  OmniPaxosConfig.bleConfig ⟨cluster,{pid:=cluster.nodes.get i,leaderPriority:=priorities i}⟩

def freshElection : Electorate cluster.nodes.length := Ballots.start (clusterConfigs cluster priorities) fun _ => none

theorem peers_count {nodes : List NodeId} (distinct : nodes.Nodup) (member : pid ∈ nodes) :
    (nodes.filter (· ≠ pid)).length+1 = nodes.length := by
  have erased : nodes.filter (· ≠ pid) = nodes.erase pid := by
    rw [distinct.erase_eq_filter]
    simp only [bne,Ne,decide_not,beq_eq_decide]
  rw [erased,List.length_erase_of_mem member]
  exact Nat.succ_pred_eq_of_pos (List.length_pos_of_mem member)

theorem validConfig_holds {holds : Bool} (passed : validConfig holds message = .ok ()) : holds = true := by
  cases holds with
  | true => rfl
  | false => cases passed

theorem bind_ok {x : Except ε α} {f : α → Except ε β} (ran : x >>= f = .ok b) : ∃ a, x = .ok a ∧ f a = .ok b := by
  cases x with
  | error err => cases ran
  | ok a => exact ⟨a,rfl,ran⟩

variable {cluster}

-- The checks leave no quorum that the whole cluster could not form.
theorem validate_quorums (valid : cluster.validate = .ok ()) :
    (Quorum.new cluster.flexibleQuorum cluster.nodes.length).isPrepareQuorum cluster.nodes.length = true ∧
    (Quorum.new cluster.flexibleQuorum cluster.nodes.length).isAcceptQuorum cluster.nodes.length = true := by
  unfold ClusterConfig.validate at valid
  obtain ⟨_,several,valid⟩ := bind_ok valid
  obtain ⟨_,_,valid⟩ := bind_ok valid
  have some := of_decide_eq_true (validConfig_holds several)
  cases quorum : cluster.flexibleQuorum with
  | none =>
    have half : cluster.nodes.length/2+1 ≤ cluster.nodes.length := by omega
    exact ⟨decide_eq_true half,decide_eq_true half⟩
  | some sizes =>
    rw [quorum] at valid
    obtain ⟨_,_,valid⟩ := bind_ok valid
    obtain ⟨_,reads,valid⟩ := bind_ok valid
    obtain ⟨_,writes,_⟩ := bind_ok valid
    exact ⟨decide_eq_true (of_decide_eq_true (validConfig_holds reads)).2,
      decide_eq_true (of_decide_eq_true (validConfig_holds writes)).2⟩

theorem fresh_sound (valid : cluster.validate = .ok ()) (distinct : cluster.nodes.Nodup) :
    Sound cluster.nodes.get cluster.configurationId (freshElection cluster priorities) := by
  have asks : ∀ i, ∀ m ∈ (node (freshElection cluster priorities) i).outgoing,
      m.sender = cluster.nodes.get i ∧ m.msg = .request 1 := by
    intro i m member
    obtain ⟨peer,_,rfl⟩ := List.mem_map.mp member
    exact ⟨rfl,rfl⟩
  refine ⟨distinct.injective_get,fun _ => rfl,fun _ => ⟨rfl,rfl⟩,?_,fun _ => le_rfl,fun i => ⟨i,rfl,rfl,le_rfl⟩,?_,?_,?_,?_⟩
  · intro i
    have count := peers_count distinct (cluster.nodes.get_mem i)
    change (Quorum.new cluster.flexibleQuorum ((cluster.nodes.filter (· ≠ cluster.nodes.get i)).length+1)).isPrepareQuorum _ = true ∧
      (Quorum.new cluster.flexibleQuorum ((cluster.nodes.filter (· ≠ cluster.nodes.get i)).length+1)).isAcceptQuorum _ = true
    rw [count]
    exact validate_quorums valid
  · intro i m member round asked
    obtain ⟨sender,request⟩ := asks i m member
    cases request.symm.trans asked
    exact ⟨sender,Nat.le_refl _⟩
  · intro i m member reply answers
    cases (asks i m member).2.symm.trans answers
  · intro i m member reply answers
    cases (asks i m member).2.symm.trans answers
  · intro i reply member
    cases member

-- Whatever happened before, as long as priorities stay and promises are ballots of
-- the cluster: six rounds in which all nodes hear of each other elect one leader
-- for all of them, and it is the only one that any later such round returns.
theorem election_settles (valid : cluster.validate = .ok ()) (distinct : cluster.nodes.Nodup)
    (before : Runs step Undisturbed (freshElection cluster priorities) actions middle)
    (sweeps : List (List (Ballots.Act cluster.nodes.length))) (enough : 6 ≤ sweeps.length)
    (fair : ∀ sweep ∈ sweeps, Sweeps sweep) (path : Runs step Calm middle sweeps.flatten settled) :
    ∃ b k, (node settled k).currentBallot = b ∧ (∀ i, (node settled i).leader = b) ∧
      ∀ later final, Runs step Calm settled later final →
        (∀ i, (node final i).leader = b ∧ (node final i).currentBallot = (node settled i).currentBallot) ∧
        ∀ i state promise, Calm final (.timeout i state promise) →
          ((node final i).hbTimeout state promise).1 = if i = k then some b else none := by
  have sound := before.invariant (Sound cluster.nodes.get cluster.configurationId)
    (fun _ _ _ sound quiet ran => (sound_step sound quiet ran).1) (fresh_sound priorities valid distinct)
  have several : 0 < cluster.nodes.length := by
    unfold ClusterConfig.validate at valid
    obtain ⟨_,several,_⟩ := bind_ok valid
    exact Nat.lt_trans Nat.zero_lt_one (of_decide_eq_true (validConfig_holds several))
  obtain ⟨b,k,chosen⟩ := sweeps_elect sound ⟨0,several⟩ enough fair path
  refine ⟨b,k,chosen.holder,fun i => (chosen.follows i).1,fun later final further => ?_⟩
  obtain ⟨chosen',kept⟩ := further.invariant
    (fun c => Elected cluster.nodes.get cluster.configurationId b k c ∧
      ∀ i, (node c i).currentBallot = (node settled i).currentBallot)
    (fun c action next known calm ran => by
      obtain ⟨elected,same⟩ := elected_step known.1 calm ran
      exact ⟨elected,fun i => (same i).trans (known.2 i)⟩) ⟨chosen,fun _ => rfl⟩
  exact ⟨fun i => ⟨(chosen'.follows i).1,kept i⟩,fun i state promise calm => elected_returns chosen' calm⟩

end Fresh

-- Two nodes, of which the first loses every heartbeat of its first round.
def samplePair : ClusterConfig := ⟨1,[1,2],none⟩

def sampleFirst : Fin samplePair.nodes.length := ⟨0,by decide⟩
def sampleSecond : Fin samplePair.nodes.length := ⟨1,by decide⟩

def sampleTimeouts : List (Ballots.Act samplePair.nodes.length) :=
  (List.finRange samplePair.nodes.length).map fun i => .timeout i (.follower,.none) {}

-- Both ask, both answer, and both close the round.
def sampleSweep (p : Nat) : List (Ballots.Act samplePair.nodes.length) :=
  [.deliver sampleFirst (2*p+1) sampleSecond,.deliver sampleSecond (2*p+1) sampleFirst,
    .deliver sampleFirst (2*p+2) sampleSecond,.deliver sampleSecond (2*p+2) sampleFirst]++sampleTimeouts

def sampleSweeps : List (List (Ballots.Act samplePair.nodes.length)) := (List.range 6).map sampleSweep

theorem sampleSweeps_fair : ∀ sweep ∈ sampleSweeps, Sweeps sweep := by
  intro sweep member i
  obtain ⟨p,_,rfl⟩ := List.mem_map.mp member
  exact ⟨_,List.mem_append_right _ (List.mem_map_of_mem (List.mem_finRange i)),rfl⟩

theorem election_settles_pair : ∃ middle settled,
    Runs step Undisturbed (freshElection samplePair fun _ => 0) sampleTimeouts middle ∧
    Runs step Calm middle sampleSweeps.flatten settled ∧
    ∃ b k, (node settled k).currentBallot = b ∧ ∀ i, (node settled i).leader = b := by
  obtain ⟨middle,before,ran⟩ := run_reaches step Undisturbed
    (fun c => (run step Calm c sampleSweeps.flatten).isSome = true) (freshElection samplePair fun _ => 0) sampleTimeouts
    (by decide +kernel)
  obtain ⟨settled,ran⟩ := Option.isSome_iff_exists.mp ran
  obtain ⟨b,k,holder,leads,_⟩ := election_settles (fun _ => 0) (by rfl) (by decide) before sampleSweeps (by decide)
    sampleSweeps_fair (run_sound ran)
  exact ⟨middle,settled,before,run_sound ran,b,k,holder,leads⟩

end OmniPaxosKV.Convergence
