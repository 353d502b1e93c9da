import Mathlib.Data.List.Basic

-- Interleaving machines over arbitrary states and actions. A step function says
-- what one scheduled action does; `none` is an action that is not enabled.
namespace OmniPaxosKV.Machine

variable {State Action : Type*}

-- A run whose every step meets `allowed` in the state before it. The plain runs
-- of a machine are those with no side condition at all.
inductive Runs (step : State → Action → Option State) (allowed : State → Action → Prop) :
    State → List Action → State → Prop where
  | nil : Runs step allowed s [] s
  | snoc : Runs step allowed origin earlier middle → allowed middle action →
      step middle action = some after → Runs step allowed origin (earlier++[action]) after

abbrev Reaches (step : State → Action → Option State) : State → List Action → State → Prop :=
  Runs step (fun _ _ => True)

-- The one induction every run result goes through.
theorem Runs.invariant {step : State → Action → Option State} {allowed : State → Action → Prop}
    (valid : State → Prop)
    (preserved : ∀ s action next, valid s → allowed s action → step s action = some next → valid next)
    (path : Runs step allowed origin actions final) (start : valid origin) : valid final := by
  induction path with
  | nil => exact start
  | snoc _ meets ran ih => exact preserved _ _ _ ih meets ran

theorem Runs.append {step : State → Action → Option State} {allowed : State → Action → Prop}
    (left : Runs step allowed origin earlier middle) (right : Runs step allowed middle later final) :
    Runs step allowed origin (earlier++later) final := by
  induction right with
  | nil => rw [List.append_nil]; exact left
  | snoc _ meets ran ih =>
    rw [←List.append_assoc]
    exact .snoc ih meets ran

theorem Runs.weaken {step : State → Action → Option State} {allowed allowed' : State → Action → Prop}
    (path : Runs step allowed origin actions final) (implied : ∀ s action, allowed s action → allowed' s action) :
    Runs step allowed' origin actions final := by
  induction path with
  | nil => exact .nil
  | snoc _ meets ran ih => exact .snoc ih (implied _ _ meets) ran

-- Another side condition, where it follows in every state that the run passes.
theorem Runs.exchange {step : State → Action → Option State} {allowed allowed' : State → Action → Prop}
    (path : Runs step allowed origin actions final)
    (implied : ∀ earlier s action later next, actions = earlier++action::later → Reaches step origin earlier s →
      step s action = some next → allowed s action → allowed' s action) : Runs step allowed' origin actions final := by
  induction path with
  | nil => exact .nil
  | snoc earlier meets ran ih =>
    refine .snoc (ih ?_) (implied _ _ _ [] _ rfl (earlier.weaken fun _ _ _ => trivial) ran meets) ran
    intro first s action later next same
    exact implied first s action (later++[_]) next (by rw [same,List.append_assoc,List.cons_append])

-- What holds at the end of a run and not at its start began to hold at one of its steps.
theorem Runs.moment {step : State → Action → Option State} {allowed : State → Action → Prop} (property : State → Prop)
    (path : Runs step allowed origin actions final) (absent : ¬ property origin) (present : property final) :
    ∃ earlier action later before after, actions = earlier++action::later ∧
      Runs step allowed origin earlier before ∧ step before action = some after ∧
      Runs step allowed after later final ∧ ¬ property before ∧ property after := by
  induction path with
  | nil => exact absurd present absent
  | snoc path meets ran ih =>
    rename_i actions middle last after
    by_cases held : property middle
    · obtain ⟨earlier,action,later,before,next,same,first,moved,rest,unmet,met⟩ := ih held
      refine ⟨earlier,action,later++[last],before,next,?_,first,moved,.snoc rest meets ran,unmet,met⟩
      rw [same,List.append_assoc,List.cons_append]
    · exact ⟨actions,last,[],middle,after,rfl,path,ran,.nil,held,present⟩

-- What a participant reaches with its own action and keeps from then on, it has
-- reached at the end of every run in which it acts.
theorem Runs.sweep {ι : Type*} {step : State → Action → Option State} {allowed : State → Action → Prop}
    (acts : ι → Action → Prop) (valid : State → Prop) (settled : ι → State → Prop)
    (preserved : ∀ s action next, valid s → allowed s action → step s action = some next → valid next)
    (reached : ∀ i s action next, valid s → allowed s action → step s action = some next →
      acts i action ∨ settled i s → settled i next)
    (path : Runs step allowed origin actions final) (start : valid origin) :
    valid final ∧ ∀ i, (∃ action ∈ actions, acts i action) → settled i final := by
  induction path with
  | nil => exact ⟨start,fun i ⟨_,member,_⟩ => absurd member List.not_mem_nil⟩
  | snoc _ meets ran ih =>
    obtain ⟨known,done⟩ := ih
    refine ⟨preserved _ _ _ known meets ran,?_⟩
    rintro i ⟨action,member,acted⟩
    refine reached i _ _ _ known meets ran ?_
    rcases List.mem_append.mp member with earlier | last
    · exact .inr (done i ⟨action,earlier,acted⟩)
    · cases List.mem_singleton.mp last
      exact .inl acted

-- An invariant of a run together with the schedule that led to it.
theorem Runs.recorded {step : State → Action → Option State} {allowed : State → Action → Prop}
    (valid : List Action → State → Prop)
    (preserved : ∀ actions s action next, Runs step allowed origin actions s → valid actions s →
      step s action = some next → valid (actions++[action]) next)
    (path : Runs step allowed origin actions final) (start : valid [] origin) : valid actions final := by
  induction path with
  | nil => exact start
  | snoc path _ ran ih => exact preserved _ _ _ _ path ih ran

-- A step of the run that led here, told with the schedule before it.
def Past (step : State → Action → Option State) (origin : State)
    (event : List Action → State → Action → State → Prop) (actions : List Action) (final : State) : Prop :=
  ∃ earlier action later before after, actions = earlier++action::later ∧
    Reaches step origin earlier before ∧ step before action = some after ∧
    Reaches step after later final ∧ event earlier before action after

theorem Past.snoc {step : State → Action → Option State} {event : List Action → State → Action → State → Prop}
    (past : Past step origin event actions s) (ran : step s action = some next) :
    Past step origin event (actions++[action]) next := by
  obtain ⟨earlier,taken,later,before,after,same,first,moved,rest,met⟩ := past
  refine ⟨earlier,taken,later++[action],before,after,?_,first,moved,.snoc rest trivial ran,met⟩
  rw [same,List.append_assoc,List.cons_append]

theorem Past.last {step : State → Action → Option State} {event : List Action → State → Action → State → Prop}
    (path : Reaches step origin actions s) (ran : step s action = some next) (met : event actions s action next) :
    Past step origin event (actions++[action]) next :=
  ⟨actions,action,[],s,next,rfl,path,ran,.nil,met⟩

-- The executable reading of a schedule, with the side condition checked as it runs.
def run (step : State → Action → Option State) (allowed : State → Action → Prop)
    [∀ s action, Decidable (allowed s action)] (s : State) : List Action → Option State
  | [] => some s
  | action::rest => if allowed s action then (step s action).bind (run step allowed · rest) else none

theorem run_sound {step : State → Action → Option State} {allowed : State → Action → Prop}
    [∀ s action, Decidable (allowed s action)]
    (ran : run step allowed s actions = some final) : Runs step allowed s actions final := by
  induction actions generalizing s with
  | nil => cases Option.some.inj ran; exact .nil
  | cons action rest ih =>
    simp only [run] at ran
    split at ran
    · rename_i meets
      obtain ⟨middle,first,later⟩ := Option.bind_eq_some_iff.mp ran
      exact (Runs.snoc .nil meets first).append (ih later)
    · cases ran

-- A schedule that ends in a state with a decidable property, found by evaluation.
theorem run_reaches (step : State → Action → Option State) (allowed : State → Action → Prop)
    [∀ s action, Decidable (allowed s action)] (property : State → Prop) [DecidablePred property]
    (s : State) (actions : List Action)
    (ran : (run step allowed s actions).any (fun final => decide (property final)) = true) :
    ∃ final, Runs step allowed s actions final ∧ property final := by
  cases result : run step allowed s actions with
  | none => simp [result] at ran
  | some final => exact ⟨final,run_sound result,by simpa [result] using ran⟩

-- The states a schedule passes through, first to last.
def visited (step : State → Action → Option State) (s : State) : List Action → List State
  | [] => [s]
  | action::rest => s::match step s action with
    | none => []
    | some next => visited step next rest

theorem mem_visited (step : State → Action → Option State) (s : State) (actions : List Action) :
    s ∈ visited step s actions := by
  cases actions <;> exact List.mem_cons_self

theorem Runs.empty {step : State → Action → Option State} {allowed : State → Action → Prop}
    (path : Runs step allowed s [] final) : final = s := by
  generalize none : ([] : List Action) = actions at path
  cases path with
  | nil => rfl
  | snoc => simp at none

theorem Runs.cons {step : State → Action → Option State} {allowed : State → Action → Prop}
    (path : Runs step allowed s (action::rest) final) :
    allowed s action ∧ ∃ next, step s action = some next ∧ Runs step allowed next rest final := by
  generalize same : action::rest = actions at path
  induction path generalizing rest with
  | nil => cases same
  | snoc earlier meets ran ih =>
    rename_i actions _ last _
    cases actions with
    | nil =>
      cases same
      cases earlier.empty
      exact ⟨meets,_,ran,.nil⟩
    | cons first others =>
      cases same
      obtain ⟨meets',next,ran',path⟩ := ih rfl
      exact ⟨meets',next,ran',.snoc path meets ran⟩

theorem Runs.split {step : State → Action → Option State} {allowed : State → Action → Prop}
    (path : Runs step allowed s (earlier++later) final) :
    ∃ middle, Runs step allowed s earlier middle ∧ Runs step allowed middle later final := by
  induction earlier generalizing s with
  | nil => exact ⟨s,.nil,path⟩
  | cons action rest ih =>
    obtain ⟨meets,next,ran,others⟩ := Runs.cons path
    obtain ⟨middle,first,second⟩ := ih others
    exact ⟨middle,(Runs.snoc .nil meets ran).append first,second⟩

-- Stages that build on one another: the first sweep settles the first stage for
-- every participant, the next sweep the next stage, and none is lost again.
theorem Runs.stages {ι : Type*} {step : State → Action → Option State} {allowed : State → Action → Prop}
    (acts : ι → Action → Prop) (valid : State → Prop) (settled : ℕ → ι → State → Prop)
    (preserved : ∀ s action next, valid s → allowed s action → step s action = some next → valid next)
    (reached : ∀ stage i s action next, valid s → (∀ before < stage, ∀ j, settled before j s) → allowed s action →
      step s action = some next → acts i action ∨ settled stage i s → settled stage i next)
    {sweeps : List (List Action)} (fair : ∀ sweep ∈ sweeps, ∀ i, ∃ action ∈ sweep, acts i action)
    (path : Runs step allowed origin sweeps.flatten final) (start : valid origin) :
    valid final ∧ ∀ stage < sweeps.length, ∀ i, settled stage i final := by
  suffices held : ∀ done, (∀ stage < done, ∀ i, settled stage i origin) →
      valid final ∧ ∀ stage < done+sweeps.length, ∀ i, settled stage i final by
    obtain ⟨kept,all⟩ := held 0 fun _ none => absurd none (Nat.not_lt_zero _)
    exact ⟨kept,by rwa [Nat.zero_add] at all⟩
  induction sweeps generalizing origin with
  | nil =>
    intro done earlier
    cases path.empty
    exact ⟨start,earlier⟩
  | cons sweep rest ih =>
    intro done earlier
    obtain ⟨middle,first,later⟩ := Runs.split path
    obtain ⟨⟨known,before⟩,acted⟩ := first.sweep acts (fun s => valid s ∧ ∀ stage < done, ∀ i, settled stage i s)
      (settled done)
      (fun s action next known meets ran => by
        refine ⟨preserved s action next known.1 meets ran,fun stage less i => ?_⟩
        exact reached stage i s action next known.1 (fun before lower => known.2 before (Nat.lt_trans lower less)) meets ran
          (.inr (known.2 stage less i)))
      (fun i s action next known => reached done i s action next known.1 known.2) ⟨start,earlier⟩
    have next := ih (fun other member => fair other (List.mem_cons_of_mem _ member)) later known (done+1)
      (fun stage less i => by
        rcases Nat.lt_succ_iff_lt_or_eq.mp less with old | rfl
        · exact before stage old i
        · exact acted i (fair sweep List.mem_cons_self i))
    rwa [List.length_cons,Nat.add_comm rest.length,←Nat.add_assoc]

-- Where some allowed run always brings what is left to do down, a run finishes it.
theorem Runs.exhaust {step : State → Action → Option State} {allowed : State → Action → Prop}
    (valid finished : State → Prop) (left : State → Nat)
    (advance : ∀ s, valid s → ¬ finished s → ∃ actions next, Runs step allowed s actions next ∧
      valid next ∧ left next < left s) (start : valid s) :
    ∃ actions final, Runs step allowed s actions final ∧ valid final ∧ finished final := by
  induction remaining : left s using Nat.strongRecOn generalizing s with
  | ind count ih =>
    by_cases ends : finished s
    · exact ⟨[],s,.nil,start,ends⟩
    · obtain ⟨first,next,path,known,less⟩ := advance s start ends
      obtain ⟨later,final,rest,last⟩ := ih (left next) (remaining ▸ less) known rfl
      exact ⟨first++later,final,path.append rest,last⟩

-- What can be brought about for each one of several, and is not undone by any step, can
-- be brought about for all of them in one run.
theorem Runs.traverse {ι : Type*} {step : State → Action → Option State} {allowed : State → Action → Prop}
    (valid : State → Prop) (settled : ι → State → Prop) (items : List ι)
    (preserved : ∀ s action next, valid s → allowed s action → step s action = some next → valid next)
    (retained : ∀ i s action next, valid s → step s action = some next → settled i s → settled i next)
    (achieve : ∀ i ∈ items, ∀ s, valid s → ∃ actions next, Runs step allowed s actions next ∧ settled i next)
    (start : valid s) :
    ∃ actions final, Runs step allowed s actions final ∧ valid final ∧ ∀ i ∈ items, settled i final := by
  induction items generalizing s with
  | nil => exact ⟨[],s,.nil,start,nofun⟩
  | cons i rest ih =>
    obtain ⟨first,middle,path,now⟩ := achieve i List.mem_cons_self s start
    have known := path.invariant valid preserved start
    obtain ⟨later,final,path',last,others⟩ := ih (fun j member => achieve j (List.mem_cons_of_mem _ member)) known
    refine ⟨first++later,final,path.append path',last,?_⟩
    intro j member
    rcases List.mem_cons.mp member with rfl | other
    · refine (path'.invariant (fun s => valid s ∧ settled j s) ?_ ⟨known,now⟩).2
      intro s action next held meets ran
      exact ⟨preserved s action next held.1 meets ran,retained j s action next held.1 ran held.2⟩
    · exact others j other

-- A side condition of the whole run, at one of its steps.
theorem Runs.meets {step : State → Action → Option State} {allowed : State → Action → Prop}
    (runs : Runs step allowed origin (earlier++action::later) final) (path : Reaches step origin earlier s) :
    allowed s action := by
  induction earlier generalizing origin with
  | nil =>
    cases path.empty
    exact runs.cons.1
  | cons first rest ih =>
    obtain ⟨_,next,ran,path⟩ := path.cons
    obtain ⟨_,next',ran',runs⟩ := runs.cons
    cases Option.some.inj (ran.symm.trans ran')
    exact ih runs path

theorem Runs.visited_final {step : State → Action → Option State} {allowed : State → Action → Prop}
    (path : Runs step allowed s actions final) : final ∈ visited step s actions := by
  induction actions generalizing s with
  | nil =>
    cases path.empty
    exact mem_visited ..
  | cons action rest ih =>
    obtain ⟨_,next,ran,later⟩ := path.cons
    simp only [visited,ran]
    exact List.mem_cons_of_mem _ (ih later)

theorem run_complete {step : State → Action → Option State} {allowed : State → Action → Prop}
    [∀ s action, Decidable (allowed s action)] (path : Runs step allowed s actions final) :
    run step allowed s actions = some final := by
  induction actions generalizing s with
  | nil =>
    cases path.empty
    rfl
  | cons action rest ih =>
    obtain ⟨meets,next,ran,later⟩ := path.cons
    simp only [run,if_pos meets,ran,Option.bind_some]
    exact ih later

-- A measure grows along a whole run exactly when every step meets the condition
-- under which it does not let the measure fall.
theorem grows_iff {step : State → Action → Option State} {allowed : State → Action → Prop} (measure : State → Nat)
    (valid : State → Prop) (preserved : ∀ s action next, valid s → step s action = some next → valid next)
    (exact : ∀ s action next, valid s → step s action = some next → (measure s ≤ measure next ↔ allowed s action))
    (path : Reaches step s actions final) (start : valid s) :
    ((visited step s actions).map measure).Pairwise (· ≤ ·) ↔ Runs step allowed s actions final := by
  induction actions generalizing s with
  | nil =>
    cases path.empty
    exact ⟨fun _ => .nil,fun _ => List.pairwise_singleton _ _⟩
  | cons action rest ih =>
    obtain ⟨_,next,ran,later⟩ := path.cons
    have tail := ih later (preserved _ _ _ start ran)
    have one := exact _ _ _ start ran
    simp only [visited,ran,List.map_cons,List.pairwise_cons]
    constructor
    · intro held
      have first := held.1 (measure next) (List.mem_map_of_mem (mem_visited ..))
      exact (Runs.snoc .nil (one.mp first) ran).append (tail.mp held.2)
    · intro runs
      obtain ⟨meets,next',ran',rest'⟩ := runs.cons
      cases Option.some.inj (ran.symm.trans ran')
      have sorted := tail.mpr rest'
      refine ⟨?_,sorted⟩
      intro value member
      refine Nat.le_trans (one.mpr meets) ?_
      cases rest with
      | nil => exact Nat.le_of_eq (List.mem_singleton.mp member).symm
      | cons other others =>
        simp only [visited,List.map_cons,List.pairwise_cons,List.mem_cons] at sorted member
        rcases member with rfl | later
        · exact Nat.le_refl _
        · exact sorted.1 value later

-- A failure that no later step leaves behind is absent at the end of a run
-- exactly when every step met the condition that avoids it. The run may be known to
-- meet another.
theorem Runs.safe_iff {step : State → Action → Option State} {known allowed : State → Action → Prop}
    (good valid : State → Prop)
    (preserved : ∀ s action next, valid s → known s action → step s action = some next → valid next)
    (exact : ∀ s action next, valid s → known s action → step s action = some next → (good next ↔ allowed s action))
    (lasting : ∀ s action next, step s action = some next → good s)
    (path : Runs step known origin actions final) (start : valid origin) (unharmed : good origin) :
    good final ↔ Runs step allowed origin actions final := by
  induction path with
  | nil => exact ⟨fun _ => .nil,fun _ => unharmed⟩
  | snoc earlier meets ran ih =>
    have held := earlier.invariant valid preserved start
    constructor
    · intro last
      exact .snoc (ih.mp (lasting _ _ _ ran)) ((exact _ _ _ held meets ran).mp last) ran
    · intro runs
      exact (exact _ _ _ held meets ran).mpr (runs.meets (earlier.weaken fun _ _ _ => trivial))

theorem safe_iff {step : State → Action → Option State} {allowed : State → Action → Prop} (good valid : State → Prop)
    (preserved : ∀ s action next, valid s → step s action = some next → valid next)
    (exact : ∀ s action next, valid s → step s action = some next → (good next ↔ allowed s action))
    (lasting : ∀ s action next, step s action = some next → good s)
    (path : Reaches step origin actions final) (start : valid origin) (unharmed : good origin) :
    good final ↔ Runs step allowed origin actions final :=
  path.safe_iff good valid (fun _ _ _ held _ ran => preserved _ _ _ held ran) (fun _ _ _ held _ ran => exact _ _ _ held ran)
    lasting start unharmed

-- A property holds in every state of a run exactly when every step meets the
-- condition under which it keeps the property. The run may be known to meet another.
theorem visited_iff {step : State → Action → Option State} {known allowed : State → Action → Prop}
    (good valid : State → Prop)
    (preserved : ∀ s action next, valid s → known s action → step s action = some next → valid next)
    (exact : ∀ s action next, valid s → good s → known s action → step s action = some next →
      (good next ↔ allowed s action))
    (path : Runs step known s actions final) (start : valid s) (first : good s) :
    (∀ state ∈ visited step s actions, good state) ↔ Runs step allowed s actions final := by
  induction actions generalizing s with
  | nil =>
    cases path.empty
    refine ⟨fun _ => .nil,fun _ state member => ?_⟩
    cases List.mem_singleton.mp member
    exact first
  | cons action rest ih =>
    obtain ⟨meets,next,ran,later⟩ := path.cons
    have one := exact _ _ _ start first meets ran
    have still := preserved _ _ _ start meets ran
    simp only [visited,ran,List.mem_cons,forall_eq_or_imp]
    constructor
    · rintro ⟨_,all⟩
      have kept := all next (mem_visited ..)
      exact (Runs.snoc .nil (one.mp kept) ran).append ((ih later still kept).mp all)
    · intro runs
      obtain ⟨meets',next',ran',rest'⟩ := runs.cons
      cases Option.some.inj (ran.symm.trans ran')
      exact ⟨first,(ih later still (one.mpr meets')).mpr rest'⟩

-- What is lost for good once lost is there at the end of a run exactly when every
-- step met the condition that keeps it.
theorem lasting_iff {step : State → Action → Option State} {allowed : State → Action → Prop} (good : State → Prop)
    (exact : ∀ s action next, good s → step s action = some next → (good next ↔ allowed s action))
    (lasting : ∀ s action next, step s action = some next → good next → good s)
    (path : Reaches step origin actions final) (start : good origin) :
    good final ↔ Runs step allowed origin actions final := by
  induction path with
  | nil => exact ⟨fun _ => .nil,fun _ => start⟩
  | snoc earlier _ ran ih =>
    constructor
    · intro held
      have before := lasting _ _ _ ran held
      exact .snoc (ih.mp before) ((exact _ _ _ before ran).mp held) ran
    · intro runs
      exact runs.invariant good (fun _ _ _ known meets ran => (exact _ _ _ known ran).mpr meets) start

theorem visited_all {step : State → Action → Option State} (valid : State → Prop)
    (preserved : ∀ s action next, valid s → step s action = some next → valid next) (start : valid s) :
    ∀ state ∈ visited step s actions, valid state := by
  induction actions generalizing s with
  | nil =>
    intro state member
    cases List.mem_singleton.mp member
    exact start
  | cons action rest ih =>
    intro state member
    simp only [visited,List.mem_cons] at member
    rcases member with rfl | later
    · exact start
    · split at later
      · cases later
      · exact ih (preserved _ _ _ start ‹_›) state later

-- Records that only ever get longer at their end.
theorem getElem?_grown {l m : List α} {k : Nat} (grows : l <+: m) (found : l[k]? = some a) : m[k]? = some a := by
  obtain ⟨rest,rfl⟩ := grows
  exact (List.getElem?_append_left (List.getElem?_eq_some_iff.mp found).1).trans found

theorem getElem?_concat_cases {l : List α} {k : Nat} (found : (l++[a])[k]? = some b) :
    l[k]? = some b ∨ (k = l.length ∧ b = a) := by
  rw [List.getElem?_append] at found
  split at found
  · exact .inl found
  · rw [List.getElem?_singleton] at found
    split at found
    · cases found
      exact .inr ⟨by omega,rfl⟩
    · cases found

end OmniPaxosKV.Machine
