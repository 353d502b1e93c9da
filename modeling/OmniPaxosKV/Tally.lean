import Mathlib.Data.Finset.Card
import OmniPaxosKV.KeyMap
import OmniPaxosKV.Machine

-- Counting papers in a shared map whose entries are read and written back in
-- separate steps. An entry is a count and the first mark seen; the paper whose
-- entry is large enough and marked wins, and may delete the entry afterwards.
namespace OmniPaxosKV.Tally
open Machine

abbrev Entry (Mark : Type) := Nat × Option Mark

inductive Phase (Mark : Type) where
  | waiting
  | read (stored : Option (Entry Mark))
  | cast

structure State (Paper Key Mark : Type) where
  received : List Paper := []
  phase : Nat → Phase Mark := fun _ => .waiting
  db : KeyMap Key (Entry Mark) := .empty
  winners : List Nat := []

inductive Act (Paper : Type) where
  | receive (paper : Paper)
  | get (number : Nat)
  | put (number : Nat)
  | delete (number : Nat)

def count (stored : Option (Entry Mark)) (mark : Option Mark) : Entry Mark :=
  match stored with
  | some (counter,first) => (counter+1,if first.isSome then first else mark)
  | none => (1,mark)

def Complete (quorum : Nat) (entry : Entry Mark) : Prop := quorum ≤ entry.1 ∧ entry.2.isSome = true

instance (quorum : Nat) (entry : Entry Mark) : Decidable (Complete quorum entry) :=
  inferInstanceAs (Decidable (_ ∧ _))

section Machine
variable {Paper Key Mark : Type} [DecidableEq Key] (key : Paper → Key) (mark : Paper → Option Mark) (quorum : Nat)

def castPaper (s : State Paper Key Mark) (number : Nat) (paper : Paper) (stored : Option (Entry Mark)) :
    State Paper Key Mark :=
  let entry := count stored (mark paper)
  {s with
    phase:=Function.update s.phase number .cast
    db:=s.db.insert (key paper) entry
    winners:=if Complete quorum entry then s.winners++[number] else s.winners}

def step (s : State Paper Key Mark) : Act Paper → Option (State Paper Key Mark)
  | .receive paper => some {s with received:=s.received++[paper]}
  | .get number => match s.received[number]?,s.phase number with
    | some paper,.waiting => some {s with phase:=Function.update s.phase number (.read (s.db (key paper)))}
    | _,_ => none
  | .put number => match s.received[number]?,s.phase number with
    | some paper,.read stored => some (castPaper key mark quorum s number paper stored)
    | _,_ => none
  | .delete number => match s.received[number]? with
    | some paper => if number ∈ s.winners then some {s with db:=s.db.remove (key paper)} else none
    | none => none

inductive Step : State Paper Key Mark → Act Paper → State Paper Key Mark → Prop where
  | receive : Step s (.receive paper) {s with received:=s.received++[paper]}
  | get (found : s.received[number]? = some paper) (waits : s.phase number = .waiting) :
      Step s (.get number) {s with phase:=Function.update s.phase number (.read (s.db (key paper)))}
  | put (found : s.received[number]? = some paper) (reads : s.phase number = .read stored) :
      Step s (.put number) (castPaper key mark quorum s number paper stored)
  | delete (found : s.received[number]? = some paper) (won : number ∈ s.winners) :
      Step s (.delete number) {s with db:=s.db.remove (key paper)}

variable {key mark quorum}

theorem step_sound (ran : step key mark quorum s action = some next) : Step key mark quorum s action next := by
  cases action with
  | receive paper => cases Option.some.inj ran; exact .receive
  | get number =>
    simp only [step] at ran
    split at ran
    · cases Option.some.inj ran; exact .get ‹_› ‹_›
    · cases ran
  | put number =>
    simp only [step] at ran
    split at ran
    · cases Option.some.inj ran; exact .put ‹_› ‹_›
    · cases ran
  | delete number =>
    simp only [step] at ran
    split at ran
    · split at ran
      · cases Option.some.inj ran; exact .delete ‹_› ‹_›
      · cases ran
    · cases ran

end Machine

section Evidence
variable {Paper Key Mark : Type} (key : Paper → Key) (mark : Paper → Option Mark)

-- A paper for `k` that has been counted.
def Counted (s : State Paper Key Mark) (k : Key) (number : Nat) : Prop :=
  (∃ paper, s.received[number]? = some paper ∧ key paper = k) ∧ s.phase number = .cast

def Marked (s : State Paper Key Mark) (number : Nat) : Prop :=
  ∃ paper, s.received[number]? = some paper ∧ (mark paper).isSome = true

-- Different counted papers for every unit of the count, one of them marked if the entry is.
def Backed (s : State Paper Key Mark) (k : Key) (entry : Entry Mark) : Prop :=
  ∃ papers : Finset Nat, (∀ number ∈ papers, Counted key s k number) ∧ entry.1 ≤ papers.card ∧
    (entry.2.isSome = true → ∃ number ∈ papers, Marked mark s number)

-- What stays true of papers once received and once counted.
structure Later (s next : State Paper Key Mark) : Prop where
  received : ∀ {number : Nat} {paper}, s.received[number]? = some paper → next.received[number]? = some paper
  cast : ∀ {number : Nat}, s.phase number = .cast → next.phase number = .cast

variable {key mark}

theorem Later.counted {s next : State Paper Key Mark} (later : Later s next) (counted : Counted key s k number) :
    Counted key next k number := by
  obtain ⟨⟨paper,found,same⟩,cast⟩ := counted
  exact ⟨⟨paper,later.received found,same⟩,later.cast cast⟩

theorem Later.marked {s next : State Paper Key Mark} (later : Later s next) (marked : Marked mark s number) :
    Marked mark next number := by
  obtain ⟨paper,found,some⟩ := marked
  exact ⟨paper,later.received found,some⟩

theorem Later.backed {s next : State Paper Key Mark} (later : Later s next) (backed : Backed key mark s k entry) :
    Backed key mark next k entry := by
  obtain ⟨papers,counted,enough,marked⟩ := backed
  refine ⟨papers,fun number member => later.counted (counted number member),enough,?_⟩
  intro some
  obtain ⟨number,member,has⟩ := marked some
  exact ⟨number,member,later.marked has⟩

variable [DecidableEq Key] {quorum : Nat}

theorem step_later (step : Step key mark quorum s action next) : Later s next := by
  cases step with
  | receive => exact ⟨fun found => getElem?_grown (List.prefix_append ..) found,id⟩
  | get found waits =>
    rename_i number paper
    refine ⟨id,?_⟩
    intro other cast
    have distinct : other ≠ number := by rintro rfl; rw [waits] at cast; cases cast
    exact (Function.update_of_ne distinct ..).trans cast
  | put found reads =>
    rename_i number paper stored
    refine ⟨id,?_⟩
    intro other cast
    have distinct : other ≠ number := by rintro rfl; rw [reads] at cast; cases cast
    exact (Function.update_of_ne distinct ..).trans cast
  | delete found won => exact ⟨id,id⟩

omit [DecidableEq Key] in
-- Counting one more paper on top of what its reader saw.
theorem backed_count {s next : State Paper Key Mark} (later : Later s next)
    (found : s.received[number]? = some paper) (fresh : s.phase number ≠ .cast) (now : next.phase number = .cast)
    (backed : ∀ entry, stored = some entry → Backed key mark s (key paper) entry) :
    Backed key mark next (key paper) (count stored (mark paper)) := by
  have counted : Counted key next (key paper) number := ⟨⟨paper,later.received found,rfl⟩,now⟩
  have own : (mark paper).isSome = true → Marked mark next number := fun some => ⟨paper,later.received found,some⟩
  cases stored with
  | none =>
    refine ⟨{number},?_,Nat.le_refl 1,?_⟩
    · intro other member
      cases Finset.mem_singleton.mp member
      exact counted
    · intro some
      exact ⟨number,Finset.mem_singleton_self _,own some⟩
  | some entry =>
    obtain ⟨papers,all,enough,marked⟩ := backed entry rfl
    have absent : number ∉ papers := fun member => fresh (all number member).2
    refine ⟨insert number papers,?_,?_,?_⟩
    · intro other member
      rcases Finset.mem_insert.mp member with rfl | old
      · exact counted
      · exact later.counted (all other old)
    · rw [Finset.card_insert_of_notMem absent]
      exact Nat.succ_le_succ enough
    · intro some
      by_cases first : entry.2.isSome = true
      · obtain ⟨other,member,has⟩ := marked first
        exact ⟨other,Finset.mem_insert_of_mem member,later.marked has⟩
      · simp only [count,first,Bool.false_eq_true,if_false] at some
        exact ⟨number,Finset.mem_insert_self ..,own some⟩

variable (key mark quorum) in
structure Sound (s : State Paper Key Mark) : Prop where
  stored : ∀ k entry, s.db k = some entry → Backed key mark s k entry
  read : ∀ {number : Nat} {paper entry}, s.received[number]? = some paper → s.phase number = .read (some entry) →
    Backed key mark s (key paper) entry
  won : ∀ number ∈ s.winners, ∃ paper, s.received[number]? = some paper ∧
    ∃ entry, Complete quorum entry ∧ Backed key mark s (key paper) entry
  unread : ∀ number, s.received.length ≤ number → s.phase number = .waiting

omit [DecidableEq Key] in
theorem sound_initial : Sound key mark quorum {} := by
  refine ⟨?_,?_,?_,fun _ _ => rfl⟩
  · intro k entry found; cases found
  · intro number paper entry found; simp at found
  · intro number member; cases member

omit [DecidableEq Key] in
theorem Sound.unreadAfter {s : State Paper Key Mark} (sound : Sound key mark quorum s)
    (found : s.received[number]? = some paper) (beyond : s.received.length ≤ other) (phase : Phase Mark) :
    Function.update s.phase number phase other = .waiting := by
  have distinct : other ≠ number := by
    intro equal
    subst equal
    exact Nat.not_lt.mpr beyond (List.getElem?_eq_some_iff.mp found).1
  exact (Function.update_of_ne distinct ..).trans (sound.unread other beyond)

omit [DecidableEq Key] in
theorem Sound.winners {s next : State Paper Key Mark} (sound : Sound key mark quorum s) (later : Later s next) :
    ∀ number ∈ s.winners, ∃ paper, next.received[number]? = some paper ∧
      ∃ entry, Complete quorum entry ∧ Backed key mark next (key paper) entry := by
  intro number member
  obtain ⟨paper,found,entry,complete,backed⟩ := sound.won number member
  exact ⟨paper,later.received found,entry,complete,later.backed backed⟩

theorem sound_put (sound : Sound key mark quorum s) (found : s.received[number]? = some paper)
    (reads : s.phase number = .read stored) : Sound key mark quorum (castPaper key mark quorum s number paper stored) := by
  have put : Step key mark quorum s (.put number) _ := .put found reads
  have later := step_later put
  have fresh : s.phase number ≠ .cast := by rw [reads]; exact nofun
  have grown : Backed key mark (castPaper key mark quorum s number paper stored) (key paper)
      (count stored (mark paper)) := by
    refine backed_count later found fresh (Function.update_self ..) ?_
    intro entry equal
    subst equal
    exact sound.read found reads
  refine ⟨?_,?_,?_,fun other beyond => sound.unreadAfter found beyond _⟩
  · intro k entry present
    simp only [castPaper,KeyMap.insert_apply] at present
    split at present
    · rename_i same
      cases present
      rw [same]
      exact grown
    · exact later.backed (sound.stored k entry present)
  · intro other paper' entry found' reads'
    by_cases same : other = number
    · subst other
      simp only [castPaper,Function.update_self] at reads'
      cases reads'
    · exact later.backed (sound.read found' ((Function.update_of_ne same ..).symm.trans reads'))
  · intro other member
    simp only [castPaper] at member
    split at member
    · rcases List.mem_append.mp member with old | new
      · exact sound.winners later other old
      · cases List.mem_singleton.mp new
        exact ⟨paper,found,_,‹_›,grown⟩
    · exact sound.winners later other member

theorem sound_step (sound : Sound key mark quorum s) (ran : Step key mark quorum s action next) :
    Sound key mark quorum next := by
  have later := step_later ran
  cases ran with
  | receive =>
    refine ⟨fun k entry found => later.backed (sound.stored k entry found),?_,sound.winners later,?_⟩
    · intro number paper entry found reads
      have inside : number < s.received.length := by
        by_contra outside
        rw [sound.unread number (Nat.le_of_not_lt outside)] at reads
        cases reads
      exact later.backed (sound.read ((List.getElem?_append_left inside).symm.trans found) reads)
    · intro number beyond
      rw [List.length_append] at beyond
      exact sound.unread number (Nat.le_trans (Nat.le_add_right ..) beyond)
  | get found waits =>
    rename_i number paper
    refine ⟨fun k entry stored => later.backed (sound.stored k entry stored),?_,sound.winners later,
      fun other beyond => sound.unreadAfter found beyond _⟩
    intro other paper' entry found' reads
    by_cases same : other = number
    · subst other
      cases found.symm.trans found'
      simp only [Function.update_self,Phase.read.injEq] at reads
      exact later.backed (sound.stored _ _ reads)
    · exact later.backed (sound.read found' ((Function.update_of_ne same ..).symm.trans reads))
  | put found reads => exact sound_put sound found reads
  | delete found wins =>
    refine ⟨?_,sound.read,sound.won,sound.unread⟩
    intro k entry present
    simp only [KeyMap.remove_apply] at present
    split at present
    · cases present
    · exact sound.stored k entry present

theorem sound_runs (path : Runs (step key mark quorum) allowed {} actions s) : Sound key mark quorum s :=
  path.invariant (Sound key mark quorum) (fun _ _ _ sound _ ran => sound_step sound (step_sound ran)) sound_initial

-- A paper is written back over the very entry it was read from.
variable (key) in
def Undisturbed (s : State Paper Key Mark) : Act Paper → Prop
  | .put number => ∀ paper stored, s.received[number]? = some paper → s.phase number = .read stored →
      s.db (key paper) = stored
  | _ => True

-- A paper is not added to an entry that is already complete.
variable (quorum) in
def Unfinished (s : State Paper Key Mark) : Act Paper → Prop
  | .put number => ∀ entry, s.phase number = .read (some entry) → ¬ Complete quorum entry
  | _ => True

variable (key) in
def Won (s : State Paper Key Mark) (k : Key) : Prop :=
  ∃ number ∈ s.winners, ∃ paper, s.received[number]? = some paper ∧ key paper = k

variable (key) in
def winnerKeys (s : State Paper Key Mark) : List Key :=
  s.winners.filterMap fun number => s.received[number]?.map key

-- No two papers for one key are marked.
variable (key mark) in
def Single (s : State Paper Key Mark) : Prop :=
  ∀ (number other : Nat) paper paper', s.received[number]? = some paper → s.received[other]? = some paper' →
    key paper = key paper' → (mark paper).isSome = true → (mark paper').isSome = true → number = other

variable (key mark quorum) in
structure Once (s : State Paper Key Mark) : Prop where
  spent : ∀ k, Won key s k → ∀ number paper, s.received[number]? = some paper → key paper = k →
    (mark paper).isSome = true → s.phase number = .cast
  complete : ∀ k, Won key s k → ∀ entry, s.db k = some entry → entry.2.isSome = true → Complete quorum entry
  once : (winnerKeys key s).Nodup

omit [DecidableEq Key] in
theorem mem_winnerKeys {s : State Paper Key Mark} : k ∈ winnerKeys key s ↔ Won key s k := by
  simp only [winnerKeys,Won,List.mem_filterMap,Option.map_eq_some_iff]

omit [DecidableEq Key] in
theorem Later.single {s next : State Paper Key Mark} (later : Later s next) (single : Single key mark next) :
    Single key mark s :=
  fun _ _ _ _ found found' => single _ _ _ _ (later.received found) (later.received found')

omit [DecidableEq Key] in
theorem won_counted (sound : Sound key mark quorum s) (won : Won key s k) :
    ∃ number, Counted key s k number ∧ Marked mark s number := by
  obtain ⟨number,member,paper,found,rfl⟩ := won
  obtain ⟨paper',found',entry,complete,papers,counted,_,marked⟩ := sound.won number member
  cases found.symm.trans found'
  obtain ⟨other,present,some⟩ := marked complete.2
  exact ⟨other,counted other present,some⟩

omit [DecidableEq Key] in
-- The winners' papers are there already, so a new paper changes nothing about them.
theorem receive_winnerKeys (sound : Sound key mark quorum s) :
    winnerKeys key {s with received:=s.received++[paper]} = winnerKeys key s := by
  apply List.filterMap_congr
  intro number member
  obtain ⟨_,found,_⟩ := sound.won number member
  rw [List.getElem?_append_left (List.getElem?_eq_some_iff.mp found).1]

theorem once_receive (sound : Sound key mark quorum s) (single : Single key mark {s with received:=s.received++[paper]})
    (once : Once key mark quorum s) : Once key mark quorum {s with received:=s.received++[paper]} := by
  have keys : winnerKeys key {s with received:=s.received++[paper]} = winnerKeys key s := receive_winnerKeys sound
  have back : ∀ k, Won key {s with received:=s.received++[paper]} k → Won key s k := by
    intro k won
    rwa [←mem_winnerKeys,keys,mem_winnerKeys] at won
  have later := step_later (.receive : Step key mark quorum s (.receive paper) _)
  refine ⟨?_,fun k won => once.complete k (back k won),keys ▸ once.once⟩
  intro k won number paper' found same some
  obtain ⟨other,counted,paper'',found'',some''⟩ := won_counted sound (back k won)
  obtain ⟨⟨_,there,same''⟩,cast⟩ := counted
  cases there.symm.trans found''
  have equal := single _ _ _ _ found (later.received found'') (same.trans same''.symm) some some''
  rw [equal]
  exact cast

omit [DecidableEq Key] in
-- After a win no marked paper is left, so the count goes on without a mark.
theorem won_unmarked (once : Once key mark quorum s) (won : Won key s (key paper))
    (found : s.received[number]? = some paper) (fresh : s.phase number ≠ .cast)
    (undisturbed : s.db (key paper) = stored) (unfinished : ∀ entry, stored = some entry → ¬ Complete quorum entry) :
    (count stored (mark paper)).2.isSome = false := by
  have unmarked : (mark paper).isSome = false := by
    cases some : (mark paper).isSome with
    | false => rfl
    | true => exact absurd (once.spent _ won number paper found rfl some) fresh
  cases stored with
  | none => exact unmarked
  | some entry =>
    have first : entry.2.isSome = false := by
      cases some : entry.2.isSome with
      | false => rfl
      | true => exact absurd (once.complete _ won entry undisturbed some) (unfinished entry rfl)
    simp only [count,first,Bool.false_eq_true,if_false]
    exact unmarked

theorem once_put (sound : Sound key mark quorum s) (single : Single key mark s) (once : Once key mark quorum s)
    (found : s.received[number]? = some paper) (reads : s.phase number = .read stored)
    (undisturbed : s.db (key paper) = stored) (unfinished : ∀ entry, stored = some entry → ¬ Complete quorum entry) :
    Once key mark quorum (castPaper key mark quorum s number paper stored) := by
  have ran : Step key mark quorum s (.put number) _ := .put found reads
  have fresh : s.phase number ≠ .cast := by rw [reads]; exact nofun
  have unmarked := fun won => won_unmarked once won found fresh undisturbed unfinished
  by_cases complete : Complete quorum (count stored (mark paper))
  · have keys : winnerKeys key (castPaper key mark quorum s number paper stored) = winnerKeys key s++[key paper] := by
      unfold winnerKeys
      simp [castPaper,complete,found]
    have back : ∀ k, Won key (castPaper key mark quorum s number paper stored) k → Won key s k ∨ k = key paper := by
      intro k won
      rwa [←mem_winnerKeys,keys,List.mem_append,List.mem_singleton,mem_winnerKeys] at won
    refine ⟨?_,?_,?_⟩
    · intro k won other paper' found' same some
      rcases back k won with old | rfl
      · exact (step_later ran).cast (once.spent k old other paper' found' same some)
      · -- The mark that completed the entry is the only one there is.
        obtain ⟨counted,⟨⟨_,there,same'⟩,cast⟩,_,there',some'⟩ := won_counted (sound_step sound ran) won
        cases there.symm.trans there'
        have equal := single other counted _ _ found' there (same.trans same'.symm) some some'
        rw [equal]
        exact cast
    · intro k won entry present some
      simp only [castPaper,KeyMap.insert_apply] at present
      split at present
      · cases present
        exact complete
      · rcases back k won with old | rfl
        · exact once.complete k old entry present some
        · exact absurd rfl ‹_›
    · rw [keys]
      refine List.nodup_append.mpr ⟨once.once,List.nodup_singleton _,?_⟩
      intro one member other last
      cases List.mem_singleton.mp last
      intro equal
      subst equal
      have none := unmarked (mem_winnerKeys.mp member)
      rw [complete.2] at none
      cases none
  · have winners : (castPaper key mark quorum s number paper stored).winners = s.winners := if_neg complete
    have back : ∀ k, Won key (castPaper key mark quorum s number paper stored) k → Won key s k := by
      intro k won
      unfold Won at won
      rwa [winners] at won
    refine ⟨?_,?_,?_⟩
    · intro k won other paper' found' same some
      exact (step_later ran).cast (once.spent k (back k won) other paper' found' same some)
    · intro k won entry present some
      simp only [castPaper,KeyMap.insert_apply] at present
      split at present
      · rename_i same
        cases present
        rw [unmarked (same ▸ back k won)] at some
        cases some
      · exact once.complete k (back k won) entry present some
    · unfold winnerKeys
      rw [winners]
      exact once.once

theorem once_step (sound : Sound key mark quorum s) (single : Single key mark next) (once : Once key mark quorum s)
    (undisturbed : Undisturbed key s action) (unfinished : Unfinished quorum s action)
    (ran : Step key mark quorum s action next) : Once key mark quorum next := by
  have before := (step_later ran).single single
  cases ran with
  | receive => exact once_receive sound single once
  | get found waits =>
    rename_i number paper
    refine ⟨?_,once.complete,once.once⟩
    intro k won other paper' found' same some
    exact (step_later (.get found waits : Step key mark quorum s _ _)).cast
      (once.spent k won other paper' found' same some)
  | put found reads =>
    exact once_put sound before once found reads (undisturbed _ _ found reads)
      (by rintro entry rfl; exact unfinished entry reads)
  | delete found wins =>
    refine ⟨once.spent,?_,once.once⟩
    intro k won entry present some
    simp only [KeyMap.remove_apply] at present
    split at present
    · cases present
    · exact once.complete k won entry present some

theorem once_runs
    (path : Runs (step key mark quorum) (fun s action => Undisturbed key s action ∧ Unfinished quorum s action)
      {} actions s)
    (single : Single key mark s) : Once key mark quorum s := by
  induction path with
  | nil =>
    refine ⟨?_,?_,List.nodup_nil⟩
    · rintro k ⟨number,member,_⟩; cases member
    · rintro k ⟨number,member,_⟩; cases member
  | snoc earlier meets ran ih =>
    have before := (step_later (step_sound ran)).single single
    exact once_step (sound_runs earlier) single (ih before) meets.1 meets.2 (step_sound ran)

-- Either the key has been won, or its entry counts every counted paper and no other.
variable (key mark quorum) in
def Accounted (s : State Paper Key Mark) (k : Key) : Prop :=
  Won key s k ∨ ∃ papers : Finset Nat, (∀ number, number ∈ papers ↔ Counted key s k number) ∧
    papers.card = ((s.db k).map (·.1)).getD 0 ∧
    (∀ number ∈ papers, Marked mark s number → ∃ entry, s.db k = some entry ∧ entry.2.isSome = true) ∧
    ∀ entry, s.db k = some entry → ¬ Complete quorum entry

omit [DecidableEq Key] in
theorem accounted_keep {s next : State Paper Key Mark} (later : Later s next) (accounted : Accounted key mark quorum s k)
    (winners : ∀ number ∈ s.winners, number ∈ next.winners) (db : Won key s k ∨ next.db k = s.db k)
    (counted : ∀ number, Counted key next k number → Counted key s k number) : Accounted key mark quorum next k := by
  have kept : Won key s k → Won key next k := by
    intro held
    obtain ⟨number,member,paper,found,same⟩ := held
    exact ⟨number,winners number member,paper,later.received found,same⟩
  rcases accounted with won | ⟨papers,exactly,size,marked,incomplete⟩
  · exact .inl (kept won)
  · rcases db with won | same
    · exact .inl (kept won)
    · refine .inr ⟨papers,?_,by rw [same]; exact size,?_,by rw [same]; exact incomplete⟩
      · intro number
        exact (exactly number).trans ⟨later.counted,counted number⟩
      · intro number member held
        obtain ⟨paper,found,some⟩ := held
        obtain ⟨⟨paper',found',_⟩,_⟩ := (exactly number).mp member
        cases (later.received found').symm.trans found
        rw [same]
        exact marked number member ⟨paper,found',some⟩

theorem accounted_put (accounted : Accounted key mark quorum s (key paper))
    (found : s.received[number]? = some paper) (reads : s.phase number = .read stored)
    (undisturbed : s.db (key paper) = stored) :
    Accounted key mark quorum (castPaper key mark quorum s number paper stored) (key paper) := by
  have later := step_later (.put found reads : Step key mark quorum s (.put number) _)
  by_cases complete : Complete quorum (count stored (mark paper))
  · refine .inl ⟨number,?_,paper,found,rfl⟩
    simp [castPaper,complete]
  · have winners : (castPaper key mark quorum s number paper stored).winners = s.winners := if_neg complete
    rcases accounted with ⟨other,member,won⟩ | ⟨papers,exactly,size,marked,_⟩
    · exact .inl ⟨other,winners ▸ member,won⟩
    · have absent : number ∉ papers := by
        intro member
        have cast := ((exactly number).mp member).2
        rw [reads] at cast
        cases cast
      have entry : (castPaper key mark quorum s number paper stored).db (key paper) =
          some (count stored (mark paper)) := KeyMap.insert_self _
      rw [undisturbed] at size marked
      refine .inr ⟨insert number papers,?_,?_,?_,?_⟩
      · intro other
        rw [Finset.mem_insert,exactly other]
        by_cases same : other = number
        · subst other
          exact ⟨fun _ => ⟨⟨paper,found,rfl⟩,Function.update_self ..⟩,fun _ => .inl rfl⟩
        · have phase : (castPaper key mark quorum s number paper stored).phase other = s.phase other :=
            Function.update_of_ne same ..
          unfold Counted
          rw [phase]
          exact ⟨fun either => either.resolve_left same,.inr⟩
      · rw [Finset.card_insert_of_notMem absent,size,entry]
        cases stored <;> rfl
      · intro other member held
        obtain ⟨paper',found',some⟩ := held
        refine ⟨_,entry,?_⟩
        rcases Finset.mem_insert.mp member with rfl | old
        · cases found.symm.trans found'
          cases stored with
          | none => exact some
          | some before =>
            simp only [count]
            split
            · assumption
            · exact some
        · obtain ⟨before,rfl,has⟩ := marked other old ⟨paper',found',some⟩
          simp only [count,has,if_true]
      · intro now present
        rw [entry] at present
        cases present
        exact complete

theorem accounted_step (sound : Sound key mark quorum s) (undisturbed : Undisturbed key s action)
    (accounted : Accounted key mark quorum s k) (ran : Step key mark quorum s action next) :
    Accounted key mark quorum next k := by
  have later := step_later ran
  cases ran with
  | receive =>
    refine accounted_keep later accounted (fun _ => id) (.inr rfl) ?_
    intro number held
    obtain ⟨⟨paper,found,same⟩,cast⟩ := held
    have inside : number < s.received.length := by
      by_contra outside
      have waits := sound.unread number (Nat.le_of_not_lt outside)
      exact nomatch waits.symm.trans cast
    exact ⟨⟨paper,(List.getElem?_append_left inside).symm.trans found,same⟩,cast⟩
  | get found waits =>
    rename_i number paper
    refine accounted_keep later accounted (fun _ => id) (.inr rfl) ?_
    intro other held
    obtain ⟨there,cast⟩ := held
    by_cases same : other = number
    · subst other
      simp only [Function.update_self] at cast
      cases cast
    · exact ⟨there,(Function.update_of_ne same ..).symm.trans cast⟩
  | put found reads =>
    rename_i number paper stored
    by_cases same : k = key paper
    · subst k
      exact accounted_put accounted found reads (undisturbed _ _ found reads)
    · refine accounted_keep later accounted ?_ (.inr (KeyMap.insert_of_ne _ same)) ?_
      · intro other member
        simp only [castPaper]
        split
        · exact List.mem_append_left _ member
        · exact member
      · intro other held
        obtain ⟨⟨paper',found',same'⟩,cast⟩ := held
        have distinct : other ≠ number := by
          intro equal
          subst equal
          cases found.symm.trans found'
          exact same same'.symm
        exact ⟨⟨paper',found',same'⟩,(Function.update_of_ne distinct ..).symm.trans cast⟩
  | delete found wins =>
    rename_i number paper
    refine accounted_keep later accounted (fun _ => id) ?_ (fun _ => id)
    by_cases same : k = key paper
    · exact .inl ⟨number,wins,paper,found,same.symm⟩
    · exact .inr (KeyMap.remove_of_ne _ same)

theorem accounted_runs (path : Runs (step key mark quorum) (Undisturbed key) {} actions s) (k : Key) :
    Accounted key mark quorum s k := by
  induction path with
  | nil =>
    refine .inr ⟨∅,?_,rfl,?_,?_⟩
    · intro number
      refine ⟨fun member => (Finset.notMem_empty _ member).elim,?_⟩
      intro held
      obtain ⟨⟨paper,found,_⟩,_⟩ := held
      simp at found
    · intro number member; exact (Finset.notMem_empty _ member).elim
    · intro entry present; cases present
  | snoc earlier meets ran ih => exact accounted_step (sound_runs earlier) meets ih (step_sound ran)

omit [DecidableEq Key] in
-- Enough papers, one of them marked, all of them counted.
theorem Accounted.won (accounted : Accounted key mark quorum s k) (papers : Finset Nat)
    (counted : ∀ number ∈ papers, Counted key s k number) (enough : quorum ≤ papers.card)
    (member : number ∈ papers) (marked : Marked mark s number) : Won key s k := by
  rcases accounted with won | ⟨all,exactly,size,marks,incomplete⟩
  · exact won
  · have within : papers ⊆ all := fun other present => (exactly other).mpr (counted other present)
    obtain ⟨entry,present,some⟩ := marks number (within member) marked
    rw [present] at size
    have bound : quorum ≤ entry.1 := by
      calc quorum ≤ papers.card := enough
        _ ≤ all.card := Finset.card_le_card within
        _ = entry.1 := size
    exact absurd ⟨bound,some⟩ (incomplete entry present)

end Evidence
end OmniPaxosKV.Tally
