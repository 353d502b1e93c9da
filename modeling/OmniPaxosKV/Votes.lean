import OmniPaxosKV.Proxy
import OmniPaxosKV.Tally

-- The connection tasks count acks in the vote database as papers in a shared map.
namespace OmniPaxosKV.Votes
open Machine

variable {ack : Nat}

abbrev Papers := Tally.State Receipt UInt64 (Option (Option String))

abbrev papersStep (quorum : Nat) : Papers → Tally.Act Receipt → Option Papers :=
  Tally.step Receipt.hash Receipt.suspect quorum

-- The ack a task has not counted yet.
def uncounted : Handler → Option (Nat × Receipt)
  | .received ack r => some (ack,r)
  | .read ack r _ => some (ack,r)
  | _ => none

-- The ack a task is working on.
def working : Handler → Option (Nat × Receipt)
  | .received ack r => some (ack,r)
  | .read ack r _ => some (ack,r)
  | .confirming ack r _ => some (ack,r)
  | .responding ack r => some (ack,r)
  | .deleting ack r => some (ack,r)
  | _ => none

def Stands (t : Papers) : Handler → Prop
  | .received ack _ => t.phase ack = .waiting
  | .read ack _ stored => t.phase ack = .read stored
  | .confirming ack _ _ => ack ∈ t.winners
  | .responding ack _ => ack ∈ t.winners
  | .deleting ack _ => ack ∈ t.winners
  | _ => True

structure Follows (quorum : Nat) (p : Proxy) (t : Papers) : Prop where
  received : t.received = p.received
  db : t.db = p.db.db
  sameQuorum : p.db.quorum = quorum
  winners : t.winners = p.broadcasts
  holds : ∀ {i : Nat} {c : Connection} {k r}, p.connections[i]? = some c → working c.handler = some (k,r) →
    p.received[k]? = some r
  alone : ∀ {i j : Nat} {c c' : Connection} {k r r'}, p.connections[i]? = some c → p.connections[j]? = some c' →
    working c.handler = some (k,r) → working c'.handler = some (k,r') → i = j
  stands : ∀ {i : Nat} {c : Connection}, p.connections[i]? = some c → Stands t c.handler
  counted : ∀ {k : Nat} {r : Receipt}, p.received[k]? = some r → t.phase k = .cast ∨
    ∃ (i : Nat) (c : Connection), p.connections[i]? = some c ∧ uncounted c.handler = some (k,r)
  unread : ∀ k, p.received.length ≤ k → t.phase k = .waiting

-- What an action of a task does to the papers, if anything.
def paperAct (p : Proxy) : Proxy.Act → Option (Tally.Act Receipt)
  | .receive conn place (.ack cmd hash suspect lastIdx) => match p.connections[conn]? with
    | some c => some (.receive ⟨c.receiver,place,cmd,hash,suspect,lastIdx⟩)
    | none => none
  | .get conn => match p.connections[conn]? with
    | some ⟨_,.received ack _⟩ => some (.get ack)
    | _ => none
  | .put conn => match p.connections[conn]? with
    | some ⟨_,.read ack _ _⟩ => some (.put ack)
    | _ => none
  | .delete conn => match p.connections[conn]? with
    | some ⟨_,.deleting ack _⟩ => some (.delete ack)
    | _ => none
  | _ => none

theorem getElem?_setHandler (p : Proxy) (conn : Nat) (handler : Handler) (i : Nat) :
    (p.setHandler conn handler).connections[i]? =
      (p.connections[i]?).map fun c => if conn = i then {c with handler:=handler} else c := by
  unfold Proxy.setHandler
  rw [List.getElem?_modify]
  cases p.connections[i]? with
  | none => rfl
  | some c => split <;> simp_all

-- The task that moved, or a task that stayed as it was.
theorem connection_cases {p : Proxy}
    (present : (p.setHandler conn new).connections[i]? = some c) :
    (i = conn ∧ c.handler = new) ∨ (i ≠ conn ∧ p.connections[i]? = some c) := by
  rw [getElem?_setHandler] at present
  obtain ⟨before,there,rfl⟩ := Option.map_eq_some_iff.mp present
  by_cases same : conn = i
  · subst i
    exact .inl ⟨rfl,by simp⟩
  · exact .inr ⟨Ne.symm same,by simp [there,same]⟩

theorem uncounted_working (pending : uncounted handler = some pair) : working handler = some pair := by
  cases handler <;> first | exact pending | cases pending

theorem Stands.frame {t t' : Papers} (stands : Stands t handler)
    (phase : ∀ k r, working handler = some (k,r) → t'.phase k = t.phase k)
    (kept : ∀ k ∈ t.winners, k ∈ t'.winners) : Stands t' handler := by
  cases handler with
  | received ack r => exact (phase ack r rfl).trans stands
  | read ack r stored => exact (phase ack r rfl).trans stands
  | confirming ack r remaining => exact kept ack stands
  | responding ack r => exact kept ack stands
  | deleting ack r => exact kept ack stands
  | _ => trivial

-- One task moves; every other task still stands where it stood.
theorem Follows.advance {p p' : Proxy} {t t' : Papers} (follows : Follows quorum p t)
    (found : p.connections[conn]? = some ⟨source,old⟩)
    (connections : p'.connections = (p.setHandler conn new).connections)
    (received : t'.received = p'.received) (db : t'.db = p'.db.db) (unchanged : p'.db.quorum = p.db.quorum)
    (winners : t'.winners = p'.broadcasts)
    (later : ∀ (k : Nat) r, p.received[k]? = some r → p'.received[k]? = some r)
    (kept : ∀ k ∈ t.winners, k ∈ t'.winners)
    (own : ∀ (k : Nat) r, working new = some (k,r) →
      p'.received[k]? = some r ∧ (working old = some (k,r) ∨ p.received.length ≤ k))
    (stands : Stands t' new)
    (others : ∀ k, (∀ r, working old ≠ some (k,r)) → t'.phase k = t.phase k)
    (rest : ∀ (k : Nat) r, p'.received[k]? = some r → t'.phase k = .cast ∨ uncounted new = some (k,r) ∨
      (p.received[k]? = some r ∧ uncounted old ≠ some (k,r) ∧ t'.phase k = t.phase k)) : Follows quorum p' t' := by
  have moved : ∀ {i : Nat} {c}, p'.connections[i]? = some c →
      (i = conn ∧ c.handler = new) ∨ (i ≠ conn ∧ p.connections[i]? = some c) := by
    intro i c present
    rw [connections] at present
    exact connection_cases present
  -- A number held by two tasks, one of which moved, was held by both before.
  have apart : ∀ {i : Nat} {c : Connection} {k r r'}, i ≠ conn → p.connections[i]? = some c →
      working c.handler = some (k,r') → working new = some (k,r) → False := by
    intro i c k r r' distinct there holds' holds
    rcases (own k r holds).2 with before | beyond
    · exact distinct (follows.alone there found holds' before)
    · exact Nat.not_lt.mpr beyond (List.getElem?_eq_some_iff.mp (follows.holds there holds')).1
  refine ⟨received,db,unchanged.trans follows.sameQuorum,winners,?_,?_,?_,?_,?_⟩
  · intro i c k r present holds
    rcases moved present with ⟨rfl,rfl⟩ | ⟨_,there⟩
    · exact (own k r holds).1
    · exact later k r (follows.holds there holds)
  · intro i j c c' k r r' present present' holds holds'
    rcases moved present with ⟨rfl,rfl⟩ | ⟨distinct,there⟩
    · rcases moved present' with ⟨rfl,_⟩ | ⟨distinct',there'⟩
      · rfl
      · exact (apart distinct' there' holds' holds).elim
    · rcases moved present' with ⟨rfl,rfl⟩ | ⟨_,there'⟩
      · exact (apart distinct there holds holds').elim
      · exact follows.alone there there' holds holds'
  · intro i c present
    rcases moved present with ⟨rfl,rfl⟩ | ⟨distinct,there⟩
    · exact stands
    · refine (follows.stands there).frame ?_ kept
      intro k r holds
      exact others k (fun r' before => distinct (follows.alone there found holds before))
  · intro k r there
    rcases rest k r there with cast | pending | ⟨before,free,phase⟩
    · exact .inl cast
    · refine .inr ⟨conn,⟨source,new⟩,?_,pending⟩
      rw [connections,getElem?_setHandler,found]
      simp
    · rcases follows.counted before with cast | ⟨i,c,present,pending⟩
      · exact .inl (phase.trans cast)
      · have distinct : conn ≠ i := by
          intro equal
          subst equal
          cases found.symm.trans present
          exact free pending
        refine .inr ⟨i,c,?_,pending⟩
        rw [connections,getElem?_setHandler,present]
        simp [distinct]
  · intro k beyond
    have longer : p.received.length ≤ k := by
      by_contra inside
      have there := later k _ (List.getElem?_eq_getElem (Nat.lt_of_not_le inside))
      exact Nat.not_lt.mpr beyond (List.getElem?_eq_some_iff.mp there).1
    refine (others k ?_).trans (follows.unread k longer)
    intro r holds
    exact Nat.not_lt.mpr longer (List.getElem?_eq_some_iff.mp (follows.holds found holds)).1

-- A task that counts nothing: its ack, if it has one, was counted before.
theorem Follows.move {p p' : Proxy} {t : Papers} (follows : Follows quorum p t)
    (found : p.connections[conn]? = some ⟨source,old⟩)
    (connections : p'.connections = (p.setHandler conn new).connections)
    (received : p'.received = p.received) (db : p'.db = p.db) (broadcasts : p'.broadcasts = p.broadcasts)
    (own : ∀ k r, working new = some (k,r) → working old = some (k,r)) (idle : uncounted old = none)
    (stands : Stands t new) : Follows quorum p' t := by
  refine follows.advance found connections (follows.received.trans received.symm) (follows.db.trans (db ▸ rfl)) (db ▸ rfl)
    (follows.winners.trans broadcasts.symm) (fun k r there => received ▸ there) (fun _ => id) ?_ stands
    (fun _ _ => rfl) ?_
  · intro k r holds
    exact ⟨received ▸ follows.holds found (own k r holds),.inl (own k r holds)⟩
  · intro k r there
    exact .inr (.inr ⟨received ▸ there,by rw [idle]; exact nofun,rfl⟩)

theorem Follows.congr {p p' : Proxy} {t : Papers} (follows : Follows quorum p t)
    (connections : p'.connections = p.connections) (received : p'.received = p.received) (db : p'.db = p.db)
    (broadcasts : p'.broadcasts = p.broadcasts) : Follows quorum p' t := by
  obtain ⟨one,two,three,four,five,six,seven,eight,nine⟩ := follows
  constructor <;> simp only [connections,received,db,broadcasts] <;> assumption

theorem follows_connect (follows : Follows quorum p t) :
    Follows quorum {p with connections:=p.connections++[⟨receiver,.selecting⟩]} t := by
  have old : ∀ {i : Nat} {c : Connection} {pair}, (p.connections++[⟨receiver,.selecting⟩])[i]? = some c →
      working c.handler = some pair → p.connections[i]? = some c := by
    intro i c pair present holds
    rcases getElem?_concat_cases present with old | ⟨_,rfl⟩
    · exact old
    · cases holds
  refine ⟨follows.received,follows.db,follows.sameQuorum,follows.winners,?_,?_,?_,?_,follows.unread⟩
  · intro i c k r present holds
    exact follows.holds (old present holds) holds
  · intro i j c c' k r r' present present' holds holds'
    exact follows.alone (old present holds) (old present' holds') holds holds'
  · intro i c present
    rcases getElem?_concat_cases present with old | ⟨_,rfl⟩
    · exact follows.stands old
    · trivial
  · intro k r there
    rcases follows.counted there with cast | ⟨i,c,present,pending⟩
    · exact .inl cast
    · exact .inr ⟨i,c,getElem?_grown (List.prefix_append ..) present,pending⟩

theorem follows_ack (follows : Follows quorum p t) (found : p.connections[conn]? = some ⟨source,.selecting⟩) (r : Receipt) :
    Follows quorum {p.setHandler conn (.received p.received.length r) with received:=p.received++[r]}
      {t with received:=t.received++[r]} := by
  have received : t.received++[r] = p.received++[r] := by rw [follows.received]
  refine follows.advance found rfl received follows.db rfl follows.winners ?_ (fun _ => id) ?_
    (follows.unread _ (Nat.le_refl _)) (fun _ _ => rfl) ?_
  · intro k r' there
    exact getElem?_grown (List.prefix_append ..) there
  · intro k r' holds
    cases holds
    exact ⟨List.getElem?_concat_length,.inr (Nat.le_refl _)⟩
  · intro k r' there
    rcases getElem?_concat_cases there with old | ⟨same,rfl⟩
    · exact .inr (.inr ⟨old,nofun,rfl⟩)
    · exact .inr (.inl (by rw [same]; rfl))

theorem follows_get (follows : Follows quorum p t) (found : p.connections[conn]? = some ⟨source,.received ack r⟩) :
    ∃ t', papersStep quorum t (.get ack) = some t' ∧ Follows quorum (p.get conn ack r) t' := by
  have there : t.received[ack]? = some r := follows.received ▸ follows.holds found rfl
  have waits : t.phase ack = .waiting := follows.stands found
  refine ⟨{t with phase:=Function.update t.phase ack (.read (t.db r.hash))},?_,?_⟩
  · simp only [papersStep,Tally.step,there,waits]
  · refine follows.advance found rfl follows.received follows.db rfl follows.winners (fun _ _ => id) (fun _ => id)
      ?_ ?_ ?_ ?_
    · intro k r' holds
      cases holds
      exact ⟨follows.holds found rfl,.inl rfl⟩
    · change Function.update t.phase ack (.read (t.db r.hash)) ack = .read (p.db.db r.hash)
      rw [Function.update_self,follows.db]
    · intro k distinct
      refine Function.update_of_ne ?_ ..
      intro equal
      subst equal
      exact distinct r rfl
    · intro k r' there'
      by_cases same : k = ack
      · subst k
        cases (follows.holds found rfl).symm.trans there'
        exact .inr (.inl rfl)
      · refine .inr (.inr ⟨there',?_,Function.update_of_ne same ..⟩)
        intro holds
        cases holds
        exact same rfl

theorem tally_eq_count (stored : Option Vote) (suspect : Speculation) :
    Proxy.tally stored suspect = Tally.count stored suspect := by
  cases stored <;> rfl

-- Where a task stands after it told one more server.
def confirmed (ack : Nat) (r : Receipt) (remaining : List Nat) : Handler :=
  if remaining = [] then .responding ack r else .confirming ack r remaining

theorem confirmRest_parts (p : Proxy) (conn ack : Nat) (r : Receipt) (remaining : List Nat) :
    (p.confirmRest conn ack r remaining).connections = (p.setHandler conn (confirmed ack r remaining)).connections ∧
    (p.confirmRest conn ack r remaining).received = p.received ∧ (p.confirmRest conn ack r remaining).db = p.db ∧
    (p.confirmRest conn ack r remaining).broadcasts = p.broadcasts := by
  unfold Proxy.confirmRest confirmed
  split <;> exact ⟨rfl,rfl,rfl,rfl⟩

theorem working_confirmed : working (confirmed ack r remaining) = some (ack,r) := by
  unfold confirmed
  split <;> rfl

theorem stands_confirmed {t : Papers} (won : ack ∈ t.winners) : Stands t (confirmed ack r remaining) := by
  unfold confirmed
  split <;> exact won

-- Whether a task that stores this vote tells the servers.
def Decisive (p : Proxy) (vote : Vote) : Prop := p.db.quorum ≤ vote.1 ∧ vote.2.isSome = true

instance (p : Proxy) (vote : Vote) : Decidable (Decisive p vote) := inferInstanceAs (Decidable (_ ∧ _))

theorem put_parts (p : Proxy) (conn ack : Nat) (r : Receipt) (stored : Option Vote) :
    let vote := Proxy.tally stored r.suspect
    (p.put conn ack r stored).connections = (p.setHandler conn
      (if Decisive p vote then confirmed ack r (List.range p.servers) else .selecting)).connections ∧
    (p.put conn ack r stored).received = p.received ∧
    (p.put conn ack r stored).db = {p.db with db:=p.db.db.insert r.hash vote} ∧
    (p.put conn ack r stored).broadcasts = if Decisive p vote then p.broadcasts++[ack] else p.broadcasts := by
  intro vote
  by_cases won : Decisive p vote
  · obtain ⟨connections,received,votes,_⟩ := confirmRest_parts
      {p with db:=(p.db.handleCommand (.put r.hash vote)).2} conn ack r (List.range p.servers)
    have put : p.put conn ack r stored =
        {Proxy.confirmRest {p with db:=(p.db.handleCommand (.put r.hash vote)).2}
          conn ack r (List.range p.servers) with broadcasts:=p.broadcasts++[ack]} := if_pos won
    rw [put]
    refine ⟨?_,received,votes,(if_pos won).symm⟩
    rw [if_pos won]
    exact connections
  · have put : p.put conn ack r stored =
        Proxy.setHandler {p with db:=(p.db.handleCommand (.put r.hash vote)).2} conn .selecting := if_neg won
    rw [put]
    refine ⟨?_,rfl,rfl,(if_neg won).symm⟩
    rw [if_neg won]
    rfl

theorem follows_put (follows : Follows quorum p t) (found : p.connections[conn]? = some ⟨source,.read ack r stored⟩) :
    ∃ t', papersStep quorum t (.put ack) = some t' ∧ Follows quorum (p.put conn ack r stored) t' := by
  have there : t.received[ack]? = some r := follows.received ▸ follows.holds found rfl
  have reads : t.phase ack = .read stored := follows.stands found
  obtain ⟨connections,received,votes,broadcasts⟩ := put_parts p conn ack r stored
  have decisive : Decisive p (Proxy.tally stored r.suspect) ↔ Tally.Complete quorum (Tally.count stored r.suspect) := by
    unfold Decisive Tally.Complete
    rw [follows.sameQuorum,tally_eq_count]
  have db : t.db.insert r.hash (Tally.count stored r.suspect) = (p.put conn ack r stored).db.db := by
    rw [votes,follows.db,tally_eq_count]
  have winners : (Tally.castPaper Receipt.hash Receipt.suspect quorum t ack r stored).winners =
      (p.put conn ack r stored).broadcasts := by
    rw [broadcasts,←follows.winners]
    simp only [Tally.castPaper,decisive]
  refine ⟨Tally.castPaper Receipt.hash Receipt.suspect quorum t ack r stored,?_,?_⟩
  · simp only [papersStep,Tally.step,there,reads]
  · refine follows.advance found connections (follows.received.trans received.symm) db (by rw [votes]) winners
      (fun k r' there' => by rwa [received]) ?_ ?_ ?_ ?_ ?_
    · intro k member
      rw [winners,broadcasts,←follows.winners]
      split
      · exact List.mem_append_left _ member
      · exact member
    · intro k r' holds
      split at holds
      · rw [working_confirmed] at holds
        cases holds
        rw [received]
        exact ⟨follows.holds found rfl,.inl rfl⟩
      · cases holds
    · split
      · rename_i won
        apply stands_confirmed
        rw [winners,broadcasts,if_pos won]
        exact List.mem_append_right _ (List.mem_singleton_self _)
      · trivial
    · intro k distinct
      refine Function.update_of_ne ?_ ..
      intro equal
      subst equal
      exact distinct r rfl
    · intro k r' there'
      rw [received] at there'
      by_cases same : k = ack
      · subst k
        exact .inl (Function.update_self ..)
      · refine .inr (.inr ⟨there',?_,Function.update_of_ne same ..⟩)
        intro holds
        cases holds
        exact same rfl

theorem follows_delete (follows : Follows quorum p t) (found : p.connections[conn]? = some ⟨source,.deleting ack r⟩) :
    ∃ t', papersStep quorum t (.delete ack) = some t' ∧ Follows quorum (p.delete conn r) t' := by
  have there : t.received[ack]? = some r := follows.received ▸ follows.holds found rfl
  have won : ack ∈ t.winners := follows.stands found
  have db : t.db.remove r.hash = p.db.db.remove r.hash := by rw [follows.db]
  refine ⟨{t with db:=t.db.remove r.hash},?_,?_⟩
  · simp only [papersStep,Tally.step,there,won,if_true]
  · refine follows.advance found rfl follows.received db rfl follows.winners (fun _ _ => id) (fun _ => id) ?_ trivial
      (fun _ _ => rfl) ?_
    · intro k r' busy
      cases busy
    · intro k r' there'
      refine .inr (.inr ⟨there',?_,rfl⟩)
      intro busy
      cases busy

theorem follows_confirm (follows : Follows quorum p t)
    (found : p.connections[conn]? = some ⟨source,.confirming ack r remaining⟩) :
    Follows quorum (p.confirm conn ack r remaining server ok) t := by
  have won : ack ∈ t.winners := follows.stands found
  unfold Proxy.confirm
  split
  · obtain ⟨connections,received,votes,broadcasts⟩ := confirmRest_parts
      {p with toServer:=p.toServer++[(server,ClientMessage.ack r.cmd r.lastIdx,Cause.ack ack)]}
      conn ack r (remaining.erase server)
    refine follows.move found connections received votes broadcasts ?_ rfl (stands_confirmed won)
    intro k r' holds
    rw [working_confirmed] at holds
    exact holds
  · exact follows.move found rfl rfl rfl rfl nofun rfl trivial

theorem follows_respond (follows : Follows quorum p t) (found : p.connections[conn]? = some ⟨source,.responding ack r⟩) :
    Follows quorum (p.respond conn ack r ok) t := by
  have won : ack ∈ t.winners := follows.stands found
  unfold Proxy.respond
  split
  · exact follows.move found rfl rfl rfl rfl (fun _ _ => id) rfl won
  · exact follows.move found rfl rfl rfl rfl nofun rfl trivial

-- Where a task stands while it forwards a client's request.
theorem follows_forwarding (follows : Follows quorum p t) (found : p.connections[conn]? = some ⟨source,old⟩)
    (idle : uncounted old = none) : Follows quorum (p.forwardRest conn request m remaining) t := by
  unfold Proxy.forwardRest
  split <;> exact follows.move found rfl rfl rfl rfl nofun idle trivial

theorem follows_step (follows : Follows quorum p t) (ran : Proxy.Step p action next) :
    match paperAct p action with
    | none => Follows quorum next t
    | some act => ∃ t', papersStep quorum t act = some t' ∧ Follows quorum next t' := by
  cases ran with
  | connect => exact follows_connect follows
  | request found => exact (follows_forwarding follows found rfl).congr rfl rfl rfl rfl
  | forward found pending => exact (follows_forwarding follows found rfl).congr rfl rfl rfl rfl
  | disconnect found => exact follows.move found rfl rfl rfl rfl nofun rfl trivial
  | receive found =>
    rename_i conn place m source
    cases m with
    | ack cmd hash suspect lastIdx =>
      simp only [paperAct,found]
      exact ⟨_,rfl,follows_ack follows found _⟩
    | _ => exact follows.congr rfl rfl rfl rfl
  | get found => simp only [paperAct,found]; exact follows_get follows found
  | put found => simp only [paperAct,found]; exact follows_put follows found
  | confirm found pending => exact follows_confirm follows found
  | respond found => exact follows_respond follows found
  | delete found => simp only [paperAct,found]; exact follows_delete follows found

theorem follows_new (created : Proxy.new nodes faultTolerance = some p) :
    Follows (nodes-faultTolerance) p ({} : Papers) := by
  cases Proxy.new_eq created
  refine ⟨rfl,rfl,rfl,rfl,?_,?_,?_,?_,fun _ _ => rfl⟩
  · intro i c k r present; simp at present
  · intro i j c c' k r r' present; simp at present
  · intro i c present; simp at present
  · intro k r there; simp at there

-- A condition on the proxy's steps that implies one on what they do to the papers.
theorem follows_runs {allowed : Proxy → Proxy.Act → Prop} (allowedPaper : Papers → Tally.Act Receipt → Prop)
    (implied : ∀ p t action act, Follows quorum p t → allowed p action → paperAct p action = some act →
      allowedPaper t act)
    (follows : Follows quorum p t) (path : Runs Proxy.step allowed p actions next) :
    ∃ t' acts, Runs (papersStep quorum) allowedPaper t acts t' ∧ Follows quorum next t' := by
  induction path with
  | nil => exact ⟨t,[],.nil,follows⟩
  | snoc _ meets ran ih =>
    obtain ⟨t',acts,run,now⟩ := ih
    have one := follows_step now (Proxy.step_sound ran)
    split at one
    · exact ⟨t',acts,run,one⟩
    · rename_i act same
      obtain ⟨t'',put,after⟩ := one
      exact ⟨t'',acts++[act],.snoc run (implied _ _ _ _ now meets same) put,after⟩

-- A task writes back over the very vote it read.
def Current (p : Proxy) : Proxy.Act → Prop
  | .put conn => match p.connections[conn]? with
    | some ⟨_,.read _ r stored⟩ => p.db.db r.hash = stored
    | _ => True
  | _ => True

-- The vote a task read had not been decisive already.
def Undecided (p : Proxy) : Proxy.Act → Prop
  | .put conn => match p.connections[conn]? with
    | some ⟨_,.read _ _ (some vote)⟩ => ¬ Decisive p vote
    | _ => True
  | _ => True

-- No send of a confirm fails.
def Delivered (_ : Proxy) : Proxy.Act → Prop
  | .confirm _ _ ok => ok = true
  | _ => True

instance (p : Proxy) (action : Proxy.Act) : Decidable (Current p action) := by
  unfold Current; split <;> (try split) <;> infer_instance

instance (p : Proxy) (action : Proxy.Act) : Decidable (Undecided p action) := by
  unfold Undecided; split <;> (try split) <;> infer_instance

instance (p : Proxy) (action : Proxy.Act) : Decidable (Delivered p action) := by
  unfold Delivered; split <;> infer_instance

-- Only a task that is about to write back casts a paper.
theorem put_of_paperAct (same : paperAct p action = some (.put number)) : ∃ conn source r stored,
    action = .put conn ∧ p.connections[conn]? = some ⟨source,.read number r stored⟩ := by
  unfold paperAct at same
  split at same <;> (try split at same) <;> cases same
  exact ⟨_,_,_,_,rfl,‹_›⟩

theorem current_undisturbed (follows : Follows quorum p t) (current : Current p action)
    (same : paperAct p action = some act) : Tally.Undisturbed Receipt.hash t act := by
  cases act with
  | put number =>
    intro r stored there reads
    obtain ⟨conn,source,r',stored',rfl,found⟩ := put_of_paperAct same
    cases (follows.holds found rfl).symm.trans (follows.received ▸ there)
    cases (follows.stands found).symm.trans reads
    simp only [Current,found] at current
    rw [follows.db]
    exact current
  | _ => trivial

theorem undecided_unfinished (follows : Follows quorum p t) (undecided : Undecided p action)
    (same : paperAct p action = some act) : Tally.Unfinished quorum t act := by
  cases act with
  | put number =>
    intro vote reads
    obtain ⟨conn,source,r,stored,rfl,found⟩ := put_of_paperAct same
    cases (follows.stands found).symm.trans reads
    simp only [Undecided,found,Decisive,follows.sameQuorum] at undecided
    exact undecided
  | _ => trivial

-- The history hash each broadcast was for.
def broadcastHashes (p : Proxy) : List UInt64 := p.broadcasts.filterMap fun k => p.received[k]?.map Receipt.hash

-- No two acks of one hash come from one replica, and no two carry a speculation.
def ProperAcks (p : Proxy) : Prop :=
  p.received.Pairwise (fun r r' => ¬ (r.source = r'.source ∧ r.hash = r'.hash)) ∧
  p.received.Pairwise (fun r r' => ¬ (r.hash = r'.hash ∧ r.suspect.isSome = true ∧ r'.suspect.isSome = true))

instance (p : Proxy) : Decidable (ProperAcks p) := inferInstanceAs (Decidable (_ ∧ _))

theorem follows_single (follows : Follows quorum p t) (proper : ProperAcks p) :
    Tally.Single Receipt.hash Receipt.suspect t := by
  intro number other r r' there there' same some some'
  rw [follows.received] at there there'
  obtain ⟨bound,rfl⟩ := List.getElem?_eq_some_iff.mp there
  obtain ⟨bound',rfl⟩ := List.getElem?_eq_some_iff.mp there'
  have apart := List.pairwise_iff_getElem.mp proper.2
  rcases Nat.lt_trichotomy number other with less | equal | more
  · exact absurd ⟨same,some,some'⟩ (apart number other bound bound' less)
  · exact equal
  · exact absurd ⟨same.symm,some',some⟩ (apart other number bound' bound more)

-- Reading, counting and deleting are three separate steps; nothing else is
-- needed for a single confirm than that no task is disturbed between them.
theorem confirms_at_most_once (nodes faultTolerance : Nat) (initial p : Proxy) (actions : List Proxy.Act)
    (created : Proxy.new nodes faultTolerance = some initial)
    (path : Runs Proxy.step (fun p action => Current p action ∧ Undecided p action) initial actions p)
    (proper : ProperAcks p) : (broadcastHashes p).Nodup := by
  obtain ⟨t,acts,run,follows⟩ := follows_runs
    (fun t act => Tally.Undisturbed Receipt.hash t act ∧ Tally.Unfinished (nodes-faultTolerance) t act)
    (fun p t action act follows meets same =>
      ⟨current_undisturbed follows meets.1 same,undecided_unfinished follows meets.2 same⟩)
    (follows_new created) path
  have once := (Tally.once_runs run (follows_single follows proper)).once
  unfold Tally.winnerKeys at once
  rw [follows.winners,follows.received] at once
  exact once

-- An ack of one history, with the leader's answer or without.
def sampleAck (suspect : Speculation) : ServerMessage := .ack ⟨1,2,7,0,0,.put "x" "1"⟩ 99 suspect 1

-- Connections to the servers after the first, each with one ack; the second server leads.
def acksOf (connections : Nat) : List Proxy.Act :=
  (List.range connections).map (fun i => Proxy.Act.connect (i+1))++
  (List.range connections).map (fun i => Proxy.Act.receive i 0 (sampleAck (if i = 0 then some none else none)))

def vote (conn : Nat) : List Proxy.Act := [.get conn,.put conn]

def tell (conn servers : Nat) : List Proxy.Act := (List.range servers).map fun server => .confirm conn server true

-- Three votes in turn decide; the fourth comes after the entry is gone.
def votesInTurn : List Proxy.Act :=
  acksOf 4++(vote 0++(vote 1++(vote 2++(tell 2 5++([Proxy.Act.respond 2 true,.delete 2]++vote 3)))))

-- The fourth vote comes while the third one's task is still telling the servers.
def voteBeforeDelete : List Proxy.Act := acksOf 4++(vote 0++(vote 1++(vote 2++(tell 2 5++vote 3))))

theorem confirms_at_most_once_in_turn : ∃ p, Runs Proxy.step (fun p action => Current p action ∧ Undecided p action)
    {servers:=5,db:={quorum:=3}} votesInTurn p ∧ ProperAcks p ∧ (broadcastHashes p).Nodup ∧ p.completed = [2] := by
  obtain ⟨p,path,proper,told⟩ := run_reaches Proxy.step (fun p action => Current p action ∧ Undecided p action)
    (fun p => ProperAcks p ∧ p.completed = [2]) {servers:=5,db:={quorum:=3}} votesInTurn (by decide +kernel)
  exact ⟨p,path,proper,confirms_at_most_once 5 2 _ p votesInTurn rfl path proper,told⟩

theorem confirms_twice : ¬ ∀ (nodes faultTolerance : Nat) (initial p : Proxy) (actions : List Proxy.Act),
    Proxy.new nodes faultTolerance = some initial → Reaches Proxy.step initial actions p → ProperAcks p →
    (∀ r ∈ p.received, ∃ r' ∈ p.received, r'.hash = r.hash ∧ r'.suspect.isSome = true) → (broadcastHashes p).Nodup := by
  intro claimed
  obtain ⟨p,path,proper,speculated,twice⟩ := run_reaches Proxy.step (fun _ _ => True)
    (fun p => ProperAcks p ∧
      (∀ r ∈ p.received, ∃ r' ∈ p.received, r'.hash = r.hash ∧ r'.suspect.isSome = true) ∧ ¬ (broadcastHashes p).Nodup)
    {servers:=5,db:={quorum:=3}} voteBeforeDelete (by decide +kernel)
  exact twice (claimed 5 2 _ p voteBeforeDelete rfl path proper speculated)

-- No task is at work on an ack of this hash.
def Settled (p : Proxy) (hash : UInt64) : Prop :=
  ∀ c ∈ p.connections, ∀ pair ∈ working c.handler, pair.2.hash ≠ hash

instance (p : Proxy) (hash : UInt64) : Decidable (Settled p hash) :=
  inferInstanceAs (Decidable (∀ c ∈ p.connections, ∀ pair ∈ working c.handler, pair.2.hash ≠ hash))

def replicas (p : Proxy) (hash : UInt64) : Finset Nat :=
  ((p.received.filter fun r => r.hash = hash).map Receipt.source).toFinset

-- All servers have been told about an ack of this hash.
def Confirmed (p : Proxy) (hash : UInt64) : Prop :=
  ∃ k ∈ p.completed, ∃ r ∈ p.received[k]?, r.hash = hash

instance (p : Proxy) (hash : UInt64) : Decidable (Confirmed p hash) :=
  inferInstanceAs (Decidable (∃ k ∈ p.completed, ∃ r ∈ p.received[k]?, r.hash = hash))

-- A broadcast that began has ended or is under way.
def Completing (p : Proxy) : Prop :=
  ∀ k ∈ p.broadcasts, k ∈ p.completed ∨
    ∃ (i : Nat) (c : Connection) (r : Receipt) (remaining : List Nat),
      p.connections[i]? = some c ∧ c.handler = .confirming k r remaining

theorem Completing.move {p p' : Proxy} (completing : Completing p) (found : p.connections[conn]? = some ⟨source,old⟩)
    (connections : p'.connections = (p.setHandler conn new).connections)
    (broadcasts : p'.broadcasts = p.broadcasts) (completed : p'.completed = p.completed)
    (other : ∀ k r remaining, old = .confirming k r remaining → ∃ remaining', new = .confirming k r remaining') :
    Completing p' := by
  intro k member
  rw [broadcasts] at member
  rcases completing k member with done | ⟨i,c,r,remaining,present,busy⟩
  · exact .inl (completed ▸ done)
  · right
    by_cases same : conn = i
    · subst i
      cases found.symm.trans present
      obtain ⟨remaining',still⟩ := other k r remaining busy
      refine ⟨conn,⟨source,new⟩,r,remaining',?_,still⟩
      rw [connections,getElem?_setHandler,found]
      simp
    · refine ⟨i,c,r,remaining,?_,busy⟩
      rw [connections,getElem?_setHandler,present]
      simp [same]

theorem Completing.confirmRest {p : Proxy} (completing : Completing p)
    (found : p.connections[conn]? = some ⟨source,old⟩)
    (own : ∀ k r remaining, old = .confirming k r remaining → k = ack) (listed : k ∈ p.broadcasts ∨ k = ack) :
    k ∈ (p.confirmRest conn ack r remaining).completed ∨
      ∃ (i : Nat) (c : Connection) (r' : Receipt) (remaining' : List Nat),
        (p.confirmRest conn ack r remaining).connections[i]? = some c ∧ c.handler = .confirming k r' remaining' := by
  have handler := (confirmRest_parts p conn ack r remaining).1
  by_cases same : k = ack
  · subst k
    by_cases last : remaining = []
    · left
      simp [Proxy.confirmRest,last]
    · refine .inr ⟨conn,⟨source,.confirming ack r remaining⟩,r,remaining,?_,rfl⟩
      rw [handler,getElem?_setHandler,found]
      simp [confirmed,last]
  · rcases completing k (listed.resolve_right same) with done | ⟨i,c,r',remaining',present,busy⟩
    · left
      unfold Proxy.confirmRest
      split
      · exact List.mem_append_left _ done
      · exact done
    · refine .inr ⟨i,c,r',remaining',?_,busy⟩
      have distinct : conn ≠ i := by
        intro equal
        subst equal
        cases found.symm.trans present
        exact same (own k r' remaining' busy)
      rw [handler,getElem?_setHandler,present]
      simp [distinct]

theorem completing_step (completing : Completing p) (delivered : Delivered p action) (ran : Proxy.Step p action next) :
    Completing next := by
  cases ran with
  | connect =>
    intro k member
    rcases completing k member with done | ⟨i,c,r,remaining,present,busy⟩
    · exact .inl done
    · exact .inr ⟨i,c,r,remaining,
        getElem?_grown (List.prefix_append ..) present,busy⟩
  | request found => exact completing.move found rfl rfl rfl nofun
  | forward found pending => exact completing.move found rfl rfl rfl nofun
  | disconnect found => exact completing.move found rfl rfl rfl nofun
  | receive found =>
    rename_i conn place m source
    cases m with
    | ack cmd hash suspect lastIdx => exact completing.move found rfl rfl rfl nofun
    | _ => exact completing
  | get found => exact completing.move found rfl rfl rfl nofun
  | put found =>
    rename_i conn source ack r stored
    unfold Proxy.put
    dsimp only
    split
    · intro k member
      rcases List.mem_append.mp member with old | new
      · exact Completing.confirmRest (p := {p with db:=_}) completing found nofun (.inl old)
      · exact Completing.confirmRest (p := {p with db:=_}) completing found nofun (.inr (List.mem_singleton.mp new))
    · exact completing.move found rfl rfl rfl nofun
  | confirm found pending =>
    cases delivered
    intro k member
    have told : k ∈ p.broadcasts := by
      rw [Proxy.confirm,if_pos rfl,(confirmRest_parts ..).2.2.2] at member
      exact member
    refine Completing.confirmRest (p := {p with toServer:=_}) completing found ?_ (.inl told)
    intro k' r' remaining' same
    cases same
    rfl
  | respond found =>
    unfold Proxy.respond
    split <;> exact completing.move found rfl rfl rfl nofun
  | delete found => exact completing.move found rfl rfl rfl nofun

-- The numbers of the acks received for a hash.
def acksFor (p : Proxy) (hash : UInt64) : Finset Nat :=
  (Finset.range p.received.length).filter fun k => p.received[k]?.map Receipt.hash = some hash

theorem mem_acksFor {hash : UInt64} : k ∈ acksFor p hash ↔ ∃ r, p.received[k]? = some r ∧ r.hash = hash := by
  unfold acksFor
  rw [Finset.mem_filter,Finset.mem_range,Option.map_eq_some_iff]
  refine ⟨And.right,?_⟩
  intro held
  obtain ⟨r,there,same⟩ := held
  exact ⟨(List.getElem?_eq_some_iff.mp there).1,r,there,same⟩

-- Every replica counted behind the hash stands behind an ack of its own.
theorem replicas_le_acksFor (p : Proxy) (hash : UInt64) : (replicas p hash).card ≤ (acksFor p hash).card := by
  have covered : replicas p hash ⊆ (acksFor p hash).image fun k => ((p.received[k]?).map Receipt.source).getD 0 := by
    intro source member
    simp only [replicas,List.mem_toFinset,List.mem_map,List.mem_filter,decide_eq_true_eq] at member
    obtain ⟨r,⟨present,same⟩,rfl⟩ := member
    obtain ⟨k,there⟩ := List.mem_iff_getElem?.mp present
    exact Finset.mem_image.mpr ⟨k,mem_acksFor.mpr ⟨r,there,same⟩,by simp [there]⟩
  exact Nat.le_trans (Finset.card_le_card covered) Finset.card_image_le

theorem follows_counted {hash : UInt64} (follows : Follows quorum p t) (settled : Settled p hash)
    (there : p.received[k]? = some r) (same : r.hash = hash) : Tally.Counted Receipt.hash t hash k := by
  refine ⟨⟨r,follows.received ▸ there,same⟩,?_⟩
  rcases follows.counted there with cast | ⟨i,c,present,pending⟩
  · exact cast
  · exact absurd same (settled c (List.mem_of_getElem? present) (k,r) (uncounted_working pending))

-- One after the other, two votes of three servers decide.
def votesApart : List Proxy.Act := acksOf 2++(vote 0++(vote 1++(tell 1 3++[Proxy.Act.respond 1 true,.delete 1])))

-- Both tasks read before either writes.
def votesTogether : List Proxy.Act := acksOf 2++[Proxy.Act.get 0,.get 1,.put 0,.put 1]

end OmniPaxosKV.Votes
