import OmniPaxosKV.Machine
import Mathlib.Data.List.Infix

-- One connection between two processes: the actor that writes what is sent on it in
-- batches, the stream, and the actor that reads it.
namespace OmniPaxosKV.Connections
open Machine

-- A server's connection to a peer, a server's to a client, and a client's to a server.
inductive Kind where
  | peer | client | server
  deriving DecidableEq

-- `batch` and `chunk` are what the two actors have taken and not yet passed on. The
-- messages that were ever sent and those that arrived are kept besides.
structure Connection (M : Type) where
  sent : List M := []
  sender : Bool := true
  queue : List M := []
  batch : List M := []
  writing : Bool := false
  sink : List M := []
  writer : Bool := true
  wire : List M := []
  chunk : List M := []
  reader : Bool := true
  incoming : List M := []

-- `feedFails` and `flushFails` are the writer's errors, `readFails` is the stream's,
-- `garbled` is a frame that cannot be deserialized, and `unheard` is a reader that finds
-- nobody to read for. Each of the two processes can close its own end only.
inductive Act (M : Type) where
  | send (m : M)
  | hangUp
  | recvMany (count : Nat)
  | feed
  | feedFails
  | spill
  | flush
  | flushFails
  | finish
  | readyChunks (count : Nat)
  | forward
  | garbled
  | unheard
  | readFails
  | ended
  | closeWriter
  | closeReader
  deriving DecidableEq

variable {M : Type}

-- The writer's loop takes a batch, feeds it and flushes; the sink may pass on any
-- part of what it was fed before that.
def step (kind : Kind) (batchSize : Nat) (c : Connection M) : Act M → Option (Connection M)
  | .send m =>
    -- Only the client's channel is bounded.
    if c.sender ∧ c.writer ∧ (kind = .server → c.queue.length < batchSize) then
      some {c with sent:=c.sent++[m],queue:=c.queue++[m]}
    else none
  | .hangUp => some {c with sender:=false}
  | .recvMany count =>
    if c.writer ∧ ¬ c.writing ∧ 1 ≤ count ∧ count ≤ batchSize ∧ count ≤ c.queue.length then
      some {c with batch:=c.batch++c.queue.take count,queue:=c.queue.drop count,writing:=true}
    else none
  | .feed => match c.batch with
    | [] => none
    | m::rest => if c.writer then some {c with batch:=rest,sink:=c.sink++[m]} else none
  | .feedFails => match c.batch with
    | [] => none
    | _::_ =>
      if c.writer then match kind with
        -- The rest of the batch is dropped and what was fed before is flushed.
        | .peer | .server => some {c with batch:=[]}
        | .client => some {c with batch:=[],writing:=false,writer:=false}
      else none
  | .spill => match c.sink with
    | [] => none
    | m::rest => if c.writer then some {c with sink:=rest,wire:=c.wire++[m]} else none
  | .flush =>
    if c.writer ∧ c.writing ∧ c.batch = [] then some {c with sink:=[],wire:=c.wire++c.sink,writing:=false} else none
  | .flushFails => if c.writer ∧ c.writing ∧ c.batch = [] then some {c with writing:=false,writer:=false} else none
  | .finish =>
    if c.writer ∧ ¬ c.writing ∧ (c.sender = false ∧ c.queue = [] ∨ batchSize = 0) then some {c with writer:=false} else none
  | .readyChunks count =>
    if c.reader ∧ c.chunk = [] ∧ 1 ≤ count ∧ count ≤ batchSize ∧ count ≤ c.wire.length then
      some {c with chunk:=c.wire.take count,wire:=c.wire.drop count}
    else none
  | .forward => match c.chunk with
    | [] => none
    | m::rest => if c.reader then some {c with chunk:=rest,incoming:=c.incoming++[m]} else none
  | .garbled => match c.chunk with
    | [] => none
    | _::rest => if c.reader then some {c with chunk:=rest} else none
  | .unheard => match c.chunk with
    | [] => none
    | _::_ =>
      if c.reader then match kind with
        | .peer => some {c with chunk:=[]}
        | .client | .server => some {c with chunk:=[],reader:=false}
      else none
  | .readFails => if c.reader ∧ c.chunk = [] then some {c with reader:=false} else none
  | .ended =>
    if c.reader ∧ c.writer = false ∧ c.chunk = [] ∧ c.wire = [] then some {c with reader:=false} else none
  | .closeWriter => some {c with sender:=false,writer:=false}
  | .closeReader => some {c with reader:=false}

-- All that has left the sender and not arrived, wherever it is.
def Connection.held (c : Connection M) : List M := c.chunk++c.wire++c.sink++c.batch++c.queue

-- What can still arrive, in its order: what an ended task had taken is gone with it.
def Connection.pending (c : Connection M) : List M :=
  if c.reader then c.chunk++c.wire++(if c.writer then c.sink++c.batch++c.queue else []) else []

-- The steps that take nothing from what can still arrive, and send nothing in vain.
def Spares (c : Connection M) : Act M → Prop
  | .send _ => c.reader = true
  | .feedFails | .garbled | .unheard => False
  | .flushFails | .finish | .closeWriter => c.writer = true → c.sink = [] ∧ c.batch = [] ∧ c.queue = []
  | .readFails | .closeReader => c.pending = []
  | _ => True

theorem pending_sublist (c : Connection M) : c.pending.Sublist c.held := by
  unfold Connection.pending Connection.held
  split
  · split
    · simp only [List.append_assoc]
      exact List.Sublist.refl _
    · simp only [List.append_assoc,List.append_nil]
      exact (List.sublist_append_left _ _).append_left _
  · exact List.nil_sublist _

theorem step_sorted {c next : Connection M} (sorted : (c.incoming++c.held).Sublist c.sent)
    (ran : step kind batchSize c action = some next) : (next.incoming++next.held).Sublist next.sent := by
  have keeps : next.sent = c.sent → next.incoming++next.held = c.incoming++c.held →
      (next.incoming++next.held).Sublist next.sent := by
    intro sent onward
    rw [sent,onward]
    exact sorted
  have drops : next.sent = c.sent → next.incoming = c.incoming → next.held.Sublist c.held →
      (next.incoming++next.held).Sublist next.sent := by
    intro sent incoming fewer
    rw [sent,incoming]
    exact (fewer.append_left _).trans sorted
  cases action <;> simp only [step] at ran
  case send m =>
    split at ran <;> cases ran
    simp only [Connection.held,←List.append_assoc] at sorted ⊢
    exact sorted.append_right [m]
  case hangUp | closeWriter | closeReader =>
    cases ran
    exact sorted
  case recvMany count =>
    split at ran <;> cases ran
    refine keeps rfl ?_
    simp only [Connection.held,List.append_assoc,List.take_append_drop]
  case feed =>
    split at ran
    · cases ran
    · rename_i m rest batch
      split at ran <;> cases ran
      exact keeps rfl (by simp [Connection.held,batch])
  case feedFails =>
    split at ran
    · cases ran
    · rename_i m rest batch
      split at ran
      · cases kind <;> cases ran <;> refine drops rfl rfl ?_ <;> simp [Connection.held]
      · cases ran
  case spill =>
    split at ran
    · cases ran
    · rename_i m rest sink
      split at ran <;> cases ran
      exact keeps rfl (by simp [Connection.held,sink])
  case flush =>
    split at ran <;> cases ran
    exact keeps rfl (by simp [Connection.held])
  case flushFails | finish | readFails | ended =>
    split at ran <;> cases ran
    exact sorted
  case readyChunks count =>
    split at ran <;> cases ran
    rename_i meets
    refine keeps rfl ?_
    rw [Connection.held,Connection.held,List.take_append_drop,meets.2.1,List.nil_append]
  case forward =>
    split at ran
    · cases ran
    · rename_i m rest chunk
      split at ran <;> cases ran
      exact keeps rfl (by simp [Connection.held,chunk])
  case garbled =>
    split at ran
    · cases ran
    · rename_i m rest chunk
      split at ran <;> cases ran
      exact drops rfl rfl (by simp [Connection.held,chunk])
  case unheard =>
    split at ran
    · cases ran
    · rename_i m rest chunk
      split at ran
      · cases kind <;> cases ran <;> exact drops rfl rfl (by simp [Connection.held])
      · cases ran

-- A step that spares all keeps what has arrived or can arrive together with what was
-- sent. After any other, something that was sent can arrive no more.
inductive Outcome (c next : Connection M) (action : Act M) : Prop where
  | spares (meets : Spares c action) (more : List M) (sent : next.sent = c.sent++more)
      (onward : next.incoming++next.pending = c.incoming++c.pending++more)
  | wastes (fails : ¬ Spares c action) (short : (next.incoming++next.pending).length < next.sent.length)

theorem Outcome.keeps {c next : Connection M} (meets : Spares c action) (sent : next.sent = c.sent)
    (onward : next.incoming++next.pending = c.incoming++c.pending) : Outcome c next action :=
  .spares meets [] (by rw [sent,List.append_nil]) (by rw [onward,List.append_nil])

-- What a writer has left when it ends goes with it.
theorem Outcome.writer_ends {c next : Connection M} (counted : (c.incoming++c.held).length ≤ c.sent.length)
    (meets : Spares c action ↔ (c.writer = true → c.sink = [] ∧ c.batch = [] ∧ c.queue = []))
    (sent : next.sent = c.sent) (incoming : next.incoming = c.incoming)
    (pending : next.pending = if c.reader then c.chunk++c.wire++[] else []) : Outcome c next action := by
  by_cases empty : c.writer = true → c.sink = [] ∧ c.batch = [] ∧ c.queue = []
  · refine .keeps (meets.mpr empty) sent ?_
    rw [incoming,pending,Connection.pending]
    cases writer : c.writer with
    | false => rfl
    | true =>
      obtain ⟨sink,batch,queue⟩ := empty writer
      rw [sink,batch,queue]
      rfl
  · refine .wastes (fun spares => empty (meets.mp spares)) ?_
    have some : 0 < (c.sink++c.batch++c.queue).length := by
      refine List.length_pos_iff.mpr fun none => empty fun _ => ?_
      simpa only [List.append_eq_nil_iff,and_assoc] using none
    simp only [Connection.held,List.length_append] at counted some
    rw [incoming,pending,sent]
    split <;> simp only [List.length_append,List.append_nil] <;> omega

-- So does what was on its way to a reader.
theorem Outcome.reader_ends {c next : Connection M} (counted : (c.incoming++c.held).length ≤ c.sent.length)
    (meets : Spares c action ↔ c.pending = []) (sent : next.sent = c.sent) (incoming : next.incoming = c.incoming)
    (pending : next.pending = []) : Outcome c next action := by
  rcases eq_or_ne c.pending [] with none | some
  · exact .keeps (meets.mpr none) sent (by rw [incoming,pending,none])
  · refine .wastes (fun spares => some (meets.mp spares)) ?_
    have fewer := (pending_sublist c).length_le
    have positive := List.length_pos_iff.mpr some
    rw [List.length_append] at counted
    rw [incoming,pending,sent,List.append_nil]
    omega

theorem step_outcome {c next : Connection M} (counted : (c.incoming++c.held).length ≤ c.sent.length)
    (ran : step kind batchSize c action = some next) : Outcome c next action := by
  cases action <;> simp only [step] at ran
  case send m =>
    split at ran <;> cases ran
    rename_i meets
    cases reader : c.reader with
    | true =>
      refine .spares reader [m] rfl ?_
      simp [Connection.pending,reader,meets.2.1]
    | false =>
      refine .wastes (fun spares => by cases reader.symm.trans spares) ?_
      have arrived := Nat.le_trans (Nat.le_add_right _ _) (List.length_append.symm.trans_le counted)
      simp only [Connection.pending,Bool.false_eq_true,if_false,List.append_nil,List.length_append,List.length_singleton]
      exact Nat.lt_succ_of_le arrived
  case hangUp =>
    cases ran
    exact .keeps trivial rfl rfl
  case recvMany count =>
    split at ran <;> cases ran
    refine .keeps trivial rfl ?_
    simp only [Connection.pending,List.append_assoc,List.take_append_drop]
  case feed =>
    split at ran
    · cases ran
    · rename_i m rest batch
      split at ran <;> cases ran
      exact .keeps trivial rfl (by simp [Connection.pending,batch])
  case feedFails =>
    split at ran
    · cases ran
    · rename_i m rest batch
      split at ran
      · rename_i writer
        simp only [Connection.held,batch,List.length_append,List.length_cons] at counted
        cases kind <;> cases ran <;> refine .wastes id ?_ <;> simp only [Connection.pending,writer] <;> split <;> simp <;> omega
      · cases ran
  case spill =>
    split at ran
    · cases ran
    · rename_i m rest sink
      split at ran <;> cases ran
      exact .keeps trivial rfl (by simp [Connection.pending,sink,‹c.writer = true›])
  case flush =>
    split at ran <;> cases ran
    rename_i meets
    exact .keeps trivial rfl (by simp [Connection.pending,meets.1,meets.2.2])
  case readyChunks count =>
    split at ran <;> cases ran
    rename_i meets
    refine .keeps trivial rfl ?_
    simp [Connection.pending,meets.1,meets.2.1]
  case forward =>
    split at ran
    · cases ran
    · rename_i m rest chunk
      split at ran <;> cases ran
      exact .keeps trivial rfl (by simp [Connection.pending,chunk,‹c.reader = true›])
  case garbled =>
    split at ran
    · cases ran
    · rename_i m rest chunk
      split at ran <;> cases ran
      refine .wastes id ?_
      simp only [Connection.held,chunk,List.length_append,List.length_cons] at counted
      simp only [Connection.pending,‹c.reader = true›,if_true]
      cases c.writer <;> simp <;> omega
  case unheard =>
    split at ran
    · cases ran
    · rename_i m rest chunk
      split at ran
      · rename_i reader
        simp only [Connection.held,chunk,List.length_append,List.length_cons] at counted
        cases kind <;> cases ran <;> refine .wastes id ?_ <;> simp only [Connection.pending,reader,if_true,Bool.false_eq_true,if_false]
        · cases c.writer <;> simp <;> omega
        all_goals
          simp
          omega
      · cases ran
  case ended =>
    split at ran <;> cases ran
    rename_i meets
    exact .keeps trivial rfl (by simp [Connection.pending,meets.2.1,meets.2.2])
  case readFails =>
    split at ran <;> cases ran
    exact .reader_ends counted Iff.rfl rfl rfl rfl
  case closeReader =>
    cases ran
    exact .reader_ends counted Iff.rfl rfl rfl rfl
  case flushFails | finish =>
    split at ran <;> cases ran
    exact .writer_ends counted Iff.rfl rfl rfl rfl
  case closeWriter =>
    cases ran
    exact .writer_ends counted Iff.rfl rfl rfl rfl

theorem reached_sorted {c : Connection M} (path : Reaches (step kind batchSize) {} actions c) :
    (c.incoming++c.held).Sublist c.sent :=
  path.invariant (fun c => (c.incoming++c.held).Sublist c.sent) (fun _ _ _ sorted _ ran => step_sorted sorted ran)
    (List.Sublist.refl _)

theorem reached_complete_iff {c : Connection M} (path : Reaches (step kind batchSize) {} actions c) :
    c.incoming++c.pending = c.sent ↔ Runs (step kind batchSize) Spares {} actions c := by
  constructor
  · intro complete
    induction path with
    | nil => exact .nil
    | snoc earlier _ ran ih =>
      rcases step_outcome (reached_sorted earlier).length_le ran with ⟨spares,more,sent,onward⟩ | ⟨_,short⟩
      · rw [sent,onward] at complete
        exact .snoc (ih (List.append_cancel_right complete)) spares ran
      · rw [complete] at short
        exact absurd short (Nat.lt_irrefl _)
  · intro runs
    refine (runs.invariant (fun c => (c.incoming++c.held).Sublist c.sent ∧ c.incoming++c.pending = c.sent) ?_
      ⟨List.Sublist.refl _,rfl⟩).2
    intro c action next known spares ran
    refine ⟨step_sorted known.1 ran,?_⟩
    rcases step_outcome known.1.length_le ran with ⟨_,more,sent,onward⟩ | ⟨wastes,_⟩
    · rw [sent,onward,known.2]
    · exact absurd spares wastes

-- A writer that waits for messages has nothing left of those it took before.
def Rested (c : Connection M) : Prop := c.writer = true → c.writing = false → c.batch = [] ∧ c.sink = []

theorem step_rested {c next : Connection M} (rested : Rested c) (ran : step kind batchSize c action = some next) :
    Rested next := by
  intro alive waits
  cases action <;> simp only [step] at ran
  case recvMany =>
    split at ran <;> cases ran
    cases waits
  case feed =>
    split at ran
    · cases ran
    · rename_i batch
      split at ran <;> cases ran
      cases batch.symm.trans (rested alive waits).1
  case feedFails =>
    split at ran
    · cases ran
    · rename_i batch
      split at ran
      · cases kind <;> cases ran
        · cases batch.symm.trans (rested alive waits).1
        · cases alive
        · cases batch.symm.trans (rested alive waits).1
      · cases ran
  case spill =>
    split at ran
    · cases ran
    · rename_i sink
      split at ran <;> cases ran
      cases sink.symm.trans (rested alive waits).2
  case flush =>
    split at ran
    · rename_i meets
      cases ran
      exact ⟨meets.2.2,rfl⟩
    · cases ran
  case unheard =>
    split at ran
    · cases ran
    · split at ran
      · cases kind <;> cases ran <;> exact rested alive waits
      · cases ran
  case closeWriter =>
    cases ran
    cases alive
  case hangUp | closeReader =>
    cases ran
    exact rested alive waits
  case flushFails | finish =>
    split at ran <;> cases ran
    cases alive
  case send | readyChunks | readFails | ended =>
    split at ran <;> cases ran
    exact rested alive waits
  case forward | garbled =>
    split at ran
    · cases ran
    · split at ran <;> cases ran
      exact rested alive waits

def Connection.left (c : Connection M) : Nat :=
  7*c.queue.length+5*c.batch.length+4*c.sink.length+3*c.wire.length+2*c.chunk.length+(if c.writing then 1 else 0)

-- While something can still arrive, one of the two tasks has a step for it.
theorem advances {c : Connection M} (positive : 0 < batchSize) (rested : Rested c) (unfinished : c.pending ≠ []) :
    ∃ action next, Spares c action ∧ step kind batchSize c action = some next ∧ next.sent = c.sent ∧ next.left < c.left := by
  have reader : c.reader = true := by
    by_contra ended
    exact unfinished (if_neg ended)
  cases chunk : c.chunk with
  | cons m rest =>
    refine ⟨.forward,{c with chunk:=rest,incoming:=c.incoming++[m]},trivial,?_,rfl,?_⟩
    · simp [step,chunk,reader]
    · simp [Connection.left,chunk]
  | nil =>
    cases wire : c.wire with
    | cons m rest =>
      refine ⟨.readyChunks 1,{c with chunk:=[m],wire:=rest},trivial,?_,rfl,?_⟩
      · simp [step,chunk,wire,reader]
        exact positive.ne'
      · simp [Connection.left,chunk,wire]
        omega
    | nil =>
      have writer : c.writer = true := by
        by_contra ended
        exact unfinished (by simp [Connection.pending,reader,ended,chunk,wire])
      cases batch : c.batch with
      | cons m rest =>
        refine ⟨.feed,{c with batch:=rest,sink:=c.sink++[m]},trivial,?_,rfl,?_⟩
        · simp [step,batch,writer]
        · simp [Connection.left,batch]
          omega
      | nil =>
        cases writing : c.writing with
        | true =>
          refine ⟨.flush,{c with sink:=[],wire:=c.wire++c.sink,writing:=false},trivial,?_,rfl,?_⟩
          · simp [step,batch,writer,writing]
          · simp [Connection.left,wire,writing]
            omega
        | false =>
          cases queue : c.queue with
          | nil =>
            refine absurd ?_ unfinished
            simp [Connection.pending,chunk,wire,batch,queue,(rested writer writing).2]
          | cons m rest =>
            refine ⟨.recvMany 1,{c with batch:=[m],queue:=rest,writing:=true},trivial,?_,rfl,?_⟩
            · simp [step,batch,writer,writing,queue]
              exact positive.ne'
            · simp [Connection.left,batch,queue,writing]
              omega

-- What can still arrive does, as long as the tasks that hold it go on and nothing more is lost.
theorem drains {c : Connection M} (positive : 0 < batchSize) (path : Reaches (step kind batchSize) {} actions c) :
    ∃ later final, Runs (step kind batchSize) Spares c later final ∧ final.incoming = c.incoming++c.pending ∧
      final.sent = c.sent := by
  let valid (s : Connection M) := Rested s ∧ (s.incoming++s.held).Sublist s.sent ∧ s.sent = c.sent ∧
    s.incoming++s.pending = c.incoming++c.pending
  have rested := path.invariant Rested (fun _ _ _ rested _ ran => step_rested rested ran) (fun _ _ => ⟨rfl,rfl⟩)
  have advance : ∀ s, valid s → ¬ s.pending = [] → ∃ later next,
      Runs (step kind batchSize) Spares s later next ∧ valid next ∧ next.left < s.left := by
    rintro s ⟨rested,sorted,sent,onward⟩ unfinished
    obtain ⟨action,next,spares,ran,sent',less⟩ := advances positive rested unfinished
    refine ⟨_,next,Runs.nil.snoc spares ran,⟨step_rested rested ran,step_sorted sorted ran,sent'.trans sent,?_⟩,less⟩
    rcases step_outcome sorted.length_le ran with ⟨_,more,grown,kept⟩ | ⟨wastes,_⟩
    · have none : more = [] := List.append_right_eq_self.mp (grown.symm.trans sent')
      rw [kept,none,List.append_nil,onward]
    · exact absurd spares wastes
  obtain ⟨later,final,runs,⟨_,_,sent,onward⟩,finished⟩ :=
    Runs.exhaust valid (·.pending = []) Connection.left advance ⟨rested,reached_sorted path,rfl,rfl⟩
  rw [finished,List.append_nil] at onward
  exact ⟨later,final,runs,onward,sent⟩

-- On a server's connection to a client, all that can still arrive follows on what did.
structure Gapless (c : Connection M) : Prop where
  arrived : c.incoming <+: c.sent
  onward : c.reader = true → ∃ rest, c.sent = c.incoming++c.chunk++c.wire++rest ∧
    (c.writer = true → rest = c.sink++c.batch++c.queue)

theorem Gapless.keep {c next : Connection M} (gapless : Gapless c) (sent : next.sent = c.sent)
    (incoming : next.incoming = c.incoming) (chunk : next.chunk++next.wire = c.chunk++c.wire)
    (reader : next.reader = true → c.reader = true)
    (writer : next.writer = true → c.writer = true ∧ next.sink++next.batch++next.queue = c.sink++c.batch++c.queue) :
    Gapless next := by
  refine ⟨by rw [sent,incoming]; exact gapless.arrived,?_⟩
  intro reads
  obtain ⟨rest,all,follows⟩ := gapless.onward (reader reads)
  refine ⟨rest,?_,?_⟩
  · rw [sent,incoming,all,List.append_assoc c.incoming,←chunk,←List.append_assoc c.incoming]
  · intro writes
    obtain ⟨before,same⟩ := writer writes
    rw [same]
    exact follows before

theorem step_gapless {c next : Connection M} (gapless : Gapless c) (unspoilt : action ≠ .garbled)
    (ran : step .client batchSize c action = some next) : Gapless next := by
  cases action <;> simp only [step] at ran
  case send m =>
    split at ran <;> cases ran
    refine ⟨gapless.arrived.trans (List.prefix_append _ _),?_⟩
    intro reads
    obtain ⟨rest,all,follows⟩ := gapless.onward reads
    refine ⟨rest++[m],by rw [all,List.append_assoc],?_⟩
    intro writes
    rw [follows writes,List.append_assoc]
  case hangUp =>
    cases ran
    exact gapless.keep rfl rfl rfl id (fun writes => ⟨writes,rfl⟩)
  case recvMany count =>
    split at ran <;> cases ran
    refine gapless.keep rfl rfl rfl id (fun writes => ⟨writes,?_⟩)
    simp only [List.append_assoc,List.take_append_drop]
  case feed =>
    split at ran
    · cases ran
    · rename_i batch
      split at ran <;> cases ran
      exact gapless.keep rfl rfl rfl id (fun writes => ⟨writes,by simp [batch]⟩)
  case feedFails =>
    split at ran
    · cases ran
    · split at ran <;> cases ran
      exact gapless.keep rfl rfl rfl id (fun writes => nomatch writes)
  case spill =>
    split at ran
    · cases ran
    · rename_i m others sink
      split at ran <;> cases ran
      rename_i alive
      refine ⟨gapless.arrived,?_⟩
      intro reads
      obtain ⟨rest,all,follows⟩ := gapless.onward reads
      refine ⟨others++c.batch++c.queue,?_,fun _ => rfl⟩
      rw [all,follows alive,sink]
      simp
  case flush =>
    split at ran <;> cases ran
    rename_i meets
    refine ⟨gapless.arrived,?_⟩
    intro reads
    obtain ⟨rest,all,follows⟩ := gapless.onward reads
    refine ⟨c.queue,?_,fun _ => by simp [meets.2.2]⟩
    rw [all,follows meets.1,meets.2.2]
    simp
  case flushFails | finish =>
    split at ran <;> cases ran
    exact gapless.keep rfl rfl rfl id (fun writes => nomatch writes)
  case readyChunks count =>
    split at ran <;> cases ran
    rename_i meets
    exact gapless.keep rfl rfl (by simp [meets.2.1]) id (fun writes => ⟨writes,rfl⟩)
  case forward =>
    split at ran
    · cases ran
    · rename_i m others chunk
      split at ran <;> cases ran
      rename_i alive
      obtain ⟨rest,all,follows⟩ := gapless.onward alive
      refine ⟨⟨others++c.wire++rest,by rw [all,chunk]; simp⟩,fun _ => ⟨rest,by rw [all,chunk]; simp,follows⟩⟩
  case garbled => exact absurd rfl unspoilt
  case unheard =>
    split at ran
    · cases ran
    · split at ran <;> cases ran
      exact ⟨gapless.arrived,fun reads => nomatch reads⟩
  case readFails | ended =>
    split at ran <;> cases ran
    exact ⟨gapless.arrived,fun reads => nomatch reads⟩
  case closeWriter =>
    cases ran
    exact gapless.keep rfl rfl rfl id (fun writes => nomatch writes)
  case closeReader =>
    cases ran
    exact ⟨gapless.arrived,fun reads => nomatch reads⟩

-- A message that cannot be written is skipped, and the next one arrives.
theorem skips (a b : M) (positive : 0 < batchSize) (other : kind ≠ .client) :
    ∃ actions c, Runs (step kind batchSize) (fun _ action => action ≠ .garbled) {} actions c ∧
      c.sent = [a,b] ∧ c.incoming = [b] := by
  classical
  have enough : 1 ≤ batchSize := positive
  refine ⟨[.send a,.recvMany 1,.feedFails,.flush,.send b,.recvMany 1,.feed,.flush,.readyChunks 1,.forward],
    {sent:=[a,b],incoming:=[b]},run_sound ?_,rfl,rfl⟩
  cases kind with
  | client => exact absurd rfl other
  | peer | server => simp [run,step,enough,positive]

-- What has arrived is always all that was sent first, if no frame is garbled, exactly on a
-- server's connection to a client: the other two go on after a message they could not write.
theorem gapless_iff [Nontrivial M] (kind : Kind) (positive : 0 < batchSize) :
    (∀ actions (c : Connection M), Runs (step kind batchSize) (fun _ action => action ≠ .garbled) {} actions c →
      c.incoming <+: c.sent) ↔ kind = .client := by
  constructor
  · intro always
    by_contra other
    obtain ⟨a,b,distinct⟩ := exists_pair_ne M
    obtain ⟨actions,c,path,sent,incoming⟩ := skips a b positive other
    have first := always actions c path
    rw [sent,incoming] at first
    exact distinct (List.cons_prefix_cons.mp first).1.symm
  · rintro rfl actions c path
    exact (path.invariant Gapless (fun _ _ _ gapless unspoilt ran => step_gapless gapless unspoilt ran)
      ⟨List.prefix_refl _,fun _ => ⟨[],rfl,fun _ => rfl⟩⟩).arrived

theorem gapless_iff_peer : (∀ actions (c : Connection Nat), Runs (step .peer 1) (fun _ action => action ≠ .garbled) {} actions c →
    c.incoming <+: c.sent) ↔ Kind.peer = .client :=
  gapless_iff .peer (by decide)

end OmniPaxosKV.Connections
