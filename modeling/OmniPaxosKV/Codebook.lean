import Mathlib.Data.List.Forall2
import Mathlib.Data.List.MinMax
import Mathlib.Data.List.Perm.Basic
import Mathlib.Data.List.Nodup

-- A sender replaces values it has sent before by short codes, and a receiver
-- that makes the same decisions puts them back. Both are machines that answer
-- each input and move on; nothing here says how they are built.
namespace OmniPaxosKV

namespace Transducer
variable {I O S T S' T' A B : Type}

-- The answers to a sequence of inputs, in their order.
def feed (step : I → S → Option (O × S)) : List I → S → Option (List O × S)
  | [],s => some ([],s)
  | input::rest,s => do
    let (output,s) ← step input s
    let (outputs,s) ← feed step rest s
    return (output::outputs,s)

theorem feed_cons {step : I → S → Option (O × S)} : feed step (input::rest) s = some (outputs,final) ↔
    ∃ output middle others, step input s = some (output,middle) ∧ feed step rest middle = some (others,final) ∧
      outputs = output::others := by
  simp only [feed,Option.bind_eq_bind,Option.bind_eq_some_iff,Prod.exists,Option.pure_def,Option.some.injEq,Prod.mk.injEq]
  constructor
  · rintro ⟨output,middle,moved,others,last,later,rfl,rfl⟩
    exact ⟨output,middle,others,moved,later,rfl⟩
  · rintro ⟨output,middle,others,moved,later,rfl⟩
    exact ⟨output,middle,moved,others,final,later,rfl,rfl⟩

-- Two machines that answer alike, or stop together, and stay related.
theorem feed_alike {left : I → S → Option (O × S)} {right : I → T → Option (O × T)} (related : S → T → Prop)
    (step : ∀ input s t, related s t → (left input s = none ∧ right input t = none) ∨ ∃ output s' t',
      left input s = some (output,s') ∧ right input t = some (output,t') ∧ related s' t')
    (inputs : List I) (start : related s t) : (feed left inputs s).map Prod.fst = (feed right inputs t).map Prod.fst := by
  induction inputs generalizing s t with
  | nil => rfl
  | cons input rest ih =>
    rcases step input s t start with ⟨stopped,stopped'⟩ | ⟨output,s',t',moved,moved',onward⟩
    · simp only [feed,stopped,stopped',Option.bind_eq_bind,Option.bind_none]
      rfl
    · have same := ih onward
      simp only [feed,moved,moved',Option.bind_eq_bind,Option.bind_some,Option.pure_def]
      cases first : feed left rest s' with
      | none =>
        rw [first] at same
        cases second : feed right rest t' with
        | none => rfl
        | some => simp [second] at same
      | some result =>
        rw [first] at same
        obtain ⟨result',second,equal⟩ := Option.map_eq_some_iff.mp same.symm
        simp only [second,Option.bind_some,Option.map_some,equal]

-- Machines that answer every sequence alike answer the next input alike, and do so
-- again from where it takes them.
theorem alike_now {left : I → S → Option (O × S)} {right : I → T → Option (O × T)}
    (same : ∀ inputs, (feed left inputs s).map Prod.fst = (feed right inputs t).map Prod.fst) (input : I) :
    (left input s).map Prod.fst = (right input t).map Prod.fst := by
  have once := same [input]
  simp only [feed,Option.bind_eq_bind,Option.bind_some,Option.pure_def] at once
  cases moved : left input s with
  | none =>
    cases moved' : right input t with
    | none => rfl
    | some => simp [moved,moved'] at once
  | some result =>
    cases moved' : right input t with
    | none => simp [moved,moved'] at once
    | some => simpa [moved,moved'] using once

theorem alike_later {left : I → S → Option (O × S)} {right : I → T → Option (O × T)}
    (same : ∀ inputs, (feed left inputs s).map Prod.fst = (feed right inputs t).map Prod.fst)
    (input : I) (moved : left input s = some (output,s')) (moved' : right input t = some (output',t')) (inputs : List I) :
    (feed left inputs s').map Prod.fst = (feed right inputs t').map Prod.fst := by
  have onward := same (input::inputs)
  simp only [feed,moved,moved',Option.bind_eq_bind,Option.bind_some,Option.pure_def] at onward
  cases first : feed left inputs s' with
  | none =>
    cases second : feed right inputs t' with
    | none => rfl
    | some => simp [first,second] at onward
  | some =>
    cases second : feed right inputs t' with
    | none => simp [first,second] at onward
    | some =>
      simp only [first,second,Option.bind_some,Option.map_some,Option.some.injEq,List.cons.injEq] at onward
      exact congrArg some onward.2

-- Every value that goes in at the sender comes out at the receiver, and neither stops.
def Conveys (encode : I → S → Option (A × S)) (decode : A → T → Option (I × T)) (sender : S) (receiver : T)
    (values : List I) : Prop :=
  ∃ answers sender' receiver', feed encode values sender = some (answers,sender') ∧
    feed decode answers receiver = some (values,receiver')

variable {encode : I → S → Option (A × S)} {decode : A → T → Option (I × T)}

theorem conveys_nil (sender : S) (receiver : T) : Conveys encode decode sender receiver [] :=
  ⟨[],sender,receiver,rfl,rfl⟩

-- The two can as well take turns.
theorem conveys_cons : Conveys encode decode sender receiver (value::rest) ↔ ∃ answer sender' receiver',
    encode value sender = some (answer,sender') ∧ decode answer receiver = some (value,receiver') ∧
      Conveys encode decode sender' receiver' rest := by
  constructor
  · rintro ⟨answers,last,final,sent,received⟩
    obtain ⟨answer,sender',others,first,later,rfl⟩ := feed_cons.mp sent
    obtain ⟨_,receiver',_,taken,after,same⟩ := feed_cons.mp received
    cases same
    exact ⟨answer,sender',receiver',first,taken,others,last,final,later,after⟩
  · rintro ⟨answer,sender',receiver',first,taken,others,last,final,later,after⟩
    exact ⟨answer::others,last,final,feed_cons.mpr ⟨_,_,_,first,later,rfl⟩,feed_cons.mpr ⟨_,_,_,taken,after,rfl⟩⟩

theorem conveys_answered (answered : encode value sender = some (answer,sender')) :
    Conveys encode decode sender receiver (value::rest) ↔
      ∃ receiver', decode answer receiver = some (value,receiver') ∧ Conveys encode decode sender' receiver' rest := by
  rw [conveys_cons]
  constructor
  · rintro ⟨_,_,receiver',again,taken,onward⟩
    cases again.symm.trans answered
    exact ⟨receiver',taken,onward⟩
  · rintro ⟨receiver',taken,onward⟩
    exact ⟨answer,sender',receiver',answered,taken,onward⟩

-- Sender and receiver stay in a relation in which the next value comes through.
theorem conveys_of_related (related : S → T → Prop)
    (step : ∀ value sender receiver, related sender receiver → ∃ answer sender' receiver',
      encode value sender = some (answer,sender') ∧ decode answer receiver = some (value,receiver') ∧
        related sender' receiver')
    (values : List I) (start : related sender receiver) : Conveys encode decode sender receiver values := by
  induction values generalizing sender receiver with
  | nil => exact conveys_nil sender receiver
  | cons value rest ih =>
    obtain ⟨answer,sender',receiver',first,taken,onward⟩ := step value sender receiver start
    exact conveys_cons.mpr ⟨answer,sender',receiver',first,taken,ih onward⟩

-- A sender that never stops is followed by a simpler one, with its answers under another name.
structure SendsAs (encode : I → S → Option (A × S)) (simple : I → S' → B × S') (image : B → A) (proper : B → Prop)
    (tracks : S → S' → Prop) : Prop where
  step : ∀ value s s', tracks s s' → proper (simple value s').1 ∧
    ∃ next, encode value s = some (image (simple value s').1,next) ∧ tracks next (simple value s').2

-- A receiver is followed by a simpler one that stops where it does.
structure ReceivesAs (decode : A → T → Option (I × T)) (simple : B → T' → Option (I × T')) (image : B → A)
    (proper : B → Prop) (tracks : T → T' → Prop) : Prop where
  step : ∀ answer value t t' next', tracks t t' → proper answer → simple answer t' = some (value,next') →
    ∃ next, decode (image answer) t = some (value,next) ∧ tracks next next'
  stops : ∀ answer t t', tracks t t' → proper answer → simple answer t' = none → decode (image answer) t = none

variable {simple : I → S' → B × S'} {reader : B → T' → Option (I × T')} {image : B → A} {proper : B → Prop}
  {sends : S → S' → Prop} {receives : T → T' → Prop}

-- A sender that is followed never stops and stays followed.
theorem SendsAs.feed (sending : SendsAs encode simple image proper sends) (values : List I) (sent : sends s s') :
    ∃ answers final final', feed encode values s = some (answers,final) ∧ sends final final' := by
  induction values generalizing s s' with
  | nil => exact ⟨[],s,s',rfl,sent⟩
  | cons value rest ih =>
    obtain ⟨_,next,answered,sent'⟩ := sending.step value s s' sent
    obtain ⟨answers,final,final',later,kept⟩ := ih sent'
    exact ⟨_,final,final',feed_cons.mpr ⟨_,next,answers,answered,later,rfl⟩,kept⟩

-- Whether values come through can be run.
theorem conveys_iff_run : Conveys encode decode sender receiver values ↔
    ((Transducer.feed encode values sender).bind fun sent => Transducer.feed decode sent.1 receiver).map Prod.fst = some values := by
  simp only [Conveys,Option.map_eq_some_iff,Option.bind_eq_some_iff,Prod.exists]
  constructor
  · rintro ⟨answers,sender',receiver',sent,received⟩
    exact ⟨values,receiver',⟨answers,sender',sent,received⟩,rfl⟩
  · rintro ⟨_,receiver',⟨answers,sender',sent,received⟩,rfl⟩
    exact ⟨answers,sender',receiver',sent,received⟩

-- What a sender and a receiver convey is what the simpler ones convey.
theorem conveys_iff (sending : SendsAs encode simple image proper sends)
    (receiving : ReceivesAs decode reader image proper receives) (sent : sends s s') (received : receives t t') :
    Conveys encode decode s t values ↔ Conveys (fun value s => some (simple value s)) reader s' t' values := by
  induction values generalizing s s' t t' with
  | nil => exact iff_of_true (conveys_nil s t) (conveys_nil s' t')
  | cons value rest ih =>
    obtain ⟨fine,next,answered,sent'⟩ := sending.step value s s' sent
    have plain : (fun value s => some (simple value s)) value s' = some ((simple value s').1,(simple value s').2) := rfl
    rw [conveys_answered answered,conveys_answered plain]
    constructor
    · rintro ⟨after,taken,onward⟩
      cases read : reader (simple value s').1 t' with
      | none => cases (receiving.stops _ t t' received fine read).symm.trans taken
      | some result =>
        obtain ⟨value',next'⟩ := result
        obtain ⟨_,again,received'⟩ := receiving.step _ value' t t' next' received fine read
        cases again.symm.trans taken
        exact ⟨next',rfl,(ih sent' received').mp onward⟩
    · rintro ⟨next',read,onward⟩
      obtain ⟨after,taken,received'⟩ := receiving.step _ value t t' next' received fine read
      exact ⟨after,taken,(ih sent' received').mpr onward⟩

end Transducer

-- Lists whose items each have a key of their own.
namespace Keyed
variable {α κ : Type} [DecidableEq κ] {key : α → κ}

theorem find_iff {items : List α} (distinct : (items.map key).Nodup) :
    (items.find? fun item => key item = wanted) = some item ↔ item ∈ items ∧ key item = wanted := by
  constructor
  · intro found
    exact ⟨List.mem_of_find?_eq_some found,by simpa using List.find?_some found⟩
  · rintro ⟨member,rfl⟩
    induction items with
    | nil => cases member
    | cons first rest ih =>
      rw [List.map_cons,List.nodup_cons] at distinct
      by_cases same : key first = key item
      · rcases List.mem_cons.mp member with rfl | later
        · rw [List.find?_cons_of_pos (by simp)]
        · exact absurd (same ▸ List.mem_map_of_mem later) distinct.1
      · rw [List.find?_cons_of_neg (by simpa using same)]
        rcases List.mem_cons.mp member with rfl | later
        · exact absurd rfl same
        · exact ih distinct.2 later

theorem find_none_iff {items : List α} : (items.find? fun item => key item = wanted) = none ↔ wanted ∉ items.map key := by
  simp

theorem filter_absent {items : List α} (absent : wanted ∉ items.map key) :
    (items.filter fun item => key item ≠ wanted) = items := by
  refine List.filter_eq_self.mpr ?_
  intro item member
  have other : key item ≠ wanted := fun same => absent (same ▸ List.mem_map_of_mem member)
  simpa using other

-- Filtering a key out takes its one item from its place.
theorem filter_split {before after : List α} {item : α} (distinct : ((before++item::after).map key).Nodup) :
    ((before++item::after).filter fun other => key other ≠ key item) = before++after := by
  have moved := (List.perm_middle.map key).nodup_iff.mp distinct
  rw [List.map_cons,List.nodup_cons,List.map_append,List.mem_append,not_or] at moved
  obtain ⟨⟨early,late⟩,_⟩ := moved
  rw [List.filter_append,List.filter_cons_of_neg (by simp),filter_absent early,filter_absent late]

-- Two lists of one image, of items that the image tells apart.
theorem eq_of_map_eq {β : Type} {f : α → β} {items others : List α} (apart : ∀ item ∈ items, ∀ other ∈ others, f item = f other → item = other)
    (same : items.map f = others.map f) : items = others := by
  refine List.ext_getElem (by simpa using congrArg List.length same) ?_
  intro i within within'
  refine apart _ (List.getElem_mem within) _ (List.getElem_mem within') ?_
  have images := List.getElem_of_eq same (by rw [List.length_map]; exact within)
  rwa [List.getElem_map,List.getElem_map] at images

-- An order of the images is an order of the items.
theorem exists_map_perm {β : Type} {f : α → β} {order : List β} {items : List α} (perm : order.Perm (items.map f)) :
    ∃ copied : List α, copied.Perm items ∧ order = copied.map f := by
  have paired : List.Forall₂ (fun image item => image = f item) (items.map f) items :=
    List.forall₂_map_left_iff.mpr (List.forall₂_same.mpr fun _ _ => rfl)
  obtain ⟨copied,images,order'⟩ := List.perm_comp_forall₂ perm paired
  refine ⟨copied,order',?_⟩
  have equal : List.Forall₂ (fun image image' => image = image') order (copied.map f) := List.forall₂_map_right_iff.mpr images
  rwa [List.forall₂_eq_eq_eq] at equal

end Keyed

-- A value with its code and the number of times it was used since it came in.
structure Slot (F : Type) where
  field : F
  code : Nat
  uses : Nat
  deriving DecidableEq

def Slot.binding (slot : Slot F) : F × Nat := (slot.field,slot.code)

-- Slots stand in the order of their last use, oldest first; codes are handed out in order.
structure Codebook (F : Type) where
  slots : List (Slot F) := []
  issued : Nat := 0

namespace Codebook
variable {F : Type}

def withoutCode (code : Nat) (slots : List (Slot F)) : List (Slot F) := slots.filter fun slot => slot.code ≠ code

def renew (slot : Slot F) (b : Codebook F) : Codebook F :=
  {b with slots:=withoutCode slot.code b.slots++[{slot with uses:=slot.uses+1}]}

-- The slot to give up: the oldest of those whose use counts rank least.
def victim (rank : Nat → Nat) (slots : List (Slot F)) : Option (Slot F) :=
  slots.find? fun slot => slots.all fun other => rank slot.uses ≤ rank other.uses

-- A value that has no code takes the next one, or that of the slot to give up.
def store (rank : Nat → Nat) (size : Nat) (field : F) (b : Codebook F) : Codebook F :=
  if b.slots.length = size then
    match victim rank b.slots with
    | some slot => {b with slots:=withoutCode slot.code b.slots++[⟨field,slot.code,1⟩]}
    | none => b
  else ⟨b.slots++[⟨field,b.issued+1,1⟩],b.issued+1⟩

-- A code when there is one, and the value itself otherwise.
def encode [DecidableEq F] (rank : Nat → Nat) (size : Nat) (field : F) (b : Codebook F) : (Nat ⊕ F) × Codebook F :=
  match b.slots.find? fun slot => slot.field = field with
  | some slot => (.inl slot.code,b.renew slot)
  | none => (.inr field,b.store rank size field)

def decode (rank : Nat → Nat) (size : Nat) : Nat ⊕ F → Codebook F → Option (F × Codebook F)
  | .inl code,b => (b.slots.find? fun slot => slot.code = code).map fun slot => (slot.field,b.renew slot)
  | .inr field,b => some (field,b.store rank size field)

-- No code is handed out twice, and none before the slots run out.
structure Numbered (size : Nat) (b : Codebook F) : Prop where
  codes : (b.slots.map Slot.code).Nodup
  issued : ∀ slot ∈ b.slots, 1 ≤ slot.code ∧ slot.code ≤ b.issued
  count : b.issued = b.slots.length
  within : b.slots.length ≤ size

-- No value has two codes either, and each was used when it came in.
structure Sound (size : Nat) (b : Codebook F) : Prop extends Numbered size b where
  fields : (b.slots.map Slot.field).Nodup
  used : ∀ slot ∈ b.slots, 1 ≤ slot.uses

section Lists
variable {slots : List (Slot F)}

theorem find_code (codes : (slots.map Slot.code).Nodup) : (slots.find? fun slot => slot.code = code) = some slot ↔
    slot ∈ slots ∧ slot.code = code := Keyed.find_iff codes

-- A slot leaves its place and no other slot moves.
theorem withoutCode_split (codes : (slots.map Slot.code).Nodup) (same : slots = before++slot::after) :
    withoutCode slot.code slots = before++after := by
  subst same
  exact Keyed.filter_split codes

theorem victim_some {rank : Nat → Nat} (found : victim rank slots = some slot) :
    ∃ before after, slots = before++slot::after ∧ (∀ other ∈ slots, rank slot.uses ≤ rank other.uses) ∧
      ∀ other ∈ before, rank slot.uses < rank other.uses := by
  obtain ⟨least,before,after,same,greater⟩ := List.find?_eq_some_iff_append.mp found
  have least : ∀ other ∈ slots, rank slot.uses ≤ rank other.uses := by simpa using least
  refine ⟨before,after,same,least,?_⟩
  intro other member
  obtain ⟨lower,within,below⟩ : ∃ lower ∈ slots, rank lower.uses < rank other.uses := by simpa using greater other member
  exact Nat.lt_of_le_of_lt (least lower within) below

theorem victim_exists (rank : Nat → Nat) (some : slots ≠ []) : ∃ slot, victim rank slots = .some slot := by
  cases least : slots.argmin fun slot => rank slot.uses with
  | none => exact absurd (List.argmin_eq_none.mp least) some
  | some slot =>
    refine Option.isSome_iff_exists.mp (List.find?_isSome.mpr ⟨slot,List.argmin_mem least,?_⟩)
    simpa using fun other member => List.le_of_mem_argmin member least

end Lists

section Steps
variable {rank : Nat → Nat} {size : Nat} {b : Codebook F}

-- What a value without a code does: room is left, or a slot is given up.
theorem store_cases (rank : Nat → Nat) (sized : 1 ≤ size) (valid : Numbered size b) (field : F) :
    (b.slots.length < size ∧ b.store rank size field = ⟨b.slots++[⟨field,b.issued+1,1⟩],b.issued+1⟩) ∨
    (b.slots.length = size ∧ ∃ slot before after, b.slots = before++slot::after ∧
      ((∀ other ∈ b.slots, rank slot.uses ≤ rank other.uses) ∧ ∀ other ∈ before, rank slot.uses < rank other.uses) ∧
      b.store rank size field = {b with slots:=before++after++[⟨field,slot.code,1⟩]}) := by
  unfold store
  by_cases full : b.slots.length = size
  · have some : b.slots ≠ [] := by
      rintro none
      rw [none,List.length_nil] at full
      omega
    obtain ⟨slot,chosen⟩ := victim_exists rank some
    obtain ⟨before,after,same,given⟩ := victim_some chosen
    refine .inr ⟨full,slot,before,after,same,given,?_⟩
    simp only [if_pos full,chosen,withoutCode_split valid.codes same]
  · exact .inl ⟨Nat.lt_of_le_of_ne valid.within full,if_neg full⟩

theorem renew_split (valid : Numbered size b) (member : slot ∈ b.slots) : ∃ before after, b.slots = before++slot::after ∧
    b.renew slot = {b with slots:=before++after++[{slot with uses:=slot.uses+1}]} := by
  obtain ⟨before,after,same⟩ := List.append_of_mem member
  exact ⟨before,after,same,by rw [renew,withoutCode_split valid.codes same]⟩

theorem perm_moved (before after : List (Slot F)) (slot : Slot F) : (before++slot::after).Perm (before++after++[slot]) :=
  List.perm_middle.trans (List.perm_append_singleton slot (before++after)).symm

-- A slot moves to the end, whatever becomes of its value and its uses.
theorem Numbered.moved (valid : Numbered size b) (same : b.slots = before++slot::after) (kept : last.code = slot.code) :
    Numbered size {b with slots:=before++after++[last]} := by
  have order := perm_moved before after slot
  rw [←same] at order
  have codes : (before++after++[last]).map Slot.code = (before++after++[slot]).map Slot.code := by
    simp only [List.map_append,List.map_cons,kept,List.map_nil]
  have length : (before++after++[last]).length = b.slots.length := by
    rw [order.length_eq]
    simp only [List.length_append,List.length_singleton]
  refine ⟨?_,?_,valid.count.trans length.symm,?_⟩
  · rw [codes]
    exact (order.map Slot.code).nodup_iff.mp valid.codes
  · intro other member
    rcases List.mem_append.mp member with earlier | ended
    · exact valid.issued other (order.mem_iff.mpr (List.mem_append_left _ earlier))
    · cases List.mem_singleton.mp ended
      rw [kept]
      exact valid.issued slot (order.mem_iff.mpr (List.mem_append_right _ List.mem_cons_self))
  · rw [length]
    exact valid.within

theorem Numbered.renewed (valid : Numbered size b) (member : slot ∈ b.slots) : Numbered size (b.renew slot) := by
  obtain ⟨before,after,same,renewed⟩ := renew_split valid member
  rw [renewed]
  exact valid.moved same rfl

theorem Numbered.stored (rank : Nat → Nat) (sized : 1 ≤ size) (valid : Numbered size b) (field : F) : Numbered size (b.store rank size field) := by
  rcases store_cases rank sized valid field with ⟨room,stored⟩ | ⟨_,slot,before,after,same,_,stored⟩
  · rw [stored]
    refine ⟨?_,?_,?_,?_⟩
    · rw [List.map_append,List.nodup_append]
      refine ⟨valid.codes,List.nodup_singleton _,?_⟩
      intro code earlier _ last
      obtain ⟨slot,member,rfl⟩ := List.mem_map.mp earlier
      have bound := (valid.issued slot member).2
      rw [List.mem_singleton.mp last]
      exact Nat.ne_of_lt (Nat.lt_succ_of_le bound)
    · intro slot member
      rcases List.mem_append.mp member with earlier | last
      · have bound := valid.issued slot earlier
        exact ⟨bound.1,Nat.le_succ_of_le bound.2⟩
      · cases List.mem_singleton.mp last
        exact ⟨Nat.le_add_left _ _,Nat.le_refl _⟩
    · rw [valid.count,List.length_append,List.length_singleton]
    · rw [List.length_append,List.length_singleton]
      exact room
  · rw [stored]
    exact valid.moved same rfl

theorem Sound.renewed (valid : Sound size b) (member : slot ∈ b.slots) : Sound size (b.renew slot) := by
  have numbered := valid.toNumbered.renewed member
  obtain ⟨before,after,same,renewed⟩ := renew_split valid.toNumbered member
  have order := perm_moved before after slot
  rw [←same] at order
  rw [renewed] at numbered ⊢
  refine ⟨numbered,?_,?_⟩
  · have fields : (before++after++[{slot with uses:=slot.uses+1}]).map Slot.field = (before++after++[slot]).map Slot.field := by
      simp only [List.map_append,List.map_cons,List.map_nil]
    rw [fields]
    exact (order.map Slot.field).nodup_iff.mp valid.fields
  · intro other moved
    rcases List.mem_append.mp moved with earlier | last
    · exact valid.used other (order.mem_iff.mpr (List.mem_append_left _ earlier))
    · rw [List.mem_singleton.mp last]
      exact Nat.le_add_left 1 _

-- Only a value that is not there yet may come in.
theorem Sound.stored (sized : 1 ≤ size) (valid : Sound size b) (absent : field ∉ b.slots.map Slot.field) :
    Sound size (b.store rank size field) := by
  have numbered := valid.toNumbered.stored rank sized field
  obtain ⟨kept,code,part,stored⟩ : ∃ kept code, kept.Sublist b.slots ∧ (b.store rank size field).slots = kept++[⟨field,code,1⟩] := by
    rcases store_cases rank sized valid.toNumbered field with ⟨_,stored⟩ | ⟨_,slot,before,after,same,_,stored⟩
    · exact ⟨b.slots,b.issued+1,List.Sublist.refl _,congrArg slots stored⟩
    · refine ⟨before++after,slot.code,?_,congrArg slots stored⟩
      rw [same]
      exact (List.Sublist.refl before).append (List.sublist_cons_self slot after)
  refine ⟨numbered,?_,?_⟩
  · rw [stored,List.map_append,List.nodup_append]
    refine ⟨(part.map Slot.field).nodup valid.fields,List.nodup_singleton _,?_⟩
    rintro other earlier _ last rfl
    rw [List.map_singleton,List.mem_singleton] at last
    subst last
    exact absent ((part.map Slot.field).subset earlier)
  · intro other member
    rw [stored] at member
    rcases List.mem_append.mp member with earlier | last
    · exact valid.used other (part.subset earlier)
    · rw [List.mem_singleton.mp last]

theorem sound_empty (size : Nat) : Sound size ({} : Codebook F) :=
  ⟨⟨List.nodup_nil,List.forall_mem_nil _,rfl,Nat.zero_le size⟩,List.nodup_nil,List.forall_mem_nil _⟩

end Steps

section Coding
variable [DecidableEq F] {rank : Nat → Nat} {size : Nat} {b : Codebook F}

-- Everything sent here is read there.
abbrev Reads (rank : Nat → Nat) (size : Nat) (s r : Codebook F) (fields : List F) : Prop :=
  Transducer.Conveys (fun field s => some (encode rank size field s)) (decode rank size) s r fields

theorem encode_cases (field : F) (b : Codebook F) :
    (∃ slot ∈ b.slots, slot.field = field ∧ encode rank size field b = (.inl slot.code,b.renew slot)) ∨
    (field ∉ b.slots.map Slot.field ∧ encode rank size field b = (.inr field,b.store rank size field)) := by
  unfold encode
  cases found : b.slots.find? fun slot => slot.field = field with
  | some slot => exact .inl ⟨slot,List.mem_of_find?_eq_some found,by simpa using List.find?_some found,rfl⟩
  | none =>
    refine .inr ⟨?_,rfl⟩
    intro held
    obtain ⟨slot,member,same⟩ := List.mem_map.mp held
    exact absurd same (by simpa using List.find?_eq_none.mp found slot member)

omit [DecidableEq F] in
theorem decode_code (valid : Numbered size b) (member : slot ∈ b.slots) :
    decode rank size (.inl slot.code) b = some (slot.field,b.renew slot) := by
  rw [decode,(find_code valid.codes).mpr ⟨member,rfl⟩]
  rfl

theorem Sound.encoded (rank : Nat → Nat) (sized : 1 ≤ size) (valid : Sound size b) (field : F) : Sound size (encode rank size field b).2 := by
  rcases encode_cases field b with ⟨slot,member,_,sent⟩ | ⟨absent,sent⟩
  · rw [sent]
    exact valid.renewed member
  · rw [sent]
    exact valid.stored sized absent

-- Two equal books decide alike: what one sends the other reads, and they stay equal.
theorem reads_same (sized : 1 ≤ size) (valid : Sound size b) (fields : List F) :
    Reads rank size b b fields := by
  refine Transducer.conveys_of_related (fun sender receiver => Sound size sender ∧ receiver = sender) ?_ fields ⟨valid,rfl⟩
  rintro field sender _ ⟨valid,rfl⟩
  refine ⟨(encode rank size field _).1,(encode rank size field _).2,(encode rank size field _).2,rfl,?_,
    valid.encoded rank sized field,rfl⟩
  rcases encode_cases field _ with ⟨slot,member,rfl,sent⟩ | ⟨_,sent⟩
  · rw [sent]
    exact decode_code valid.toNumbered member
  · rw [sent]
    rfl

end Coding

-- A receiver that was given the sender's codes but not its uses nor its order.
section Copies
variable {size : Nat} {s r : Codebook F}

def leastUsed (uses : Nat) : Nat := uses

-- The same codes for the same values, in whatever order and however used.
structure SameBindings (s r : Codebook F) : Prop where
  bindings : (r.slots.map Slot.binding).Perm (s.slots.map Slot.binding)
  issued : r.issued = s.issued

theorem SameBindings.length (same : SameBindings s r) : r.slots.length = s.slots.length := by
  have length := same.bindings.length_eq
  rwa [List.length_map,List.length_map] at length

theorem SameBindings.codes (same : SameBindings s r) : (r.slots.map Slot.code).Perm (s.slots.map Slot.code) := by
  have codes := same.bindings.map Prod.snd
  rwa [List.map_map,List.map_map] at codes

-- Every slot here has its counterpart there.
theorem SameBindings.held (same : SameBindings s r) (member : slot ∈ r.slots) :
    ∃ other ∈ s.slots, other.field = slot.field ∧ other.code = slot.code := by
  obtain ⟨other,held,equal⟩ := List.mem_map.mp (same.bindings.mem_iff.mp (List.mem_map_of_mem member))
  exact ⟨other,held,congrArg Prod.fst equal,congrArg Prod.snd equal⟩

theorem SameBindings.symm (same : SameBindings s r) : SameBindings r s := ⟨same.bindings.symm,same.issued.symm⟩

theorem SameBindings.numbered (same : SameBindings s r) (valid : Numbered size s) : Numbered size r := by
  refine ⟨same.codes.nodup_iff.mpr valid.codes,?_,?_,?_⟩
  · intro slot member
    obtain ⟨other,held,_,code⟩ := same.held member
    rw [←code,same.issued]
    exact valid.issued other held
  · rw [same.issued,valid.count,same.length]
  · rw [same.length]
    exact valid.within

-- Two slots with one binding move to the end, each in its book.
theorem SameBindings.moved (same : SameBindings s r) (left : s.slots = before++slot::after)
    (right : r.slots = before'++slot'::after') (paired : slot'.binding = slot.binding) (last : last'.binding = end'.binding) :
    SameBindings {s with slots:=before++after++[end']} {r with slots:=before'++after'++[last']} := by
  have bindings := same.bindings
  rw [left,right] at bindings
  have moved := (((perm_moved before' after' slot').map Slot.binding).symm.trans bindings).trans
    ((perm_moved before after slot).map Slot.binding)
  simp only [List.map_append,List.map_cons,List.map_nil,paired] at moved
  refine ⟨?_,same.issued⟩
  simp only [List.map_append,List.map_cons,List.map_nil,last]
  rw [List.perm_append_right_iff] at moved ⊢
  exact moved

theorem SameBindings.renewed (same : SameBindings s r) (valid : Numbered size s) (member : slot ∈ s.slots)
    (member' : slot' ∈ r.slots) (paired : slot'.binding = slot.binding) : SameBindings (s.renew slot) (r.renew slot') := by
  obtain ⟨before,after,left,renewed⟩ := renew_split valid member
  obtain ⟨before',after',right,renewed'⟩ := renew_split (same.numbered valid) member'
  rw [renewed,renewed']
  exact same.moved left right paired paired

theorem alone_of_length {slots : List (Slot F)} (same : slots = before++slot::after) (single : slots.length = 1) :
    slots = [slot] := by
  subst same
  obtain ⟨only,alone⟩ := List.length_eq_one_iff.mp single
  rw [alone]
  have member : slot ∈ before++slot::after := List.mem_append_right _ List.mem_cons_self
  rw [alone,List.mem_singleton] at member
  rw [member]

variable [DecidableEq F] {rank : Nat → Nat}

-- While no slot is given up, or there is only one to give up, order and uses do not matter.
theorem reads_sameBindings (sized : 1 ≤ size) (narrow : size = 1 ∨ ∀ values : List F, values.Nodup → values.length ≤ size)
    (valid : Sound size s) (same : SameBindings s r) (fields : List F) :
    Reads rank size s r fields := by
  refine Transducer.conveys_of_related (fun s r => Sound size s ∧ SameBindings s r) ?_ fields ⟨valid,same⟩
  rintro field s r ⟨valid,same⟩
  refine ⟨(encode rank size field s).1,(encode rank size field s).2,?_⟩
  rcases encode_cases field s with ⟨slot,member,rfl,sent⟩ | ⟨absent,sent⟩
  · obtain ⟨other,held,sameField,sameCode⟩ := same.symm.held member
    refine ⟨r.renew other,rfl,?_,valid.encoded rank sized slot.field,?_⟩
    · rw [sent,←sameCode,←sameField]
      exact decode_code (same.numbered valid.toNumbered) held
    · rw [sent]
      exact same.renewed valid.toNumbered member held (Prod.ext sameField sameCode)
  · refine ⟨r.store rank size field,rfl,by rw [sent]; rfl,valid.encoded rank sized field,?_⟩
    rw [sent]
    rcases store_cases rank sized valid.toNumbered field with ⟨room,stored⟩ | ⟨full,slot,before,after,left,_,stored⟩
    · rcases store_cases rank sized (same.numbered valid.toNumbered) field with ⟨_,stored'⟩ | ⟨full,_⟩
      · rw [stored,stored',same.issued]
        refine ⟨?_,rfl⟩
        simp only [List.map_append]
        exact same.bindings.append_right _
      · exact absurd (same.length.symm.trans full) (Nat.ne_of_lt room)
    · rcases narrow with single | few
      · rcases store_cases rank sized (same.numbered valid.toNumbered) field with
          ⟨room,_⟩ | ⟨_,slot',before',after',right,_,stored'⟩
        · rw [same.length] at room
          omega
        · rw [stored,stored']
          have alone := alone_of_length left (full.trans single)
          have alone' := alone_of_length right ((same.length.trans full).trans single)
          have paired := same.bindings
          rw [alone,alone',List.map_singleton,List.map_singleton,List.singleton_perm_singleton] at paired
          exact same.moved left right paired (congrArg (Prod.mk field) (congrArg Prod.snd paired))
      · have distinct := few (field::s.slots.map Slot.field) (List.nodup_cons.mpr ⟨absent,valid.fields⟩)
        rw [List.length_cons,List.length_map] at distinct
        omega

-- Values that none of the slots holds, as long as there are more values than slots.
theorem exists_absent {values : List F} (distinct : values.Nodup) (many : size < values.length) (within : s.slots.length ≤ size) :
    ∃ field, field ∉ s.slots.map Slot.field := by
  by_contra all
  have covered : values ⊆ s.slots.map Slot.field := by
    intro field _
    by_contra absent
    exact all ⟨field,absent⟩
  have bound := (List.subperm_of_subset distinct covered).length_le
  rw [List.length_map] at bound
  omega

-- A value that has one code here and another one there is misread when it is sent.
theorem misread (valid : Sound size s) (member : slot ∈ s.slots)
    (apart : ∀ other ∈ r.slots, other.field = slot.field → other.code ≠ slot.code) :
    ¬ Reads rank size s r [slot.field] := by
  intro conveyed
  obtain ⟨answer,sender',receiver',sent,read,_⟩ := Transducer.conveys_cons.mp conveyed
  rcases encode_cases slot.field s with ⟨found,held,sameField,answered⟩ | ⟨absent,_⟩
  · cases List.inj_on_of_nodup_map valid.fields held member sameField
    cases (congrArg some answered).symm.trans sent
    obtain ⟨other,found,same⟩ := Option.map_eq_some_iff.mp read
    have code : other.code = slot.code := by simpa using List.find?_some found
    exact apart other (List.mem_of_find?_eq_some found) (congrArg Prod.fst same) code
  · exact absent (List.mem_map_of_mem member)

-- Among slots used once the first is given up.
omit [DecidableEq F] in
theorem victim_ones {first : Slot F} {rest : List (Slot F)} (ones : ∀ slot ∈ first::rest, slot.uses = 1) :
    victim rank (first::rest) = some first := by
  refine List.find?_cons_of_pos ?_
  simp only [List.all_eq_true,decide_eq_true_eq]
  intro other member
  rw [ones first List.mem_cons_self,ones other member]

omit [DecidableEq F] in
theorem store_ones {first : Slot F} {rest : List (Slot F)} {issued : Nat} (numbered : Numbered size ⟨first::rest,issued⟩)
    (full : (first::rest).length = size) (ones : ∀ slot ∈ first::rest, slot.uses = 1) :
    store rank size field ⟨first::rest,issued⟩ = ⟨rest++[⟨field,first.code,1⟩],issued⟩ := by
  have dropped : withoutCode first.code (first::rest) = rest := withoutCode_split numbered.codes (List.nil_append _).symm
  simp only [store,if_pos full,victim_ones ones,dropped]

omit [DecidableEq F] in
theorem split_old {old since : List (Slot F)} (codes : ((old++since).map Slot.code).Nodup)
    (same : old++since = before++slot::after) (held : slot ∈ old) : ∃ middle, old = before++slot::middle ∧ after = middle++since := by
  have apart : slot ∉ since := by
    intro later
    rw [List.map_append,List.nodup_append] at codes
    exact codes.2.2 slot.code (List.mem_map_of_mem held) slot.code (List.mem_map_of_mem later) rfl
  rcases List.append_eq_append_iff.mp same with ⟨early,_,later⟩ | ⟨part,left,right⟩
  · exact absurd (later ▸ List.mem_append_right early List.mem_cons_self) apart
  · cases part with
    | nil => exact absurd (show slot ∈ since by rw [←List.nil_append since,←right]; exact List.mem_cons_self) apart
    | cons other middle =>
      cases right
      exact ⟨middle,left,rfl⟩

-- The two give up slots of one binding, and what is left of the older ones still
-- differs: uses of more than one are left over, or the order was not the same.
omit [DecidableEq F] in
theorem differ_after {since before middle rest : List (Slot F)} {slot first : Slot F}
    (large : 2 ≤ (before++slot::middle++since).length)
    (least : ∀ other ∈ before++slot::middle++since, slot.uses ≤ other.uses)
    (greater : ∀ other ∈ before, slot.uses < other.uses) (positive : 1 ≤ slot.uses)
    (ones : ∀ other ∈ first::rest++since, other.uses = 1) (paired : slot.binding = first.binding)
    (differ : before++slot::middle ≠ first::rest) : before++middle ≠ rest := by
  rintro rfl
  by_cases single : slot.uses = 1
  · have none : before = [] := by
      refine List.eq_nil_iff_forall_not_mem.mpr ?_
      intro other member
      have more := greater other member
      have once := ones other (by simp [member])
      omega
    subst none
    refine differ (congrArg (·::middle) ?_)
    have once := ones first (by simp)
    rcases slot with ⟨field,code,uses⟩
    rcases first with ⟨field',code',uses'⟩
    cases paired
    simp only at single once
    rw [single,once]
  · -- Nothing is used as little as what came in since, so nothing came in.
    have none : since = [] := by
      refine List.eq_nil_iff_forall_not_mem.mpr ?_
      intro other member
      have below := least other (by simp [member])
      have once := ones other (by simp [member])
      omega
    have rest : before++middle = [] := by
      refine List.eq_nil_iff_forall_not_mem.mpr ?_
      intro other member
      have below := least other (by
        rcases List.mem_append.mp member with early | late
        · simp [early]
        · simp [late])
      have once := ones other (List.mem_append_left _ (List.mem_cons_of_mem _ member))
      omega
    obtain ⟨rfl,rfl⟩ := List.append_eq_nil_iff.mp rest
    subst none
    simp at large

theorem reads_missed (absent : field ∉ s.slots.map Slot.field) 
    (lost : ¬ Reads rank size (s.store rank size field) (r.store rank size field) fields) :
    ¬ Reads rank size s r (field::fields) := by
  rcases encode_cases field s with ⟨slot,member,same,_⟩ | ⟨_,sent⟩
  · exact absurd (same ▸ List.mem_map_of_mem member) absent
  · intro conveyed
    obtain ⟨receiver',read,onward⟩ := (Transducer.conveys_answered (congrArg some sent)).mp conveyed
    cases read
    exact lost onward

omit [DecidableEq F] in
theorem once_concat {slots since : List (Slot F)} (ones : ∀ slot ∈ slots++since, slot.uses = 1) (field : F) (code : Nat) :
    ∀ slot ∈ slots++(since++[⟨field,code,1⟩]), slot.uses = 1 := by
  intro slot member
  rw [←List.append_assoc] at member
  rcases List.mem_append.mp member with earlier | last
  · exact ones slot earlier
  · rw [List.mem_singleton.mp last]

-- Slots older than the copy stand first, in `old` here and in `copied` there, where
-- each counts as used once; the slots since then are the same. New values make the
-- two give up slots in turn, until they differ on one.
theorem diverges {values : List F} (large : 2 ≤ size) (distinct : values.Nodup) (many : size < values.length) (steps issued : Nat)
    (old copied since : List (Slot F)) (measure : copied.length+(size-(old++since).length) = steps)
    (valid : Sound size ⟨old++since,issued⟩) (bindings : (copied.map Slot.binding).Perm (old.map Slot.binding))
    (ones : ∀ slot ∈ copied++since, slot.uses = 1) (used : ∀ slot ∈ old, 1 ≤ slot.uses) (differ : old ≠ copied) :
    ∃ fields, ¬ Reads leastUsed size ⟨old++since,issued⟩ ⟨copied++since,issued⟩ fields := by
  induction steps generalizing issued old copied since with
  | zero =>
    cases copied with
    | nil =>
      rw [List.map_nil,List.nil_perm,List.map_eq_nil_iff] at bindings
      exact absurd bindings differ
    | cons => simp at measure
  | succ steps ih =>
    have sized : 1 ≤ size := by omega
    have same : SameBindings ⟨old++since,issued⟩ ⟨copied++since,issued⟩ := by
      refine ⟨?_,rfl⟩
      simp only [List.map_append]
      exact bindings.append_right _
    obtain ⟨field,absent⟩ := exists_absent distinct many valid.within
    suffices lost : ∃ fields, ¬ Reads leastUsed size (store leastUsed size field ⟨old++since,issued⟩)
        (store leastUsed size field ⟨copied++since,issued⟩) fields by
      obtain ⟨fields,lost⟩ := lost
      exact ⟨field::fields,reads_missed absent lost⟩
    have sound : Sound size (store leastUsed size field ⟨old++since,issued⟩) := valid.stored sized absent
    rcases store_cases leastUsed sized valid.toNumbered field with
      ⟨room,stored⟩ | ⟨full,slot,before,after,left,⟨least,greater⟩,stored⟩
    · rcases store_cases leastUsed sized (same.numbered valid.toNumbered) field with ⟨_,stored'⟩ | ⟨full,_⟩
      · rw [stored] at sound
        rw [stored,stored']
        simp only [List.append_assoc] at sound room ⊢
        refine ih (issued+1) old copied (since++[⟨field,issued+1,1⟩]) ?_ sound bindings (once_concat ones field _) used differ
        simp only [List.length_append,List.length_singleton] at measure room ⊢
        omega
      · exact absurd (same.length.symm.trans full) (Nat.ne_of_lt room)
    · dsimp only at left least full
      cases copied with
      | nil =>
        rw [List.map_nil,List.nil_perm,List.map_eq_nil_iff] at bindings
        exact absurd bindings differ
      | cons first rest =>
        have stored' : store leastUsed size field ⟨first::rest++since,issued⟩ = ⟨rest++since++[⟨field,first.code,1⟩],issued⟩ :=
          store_ones (same.numbered valid.toNumbered) (same.length.trans full) ones
        rw [stored] at sound
        rw [stored,stored']
        by_cases agreed : slot.code = first.code
        · -- The slot given up here is the one with that binding among the older ones.
          obtain ⟨other,held,paired⟩ := List.mem_map.mp (bindings.mem_iff.mp (List.mem_map_of_mem List.mem_cons_self))
          have code : other.code = slot.code := (congrArg Prod.snd paired).trans agreed.symm
          have member : slot ∈ old++since := by rw [left]; exact List.mem_append_right before List.mem_cons_self
          cases List.inj_on_of_nodup_map valid.codes (List.mem_append_left since held) member code
          obtain ⟨middle,rfl,rfl⟩ := split_old valid.codes left held
          have differ' := differ_after (by rw [←full] at large; exact large) least greater (used slot held) ones paired differ
          rw [agreed] at sound
          rw [agreed]
          simp only [List.append_assoc] at sound ⊢
          rw [←List.append_assoc] at sound ⊢
          have others : ∀ other ∈ rest++since, other.uses = 1 := fun other member => ones other (List.mem_cons_of_mem first member)
          refine ih issued (before++middle) rest (since++[⟨field,first.code,1⟩]) ?_ sound ?_ (once_concat others field _) ?_ differ'
          · simp only [List.length_append,List.length_cons,List.length_nil] at measure full ⊢
            omega
          · simp only [List.map_append,List.map_cons,paired] at bindings ⊢
            exact (bindings.trans List.perm_middle).cons_inv
          · intro other member
            exact used other (((List.sublist_cons_self slot middle).append_left before).subset member)
        · refine ⟨[field],misread sound (List.mem_append_right _ List.mem_cons_self) ?_⟩
          intro other member again
          rcases List.mem_append.mp member with earlier | last
          · obtain ⟨held,within,sameField,_⟩ := same.held (List.mem_cons_of_mem first earlier)
            exact absurd (List.mem_map.mpr ⟨held,within,sameField.trans again⟩) absent
          · rw [List.mem_singleton.mp last]
            exact fun same => agreed same.symm

-- A receiver that starts with every slot used once reads all that is ever sent
-- exactly if it has the sender's slots, or never has to choose one to give up.
theorem reads_copy_iff (sized : 1 ≤ size) (valid : Sound size s) (same : SameBindings s r) (ones : ∀ slot ∈ r.slots, slot.uses = 1) :
    (∀ fields, Reads leastUsed size s r fields) ↔
      size = 1 ∨ (∀ values : List F, values.Nodup → values.length ≤ size) ∨ r.slots = s.slots := by
  constructor
  · intro reads
    by_contra others
    simp only [not_or,not_forall,not_le] at others
    obtain ⟨more,⟨values,distinct,many⟩,differ⟩ := others
    have large : 2 ≤ size := by omega
    obtain ⟨fields,lost⟩ := diverges large distinct many _ s.issued s.slots r.slots [] rfl (by rw [List.append_nil]; exact valid)
      same.bindings (by rw [List.append_nil]; exact ones) valid.used (Ne.symm differ)
    rw [List.append_nil,List.append_nil,←same.issued] at lost
    have sender : s = ⟨s.slots,r.issued⟩ := by rw [same.issued]
    rw [←sender] at lost
    exact lost (reads fields)
  · rintro (single | few | equal) fields
    · exact reads_sameBindings sized (.inl single) valid same fields
    · exact reads_sameBindings sized (.inr few) valid same fields
    · have copy : r = s := by
        rcases r with ⟨slots,issued⟩
        cases same.issued
        cases equal
        rfl
      rw [copy]
      exact reads_same sized valid fields

end Copies

end Codebook
end OmniPaxosKV
