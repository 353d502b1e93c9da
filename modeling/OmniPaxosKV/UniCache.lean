import OmniPaxosKV.Codebook

-- The cache of one field of an entry: a sender replaces values it has sent before
-- by small integers, and a receiver keeps the same table the other way round.
namespace OmniPaxosKV

inductive MaybeEncoded (Encodable Encoded : Type) where
  | encoded (encoding : Encoded)
  | notEncoded (field : Encodable)
  deriving DecidableEq, Repr

-- `none` is a sum past the largest value, which panics.
class IncrementByOne (E : Type) where
  default : E
  one : E
  add : E → E → Option E

-- An integer type, as far as counting up from its default goes.
class EncodedInteger (E : Type) [IncrementByOne E] where
  largest : Nat
  code : Nat → E
  code_zero : code 0 = IncrementByOne.default
  code_succ (n : Nat) : n < largest → IncrementByOne.add (code n) IncrementByOne.one = some (code (n+1))
  code_largest : IncrementByOne.add (code largest) IncrementByOne.one = none
  code_injective (n m : Nat) : n ≤ largest → m ≤ largest → code n = code m → n = m

instance incrementUInt8 : IncrementByOne UInt8 where
  default := 0
  one := 1
  add a b := if a.toNat+b.toNat < 256 then some (a+b) else none

instance encodedUInt8 : EncodedInteger UInt8 where
  largest := 255
  code := UInt8.ofNat
  code_zero := rfl
  code_succ n below := by
    have small : n % 256 = n := Nat.mod_eq_of_lt (by omega)
    simp only [IncrementByOne.add,IncrementByOne.one,UInt8.toNat_ofNat',small]
    have single : UInt8.toNat 1 = 1 := rfl
    rw [single,if_pos (show n+1 < 256 by omega),UInt8.ofNat_add]
    rfl
  code_largest := rfl
  code_injective n m within within' same := by
    have values := congrArg UInt8.toNat same
    simp only [UInt8.toNat_ofNat'] at values
    omega

class FieldCache (C : Type) (F E : outParam Type) where
  new : Nat → Option C
  tryEncode : F → C → Option (MaybeEncoded F E × C)
  decode : MaybeEncoded F E → C → Option (F × C)

-- The cache that an encoder or a decoder keeps its table in. A missing result is
-- an unwrap that panics.
class InnerCache (M : Type → Type → Type) where
  withCapacity {K V : Type} : Nat → Option (M K V)
  len {K V : Type} : M K V → Nat
  get {K V : Type} [DecidableEq K] : K → M K V → Option (Option V × M K V)
  evictKey {K V : Type} [DecidableEq K] : M K V → Option (K × M K V)
  evictValue {K V : Type} [DecidableEq K] : M K V → Option (V × M K V)
  insert {K V : Type} [DecidableEq K] : K → V → M K V → Option (M K V)

-- Both field caches of the source are this one, each over its own inner cache.
structure FieldCoder (M : Type → Type → Type) (F E : Type) where
  encoder : M F E
  decoder : M E F
  encoding : E
  size : Nat

namespace FieldCoder
variable {M : Type → Type → Type} [InnerCache M] {F E : Type} [DecidableEq F] [DecidableEq E] [IncrementByOne E]

def new (size : Nat) : Option (FieldCoder M F E) := do
  let encoder ← InnerCache.withCapacity size
  let decoder ← InnerCache.withCapacity size
  return ⟨encoder,decoder,IncrementByOne.default,size⟩

omit [DecidableEq E] in
def tryEncode (field : F) (c : FieldCoder M F E) : Option (MaybeEncoded F E × FieldCoder M F E) := do
  let (found,encoder) ← InnerCache.get field c.encoder
  match found with
  | some encoding => return (.encoded encoding,{c with encoder:=encoder})
  | none =>
    if InnerCache.len encoder = c.size then
      let (popped,encoder) ← InnerCache.evictValue encoder
      let encoder ← InnerCache.insert field popped encoder
      return (.notEncoded field,{c with encoder:=encoder})
    else
      let added ← IncrementByOne.add c.encoding IncrementByOne.one
      let encoder ← InnerCache.insert field added encoder
      return (.notEncoded field,{c with encoder:=encoder,encoding:=added})

def decode (result : MaybeEncoded F E) (c : FieldCoder M F E) : Option (F × FieldCoder M F E) :=
  match result with
  | .encoded encoding => do
    let (found,decoder) ← InnerCache.get encoding c.decoder
    let field ← found
    return (field,{c with decoder:=decoder})
  | .notEncoded field =>
    if InnerCache.len c.decoder = c.size then do
      let (popped,decoder) ← InnerCache.evictKey c.decoder
      let decoder ← InnerCache.insert popped field decoder
      return (field,{c with decoder:=decoder})
    else do
      let added ← IncrementByOne.add c.encoding IncrementByOne.one
      let decoder ← InnerCache.insert added field c.decoder
      return (field,{c with decoder:=decoder,encoding:=added})

end FieldCoder

-- What an inner cache holds, in the order of the last use.
structure Cell (K V : Type) where
  key : K
  value : V
  uses : Nat

-- What is relied on in an inner cache: which cells each call leaves, with `rank`
-- deciding which uses make a cell the one to give up.
class FollowsCells (M : Type → Type → Type) [InnerCache M] where
  rank : Nat → Nat
  Holds {K V : Type} : Nat → M K V → List (Cell K V) → Prop
  withCapacity_holds {K V : Type} (size : Nat) : 1 ≤ size →
    ∃ m : M K V, InnerCache.withCapacity size = some m ∧ Holds size m []
  len_holds {K V : Type} {size : Nat} {m : M K V} {cells : List (Cell K V)} : Holds size m cells →
    InnerCache.len m = cells.length
  get_hit {K V : Type} [DecidableEq K] {size : Nat} {m : M K V} {before after : List (Cell K V)} {cell : Cell K V} :
    Holds size m (before++cell::after) → ((before++cell::after).map Cell.key).Nodup →
    ∃ next, InnerCache.get cell.key m = some (some cell.value,next) ∧
      Holds size next (before++after++[{cell with uses:=cell.uses+1}])
  get_miss {K V : Type} [DecidableEq K] {size : Nat} {m : M K V} {cells : List (Cell K V)} {key : K} :
    Holds size m cells → key ∉ cells.map Cell.key → ∃ next, InnerCache.get key m = some (none,next) ∧ Holds size next cells
  insert_room {K V : Type} [DecidableEq K] {size : Nat} {m : M K V} {cells : List (Cell K V)} {key : K} (value : V) :
    Holds size m cells → key ∉ cells.map Cell.key → cells.length < size →
    ∃ next, InnerCache.insert key value m = some next ∧ Holds size next (cells++[⟨key,value,1⟩])
  replace {K V : Type} [DecidableEq K] {size : Nat} {m : M K V} {before after : List (Cell K V)} {cell : Cell K V} :
    Holds size m (before++cell::after) → ((before++cell::after).map Cell.key).Nodup →
    (before++cell::after).length = size → (∀ other ∈ before++cell::after, rank cell.uses ≤ rank other.uses) →
    (∀ other ∈ before, rank cell.uses < rank other.uses) → ∃ left,
      InnerCache.evictKey m = some (cell.key,left) ∧ InnerCache.evictValue m = some (cell.value,left) ∧
      ∀ key value, key ∉ (before++after).map Cell.key → ∃ next, InnerCache.insert key value left = some next ∧
        Holds size next (before++after++[⟨key,value,1⟩])

namespace FieldCoder
open FollowsCells
variable {M : Type → Type → Type} [InnerCache M] [FollowsCells M] {F E : Type} [IncrementByOne E] [EncodedInteger E]
  {size : Nat} {b : Codebook F}

-- The slots as the encoder holds them, by value, and as the decoder does, by code.
def byField (slot : Slot F) : Cell F E := ⟨slot.field,EncodedInteger.code slot.code,slot.uses⟩
def byCode (slot : Slot F) : Cell E F := ⟨EncodedInteger.code slot.code,slot.field,slot.uses⟩

structure Encodes (size : Nat) (c : FieldCoder M F E) (b : Codebook F) : Prop where
  sized : c.size = size
  encoding : c.encoding = EncodedInteger.code b.issued
  holds : Holds size c.encoder (b.slots.map byField)

structure Decodes (size : Nat) (c : FieldCoder M F E) (b : Codebook F) : Prop where
  sized : c.size = size
  encoding : c.encoding = EncodedInteger.code b.issued
  holds : Holds size c.decoder (b.slots.map byCode)

-- An answer of the book as it is sent.
def answer : Nat ⊕ F → MaybeEncoded F E
  | .inl code => .encoded (EncodedInteger.code code)
  | .inr field => .notEncoded field

def proper (E : Type) [IncrementByOne E] [EncodedInteger E] : Nat ⊕ F → Prop
  | .inl code => code ≤ EncodedInteger.largest E
  | .inr _ => True

theorem new_empty [DecidableEq F] [DecidableEq E] (sized : 1 ≤ size) : ∃ c : FieldCoder M F E, new size = some c ∧
    Encodes size c {} ∧ Decodes size c {} := by
  obtain ⟨encoder,made,holds⟩ := withCapacity_holds (M:=M) (K:=F) (V:=E) size sized
  obtain ⟨decoder,made',holds'⟩ := withCapacity_holds (M:=M) (K:=E) (V:=F) size sized
  refine ⟨⟨encoder,decoder,IncrementByOne.default,size⟩,?_,⟨rfl,EncodedInteger.code_zero.symm,holds⟩,
    rfl,EncodedInteger.code_zero.symm,holds'⟩
  simp only [new,made,made',Option.bind_eq_bind,Option.bind_some,Option.pure_def]

theorem keys_byField (slots : List (Slot F)) : (slots.map (byField : Slot F → Cell F E)).map Cell.key = slots.map Slot.field :=
  List.map_map

theorem keys_byCode (slots : List (Slot F)) :
    (slots.map (byCode : Slot F → Cell E F)).map Cell.key = (slots.map Slot.code).map EncodedInteger.code := by
  rw [List.map_map,List.map_map]
  rfl

theorem keys_distinct {codes : List Nat} (distinct : codes.Nodup) (small : ∀ code ∈ codes, code ≤ EncodedInteger.largest E) :
    (codes.map (EncodedInteger.code : Nat → E)).Nodup :=
  distinct.map_on fun n member m member' => EncodedInteger.code_injective n m (small n member) (small m member')

-- The next code is within the integer type while there is room.
theorem add_issued (fits : size ≤ EncodedInteger.largest E) (valid : Codebook.Numbered size b) (room : b.slots.length < size) :
    IncrementByOne.add (EncodedInteger.code b.issued : E) IncrementByOne.one = some (EncodedInteger.code (b.issued+1)) := by
  have count := valid.count
  exact EncodedInteger.code_succ b.issued (by omega)

section Views
variable {K V : Type} [DecidableEq K] {view : Slot F → Cell K V} {m : M K V}

-- An inner cache that holds the slots as `view` shows them keeps to the book: a slot
-- is used once more, comes in, or takes the place of another one.
theorem view_renewed (again : ∀ slot, view {slot with uses:=slot.uses+1} = {view slot with uses:=(view slot).uses+1})
    (valid : Codebook.Numbered size b) (holds : Holds size m (b.slots.map view))
    (distinct : ((b.slots.map view).map Cell.key).Nodup) (member : slot ∈ b.slots) :
    ∃ next, InnerCache.get (view slot).key m = some (some (view slot).value,next) ∧
      (b.renew slot).issued = b.issued ∧ Holds size next ((b.renew slot).slots.map view) := by
  obtain ⟨before,after,same,renewed⟩ := Codebook.renew_split valid member
  rw [same,List.map_append,List.map_cons] at holds distinct
  obtain ⟨next,got,holds⟩ := get_hit holds distinct
  refine ⟨next,got,by rw [renewed],?_⟩
  rw [renewed,List.map_append,List.map_append,List.map_singleton,again]
  exact holds

theorem view_stored (last : Slot F) (once : (view last).uses = 1) (holds : Holds size m (b.slots.map view))
    (absent : (view last).key ∉ (b.slots.map view).map Cell.key) (room : b.slots.length < size) :
    ∃ next, InnerCache.insert (view last).key (view last).value m = some next ∧ Holds size next ((b.slots++[last]).map view) := by
  obtain ⟨next,inserted,holds⟩ := insert_room (view last).value holds absent (by rw [List.length_map]; exact room)
  refine ⟨next,inserted,?_⟩
  rw [List.map_append,List.map_singleton]
  rw [←once] at holds
  exact holds

theorem view_replaced (uses : ∀ slot, (view slot).uses = slot.uses) (holds : Holds size m (b.slots.map view))
    (distinct : ((b.slots.map view).map Cell.key).Nodup) (full : b.slots.length = size) (same : b.slots = before++slot::after)
    (least : ∀ other ∈ b.slots, rank M slot.uses ≤ rank M other.uses)
    (greater : ∀ other ∈ before, rank M slot.uses < rank M other.uses) :
    ∃ left, InnerCache.evictKey m = some ((view slot).key,left) ∧ InnerCache.evictValue m = some ((view slot).value,left) ∧
      ∀ last, last.uses = 1 → (view last).key ∉ ((before++after).map view).map Cell.key →
        ∃ next, InnerCache.insert (view last).key (view last).value left = some next ∧
          Holds size next ((before++after++[last]).map view) := by
  have least : ∀ other ∈ b.slots.map view, rank M (view slot).uses ≤ rank M other.uses :=
    List.forall_mem_map.mpr fun other member => by rw [uses,uses]; exact least other member
  have greater : ∀ other ∈ before.map view, rank M (view slot).uses < rank M other.uses :=
    List.forall_mem_map.mpr fun other member => by rw [uses,uses]; exact greater other member
  rw [←List.length_map view] at full
  rw [same,List.map_append,List.map_cons] at holds distinct least full
  obtain ⟨left,evicted,evicted',refill⟩ := replace holds distinct full least greater
  refine ⟨left,evicted,evicted',?_⟩
  intro last once absent
  rw [List.map_append] at absent
  obtain ⟨next,inserted,holds⟩ := refill (view last).key (view last).value absent
  refine ⟨next,inserted,?_⟩
  rw [List.map_append,List.map_append,List.map_singleton]
  rw [←once,←uses last] at holds
  exact holds

end Views

section Encoding
variable [DecidableEq F]

-- The encoder follows the book.
theorem sendsAs (sized : 1 ≤ size) (fits : size ≤ EncodedInteger.largest E) : Transducer.SendsAs
    (tryEncode : F → FieldCoder M F E → _) (Codebook.encode (rank M) size) answer (proper E)
    (fun c b => Encodes size c b ∧ Codebook.Sound size b) := by
  refine ⟨?_⟩
  rintro field c b ⟨tracks,valid⟩
  have onward := valid.encoded (rank M) sized field
  have held := tracks.holds
  have distinct := valid.fields
  rw [←keys_byField (E:=E)] at distinct
  rcases Codebook.encode_cases field b with ⟨slot,member,rfl,sent⟩ | ⟨absent,sent⟩
  · obtain ⟨encoder,got,issued,holds⟩ := view_renewed (fun _ => rfl) valid.toNumbered held distinct member
    simp only [byField] at got
    refine ⟨?_,{c with encoder:=encoder},?_,⟨tracks.sized,?_,?_⟩,onward⟩
    · rw [sent]
      have bound := (valid.issued slot member).2
      have count := valid.count
      have within := valid.within
      exact (by omega : slot.code ≤ EncodedInteger.largest E)
    · simp only [tryEncode,got,sent,answer,Option.bind_eq_bind,Option.bind_some,Option.pure_def]
    · rw [sent,issued]
      exact tracks.encoding
    · rw [sent]
      exact holds
  · refine ⟨by rw [sent]; trivial,?_⟩
    rw [←keys_byField (E:=E)] at absent
    obtain ⟨encoder,got,holds⟩ := get_miss held absent
    have length := len_holds holds
    rw [List.length_map] at length
    rw [sent] at onward ⊢
    rcases Codebook.store_cases (rank M) sized valid.toNumbered field with
      ⟨room,stored⟩ | ⟨full,slot,before,after,same,⟨least,greater⟩,stored⟩
    · obtain ⟨filled,inserted,holds⟩ := view_stored ⟨field,b.issued+1,1⟩ rfl holds absent room
      simp only [byField] at inserted
      refine ⟨{c with encoder:=filled,encoding:=EncodedInteger.code (b.issued+1)},?_,⟨tracks.sized,?_,?_⟩,onward⟩
      · have added := add_issued fits valid.toNumbered room
        have apart : ¬ InnerCache.len encoder = c.size := by
          rw [length,tracks.sized]
          exact Nat.ne_of_lt room
        rw [←tracks.encoding] at added
        simp only [tryEncode,got,if_neg apart,added,inserted,answer,Option.bind_eq_bind,Option.bind_some,Option.pure_def]
      · rw [stored]
      · rw [stored]
        exact holds
    · obtain ⟨left,_,evicted,refill⟩ := view_replaced (fun _ => rfl) holds distinct full same least greater
      have others : field ∉ ((before++after).map (byField : Slot F → Cell F E)).map Cell.key := by
        intro held
        rw [same] at absent
        exact absent ((((List.sublist_cons_self slot after).append_left before).map byField).map Cell.key |>.subset held)
      obtain ⟨next,inserted,holds⟩ := refill ⟨field,slot.code,1⟩ rfl others
      simp only [byField] at evicted inserted
      refine ⟨{c with encoder:=next},?_,⟨tracks.sized,?_,?_⟩,onward⟩
      · have reached : InnerCache.len encoder = c.size := length.trans (full.trans tracks.sized.symm)
        simp only [tryEncode,got,if_pos reached,evicted,inserted,answer,Option.bind_eq_bind,Option.bind_some,Option.pure_def]
      · rw [stored]
        exact tracks.encoding
      · rw [stored]
        exact holds

end Encoding

theorem codes_distinct (fits : size ≤ EncodedInteger.largest E) (valid : Codebook.Numbered size b) :
    ((b.slots.map (byCode : Slot F → Cell E F)).map Cell.key).Nodup := by
  rw [keys_byCode]
  refine keys_distinct valid.codes ?_
  intro code member
  obtain ⟨slot,held,rfl⟩ := List.mem_map.mp member
  have bound := (valid.issued slot held).2
  have count := valid.count
  have within := valid.within
  omega

-- A code that no slot has is not a key of the decoder.
theorem code_absent (fits : size ≤ EncodedInteger.largest E) (valid : Codebook.Numbered size b)
    (small : code ≤ EncodedInteger.largest E) (absent : ∀ slot ∈ b.slots, slot.code ≠ code) :
    EncodedInteger.code code ∉ (b.slots.map (byCode : Slot F → Cell E F)).map Cell.key := by
  rw [keys_byCode]
  intro held
  obtain ⟨_,member,same⟩ := List.mem_map.mp held
  obtain ⟨slot,held,rfl⟩ := List.mem_map.mp member
  have bound := (valid.issued slot held).2
  have count := valid.count
  have within := valid.within
  exact absent slot held (EncodedInteger.code_injective _ _ (by omega) small same)

section Decoding
variable [DecidableEq E]

-- The decoder follows the book, and stops where the book has no such code.
theorem receivesAs (sized : 1 ≤ size) (fits : size ≤ EncodedInteger.largest E) : Transducer.ReceivesAs
    (decode : MaybeEncoded F E → FieldCoder M F E → _) (Codebook.decode (rank M) size) answer (proper E)
    (fun c b => Decodes size c b ∧ Codebook.Numbered size b) := by
  refine ⟨?_,?_⟩
  · rintro result value c b next' ⟨tracks,valid⟩ fine read
    have held := tracks.holds
    have distinct := codes_distinct fits valid
    cases result with
    | inl code =>
      obtain ⟨slot,found,same⟩ := Option.map_eq_some_iff.mp read
      cases same
      obtain ⟨member,rfl⟩ := (Codebook.find_code valid.codes).mp found
      obtain ⟨decoder,got,issued,holds⟩ := view_renewed (fun _ => rfl) valid held distinct member
      simp only [byCode] at got
      refine ⟨{c with decoder:=decoder},?_,⟨tracks.sized,?_,holds⟩,valid.renewed member⟩
      · simp only [decode,answer,got,Option.bind_eq_bind,Option.bind_some,Option.pure_def]
      · rw [issued]
        exact tracks.encoding
    | inr field =>
      cases read
      have onward := valid.stored (rank M) sized value
      have length := len_holds held
      rw [List.length_map] at length
      rcases Codebook.store_cases (rank M) sized valid value with
        ⟨room,stored⟩ | ⟨full,slot,before,after,same,⟨least,greater⟩,stored⟩
      · have fresh : ∀ slot ∈ b.slots, slot.code ≠ b.issued+1 := by
          intro slot member
          have bound := (valid.issued slot member).2
          omega
        have count := valid.count
        have absent := code_absent fits valid (by omega) fresh
        obtain ⟨filled,inserted,holds⟩ := view_stored ⟨value,b.issued+1,1⟩ rfl held absent room
        simp only [byCode] at inserted
        refine ⟨{c with decoder:=filled,encoding:=EncodedInteger.code (b.issued+1)},?_,⟨tracks.sized,?_,?_⟩,onward⟩
        · have added := add_issued fits valid room
          have apart : ¬ InnerCache.len c.decoder = c.size := by
            rw [length,tracks.sized]
            exact Nat.ne_of_lt room
          rw [←tracks.encoding] at added
          simp only [decode,answer,if_neg apart,added,inserted,Option.bind_eq_bind,Option.bind_some,Option.pure_def]
        · rw [stored]
        · rw [stored]
          exact holds
      · obtain ⟨left,evicted,_,refill⟩ := view_replaced (fun _ => rfl) held distinct full same least greater
        have others : (byCode slot : Cell E F).key ∉ ((before++after).map (byCode : Slot F → Cell E F)).map Cell.key := by
          rw [same,((List.perm_middle.map byCode).map Cell.key).nodup_iff] at distinct
          exact (List.nodup_cons.mp distinct).1
        obtain ⟨next,inserted,holds⟩ := refill ⟨value,slot.code,1⟩ rfl others
        simp only [byCode] at evicted inserted
        refine ⟨{c with decoder:=next},?_,⟨tracks.sized,?_,?_⟩,onward⟩
        · have reached : InnerCache.len c.decoder = c.size := length.trans (full.trans tracks.sized.symm)
          simp only [decode,answer,if_pos reached,evicted,inserted,Option.bind_eq_bind,Option.bind_some,Option.pure_def]
        · rw [stored]
          exact tracks.encoding
        · rw [stored]
          exact holds
  · rintro result c b ⟨tracks,valid⟩ fine read
    cases result with
    | inl code =>
      have absent : ∀ slot ∈ b.slots, slot.code ≠ code := by
        have none := List.find?_eq_none.mp (Option.map_eq_none_iff.mp read)
        simpa using none
      obtain ⟨next,got,_⟩ := get_miss tracks.holds (code_absent fits valid fine absent)
      simp only [decode,answer,got,Option.bind_eq_bind,Option.bind_some,Option.bind_none]
    | inr => cases read

end Decoding

-- What the two ends convey is what their books convey.
theorem conveys_books [DecidableEq F] [DecidableEq E] {c d : FieldCoder M F E} {r : Codebook F} (sized : 1 ≤ size)
    (fits : size ≤ EncodedInteger.largest E) (encodes : Encodes size c b) (sound : Codebook.Sound size b)
    (decodes : Decodes size d r) (numbered : Codebook.Numbered size r) (fields : List F) :
    Transducer.Conveys tryEncode decode c d fields ↔ Codebook.Reads (rank M) size b r fields :=
  Transducer.conveys_iff (sendsAs sized fits) (receivesAs sized fits) ⟨encodes,sound⟩ ⟨decodes,numbered⟩

-- Fresh on both sides.
theorem conveys_fresh [DecidableEq F] [DecidableEq E] (sized : 1 ≤ size) (fits : size ≤ EncodedInteger.largest E)
    (fields : List F) : ∃ fresh : FieldCoder M F E, new size = some fresh ∧
      Transducer.Conveys tryEncode decode fresh fresh fields := by
  obtain ⟨fresh,made,encodes,decodes⟩ := new_empty (M:=M) (F:=F) (E:=E) sized
  have sound := Codebook.sound_empty (F:=F) size
  refine ⟨fresh,made,?_⟩
  rw [conveys_books sized fits encodes sound decodes sound.toNumbered]
  exact Codebook.reads_same sized sound fields

end FieldCoder
end OmniPaxosKV
