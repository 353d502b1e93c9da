import OmniPaxosKV.Coders
import OmniPaxosKV.LruCache
import OmniPaxosKV.LfuCache

-- The macro that derives the cache of a whole log entry from the annotations of its
-- fields, and the cache that it derives.
namespace OmniPaxosKV

inductive CacheType where
  | lru | lfu
  deriving DecidableEq, Repr

-- One item of a field's `unicache` annotation.
inductive NestedMeta where
  | size (n : Nat)
  | cache (ident : String)
  | encoding (ident : String)
  | other (path : String)

-- `attr` is the first `unicache` attribute of the field.
structure EntryField where
  name : String
  ty : String
  attr : Option (List NestedMeta)

-- What the items of one field have set so far.
structure FieldSettings where
  encodingType : Option String := none
  cacheSize : Option Nat := none
  deriving DecidableEq

-- A field of the entry as the derived code treats it.
inductive DerivedField where
  | notEncodable (name ty : String)
  | encodable (name ty encodingType : String) (cacheSize : Nat) (cacheType : CacheType)
  deriving DecidableEq

-- An item that the macro does not know panics, and so does an unknown cache.
def readMeta : FieldSettings × Option CacheType → NestedMeta → Option (FieldSettings × Option CacheType)
  | (settings,cacheType),.size n => some ({settings with cacheSize:=some n},cacheType)
  | (settings,_),.cache ident =>
    if ident = "lru" then some (settings,some .lru)
    else if ident = "lfu" then some (settings,some .lfu)
    else none
  | (settings,cacheType),.encoding ident => some ({settings with encodingType:=some ident},cacheType)
  | _,.other _ => none

-- The cache type is a variable of the whole macro: it comes in from the fields
-- before, and goes on to the fields after.
def deriveField (cacheType : Option CacheType) (field : EntryField) : Option (DerivedField × Option CacheType) :=
  match field.attr with
  | none => some (.notEncodable field.name field.ty,cacheType)
  | some metas => do
    let (settings,cacheType) ← metas.foldlM readMeta ({},cacheType)
    let cacheType := cacheType.getD .lru
    return (.encodable field.name field.ty (settings.encodingType.getD "u8") (settings.cacheSize.getD 255) cacheType,
      some cacheType)

def deriveFields : Option CacheType → List EntryField → Option (List DerivedField)
  | _,[] => some []
  | cacheType,field::rest => do
    let (derived,cacheType) ← deriveField cacheType field
    let others ← deriveFields cacheType rest
    return derived::others

def unicacheEntryDerive (fields : List EntryField) : Option (List DerivedField) := deriveFields none fields

-- What the items of an annotation name. Where two of them name one thing the later
-- one does.
def NestedMeta.sizeNamed : NestedMeta → Option Nat
  | .size n => some n
  | _ => none

def NestedMeta.cacheNamed : NestedMeta → Option String
  | .cache ident => some ident
  | _ => none

def NestedMeta.encodingNamed : NestedMeta → Option String
  | .encoding ident => some ident
  | _ => none

-- The attributes that the documentation lists, with the two caches that come with the
-- library. It also allows a cache type of one's own, which the macro refuses.
def NestedMeta.Provided : NestedMeta → Prop
  | .other _ => False
  | .cache ident => ident = "lru" ∨ ident = "lfu"
  | _ => True

def CacheType.ident : CacheType → String
  | .lru => "lru"
  | .lfu => "lfu"

-- The defaults of the documentation: `u8`, its greatest value, and `lru`.
def documentedEncoding (metas : List NestedMeta) : String := (metas.filterMap NestedMeta.encodingNamed).getLast?.getD "u8"

def documentedSize (metas : List NestedMeta) : Nat := (metas.filterMap NestedMeta.sizeNamed).getLast?.getD 255

namespace EntryField

def Provided (field : EntryField) : Prop := ∀ metas, field.attr = some metas → ∀ item ∈ metas, item.Provided

-- The cache that a field's own annotation names.
def cacheNamed (field : EntryField) : Option String :=
  field.attr.bind fun metas => (metas.filterMap NestedMeta.cacheNamed).getLast?

-- What the documentation promises of a field: without an annotation it is not
-- encoded, and with one it is encoded in the type, with the size and by the cache
-- that its own annotation names.
def AsDocumented (field : EntryField) : DerivedField → Prop
  | .notEncodable name ty => field.attr = none ∧ name = field.name ∧ ty = field.ty
  | .encodable name ty encodingType cacheSize cacheType => name = field.name ∧ ty = field.ty ∧
      cacheType.ident = field.cacheNamed.getD "lru" ∧ ∃ metas, field.attr = some metas ∧
      encodingType = documentedEncoding metas ∧ cacheSize = documentedSize metas

end EntryField

-- What an item sets. Any other item panics.
theorem readMeta_provided {item : NestedMeta} (known : item.Provided) (settings : FieldSettings)
    (cacheType : Option CacheType) : ∃ kind, readMeta (settings,cacheType) item =
      some (⟨item.encodingNamed.or settings.encodingType,item.sizeNamed.or settings.cacheSize⟩,kind) ∧
      kind.map CacheType.ident = item.cacheNamed.or (cacheType.map CacheType.ident) := by
  cases item with
  | size n => exact ⟨cacheType,rfl,rfl⟩
  | cache ident =>
    rcases known with rfl | rfl
    · exact ⟨some .lru,rfl,rfl⟩
    · exact ⟨some .lfu,rfl,rfl⟩
  | encoding ident => exact ⟨cacheType,rfl,rfl⟩
  | other path => exact known.elim

theorem readMeta_refused {item : NestedMeta} (unknown : ¬ item.Provided) (before : FieldSettings × Option CacheType) :
    readMeta before item = none := by
  cases item with
  | size | encoding => exact absurd trivial unknown
  | cache ident =>
    obtain ⟨notLru,notLfu⟩ := not_or.mp unknown
    simp only [readMeta,notLru,notLfu,if_false]
  | other path => rfl

theorem getLast_named {item : NestedMeta} {rest : List NestedMeta} (named : NestedMeta → Option α) (before : Option α) :
    ((item::rest).filterMap named).getLast?.or before = (rest.filterMap named).getLast?.or ((named item).or before) := by
  cases first : named item with
  | none => simp [first]
  | some value => cases later : (rest.filterMap named).getLast? <;> simp [first,List.getLast?_cons,later]

-- The items are read one after the other, so that the last one to name a thing sets it.
theorem foldlM_readMeta (metas : List NestedMeta) (known : ∀ item ∈ metas, item.Provided) (settings : FieldSettings)
    (cacheType : Option CacheType) : ∃ kind, metas.foldlM readMeta (settings,cacheType) =
      some (⟨(metas.filterMap NestedMeta.encodingNamed).getLast?.or settings.encodingType,
        (metas.filterMap NestedMeta.sizeNamed).getLast?.or settings.cacheSize⟩,kind) ∧
      kind.map CacheType.ident =
        (metas.filterMap NestedMeta.cacheNamed).getLast?.or (cacheType.map CacheType.ident) := by
  induction metas generalizing settings cacheType with
  | nil => exact ⟨cacheType,rfl,rfl⟩
  | cons item rest ih =>
    obtain ⟨kind,read,named⟩ := readMeta_provided (known item List.mem_cons_self) settings cacheType
    obtain ⟨last,later,named'⟩ := ih (fun other member => known other (List.mem_cons_of_mem item member))
      ⟨item.encodingNamed.or settings.encodingType,item.sizeNamed.or settings.cacheSize⟩ kind
    refine ⟨last,?_,?_⟩
    · rw [List.foldlM_cons,read,getLast_named,getLast_named]
      exact later
    · rw [getLast_named,←named]
      exact named'

theorem foldlM_refused (metas : List NestedMeta) (unknown : ¬ ∀ item ∈ metas, item.Provided)
    (before : FieldSettings × Option CacheType) : metas.foldlM readMeta before = none := by
  induction metas generalizing before with
  | nil => exact absurd (List.forall_mem_nil _) unknown
  | cons item rest ih =>
    rw [List.forall_mem_cons] at unknown
    rw [List.foldlM_cons]
    cases read : readMeta before item with
    | none => rfl
    | some next =>
      refine ih ?_ next
      intro others
      refine unknown ⟨?_,others⟩
      by_contra own
      rw [readMeta_refused own] at read
      cases read

-- The last cache that the fields before name, or the one that came in.
def inherited (ident : String) (earlier : List EntryField) : String :=
  (earlier.filterMap EntryField.cacheNamed).getLast?.getD ident

theorem inherited_cons (ident : String) (field : EntryField) (earlier : List EntryField) :
    inherited ident (field::earlier) = inherited (field.cacheNamed.getD ident) earlier := by
  unfold inherited
  cases named : field.cacheNamed <;> simp [named,List.getLast?_cons]

-- The name of the cache type that comes in from the fields before.
def CacheType.incoming (cacheType : Option CacheType) : String := (cacheType.map CacheType.ident).getD "lru"

-- An annotated field is derived as documented, but for the cache where it names none.
theorem deriveField_annotated {field : EntryField} (annotated : field.attr = some metas) (known : field.Provided)
    (cacheType : Option CacheType) : ∃ kind : CacheType,
      kind.ident = field.cacheNamed.getD (CacheType.incoming cacheType) ∧ deriveField cacheType field =
        some (.encodable field.name field.ty (documentedEncoding metas) (documentedSize metas) kind,some kind) := by
  obtain ⟨last,read,named⟩ := foldlM_readMeta metas (known metas annotated) {} cacheType
  refine ⟨last.getD .lru,?_,?_⟩
  · have own : field.cacheNamed = (metas.filterMap NestedMeta.cacheNamed).getLast? := by
      simp [EntryField.cacheNamed,annotated]
    rw [own,CacheType.incoming]
    cases last with
    | none =>
      obtain ⟨none,unset⟩ := Option.or_eq_none_iff.mp named.symm
      simp [none,unset,CacheType.ident]
    | some kind =>
      cases given : (metas.filterMap NestedMeta.cacheNamed).getLast? with
      | none =>
        rw [given,Option.none_or] at named
        rw [←named]
        rfl
      | some ident => simpa [given] using named
  · simp [deriveField,annotated,read,documentedEncoding,documentedSize]

theorem deriveField_plain {field : EntryField} (plain : field.attr = none) (cacheType : Option CacheType) :
    deriveField cacheType field = some (.notEncodable field.name field.ty,cacheType) := by
  simp only [deriveField,plain]

theorem deriveField_refused {field : EntryField} (unknown : ¬ field.Provided) (cacheType : Option CacheType) :
    deriveField cacheType field = none := by
  cases annotated : field.attr with
  | none => exact absurd (fun metas same => by cases annotated.symm.trans same) unknown
  | some metas =>
    have wrong : ¬ ∀ item ∈ metas, item.Provided := by
      intro known
      refine unknown ?_
      intro others same
      cases annotated.symm.trans same
      exact known
    simp only [deriveField,annotated,foldlM_refused metas wrong,Option.bind_eq_bind,Option.bind_none]

theorem deriveFields_cons {field : EntryField} {rest : List EntryField} {code : List DerivedField} :
    deriveFields cacheType (field::rest) = some code ↔ ∃ derived next others,
      deriveField cacheType field = some (derived,next) ∧ deriveFields next rest = some others ∧ code = derived::others := by
  simp only [deriveFields,Option.bind_eq_bind,Option.bind_eq_some_iff,Option.pure_def,Option.some.injEq,Prod.exists]
  constructor
  · rintro ⟨derived,next,first,others,later,rfl⟩
    exact ⟨derived,next,others,first,later,rfl⟩
  · rintro ⟨derived,next,others,first,later,rfl⟩
    exact ⟨derived,next,first,others,later,rfl⟩

theorem forall_split {head : α} {rest : List α} {P : List α → α → Prop} :
    (∀ earlier item later, head::rest = earlier++item::later → P earlier item) ↔
      P [] head ∧ ∀ earlier item later, rest = earlier++item::later → P (head::earlier) item := by
  constructor
  · intro all
    exact ⟨all [] head rest rfl,fun earlier item later same => all (head::earlier) item later (by rw [same]; rfl)⟩
  · intro both earlier item later same
    cases earlier with
    | nil =>
      cases same
      exact both.1
    | cons first others =>
      cases same
      exact both.2 others item later rfl

-- The first field is as documented on its own, and what it leaves in the variable of
-- the macro decides about the others.
theorem deriveFields_documented (fields : List EntryField) (cacheType : Option CacheType) :
    (∃ code, deriveFields cacheType fields = some code ∧ List.Forall₂ EntryField.AsDocumented fields code) ↔
      (∀ field ∈ fields, field.Provided) ∧
      ∀ earlier field later, fields = earlier++field::later → field.attr ≠ none → field.cacheNamed = none →
        inherited (CacheType.incoming cacheType) earlier = "lru" := by
  induction fields generalizing cacheType with
  | nil => simp [deriveFields]
  | cons field rest ih =>
    rw [forall_split (P:=fun earlier field => field.attr ≠ none → field.cacheNamed = none →
      inherited (CacheType.incoming cacheType) earlier = "lru"),List.forall_mem_cons]
    simp only [inherited_cons]
    by_cases known : field.Provided
    · cases annotated : field.attr with
      | none =>
        have unnamed : field.cacheNamed = none := by simp [EntryField.cacheNamed,annotated]
        have onward := ih cacheType
        simp only [deriveFields_cons,deriveField_plain annotated,unnamed,Option.getD_none]
        simp only [ne_eq,not_true,false_implies,true_and,known]
        rw [←onward]
        constructor
        · rintro ⟨code,⟨derived,next,others,same,later,rfl⟩,shaped⟩
          cases same
          exact ⟨others,later,(List.forall₂_cons.mp shaped).2⟩
        · rintro ⟨others,later,shaped⟩
          exact ⟨_,⟨_,_,others,rfl,later,rfl⟩,.cons ⟨annotated,rfl,rfl⟩ shaped⟩
      | some metas =>
        obtain ⟨kind,named,derived⟩ := deriveField_annotated annotated known cacheType
        have onward := ih (some kind)
        have own : CacheType.incoming (some kind) = field.cacheNamed.getD (CacheType.incoming cacheType) := named
        rw [own] at onward
        have first : (field.AsDocumented (.encodable field.name field.ty (documentedEncoding metas) (documentedSize metas) kind) ↔
            (field.cacheNamed = none → CacheType.incoming cacheType = "lru")) := by
          simp only [EntryField.AsDocumented,named,true_and]
          cases field.cacheNamed with
          | none => simp [annotated]
          | some ident => simp [annotated]
        simp only [deriveFields_cons,derived,known,true_and,ne_eq,reduceCtorEq,not_false_eq_true,true_implies]
        have here : inherited (CacheType.incoming cacheType) [] = CacheType.incoming cacheType := rfl
        rw [here,and_left_comm,←onward,←first]
        constructor
        · rintro ⟨code,⟨_,_,others,same,later,rfl⟩,shaped⟩
          cases same
          exact ⟨(List.forall₂_cons.mp shaped).1,others,later,(List.forall₂_cons.mp shaped).2⟩
        · rintro ⟨shape,others,later,shaped⟩
          exact ⟨_,⟨_,_,others,rfl,later,rfl⟩,.cons shape shaped⟩
    · simp [deriveFields_cons,deriveField_refused known,known]

-- The types that the annotations name, each with what the derived code needs of it,
-- and what reading a field from a value of one of them gives, where that compiles.
structure EntryTypes where
  field : String → Type
  encoded : String → Type
  fieldEq : ∀ ty, DecidableEq (field ty)
  encodedEq : ∀ ty, DecidableEq (encoded ty)
  increment : ∀ ty, IncrementByOne (encoded ty)
  integer : ∀ ty, EncodedInteger (encoded ty)
  fieldOf : ∀ ty, String → ∀ ty', Option (field ty → field ty')

attribute [instance] EntryTypes.fieldEq EntryTypes.encodedEq EntryTypes.increment EntryTypes.integer

def fieldCoder (C : Type) {F E : Type} [FieldCache C F E] (size : Nat) : Coder where
  Value := F
  Sent := MaybeEncoded F E
  State := C
  fresh := (FieldCache.new size : Option C)
  encode := FieldCache.tryEncode
  decode := FieldCache.decode

section Derived
variable (L : Type → Type → Type) [Lru L] (H : Type → Type) [LinkedHashSet H] (types : EntryTypes)

def CacheType.Cache (F E : Type) : CacheType → Type
  | .lru => LRUniCache L F E
  | .lfu => LFUniCache H F E

instance {F E : Type} [DecidableEq F] [DecidableEq E] [IncrementByOne E] (cacheType : CacheType) :
    FieldCache (cacheType.Cache L H F E) F E :=
  match cacheType with
  | .lru => inferInstanceAs (FieldCache (LRUniCache L F E) F E)
  | .lfu => inferInstanceAs (FieldCache (LFUniCache H F E) F E)

-- Fields without an annotation are cloned; the others go through their caches.
def DerivedField.coder : DerivedField → Coder
  | .notEncodable _ ty => .plain (types.field ty)
  | .encodable _ ty encodingType cacheSize cacheType =>
    fieldCoder (cacheType.Cache L H (types.field ty) (types.encoded encodingType)) cacheSize

def fieldCoders (fields : List DerivedField) : Coder := .all (fields.map fun field => field.coder L H types)

-- What `entry` stands for in the derived `try_encode`: its parameter, until a field of
-- that name has got a local.
inductive Scope where
  | parameter
  | cached
  | plain (ty : String) (value : types.field ty)

-- What is read as a field of `entry`, where `own` is the parameter's. There is nothing
-- where the code does not compile.
def Scope.read (ty name : String) (own : types.field ty) : Scope types → Option (types.field ty)
  | .parameter => some own
  | .cached => none
  | .plain ty' value => (types.fieldOf ty' name ty).map fun get => get value

def Scope.bind (name : String) (scope value : Scope types) : Scope types :=
  if name = "entry" then value else scope

-- The locals of the fields that are encoded.
def Cached : List DerivedField → Type
  | [] => Unit
  | .notEncodable _ _::rest => Cached rest
  | .encodable _ ty encodingType _ _::rest => MaybeEncoded (types.field ty) (types.encoded encodingType) × Cached rest

def letCached : (fields : List DerivedField) → (fieldCoders L H types fields).Value → (fieldCoders L H types fields).State →
    Scope types → Option (Cached types fields × (fieldCoders L H types fields).State × Scope types)
  | [],_,caches,scope => some ((),caches,scope)
  | .notEncodable _ _::rest,value,caches,scope => do
    let (others,later,scope) ← letCached rest value.2 caches.2 scope
    return (others,(caches.1,later),scope)
  | .encodable name ty encodingType _ cacheType::rest,value,caches,scope => do
    let field ← scope.read types ty name value.1
    let (sent,cache) ← FieldCache.tryEncode
      (C:=cacheType.Cache L H (types.field ty) (types.encoded encodingType)) field caches.1
    let (others,later,scope) ← letCached rest value.2 caches.2 (scope.bind types name .cached)
    return ((sent,others),(cache,later),scope)

-- The locals of the other fields, and the tuple of them all in the order of the struct.
def letPlain : (fields : List DerivedField) → (fieldCoders L H types fields).Value → Cached types fields →
    Scope types → Option (fieldCoders L H types fields).Sent
  | [],_,_,_ => some ()
  | .notEncodable name ty::rest,value,cached,scope => do
    let field ← scope.read types ty name value.1
    let others ← letPlain rest value.2 cached (scope.bind types name (.plain ty field))
    return (field,others)
  | .encodable _ _ _ _ _::rest,value,cached,scope => do
    let others ← letPlain rest value.2 cached.2 scope
    return (cached.1,others)

-- The derived cache of an entry. It makes and decodes the fields one by one.
def entryCoder (fields : List DerivedField) : Coder where
  Value := (fieldCoders L H types fields).Value
  Sent := (fieldCoders L H types fields).Sent
  State := (fieldCoders L H types fields).State
  fresh := (fieldCoders L H types fields).fresh
  encode entry caches := do
    let (cached,caches,scope) ← letCached L H types fields entry caches .parameter
    let sent ← letPlain L H types fields entry cached scope
    return (sent,caches)
  decode := (fieldCoders L H types fields).decode

def DerivedField.name : DerivedField → String
  | .notEncodable name _ => name
  | .encodable name _ _ _ _ => name

theorem bind_elsewhere {name : String} (elsewhere : name ≠ "entry") (scope value : Scope types) :
    scope.bind types name value = scope := if_neg elsewhere

-- As long as no local is named `entry`, the lets read the parameter.
theorem letCached_scope {fields : List DerivedField} (named : ∀ field ∈ fields, field.name ≠ "entry")
    {value : (fieldCoders L H types fields).Value} {caches next : (fieldCoders L H types fields).State}
    {cached : Cached types fields} {scope : Scope types}
    (ran : letCached L H types fields value caches .parameter = some (cached,next,scope)) : scope = .parameter := by
  induction fields generalizing scope with
  | nil =>
    cases ran
    rfl
  | cons field rest ih =>
    obtain ⟨own,others⟩ := List.forall_mem_cons.mp named
    cases field with
    | notEncodable name ty =>
      obtain ⟨⟨tail,later,scope'⟩,ran,same⟩ := Option.bind_eq_some_iff.mp ran
      cases same
      exact ih others ran
    | encodable name ty encodingType cacheSize cacheType =>
      obtain ⟨⟨sent,cache⟩,_,ran⟩ := Option.bind_eq_some_iff.mp ran
      obtain ⟨⟨tail,later,scope'⟩,ran,same⟩ := Option.bind_eq_some_iff.mp ran
      cases same
      have unbound := bind_elsewhere types own .parameter .cached
      exact ih others ((congrArg (letCached L H types rest value.2 caches.2) unbound).symm.trans ran)

-- Then the two runs of lets make what encoding the fields one by one makes.
theorem lets_encode (fields : List DerivedField) (named : ∀ field ∈ fields, field.name ≠ "entry")
    (value : (fieldCoders L H types fields).Value) (caches next : (fieldCoders L H types fields).State)
    (sent : (fieldCoders L H types fields).Sent) :
    (∃ cached, letCached L H types fields value caches .parameter = some (cached,next,.parameter) ∧
      letPlain L H types fields value cached .parameter = some sent) ↔
      (fieldCoders L H types fields).encode value caches = some (sent,next) := by
  induction fields with
  | nil => exact ⟨fun _ => rfl,fun _ => ⟨(),rfl,rfl⟩⟩
  | cons field rest ih =>
    obtain ⟨own,others⟩ := List.forall_mem_cons.mp named
    have onward := ih others value.2 caches.2 next.2 sent.2
    refine Iff.trans ?_ (Coder.pair_encode (c:=field.coder L H types) (d:=fieldCoders L H types rest)).symm
    refine Iff.trans ?_ (and_congr_right' onward)
    cases field with
    | notEncodable name ty =>
      have unbound := bind_elsewhere types own .parameter (.plain ty value.1)
      have lets := fun cached => congrArg (letPlain L H types rest value.2 cached) unbound
      constructor
      · rintro ⟨cached,first,second⟩
        obtain ⟨⟨tail,later,scope⟩,first,same⟩ := Option.bind_eq_some_iff.mp first
        cases same
        obtain ⟨tail,plain,same⟩ := Option.bind_eq_some_iff.mp second
        cases same
        exact ⟨rfl,cached,first,(lets cached).symm.trans plain⟩
      · rintro ⟨same,cached,first,second⟩
        obtain ⟨kept,idle⟩ := Prod.mk.inj (Option.some.inj same)
        refine ⟨cached,Option.bind_eq_some_iff.mpr ⟨_,first,?_⟩,
          Option.bind_eq_some_iff.mpr ⟨_,(lets cached).trans second,?_⟩⟩
        · exact congrArg (fun cache => some (cached,(cache,next.2),Scope.parameter)) idle
        · exact congrArg (fun field => some (field,sent.2)) kept
    | encodable name ty encodingType cacheSize cacheType =>
      have unbound := bind_elsewhere types own .parameter .cached
      have lets := congrArg (letCached L H types rest value.2 caches.2) unbound
      constructor
      · rintro ⟨cached,first,second⟩
        obtain ⟨⟨code,cache⟩,encoded,first⟩ := Option.bind_eq_some_iff.mp first
        obtain ⟨⟨tail,later,scope⟩,first,same⟩ := Option.bind_eq_some_iff.mp first
        cases same
        obtain ⟨tail',plain,same⟩ := Option.bind_eq_some_iff.mp second
        cases same
        exact ⟨encoded,tail,lets.symm.trans first,plain⟩
      · rintro ⟨encoded,cached,first,second⟩
        refine ⟨(sent.1,cached),?_,Option.bind_eq_some_iff.mpr ⟨sent.2,second,rfl⟩⟩
        refine Option.bind_eq_some_iff.mpr ⟨(sent.1,next.1),encoded,?_⟩
        exact Option.bind_eq_some_iff.mpr ⟨_,lets.trans first,rfl⟩

theorem entryCoder_encode {fields : List DerivedField} (named : ∀ field ∈ fields, field.name ≠ "entry") :
    (entryCoder L H types fields).encode = (fieldCoders L H types fields).encode := by
  funext entry caches
  refine Option.ext fun result => ?_
  refine Iff.trans ?_ (lets_encode L H types fields named entry caches result.2 result.1)
  constructor
  · intro ran
    obtain ⟨⟨cached,next,scope⟩,first,ran⟩ := Option.bind_eq_some_iff.mp ran
    obtain ⟨sent,second,same⟩ := Option.bind_eq_some_iff.mp ran
    cases same
    cases letCached_scope L H types named first
    exact ⟨cached,first,second⟩
  · rintro ⟨cached,first,second⟩
    exact Option.bind_eq_some_iff.mpr ⟨_,first,Option.bind_eq_some_iff.mpr ⟨_,second,rfl⟩⟩

-- The size of a cache is not checked against its integer type.
def DerivedField.Fits : DerivedField → Prop
  | .notEncodable .. => True
  | .encodable _ _ encodingType cacheSize _ => 1 ≤ cacheSize ∧ cacheSize ≤ EncodedInteger.largest (types.encoded encodingType)

-- The size and the integer type that a field's own annotation gives it.
def EntryField.Fits (field : EntryField) : Prop := ∀ metas, field.attr = some metas →
  1 ≤ documentedSize metas ∧ documentedSize metas ≤ EncodedInteger.largest (types.encoded (documentedEncoding metas))

theorem deriveField_fits {field : EntryField} (ran : deriveField cacheType field = some (derived,next)) :
    derived.name = field.name ∧ (field.Fits types → derived.Fits types) := by
  cases annotated : field.attr with
  | none =>
    rw [deriveField_plain annotated] at ran
    cases ran
    exact ⟨rfl,fun _ => trivial⟩
  | some metas =>
    have provided : field.Provided := by
      by_contra refused
      rw [deriveField_refused refused] at ran
      cases ran
    obtain ⟨kind,_,same⟩ := deriveField_annotated annotated provided cacheType
    cases same.symm.trans ran
    exact ⟨rfl,fun fits => fits metas annotated⟩

theorem deriveFields_fits (fields : List EntryField) (ran : deriveFields cacheType fields = some code) :
    ∀ derived ∈ code, ∃ field ∈ fields, derived.name = field.name ∧ (field.Fits types → derived.Fits types) := by
  induction fields generalizing cacheType code with
  | nil =>
    cases ran
    exact List.forall_mem_nil _
  | cons field rest ih =>
    obtain ⟨derived,next,others,first,later,rfl⟩ := deriveFields_cons.mp ran
    intro other member
    rcases List.mem_cons.mp member with rfl | held
    · exact ⟨field,List.mem_cons_self,deriveField_fits types first⟩
    · obtain ⟨origin,known,kept⟩ := ih later other held
      exact ⟨origin,List.mem_cons_of_mem field known,kept⟩

variable [LawfulLru L] [LawfulLinkedHashSet H]

theorem fieldCoder_faithful {M : Type → Type → Type} [InnerCache M] [FollowsCells M] {F E : Type} [DecidableEq F]
    [DecidableEq E] [IncrementByOne E] [EncodedInteger E] (c : FieldCache (FieldCoder M F E) F E) (size : Nat)
    (same : c = ⟨FieldCoder.new,FieldCoder.tryEncode,FieldCoder.decode⟩) (sized : 1 ≤ size)
    (fits : size ≤ EncodedInteger.largest E) : (fieldCoder (FieldCoder M F E) size).Faithful := by
  subst same
  obtain ⟨fresh,made,_⟩ := FieldCoder.conveys_fresh (M:=M) (F:=F) (E:=E) sized fits []
  refine ⟨fresh,made,?_⟩
  intro values
  obtain ⟨fresh',made',conveys⟩ := FieldCoder.conveys_fresh (M:=M) (F:=F) (E:=E) sized fits values
  cases made.symm.trans made'
  exact conveys

theorem coder_faithful (field : DerivedField) (fits : field.Fits types) : (field.coder L H types).Faithful := by
  cases field with
  | notEncodable name ty => exact Coder.plain_faithful _
  | encodable name ty encodingType cacheSize cacheType =>
    cases cacheType with
    | lru => exact fieldCoder_faithful (M:=L) _ cacheSize rfl fits.1 fits.2
    | lfu => exact fieldCoder_faithful (M:=LFUCache H) _ cacheSize rfl fits.1 fits.2

-- Entries of every struct that the macro takes come out of a fresh cache as they
-- went into another one, whatever the mixture of its fields, if none of these is
-- named as the parameter of the derived code is.
theorem derived_round_trip (fields : List EntryField) (code : List DerivedField) (derived : unicacheEntryDerive fields = some code)
    (named : ∀ field ∈ fields, field.name ≠ "entry") (fits : ∀ field ∈ fields, field.Fits types) :
    (entryCoder L H types code).Faithful := by
  have each : (fieldCoders L H types code).Faithful := by
    apply Coder.all_faithful
    intro coder member
    obtain ⟨derived',held,rfl⟩ := List.mem_map.mp member
    obtain ⟨field,known,_,kept⟩ := deriveFields_fits types fields derived derived' held
    exact coder_faithful L H types derived' (kept (fits field known))
  have elsewhere : ∀ derived' ∈ code, derived'.name ≠ "entry" := by
    intro derived' held
    obtain ⟨field,known,same,_⟩ := deriveFields_fits types fields derived derived' held
    rw [same]
    exact named field known
  obtain ⟨fresh,made,conveys⟩ := each
  refine ⟨fresh,made,?_⟩
  rw [entryCoder_encode L H types elsewhere]
  exact conveys

end Derived

-- A person whose job is cached by use and whose town, named after it, by default.
def samplePerson : List EntryField :=
  [⟨"id","u64",none⟩,⟨"first_name","String",some [.encoding "u8"]⟩,⟨"job","String",some [.size 20,.cache "lfu"]⟩,
    ⟨"town","String",some []⟩]

def sampleTypes : EntryTypes where
  field _ := Nat
  encoded _ := UInt8
  fieldEq _ := inferInstance
  encodedEq _ := inferInstance
  increment _ := inferInstance
  integer _ := inferInstance
  fieldOf _ _ _ := none

theorem derived_round_trip_person : ∃ code, unicacheEntryDerive samplePerson = some code ∧
    (entryCoder ListLru ListSet sampleTypes code).Faithful := by
  obtain ⟨code,derived⟩ : ∃ code, unicacheEntryDerive samplePerson = some code := ⟨_,rfl⟩
  refine ⟨code,derived,derived_round_trip ListLru ListSet sampleTypes samplePerson code derived ?_ ?_⟩
  · decide
  · intro field member metas same
    simp only [samplePerson,List.mem_cons,List.not_mem_nil,or_false] at member
    rcases member with rfl | rfl | rfl | rfl <;> cases same <;> exact ⟨by decide,by decide⟩

-- A field that is named as the parameter hides it from the fields after it.
example (entry caches) : (entryCoder ListLru ListSet sampleTypes
    [.notEncodable "entry" "String",.notEncodable "id" "u64"]).encode entry caches = none := rfl

-- The town of the person is cached by use too.
example : (unicacheEntryDerive samplePerson).map (List.drop 2) =
    some [.encodable "job" "String" "u8" 20 .lfu,.encodable "town" "String" "u8" 255 .lfu] := by decide

end OmniPaxosKV
