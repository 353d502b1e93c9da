import Mathlib.Data.UInt
import OmniPaxosKV.KeyMap
import OmniPaxosKV.SelfDelimiting

namespace OmniPaxosKV

abbrev NodeId := Nat
abbrev ClientId := Nat
abbrev CommandId := UInt64

-- Nanoseconds since the epoch, and spans of them.
abbrev SystemTime := Nat
abbrev Duration := Nat

def Duration.fromMillis (ms : Nat) : Duration := ms*1000000
def Duration.fromMicros (us : Nat) : Duration := us*1000

class Request (R : Type) where
  getDeadline : R → SystemTime
  setDeadline : R → SystemTime → R
  getId : R → Nat
  clientId : R → ClientId

-- What an implementation of the trait promises by its names only.
class LawfulRequest (R : Type) [Request R] : Prop where
  getDeadline_setDeadline : ∀ (r : R) d, Request.getDeadline (Request.setDeadline r d) = d
  getId_setDeadline : ∀ (r : R) d, Request.getId (Request.setDeadline r d) = Request.getId r

-- `hash` is the byte stream that the type's `Hash` feeds to a hasher.
class Entry (T : Type) extends Request T where
  hash : T → List UInt8

inductive KVCommand where
  | put (key value : String)
  | delete (key : String)
  | get (key : String)
  deriving DecidableEq, Repr

structure Command where
  clientId : ClientId
  coordinatorId : NodeId
  id : CommandId
  privateId : Nat
  deadline : SystemTime
  kvCmd : KVCommand
  deriving DecidableEq, Repr

-- Eight little-endian bytes, as integers and enum discriminants are hashed.
def hashU64 (value : Nat) : List UInt8 :=
  (List.range 8).map fun i => UInt8.ofNat (value/256^i)

def utf8 (text : String) : List UInt8 := text.toByteArray.data.toList

def hashStr (text : String) : List UInt8 := utf8 text++[0xff]

def KVCommand.hash : KVCommand → List UInt8
  | .put key value => hashU64 0++(hashStr key++hashStr value)
  | .delete key => hashU64 1++hashStr key
  | .get key => hashU64 2++hashStr key

def Command.hash (c : Command) : List UInt8 := hashU64 c.id.toNat++c.kvCmd.hash

-- The replicas' deadlines, private ids and client ids stay out of the hash.
def Command.key (c : Command) : CommandId × KVCommand := (c.id,c.kvCmd)

instance : Entry Command where
  getDeadline c := c.deadline
  setDeadline c deadline := {c with deadline:=deadline}
  getId c := c.privateId
  clientId c := c.clientId
  hash := Command.hash

instance : LawfulRequest Command where
  getDeadline_setDeadline _ _ := rfl
  getId_setDeadline _ _ := rfl

-- The lowest byte and, by induction, the rest of the number.
theorem eq_of_bytes (small : x < 256^k) (small' : y < 256^k) (bytes : ∀ i < k, x/256^i%256 = y/256^i%256) : x = y := by
  induction k generalizing x y with
  | zero =>
    rw [Nat.pow_zero] at small small'
    omega
  | succ k ih =>
    rw [Nat.pow_succ] at small small'
    have low : x%256 = y%256 := by simpa using bytes 0 (Nat.succ_pos k)
    have high : x/256 = y/256 := by
      apply ih
      · exact Nat.div_lt_of_lt_mul (by rwa [Nat.mul_comm])
      · exact Nat.div_lt_of_lt_mul (by rwa [Nat.mul_comm])
      · intro i bound
        have next := bytes (i+1) (Nat.succ_lt_succ bound)
        rwa [Nat.pow_succ',←Nat.div_div_eq_div_mul,←Nat.div_div_eq_div_mul] at next
    omega

theorem hashU64_injective (small : x < 2^64) (small' : y < 2^64) (equal : hashU64 x = hashU64 y) : x = y := by
  refine eq_of_bytes (k := 8) small small' ?_
  intro i bound
  have same := (List.map_inj_left.mp equal) i (List.mem_range.mpr bound)
  simpa using congrArg UInt8.toNat same

theorem hashU64_delimits : SelfDelimiting (fun id : CommandId => hashU64 id.toNat) := by
  refine .of_length ?_ 8 (fun _ => by simp [hashU64])
  intro x y equal
  exact UInt64.toNat_inj.mp (hashU64_injective x.toNat_lt y.toNat_lt equal)

theorem utf8EncodeChar_ne_ff (c : Char) : (0xff : UInt8) ∉ String.utf8EncodeChar c := by
  have below : c.val.toNat < 0x110000 := by
    rcases c.valid with low | ⟨_,high⟩
    · exact Nat.lt_trans low (by decide)
    · exact high
  have narrow : ∀ n, n < 255 → (0xff : UInt8) ≠ UInt8.ofNat n := by
    intro n bound equal
    have := congrArg UInt8.toNat equal
    simp at this
    omega
  unfold String.utf8EncodeChar
  dsimp only
  split
  · simp only [List.mem_singleton]
    exact narrow _ (by omega)
  · split
    · simp only [List.mem_cons,List.not_mem_nil,or_false,not_or]
      exact ⟨narrow _ (by omega),narrow _ (by omega)⟩
    · split
      · simp only [List.mem_cons,List.not_mem_nil,or_false,not_or]
        exact ⟨narrow _ (by omega),narrow _ (by omega),narrow _ (by omega)⟩
      · simp only [List.mem_cons,List.not_mem_nil,or_false,not_or]
        exact ⟨narrow _ (by omega),narrow _ (by omega),narrow _ (by omega),narrow _ (by omega)⟩

theorem utf8_chars (text : String) : utf8 text = text.toList.flatMap String.utf8EncodeChar := by
  unfold utf8
  rw [←String.utf8Encode_toList]
  simp [List.utf8Encode]

theorem hashStr_delimits : SelfDelimiting hashStr := by
  refine .of_terminated ?_ ?_
  · intro x y equal
    apply String.toByteArray_inj.mp
    apply ByteArray.ext
    exact Array.toList_inj.mp equal
  · intro text
    rw [utf8_chars,List.mem_flatMap]
    intro held
    obtain ⟨c,_,member⟩ := held
    exact utf8EncodeChar_ne_ff c member

-- The discriminant comes first, so two streams of one variant differ in their texts only.
theorem kvCommand_delimits : SelfDelimiting KVCommand.hash := by
  have tagged : ∀ tag tag' left right, hashU64 tag++left = hashU64 tag'++right →
      hashU64 tag = hashU64 tag' ∧ left = right :=
    fun tag tag' left right equal => List.append_inj equal (by simp [hashU64])
  have pairs := hashStr_delimits.append hashStr_delimits
  intro x y restX restY equal
  cases x <;> cases y <;> simp only [KVCommand.hash,List.append_assoc] at equal <;>
    obtain ⟨tags,bodies⟩ := tagged _ _ _ _ equal
  case put.put key value key' value' =>
    obtain ⟨same,rest⟩ := pairs (key,value) (key',value') restX restY (by simpa using bodies)
    simp only [Prod.mk.injEq] at same
    exact ⟨by rw [same.1,same.2],rest⟩
  case delete.delete key key' =>
    obtain ⟨rfl,rest⟩ := hashStr_delimits _ _ _ _ bodies
    exact ⟨rfl,rest⟩
  case get.get key key' =>
    obtain ⟨rfl,rest⟩ := hashStr_delimits _ _ _ _ bodies
    exact ⟨rfl,rest⟩
  all_goals exact absurd tags (by decide)

def keyHash (key : CommandId × KVCommand) : List UInt8 := hashU64 key.1.toNat++key.2.hash

theorem keyHash_delimits : SelfDelimiting keyHash := hashU64_delimits.append kvCommand_delimits

theorem keyHash_ne_nil (key : CommandId × KVCommand) : keyHash key ≠ [] := by
  simp [keyHash,hashU64]

-- A whole log decodes: its byte stream determines the commands, not only their number.
theorem stream_keys (logs : List Command) : logs.flatMap Command.hash = (logs.map Command.key).flatMap keyHash := by
  rw [List.flatMap_map]
  rfl

theorem stream_injective {left right : List Command}
    (equal : left.flatMap Command.hash = right.flatMap Command.hash) :
    left.map Command.key = right.map Command.key := by
  rw [stream_keys,stream_keys] at equal
  exact keyHash_delimits.flatMap_injective keyHash_ne_nil equal

-- The key-value store of a server.
@[ext] structure Database where
  db : KeyMap String String

namespace Database

def new : Database := ⟨.empty⟩

def handleCommand (s : Database) : KVCommand → Option (Option String) × Database
  | .put key value => (none,⟨s.db.insert key value⟩)
  | .delete key => (none,⟨s.db.remove key⟩)
  | .get key => (some (s.db key),s)

def apply (s : Database) (command : KVCommand) : Database := (s.handleCommand command).2

def applyAll (s : Database) (commands : List KVCommand) : Database := commands.foldl apply s

@[simp] theorem applyAll_nil (s : Database) : s.applyAll [] = s := rfl
@[simp] theorem applyAll_cons (s : Database) : s.applyAll (command::rest) = (s.apply command).applyAll rest := rfl

theorem applyAll_append (s : Database) (one two : List KVCommand) :
    s.applyAll (one++two) = (s.applyAll one).applyAll two := List.foldl_append

-- What the last write to a key leaves there, if any command writes it.
def written (key : String) : KVCommand → Option (Option String)
  | .put key' value => if key = key' then some (some value) else none
  | .delete key' => if key = key' then some none else none
  | .get _ => none

theorem apply_db (s : Database) (command : KVCommand) (key : String) :
    (s.apply command).db key = (written key command).getD (s.db key) := by
  cases command with
  | put key' value =>
    by_cases same : key = key' <;> simp [apply,handleCommand,written,same,KeyMap.insert_apply]
  | delete key' =>
    by_cases same : key = key' <;> simp [apply,handleCommand,written,same,KeyMap.remove_apply]
  | get key' => rfl

theorem applyAll_db (s : Database) (commands : List KVCommand) (key : String) :
    (s.applyAll commands).db key = ((commands.reverse.findSome? (written key))).getD (s.db key) := by
  induction commands generalizing s with
  | nil => rfl
  | cons command rest ih =>
    rw [applyAll_cons,ih,apply_db,List.reverse_cons,List.findSome?_append]
    cases rest.reverse.findSome? (written key) <;> simp

-- Replaying the end of a sequence changes nothing: every key it writes already
-- holds what its last write left.
theorem applyAll_replay (s : Database) (before suffix : List KVCommand) :
    (s.applyAll (before++suffix)).applyAll suffix = s.applyAll (before++suffix) := by
  apply Database.ext
  funext key
  rw [applyAll_append,applyAll_db _ suffix,applyAll_db _ suffix]
  cases suffix.reverse.findSome? (written key) <;> rfl

end Database
end OmniPaxosKV
