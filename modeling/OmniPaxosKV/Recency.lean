import OmniPaxosKV.LruCache
import Mathlib.Data.List.Dedup

-- The order in which values were last used, and what a cache of a given size keeps of it.
namespace OmniPaxosKV

namespace Recency
variable {F : Type} [DecidableEq F]

def touch (held : List F) (field : F) : List F := field::held.filter (· ≠ field)

-- All values that were used, the latest first.
def recent (fields : List F) : List F := fields.foldl touch []

@[simp] theorem recent_nil : recent ([] : List F) = [] := rfl

theorem recent_concat (fields : List F) (field : F) : recent (fields++[field]) = touch (recent fields) field := by
  rw [recent,List.foldl_append]
  rfl

theorem mem_recent (fields : List F) : value ∈ recent fields ↔ value ∈ fields := by
  induction fields using List.reverseRecOn with
  | nil => rfl
  | append_singleton fields field ih =>
    rw [recent_concat,touch,List.mem_cons,List.mem_filter,ih,List.mem_append,List.mem_singleton]
    by_cases same : value = field
    · simp [same]
    · simp [same]

theorem recent_nodup (fields : List F) : (recent fields).Nodup := by
  induction fields using List.reverseRecOn with
  | nil => exact List.nodup_nil
  | append_singleton fields field ih =>
    rw [recent_concat,touch,List.nodup_cons]
    exact ⟨by simp,ih.filter _⟩

-- What was used since comes first.
theorem recent_append (earlier later : List F) :
    recent (earlier++later) = recent later++(recent earlier).filter (· ∉ later) := by
  induction later using List.reverseRecOn with
  | nil => simp
  | append_singleton later field ih =>
    rw [←List.append_assoc,recent_concat,ih,recent_concat,touch,touch,List.filter_append,List.filter_filter,List.cons_append]
    congr 3
    funext value
    by_cases same : value = field
    · simp [same]
    · simp [same]

theorem recent_since (earlier since : List F) (field : F) (unused : field ∉ since) :
    ∃ rest, recent (earlier++field::since) = recent since++field::rest := by
  have last : recent ([field]++since) = recent since++[field] := by
    rw [recent_append]
    simp [recent,touch,unused]
  rw [recent_append,show field::since = [field]++since from rfl,last,List.append_assoc]
  exact ⟨_,rfl⟩

theorem length_recent (fields : List F) : (recent fields).length = fields.dedup.length := by
  refine List.Perm.length_eq ((List.perm_ext_iff_of_nodup (recent_nodup fields) (List.nodup_dedup fields)).mpr ?_)
  intro value
  rw [mem_recent,List.mem_dedup]

omit [DecidableEq F] in
theorem mem_take_split {before after : List F} (absent : field ∉ before) :
    field ∈ (before++field::after).take size ↔ before.length < size := by
  rw [List.take_append,List.mem_append]
  constructor
  · rintro (early | late)
    · exact absurd (List.mem_of_mem_take early) absent
    · by_contra short
      rw [Nat.sub_eq_zero_of_le (Nat.le_of_not_lt short),List.take_zero] at late
      cases late
  · intro room
    refine .inr ?_
    obtain ⟨count,same⟩ := Nat.exists_eq_succ_of_ne_zero (Nat.sub_ne_zero_of_lt room)
    rw [same,List.take_succ_cons]
    exact List.mem_cons_self

-- A value is among the latest when fewer others were used since.
theorem mem_latest_iff (fields : List F) (field : F) : field ∈ (recent fields).take size ↔
    ∃ earlier since, fields = earlier++field::since ∧ field ∉ since ∧ since.dedup.length < size := by
  constructor
  · intro latest
    have used := (mem_recent fields).mp (List.mem_of_mem_take latest)
    obtain ⟨since,earlier,same,unused⟩ := List.eq_append_cons_of_mem (List.mem_reverse.mpr used)
    have split : fields = earlier.reverse++field::since.reverse := by
      rw [←List.reverse_reverse fields,same]
      simp
    have unused' : field ∉ since.reverse := by rwa [List.mem_reverse]
    refine ⟨earlier.reverse,since.reverse,split,unused',?_⟩
    obtain ⟨rest,order⟩ := recent_since earlier.reverse since.reverse field unused'
    rw [split,order,mem_take_split (by rwa [mem_recent]),length_recent] at latest
    exact latest
  · rintro ⟨earlier,since,rfl,unused,few⟩
    obtain ⟨rest,order⟩ := recent_since earlier since field unused
    rw [order,mem_take_split (by rwa [mem_recent]),length_recent]
    exact few

theorem take_without (held : List F) (count : Nat) (absent : field ∉ held.take count) :
    (held.filter (· ≠ field)).take count = held.take count := by
  induction held generalizing count with
  | nil => rfl
  | cons value rest ih =>
    cases count with
    | zero => rfl
    | succ count =>
      rw [List.take_succ_cons,List.mem_cons,not_or] at absent
      rw [List.filter_cons_of_pos (by simpa using Ne.symm absent.1),List.take_succ_cons,List.take_succ_cons,ih count absent.2]

theorem filter_middle {before after : List F} (early : field ∉ before) (late : field ∉ after) :
    (before++field::after).filter (· ≠ field) = before++after := by
  rw [List.filter_append,List.filter_cons_of_neg (by simp),←List.filter_append]
  refine List.filter_eq_self.mpr ?_
  intro value member
  simpa using ne_of_mem_of_not_mem member (by rw [List.mem_append,not_or]; exact ⟨early,late⟩)

-- What a cache of `size` values that gives up the least recent one holds.
def touchWithin (size : Nat) (held : List F) (field : F) : List F :=
  if field ∈ held then touch held field else field::held.take (size-1)

theorem take_touch (sized : 1 ≤ size) (held : List F) (distinct : held.Nodup) (field : F) :
    (touch held field).take size = touchWithin size (held.take size) field := by
  obtain ⟨count,rfl⟩ := Nat.exists_eq_succ_of_ne_zero (Nat.ne_of_gt sized)
  rw [touch,touchWithin,List.take_succ_cons]
  split
  · rename_i latest
    obtain ⟨before,after,rfl⟩ := List.append_of_mem (List.mem_of_mem_take latest)
    have absent : field ∉ before++after := (List.nodup_cons.mp (List.nodup_middle.mp distinct)).1
    rw [List.mem_append,not_or] at absent
    have room := Nat.le_of_lt_succ ((mem_take_split absent.1).mp latest)
    have kept : (before++field::after).take (count+1) = before++field::after.take (count-before.length) := by
      rw [List.take_append,List.take_of_length_le (Nat.le_succ_of_le room),Nat.succ_sub room,List.take_succ_cons]
    have late : field ∉ after.take (count-before.length) := fun member => absent.2 (List.mem_of_mem_take member)
    rw [filter_middle absent.1 absent.2,touch,kept,filter_middle absent.1 late,List.take_append,List.take_of_length_le room]
  · rename_i stale
    have short : field ∉ held.take count := fun member => stale (List.take_subset_take_left held (Nat.le_succ count) member)
    rw [take_without held count short,Nat.succ_sub_one,List.take_take,Nat.min_eq_left (Nat.le_succ count)]

end Recency

namespace Codebook
variable {F : Type} [DecidableEq F]

-- The values of a book, the latest first.
def latest (b : Codebook F) : List F := (b.slots.map Slot.field).reverse

theorem latest_encode (sized : 1 ≤ size) (valid : Sound size b) (field : F) :
    (encode (fun _ => 0) size field b).2.latest = Recency.touchWithin size b.latest field := by
  rcases encode_cases field b with ⟨slot,member,rfl,sent⟩ | ⟨absent,sent⟩
  · have held : slot.field ∈ b.latest := List.mem_reverse.mpr (List.mem_map_of_mem member)
    obtain ⟨before,after,same,renewed⟩ := renew_split valid.toNumbered member
    have distinct := valid.fields
    rw [same,List.map_append,List.map_cons,List.nodup_middle,List.nodup_cons,List.mem_append,not_or] at distinct
    have order : b.latest = (after.map Slot.field).reverse++slot.field::(before.map Slot.field).reverse := by
      simp [latest,same]
    rw [sent,Recency.touchWithin,if_pos held,Recency.touch,order,Recency.filter_middle (by simpa using distinct.1.2)
      (by simpa using distinct.1.1)]
    simp [latest,renewed]
  · have stale : field ∉ b.latest := by simpa [latest] using absent
    rw [sent,Recency.touchWithin,if_neg stale]
    rcases store_cases (fun _ => 0) sized valid.toNumbered field with ⟨room,stored⟩ | ⟨full,slot,before,after,same,⟨_,least⟩,stored⟩
    · have short : b.latest.length ≤ size-1 := by
        rw [latest,List.length_reverse,List.length_map]
        omega
      rw [List.take_of_length_le short]
      simp [latest,stored]
    -- All rank alike, so the oldest slot goes.
    · have first : before = [] := List.eq_nil_iff_forall_not_mem.mpr fun other earlier => Nat.lt_irrefl 0 (least other earlier)
      subst first
      have order : b.latest = (after.map Slot.field).reverse++[slot.field] := by simp [latest,same]
      have length : (after.map Slot.field).reverse.length = size-1 := by
        rw [same] at full
        simp only [List.nil_append,List.length_cons] at full
        rw [List.length_reverse,List.length_map]
        omega
      rw [order,List.take_left' length]
      simp [latest,stored]

end Codebook

namespace FieldCoder
open FollowsCells
variable {M : Type → Type → Type} [InnerCache M] [FollowsCells M] {F E : Type} [DecidableEq F] [IncrementByOne E] [EncodedInteger E]
  {size : Nat}

-- An encoder that gives up the least recent value holds those that were used last.
theorem feed_recent (unranked : rank M = fun _ => 0) (sized : 1 ≤ size) (fits : size ≤ EncodedInteger.largest E)
    (earlier fields : List F) {c : FieldCoder M F E} {b : Codebook F} (tracks : Encodes size c b) (valid : Codebook.Sound size b)
    (order : b.latest = (Recency.recent earlier).take size) :
    ∃ answers final final', Transducer.feed tryEncode fields c = some (answers,final) ∧ Encodes size final final' ∧
      Codebook.Sound size final' ∧ final'.latest = (Recency.recent (earlier++fields)).take size := by
  induction fields generalizing c b earlier with
  | nil => exact ⟨[],c,b,rfl,tracks,valid,by rw [List.append_nil,order]⟩
  | cons field rest ih =>
    obtain ⟨_,next,answered,tracks',valid'⟩ := (sendsAs sized fits).step field c b ⟨tracks,valid⟩
    have order' : (Codebook.encode (rank M) size field b).2.latest = (Recency.recent (earlier++[field])).take size := by
      rw [unranked,Codebook.latest_encode sized valid,order,Recency.recent_concat,
        Recency.take_touch sized _ (Recency.recent_nodup earlier)]
    obtain ⟨answers,final,final',fed,tracked,sound,latest⟩ := ih (earlier++[field]) tracks' valid' order'
    rw [List.append_assoc] at latest
    exact ⟨_,final,final',Transducer.feed_cons.mpr ⟨_,next,answers,answered,fed,rfl⟩,tracked,sound,latest⟩

end FieldCoder

namespace LRUniCache
variable {L : Type → Type → Type} [Lru L] [LawfulLru L] {F E : Type} [DecidableEq F] [DecidableEq E] [IncrementByOne E]
  [EncodedInteger E]

-- After any sequence of fields, the next one is sent as a code exactly if it was sent
-- before and fewer than `size` different ones since, and as itself otherwise.
theorem lru_hits_iff (size : Nat) (fields : List F) (field : F) (sized : 1 ≤ size) (fits : size ≤ EncodedInteger.largest E) :
    ∃ fresh : LRUniCache L F E, new size = some fresh ∧ ∃ answers encoder answer next,
      Transducer.feed tryEncode fields fresh = some (answers,encoder) ∧ tryEncode field encoder = some (answer,next) ∧
      ((∃ encoding, answer = .encoded encoding) ↔
        ∃ earlier since, fields = earlier++field::since ∧ field ∉ since ∧ since.dedup.length < size) ∧
      (answer = .notEncoded field ↔
        ¬ ∃ earlier since, fields = earlier++field::since ∧ field ∉ since ∧ since.dedup.length < size) := by
  obtain ⟨fresh,made,encodes,_⟩ := FieldCoder.new_empty (M:=L) (F:=F) (E:=E) sized
  obtain ⟨answers,encoder,book,fed,tracks,valid,latest⟩ := FieldCoder.feed_recent rfl sized fits [] fields encodes
    (Codebook.sound_empty size) (by simp [Codebook.latest])
  obtain ⟨_,next,answered,_⟩ := (FieldCoder.sendsAs sized fits).step field encoder book ⟨tracks,valid⟩
  refine ⟨fresh,made,answers,encoder,_,next,fed,answered,?_⟩
  rw [←Recency.mem_latest_iff,←List.nil_append fields,←latest,Codebook.latest,List.mem_reverse]
  rcases Codebook.encode_cases field book with ⟨slot,member,same,sent⟩ | ⟨absent,sent⟩
  · have held : field ∈ book.slots.map Slot.field := same ▸ List.mem_map_of_mem member
    rw [sent]
    exact ⟨iff_of_true ⟨_,rfl⟩ held,iff_of_false nofun (not_not_intro held)⟩
  · rw [sent]
    exact ⟨iff_of_false nofun absent,iff_of_true rfl absent⟩

theorem lru_hits_iff_two : ∃ fresh : LRUniCache ListLru Nat UInt8, new 2 = some fresh ∧ ∃ answers encoder answer next,
    Transducer.feed tryEncode [10,20,30,20] fresh = some (answers,encoder) ∧ tryEncode 30 encoder = some (answer,next) ∧
    ∃ encoding, answer = .encoded encoding := by
  obtain ⟨fresh,made,answers,encoder,answer,next,fed,answered,hit,_⟩ :=
    lru_hits_iff (L:=ListLru) (E:=UInt8) 2 [10,20,30,20] 30 (by decide) (by decide)
  exact ⟨fresh,made,answers,encoder,answer,next,fed,answered,hit.mpr ⟨[10,20],[20],rfl,by decide,by decide⟩⟩

end LRUniCache
end OmniPaxosKV
