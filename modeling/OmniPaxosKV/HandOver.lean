import OmniPaxosKV.LruCache
import OmniPaxosKV.LfuCache
import Mathlib.Data.List.Permutation

-- A follower takes a clone of the leader's cache and decodes what the leader
-- encodes from then on. The clone is rebuilt by iterating over the encoder.
namespace OmniPaxosKV

open FieldCoder

section Lru
variable {L : Type → Type → Type} [Lru L] [LawfulLru L] {F E : Type} [DecidableEq E] [IncrementByOne E] [EncodedInteger E]
  {size : Nat}

theorem LRUniCache.decodes_clone {c : LRUniCache L F E} {b : Codebook F} (sized : 1 ≤ size) (fits : size ≤ EncodedInteger.largest E)
    (encodes : Encodes size c b) (sound : Codebook.Sound size b) : ∃ follower, LRUniCache.clone c = some follower ∧
      Decodes size follower b := by
  have some : ¬ c.size = 0 := by
    rw [encodes.sized]
    omega
  have holds : Lru.HoldsCells size c.encoder (b.slots.map byField) := encodes.holds
  have entries : (Lru.iter c.encoder).reverse = b.slots.map fun slot => (slot.field,EncodedInteger.code slot.code) := by
    rw [holds.entries,List.reverse_reverse,List.map_map]
    rfl
  let swapped : List (E × F) := b.slots.map fun slot => (EncodedInteger.code slot.code,slot.field)
  have distinct : (swapped.map Prod.fst).Nodup := by
    have codes := codes_distinct (E:=E) fits sound.toNumbered
    rw [List.map_map] at codes ⊢
    exact codes
  have empty : Lru.iter (Lru.new size : L E F) = [] := LawfulLru.new_iter size
  obtain ⟨iter,cap⟩ := Lru.foldl_push swapped (Lru.new size : L E F) distinct
    (fun _ _ => by rw [empty]; exact List.not_mem_nil)
    (by rw [empty,LawfulLru.new_cap,List.length_map,List.length_nil,Nat.zero_add]; exact sound.within)
  refine ⟨_,if_neg some,encodes.sized,encodes.encoding,?_,?_⟩
  · rw [entries,encodes.sized,List.foldl_map]
    rw [List.foldl_map] at cap
    exact cap.trans (LawfulLru.new_cap size)
  · rw [entries,encodes.sized,List.foldl_map]
    rw [List.foldl_map,empty,List.append_nil] at iter
    rw [iter,List.map_map]
    rfl

end Lru

section Lfu
variable {H : Type → Type} [LinkedHashSet H] [LawfulLinkedHashSet H] {F E : Type} [DecidableEq E] [IncrementByOne E]
  [EncodedInteger E] {size : Nat}

-- A copied slot counts as used once.
def copySlot (slot : Slot F) : Slot F := {slot with uses:=1}

theorem LFUCache.holds_set (slots done : List (Slot F)) (c : LFUCache H E F)
    (holds : LFUCache.HoldsCells size c ((done.map copySlot).map byCode))
    (distinct : (((done++slots).map (byCode : Slot F → Cell E F)).map Cell.key).Nodup) (within : (done++slots).length ≤ size) :
    ∃ next, slots.foldlM (fun c slot => LFUCache.set (EncodedInteger.code slot.code) slot.field c) c = some next ∧
      LFUCache.HoldsCells size next (((done++slots).map copySlot).map byCode) := by
  induction slots generalizing done c with
  | nil =>
    rw [List.append_nil]
    exact ⟨c,rfl,holds⟩
  | cons slot rest ih =>
    have keys : ((done.map copySlot).map (byCode : Slot F → Cell E F)).map Cell.key = (done.map byCode).map Cell.key := by
      simp [byCode,copySlot]
    have apart : (byCode slot : Cell E F).key ∉ ((done.map copySlot).map (byCode : Slot F → Cell E F)).map Cell.key := by
      rw [List.map_append,List.map_cons,List.map_append,List.map_cons,List.nodup_append] at distinct
      rw [keys]
      exact fun held => distinct.2.2 _ held _ List.mem_cons_self rfl
    have room : ((done.map copySlot).map (byCode : Slot F → Cell E F)).length < size := by
      rw [List.length_map,List.length_map]
      rw [List.length_append,List.length_cons] at within
      omega
    obtain ⟨filled,inserted,holds⟩ := holds.toHoldsBins.filled apart room slot.field
    rw [List.append_cons] at distinct within ⊢
    have onward : LFUCache.HoldsCells size filled (((done++[slot]).map copySlot).map byCode) := by
      rw [List.map_append,List.map_append]
      exact holds
    obtain ⟨next,ran,holds⟩ := ih (done++[slot]) filled onward distinct within
    refine ⟨next,?_,holds⟩
    rw [List.foldlM_cons]
    exact Option.bind_eq_some_iff.mpr ⟨filled,inserted,ran⟩

-- The follower's book: the leader's slots in the order of the iteration.
theorem LFUniCache.decodes_clone [DecidableEq F] {c : LFUniCache H F E} {b : Codebook F} (sized : 1 ≤ size)
    (fits : size ≤ EncodedInteger.largest E) (encodes : Encodes size c b) (sound : Codebook.Sound size b)
    {order : List (F × ValueCounter E)} (iterated : order.Perm c.encoder.values) : ∃ (copied : List (Slot F)) (follower : _),
      copied.Perm b.slots ∧
      order.map Prod.fst = copied.map Slot.field ∧ LFUniCache.clone order c = some follower ∧
      Decodes size follower ⟨copied.map copySlot,b.issued⟩ := by
  have holds : LFUCache.HoldsCells size c.encoder (b.slots.map byField) := encodes.holds
  have listed := iterated.trans holds.values
  rw [List.map_map] at listed
  obtain ⟨copied,same,rfl⟩ := Keyed.exists_map_perm listed
  have some : ¬ c.size = 0 := by
    rw [encodes.sized]
    omega
  have distinct : ((copied.map (byCode : Slot F → Cell E F)).map Cell.key).Nodup :=
    ((same.map byCode).map Cell.key).nodup_iff.mpr (codes_distinct fits sound.toNumbered)
  have empty : LFUCache.HoldsCells size (⟨[],.empty,size,0⟩ : LFUCache H E F) ((([] : List (Slot F)).map copySlot).map byCode) :=
    LFUCache.holds_empty size
  obtain ⟨decoder,filled,holds'⟩ := LFUCache.holds_set copied [] _ empty distinct
    (by rw [List.nil_append,same.length_eq]; exact sound.within)
  refine ⟨copied,⟨⟨[],.empty,1,0⟩,decoder,c.encoding,c.size⟩,same,?_,?_,encodes.sized,encodes.encoding,holds'⟩
  · rw [List.map_map]
    rfl
  · have refilled : (copied.map (LFUCache.entry ∘ byField)).foldlM (fun decoder entry => LFUCache.set entry.2.value entry.1 decoder)
        (⟨[],.empty,size,0⟩ : LFUCache H E F) = .some decoder := by
      rw [List.foldlM_map]
      exact filled
    rw [clone,LFUCache.withCapacity,if_neg some,encodes.sized]
    simp only [refilled,Option.bind_eq_bind,Option.bind_some,Option.pure_def]
    rfl

omit [LawfulLinkedHashSet H] [DecidableEq E] in
-- The copied slots are the leader's slots exactly if the iteration follows the bin
-- of the keys used once, which then has every key.
theorem LFUCache.copied_iff [DecidableEq F] {c : LFUCache H F E} {b : Codebook F} {copied : List (Slot F)}
    (holds : LFUCache.HoldsCells size c (b.slots.map byField)) (sound : Codebook.Sound size b) (same : copied.Perm b.slots) :
    copied.map copySlot = b.slots ↔ copied.map Slot.field = c.bin 1 := by
  have once : c.bin 1 = (b.slots.filter fun slot => slot.uses = 1).map Slot.field := by
    rw [holds.bins,LFUCache.usedTimes,List.filter_map,List.map_map]
    rfl
  have fields : (copied.map copySlot).map Slot.field = copied.map Slot.field := by
    rw [List.map_map]
    rfl
  constructor
  · intro equal
    have ones : ∀ slot ∈ b.slots, slot.uses = 1 := by
      intro slot member
      rw [←equal] at member
      obtain ⟨_,_,rfl⟩ := List.mem_map.mp member
      rfl
    rw [once,List.filter_eq_self.mpr (by simpa using ones),←equal,fields]
  · intro listed
    rw [once] at listed
    have lengths := congrArg List.length listed
    rw [List.length_map,List.length_map,same.length_eq] at lengths
    have ones : ∀ slot ∈ b.slots, slot.uses = 1 := by simpa using List.length_filter_eq_length_iff.mp lengths.symm
    rw [List.filter_eq_self.mpr (by simpa using ones)] at listed
    have equal : copied = b.slots := by
      refine Keyed.eq_of_map_eq ?_ listed
      intro slot member other member'
      exact fun alike => List.inj_on_of_nodup_map sound.fields (same.mem_iff.mp member) member' alike
    rw [equal]
    refine (List.map_congr_left ?_).trans (List.map_id b.slots)
    intro slot member
    rcases slot with ⟨field,code,uses⟩
    cases ones _ member
    rfl

theorem copied_bindings {b : Codebook F} {copied : List (Slot F)} (same : copied.Perm b.slots) :
    Codebook.SameBindings b ⟨copied.map copySlot,b.issued⟩ := by
  refine ⟨?_,rfl⟩
  rw [List.map_map]
  exact same.map Slot.binding

end Lfu

section HandOver
variable {L : Type → Type → Type} [Lru L] [LawfulLru L] {H : Type → Type} [LinkedHashSet H] [LawfulLinkedHashSet H] {F E : Type}
  [DecidableEq F] [DecidableEq E] [IncrementByOne E] [EncodedInteger E]

-- After any fields a leader's cache can be cloned, and the clone has the leader's book.
theorem LRUniCache.follows (size : Nat) (before : List F) (sized : 1 ≤ size) (fits : size ≤ EncodedInteger.largest E) :
    ∃ (fresh leader follower : LRUniCache L F E) (answers : _), new size = some fresh ∧
      Transducer.feed tryEncode before fresh = some (answers,leader) ∧ clone leader = some follower ∧
      ∀ after, Transducer.Conveys tryEncode decode leader follower after := by
  obtain ⟨fresh,made,encodes,_⟩ := new_empty (M:=L) (F:=F) (E:=E) sized
  obtain ⟨answers,leader,b,sent,encodes,sound⟩ := (sendsAs sized fits).feed before ⟨encodes,Codebook.sound_empty size⟩
  obtain ⟨follower,cloned,decodes⟩ := decodes_clone sized fits encodes sound
  refine ⟨fresh,leader,follower,answers,made,sent,cloned,?_⟩
  intro after
  exact (conveys_books sized fits encodes sound decodes sound.toNumbered after).mpr (Codebook.reads_same sized sound after)

-- The clone has the leader's codes, in the order of the iteration and without the counts.
theorem LFUniCache.follows_iff (size : Nat) (before : List F) (sized : 1 ≤ size) (fits : size ≤ EncodedInteger.largest E) :
    ∃ (fresh leader : LFUniCache H F E) (answers : _), new size = some fresh ∧
      Transducer.feed tryEncode before fresh = some (answers,leader) ∧ ∀ order, order.Perm leader.encoder.values →
        ∃ follower, clone order leader = some follower ∧
          ((∀ after, Transducer.Conveys tryEncode decode leader follower after) ↔
            size = 1 ∨ (∀ values : List F, values.Nodup → values.length ≤ size) ∨
              order.map Prod.fst = leader.encoder.bin 1) := by
  obtain ⟨fresh,made,encodes,_⟩ := new_empty (M:=LFUCache H) (F:=F) (E:=E) sized
  obtain ⟨answers,leader,b,sent,encodes,sound⟩ := (sendsAs sized fits).feed before ⟨encodes,Codebook.sound_empty size⟩
  refine ⟨fresh,leader,answers,made,sent,?_⟩
  intro order iterated
  obtain ⟨copied,follower,same,listed,cloned,decodes⟩ := decodes_clone sized fits encodes sound iterated
  refine ⟨follower,cloned,?_⟩
  have bindings := copied_bindings same
  have ones : ∀ slot ∈ copied.map copySlot, slot.uses = 1 := List.forall_mem_map.mpr fun _ _ => rfl
  have books := fun after => conveys_books sized fits encodes sound decodes (bindings.numbered sound.toNumbered) after
  rw [listed,←LFUCache.copied_iff encodes.holds sound same,←Codebook.reads_copy_iff sized sound bindings ones]
  exact forall_congr' books

-- A clone of the first cache is read for ever; one of the second is exactly when
-- there is never a key to choose, or the iteration follows the bin of the keys
-- used once and that is every key.
theorem hand_over_iff (size : Nat) (before : List F) (sized : 1 ≤ size) (fits : size ≤ EncodedInteger.largest E) :
    (∃ (fresh leader follower : LRUniCache L F E) (answers : _), LRUniCache.new size = some fresh ∧
      Transducer.feed LRUniCache.tryEncode before fresh = some (answers,leader) ∧ LRUniCache.clone leader = some follower ∧
      ∀ after, Transducer.Conveys LRUniCache.tryEncode LRUniCache.decode leader follower after) ∧
    ∃ (fresh leader : LFUniCache H F E) (answers : _), LFUniCache.new size = some fresh ∧
      Transducer.feed LFUniCache.tryEncode before fresh = some (answers,leader) ∧ ∀ order, order.Perm leader.encoder.values →
        ∃ follower, LFUniCache.clone order leader = some follower ∧
          ((∀ after, Transducer.Conveys LFUniCache.tryEncode LFUniCache.decode leader follower after) ↔
            size = 1 ∨ (∀ values : List F, values.Nodup → values.length ≤ size) ∨
              order.map Prod.fst = leader.encoder.bin 1) :=
  ⟨LRUniCache.follows size before sized fits,LFUniCache.follows_iff size before sized fits⟩

-- Two values, one of them used twice.
theorem hand_over_iff_two :
    (∃ (fresh leader follower : LRUniCache ListLru Nat UInt8) (answers : _), LRUniCache.new 2 = some fresh ∧
      Transducer.feed LRUniCache.tryEncode [10,20,10] fresh = some (answers,leader) ∧ LRUniCache.clone leader = some follower ∧
      ∀ after, Transducer.Conveys LRUniCache.tryEncode LRUniCache.decode leader follower after) ∧
    ∃ (fresh leader : LFUniCache ListSet Nat UInt8) (answers : _), LFUniCache.new 2 = some fresh ∧
      Transducer.feed LFUniCache.tryEncode [10,20,10] fresh = some (answers,leader) ∧
      ∀ order, order.Perm leader.encoder.values → ∃ follower, LFUniCache.clone order leader = some follower ∧
          ((∀ after, Transducer.Conveys LFUniCache.tryEncode LFUniCache.decode leader follower after) ↔
            2 = 1 ∨ (∀ values : List Nat, values.Nodup → values.length ≤ 2) ∨
              order.map Prod.fst = leader.encoder.bin 1) :=
  hand_over_iff 2 [10,20,10] (by decide) (by decide)

-- The leader with 10 used three times and 20 once.
def usedUnevenly : Option (LFUniCache ListSet Nat UInt8) :=
  ((LFUniCache.new 2).bind (Transducer.feed LFUniCache.tryEncode [10,20,10,10])).map Prod.snd

-- The leader keeps 10 for its uses while it gives up 20 for 30 and 30 for 40; the
-- follower gives up 10 first or second, whatever order it was filled in.
theorem hand_over_lost : ∃ leader, usedUnevenly = some leader ∧ ∀ order, order.Perm leader.encoder.values →
    ∃ follower, LFUniCache.clone order leader = some follower ∧
      ¬ Transducer.Conveys LFUniCache.tryEncode LFUniCache.decode leader follower [30,30,40,40] := by
  have ran : (usedUnevenly.any fun leader => leader.encoder.values.permutations'.all fun order =>
      (LFUniCache.clone order leader).any fun follower => decide (((Transducer.feed LFUniCache.tryEncode [30,30,40,40] leader).bind
        fun sent => Transducer.feed LFUniCache.decode sent.1 follower).map Prod.fst ≠ some [30,30,40,40])) = true := by
    decide +kernel
  obtain ⟨leader,reached,all⟩ := (Option.any_eq_true _ _).mp ran
  refine ⟨leader,reached,?_⟩
  intro order iterated
  have tried := List.all_eq_true.mp all order (List.mem_permutations'.mpr iterated)
  obtain ⟨follower,cloned,lost⟩ := (Option.any_eq_true _ _).mp tried
  refine ⟨follower,cloned,?_⟩
  rw [Transducer.conveys_iff_run]
  exact of_decide_eq_true lost

end HandOver
end OmniPaxosKV
