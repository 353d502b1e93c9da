import OmniPaxosKV.Codebook

-- Coders bundled with the types and states that they work on, so that coders of
-- different types can be put together to one.
namespace OmniPaxosKV

structure Coder where
  Value : Type
  Sent : Type
  State : Type
  fresh : Option State
  encode : Value → State → Option (Sent × State)
  decode : Sent → State → Option (Value × State)

namespace Coder

-- Whatever a fresh encoder sends a fresh decoder reads back, and neither stops.
def Faithful (c : Coder) : Prop :=
  ∃ fresh, c.fresh = some fresh ∧ ∀ values, Transducer.Conveys c.encode c.decode fresh fresh values

def plain (Value : Type) : Coder where
  Value := Value
  Sent := Value
  State := Unit
  fresh := some ()
  encode value s := some (value,s)
  decode value s := some (value,s)

def pair (c d : Coder) : Coder where
  Value := c.Value × d.Value
  Sent := c.Sent × d.Sent
  State := c.State × d.State
  fresh := do
    let first ← c.fresh
    let second ← d.fresh
    return (first,second)
  encode value s := do
    let (first,c) ← c.encode value.1 s.1
    let (second,d) ← d.encode value.2 s.2
    return ((first,second),c,d)
  decode sent s := do
    let (first,c) ← c.decode sent.1 s.1
    let (second,d) ← d.decode sent.2 s.2
    return ((first,second),c,d)

def all : List Coder → Coder
  | [] => plain Unit
  | c::rest => pair c (all rest)

theorem pair_encode {c d : Coder} {value : c.Value × d.Value} {s next : c.State × d.State} {sent : c.Sent × d.Sent} :
    (pair c d).encode value s = some (sent,next) ↔
      c.encode value.1 s.1 = some (sent.1,next.1) ∧ d.encode value.2 s.2 = some (sent.2,next.2) := by
  simp only [pair,Option.bind_eq_bind,Option.bind_eq_some_iff,Option.pure_def,Option.some.injEq,Prod.exists]
  constructor
  · intro ran
    obtain ⟨first,c',left,second,d',right,same⟩ := ran
    cases same
    exact ⟨left,right⟩
  · intro ran
    exact ⟨_,_,ran.1,_,_,ran.2,rfl⟩

theorem pair_decode {c d : Coder} {value : c.Value × d.Value} {s next : c.State × d.State} {sent : c.Sent × d.Sent} :
    (pair c d).decode sent s = some (value,next) ↔
      c.decode sent.1 s.1 = some (value.1,next.1) ∧ d.decode sent.2 s.2 = some (value.2,next.2) := by
  simp only [pair,Option.bind_eq_bind,Option.bind_eq_some_iff,Option.pure_def,Option.some.injEq,Prod.exists]
  constructor
  · intro ran
    obtain ⟨first,c',left,second,d',right,same⟩ := ran
    cases same
    exact ⟨left,right⟩
  · intro ran
    exact ⟨_,_,ran.1,_,_,ran.2,rfl⟩

-- A pair conveys what both of its parts convey, and nothing else.
theorem conveys_pair {c d : Coder} {sender receiver : c.State × d.State} (values : List (c.Value × d.Value)) :
    Transducer.Conveys (pair c d).encode (pair c d).decode sender receiver values ↔
      Transducer.Conveys c.encode c.decode sender.1 receiver.1 (values.map Prod.fst) ∧
      Transducer.Conveys d.encode d.decode sender.2 receiver.2 (values.map Prod.snd) := by
  induction values generalizing sender receiver with
  | nil => exact ⟨fun _ => ⟨Transducer.conveys_nil _ _,Transducer.conveys_nil _ _⟩,fun _ => Transducer.conveys_nil _ _⟩
  | cons value rest ih =>
    constructor
    · intro conveyed
      obtain ⟨sent,sender',receiver',first,taken,onward⟩ := Transducer.conveys_cons.mp conveyed
      obtain ⟨left,right⟩ := pair_encode.mp first
      obtain ⟨left',right'⟩ := pair_decode.mp taken
      obtain ⟨later,later'⟩ := ih.mp onward
      exact ⟨Transducer.conveys_cons.mpr ⟨_,_,_,left,left',later⟩,Transducer.conveys_cons.mpr ⟨_,_,_,right,right',later'⟩⟩
    · intro conveyed
      obtain ⟨sent,s,r,left,left',later⟩ := Transducer.conveys_cons.mp conveyed.1
      obtain ⟨sent',s',r',right,right',later'⟩ := Transducer.conveys_cons.mp conveyed.2
      refine Transducer.conveys_cons.mpr ⟨(sent,sent'),(s,s'),(r,r'),?_,?_,ih.mpr ⟨later,later'⟩⟩
      · exact pair_encode.mpr ⟨left,right⟩
      · exact pair_decode.mpr ⟨left',right'⟩

theorem plain_faithful (Value : Type) : (plain Value).Faithful := by
  refine ⟨(),rfl,?_⟩
  intro values
  apply Transducer.conveys_of_related (fun _ _ => True)
  · intro value sender receiver _
    exact ⟨value,sender,receiver,rfl,rfl,trivial⟩
  · trivial

theorem pair_faithful {c d : Coder} (left : c.Faithful) (right : d.Faithful) : (pair c d).Faithful := by
  obtain ⟨first,made,conveys⟩ := left
  obtain ⟨second,made',conveys'⟩ := right
  refine ⟨(first,second),?_,?_⟩
  · simp [pair,made,made']
  · intro values
    exact (conveys_pair values).mpr ⟨conveys _,conveys' _⟩

theorem all_faithful (coders : List Coder) (each : ∀ c ∈ coders, c.Faithful) : (all coders).Faithful := by
  induction coders with
  | nil => exact plain_faithful Unit
  | cons c rest ih =>
    apply pair_faithful
    · exact each c List.mem_cons_self
    · exact ih fun other member => each other (List.mem_cons_of_mem c member)

end Coder
end OmniPaxosKV
