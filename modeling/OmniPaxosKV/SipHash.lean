import Mathlib.Data.UInt

-- SipHash with one round for each block and three at the end, under a zero key:
-- what the standard library's default hasher computes from the bytes it is fed.
namespace OmniPaxosKV.SipHash

structure State where
  v0 : UInt64
  v1 : UInt64
  v2 : UInt64
  v3 : UInt64

def rotl (x : UInt64) (count : UInt64) : UInt64 := (x <<< count) ||| (x >>> (64-count))

def round (s : State) : State :=
  let v0 := s.v0+s.v1
  let v2 := s.v2+s.v3
  let v1 := rotl s.v1 13 ^^^ v0
  let v3 := rotl s.v3 16 ^^^ v2
  let v0 := rotl v0 32
  let v2 := v2+v1
  let v0 := v0+v3
  let v1 := rotl v1 17 ^^^ v2
  let v3 := rotl v3 21 ^^^ v0
  ⟨v0,v1,rotl v2 32,v3⟩

def initial : State := ⟨0x736f6d6570736575,0x646f72616e646f6d,0x6c7967656e657261,0x7465646279746573⟩

def absorb (s : State) (block : UInt64) : State :=
  let s := round {s with v3:=s.v3 ^^^ block}
  {s with v0:=s.v0 ^^^ block}

-- Up to eight bytes, the first one lowest.
def littleEndian (bytes : List UInt8) : Nat := bytes.foldr (fun byte rest => byte.toNat+256*rest) 0

def absorbAll : Nat → State → List UInt8 → State × List UInt8
  | 0,s,bytes => (s,bytes)
  | fuel+1,s,bytes =>
    if 8 ≤ bytes.length then absorbAll fuel (absorb s (UInt64.ofNat (littleEndian (bytes.take 8)))) (bytes.drop 8)
    else (s,bytes)

-- The last block carries the length of the whole input in its top byte.
def hash (bytes : List UInt8) : UInt64 :=
  let (s,rest) := absorbAll bytes.length initial bytes
  let s := absorb s (UInt64.ofNat (littleEndian rest+2^56*(bytes.length%256)))
  let s := round (round (round {s with v2:=s.v2 ^^^ 0xff}))
  s.v0 ^^^ s.v1 ^^^ s.v2 ^^^ s.v3

example : hash [] = 15130871412783076140 := by decide +kernel

end OmniPaxosKV.SipHash
