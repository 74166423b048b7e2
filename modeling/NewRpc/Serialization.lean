import NewRpc.Exec
import NewRpc.Reflection

/-!
`Serializer<T>`: the size computation, the encoder and the decoder, as they
move one position through a block of bytes.
-/

set_option autoImplicit false

namespace NewRpc.Codec
open Bytes

/-- `outOfRange` and `lengthError` are C++ exceptions. `overrun` (a copy outside
the block) and `overflow` (of `int64_t`) are undefined behaviour, and `depth` is
the model running out of recursion, which no call below ever does. -/
inductive Fault where
  | outOfRange | lengthError | overrun | overflow | depth
  deriving DecidableEq, Repr

structure SerState where
  buffer : List UInt8
  pos : Int

abbrev SerM := EStateM Fault SerState

def copyOut (src : List UInt8) : SerM Unit := do
  let s ← get
  if 0 ≤ s.pos ∧ s.pos + src.length ≤ s.buffer.length then
    set (SerState.mk (splice s.buffer s.pos.toNat src) (s.pos + src.length))
  else throw .overrun

/-- The bounds test of a fundamental value is made in `size_t`. -/
def putFundamental (bufferLen : Int) (src : List UInt8) : SerM Unit := do
  let s ← get
  if u64 bufferLen < (u64 s.pos + src.length) % 2 ^ 64 then throw .outOfRange
  else copyOut src

def serializeFundamental (e : Endian) (bufferLen : Int) (n : Nat) (data : BitVec (8 * n)) :
    SerM Unit :=
  match e with
  | .big => putFundamental bufferLen (object .big n (byteswap n data))
  | .little => putFundamental bufferLen (object .little n data)

def boolWord (b : Bool) : BitVec (8 * 1) := if b then 1 else 0

def serializeBool (e : Endian) (bufferLen : Int) (b : Bool) : SerM Unit :=
  serializeFundamental e bufferLen 1 (boolWord b)

def putString (bufferLen : Int) (strLen : Int) (src : List UInt8) : SerM Unit := do
  let s ← get
  if s.pos + strLen < -2 ^ 63 ∨ 2 ^ 63 ≤ s.pos + strLen then throw .overflow
  else if bufferLen < s.pos + strLen then throw .outOfRange
  else copyOut src

mutual
def serialize {R : Reflection} (e : Endian) (bufferLen : Int) :
    {t : Ty R.Name} → Val R t → SerM Unit
  | .int w, .int v => serializeFundamental e bufferLen w.sizeof v
  | .bool, .bool b => serializeBool e bufferLen b
  | .enum u, .enum v => serializeFundamental e bufferLen 8 (u.toInt64 v)
  | .ptr _, .null => serializeBool e bufferLen true
  | .ptr _, .ref v => do
      serializeBool e bufferLen false
      serialize e bufferLen v
  | .string, .string s => do
      let strLen : I64 := BitVec.ofNat _ s.length
      serializeFundamental e bufferLen 8 strLen
      putString bufferLen strLen.toInt s
  | .vector _, .vector vs => do
      let size : I64 := BitVec.ofNat _ vs.length
      serializeFundamental e bufferLen 8 size
      serializeElements e bufferLen vs
  | .struct _, .struct ms => serializeMembers e bufferLen ms

def serializeElements {R : Reflection} (e : Endian) (bufferLen : Int) :
    {t : Ty R.Name} → Vals R t → SerM Unit
  | _, .nil => pure ()
  | _, .cons v vs => do
      serialize e bufferLen v
      serializeElements e bufferLen vs

def serializeMembers {R : Reflection} (e : Endian) (bufferLen : Int) :
    {ts : List (Ty R.Name)} → Members R ts → SerM Unit
  | _, .nil => pure ()
  | _, .cons v ms => do
      serialize e bufferLen v
      serializeMembers e bufferLen ms
end

mutual
def getSerializeSize {R : Reflection} : {t : Ty R.Name} → Val R t → Nat
  | .int w, .int _ => w.sizeof
  | .bool, .bool _ => 1
  | .enum _, .enum _ => 8
  | .ptr _, .null => 1
  | .ptr _, .ref v => 1 + getSerializeSize v
  | .string, .string s => 8 + s.length
  | .vector _, .vector vs => 8 + elementsSize vs
  | .struct _, .struct ms => membersSize ms

def elementsSize {R : Reflection} : {t : Ty R.Name} → Vals R t → Nat
  | _, .nil => 0
  | _, .cons v vs => getSerializeSize v + elementsSize vs

def membersSize {R : Reflection} : {ts : List (Ty R.Name)} → Members R ts → Nat
  | _, .nil => 0
  | _, .cons v ms => getSerializeSize v + membersSize ms
end

structure Input where
  buffer : List UInt8
  bufferLen : Int
  endian : Endian
  limit : Nat

abbrev DesM := EStateM Fault Int

def copyIn (inp : Input) (n : Nat) : DesM (List UInt8) := do
  let pos ← get
  if 0 ≤ pos ∧ pos + n ≤ inp.buffer.length then do
    set (pos + n)
    pure (slice inp.buffer pos.toNat n)
  else throw .overrun

def takeFundamental (inp : Input) (n : Nat) : DesM (List UInt8) := do
  let pos ← get
  if u64 inp.bufferLen < (u64 pos + n) % 2 ^ 64 then throw .outOfRange
  else copyIn inp n

def deserializeFundamental (inp : Input) (n : Nat) : DesM (BitVec (8 * n)) :=
  match inp.endian with
  | .big => (fun bs => byteswap n (ofObject .big n bs)) <$> takeFundamental inp n
  | .little => ofObject .little n <$> takeFundamental inp n

def deserializeBool (inp : Input) : DesM Bool :=
  (fun v => v != 0) <$> deserializeFundamental inp 1

def request (inp : Input) (size : Int) : DesM Unit :=
  if inp.limit < u64 size then throw .lengthError else pure ()

def takeString (inp : Input) (strLen : Int) : DesM (List UInt8) := do
  let pos ← get
  if pos + strLen < -2 ^ 63 ∨ 2 ^ 63 ≤ pos + strLen then throw .overflow
  else if inp.bufferLen < pos + strLen then throw .outOfRange
  else copyIn inp strLen.toNat

def deserializeElements {R : Reflection} {t : Ty R.Name} (element : DesM (Val R t)) :
    Nat → Vals R t → DesM (Vals R t)
  | 0, data => pure data
  | n+1, data => do
      let v ← element
      deserializeElements element n (data.pushBack v)

def deserializeMembers {R : Reflection}
    (member : (t : Ty R.Name) → Val R t → DesM (Val R t)) :
    {ts : List (Ty R.Name)} → Members R ts → DesM (Members R ts)
  | _, .nil => pure .nil
  | _, .cons v ms => do
      let v ← member _ v
      let ms ← deserializeMembers member ms
      pure (.cons v ms)

/-- `data` is the target as it was before the call. -/
def deserializeDepth {R : Reflection} (D : Defaults R) (inp : Input) :
    Nat → (t : Ty R.Name) → Val R t → DesM (Val R t)
  | 0, _, _ => throw .depth
  | _+1, .int w, _ => Val.int <$> deserializeFundamental inp w.sizeof
  | _+1, .bool, _ => Val.bool <$> deserializeBool inp
  | _+1, .enum u, _ => (fun v => Val.enum (u.ofInt64 v)) <$> deserializeFundamental inp 8
  | depth+1, .ptr t, _ => do
      let isNullPtr ← deserializeBool inp
      if isNullPtr then pure .null
      else Val.ref <$> deserializeDepth D inp depth t (Val.fresh D t)
  | _+1, .string, _ => do
      let strLen ← deserializeFundamental inp 8
      request inp strLen.toInt
      Val.string <$> takeString inp strLen.toInt
  | depth+1, .vector t, .vector data => do
      let size ← deserializeFundamental inp 8
      request inp size.toInt
      Val.vector <$> deserializeElements (deserializeDepth D inp depth t (Val.fresh D t))
        size.toInt.toNat data
  | depth+1, .struct _, .struct ms =>
      Val.struct <$> deserializeMembers (deserializeDepth D inp depth) ms

def Ty.inner {R : Reflection} : Ty R.Name → Nat
  | .struct s => R.rank s + 1
  | _ => 0

def depthBound {R : Reflection} (remaining : Nat) (t : Ty R.Name) : Nat :=
  remaining * (R.height + 2) + t.inner + 1

def deserialize {R : Reflection} (D : Defaults R) (inp : Input) (t : Ty R.Name)
    (data : Val R t) : DesM (Val R t) := do
  let pos ← get
  deserializeDepth D inp (depthBound (inp.bufferLen - pos).toNat t) t data

end NewRpc.Codec
