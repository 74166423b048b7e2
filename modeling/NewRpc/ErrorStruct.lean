import NewRpc.RoundTrip

/-!
`Serializer<Expected<T>>`: the codec of what a call that may fail returns.
-/

set_option autoImplicit false

namespace NewRpc.ErrorStruct
open Bytes Codec

/-- `value()` of an `Expected` that holds an error throws `bad_expected_access`; `error()` of
one that holds a value is undefined behaviour, here `inactiveError`. -/
inductive Fault where
  | codec (f : Codec.Fault)
  | badExpectedAccess
  | inactiveError
  deriving DecidableEq, Repr

structure Error where
  errorNo : Word .w32
  deriving DecidableEq, Repr

inductive Expected (R : Reflection) (t : Ty R.Name) where
  | value (v : Val R t)
  | error (e : Error)

section
variable {R : Reflection} {t : Ty R.Name}

def Expected.hasValue : Expected R t → Bool
  | .value _ => true
  | .error _ => false

def Expected.getValue : Expected R t → Except Fault (Val R t)
  | .value v => .ok v
  | .error _ => .error .badExpectedAccess

def Expected.getError : Expected R t → Except Fault Error
  | .value _ => .error .inactiveError
  | .error e => .ok e

def access {σ α : Type} (x : Except Fault α) : EStateM Fault σ α := fun s =>
  match x with
  | .ok a => .ok a s
  | .error e => .error e s

def codec {σ α : Type} (x : EStateM Codec.Fault σ α) : EStateM Fault σ α := fun s =>
  match x s with
  | .ok a s' => .ok a s'
  | .error e s' => .error (.codec e) s'

def serializeError (e : Endian) (bufferLen : Int) (data : Error) : SerM Unit :=
  serializeFundamental e bufferLen Width.w32.sizeof data.errorNo

def deserializeError (inp : Input) : DesM Error := Error.mk <$> deserializeFundamental inp 4

def Expected.serialize (e : Endian) (bufferLen : Int) (data : Expected R t) :
    EStateM Fault SerState Unit :=
  if data.hasValue then do
    codec (serializeBool e bufferLen true)
    let v ← access data.getValue
    codec (Codec.serialize e bufferLen v)
  else do
    codec (serializeBool e bufferLen false)
    let error ← access data.getError
    codec (serializeError e bufferLen error)

def Expected.deserialize (D : Defaults R) (inp : Input) (data : Expected R t) :
    EStateM Fault Int (Expected R t) := do
  let valid ← codec (deserializeBool inp)
  if valid then do
    let v ← access data.getValue
    Expected.value <$> codec (Codec.deserialize D inp t v)
  else do
    let _ ← access data.getError
    Expected.error <$> codec (deserializeError inp)

/-- `valid` is a local constant: whether `data` holds a value is never asked. -/
def Expected.getSerializeSize (data : Expected R t) : Except Fault Nat := do
  let valid := false
  let totalSize := 1
  if valid then do
    let v ← data.getValue
    pure (totalSize + Codec.getSerializeSize v)
  else do
    let _ ← data.getError
    pure (totalSize + Width.w32.sizeof)

def RoundTrips (D : Defaults R) (sender receiver : Endian) (limit : Nat)
    (source target : Expected R t) : Prop :=
  ∃ n, source.getSerializeSize = .ok n ∧ ∀ buffer : List UInt8, buffer.length = n →
    ∃ out, source.serialize sender n ⟨buffer,0⟩ = .ok () ⟨out,n⟩ ∧
      target.deserialize D ⟨out,n,receiver,limit⟩ 0 = .ok source n

theorem codec_ok {σ α : Type} {x : EStateM Codec.Fault σ α} {s s' : σ} {a : α}
    (h : x s = .ok a s') : codec x s = .ok a s' := by
  rw [codec,h]

theorem getSerializeSize_value (v : Val R t) :
    (Expected.value v).getSerializeSize = .error .inactiveError := rfl

theorem getSerializeSize_error (e : Error) :
    (Expected.error e : Expected R t).getSerializeSize = .ok 5 := rfl

def errorBytes (error : Error) : List UInt8 :=
  leBytes 1 (boolWord false).toNat ++ leBytes 4 error.errorNo.toNat

theorem serialize_error (e : Endian) (error : Error) {buffer : List UInt8}
    (h : buffer.length = 5) :
    (Expected.error error : Expected R t).serialize e (5 : Nat) ⟨buffer,0⟩ =
      .ok () ⟨errorBytes error,(5 : Nat)⟩ := by
  have hw : Writes (5 : Nat) (do serializeBool e (5 : Nat) false; serializeError e (5 : Nat) error)
      (errorBytes error) :=
    (serializeFundamental_writes e (5 : Nat) 1 (boolWord false)).seq
      (serializeFundamental_writes e (5 : Nat) 4 error.errorNo)
  have hlen : (errorBytes error).length = 5 := by simp [errorBytes]
  have hrun := hw ⟨buffer,0⟩ (Int.le_refl 0) (by simp [hlen]) (by simp [h])
    (by decide)
  simp only [Int.toNat_zero,splice_zero,hlen,List.drop_of_length_le (Nat.le_of_eq h),
    List.append_nil] at hrun
  obtain ⟨_,mid,hflag,hrest⟩ := Exec.bind_eq_ok.mp hrun
  rw [Expected.serialize,if_neg (by simp [Expected.hasValue]),Exec.bind_ok (codec_ok hflag)]
  exact codec_ok hrest

theorem deserialize_error (D : Defaults R) (receiver : Endian) (limit : Nat)
    (error old : Error) :
    (Expected.error old : Expected R t).deserialize D ⟨errorBytes error,(5 : Nat),receiver,limit⟩ 0 =
      .ok (.error error) (5 : Nat) := by
  have hs : Input.Sound ⟨errorBytes error,(5 : Nat),receiver,limit⟩ :=
    ⟨by simp [errorBytes],by simp⟩
  have hr : Reads ⟨errorBytes error,(5 : Nat),receiver,limit⟩
      (do let valid ← deserializeBool ⟨errorBytes error,(5 : Nat),receiver,limit⟩
          (fun e => (valid,e)) <$> deserializeError ⟨errorBytes error,(5 : Nat),receiver,limit⟩)
      (errorBytes error) (false,error) :=
    (deserializeBool_reads hs false).seq hs
      (((deserializeFundamental_reads hs 4 error.errorNo).map Error.mk).map _)
  have hrun := hr 0 ⟨Int.le_refl 0,by simp [errorBytes],by simp [slice]⟩
  obtain ⟨valid,mid,hflag,hrest⟩ := Exec.bind_eq_ok.mp hrun
  obtain ⟨e,he,hpair⟩ := Exec.map_eq_ok.mp hrest
  cases hpair
  have hlen : (0 : Int) + (errorBytes error).length = (5 : Nat) := by simp [errorBytes]
  rw [hlen] at he
  rw [Expected.deserialize,Exec.bind_ok (codec_ok hflag)]
  exact Exec.map_ok (codec_ok he)

theorem errors_roundTrip (D : Defaults R) (sender receiver : Endian) (limit : Nat)
    (error old : Error) : RoundTrips D sender receiver limit
      (.error error : Expected R t) (.error old) :=
  ⟨5,rfl,fun _ hb => ⟨errorBytes error,serialize_error sender error hb,
    deserialize_error D receiver limit error old⟩⟩

/-- An error travels into a target that holds one. Every other pair fails: the size of a
value is not computed, and an error finds no place in a target that holds a value. -/
theorem roundTrips_iff_errors (D : Defaults R) (sender receiver : Endian) (limit : Nat)
    (source target : Expected R t) : RoundTrips D sender receiver limit source target ↔
      source.hasValue = false ∧ target.hasValue = false := by
  cases source with
  | value v =>
    refine iff_of_false (fun h => ?_) (fun h => by cases h.1)
    obtain ⟨n,hn,_⟩ := h
    rw [getSerializeSize_value] at hn
    cases hn
  | error error =>
    cases target with
    | error old => exact iff_of_true (errors_roundTrip D sender receiver limit error old) ⟨rfl,rfl⟩
    | value old =>
      refine iff_of_false (fun h => ?_) (fun h => by cases h.2)
      obtain ⟨n,hn,h⟩ := h
      rw [getSerializeSize_error] at hn
      cases hn
      obtain ⟨out,hser,hdes⟩ := h (List.replicate 5 0) (by simp)
      rw [serialize_error sender error (by simp)] at hser
      cases hser
      obtain ⟨valid,mid,_,hrest⟩ := Exec.bind_eq_ok.mp hdes
      -- a target that holds a value comes back, if at all, with a value
      cases valid with
      | true =>
        obtain ⟨_,_,_,hback⟩ := Exec.bind_eq_ok.mp hrest
        obtain ⟨_,_,hpair⟩ := Exec.map_eq_ok.mp hback
        cases hpair
      | false => cases hrest

end

/-- A value whose size is asked for, and an error received by a new object: nine bytes are
written for the one, and the other reaches for an error that is not there. -/
theorem values_not_roundTrip :
    let seven : Expected personReflection (.int .w64) := .value (.int 7)
    let fresh : Expected personReflection (.int .w64) := .value (.int 0)
    ¬ RoundTrips personDefaults .little .little 64 seven fresh ∧
      ¬ RoundTrips personDefaults .little .little 64 (.error ⟨-1001⟩) fresh ∧
      seven.serialize .little 9 ⟨List.replicate 9 0,0⟩ = .ok () ⟨[1,7,0,0,0,0,0,0,0],9⟩ ∧
      fresh.deserialize personDefaults ⟨[0,0,0,0,0],5,.little,64⟩ 0 = .error .inactiveError 1 := by
  refine ⟨fun h => ?_,fun h => ?_,rfl,rfl⟩
  · obtain ⟨n,hn,_⟩ := h
    cases hn
  · obtain ⟨n,hn,h⟩ := h
    rw [getSerializeSize_error] at hn
    cases hn
    obtain ⟨out,hser,hdes⟩ := h (List.replicate 5 0) (by simp)
    cases hser
    cases hdes

end NewRpc.ErrorStruct
