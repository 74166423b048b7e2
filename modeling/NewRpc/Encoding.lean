import NewRpc.Serialization

/-!
The byte string a value stands for, and what the encoder and the decoder do in
terms of it. Everything about positions and buffers ends here.
-/

set_option autoImplicit false

namespace NewRpc.Codec
open Bytes

mutual
def encode {R : Reflection} : {t : Ty R.Name} → Val R t → List UInt8
  | .int w, .int v => leBytes w.sizeof v.toNat
  | .bool, .bool b => leBytes 1 (boolWord b).toNat
  | .enum u, .enum v => leBytes 8 (u.toInt64 v).toNat
  | .ptr _, .null => leBytes 1 (boolWord true).toNat
  | .ptr _, .ref v => leBytes 1 (boolWord false).toNat ++ encode v
  | .string, .string s => leBytes 8 s.length ++ s
  | .vector _, .vector vs => leBytes 8 vs.length ++ encodeElements vs
  | .struct _, .struct ms => encodeMembers ms

def encodeElements {R : Reflection} : {t : Ty R.Name} → Vals R t → List UInt8
  | _, .nil => []
  | _, .cons v vs => encode v ++ encodeElements vs

def encodeMembers {R : Reflection} : {ts : List (Ty R.Name)} → Members R ts → List UInt8
  | _, .nil => []
  | _, .cons v ms => encode v ++ encodeMembers ms
end

mutual
@[simp] theorem encode_length {R : Reflection} :
    {t : Ty R.Name} → (v : Val R t) → (encode v).length = getSerializeSize v
  | .int _, .int _ => by simp [encode,getSerializeSize]
  | .bool, .bool _ => by simp [encode,getSerializeSize]
  | .enum _, .enum _ => by simp [encode,getSerializeSize]
  | .ptr _, .null => by simp [encode,getSerializeSize]
  | .ptr _, .ref v => by simp [encode,getSerializeSize,encode_length v]
  | .string, .string _ => by simp [encode,getSerializeSize]
  | .vector _, .vector vs => by simp [encode,getSerializeSize,encodeElements_length vs]
  | .struct _, .struct ms => by simp [encode,getSerializeSize,encodeMembers_length ms]

@[simp] theorem encodeElements_length {R : Reflection} :
    {t : Ty R.Name} → (vs : Vals R t) → (encodeElements vs).length = elementsSize vs
  | _, .nil => rfl
  | _, .cons v vs => by
      simp [encodeElements,elementsSize,encode_length v,encodeElements_length vs]

@[simp] theorem encodeMembers_length {R : Reflection} :
    {ts : List (Ty R.Name)} → (ms : Members R ts) → (encodeMembers ms).length = membersSize ms
  | _, .nil => rfl
  | _, .cons v ms => by
      simp [encodeMembers,membersSize,encode_length v,encodeMembers_length ms]
end

mutual
/-- Every value takes at least one byte, since no reflected struct is empty. -/
theorem getSerializeSize_pos {R : Reflection} :
    {t : Ty R.Name} → (v : Val R t) → 0 < getSerializeSize v
  | .int w, .int _ => by simpa [getSerializeSize] using w.sizeof_pos
  | .bool, .bool _ => by simp [getSerializeSize]
  | .enum _, .enum _ => by simp [getSerializeSize]
  | .ptr _, .null => by simp [getSerializeSize]
  | .ptr _, .ref v => by simp only [getSerializeSize]; omega
  | .string, .string _ => by simp only [getSerializeSize]; omega
  | .vector _, .vector vs => by simp only [getSerializeSize]; omega
  | .struct s, .struct ms => by
      rw [getSerializeSize]
      exact membersSize_pos (R.members_ne s) ms

theorem membersSize_pos {R : Reflection} :
    {ts : List (Ty R.Name)} → ts ≠ [] → (ms : Members R ts) → 0 < membersSize ms
  | _, h, .nil => absurd rfl h
  | _, _, .cons v ms => by
      have hv := getSerializeSize_pos v
      simp only [membersSize]; omega
end

theorem length_le_elementsSize {R : Reflection} :
    {t : Ty R.Name} → (vs : Vals R t) → vs.length ≤ elementsSize vs
  | _, .nil => Nat.le_refl 0
  | _, .cons v vs => by
      have hv := getSerializeSize_pos v
      have hs := length_le_elementsSize vs
      simp only [Vals.length,elementsSize]; omega

/-- `x` writes `bs` at the position and moves past it, wherever `bs` fits. -/
def Writes (bufferLen : Int) (x : SerM Unit) (bs : List UInt8) : Prop :=
  ∀ s : SerState, 0 ≤ s.pos → s.pos + bs.length ≤ bufferLen →
    bufferLen ≤ s.buffer.length → bufferLen < 2 ^ 63 →
    x s = .ok () ⟨splice s.buffer s.pos.toNat bs,s.pos + bs.length⟩

theorem Writes.nil (bufferLen : Int) : Writes bufferLen (pure ()) [] := by
  intro s _ _ _ _
  simp

theorem Writes.seq {bufferLen : Int} {x y : SerM Unit} {a b : List UInt8}
    (hx : Writes bufferLen x a) (hy : Writes bufferLen y b) :
    Writes bufferLen (do x; y) (a ++ b) := by
  intro s h0 hfit hlen hmax
  simp only [List.length_append,Int.natCast_add] at hfit
  rw [Exec.bind_ok (hx s h0 (by omega) hlen hmax)]
  have hroom : s.pos.toNat + (a ++ b).length ≤ s.buffer.length := by
    simp only [List.length_append]; omega
  have hsame : (splice s.buffer s.pos.toNat a).length = s.buffer.length :=
    splice_length (by simp only [List.length_append] at hroom; omega)
  have hpos : (s.pos + a.length).toNat = s.pos.toNat + a.length := by omega
  rw [hy _ (by simp only; omega) (by simp only; omega) (by simp only [hsame]; omega) hmax]
  simp only [hpos,splice_splice hroom,List.length_append,Int.natCast_add]
  congr 2
  omega

theorem copyOut_ok {s : SerState} {src : List UInt8} (h0 : 0 ≤ s.pos)
    (h : s.pos + src.length ≤ s.buffer.length) :
    copyOut src s = .ok () ⟨splice s.buffer s.pos.toNat src,s.pos + src.length⟩ := by
  rw [copyOut,Exec.bind_ok (Exec.get_run s),if_pos ⟨h0,h⟩]
  rfl

theorem putFundamental_writes (bufferLen : Int) (src : List UInt8) :
    Writes bufferLen (putFundamental bufferLen src) src := by
  intro s h0 hfit hlen hmax
  have hp : u64 s.pos = s.pos.toNat := u64_eq h0 (by omega)
  have hb : u64 bufferLen = bufferLen.toNat := u64_eq (by omega) (by omega)
  rw [putFundamental,Exec.bind_ok (Exec.get_run s),if_neg (by rw [hp,hb]; omega)]
  exact copyOut_ok h0 (by omega)

/-- The two byte orders write the same bytes. -/
theorem serializeFundamental_writes (e : Endian) (bufferLen : Int) (n : Nat)
    (data : BitVec (8 * n)) :
    Writes bufferLen (serializeFundamental e bufferLen n data) (leBytes n data.toNat) := by
  cases e with
  | big =>
    rw [serializeFundamental,← object_big_byteswap]
    exact putFundamental_writes bufferLen _
  | little => exact putFundamental_writes bufferLen _

theorem toNat_ofNat {n : Nat} (h : n < 2 ^ 63) : (BitVec.ofNat (8 * 8) n).toNat = n := by
  rw [BitVec.toNat_ofNat]
  exact Nat.mod_eq_of_lt (by omega)

theorem toInt_ofNat {n : Nat} (h : n < 2 ^ 63) : (BitVec.ofNat (8 * 8) n).toInt = n := by
  have hn := toNat_ofNat h
  rw [BitVec.toInt_eq_toNat_of_lt (by omega),hn]

theorem putString_writes (bufferLen : Int) (src : List UInt8) :
    Writes bufferLen (putString bufferLen src.length src) src := by
  intro s h0 hfit hlen hmax
  rw [putString,Exec.bind_ok (Exec.get_run s),if_neg (by omega),if_neg (by omega)]
  exact copyOut_ok h0 (by omega)

mutual
theorem serialize_writes {R : Reflection} (e : Endian) (bufferLen : Int) :
    {t : Ty R.Name} → (v : Val R t) → getSerializeSize v < 2 ^ 63 →
      Writes bufferLen (serialize e bufferLen v) (encode v)
  | .int w, .int v, _ => serializeFundamental_writes e bufferLen w.sizeof v
  | .bool, .bool b, _ => serializeFundamental_writes e bufferLen 1 (boolWord b)
  | .enum u, .enum v, _ => serializeFundamental_writes e bufferLen 8 (u.toInt64 v)
  | .ptr _, .null, _ => serializeFundamental_writes e bufferLen 1 (boolWord true)
  | .ptr _, .ref v, h => by
      rw [getSerializeSize] at h
      exact (serializeFundamental_writes e bufferLen 1 (boolWord false)).seq
        (serialize_writes e bufferLen v (by omega))
  | .string, .string s, h => by
      rw [getSerializeSize] at h
      have hl := serializeFundamental_writes e bufferLen 8 (BitVec.ofNat _ s.length)
      rw [toNat_ofNat (by omega)] at hl
      have hs := putString_writes bufferLen s
      rw [← toInt_ofNat (show s.length < 2 ^ 63 by omega)] at hs
      exact hl.seq hs
  | .vector _, .vector vs, h => by
      rw [getSerializeSize] at h
      have hn := length_le_elementsSize vs
      have hl := serializeFundamental_writes e bufferLen 8 (BitVec.ofNat _ vs.length)
      rw [toNat_ofNat (by omega)] at hl
      exact hl.seq (serializeElements_writes e bufferLen vs (by omega))
  | .struct _, .struct ms, h => serializeMembers_writes e bufferLen ms h

theorem serializeElements_writes {R : Reflection} (e : Endian) (bufferLen : Int) :
    {t : Ty R.Name} → (vs : Vals R t) → elementsSize vs < 2 ^ 63 →
      Writes bufferLen (serializeElements e bufferLen vs) (encodeElements vs)
  | _, .nil, _ => Writes.nil bufferLen
  | _, .cons v vs, h => by
      rw [elementsSize] at h
      exact (serialize_writes e bufferLen v (by omega)).seq
        (serializeElements_writes e bufferLen vs (by omega))

theorem serializeMembers_writes {R : Reflection} (e : Endian) (bufferLen : Int) :
    {ts : List (Ty R.Name)} → (ms : Members R ts) → membersSize ms < 2 ^ 63 →
      Writes bufferLen (serializeMembers e bufferLen ms) (encodeMembers ms)
  | _, .nil, _ => Writes.nil bufferLen
  | _, .cons v ms, h => by
      rw [membersSize] at h
      exact (serialize_writes e bufferLen v (by omega)).seq
        (serializeMembers_writes e bufferLen ms (by omega))
end

end NewRpc.Codec
