import NewRpc.RoundTrip

/-!
The encoder in a buffer of any size: what it does where the encoding does not fit.
-/

set_option autoImplicit false

namespace NewRpc.Codec
open Bytes

structure Kept (bufferLen : Int) (s t : SerState) : Prop where
  length : t.buffer.length = s.buffer.length
  outside : ∀ i : Nat, ((i : Int) < s.pos ∨ bufferLen ≤ i) → t.buffer[i]? = s.buffer[i]?

theorem Kept.refl (bufferLen : Int) (s : SerState) : Kept bufferLen s s := ⟨rfl,fun _ _ => rfl⟩

def Refuses (bufferLen : Int) (x : SerM Unit) (n : Nat) (A : Int → Prop) : Prop :=
  ∀ s : SerState, 0 ≤ s.pos → s.pos ≤ bufferLen → bufferLen ≤ s.buffer.length →
    bufferLen < 2 ^ 63 → bufferLen < s.pos + n →
    ∃ e t, x s = .error e t ∧ Kept bufferLen s t ∧
      ((e = .outOfRange ∧ A s.pos) ∨ (e = .overflow ∧ ¬ A s.pos))

theorem Refuses.seq {bufferLen : Int} {x y : SerM Unit} {a : List UInt8} {n : Nat}
    {A B : Int → Prop} (hw : Writes bufferLen x a) (hx : Refuses bufferLen x a.length A)
    (hy : Refuses bufferLen y n B) (hA : ∀ pos, pos + a.length ≤ bufferLen → A pos)
    (hB : ∀ pos, bufferLen < pos → B pos) :
    Refuses bufferLen (do x; y) (a.length + n) (fun pos => A pos ∧ B (pos + a.length)) := by
  intro s h0 hpos hlen hmax hfit
  by_cases hfits : s.pos + a.length ≤ bufferLen
  · rw [Exec.bind_ok (hw s h0 hfits hlen hmax)]
    have hroom : s.pos.toNat + a.length ≤ s.buffer.length := by omega
    have hsame : (splice s.buffer s.pos.toNat a).length = s.buffer.length := splice_length hroom
    obtain ⟨e,t,ht,hkept,hcase⟩ := hy ⟨splice s.buffer s.pos.toNat a,s.pos + a.length⟩
      (by simp only; omega) hfits (by simp only [hsame]; exact hlen) hmax
      (by simp only; omega)
    refine ⟨e,t,ht,⟨hkept.length.trans hsame,fun i hi => ?_⟩,?_⟩
    · rw [hkept.outside i (by simp only; omega)]
      exact splice_outside hroom (by omega)
    · rcases hcase with ⟨he,hb⟩ | ⟨he,hb⟩
      · exact .inl ⟨he,hA s.pos hfits,hb⟩
      · exact .inr ⟨he,fun h => hb h.2⟩
  · obtain ⟨e,t,ht,hkept,hcase⟩ := hx s h0 hpos hlen hmax (by omega)
    refine ⟨e,t,?_,hkept,?_⟩
    · rw [Exec.bind_error ht]
    · rcases hcase with ⟨he,ha⟩ | ⟨he,ha⟩
      · exact .inl ⟨he,ha,hB _ (by omega)⟩
      · exact .inr ⟨he,fun h => ha h.1⟩

theorem Refuses.congr {bufferLen : Int} {x : SerM Unit} {n : Nat} {A B : Int → Prop}
    (h : Refuses bufferLen x n A) (hAB : ∀ pos, A pos ↔ B pos) : Refuses bufferLen x n B := by
  intro s h0 hpos hlen hmax hfit
  obtain ⟨e,t,ht,hkept,hcase⟩ := h s h0 hpos hlen hmax hfit
  rw [hAB s.pos] at hcase
  exact ⟨e,t,ht,hkept,hcase⟩

theorem putFundamental_refuses (bufferLen : Int) {src : List UInt8} (hn : src.length ≤ 8) :
    Refuses bufferLen (putFundamental bufferLen src) src.length (fun _ => True) := by
  intro s h0 hpos hlen hmax hfit
  have hp : u64 s.pos = s.pos.toNat := u64_eq h0 (by omega)
  have hb : u64 bufferLen = bufferLen.toNat := u64_eq (by omega) (by omega)
  refine ⟨.outOfRange,s,?_,Kept.refl bufferLen s,.inl ⟨rfl,trivial⟩⟩
  rw [putFundamental,Exec.bind_ok (Exec.get_run s),hp,hb,if_pos (by omega),Exec.throw_run]

theorem serializeFundamental_refuses (e : Endian) (bufferLen : Int) {n : Nat} (hn : n ≤ 8)
    (data : BitVec (8 * n)) :
    Refuses bufferLen (serializeFundamental e bufferLen n data) n (fun _ => True) := by
  cases e with
  | big =>
    have h := @putFundamental_refuses bufferLen (object .big n (byteswap n data))
      (by rw [object_length]; exact hn)
    rwa [object_length] at h
  | little =>
    have h := @putFundamental_refuses bufferLen (object .little n data)
      (by rw [object_length]; exact hn)
    rwa [object_length] at h

def EndAddressable (bufferLen : Int) (len : Nat) (pos : Int) : Prop :=
  pos ≤ bufferLen → pos + len < 2 ^ 63

theorem putString_refuses (bufferLen : Int) (src : List UInt8) :
    Refuses bufferLen (putString bufferLen src.length src) src.length
      (EndAddressable bufferLen src.length) := by
  intro s h0 hpos hlen hmax hfit
  by_cases hend : s.pos + src.length < 2 ^ 63
  · refine ⟨.outOfRange,s,?_,Kept.refl bufferLen s,.inl ⟨rfl,fun _ => hend⟩⟩
    rw [putString,Exec.bind_ok (Exec.get_run s),if_neg (by omega),if_pos hfit,Exec.throw_run]
  · refine ⟨.overflow,s,?_,Kept.refl bufferLen s,.inr ⟨rfl,fun h => hend (h hpos)⟩⟩
    rw [putString,Exec.bind_ok (Exec.get_run s),if_pos (.inr (by omega)),Exec.throw_run]

mutual
/-- No string of the value, written from `pos` on, begins in the buffer and ends where no
`int64_t` reaches. -/
def Addressable {R : Reflection} (bufferLen : Int) : {t : Ty R.Name} → Val R t → Int → Prop
  | .int _, .int _, _ => True
  | .bool, .bool _, _ => True
  | .enum _, .enum _, _ => True
  | .ptr _, .null, _ => True
  | .ptr _, .ref v, pos => Addressable bufferLen v (pos + 1)
  | .string, .string s, pos => EndAddressable bufferLen s.length (pos + 8)
  | .vector _, .vector vs, pos => AddressableElements bufferLen vs (pos + 8)
  | .struct _, .struct ms, pos => AddressableMembers bufferLen ms pos

def AddressableElements {R : Reflection} (bufferLen : Int) :
    {t : Ty R.Name} → Vals R t → Int → Prop
  | _, .nil, _ => True
  | _, .cons v vs, pos => Addressable bufferLen v pos ∧
      AddressableElements bufferLen vs (pos + getSerializeSize v)

def AddressableMembers {R : Reflection} (bufferLen : Int) :
    {ts : List (Ty R.Name)} → Members R ts → Int → Prop
  | _, .nil, _ => True
  | _, .cons v ms, pos => Addressable bufferLen v pos ∧
      AddressableMembers bufferLen ms (pos + getSerializeSize v)
end

mutual
/-- Nothing is left to ask where the value fits, or begins behind the buffer. -/
theorem addressable_of {R : Reflection} {bufferLen : Int} (hmax : bufferLen < 2 ^ 63) :
    {t : Ty R.Name} → (v : Val R t) → (pos : Int) →
    bufferLen < pos ∨ pos + getSerializeSize v ≤ bufferLen → Addressable bufferLen v pos
  | .int _, .int _, _, _ => trivial
  | .bool, .bool _, _, _ => trivial
  | .enum _, .enum _, _, _ => trivial
  | .ptr _, .null, _, _ => trivial
  | .ptr _, .ref v, pos, h => by
      rw [getSerializeSize] at h
      rw [Addressable]
      exact addressable_of hmax v (pos + 1) (by omega)
  | .string, .string s, pos, h => by
      rw [getSerializeSize] at h
      rw [Addressable]
      intro hpos
      omega
  | .vector _, .vector vs, pos, h => by
      rw [getSerializeSize] at h
      rw [Addressable]
      exact addressableElements_of hmax vs (pos + 8) (by omega)
  | .struct _, .struct ms, pos, h => by
      rw [getSerializeSize] at h
      rw [Addressable]
      exact addressableMembers_of hmax ms pos h

theorem addressableElements_of {R : Reflection} {bufferLen : Int} (hmax : bufferLen < 2 ^ 63) :
    {t : Ty R.Name} → (vs : Vals R t) → (pos : Int) →
    bufferLen < pos ∨ pos + elementsSize vs ≤ bufferLen → AddressableElements bufferLen vs pos
  | _, .nil, _, _ => trivial
  | _, .cons v vs, pos, h => by
      rw [elementsSize] at h
      exact ⟨addressable_of hmax v pos (by omega),addressableElements_of hmax vs _ (by omega)⟩

theorem addressableMembers_of {R : Reflection} {bufferLen : Int} (hmax : bufferLen < 2 ^ 63) :
    {ts : List (Ty R.Name)} → (ms : Members R ts) → (pos : Int) →
    bufferLen < pos ∨ pos + membersSize ms ≤ bufferLen → AddressableMembers bufferLen ms pos
  | _, .nil, _, _ => trivial
  | _, .cons v ms, pos, h => by
      rw [membersSize] at h
      exact ⟨addressable_of hmax v pos (by omega),addressableMembers_of hmax ms _ (by omega)⟩
end

mutual
theorem addressable_of_fits {R : Reflection} {bufferLen : Int} {limit : Nat}
    (hmem : bufferLen + limit < 2 ^ 63) : {t : Ty R.Name} → (v : Val R t) → Fits limit v →
    (pos : Int) → Addressable bufferLen v pos
  | .int _, .int _, _, _ => trivial
  | .bool, .bool _, _, _ => trivial
  | .enum _, .enum _, _, _ => trivial
  | .ptr _, .null, _, _ => trivial
  | .ptr _, .ref v, h, pos => addressable_of_fits hmem v h (pos + 1)
  | .string, .string s, h, pos => by
      have hlength : s.length ≤ limit := h
      rw [Addressable]
      intro hpos
      omega
  | .vector _, .vector vs, h, pos => addressableElements_of_fits hmem vs h.2 (pos + 8)
  | .struct _, .struct ms, h, pos => addressableMembers_of_fits hmem ms h pos

theorem addressableElements_of_fits {R : Reflection} {bufferLen : Int} {limit : Nat}
    (hmem : bufferLen + limit < 2 ^ 63) : {t : Ty R.Name} → (vs : Vals R t) →
    FitsElements limit vs → (pos : Int) → AddressableElements bufferLen vs pos
  | _, .nil, _, _ => trivial
  | _, .cons v vs, h, pos =>
      ⟨addressable_of_fits hmem v h.1 pos,addressableElements_of_fits hmem vs h.2 _⟩

theorem addressableMembers_of_fits {R : Reflection} {bufferLen : Int} {limit : Nat}
    (hmem : bufferLen + limit < 2 ^ 63) : {ts : List (Ty R.Name)} → (ms : Members R ts) →
    FitsMembers limit ms → (pos : Int) → AddressableMembers bufferLen ms pos
  | _, .nil, _, _ => trivial
  | _, .cons v ms, h, pos =>
      ⟨addressable_of_fits hmem v h.1 pos,addressableMembers_of_fits hmem ms h.2 _⟩
end

theorem refuses_nil (bufferLen : Int) (A : Int → Prop) : Refuses bufferLen (pure ()) 0 A := by
  intro s h0 hpos hlen hmax hfit
  omega

theorem refuses_behind {bufferLen : Int} (e : Endian) {n : Nat} (hn : n ≤ 8)
    (data : BitVec (8 * n)) {y : SerM Unit} {m : Nat} {B : Int → Prop}
    (hy : Refuses bufferLen y m B) (hB : ∀ pos, bufferLen < pos → B pos) :
    Refuses bufferLen (do serializeFundamental e bufferLen n data; y) (n + m)
      (fun pos => B (pos + n)) := by
  have hw := serializeFundamental_writes e bufferLen n data
  have hx : Refuses bufferLen (serializeFundamental e bufferLen n data)
      (leBytes n data.toNat).length (fun _ => True) := by
    rw [leBytes_length]
    exact serializeFundamental_refuses e bufferLen hn data
  have h := Refuses.seq hw hx hy (fun _ _ => trivial) hB
  rw [leBytes_length] at h
  exact h.congr (fun pos => and_iff_right trivial)

mutual
theorem serialize_refuses {R : Reflection} (e : Endian) {bufferLen : Int}
    (hmax : bufferLen < 2 ^ 63) : {t : Ty R.Name} → (v : Val R t) → getSerializeSize v < 2 ^ 63 →
      Refuses bufferLen (serialize e bufferLen v) (getSerializeSize v) (Addressable bufferLen v)
  | .int w, .int v, _ =>
      (serializeFundamental_refuses e bufferLen w.sizeof_le v).congr (fun _ => Iff.rfl)
  | .bool, .bool b, _ =>
      (serializeFundamental_refuses e bufferLen (by omega) (boolWord b)).congr (fun _ => Iff.rfl)
  | .enum u, .enum v, _ =>
      (serializeFundamental_refuses e bufferLen (by omega) (u.toInt64 v)).congr (fun _ => Iff.rfl)
  | .ptr _, .null, _ =>
      (serializeFundamental_refuses e bufferLen (by omega) (boolWord true)).congr (fun _ => Iff.rfl)
  | .ptr _, .ref v, h => by
      rw [getSerializeSize] at h
      exact refuses_behind e (by omega) (boolWord false) (serialize_refuses e hmax v (by omega))
        (fun pos hpos => addressable_of hmax v pos (.inl hpos))
  | .string, .string s, h => by
      rw [getSerializeSize] at h
      have hs := putString_refuses bufferLen s
      have hb := refuses_behind e (by omega) (BitVec.ofNat (8 * 8) s.length) hs
        (fun pos hpos hle => by omega)
      rw [← toInt_ofNat (show s.length < 2 ^ 63 by omega)] at hb
      exact hb
  | .vector _, .vector vs, h => by
      rw [getSerializeSize] at h
      exact refuses_behind e (by omega) (BitVec.ofNat (8 * 8) vs.length)
        (serializeElements_refuses e hmax vs (by omega))
        (fun pos hpos => addressableElements_of hmax vs pos (.inl hpos))
  | .struct _, .struct ms, h => serializeMembers_refuses e hmax ms h

theorem serializeElements_refuses {R : Reflection} (e : Endian) {bufferLen : Int}
    (hmax : bufferLen < 2 ^ 63) : {t : Ty R.Name} → (vs : Vals R t) → elementsSize vs < 2 ^ 63 →
      Refuses bufferLen (serializeElements e bufferLen vs) (elementsSize vs)
        (AddressableElements bufferLen vs)
  | _, .nil, _ => refuses_nil bufferLen _
  | _, .cons v vs, h => by
      rw [elementsSize] at h
      have hx := serialize_refuses e hmax v (by omega)
      rw [← encode_length] at hx
      have hs := Refuses.seq (serialize_writes e bufferLen v (by omega)) hx
        (serializeElements_refuses e hmax vs (by omega))
        (fun pos hpos => addressable_of hmax v pos (.inr (by rw [← encode_length]; exact hpos)))
        (fun pos hpos => addressableElements_of hmax vs pos (.inl hpos))
      rw [encode_length] at hs
      exact hs

theorem serializeMembers_refuses {R : Reflection} (e : Endian) {bufferLen : Int}
    (hmax : bufferLen < 2 ^ 63) : {ts : List (Ty R.Name)} → (ms : Members R ts) →
      membersSize ms < 2 ^ 63 →
      Refuses bufferLen (serializeMembers e bufferLen ms) (membersSize ms)
        (AddressableMembers bufferLen ms)
  | _, .nil, _ => refuses_nil bufferLen _
  | _, .cons v ms, h => by
      rw [membersSize] at h
      have hx := serialize_refuses e hmax v (by omega)
      rw [← encode_length] at hx
      have hs := Refuses.seq (serialize_writes e bufferLen v (by omega)) hx
        (serializeMembers_refuses e hmax ms (by omega))
        (fun pos hpos => addressable_of hmax v pos (.inr (by rw [← encode_length]; exact hpos)))
        (fun pos hpos => addressableMembers_of hmax ms pos (.inl hpos))
      rw [encode_length] at hs
      exact hs
end

/-- The size computation and the encoder agree: what fits is written, exactly where it
should be, what does not is refused, and nothing else of the block is touched. -/
def Agrees {R : Reflection} (e : Endian) (bufferLen : Int) {t : Ty R.Name} (v : Val R t)
    (s : SerState) : Prop :=
  match serialize e bufferLen v s with
  | .ok _ u => s.pos + getSerializeSize v ≤ bufferLen ∧ u.pos = s.pos + getSerializeSize v ∧
      Kept (s.pos + getSerializeSize v) s u
  | .error f u => ¬ s.pos + getSerializeSize v ≤ bufferLen ∧ f = .outOfRange ∧ Kept bufferLen s u

theorem agrees_iff {R : Reflection} (e : Endian) {bufferLen : Int} {t : Ty R.Name}
    (v : Val R t) (hsize : getSerializeSize v < 2 ^ 63) (s : SerState) (h0 : 0 ≤ s.pos)
    (hpos : s.pos ≤ bufferLen) (hlen : bufferLen ≤ s.buffer.length) (hmax : bufferLen < 2 ^ 63) :
    Agrees e bufferLen v s ↔ Addressable bufferLen v s.pos := by
  unfold Agrees
  by_cases hfit : s.pos + getSerializeSize v ≤ bufferLen
  · have hw := serialize_writes e bufferLen v hsize s h0 (by rw [encode_length]; exact hfit) hlen
      hmax
    rw [hw]
    refine iff_of_true ⟨hfit,by rw [encode_length],?_⟩ (addressable_of hmax v s.pos (.inr hfit))
    have hroom : s.pos.toNat + (encode v).length ≤ s.buffer.length := by
      rw [encode_length]
      omega
    refine ⟨splice_length hroom,fun i hi => splice_outside hroom ?_⟩
    rw [encode_length]
    omega
  · obtain ⟨f,u,hu,hkept,hcase⟩ := serialize_refuses e hmax v hsize s h0 hpos hlen hmax (by omega)
    rw [hu]
    rcases hcase with ⟨rfl,ha⟩ | ⟨rfl,ha⟩
    · exact iff_of_true ⟨hfit,rfl,hkept⟩ ha
    · exact iff_of_false (fun h => by cases h.2.1) ha

/-- A value whose strings and vectors lie in memory beside the buffer is written where it fits,
refused where it does not, and nothing else is touched. -/
theorem serialize_agrees {R : Reflection} (e : Endian) {bufferLen : Int} {limit : Nat}
    {t : Ty R.Name} (v : Val R t) (hsize : getSerializeSize v < 2 ^ 63) (hf : Fits limit v)
    (hmem : bufferLen + limit < 2 ^ 63) (s : SerState) (h0 : 0 ≤ s.pos) (hpos : s.pos ≤ bufferLen)
    (hlen : bufferLen ≤ s.buffer.length) : Agrees e bufferLen v s :=
  (agrees_iff e v hsize s h0 hpos hlen (by omega)).mpr (addressable_of_fits hmem v hf s.pos)

/-- Three bytes short, a person is refused. -/
theorem person_refused : Agrees .little 20 (person [99,111,111,108,116,101,110,103] 30)
    ⟨List.replicate 20 0,3⟩ := by
  have hf : Fits 64 (person [99,111,111,108,116,101,110,103] 30) :=
    ⟨show 8 ≤ 64 by decide,trivial,trivial⟩
  exact serialize_agrees .little (person [99,111,111,108,116,101,110,103] 30) (by decide) hf
    (by decide) ⟨List.replicate 20 0,3⟩ (by decide) (by decide) (by decide)

end NewRpc.Codec
