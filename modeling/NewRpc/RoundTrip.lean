import NewRpc.Encoding

/-!
Decoding an encoding. The decoder appends to the vectors it finds in its target,
so the value it leaves is the one decoded only where those vectors were empty.
-/

set_option autoImplicit false

namespace NewRpc.Codec
open Bytes

mutual
/-- What decoding the encoding of the second value into the first leaves there. -/
def absorb {R : Reflection} (D : Defaults R) : {t : Ty R.Name} → Val R t → Val R t → Val R t
  | .int _, _, .int v => .int v
  | .bool, _, .bool b => .bool b
  | .enum _, _, .enum v => .enum v
  | .ptr _, _, .null => .null
  | .ptr t, _, .ref v => .ref (absorb D (Val.fresh D t) v)
  | .string, _, .string s => .string s
  | .vector _, .vector data, .vector vs => .vector (data.append (absorbElements D vs))
  | .struct _, .struct data, .struct ms => .struct (absorbMembers D data ms)

def absorbElements {R : Reflection} (D : Defaults R) : {t : Ty R.Name} → Vals R t → Vals R t
  | _, .nil => .nil
  | t, .cons v vs => .cons (absorb D (Val.fresh D t) v) (absorbElements D vs)

def absorbMembers {R : Reflection} (D : Defaults R) :
    {ts : List (Ty R.Name)} → Members R ts → Members R ts → Members R ts
  | _, .nil, .nil => .nil
  | _, .cons data datas, .cons v ms => .cons (absorb D data v) (absorbMembers D datas ms)
end

mutual
/-- Every vector that decoding the second value appends to starts out empty: those
in the target, and those in the pointees and elements constructed on the way. -/
def Clear {R : Reflection} (D : Defaults R) : {t : Ty R.Name} → Val R t → Val R t → Prop
  | .int _, _, .int _ => True
  | .bool, _, .bool _ => True
  | .enum _, _, .enum _ => True
  | .ptr _, _, .null => True
  | .ptr t, _, .ref v => Clear D (Val.fresh D t) v
  | .string, _, .string _ => True
  | .vector _, .vector data, .vector vs => data = .nil ∧ ClearElements D vs
  | .struct _, .struct data, .struct ms => ClearMembers D data ms

def ClearElements {R : Reflection} (D : Defaults R) : {t : Ty R.Name} → Vals R t → Prop
  | _, .nil => True
  | t, .cons v vs => Clear D (Val.fresh D t) v ∧ ClearElements D vs

def ClearMembers {R : Reflection} (D : Defaults R) :
    {ts : List (Ty R.Name)} → Members R ts → Members R ts → Prop
  | _, .nil, .nil => True
  | _, .cons data datas, .cons v ms => Clear D data v ∧ ClearMembers D datas ms
end

mutual
theorem absorb_eq_iff {R : Reflection} (D : Defaults R) :
    {t : Ty R.Name} → (data v : Val R t) → (absorb D data v = v ↔ Clear D data v)
  | .int _, _, .int _ => by simp [absorb,Clear]
  | .bool, _, .bool _ => by simp [absorb,Clear]
  | .enum _, _, .enum _ => by simp [absorb,Clear]
  | .ptr _, _, .null => by simp [absorb,Clear]
  | .ptr t, _, .ref v => by
      rw [absorb,Clear,Val.ref.injEq]
      exact absorb_eq_iff D (Val.fresh D t) v
  | .string, _, .string _ => by simp [absorb,Clear]
  | .vector _, .vector data, .vector vs => by
      rw [absorb,Clear,Val.vector.injEq,← absorbElements_eq_iff D vs]
      constructor
      · intro h
        -- Only an empty prefix leaves as many elements as were sent.
        have hl := congrArg Vals.length h
        rw [Vals.length_append,absorbElements_length] at hl
        have hd : data = .nil := by
          cases data with
          | nil => rfl
          | cons w ws => simp only [Vals.length] at hl; omega
        subst hd
        exact ⟨rfl,h⟩
      · rintro ⟨rfl,h⟩
        exact h
  | .struct _, .struct data, .struct ms => by
      rw [absorb,Clear,Val.struct.injEq]
      exact absorbMembers_eq_iff D data ms

theorem absorbElements_eq_iff {R : Reflection} (D : Defaults R) :
    {t : Ty R.Name} → (vs : Vals R t) → (absorbElements D vs = vs ↔ ClearElements D vs)
  | _, .nil => by simp [absorbElements,ClearElements]
  | t, .cons v vs => by
      rw [absorbElements,ClearElements,Vals.cons.injEq,absorb_eq_iff D (Val.fresh D t) v,
        absorbElements_eq_iff D vs]

theorem absorbMembers_eq_iff {R : Reflection} (D : Defaults R) :
    {ts : List (Ty R.Name)} → (data ms : Members R ts) →
      (absorbMembers D data ms = ms ↔ ClearMembers D data ms)
  | _, .nil, .nil => by simp [absorbMembers,ClearMembers]
  | _, .cons data datas, .cons v ms => by
      rw [absorbMembers,ClearMembers,Members.cons.injEq,absorb_eq_iff D data v,
        absorbMembers_eq_iff D datas ms]

theorem absorbElements_length {R : Reflection} (D : Defaults R) :
    {t : Ty R.Name} → (vs : Vals R t) → (absorbElements D vs).length = vs.length
  | _, .nil => rfl
  | _, .cons _ vs => by rw [absorbElements,Vals.length,Vals.length,absorbElements_length D vs]
end

mutual
def Fits {R : Reflection} (limit : Nat) : {t : Ty R.Name} → Val R t → Prop
  | .int _, .int _ => True
  | .bool, .bool _ => True
  | .enum _, .enum _ => True
  | .ptr _, .null => True
  | .ptr _, .ref v => Fits limit v
  | .string, .string s => s.length ≤ limit
  | .vector _, .vector vs => vs.length ≤ limit ∧ FitsElements limit vs
  | .struct _, .struct ms => FitsMembers limit ms

def FitsElements {R : Reflection} (limit : Nat) : {t : Ty R.Name} → Vals R t → Prop
  | _, .nil => True
  | _, .cons v vs => Fits limit v ∧ FitsElements limit vs

def FitsMembers {R : Reflection} (limit : Nat) : {ts : List (Ty R.Name)} → Members R ts → Prop
  | _, .nil => True
  | _, .cons v ms => Fits limit v ∧ FitsMembers limit ms
end

mutual
def nesting {R : Reflection} : {t : Ty R.Name} → Val R t → Nat
  | .int _, .int _ => 0
  | .bool, .bool _ => 0
  | .enum _, .enum _ => 0
  | .ptr _, .null => 0
  | .ptr _, .ref v => nesting v + 1
  | .string, .string _ => 0
  | .vector _, .vector vs => nestingElements vs + 1
  | .struct _, .struct ms => nestingMembers ms + 1

def nestingElements {R : Reflection} : {t : Ty R.Name} → Vals R t → Nat
  | _, .nil => 0
  | _, .cons v vs => max (nesting v) (nestingElements vs)

def nestingMembers {R : Reflection} : {ts : List (Ty R.Name)} → Members R ts → Nat
  | _, .nil => 0
  | _, .cons v ms => max (nesting v) (nestingMembers ms)
end

theorem inner_le {R : Reflection} (t : Ty R.Name) : t.inner ≤ R.height + 1 := by
  cases t with
  | struct s =>
    have hs := R.rank_le s
    simp only [Ty.inner]; omega
  | _ => simp [Ty.inner]

theorem inner_le_of_mem {R : Reflection} {s : R.Name} {t : Ty R.Name}
    (h : t ∈ R.members s) : t.inner ≤ R.rank s := by
  cases t with
  | struct u => exact R.rank_lt s u h
  | _ => simp [Ty.inner]

mutual
/-- Nesting is paid for by bytes, up to the structs that open before the first one. -/
theorem nesting_le {R : Reflection} : {t : Ty R.Name} → (v : Val R t) →
    nesting v ≤ getSerializeSize v * (R.height + 2) + t.inner
  | .int _, .int _ => by simp [nesting]
  | .bool, .bool _ => by simp [nesting]
  | .enum _, .enum _ => by simp [nesting]
  | .ptr _, .null => by simp [nesting]
  | .ptr t, .ref v => by
      have hv := nesting_le v
      have ht := inner_le t
      simp only [nesting,getSerializeSize,Nat.add_mul]; omega
  | .string, .string _ => by simp [nesting]
  | .vector t, .vector vs => by
      have hs := nestingElements_le vs
      have ht := inner_le t
      simp only [nesting,getSerializeSize,Nat.add_mul]; omega
  | .struct s, .struct ms => by
      have hm := nestingMembers_le (R.rank s) ms (fun t ht => inner_le_of_mem ht)
      simp only [nesting,getSerializeSize,Ty.inner]; omega

theorem nestingElements_le {R : Reflection} : {t : Ty R.Name} → (vs : Vals R t) →
    nestingElements vs ≤ elementsSize vs * (R.height + 2) + t.inner
  | _, .nil => by simp [nestingElements]
  | _, .cons v vs => by
      have hv := nesting_le v
      have hs := nestingElements_le vs
      simp only [nestingElements,elementsSize,Nat.add_mul]; omega

theorem nestingMembers_le {R : Reflection} (b : Nat) : {ts : List (Ty R.Name)} →
    (ms : Members R ts) → (∀ t ∈ ts, t.inner ≤ b) →
    nestingMembers ms ≤ membersSize ms * (R.height + 2) + b
  | _, .nil, _ => by simp [nestingMembers]
  | t :: _, .cons v ms, h => by
      have hv := nesting_le v
      have ht := h t (by simp)
      have hm := nestingMembers_le b ms (fun u hu => h u (by simp [hu]))
      simp only [nestingMembers,membersSize,Nat.add_mul]; omega
end

def Input.Sound (inp : Input) : Prop :=
  inp.bufferLen ≤ inp.buffer.length ∧ inp.bufferLen < 2 ^ 63

def Input.Shows (inp : Input) (pos : Int) (bs : List UInt8) : Prop :=
  0 ≤ pos ∧ pos + bs.length ≤ inp.bufferLen ∧ slice inp.buffer pos.toNat bs.length = bs

theorem Input.Shows.split {inp : Input} {pos : Int} {a b : List UInt8} (hs : inp.Sound)
    (h : inp.Shows pos (a ++ b)) : inp.Shows pos a ∧ inp.Shows (pos + a.length) b := by
  obtain ⟨h0,hfit,hsl⟩ := h
  have hlen := hs.1
  simp only [List.length_append,Int.natCast_add] at hfit
  have hp : (pos + a.length).toNat = pos.toNat + a.length := by omega
  rw [List.length_append,slice_append] at hsl
  have hla : (slice inp.buffer pos.toNat a.length).length = a.length :=
    slice_length (by omega)
  obtain ⟨ha,hb⟩ := List.append_inj hsl hla
  exact ⟨⟨h0,by omega,ha⟩,by omega,by omega,by rw [hp]; exact hb⟩

def Reads {α : Type} (inp : Input) (x : DesM α) (bs : List UInt8) (a : α) : Prop :=
  ∀ pos : Int, inp.Shows pos bs → x pos = .ok a (pos + bs.length)

theorem Reads.pure {α : Type} (inp : Input) (a : α) : Reads inp (Pure.pure a) [] a := by
  intro pos _
  simp

theorem Reads.map {α β : Type} {inp : Input} {x : DesM α} {bs : List UInt8} {a : α}
    (f : α → β) (h : Reads inp x bs a) : Reads inp (f <$> x) bs (f a) :=
  fun pos hs => Exec.map_ok (h pos hs)

theorem Reads.seq {α β : Type} {inp : Input} {x : DesM α} {f : α → DesM β}
    {as bs : List UInt8} {a : α} {b : β} (hs : inp.Sound) (hx : Reads inp x as a)
    (hf : Reads inp (f a) bs b) : Reads inp (x >>= f) (as ++ bs) b := by
  intro pos h
  obtain ⟨ha,hb⟩ := h.split hs
  rw [Exec.bind_ok (hx pos ha),hf _ hb]
  congr 1
  simp only [List.length_append,Int.natCast_add]
  omega

theorem Reads.skip {α β : Type} {inp : Input} {x : DesM α} {f : α → DesM β}
    {bs : List UInt8} {a : α} {b : β} (hs : inp.Sound) (hx : Reads inp x [] a)
    (hf : Reads inp (f a) bs b) : Reads inp (x >>= f) bs b := by
  simpa using hx.seq hs hf

theorem Reads.last {α β : Type} {inp : Input} {x : DesM α} {f : α → DesM β}
    {bs : List UInt8} {a : α} {b : β} (hs : inp.Sound) (hx : Reads inp x bs a)
    (hf : Reads inp (f a) [] b) : Reads inp (x >>= f) bs b := by
  simpa using hx.seq hs hf

theorem copyIn_ok {inp : Input} {pos : Int} {n : Nat} (h0 : 0 ≤ pos)
    (h : pos + n ≤ inp.buffer.length) :
    copyIn inp n pos = .ok (slice inp.buffer pos.toNat n) (pos + n) := by
  rw [copyIn,Exec.bind_ok (Exec.get_run pos),if_pos ⟨h0,h⟩]
  rfl

theorem takeFundamental_reads {inp : Input} (hs : inp.Sound) (bs : List UInt8) :
    Reads inp (takeFundamental inp bs.length) bs bs := by
  rintro pos ⟨h0,hfit,hsl⟩
  obtain ⟨hlen,hmax⟩ := hs
  have hp : u64 pos = pos.toNat := u64_eq h0 (by omega)
  have hb : u64 inp.bufferLen = inp.bufferLen.toNat := u64_eq (by omega) (by omega)
  rw [takeFundamental,Exec.bind_ok (Exec.get_run pos),if_neg (by rw [hp,hb]; omega),
    copyIn_ok h0 (by omega),hsl]

/-- The two byte orders read the same value. -/
theorem deserializeFundamental_reads {inp : Input} (hs : inp.Sound) (n : Nat)
    (v : BitVec (8 * n)) :
    Reads inp (deserializeFundamental inp n) (leBytes n v.toNat) v := by
  have ht := takeFundamental_reads hs (leBytes n v.toNat)
  rw [leBytes_length] at ht
  have hv := ofNat_leValue_leBytes n v
  cases he : inp.endian with
  | big =>
    have hm := ht.map (fun bs => byteswap n (ofObject .big n bs))
    simp only [byteswap_ofObject_big n _ (leBytes_length n v.toNat),hv] at hm
    simpa only [deserializeFundamental,he] using hm
  | little =>
    have hm := ht.map (ofObject .little n)
    rw [ofObject_little_leBytes] at hm
    simpa only [deserializeFundamental,he] using hm

theorem deserializeBool_reads {inp : Input} (hs : inp.Sound) (b : Bool) :
    Reads inp (deserializeBool inp) (leBytes 1 (boolWord b).toNat) b := by
  have h := (deserializeFundamental_reads hs 1 (boolWord b)).map (fun v => v != 0)
  have hb : (boolWord b != 0) = b := by cases b <;> decide
  rwa [hb] at h

theorem deserializeLength_reads {inp : Input} (hs : inp.Sound) {n : Nat} (h : n < 2 ^ 63) :
    Reads inp (deserializeFundamental inp 8) (leBytes 8 n) (BitVec.ofNat _ n) := by
  have hr := deserializeFundamental_reads hs 8 (BitVec.ofNat _ n)
  rwa [toNat_ofNat h] at hr

theorem request_ok {inp : Input} {n : Nat} (hm : n < 2 ^ 63) (h : n ≤ inp.limit) :
    Reads inp (request inp n) [] () := by
  intro pos _
  have hu : u64 (n : Int) = n := by rw [u64_eq (by omega) (by omega)]; rfl
  rw [request,hu,if_neg (by omega)]
  simp

theorem takeString_reads {inp : Input} (hs : inp.Sound) (s : List UInt8) :
    Reads inp (takeString inp s.length) s s := by
  rintro pos ⟨h0,hfit,hsl⟩
  obtain ⟨hlen,hmax⟩ := hs
  rw [takeString,Exec.bind_ok (Exec.get_run pos),if_neg (by omega),if_neg (by omega)]
  simp only [Int.toNat_natCast]
  rw [copyIn_ok h0 (by omega),hsl]

mutual
theorem deserializeDepth_reads {R : Reflection} (D : Defaults R) {inp : Input} (hs : inp.Sound) :
    {t : Ty R.Name} → (v : Val R t) → (data : Val R t) → (depth : Nat) → nesting v < depth →
      getSerializeSize v < 2 ^ 63 → Fits inp.limit v →
      Reads inp (deserializeDepth D inp depth t data) (encode v) (absorb D data v)
  | _, _, _, 0, hd, _, _ => absurd hd (Nat.not_lt_zero _)
  | .int w, .int v, _, _+1, _, _, _ =>
      (deserializeFundamental_reads hs w.sizeof v).map Val.int
  | .bool, .bool b, _, _+1, _, _, _ => (deserializeBool_reads hs b).map Val.bool
  | .enum u, .enum v, _, _+1, _, _, _ => by
      have h := (deserializeFundamental_reads hs 8 (u.toInt64 v)).map
        (fun v => @Val.enum R u (u.ofInt64 v))
      rwa [u.ofInt64_toInt64] at h
  | .ptr _, .null, _, _+1, _, _, _ => by
      refine (deserializeBool_reads hs true).last hs ?_
      exact Reads.pure inp Val.null
  | .ptr t, .ref v, _, depth+1, hd, hsz, hf => by
      rw [nesting] at hd
      rw [getSerializeSize] at hsz
      exact (deserializeBool_reads hs false).seq hs
        ((deserializeDepth_reads D hs v (Val.fresh D t) depth (by omega) (by omega) hf).map Val.ref)
  | .string, .string s, _, _+1, _, hsz, hf => by
      rw [getSerializeSize] at hsz
      have hn : s.length < 2 ^ 63 := by omega
      refine (deserializeLength_reads hs hn).seq hs ?_
      simp only [toInt_ofNat hn]
      exact (request_ok hn hf).skip hs ((takeString_reads hs s).map Val.string)
  | .vector t, .vector vs, .vector data, depth+1, hd, hsz, hf => by
      rw [nesting] at hd
      rw [getSerializeSize] at hsz
      have hl := length_le_elementsSize vs
      have hn : vs.length < 2 ^ 63 := by omega
      refine (deserializeLength_reads hs hn).seq hs ?_
      simp only [toInt_ofNat hn,Int.toNat_natCast]
      exact (request_ok hn hf.1).skip hs
        ((deserializeElements_reads D hs vs data depth (by omega) (by omega) hf.2).map Val.vector)
  | .struct _, .struct ms, .struct data, depth+1, hd, hsz, hf => by
      rw [nesting] at hd
      exact (deserializeMembers_reads D hs ms data depth (by omega) hsz hf).map Val.struct

theorem deserializeElements_reads {R : Reflection} (D : Defaults R) {inp : Input}
    (hs : inp.Sound) : {t : Ty R.Name} → (vs : Vals R t) → (data : Vals R t) → (depth : Nat) →
      nestingElements vs < depth → elementsSize vs < 2 ^ 63 → FitsElements inp.limit vs →
      Reads inp (deserializeElements (deserializeDepth D inp depth t (Val.fresh D t)) vs.length data)
        (encodeElements vs) (data.append (absorbElements D vs))
  | _, .nil, data, _, _, _, _ => by
      rw [absorbElements,Vals.append_nil]
      exact Reads.pure inp data
  | t, .cons v vs, data, depth, hd, hsz, hf => by
      rw [nestingElements] at hd
      rw [elementsSize] at hsz
      have hv := deserializeDepth_reads D hs v (Val.fresh D t) depth (by omega) (by omega) hf.1
      have hvs := deserializeElements_reads D hs vs (data.pushBack (absorb D (Val.fresh D t) v))
        depth (by omega) (by omega) hf.2
      rw [Vals.pushBack,Vals.append_assoc] at hvs
      exact hv.seq hs hvs

theorem deserializeMembers_reads {R : Reflection} (D : Defaults R) {inp : Input}
    (hs : inp.Sound) : {ts : List (Ty R.Name)} → (ms data : Members R ts) → (depth : Nat) →
      nestingMembers ms < depth → membersSize ms < 2 ^ 63 → FitsMembers inp.limit ms →
      Reads inp (deserializeMembers (deserializeDepth D inp depth) data)
        (encodeMembers ms) (absorbMembers D data ms)
  | _, .nil, .nil, _, _, _, _ => Reads.pure inp Members.nil
  | _, .cons v ms, .cons data datas, depth, hd, hsz, hf => by
      rw [nestingMembers] at hd
      rw [membersSize] at hsz
      have hv := deserializeDepth_reads D hs v data depth (by omega) (by omega) hf.1
      have hms := deserializeMembers_reads D hs ms datas depth (by omega) (by omega) hf.2
      refine hv.seq hs (hms.last hs ?_)
      exact Reads.pure inp (Members.cons _ _)
end

theorem deserialize_reads {R : Reflection} (D : Defaults R) {inp : Input} (hs : inp.Sound)
    {t : Ty R.Name} (v data : Val R t) (hf : Fits inp.limit v) :
    Reads inp (deserialize D inp t data) (encode v) (absorb D data v) := by
  intro pos h
  have hfit := h.2.1
  have h0 := h.1
  have hmax := hs.2
  rw [encode_length] at hfit
  have hroom : getSerializeSize v ≤ (inp.bufferLen - pos).toNat := by omega
  have hn := nesting_le v
  have hm := Nat.mul_le_mul_right (R.height + 2) hroom
  rw [deserialize,Exec.bind_ok (Exec.get_run pos)]
  exact deserializeDepth_reads D hs v data _ (by simp only [depthBound]; omega) (by omega) hf pos h

def RoundTrips {R : Reflection} (D : Defaults R) (sender receiver : Endian) (limit : Nat)
    (buffer : List UInt8) (bufferLen pos : Int) {t : Ty R.Name} (v : Val R t) : Prop :=
  ∃ out : List UInt8,
    serialize sender bufferLen v ⟨buffer,pos⟩ = .ok () ⟨out,pos + getSerializeSize v⟩ ∧
    ∀ inp : Input, inp.Sound → inp.endian = receiver → inp.limit = limit →
      pos + getSerializeSize v ≤ inp.bufferLen →
      slice inp.buffer pos.toNat (getSerializeSize v) =
        slice out pos.toNat (getSerializeSize v) →
      deserialize D inp t (Val.fresh D t) pos = .ok v (pos + getSerializeSize v)

theorem slice_serialized {R : Reflection} {buffer : List UInt8} {bufferLen pos : Int}
    {t : Ty R.Name} (v : Val R t) (h0 : 0 ≤ pos) (hfit : pos + getSerializeSize v ≤ bufferLen)
    (hlen : bufferLen ≤ buffer.length) :
    slice (splice buffer pos.toNat (encode v)) pos.toNat (getSerializeSize v) = encode v := by
  rw [← encode_length v]
  exact slice_splice (by rw [encode_length]; omega)

/-- A value survives the trip exactly when no default constructor on the way has
put elements into a vector that the decoder then appends to. -/
theorem roundTrips_iff_clear {R : Reflection} (D : Defaults R) (sender receiver : Endian)
    (limit : Nat) (buffer : List UInt8) (bufferLen pos : Int) {t : Ty R.Name} (v : Val R t)
    (h0 : 0 ≤ pos) (hfit : pos + getSerializeSize v ≤ bufferLen)
    (hlen : bufferLen ≤ buffer.length) (hmax : bufferLen < 2 ^ 63) (hf : Fits limit v) :
    RoundTrips D sender receiver limit buffer bufferLen pos v ↔ Clear D (Val.fresh D t) v := by
  have hw := serialize_writes sender bufferLen v (by omega) ⟨buffer,pos⟩ h0
    (by rw [encode_length]; exact hfit) hlen hmax
  rw [encode_length] at hw
  have hsl := slice_serialized v h0 hfit hlen
  rw [← absorb_eq_iff]
  constructor
  · rintro ⟨out,hout,hback⟩
    rw [hw] at hout
    cases hout
    have hl : (splice buffer pos.toNat (encode v)).length = buffer.length :=
      splice_length (by rw [encode_length]; omega)
    let inp : Input := ⟨splice buffer pos.toNat (encode v),bufferLen,receiver,limit⟩
    have hs : inp.Sound := ⟨by simp only [inp,hl]; exact hlen,hmax⟩
    have hshow : inp.Shows pos (encode v) :=
      ⟨h0,by rw [encode_length]; exact hfit,by rw [encode_length]; exact hsl⟩
    have hd := deserialize_reads D hs v (Val.fresh D t) hf pos hshow
    rw [hback inp hs rfl rfl hfit rfl] at hd
    exact (EStateM.Result.ok.inj hd).1.symm
  · intro habs
    refine ⟨_,hw,?_⟩
    intro inp hs _ hlim hend hsame
    have hshow : inp.Shows pos (encode v) :=
      ⟨h0,by rw [encode_length]; exact hend,by rw [encode_length,hsame,hsl]⟩
    have hd := deserialize_reads D hs v (Val.fresh D t) (by rw [hlim]; exact hf) pos hshow
    rw [habs,encode_length] at hd
    exact hd

def personReflection : Reflection where
  Name := Unit
  members _ := [.string,.int .w32]
  members_ne _ := by simp
  rank _ := 0
  height := 0
  rank_le := flat_rank_le
  rank_lt _ _ h := by simp at h

def personDefaults : Defaults personReflection :=
  fun _ => .cons (.string []) (.cons (.int 0) .nil)

def person (name : List UInt8) (age : Word .w32) : Val personReflection (.struct ()) :=
  .struct (.cons (.string name) (.cons (.int age) .nil))

theorem person_roundTrips :
    RoundTrips personDefaults .little .big 64 (List.replicate 24 0) 24 3
      (person [99,111,111,108,116,101,110,103] 30) :=
  (roundTrips_iff_clear personDefaults .little .big 64 (List.replicate 24 0) 24 3
    (person [99,111,111,108,116,101,110,103] 30) (by decide)
    (by decide) (by decide) (by decide) ⟨show 8 ≤ 64 by decide,trivial,trivial⟩).mpr
    ⟨trivial,trivial,trivial⟩

def batchReflection : Reflection where
  Name := Unit
  members _ := [.vector (.int .w64)]
  members_ne _ := by simp
  rank _ := 0
  height := 0
  rank_le := flat_rank_le
  rank_lt _ _ h := by simp at h

def batchDefaults : Defaults batchReflection :=
  fun _ => .cons (.vector (.cons (.int 7) .nil)) .nil

def emptyBatch : Val batchReflection (.struct ()) := .struct (.cons (.vector .nil) .nil)

/-- An empty batch fits the buffer and comes back holding the 7 of its constructor. -/
theorem emptyBatch_not_roundTrips :
    getSerializeSize emptyBatch ≤ 8 ∧ Fits 64 emptyBatch ∧
      ¬ RoundTrips batchDefaults .little .little 64 (List.replicate 8 0) 8 0 emptyBatch := by
  refine ⟨by decide,⟨⟨show 0 ≤ 64 by decide,trivial⟩,trivial⟩,?_⟩
  rintro ⟨out,hout,hback⟩
  have hzero : serialize .little 8 emptyBatch ⟨List.replicate 8 0,0⟩ =
      .ok () ⟨List.replicate 8 0,8⟩ := rfl
  rw [hzero] at hout
  cases hout
  have hd := hback ⟨List.replicate 8 0,8,.little,64⟩ ⟨by decide,by decide⟩ rfl rfl
    (by decide) rfl
  have hseven : deserialize batchDefaults ⟨List.replicate 8 0,8,.little,64⟩ (.struct ())
      (Val.fresh batchDefaults (.struct ())) 0 =
      .ok (.struct (.cons (.vector (.cons (.int 7) .nil)) .nil)) 8 := rfl
  rw [hseven] at hd
  cases hd

end NewRpc.Codec
