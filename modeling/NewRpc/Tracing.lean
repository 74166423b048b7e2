import NewRpc.Acceptance
import NewRpc.Logged

/-!
The decoder once more, with a log of what it copies, what it asks the library for and
which signed sums it forms.
-/

set_option autoImplicit false

namespace NewRpc.Codec.Traced
open Bytes

/-- `copy` is a `memcpy` out of the input, `request` the argument of `resize` or `reserve`
with the position behind its length prefix, and `sum` an addition in `int64_t`. -/
inductive Access where
  | copy (pos : Int) (n : Nat)
  | request (pos size : Int)
  | sum (a b : Int)
  deriving DecidableEq, Repr

abbrev TraceM := Logged Access Fault Int

def copyIn (inp : Input) (n : Nat) : TraceM (List UInt8) := do
  Logged.note (fun pos => .copy pos n)
  Logged.note (fun pos => .sum pos n)
  Logged.lift (Codec.copyIn inp n)

def takeFundamental (inp : Input) (n : Nat) : TraceM (List UInt8) := do
  let pos ← Logged.lift get
  if u64 inp.bufferLen < (u64 pos + n) % 2 ^ 64 then Logged.lift (throw .outOfRange)
  else copyIn inp n

def deserializeFundamental (inp : Input) (n : Nat) : TraceM (BitVec (8 * n)) :=
  match inp.endian with
  | .big => (fun bs => byteswap n (ofObject .big n bs)) <$> takeFundamental inp n
  | .little => ofObject .little n <$> takeFundamental inp n

def deserializeBool (inp : Input) : TraceM Bool :=
  (fun v => v != 0) <$> deserializeFundamental inp 1

def request (inp : Input) (size : Int) : TraceM Unit := do
  Logged.note (fun pos => .request pos size)
  Logged.lift (Codec.request inp size)

def takeString (inp : Input) (strLen : Int) : TraceM (List UInt8) := do
  let pos ← Logged.lift get
  Logged.note (fun pos => .sum pos strLen)
  if pos + strLen < -2 ^ 63 ∨ 2 ^ 63 ≤ pos + strLen then Logged.lift (throw .overflow)
  else if inp.bufferLen < pos + strLen then Logged.lift (throw .outOfRange)
  else copyIn inp strLen.toNat

def deserializeElements {R : Reflection} {t : Ty R.Name} (element : TraceM (Val R t)) :
    Nat → Vals R t → TraceM (Vals R t)
  | 0, data => pure data
  | n+1, data => do
      let v ← element
      deserializeElements element n (data.pushBack v)

def deserializeMembers {R : Reflection}
    (member : (t : Ty R.Name) → Val R t → TraceM (Val R t)) :
    {ts : List (Ty R.Name)} → Members R ts → TraceM (Members R ts)
  | _, .nil => pure .nil
  | _, .cons v ms => do
      let v ← member _ v
      let ms ← deserializeMembers member ms
      pure (.cons v ms)

def deserializeDepth {R : Reflection} (D : Defaults R) (inp : Input) :
    Nat → (t : Ty R.Name) → Val R t → TraceM (Val R t)
  | 0, _, _ => Logged.lift (throw .depth)
  | _+1, .int w, _ => Val.int <$> deserializeFundamental inp w.sizeof
  | _+1, .bool, _ => Val.bool <$> deserializeBool inp
  | _+1, .enum u, _ => (fun v => Val.enum (u.ofInt64 v)) <$> deserializeFundamental inp 8
  | depth+1, .ptr t, _ => do
      let isNullPtr ← deserializeBool inp
      if isNullPtr then pure .null
      else Val.ref <$> deserializeDepth D inp depth t (Val.fresh D t)
  | _+1, .string, _ => do
      let strLen ← deserializeFundamental inp 8
      request inp strLen.toInt
      Val.string <$> takeString inp strLen.toInt
  | depth+1, .vector t, .vector data => do
      let size ← deserializeFundamental inp 8
      request inp size.toInt
      Val.vector <$> deserializeElements (deserializeDepth D inp depth t (Val.fresh D t))
        size.toInt.toNat data
  | depth+1, .struct _, .struct ms =>
      Val.struct <$> deserializeMembers (deserializeDepth D inp depth) ms

def deserialize {R : Reflection} (D : Defaults R) (inp : Input) (t : Ty R.Name)
    (data : Val R t) : TraceM (Val R t) := do
  let pos ← Logged.lift get
  deserializeDepth D inp (depthBound (inp.bufferLen - pos).toNat t) t data

@[simp] theorem copyIn_erase (inp : Input) (n : Nat) :
    (copyIn inp n).erase = Codec.copyIn inp n := by
  simp [copyIn]

@[simp] theorem takeFundamental_erase (inp : Input) (n : Nat) :
    (takeFundamental inp n).erase = Codec.takeFundamental inp n := by
  simp [takeFundamental,Codec.takeFundamental]

@[simp] theorem deserializeFundamental_erase (inp : Input) (n : Nat) :
    (deserializeFundamental inp n).erase = Codec.deserializeFundamental inp n := by
  unfold deserializeFundamental Codec.deserializeFundamental
  cases inp.endian <;> simp

@[simp] theorem deserializeBool_erase (inp : Input) :
    (deserializeBool inp).erase = Codec.deserializeBool inp := by
  simp only [deserializeBool,Codec.deserializeBool,Logged.erase_map,deserializeFundamental_erase]

@[simp] theorem request_erase (inp : Input) (size : Int) :
    (request inp size).erase = Codec.request inp size := by
  simp [request]

@[simp] theorem takeString_erase (inp : Input) (strLen : Int) :
    (takeString inp strLen).erase = Codec.takeString inp strLen := by
  simp [takeString,Codec.takeString]

theorem deserializeElements_erase {R : Reflection} {t : Ty R.Name} {element : TraceM (Val R t)}
    (n : Nat) (data : Vals R t) : (deserializeElements element n data).erase =
      Codec.deserializeElements element.erase n data := by
  induction n generalizing data with
  | zero => rfl
  | succ n ih => simp [deserializeElements,Codec.deserializeElements,ih]

theorem deserializeMembers_erase {R : Reflection}
    {member : (t : Ty R.Name) → Val R t → TraceM (Val R t)} {ts : List (Ty R.Name)}
    (ms : Members R ts) : (deserializeMembers member ms).erase =
      Codec.deserializeMembers (fun t v => (member t v).erase) ms := by
  induction ts with
  | nil =>
    cases ms
    rfl
  | cons t ts ih =>
    cases ms with
    | cons v ms => simp [deserializeMembers,Codec.deserializeMembers,ih ms]

theorem deserializeDepth_erase {R : Reflection} (D : Defaults R) (inp : Input) (depth : Nat) :
    ∀ (t : Ty R.Name) (data : Val R t), (deserializeDepth D inp depth t data).erase =
      Codec.deserializeDepth D inp depth t data := by
  induction depth with
  | zero => intro t data; rfl
  | succ depth ih =>
    intro t data
    cases t with
    | int w => simp [deserializeDepth,Codec.deserializeDepth]
    | bool => simp [deserializeDepth,Codec.deserializeDepth]
    | enum u => simp [deserializeDepth,Codec.deserializeDepth]
    | ptr t => simp [deserializeDepth,Codec.deserializeDepth,ih]
    | string => simp only [deserializeDepth,Codec.deserializeDepth,Logged.erase_bind,
        Logged.erase_map,deserializeFundamental_erase,request_erase,takeString_erase]
    | vector t =>
      cases data
      simp only [deserializeDepth,Codec.deserializeDepth,Logged.erase_bind,Logged.erase_map,
        deserializeFundamental_erase,request_erase,deserializeElements_erase,ih]
    | struct s =>
      cases data
      simp [deserializeDepth,Codec.deserializeDepth,deserializeMembers_erase,ih]

theorem deserialize_erase {R : Reflection} (D : Defaults R) (inp : Input) (t : Ty R.Name)
    (data : Val R t) : (deserialize D inp t data).erase = Codec.deserialize D inp t data := by
  simp [deserialize,Codec.deserialize,deserializeDepth_erase]

def Access.Within (inp : Input) (start : Int) : Access → Prop
  | .copy pos n => start ≤ pos ∧ pos + n ≤ inp.bufferLen
  | .request _ _ => True
  | .sum a b => -2 ^ 63 ≤ a + b ∧ a + b < 2 ^ 63

theorem Input.Safe.limit_lt {inp : Input} (hs : inp.Safe) {pos : Int} (h0 : 0 ≤ pos)
    (h : pos ≤ inp.bufferLen) : inp.limit < 2 ^ 63 := by
  have ha := hs.addressable
  omega

section
variable {inp : Input} {start pos : Int}

theorem copyIn_within (hs : inp.Sound) {n : Nat} (h0 : 0 ≤ pos) (hstart : start ≤ pos)
    (h : pos + n ≤ inp.bufferLen) : (copyIn inp n).All (Access.Within inp start) pos := by
  have hmax := hs.2
  refine (Logged.all_note_iff.mpr ⟨hstart,h⟩).bind (fun _ q hq => ?_)
  cases hq
  refine (Logged.all_note_iff.mpr ⟨by omega,by omega⟩).bind (fun _ q hq => ?_)
  exact Logged.all_lift _

theorem takeFundamental_within (hs : inp.Sound) {n : Nat} (hn : n ≤ 8) (h0 : 0 ≤ pos)
    (hstart : start ≤ pos) (h : pos ≤ inp.bufferLen) :
    (takeFundamental inp n).All (Access.Within inp start) pos := by
  have hmax := hs.2
  refine (Logged.all_lift _).bind (fun q r hq => ?_)
  cases hq
  by_cases hc : u64 inp.bufferLen < (u64 pos + n) % 2 ^ 64
  · rw [if_pos hc]
    exact Logged.all_lift _
  · rw [if_neg hc]
    rw [u64_eq h0 (by omega),u64_eq (by omega) (by omega)] at hc
    exact copyIn_within hs h0 hstart (by omega)

theorem deserializeFundamental_within (hs : inp.Sound) {n : Nat} (hn : n ≤ 8) (h0 : 0 ≤ pos)
    (hstart : start ≤ pos) (h : pos ≤ inp.bufferLen) :
    (deserializeFundamental inp n).All (Access.Within inp start) pos := by
  unfold deserializeFundamental
  cases inp.endian with
  | big => exact Logged.all_map_iff.mpr (takeFundamental_within hs hn h0 hstart h)
  | little => exact Logged.all_map_iff.mpr (takeFundamental_within hs hn h0 hstart h)

theorem takeString_within (hs : inp.Safe) {strLen : Int} (hlo : 0 ≤ strLen)
    (hhi : strLen ≤ inp.limit) (h0 : 0 ≤ pos) (hstart : start ≤ pos) (h : pos ≤ inp.bufferLen) :
    (takeString inp strLen).All (Access.Within inp start) pos := by
  have ha := hs.addressable
  refine (Logged.all_lift _).bind (fun q r hq => ?_)
  cases hq
  refine (Logged.all_note_iff.mpr ⟨by omega,by omega⟩).bind (fun _ q hq => ?_)
  cases hq
  rw [if_neg (by omega)]
  by_cases hc : inp.bufferLen < pos + strLen
  · rw [if_pos hc]
    exact Logged.all_lift _
  · rw [if_neg hc]
    exact copyIn_within hs.sound h0 hstart (by omega)

theorem request_within (size : Int) : (request inp size).All (Access.Within inp start) pos :=
  (Logged.all_note_iff.mpr trivial).bind (fun _ _ _ => Logged.all_lift _)

theorem deserializeElements_all {R : Reflection} {t : Ty R.Name} {P : Access → Prop}
    {element : TraceM (Val R t)}
    (he : ∀ q, start ≤ q → q ≤ inp.bufferLen → element.All P q ∧ ∀ v q',
      element.erase q = .ok v q' → q ≤ q' ∧ q' ≤ inp.bufferLen) (n : Nat) (data : Vals R t)
    (hstart : start ≤ pos) (h : pos ≤ inp.bufferLen) :
    (deserializeElements element n data).All P pos := by
  induction n generalizing data pos with
  | zero => exact Logged.all_pure _
  | succ n ih =>
    obtain ⟨hall,hnext⟩ := he pos hstart h
    refine hall.bind (fun v q hq => ?_)
    obtain ⟨hlo,hhi⟩ := hnext v q hq
    exact ih (data.pushBack v) (by omega) hhi

theorem deserializeMembers_all {R : Reflection} {P : Access → Prop}
    {member : (t : Ty R.Name) → Val R t → TraceM (Val R t)}
    (hm : ∀ t data q, start ≤ q → q ≤ inp.bufferLen → (member t data).All P q ∧ ∀ v q',
      (member t data).erase q = .ok v q' → q ≤ q' ∧ q' ≤ inp.bufferLen) :
    {ts : List (Ty R.Name)} → (ms : Members R ts) → (pos : Int) → start ≤ pos →
      pos ≤ inp.bufferLen → (deserializeMembers member ms).All P pos
  | _, .nil, _, _, _ => Logged.all_pure _
  | _, .cons v ms, pos, hstart, h => by
      obtain ⟨hall,hnext⟩ := hm _ v pos hstart h
      refine hall.bind (fun w q hq => ?_)
      obtain ⟨hlo,hhi⟩ := hnext w q hq
      exact (deserializeMembers_all hm ms q (by omega) hhi).bind (fun _ _ _ => Logged.all_pure _)

theorem deserializeDepth_range {R : Reflection} {D : Defaults R} (hs : inp.Sound)
    (hl : inp.limit < 2 ^ 63) {depth : Nat} {t : Ty R.Name} {data w : Val R t} {pos' : Int}
    (h0 : 0 ≤ pos) (h : pos ≤ inp.bufferLen)
    (hr : (deserializeDepth D inp depth t data).erase pos = .ok w pos') :
    pos ≤ pos' ∧ pos' ≤ inp.bufferLen := by
  rw [deserializeDepth_erase] at hr
  obtain ⟨v,hv⟩ := deserializeDepth_accepts D inp depth t data pos w pos' hr
  exact hv.takes.range hs hl h0 h

theorem deserializeDepth_within {R : Reflection} (D : Defaults R) (hs : inp.Safe)
    (hfrom : 0 ≤ start) (depth : Nat) : ∀ (t : Ty R.Name) (data : Val R t) (pos : Int),
      start ≤ pos → pos ≤ inp.bufferLen →
      (deserializeDepth D inp depth t data).All (Access.Within inp start) pos := by
  induction depth with
  | zero => intro t data pos _ _; exact Logged.all_lift _
  | succ depth ih =>
    intro t data pos hstart h
    have h0 : 0 ≤ pos := by omega
    have hl := Input.Safe.limit_lt hs h0 h
    have hfund : ∀ n, n ≤ 8 → (deserializeFundamental inp n).All (Access.Within inp start) pos :=
      fun n hn => deserializeFundamental_within hs.sound hn h0 hstart h
    have hnested : ∀ (u : Ty R.Name) (d : Val R u) (q : Int), start ≤ q → q ≤ inp.bufferLen →
        (deserializeDepth D inp depth u d).All (Access.Within inp start) q ∧ ∀ v q',
          (deserializeDepth D inp depth u d).erase q = .ok v q' → q ≤ q' ∧ q' ≤ inp.bufferLen :=
      fun u d q hq hq' => ⟨ih u d q hq hq',fun v q' hr =>
        deserializeDepth_range hs.sound hl (by omega) hq' hr⟩
    cases t with
    | int w => exact Logged.all_map_iff.mpr (hfund w.sizeof w.sizeof_le)
    | bool => exact Logged.all_map_iff.mpr (Logged.all_map_iff.mpr (hfund 1 (by omega)))
    | enum u => exact Logged.all_map_iff.mpr (hfund 8 (by omega))
    | ptr t =>
      refine (Logged.all_map_iff.mpr (hfund 1 (by omega))).bind (fun isNullPtr q hq => ?_)
      rw [← deserializeBool,deserializeBool_erase] at hq
      obtain ⟨hlo,hhi⟩ := (deserializeBool_takes hq).range hs.sound hl h0 h
      cases isNullPtr with
      | true => exact Logged.all_pure _
      | false => exact Logged.all_map_iff.mpr (ih t _ q (by omega) hhi)
    | string =>
      refine (hfund 8 (by omega)).bind (fun strLen q hq => ?_)
      rw [deserializeFundamental_erase] at hq
      obtain ⟨hlo,hhi⟩ := (deserializeFundamental_takes (by omega) hq).range hs.sound hl h0 h
      refine (request_within _).bind (fun _ q' hq' => ?_)
      rw [request_erase] at hq'
      obtain ⟨rfl,hsize⟩ := request_size hq'
      obtain ⟨hnonneg,hlimit,_⟩ := hsize hl
      exact Logged.all_map_iff.mpr
        (takeString_within hs hnonneg (by omega) (by omega) (by omega) hhi)
    | vector t =>
      cases data with
      | vector data =>
        refine (hfund 8 (by omega)).bind (fun size q hq => ?_)
        rw [deserializeFundamental_erase] at hq
        obtain ⟨hlo,hhi⟩ := (deserializeFundamental_takes (by omega) hq).range hs.sound hl h0 h
        refine (request_within _).bind (fun _ q' hq' => ?_)
        rw [request_erase] at hq'
        obtain ⟨rfl,_⟩ := request_size hq'
        exact Logged.all_map_iff.mpr
          (deserializeElements_all (hnested t _) _ data (by omega) hhi)
    | struct s =>
      cases data with
      | struct ms =>
        exact Logged.all_map_iff.mpr (deserializeMembers_all hnested ms pos hstart h)

end

/-- From any position in any input: the decoder throws one of its exceptions or ends in the
input, and what it copies and adds on the way stays inside. -/
theorem deserialize_safe {R : Reflection} (D : Defaults R) {inp : Input} (hs : inp.Safe)
    (t : Ty R.Name) (data : Val R t) {pos : Int} (h0 : 0 ≤ pos) (h : pos ≤ inp.bufferLen) :
    (deserialize D inp t data).erase = Codec.deserialize D inp t data ∧
      Stays inp 0 (Codec.deserialize D inp t data) pos ∧
      (deserialize D inp t data).All (Access.Within inp pos) pos := by
  refine ⟨deserialize_erase D inp t data,deserialize_stays D hs t data h0 h,?_⟩
  refine (Logged.all_lift _).bind (fun q r hq => ?_)
  cases hq
  exact deserializeDepth_within D hs h0 _ t data pos (Int.le_refl _) h

def cutShort : Input := ⟨[200,0,0,0,0,0,0,0,65,66,67],11,.little,64⟩

theorem cutShort_safe :
    Stays cutShort 0 (Codec.deserialize personDefaults cutShort (.struct ()) (person [] 0)) 0 ∧
      (deserialize personDefaults cutShort (.struct ()) (person [] 0)).All
        (Access.Within cutShort 0) 0 :=
  (deserialize_safe personDefaults ⟨⟨by decide,by decide⟩,by decide⟩ (.struct ()) (person [] 0)
    (by decide) (by decide)).2

end NewRpc.Codec.Traced
