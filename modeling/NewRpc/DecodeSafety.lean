import NewRpc.RoundTrip

/-!
Decoding arbitrary bytes: the decoder throws one of its exceptions or stops
inside the input, and never runs out of depth.
-/

set_option autoImplicit false

namespace NewRpc.Codec
open Bytes

/-- `std::out_of_range`, and what `resize` and `reserve` throw. -/
def Fault.isException : Fault → Bool
  | .outOfRange => true
  | .lengthError => true
  | _ => false

/-- No position inside the input plus a length the library accepts overflows. -/
structure Input.Safe (inp : Input) : Prop where
  sound : inp.Sound
  addressable : inp.bufferLen + inp.limit < 2 ^ 63

/-- From `pos` on, `x` throws, or returns inside the input at least `k` bytes on. -/
def Stays {α : Type} (inp : Input) (k : Nat) (x : DesM α) (pos : Int) : Prop :=
  match x pos with
  | .ok _ pos' => pos + k ≤ pos' ∧ pos' ≤ inp.bufferLen
  | .error e _ => e.isException = true

theorem Stays.ok {α : Type} {inp : Input} {k : Nat} {x : DesM α} {pos pos' : Int} {a : α}
    (h : Stays inp k x pos) (hx : x pos = .ok a pos') :
    pos + k ≤ pos' ∧ pos' ≤ inp.bufferLen := by
  simpa only [Stays,hx] using h

theorem Stays.error {α : Type} {inp : Input} {k : Nat} {x : DesM α} {pos pos' : Int} {e : Fault}
    (h : Stays inp k x pos) (hx : x pos = .error e pos') : e.isException = true := by
  simpa only [Stays,hx] using h

theorem Stays.pure {α : Type} {inp : Input} {pos : Int} (a : α) (h : pos ≤ inp.bufferLen) :
    Stays inp 0 (Pure.pure a) pos := by
  simpa [Stays] using h

theorem Stays.map {α β : Type} {inp : Input} {k : Nat} {x : DesM α} {pos : Int} (f : α → β)
    (h : Stays inp k x pos) : Stays inp k (f <$> x) pos := by
  unfold Stays
  cases hx : x pos with
  | ok a pos' =>
    rw [Exec.map_ok hx]
    exact h.ok hx
  | error e pos' =>
    rw [Exec.map_eq_error.mpr hx]
    exact h.error hx

theorem Stays.bind {α β : Type} {inp : Input} {k : Nat} {x : DesM α} {f : α → DesM β}
    {pos : Int} (hx : Stays inp k x pos)
    (hf : ∀ a pos', x pos = .ok a pos' → pos + k ≤ pos' → pos' ≤ inp.bufferLen →
      Stays inp 0 (f a) pos') : Stays inp k (x >>= f) pos := by
  unfold Stays
  cases hr : x pos with
  | ok a pos' =>
    rw [Exec.bind_ok hr]
    obtain ⟨hlo,hhi⟩ := hx.ok hr
    have ha := hf a pos' hr hlo hhi
    cases hb : f a pos' with
    | ok b pos'' =>
      have hb' := ha.ok hb
      exact ⟨by omega,hb'.2⟩
    | error e pos'' => exact ha.error hb
  | error e pos' =>
    rw [Exec.bind_error hr]
    exact hx.error hr

theorem Stays.weaken {α : Type} {inp : Input} {j k : Nat} {x : DesM α} {pos : Int}
    (h : Stays inp k x pos) (hjk : j ≤ k) : Stays inp j x pos := by
  unfold Stays
  cases hx : x pos with
  | ok a pos' =>
    have ho := h.ok hx
    exact ⟨by omega,ho.2⟩
  | error e pos' => exact h.error hx

theorem takeFundamental_stays {inp : Input} (hs : inp.Safe) (n : Nat) (hn : n ≤ 8) {pos : Int}
    (h0 : 0 ≤ pos) (h : pos ≤ inp.bufferLen) : Stays inp n (takeFundamental inp n) pos := by
  have hsound := hs.sound
  have hmax := hsound.2
  have hlen := hsound.1
  have hp : u64 pos = pos.toNat := u64_eq h0 (by omega)
  have hb : u64 inp.bufferLen = inp.bufferLen.toNat := u64_eq (by omega) (by omega)
  rw [Stays,takeFundamental,Exec.bind_ok (Exec.get_run pos),hp,hb]
  by_cases hc : inp.bufferLen.toNat < (pos.toNat + n) % 2 ^ 64
  · rw [if_pos hc]
    rfl
  · rw [if_neg hc,copyIn_ok h0 (by omega)]
    exact ⟨by omega,by omega⟩

theorem deserializeFundamental_stays {inp : Input} (hs : inp.Safe) (n : Nat) (hn : n ≤ 8)
    {pos : Int} (h0 : 0 ≤ pos) (h : pos ≤ inp.bufferLen) :
    Stays inp n (deserializeFundamental inp n) pos := by
  have ht := takeFundamental_stays hs n hn h0 h
  unfold deserializeFundamental
  cases inp.endian with
  | little => exact ht.map _
  | big => exact ht.map _

theorem request_stays {inp : Input} (size : Int) {pos : Int} (h : pos ≤ inp.bufferLen) :
    Stays inp 0 (request inp size) pos := by
  unfold request
  by_cases hc : inp.limit < u64 size
  · rw [if_pos hc]
    exact (rfl : Fault.lengthError.isException = true)
  · rw [if_neg hc]
    exact Stays.pure () h

/-- What passes `request` is a length the library accepts. -/
theorem request_eq_ok {inp : Input} (hs : inp.Safe) {size : I64} {pos pos' : Int}
    (hpos : 0 ≤ inp.bufferLen) (h : request inp size.toInt pos = .ok () pos') :
    0 ≤ size.toInt ∧ size.toInt ≤ inp.limit := by
  have ha := hs.addressable
  have hlo := size.le_toInt
  have hhi := size.toInt_lt
  unfold request at h
  by_cases hc : inp.limit < u64 size.toInt
  · rw [if_pos hc] at h
    cases h
  · simp only [u64] at hc
    exact ⟨by omega,by omega⟩

theorem takeString_stays {inp : Input} (hs : inp.Safe) {strLen pos : Int} (hlo : 0 ≤ strLen)
    (hhi : strLen ≤ inp.limit) (h0 : 0 ≤ pos) (h : pos ≤ inp.bufferLen) :
    Stays inp 0 (takeString inp strLen) pos := by
  have hsound := hs.sound
  have hlen := hsound.1
  have ha := hs.addressable
  rw [Stays,takeString,Exec.bind_ok (Exec.get_run pos),if_neg (by omega)]
  by_cases hc : inp.bufferLen < pos + strLen
  · rw [if_pos hc]
    rfl
  · rw [if_neg hc,copyIn_ok h0 (by omega)]
    exact ⟨by omega,by omega⟩

theorem deserializeElements_stays {R : Reflection} {t : Ty R.Name} {inp : Input}
    {element : DesM (Val R t)} {start : Int}
    (he : ∀ pos, start ≤ pos → pos ≤ inp.bufferLen → Stays inp 0 element pos) (n : Nat)
    (data : Vals R t) {pos : Int} (h0 : start ≤ pos) (h : pos ≤ inp.bufferLen) :
    Stays inp 0 (deserializeElements element n data) pos := by
  induction n generalizing data pos with
  | zero => exact Stays.pure data h
  | succ n ih =>
    exact (he pos h0 h).bind (fun v pos' _ hlo hhi => ih (data.pushBack v) (by omega) hhi)

theorem deserializeMembers_stays {R : Reflection} {inp : Input}
    {member : (t : Ty R.Name) → Val R t → DesM (Val R t)} {start : Int} :
    {ts : List (Ty R.Name)} → (ms : Members R ts) →
      (∀ t ∈ ts, ∀ v pos, start ≤ pos → pos ≤ inp.bufferLen → Stays inp 0 (member t v) pos) →
      (pos : Int) → start ≤ pos → pos ≤ inp.bufferLen →
      Stays inp 0 (deserializeMembers member ms) pos
  | _, .nil, _, _, _, h => Stays.pure _ h
  | t :: ts, .cons v ms, hm, pos, h0, h => by
      refine (hm t (by simp) v pos h0 h).bind (fun v' pos' _ hlo hhi => ?_)
      refine (deserializeMembers_stays ms (fun u hu => hm u (by simp [hu])) pos' (by omega)
        hhi).bind (fun ms' pos'' _ _ hhi' => ?_)
      exact Stays.pure _ hhi'

/-- After one byte the rest of the input leaves depth for any type. -/
theorem depth_paid {R : Reflection} {inp : Input} {depth : Nat} (t u : Ty R.Name) {pos pos' : Int}
    (hlo : pos + 1 ≤ pos') (hhi : pos' ≤ inp.bufferLen)
    (hd : (inp.bufferLen - pos).toNat * (R.height + 2) + u.inner < depth + 1) :
    (inp.bufferLen - pos').toNat * (R.height + 2) + t.inner < depth := by
  have ht := inner_le t
  have hle : (inp.bufferLen - pos').toNat + 1 ≤ (inp.bufferLen - pos).toNat := by omega
  have hm := Nat.mul_le_mul_right (R.height + 2) hle
  rw [Nat.add_mul] at hm
  omega

/-- A member of a struct costs one chain less, wherever in the input it begins. -/
theorem depth_member {R : Reflection} {inp : Input} {depth : Nat} {s : R.Name} {t : Ty R.Name}
    (ht : t ∈ R.members s) {pos pos' : Int} (hlo : pos ≤ pos')
    (hd : (inp.bufferLen - pos).toNat * (R.height + 2) + (Ty.struct s).inner < depth + 1) :
    (inp.bufferLen - pos').toNat * (R.height + 2) + t.inner < depth := by
  have hin := inner_le_of_mem ht
  have hle : (inp.bufferLen - pos').toNat ≤ (inp.bufferLen - pos).toNat := by omega
  have hm := Nat.mul_le_mul_right (R.height + 2) hle
  simp only [Ty.inner] at hd
  omega

/-- Depth is never missing: each byte consumed pays for one more chain of structs. -/
theorem deserializeDepth_stays {R : Reflection} (D : Defaults R) {inp : Input} (hs : inp.Safe)
    (depth : Nat) : ∀ (t : Ty R.Name) (data : Val R t) (pos : Int), 0 ≤ pos →
      pos ≤ inp.bufferLen → (inp.bufferLen - pos).toNat * (R.height + 2) + t.inner < depth →
      Stays inp 0 (deserializeDepth D inp depth t data) pos := by
  induction depth with
  | zero => intro t data pos _ _ hd; exact absurd hd (Nat.not_lt_zero _)
  | succ depth ih =>
    intro t data pos h0 h hd
    cases t with
    | int w =>
      have hi := deserializeFundamental_stays hs w.sizeof w.sizeof_le h0 h
      exact (hi.map Val.int).weaken (Nat.zero_le _)
    | bool =>
      have hb := (deserializeFundamental_stays hs 1 (by omega) h0 h).map (fun v => v != 0)
      exact (hb.map Val.bool).weaken (Nat.zero_le _)
    | enum u =>
      have he := deserializeFundamental_stays hs 8 (by omega) h0 h
      exact (he.map (fun v => Val.enum (u.ofInt64 v))).weaken (Nat.zero_le _)
    | ptr t =>
      have hb : Stays inp 1 (deserializeBool inp) pos :=
        (deserializeFundamental_stays hs 1 (by omega) h0 h).map (fun v => v != 0)
      refine (hb.bind (fun isNullPtr pos' _ hlo hhi => ?_)).weaken (Nat.zero_le _)
      cases isNullPtr with
      | true => exact Stays.pure Val.null hhi
      | false =>
        exact (ih t (Val.fresh D t) pos' (by omega) hhi (depth_paid t _ hlo hhi hd)).map Val.ref
    | string =>
      have hl := deserializeFundamental_stays hs 8 (by omega) h0 h
      refine (hl.bind (fun strLen pos' _ hlo hhi => ?_)).weaken (Nat.zero_le _)
      refine (request_stays strLen.toInt hhi).bind (fun _ pos'' hr hlo' hhi' => ?_)
      obtain ⟨hnonneg,hlimit⟩ := request_eq_ok hs (by omega) hr
      exact (takeString_stays hs hnonneg hlimit (by omega) hhi').map Val.string
    | vector t =>
      cases data with
      | vector vs =>
        have hl := deserializeFundamental_stays hs 8 (by omega) h0 h
        refine (hl.bind (fun size pos' _ hlo hhi => ?_)).weaken (Nat.zero_le _)
        refine (request_stays size.toInt hhi).bind (fun _ pos'' _ hlo' hhi' => ?_)
        refine (deserializeElements_stays (fun q (hq : pos'' ≤ q) hq' => ?_) _ vs
          (Int.le_refl _) hhi').map Val.vector
        exact ih t (Val.fresh D t) q (by omega) hq' (depth_paid t _ (by omega) hq' hd)
    | struct s =>
      cases data with
      | struct ms =>
        refine (deserializeMembers_stays ms (fun t ht v q hq hq' => ?_) pos (Int.le_refl _) h).map
          Val.struct
        exact ih t v q (by omega) hq' (depth_member ht hq hd)

theorem deserialize_stays {R : Reflection} (D : Defaults R) {inp : Input} (hs : inp.Safe)
    (t : Ty R.Name) (data : Val R t) {pos : Int} (h0 : 0 ≤ pos) (h : pos ≤ inp.bufferLen) :
    Stays inp 0 (deserialize D inp t data) pos := by
  have hd := deserializeDepth_stays D hs (depthBound (inp.bufferLen - pos).toNat t) t data pos h0 h
    (by simp only [depthBound]; omega)
  rwa [Stays,deserialize,Exec.bind_ok (Exec.get_run pos)]

end NewRpc.Codec
