import NewRpc.Tracing

/-!
What the decoder asks the library for, before it has compared it with what is left of the
input.
-/

set_option autoImplicit false

namespace NewRpc.Codec
open Bytes

def Input.rest (inp : Input) (pos : Int) : List UInt8 :=
  slice inp.buffer pos.toNat (inp.bufferLen - pos).toNat

def Begins {R : Reflection} (limit : Nat) (t : Ty R.Name) (bs : List UInt8) : Prop :=
  ∃ v : Val R t, ∃ as cs, bs = as ++ cs ∧ Spells v as ∧ Fits limit v

mutual
/-- Bytes that end before the value does, not among the characters of a string, and with
every vector that was begun no longer than the bytes behind its length. A length within
them may still be more than the library accepts. -/
inductive CutOff {R : Reflection} (limit : Nat) : Ty R.Name → List UInt8 → Prop where
  | int {w : Width} {bs : List UInt8} (h : bs.length < w.sizeof) : CutOff limit (.int w) bs
  | bool {bs : List UInt8} (h : bs.length < 1) : CutOff limit .bool bs
  | enum {u : Underlying} {bs : List UInt8} (h : bs.length < 8) : CutOff limit (.enum u) bs
  | flag {t : Ty R.Name} {bs : List UInt8} (h : bs.length < 1) : CutOff limit (.ptr t) bs
  | ref {t : Ty R.Name} {bs : List UInt8} (h : CutOff limit t bs) :
      CutOff limit (.ptr t) (leBytes 1 (boolWord false).toNat ++ bs)
  | strLen {bs : List UInt8} (h : bs.length < 8) : CutOff limit .string bs
  | longString {n : Nat} {bs : List UInt8} (hn : n ≤ bs.length) (h : limit < n) :
      CutOff limit .string (leBytes 8 n ++ bs)
  | size {t : Ty R.Name} {bs : List UInt8} (h : bs.length < 8) : CutOff limit (.vector t) bs
  | longVector {t : Ty R.Name} {n : Nat} {bs : List UInt8} (hn : n ≤ bs.length) (h : limit < n) :
      CutOff limit (.vector t) (leBytes 8 n ++ bs)
  | vector {t : Ty R.Name} {n : Nat} {bs : List UInt8} (hn : n ≤ bs.length)
      (h : CutOffElements limit t n bs) : CutOff limit (.vector t) (leBytes 8 n ++ bs)
  | struct {s : R.Name} {bs : List UInt8} (h : CutOffMembers limit (R.members s) bs) :
      CutOff limit (.struct s) bs

inductive CutOffElements {R : Reflection} (limit : Nat) :
    Ty R.Name → Nat → List UInt8 → Prop where
  | here {t : Ty R.Name} {n : Nat} {bs : List UInt8} (h : CutOff limit t bs) :
      CutOffElements limit t (n + 1) bs
  | later {t : Ty R.Name} {n : Nat} {v : Val R t} {as bs : List UInt8} (hv : Spells v as)
      (hf : Fits limit v) (h : CutOffElements limit t n bs) :
      CutOffElements limit t (n + 1) (as ++ bs)

inductive CutOffMembers {R : Reflection} (limit : Nat) :
    List (Ty R.Name) → List UInt8 → Prop where
  | here {t : Ty R.Name} {ts : List (Ty R.Name)} {bs : List UInt8} (h : CutOff limit t bs) :
      CutOffMembers limit (t :: ts) bs
  | later {t : Ty R.Name} {ts : List (Ty R.Name)} {v : Val R t} {as bs : List UInt8}
      (hv : Spells v as) (hf : Fits limit v) (h : CutOffMembers limit ts bs) :
      CutOffMembers limit (t :: ts) (as ++ bs)
end

section
variable {inp : Input} {pos : Int}

theorem Input.rest_length (hs : inp.Sound) (h0 : 0 ≤ pos) (h : pos ≤ inp.bufferLen) :
    ((inp.rest pos).length : Int) = inp.bufferLen - pos := by
  have hlen := hs.1
  rw [Input.rest,slice_length (by omega)]
  omega

/-- What the input shows at the position stands before what is left behind it. -/
theorem Input.Shows.rest {bs : List UInt8} (h : inp.Shows pos bs) :
    inp.rest pos = bs ++ inp.rest (pos + bs.length) := by
  obtain ⟨h0,hfit,hsl⟩ := h
  have hsplit : (inp.bufferLen - pos).toNat =
      bs.length + (inp.bufferLen - (pos + bs.length)).toNat := by omega
  have hp : (pos + bs.length).toNat = pos.toNat + bs.length := by omega
  rw [Input.rest,hsplit,slice_append,hsl,Input.rest,hp]

structure Input.Real (inp : Input) : Prop where
  sound : inp.Sound
  limited : inp.limit < 2 ^ 63

theorem Takes.rest {P : List UInt8 → Prop} {pos' : Int} (h : Takes inp P pos pos')
    (hr : inp.Real) (h0 : 0 ≤ pos) (hpos : pos ≤ inp.bufferLen) :
    ∃ bs, P bs ∧ inp.rest pos = bs ++ inp.rest pos' ∧ pos ≤ pos' ∧ pos' ≤ inp.bufferLen ∧
      pos' = pos + bs.length := by
  obtain ⟨bs,hbs,hshow,rfl⟩ := h hr.sound hr.limited h0 hpos
  exact ⟨bs,hbs,hshow.rest,by omega,hshow.2.1,rfl⟩

theorem deserializeFundamental_short (hs : inp.Sound) {n : Nat} (hn : n ≤ 8) (h0 : 0 ≤ pos)
    (h : pos ≤ inp.bufferLen) {e : Fault} {pos' : Int}
    (he : deserializeFundamental inp n pos = .error e pos') : (inp.rest pos).length < n := by
  have hrest := Input.rest_length hs h0 h
  have hlen := hs.1
  have hmax := hs.2
  refine Nat.lt_of_not_le (fun hlong => ?_)
  have htake : takeFundamental inp n pos = .ok (slice inp.buffer pos.toNat n) (pos + n) := by
    rw [takeFundamental,Exec.bind_ok (Exec.get_run pos),u64_eq h0 (by omega),
      u64_eq (by omega) (by omega),if_neg (by omega),copyIn_ok h0 (by omega)]
  unfold deserializeFundamental at he
  cases hend : inp.endian with
  | little =>
    rw [hend] at he
    cases htake.symm.trans (Exec.map_eq_error.mp he)
  | big =>
    rw [hend] at he
    cases htake.symm.trans (Exec.map_eq_error.mp he)

/-- A length that the input begins with is the number that is read. -/
theorem length_read (hr : inp.Real) (h0 : 0 ≤ pos) (h : pos ≤ inp.bufferLen) {n : Nat}
    {bs : List UInt8} (hn : n < 2 ^ 63) (hrest : inp.rest pos = leBytes 8 n ++ bs) {word : I64}
    {pos' : Int} (hw : deserializeFundamental inp 8 pos = .ok word pos') :
    word.toInt = n ∧ inp.rest pos' = bs ∧ pos ≤ pos' ∧ pos' ≤ inp.bufferLen := by
  obtain ⟨as,rfl,heq,hlo,hhi,_⟩ := (deserializeFundamental_takes (by omega) hw).rest hr h0 h
  rw [hrest,← toNat_ofNat hn] at heq
  obtain ⟨rfl,hbs⟩ := word_append heq
  exact ⟨toInt_ofNat hn,hbs.symm,hlo,hhi⟩

end

namespace Traced

def Access.Bounded (inp : Input) : Access → Prop
  | .request pos size => 0 ≤ size ∧ size ≤ inp.bufferLen - pos
  | _ => True

section
variable {inp : Input} {pos : Int}

theorem copyIn_bounded (n : Nat) : (copyIn inp n).All (Access.Bounded inp) pos := by
  refine (Logged.all_note_iff.mpr trivial).bind (fun _ _ _ => ?_)
  refine (Logged.all_note_iff.mpr trivial).bind (fun _ _ _ => ?_)
  exact Logged.all_lift _

theorem deserializeFundamental_bounded (n : Nat) :
    (deserializeFundamental inp n).All (Access.Bounded inp) pos := by
  have htake : (takeFundamental inp n).All (Access.Bounded inp) pos := by
    refine (Logged.all_lift _).bind (fun q r hq => ?_)
    cases hq
    by_cases hc : u64 inp.bufferLen < (u64 pos + n) % 2 ^ 64
    · rw [if_pos hc]
      exact Logged.all_lift _
    · rw [if_neg hc]
      exact copyIn_bounded n
  unfold deserializeFundamental
  cases inp.endian with
  | big => exact Logged.all_map_iff.mpr htake
  | little => exact Logged.all_map_iff.mpr htake

theorem takeString_bounded (strLen : Int) :
    (takeString inp strLen).All (Access.Bounded inp) pos := by
  refine (Logged.all_lift _).bind (fun q r hq => ?_)
  cases hq
  refine (Logged.all_note_iff.mpr trivial).bind (fun _ q hq => ?_)
  cases hq
  by_cases ho : pos + strLen < -2 ^ 63 ∨ 2 ^ 63 ≤ pos + strLen
  · rw [if_pos ho]
    exact Logged.all_lift _
  · rw [if_neg ho]
    by_cases hc : inp.bufferLen < pos + strLen
    · rw [if_pos hc]
      exact Logged.all_lift _
    · rw [if_neg hc]
      exact copyIn_bounded _

theorem request_bounded_iff {size : Int} : (request inp size).All (Access.Bounded inp) pos ↔
    0 ≤ size ∧ size ≤ inp.bufferLen - pos := by
  unfold request
  rw [Logged.all_bind_iff,Logged.all_note_iff]
  exact and_iff_left (fun _ _ _ => Logged.all_lift _)

/-- The decoder goes on behind the value that its input begins with. -/
theorem deserializeDepth_next {R : Reflection} {D : Defaults R} (hr : inp.Real) {depth : Nat}
    {t : Ty R.Name} {data w v : Val R t} {as bs : List UInt8} {pos' : Int} (h0 : 0 ≤ pos)
    (h : pos ≤ inp.bufferLen) (hv : Spells v as) (hrest : inp.rest pos = as ++ bs)
    (hd : (deserializeDepth D inp depth t data).erase pos = .ok w pos') :
    inp.rest pos' = bs ∧ pos ≤ pos' ∧ pos' ≤ inp.bufferLen := by
  rw [deserializeDepth_erase] at hd
  obtain ⟨u,hu⟩ := deserializeDepth_accepts D inp depth t data pos w pos' hd
  obtain ⟨cs,⟨hcs,_⟩,heq,hlo,hhi,_⟩ := hu.takes.rest hr h0 h
  obtain ⟨_,_,hbs⟩ := Spells.unique v u as cs bs _ hv hcs (hrest.symm.trans heq)
  exact ⟨hbs.symm,hlo,hhi⟩

theorem prefixed (hr : inp.Real) (h0 : 0 ≤ pos) (h : pos ≤ inp.bufferLen) {n : Nat}
    {bs : List UInt8} (hrest : inp.rest pos = leBytes 8 n ++ bs) (hn : n ≤ bs.length)
    {word : I64} {q : Int} (hq : (deserializeFundamental inp 8).erase pos = .ok word q) :
    word.toInt = n ∧ inp.rest q = bs ∧ 0 ≤ q ∧ q ≤ inp.bufferLen ∧
      (request inp word.toInt).All (Access.Bounded inp) q ∧
      ∀ q', (request inp word.toInt).erase q = .ok () q' → q' = q ∧ n ≤ inp.limit := by
  have hmax := hr.sound.2
  have hwhole := Input.rest_length hr.sound h0 h
  rw [hrest,List.length_append] at hwhole
  rw [deserializeFundamental_erase] at hq
  obtain ⟨hword,hbs,hlo,hhi⟩ := length_read hr h0 h (by omega) hrest hq
  have hleft := Input.rest_length hr.sound (show 0 ≤ q by omega) hhi
  rw [hbs] at hleft
  refine ⟨hword,hbs,by omega,hhi,request_bounded_iff.mpr ⟨by omega,by omega⟩,fun q' hq' => ?_⟩
  rw [request_erase] at hq'
  obtain ⟨rfl,hsize⟩ := request_size hq'
  obtain ⟨_,hlimit,_⟩ := hsize hr.limited
  exact ⟨rfl,by omega⟩

theorem prefixed_bounded {α : Type} (hr : inp.Real) (h0 : 0 ≤ pos) (h : pos ≤ inp.bufferLen)
    {n : Nat} {bs : List UInt8} (hrest : inp.rest pos = leBytes 8 n ++ bs) (hn : n ≤ bs.length)
    {body : I64 → TraceM α} (hbody : ∀ (word : I64) (q : Int), word.toInt = n →
      inp.rest q = bs → 0 ≤ q → q ≤ inp.bufferLen → (body word).All (Access.Bounded inp) q) :
    (deserializeFundamental inp 8 >>= fun word => request inp word.toInt >>= fun _ =>
      body word).All (Access.Bounded inp) pos := by
  refine (deserializeFundamental_bounded 8).bind (fun word q hq => ?_)
  obtain ⟨hword,hbs,hq0,hqb,hall,hok⟩ := prefixed hr h0 h hrest hn hq
  refine hall.bind (fun _ q' hq' => ?_)
  obtain ⟨rfl,_⟩ := hok q' hq'
  exact hbody word q' hword hbs hq0 hqb

mutual
theorem spelled_bounded {R : Reflection} (D : Defaults R) (hr : inp.Real) : {t : Ty R.Name} →
    (v data : Val R t) → (depth : Nat) → (pos : Int) → (as bs : List UInt8) → 0 ≤ pos →
    pos ≤ inp.bufferLen → Spells v as → inp.rest pos = as ++ bs →
    (deserializeDepth D inp depth t data).All (Access.Bounded inp) pos
  | _, _, _, 0, _, _, _, _, _, _, _ => Logged.all_lift _
  | .int w, _, _, _+1, _, _, _, _, _, _, _ =>
      Logged.all_map_iff.mpr (deserializeFundamental_bounded w.sizeof)
  | .bool, _, _, _+1, _, _, _, _, _, _, _ =>
      Logged.all_map_iff.mpr (Logged.all_map_iff.mpr (deserializeFundamental_bounded 1))
  | .enum _, _, _, _+1, _, _, _, _, _, _, _ =>
      Logged.all_map_iff.mpr (deserializeFundamental_bounded 8)
  | .ptr t, v, _, depth+1, pos, as, bs, h0, h, hv, hrest => by
      refine (Logged.all_map_iff.mpr (deserializeFundamental_bounded 1)).bind
        (fun isNullPtr q hq => ?_)
      rw [← deserializeBool,deserializeBool_erase] at hq
      obtain ⟨cs,⟨word,rfl,hflag⟩,heq,hlo,hhi,_⟩ := (deserializeBool_takes hq).rest hr h0 h
      rw [hrest] at heq
      cases isNullPtr with
      | true => exact Logged.all_pure _
      | false =>
        cases v with
        | null =>
          rw [Spells] at hv
          obtain ⟨word',rfl,hflag'⟩ := hv
          obtain ⟨rfl,_⟩ := word_append heq
          rw [hflag'] at hflag
          cases hflag
        | ref v =>
          rw [Spells] at hv
          obtain ⟨ds,rfl,hds⟩ := hv
          rw [List.append_assoc] at heq
          exact Logged.all_map_iff.mpr (spelled_bounded D hr v _ depth q ds bs (by omega) hhi hds
            (word_append heq).2.symm)
  | .string, .string s, _, _+1, pos, as, bs, h0, h, hv, hrest => by
      rw [Spells] at hv
      rw [hv.1,List.append_assoc] at hrest
      refine prefixed_bounded hr h0 h hrest (by simp) (fun word q _ _ _ _ => ?_)
      exact Logged.all_map_iff.mpr (takeString_bounded _)
  | .vector t, .vector vs, .vector data, depth+1, pos, as, bs, h0, h, hv, hrest => by
      rw [Spells] at hv
      obtain ⟨cs,rfl,_,hvs⟩ := hv
      have hcs := SpellsElements.length vs cs hvs
      have hn := length_le_elementsSize vs
      rw [List.append_assoc] at hrest
      refine prefixed_bounded hr h0 h hrest (by rw [List.length_append]; omega)
        (fun word q hword hq hq0 hqb => Logged.all_map_iff.mpr ?_)
      rw [hword]
      exact spelledElements_bounded D hr vs data depth q cs bs hq0 hqb hvs hq
  | .struct _, .struct ms, .struct datas, depth+1, pos, as, bs, h0, h, hv, hrest => by
      rw [Spells] at hv
      exact Logged.all_map_iff.mpr
        (spelledMembers_bounded D hr ms datas depth pos as bs h0 h hv hrest)

theorem spelledElements_bounded {R : Reflection} (D : Defaults R) (hr : inp.Real) :
    {t : Ty R.Name} → (vs data : Vals R t) → (depth : Nat) → (pos : Int) → (as bs : List UInt8) →
    0 ≤ pos → pos ≤ inp.bufferLen → SpellsElements vs as → inp.rest pos = as ++ bs →
    (deserializeElements (deserializeDepth D inp depth t (Val.fresh D t)) vs.length data).All
      (Access.Bounded inp) pos
  | _, .nil, _, _, _, _, _, _, _, _, _ => Logged.all_pure _
  | t, .cons v vs, data, depth, pos, _, bs, h0, h, hv, hrest => by
      rw [SpellsElements] at hv
      obtain ⟨as,cs,rfl,hv,hvs⟩ := hv
      rw [List.append_assoc] at hrest
      refine (spelled_bounded D hr v _ depth pos as _ h0 h hv hrest).bind (fun w q hq => ?_)
      obtain ⟨hq,hlo,hhi⟩ := deserializeDepth_next hr h0 h hv hrest hq
      exact spelledElements_bounded D hr vs _ depth q cs bs (by omega) hhi hvs hq

theorem spelledMembers_bounded {R : Reflection} (D : Defaults R) (hr : inp.Real) :
    {ts : List (Ty R.Name)} → (ms datas : Members R ts) → (depth : Nat) → (pos : Int) →
    (as bs : List UInt8) → 0 ≤ pos → pos ≤ inp.bufferLen → SpellsMembers ms as →
    inp.rest pos = as ++ bs →
    (deserializeMembers (deserializeDepth D inp depth) datas).All (Access.Bounded inp) pos
  | _, .nil, .nil, _, _, _, _, _, _, _, _ => Logged.all_pure _
  | _, .cons v ms, .cons data datas, depth, pos, _, bs, h0, h, hv, hrest => by
      rw [SpellsMembers] at hv
      obtain ⟨as,cs,rfl,hv,hms⟩ := hv
      rw [List.append_assoc] at hrest
      refine (spelled_bounded D hr v _ depth pos as _ h0 h hv hrest).bind (fun w q hq => ?_)
      obtain ⟨hq,hlo,hhi⟩ := deserializeDepth_next hr h0 h hv hrest hq
      refine (spelledMembers_bounded D hr ms datas depth q cs bs (by omega) hhi hms hq).bind
        (fun _ _ _ => ?_)
      exact Logged.all_pure _
end

def Fails {α : Type} (inp : Input) (x : TraceM α) (pos : Int) : Prop :=
  x.All (Access.Bounded inp) pos ∧ ∀ a q, x.erase pos ≠ .ok a q

theorem fails_throw {α : Type} (e : Fault) : Fails inp (Logged.lift (throw e) : TraceM α) pos :=
  ⟨Logged.all_lift _,fun _ _ h => by cases h⟩

theorem Fails.bind {α β : Type} {x : TraceM α} {f : α → TraceM β} (hx : Fails inp x pos) :
    Fails inp (x >>= f) pos := by
  refine ⟨hx.1.bind (fun a q hq => absurd hq (hx.2 a q)),fun b q hq => ?_⟩
  rw [Logged.erase_bind] at hq
  obtain ⟨a,r,ha,_⟩ := Exec.bind_eq_ok.mp hq
  exact hx.2 a r ha

theorem fails_after {α β : Type} {x : TraceM α} {f : α → TraceM β}
    (hx : x.All (Access.Bounded inp) pos)
    (hf : ∀ a q, x.erase pos = .ok a q → Fails inp (f a) q) : Fails inp (x >>= f) pos := by
  refine ⟨hx.bind (fun a q hq => (hf a q hq).1),fun b q hq => ?_⟩
  rw [Logged.erase_bind] at hq
  obtain ⟨a,r,ha,hb⟩ := Exec.bind_eq_ok.mp hq
  exact (hf a r ha).2 b q hb

theorem Fails.map {α β : Type} {x : TraceM α} {f : α → β} (hx : Fails inp x pos) :
    Fails inp (f <$> x) pos := hx.bind

/-- Nothing is read where there are too few bytes for it. -/
theorem short_fails (hr : inp.Real) (h0 : 0 ≤ pos) (h : pos ≤ inp.bufferLen) {n : Nat}
    (hn : n ≤ 8) (hshort : (inp.rest pos).length < n) :
    Fails inp (deserializeFundamental inp n) pos := by
  refine ⟨deserializeFundamental_bounded n,fun word q hq => ?_⟩
  rw [deserializeFundamental_erase] at hq
  obtain ⟨bs,rfl,heq,_⟩ := (deserializeFundamental_takes hn hq).rest hr h0 h
  rw [heq,List.length_append,leBytes_length] at hshort
  omega

theorem prefixed_fails {α : Type} (hr : inp.Real) (h0 : 0 ≤ pos) (h : pos ≤ inp.bufferLen)
    {n : Nat} {bs : List UInt8} (hrest : inp.rest pos = leBytes 8 n ++ bs) (hn : n ≤ bs.length)
    {body : I64 → TraceM α} (hbody : ∀ (word : I64) (q : Int), word.toInt = n →
      inp.rest q = bs → n ≤ inp.limit → 0 ≤ q → q ≤ inp.bufferLen → Fails inp (body word) q) :
    Fails inp (deserializeFundamental inp 8 >>= fun word => request inp word.toInt >>= fun _ =>
      body word) pos := by
  refine fails_after (deserializeFundamental_bounded 8) (fun word q hq => ?_)
  obtain ⟨hword,hbs,hq0,hqb,hall,hok⟩ := prefixed hr h0 h hrest hn hq
  refine fails_after hall (fun _ q' hq' => ?_)
  obtain ⟨rfl,hlimit⟩ := hok q' hq'
  exact hbody word q' hword hbs hlimit hq0 hqb

mutual
/-- A value that ends too early, and not in a string, is given up in time. -/
theorem cutOff_fails {R : Reflection} (D : Defaults R) (hr : inp.Real) : {t : Ty R.Name} →
    {bs : List UInt8} → CutOff inp.limit t bs → (depth : Nat) → (data : Val R t) → (pos : Int) →
    0 ≤ pos → pos ≤ inp.bufferLen → inp.rest pos = bs →
    Fails inp (deserializeDepth D inp depth t data) pos
  | _, _, _, 0, _, _, _, _, _ => fails_throw _
  | .int w, _, .int hs, _+1, _, _, h0, h, hrest =>
      (short_fails hr h0 h w.sizeof_le (by rw [hrest]; exact hs)).map
  | _, _, .bool hs, _+1, _, _, h0, h, hrest =>
      (short_fails hr h0 h (by omega) (by rw [hrest]; exact hs)).map.map
  | _, _, .enum hs, _+1, _, _, h0, h, hrest =>
      (short_fails hr h0 h (by omega) (by rw [hrest]; exact hs)).map
  | .ptr _, _, .flag hs, _+1, _, _, h0, h, hrest =>
      (short_fails hr h0 h (by omega) (by rw [hrest]; exact hs)).map.bind
  | .ptr t, _, .ref hc, depth+1, _, pos, h0, h, hrest => by
      refine fails_after (Logged.all_map_iff.mpr (deserializeFundamental_bounded 1))
        (fun isNullPtr q hq => ?_)
      rw [deserializeBool_erase] at hq
      obtain ⟨cs,⟨word,rfl,hflag⟩,heq,hlo,hhi,_⟩ := (deserializeBool_takes hq).rest hr h0 h
      rw [hrest] at heq
      obtain ⟨hword,hbs⟩ := word_append heq
      have hfalse : isNullPtr = false := by rw [← hflag,← hword]; decide
      subst hfalse
      exact (cutOff_fails D hr hc depth _ q (by omega) hhi hbs.symm).map
  | _, _, .strLen hs, _+1, _, _, h0, h, hrest =>
      (short_fails hr h0 h (by omega) (by rw [hrest]; exact hs)).bind
  | _, _, .longString hn hl, _+1, _, _, h0, h, hrest =>
      prefixed_fails hr h0 h hrest hn (fun _ _ _ _ hle _ _ => absurd hle (by omega))
  | .vector _, _, .size hs, _+1, .vector _, _, h0, h, hrest =>
      (short_fails hr h0 h (by omega) (by rw [hrest]; exact hs)).bind
  | .vector _, _, .longVector hn hl, _+1, .vector _, _, h0, h, hrest =>
      prefixed_fails hr h0 h hrest hn (fun _ _ _ _ hle _ _ => absurd hle (by omega))
  | .vector _, _, .vector hn hc, depth+1, .vector data, _, h0, h, hrest => by
      refine prefixed_fails hr h0 h hrest hn (fun word q hword hq _ hq0 hqb => Fails.map ?_)
      rw [hword]
      exact cutOffElements_fails D hr hc depth data q hq0 hqb hq
  | .struct _, _, .struct hc, depth+1, .struct datas, pos, h0, h, hrest =>
      (cutOffMembers_fails D hr hc depth datas pos h0 h hrest).map

theorem cutOffElements_fails {R : Reflection} (D : Defaults R) (hr : inp.Real) :
    {t : Ty R.Name} → {n : Nat} → {bs : List UInt8} → CutOffElements inp.limit t n bs →
    (depth : Nat) → (data : Vals R t) → (pos : Int) → 0 ≤ pos → pos ≤ inp.bufferLen →
    inp.rest pos = bs →
    Fails inp (deserializeElements (deserializeDepth D inp depth t (Val.fresh D t)) n data) pos
  | _, _, _, .here hc, depth, _, pos, h0, h, hrest =>
      (cutOff_fails D hr hc depth _ pos h0 h hrest).bind
  | _, _, _, .later hv _ hc, depth, _, pos, h0, h, hrest => by
      refine fails_after (spelled_bounded D hr _ _ depth pos _ _ h0 h hv hrest) (fun w q hq => ?_)
      obtain ⟨hq,hlo,hhi⟩ := deserializeDepth_next hr h0 h hv hrest hq
      exact cutOffElements_fails D hr hc depth _ q (by omega) hhi hq

theorem cutOffMembers_fails {R : Reflection} (D : Defaults R) (hr : inp.Real) :
    {ts : List (Ty R.Name)} → {bs : List UInt8} → CutOffMembers inp.limit ts bs →
    (depth : Nat) → (datas : Members R ts) → (pos : Int) → 0 ≤ pos → pos ≤ inp.bufferLen →
    inp.rest pos = bs →
    Fails inp (deserializeMembers (deserializeDepth D inp depth) datas) pos
  | _, _, .here hc, depth, .cons _ _, pos, h0, h, hrest =>
      (cutOff_fails D hr hc depth _ pos h0 h hrest).bind
  | _, _, .later hv _ hc, depth, .cons _ datas, pos, h0, h, hrest => by
      refine fails_after (spelled_bounded D hr _ _ depth pos _ _ h0 h hv hrest) (fun w q hq => ?_)
      obtain ⟨hq,hlo,hhi⟩ := deserializeDepth_next hr h0 h hv hrest hq
      exact (cutOffMembers_fails D hr hc depth datas q (by omega) hhi hq).bind
end

theorem deserializeDepth_took {R : Reflection} {D : Defaults R} (hr : inp.Real) {depth : Nat}
    {t : Ty R.Name} {data w : Val R t} {q : Int} (h0 : 0 ≤ pos) (h : pos ≤ inp.bufferLen)
    (hd : (deserializeDepth D inp depth t data).erase pos = .ok w q) :
    ∃ v : Val R t, ∃ as, Spells v as ∧ Fits inp.limit v ∧ inp.rest pos = as ++ inp.rest q ∧
      pos ≤ q ∧ q ≤ inp.bufferLen := by
  rw [deserializeDepth_erase] at hd
  obtain ⟨v,hv⟩ := deserializeDepth_accepts D inp depth t data pos w q hd
  obtain ⟨as,⟨hs,hf⟩,heq,hlo,hhi,_⟩ := hv.takes.rest hr h0 h
  exact ⟨v,as,hs,hf,heq,hlo,hhi⟩

/-- A decoder of `t`, started in the given range, that throws although all it asked for was
there has met the end of the input. -/
def EndsCut {R : Reflection} (inp : Input) (t : Ty R.Name) (x : TraceM (Val R t)) (pos : Int) :
    Prop :=
  x.All (Access.Bounded inp) pos → ∀ e q, x.erase pos = .error e q →
    CutOff inp.limit t (inp.rest pos)

theorem elements_endCut {R : Reflection} {D : Defaults R} (hr : inp.Real) {depth : Nat}
    {t : Ty R.Name} {start : Int} (hfrom : 0 ≤ start)
    (he : ∀ q, start ≤ q → q ≤ inp.bufferLen →
      EndsCut inp t (deserializeDepth D inp depth t (Val.fresh D t)) q) (n : Nat)
    (data : Vals R t) {e : Fault} {q : Int} (h0 : start ≤ pos) (h : pos ≤ inp.bufferLen)
    (hall : (deserializeElements (deserializeDepth D inp depth t (Val.fresh D t)) n data).All
      (Access.Bounded inp) pos)
    (herr : (deserializeElements (deserializeDepth D inp depth t (Val.fresh D t)) n data).erase
      pos = .error e q) : CutOffElements inp.limit t n (inp.rest pos) := by
  induction n generalizing data pos with
  | zero => cases herr
  | succ n ih =>
    obtain ⟨hfirst,hlater⟩ := Logged.all_bind_iff.mp hall
    rw [deserializeElements,Logged.erase_bind] at herr
    rcases Exec.bind_eq_error.mp herr with herr | ⟨w,r,hw,herr⟩
    · exact .here (he pos h0 h hfirst e q herr)
    · obtain ⟨v,as,hs,hf,heq,hlo,hhi⟩ := deserializeDepth_took hr (by omega) h hw
      rw [heq]
      exact .later hs hf (ih _ (by omega) hhi (hlater w r hw) herr)

theorem members_endCut {R : Reflection} {D : Defaults R} (hr : inp.Real) {depth : Nat}
    {start : Int} (hfrom : 0 ≤ start) : {ts : List (Ty R.Name)} → (datas : Members R ts) →
    (∀ t ∈ ts, ∀ (data : Val R t) (q : Int), start ≤ q → q ≤ inp.bufferLen →
      EndsCut inp t (deserializeDepth D inp depth t data) q) → (pos : Int) → start ≤ pos →
    pos ≤ inp.bufferLen →
    (deserializeMembers (deserializeDepth D inp depth) datas).All (Access.Bounded inp) pos →
    (e : Fault) → (q : Int) →
    (deserializeMembers (deserializeDepth D inp depth) datas).erase pos = .error e q →
    CutOffMembers inp.limit ts (inp.rest pos)
  | _, .nil, _, _, _, _, _, _, _, herr => by cases herr
  | t :: ts, .cons data datas, hm, pos, h0, h, hall, e, q, herr => by
      obtain ⟨hfirst,hlater⟩ := Logged.all_bind_iff.mp hall
      rw [deserializeMembers,Logged.erase_bind] at herr
      rcases Exec.bind_eq_error.mp herr with herr | ⟨w,r,hw,herr⟩
      · exact .here (hm t (by simp) data pos h0 h hfirst e q herr)
      · obtain ⟨v,as,hs,hf,heq,hlo,hhi⟩ := deserializeDepth_took hr (by omega) h hw
        rw [Logged.erase_bind] at herr
        rcases Exec.bind_eq_error.mp herr with herr | ⟨_,_,_,herr⟩
        · rw [heq]
          exact .later hs hf (members_endCut hr hfrom datas (fun u hu => hm u (by simp [hu])) r
            (by omega) hhi (Logged.all_bind_iff.mp (hlater w r hw)).1 e q herr)
        · cases herr

theorem prefix_endCut {R : Reflection} {α : Type} (hr : inp.Real) {t : Ty R.Name} (h0 : 0 ≤ pos)
    (h : pos ≤ inp.bufferLen) {body : I64 → TraceM α} {e : Fault} {q : Int}
    (hall : (deserializeFundamental inp 8 >>= fun word => request inp word.toInt >>= fun _ =>
      body word).All (Access.Bounded inp) pos)
    (herr : (deserializeFundamental inp 8 >>= fun word => request inp word.toInt >>= fun _ =>
      body word).erase pos = .error e q)
    (hshort : (inp.rest pos).length < 8 → CutOff inp.limit t (inp.rest pos))
    (hlong : ∀ (n : Nat) (bs : List UInt8), inp.rest pos = leBytes 8 n ++ bs → n ≤ bs.length →
      inp.limit < n → CutOff inp.limit t (inp.rest pos))
    (hbody : ∀ (word : I64) (r : Int), 0 ≤ word.toInt → word.toInt ≤ inp.bufferLen - r →
      pos + 1 ≤ r → r ≤ inp.bufferLen →
      inp.rest pos = leBytes 8 word.toInt.toNat ++ inp.rest r →
      (body word).All (Access.Bounded inp) r → (body word).erase r = .error e q →
      CutOff inp.limit t (inp.rest pos)) : CutOff inp.limit t (inp.rest pos) := by
  obtain ⟨_,hlater⟩ := Logged.all_bind_iff.mp hall
  rw [Logged.erase_bind] at herr
  rcases Exec.bind_eq_error.mp herr with herr | ⟨word,r,hw,herr⟩
  · rw [deserializeFundamental_erase] at herr
    exact hshort (deserializeFundamental_short hr.sound (by omega) h0 h herr)
  · obtain ⟨hreq,hafter⟩ := Logged.all_bind_iff.mp (hlater word r hw)
    rw [deserializeFundamental_erase] at hw
    obtain ⟨bs,rfl,heq,hlo,hhi,hr'⟩ := (deserializeFundamental_takes (by omega) hw).rest hr h0 h
    rw [leBytes_length] at hr'
    obtain ⟨hnonneg,hle⟩ := request_bounded_iff.mp hreq
    rw [toNat_of_nonneg hnonneg] at heq
    have hmax := hr.sound.2
    have hleft := Input.rest_length hr.sound (show 0 ≤ r by omega) hhi
    rw [Logged.erase_bind,request_erase] at herr
    rcases Exec.bind_eq_error.mp herr with hfull | ⟨_,r',hok,hlast⟩
    · refine hlong word.toInt.toNat _ heq (by omega) ?_
      unfold Codec.request at hfull
      by_cases hc : inp.limit < u64 word.toInt
      · rw [u64_eq hnonneg (by omega)] at hc
        exact hc
      · rw [if_neg hc] at hfull
        cases hfull
    · obtain ⟨rfl,_⟩ := request_size hok
      exact hbody word r' hnonneg hle (by omega) hhi heq
        (hafter () r' (by rw [request_erase]; exact hok)) hlast

/-- By induction on the depth, which never runs out. -/
theorem deserializeDepth_endsCut {R : Reflection} (D : Defaults R) (hr : inp.Real) (depth : Nat) :
    ∀ (t : Ty R.Name) (data : Val R t) (pos : Int), 0 ≤ pos → pos ≤ inp.bufferLen →
      (inp.bufferLen - pos).toNat * (R.height + 2) + t.inner < depth →
      EndsCut inp t (deserializeDepth D inp depth t data) pos := by
  induction depth with
  | zero => intro t data pos _ _ hd; exact absurd hd (Nat.not_lt_zero _)
  | succ depth ih =>
    intro t data pos h0 h hd hall e q herr
    have hmax := hr.sound.2
    have hfund : ∀ n, n ≤ 8 → ∀ {e q}, (deserializeFundamental inp n).erase pos = .error e q →
        (inp.rest pos).length < n := by
      intro n hn e q he
      rw [deserializeFundamental_erase] at he
      exact deserializeFundamental_short hr.sound hn h0 h he
    cases t with
    | int w =>
      rw [deserializeDepth,Logged.erase_map] at herr
      exact .int (hfund w.sizeof w.sizeof_le (Exec.map_eq_error.mp herr))
    | bool =>
      rw [deserializeDepth,deserializeBool,Logged.erase_map,Logged.erase_map] at herr
      exact .bool (hfund 1 (by omega) (Exec.map_eq_error.mp (Exec.map_eq_error.mp herr)))
    | enum u =>
      rw [deserializeDepth,Logged.erase_map] at herr
      exact .enum (hfund 8 (by omega) (Exec.map_eq_error.mp herr))
    | ptr t =>
      obtain ⟨_,hlater⟩ := Logged.all_bind_iff.mp hall
      rw [deserializeDepth,Logged.erase_bind] at herr
      rcases Exec.bind_eq_error.mp herr with herr | ⟨isNullPtr,r,hb,herr⟩
      · rw [deserializeBool,Logged.erase_map] at herr
        exact .flag (hfund 1 (by omega) (Exec.map_eq_error.mp herr))
      · have hrest := hlater isNullPtr r hb
        rw [deserializeBool_erase] at hb
        obtain ⟨bs,⟨word,rfl,hflag⟩,heq,hlo,hhi,hr'⟩ := (deserializeBool_takes hb).rest hr h0 h
        rw [leBytes_length] at hr'
        cases isNullPtr with
        | true => cases herr
        | false =>
          have hword : word = boolWord false := by simpa [boolWord] using hflag
          rw [heq,hword]
          rw [if_neg (by decide)] at hrest herr
          rw [Logged.erase_map] at herr
          exact .ref (ih t _ r (by omega) hhi (depth_paid t _ (by omega) hhi hd)
            (Logged.all_map_iff.mp hrest) e q (Exec.map_eq_error.mp herr))
    | string =>
      refine prefix_endCut hr h0 h hall herr .strLen (fun n bs heq hn hl => ?_)
        (fun word r hnonneg hle hlo hhi _ _ hbody => ?_)
      · rw [heq]
        exact .longString hn hl
      · -- the characters are all there
        rw [Logged.erase_map,takeString_erase] at hbody
        have hlen := hr.sound.1
        have hok : Codec.takeString inp word.toInt r =
            .ok (slice inp.buffer r.toNat word.toInt.toNat) (r + word.toInt.toNat) := by
          rw [Codec.takeString,Exec.bind_ok (Exec.get_run r),if_neg (by omega),if_neg (by omega),
            copyIn_ok (by omega) (by omega)]
        cases hok.symm.trans (Exec.map_eq_error.mp hbody)
    | vector t =>
      cases data with
      | vector data =>
        refine prefix_endCut hr h0 h hall herr .size (fun n bs heq hn hl => ?_)
          (fun word r hnonneg hle hlo hhi heq hrest hbody => ?_)
        · rw [heq]
          exact .longVector hn hl
        · have hleft := Input.rest_length hr.sound (show 0 ≤ r by omega) hhi
          rw [heq]
          rw [Logged.erase_map] at hbody
          refine .vector (by omega) (elements_endCut hr (show 0 ≤ r by omega) ?_ _ data
            (Int.le_refl r) hhi (Logged.all_map_iff.mp hrest) (Exec.map_eq_error.mp hbody))
          intro x hx hxb
          exact ih t _ x (by omega) hxb (depth_paid t _ (by omega) hxb hd)
    | struct s =>
      cases data with
      | struct datas =>
        rw [deserializeDepth,Logged.erase_map] at herr
        refine .struct (members_endCut hr h0 datas (fun t ht v x hx hxb => ?_) pos (Int.le_refl _) h
          (Logged.all_map_iff.mp hall) e q (Exec.map_eq_error.mp herr))
        exact ih t v x (by omega) hxb (depth_member ht hx hd)

/-- What the decoder asks for is there exactly where its input begins with a value, or ends
before the value does and elsewhere than among the characters of a string or the elements
of a vector longer than the input. -/
theorem requests_bounded_iff {R : Reflection} (D : Defaults R) (hr : inp.Real) (t : Ty R.Name)
    (data : Val R t) (h0 : 0 ≤ pos) (h : pos ≤ inp.bufferLen) :
    (deserialize D inp t data).erase = Codec.deserialize D inp t data ∧
      ((deserialize D inp t data).All (Access.Bounded inp) pos ↔
        Begins inp.limit t (inp.rest pos) ∨ CutOff inp.limit t (inp.rest pos)) := by
  let depth : Nat := depthBound (inp.bufferLen - pos).toNat t
  have hrun : (deserialize D inp t data).All (Access.Bounded inp) pos ↔
      (deserializeDepth D inp depth t data).All (Access.Bounded inp) pos := by
    rw [deserialize,Logged.all_bind_iff]
    constructor
    · intro hall
      exact hall.2 pos pos rfl
    · intro hall
      refine ⟨Logged.all_lift _,fun q r hq => ?_⟩
      cases hq
      exact hall
  refine ⟨deserialize_erase D inp t data,hrun.trans ⟨fun hall => ?_,fun hc => ?_⟩⟩
  · cases hd : (deserializeDepth D inp depth t data).erase pos with
    | ok w q =>
      obtain ⟨v,as,hs,hf,heq,_⟩ := deserializeDepth_took hr h0 h hd
      exact .inl ⟨v,as,_,heq,hs,hf⟩
    | error e q =>
      refine .inr (deserializeDepth_endsCut D hr depth t data pos h0 h ?_ hall e q hd)
      simp only [depth,depthBound]
      omega
  · rcases hc with ⟨v,as,bs,heq,hs,_⟩ | hcut
    · exact spelled_bounded D hr v data depth pos as bs h0 h hs heq
    · exact (cutOff_fails D hr hcut depth data pos h0 h rfl).1

end

def ageCut : Input := ⟨List.replicate 11 0,11,.little,64⟩

theorem ageCut_bounded : (deserialize personDefaults ageCut (.struct ()) (person [] 0)).All
    (Access.Bounded ageCut) 0 := by
  have hname : Spells (.string [] : Val personReflection .string) (List.replicate 8 0) :=
    ⟨rfl,by decide⟩
  have hage : CutOff 64 (.int .w32 : Ty personReflection.Name) (List.replicate 3 0) :=
    .int (by decide)
  exact (requests_bounded_iff personDefaults ⟨⟨by decide,by decide⟩,by decide⟩ (.struct ())
    (person [] 0) (by decide) (by decide)).2.mpr
    (.inr (.struct (.later hname (show 0 ≤ 64 by decide) (.here hage))))

def hugeLength : Input := ⟨[0,0,0,0,1,0,0,0],8,.little,1099511627776⟩

/-- Eight bytes make the decoder ask for room for 4294967296 characters. -/
theorem hugeLength_requested :
    .request 8 4294967296 ∈ (deserialize personDefaults hugeLength .string (.string [])).log 0 ∧
      ¬ (deserialize personDefaults hugeLength .string (.string [])).All
        (Access.Bounded hugeLength) 0 := by
  have hmem : .request 8 4294967296 ∈
      (deserialize personDefaults hugeLength .string (.string [])).log 0 := by decide
  refine ⟨hmem,fun hall => ?_⟩
  have hbounded : (0 : Int) ≤ 4294967296 ∧ (4294967296 : Int) ≤ 8 - 8 := hall _ hmem
  omega

end Traced

end NewRpc.Codec
