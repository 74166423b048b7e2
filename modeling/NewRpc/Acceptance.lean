import NewRpc.Spelling

/-!
What a decoder that returns has read: a value which its input alone settles, and bytes
that spell it. The target only decides what the value is appended to.
-/

set_option autoImplicit false

namespace NewRpc.Codec
open Bytes

/-- Between the two positions the input shows bytes with the property, provided its length
is that of real memory and the library allocates less than half of the address space. -/
def Takes (inp : Input) (P : List UInt8 → Prop) (pos pos' : Int) : Prop :=
  inp.Sound → inp.limit < 2 ^ 63 → 0 ≤ pos → pos ≤ inp.bufferLen →
    ∃ bs, P bs ∧ inp.Shows pos bs ∧ pos' = pos + bs.length

theorem Input.Shows.join {inp : Input} {pos : Int} {a b : List UInt8} (ha : inp.Shows pos a)
    (hb : inp.Shows (pos + a.length) b) : inp.Shows pos (a ++ b) := by
  obtain ⟨h0,_,hsl⟩ := ha
  obtain ⟨_,hfit,hsl'⟩ := hb
  have hp : (pos + a.length).toNat = pos.toNat + a.length := by omega
  rw [hp] at hsl'
  refine ⟨h0,?_,?_⟩
  · simp only [List.length_append,Int.natCast_add]
    omega
  · rw [List.length_append,slice_append,hsl,hsl']

theorem Takes.nil {inp : Input} {P : List UInt8 → Prop} {pos : Int} (h : P []) :
    Takes inp P pos pos :=
  fun _ _ h0 hpos => ⟨[],h,⟨h0,by simpa using hpos,by simp [slice]⟩,by simp⟩

theorem Takes.mono {inp : Input} {P Q : List UInt8 → Prop} {pos pos' : Int}
    (h : Takes inp P pos pos') (hPQ : ∀ bs, P bs → Q bs) : Takes inp Q pos pos' := by
  intro hs hl h0 hpos
  obtain ⟨bs,hbs,hshow,hend⟩ := h hs hl h0 hpos
  exact ⟨bs,hPQ bs hbs,hshow,hend⟩

theorem Takes.seq {inp : Input} {P Q S : List UInt8 → Prop} {pos pos' pos'' : Int}
    (hp : Takes inp P pos pos') (hq : Takes inp Q pos' pos'')
    (hS : ∀ as bs, P as → Q bs → S (as ++ bs)) : Takes inp S pos pos'' := by
  intro hs hl h0 hpos
  obtain ⟨as,ha,hshow,rfl⟩ := hp hs hl h0 hpos
  obtain ⟨bs,hb,hshow',rfl⟩ := hq hs hl (by omega) hshow.2.1
  refine ⟨as ++ bs,hS as bs ha hb,hshow.join hshow',?_⟩
  simp only [List.length_append,Int.natCast_add]
  omega

theorem Takes.range {inp : Input} {P : List UInt8 → Prop} {pos pos' : Int}
    (h : Takes inp P pos pos') (hs : inp.Sound) (hl : inp.limit < 2 ^ 63) (h0 : 0 ≤ pos)
    (hpos : pos ≤ inp.bufferLen) : pos ≤ pos' ∧ pos' ≤ inp.bufferLen := by
  obtain ⟨bs,_,hshow,rfl⟩ := h hs hl h0 hpos
  exact ⟨by omega,hshow.2.1⟩

theorem copyIn_eq_ok {inp : Input} {n : Nat} {pos pos' : Int} {bs : List UInt8}
    (h : copyIn inp n pos = .ok bs pos') : bs = slice inp.buffer pos.toNat n ∧ pos' = pos + n := by
  rw [copyIn,Exec.bind_ok (Exec.get_run pos)] at h
  by_cases hc : 0 ≤ pos ∧ pos + n ≤ inp.buffer.length
  · rw [if_pos hc] at h
    cases h
    exact ⟨rfl,rfl⟩
  · rw [if_neg hc] at h
    cases h

theorem copyIn_takes {inp : Input} {n : Nat} {pos pos' : Int} {bs : List UInt8}
    (h : copyIn inp n pos = .ok bs pos') (hfit : inp.Sound → 0 ≤ pos → pos ≤ inp.bufferLen →
      pos + n ≤ inp.bufferLen) :
    Takes inp (fun as => as = bs ∧ bs.length = n) pos pos' := by
  intro hs hl h0 hpos
  obtain ⟨rfl,rfl⟩ := copyIn_eq_ok h
  have hend := hfit hs h0 hpos
  have hlen : (slice inp.buffer pos.toNat n).length = n := slice_length (by
    have := hs.1
    omega)
  exact ⟨_,⟨rfl,hlen⟩,⟨h0,by rw [hlen]; exact hend,by rw [hlen]⟩,by rw [hlen]⟩

theorem takeFundamental_takes {inp : Input} {n : Nat} (hn : n ≤ 8) {pos pos' : Int}
    {bs : List UInt8} (h : takeFundamental inp n pos = .ok bs pos') :
    Takes inp (fun as => as = bs ∧ bs.length = n) pos pos' := by
  rw [takeFundamental,Exec.bind_ok (Exec.get_run pos)] at h
  by_cases hc : u64 inp.bufferLen < (u64 pos + n) % 2 ^ 64
  · rw [if_pos hc] at h
    cases h
  · rw [if_neg hc] at h
    refine copyIn_takes h (fun hs h0 hpos => ?_)
    have hmax := hs.2
    rw [u64_eq h0 (by omega),u64_eq (by omega) (by omega)] at hc
    omega

theorem deserializeFundamental_takes {inp : Input} {n : Nat} (hn : n ≤ 8) {pos pos' : Int}
    {v : BitVec (8 * n)} (h : deserializeFundamental inp n pos = .ok v pos') :
    Takes inp (fun bs => bs = leBytes n v.toNat) pos pos' := by
  unfold deserializeFundamental at h
  cases he : inp.endian with
  | little =>
    rw [he] at h
    obtain ⟨bs,hbs,rfl⟩ := Exec.map_eq_ok.mp h
    refine (takeFundamental_takes hn hbs).mono ?_
    rintro as ⟨rfl,hlen⟩
    exact (leBytes_ofNat_leValue n as hlen).symm
  | big =>
    rw [he] at h
    obtain ⟨bs,hbs,rfl⟩ := Exec.map_eq_ok.mp h
    refine (takeFundamental_takes hn hbs).mono ?_
    rintro as ⟨rfl,hlen⟩
    rw [byteswap_ofObject_big n as hlen]
    exact (leBytes_ofNat_leValue n as hlen).symm

theorem deserializeBool_takes {inp : Input} {pos pos' : Int} {b : Bool}
    (h : deserializeBool inp pos = .ok b pos') :
    Takes inp (fun bs => ∃ word : BitVec (8 * 1), bs = leBytes 1 word.toNat ∧ (word != 0) = b)
      pos pos' := by
  obtain ⟨word,hw,rfl⟩ := Exec.map_eq_ok.mp h
  refine (deserializeFundamental_takes (by omega) hw).mono ?_
  rintro bs rfl
  exact ⟨word,rfl,rfl⟩

theorem toNat_of_nonneg {word : I64} (h : 0 ≤ word.toInt) : word.toNat = word.toInt.toNat := by
  rw [BitVec.toInt_eq_toNat_cond] at h ⊢
  by_cases hs : 2 * word.toNat < 2 ^ (8 * 8)
  · rw [if_pos hs]
    rfl
  · have hlt := word.isLt
    rw [if_neg hs] at h
    omega

/-- A size the library accepts is the number it was written as. -/
theorem request_size {inp : Input} {size : I64} {pos pos' : Int}
    (h : request inp size.toInt pos = .ok () pos') : pos' = pos ∧
      (inp.limit < 2 ^ 63 → 0 ≤ size.toInt ∧ size.toInt.toNat ≤ inp.limit ∧
        size.toNat = size.toInt.toNat) := by
  unfold request at h
  by_cases hc : inp.limit < u64 size.toInt
  · rw [if_pos hc] at h
    cases h
  · rw [if_neg hc] at h
    cases h
    refine ⟨rfl,fun hl => ?_⟩
    have hlo := size.le_toInt
    have hhi := size.toInt_lt
    simp only [u64] at hc
    have hnonneg : 0 ≤ size.toInt := by omega
    exact ⟨hnonneg,by omega,toNat_of_nonneg hnonneg⟩

theorem takeString_takes {inp : Input} {strLen : Int} {pos pos' : Int}
    {s : List UInt8} (h : takeString inp strLen pos = .ok s pos') :
    Takes inp (fun bs => bs = s ∧ s.length = strLen.toNat) pos pos' := by
  rw [takeString,Exec.bind_ok (Exec.get_run pos)] at h
  by_cases ho : pos + strLen < -2 ^ 63 ∨ 2 ^ 63 ≤ pos + strLen
  · rw [if_pos ho] at h
    cases h
  · rw [if_neg ho] at h
    by_cases hc : inp.bufferLen < pos + strLen
    · rw [if_pos hc] at h
      cases h
    · rw [if_neg hc] at h
      exact copyIn_takes h (fun _ _ _ => by omega)

structure Accepts {R : Reflection} (D : Defaults R) (inp : Input) {t : Ty R.Name}
    (decode : Val R t → DesM (Val R t)) (v : Val R t) (pos pos' : Int) : Prop where
  result : ∀ data, decode data pos = .ok (absorb D data v) pos'
  takes : Takes inp (fun bs => Spells v bs ∧ Fits inp.limit v) pos pos'

structure AcceptsElements {R : Reflection} (D : Defaults R) (inp : Input) {t : Ty R.Name}
    (decode : Vals R t → DesM (Vals R t)) (vs : Vals R t) (pos pos' : Int) : Prop where
  result : ∀ data, decode data pos = .ok (data.append (absorbElements D vs)) pos'
  takes : Takes inp (fun bs => SpellsElements vs bs ∧ FitsElements inp.limit vs) pos pos'

structure AcceptsMembers {R : Reflection} (D : Defaults R) (inp : Input) {ts : List (Ty R.Name)}
    (decode : Members R ts → DesM (Members R ts)) (ms : Members R ts) (pos pos' : Int) : Prop where
  result : ∀ data, decode data pos = .ok (absorbMembers D data ms) pos'
  takes : Takes inp (fun bs => SpellsMembers ms bs ∧ FitsMembers inp.limit ms) pos pos'

theorem deserializeElements_accepts {R : Reflection} {D : Defaults R} {inp : Input}
    {t : Ty R.Name} {element : Val R t → DesM (Val R t)}
    (he : ∀ data pos w pos', element data pos = .ok w pos' →
      ∃ v, Accepts D inp element v pos pos') (n : Nat) (data : Vals R t) {pos pos' : Int}
    {ws : Vals R t}
    (h : deserializeElements (element (Val.fresh D t)) n data pos = .ok ws pos') :
    ∃ vs : Vals R t, vs.length = n ∧
      AcceptsElements D inp (deserializeElements (element (Val.fresh D t)) n) vs pos pos' := by
  induction n generalizing data pos with
  | zero =>
    cases h
    refine ⟨.nil,rfl,fun data' => ?_,Takes.nil ⟨rfl,trivial⟩⟩
    rw [absorbElements,Vals.append_nil]
    rfl
  | succ n ih =>
    obtain ⟨w,mid,hw,hrest⟩ := Exec.bind_eq_ok.mp h
    obtain ⟨v,hv⟩ := he _ _ _ _ hw
    obtain ⟨vs,hlen,hvs⟩ := ih _ hrest
    refine ⟨.cons v vs,by rw [Vals.length,hlen],fun data' => ?_,hv.takes.seq hvs.takes ?_⟩
    · rw [deserializeElements,Exec.bind_ok (hv.result _),hvs.result,Vals.pushBack,
        Vals.append_assoc]
      rfl
    · rintro as bs ⟨hs,hf⟩ ⟨hss,hfs⟩
      exact ⟨⟨as,bs,rfl,hs,hss⟩,hf,hfs⟩

theorem deserializeMembers_accepts {R : Reflection} {D : Defaults R} {inp : Input}
    {member : (t : Ty R.Name) → Val R t → DesM (Val R t)}
    (hm : ∀ t data pos w pos', member t data pos = .ok w pos' →
      ∃ v, Accepts D inp (member t) v pos pos') :
    {ts : List (Ty R.Name)} → (datas : Members R ts) → {pos pos' : Int} → {ws : Members R ts} →
      deserializeMembers member datas pos = .ok ws pos' →
      ∃ ms : Members R ts, AcceptsMembers D inp (deserializeMembers member) ms pos pos'
  | _, .nil, _, _, _, h => by
      cases h
      refine ⟨.nil,fun data => ?_,Takes.nil ⟨rfl,trivial⟩⟩
      cases data
      rfl
  | t :: _, .cons data datas, _, _, _, h => by
      obtain ⟨w,mid,hw,hrest⟩ := Exec.bind_eq_ok.mp h
      obtain ⟨v,hv⟩ := hm _ _ _ _ _ hw
      obtain ⟨ws,_,hws,hend⟩ := Exec.bind_eq_ok.mp hrest
      obtain ⟨ms,hms⟩ := deserializeMembers_accepts hm datas hws
      cases hend
      refine ⟨.cons v ms,fun data' => ?_,hv.takes.seq hms.takes ?_⟩
      · cases data' with
        | cons d ds =>
          rw [deserializeMembers,Exec.bind_ok (hv.result d),Exec.bind_ok (hms.result ds)]
          rfl
      · rintro as bs ⟨hs,hf⟩ ⟨hss,hfs⟩
        exact ⟨⟨as,bs,rfl,hs,hss⟩,hf,hfs⟩

/-- By induction on the depth. The pointee and the elements are decoded into new objects,
so there the target is the same whatever the one of the whole is. -/
theorem deserializeDepth_accepts {R : Reflection} (D : Defaults R) (inp : Input) (depth : Nat) :
    ∀ (t : Ty R.Name) (data : Val R t) (pos : Int) (w : Val R t) (pos' : Int),
      deserializeDepth D inp depth t data pos = .ok w pos' →
      ∃ v, Accepts D inp (deserializeDepth D inp depth t) v pos pos' := by
  induction depth with
  | zero => intro t data pos r pos' h; cases h
  | succ depth ih =>
    intro t data pos r pos' h
    cases t with
    | int w =>
      obtain ⟨v,hv,_⟩ := Exec.map_eq_ok.mp h
      refine ⟨.int v,fun _ => Exec.map_ok hv,?_⟩
      refine (deserializeFundamental_takes w.sizeof_le hv).mono (fun bs hbs => ?_)
      exact ⟨by rw [Spells]; exact hbs,trivial⟩
    | bool =>
      obtain ⟨b,hb,_⟩ := Exec.map_eq_ok.mp h
      refine ⟨.bool b,fun _ => Exec.map_ok hb,?_⟩
      refine (deserializeBool_takes hb).mono (fun bs hbs => ?_)
      exact ⟨by rw [Spells]; exact hbs,trivial⟩
    | enum u =>
      obtain ⟨word,hw,_⟩ := Exec.map_eq_ok.mp h
      refine ⟨.enum (u.ofInt64 word),fun _ => Exec.map_ok hw,?_⟩
      refine (deserializeFundamental_takes (by omega) hw).mono (fun bs hbs => ?_)
      exact ⟨by rw [Spells]; exact ⟨word,hbs,rfl⟩,trivial⟩
    | ptr t =>
      obtain ⟨isNullPtr,mid,hflag,hrest⟩ := Exec.bind_eq_ok.mp h
      have hflagged := deserializeBool_takes hflag
      cases isNullPtr with
      | true =>
        cases hrest
        refine ⟨.null,fun _ => ?_,hflagged.mono (fun bs hbs => ?_)⟩
        · rw [deserializeDepth,Exec.bind_ok hflag]
          rfl
        · exact ⟨by rw [Spells]; exact hbs,trivial⟩
      | false =>
        obtain ⟨w,hw,_⟩ := Exec.map_eq_ok.mp hrest
        obtain ⟨v,hv⟩ := ih _ _ _ _ _ hw
        refine ⟨.ref v,fun _ => ?_,hflagged.seq hv.takes ?_⟩
        · rw [deserializeDepth,Exec.bind_ok hflag]
          exact Exec.map_ok (hv.result _)
        · rintro as bs ⟨word,rfl,hzero⟩ ⟨hs,hf⟩
          have hword : word = boolWord false := by simpa [boolWord] using hzero
          exact ⟨by rw [Spells]; exact ⟨bs,by rw [hword],hs⟩,hf⟩
    | string =>
      obtain ⟨strLen,mid,hlen,hrest⟩ := Exec.bind_eq_ok.mp h
      obtain ⟨_,mid',hreq,hbody⟩ := Exec.bind_eq_ok.mp hrest
      obtain ⟨s,hs,_⟩ := Exec.map_eq_ok.mp hbody
      obtain ⟨rfl,hsize⟩ := request_size hreq
      refine ⟨.string s,fun _ => ?_,fun hsound hl h0 hpos => ?_⟩
      · rw [deserializeDepth,Exec.bind_ok hlen,Exec.bind_ok hreq]
        exact Exec.map_ok hs
      · obtain ⟨hnonneg,hlimit,hnat⟩ := hsize hl
        refine (deserializeFundamental_takes (by omega) hlen).seq (takeString_takes hs)
          ?_ hsound hl h0 hpos
        rintro as bs rfl ⟨rfl,hn⟩
        refine ⟨?_,by rw [Fits,hn]; exact hlimit⟩
        rw [Spells,hn,← hnat]
        exact ⟨rfl,by omega⟩
    | vector t =>
      cases data with
      | vector data =>
        obtain ⟨size,mid,hlen,hrest⟩ := Exec.bind_eq_ok.mp h
        obtain ⟨_,mid',hreq,hbody⟩ := Exec.bind_eq_ok.mp hrest
        obtain ⟨ws,hws,_⟩ := Exec.map_eq_ok.mp hbody
        obtain ⟨rfl,hsize⟩ := request_size hreq
        obtain ⟨vs,hn,hvs⟩ := deserializeElements_accepts (ih t) _ _ hws
        refine ⟨.vector vs,fun data' => ?_,fun hsound hl h0 hpos => ?_⟩
        · cases data' with
          | vector data' =>
            rw [deserializeDepth,Exec.bind_ok hlen,Exec.bind_ok hreq]
            exact Exec.map_ok (hvs.result data')
        · obtain ⟨hnonneg,hlimit,hnat⟩ := hsize hl
          refine (deserializeFundamental_takes (by omega) hlen).seq hvs.takes ?_ hsound hl h0 hpos
          rintro as bs rfl ⟨hs,hf⟩
          refine ⟨?_,by rw [Fits,hn]; exact ⟨hlimit,hf⟩⟩
          rw [Spells,hn,← hnat]
          exact ⟨bs,rfl,by omega,hs⟩
    | struct s =>
      cases data with
      | struct datas =>
        obtain ⟨ws,hws,_⟩ := Exec.map_eq_ok.mp h
        obtain ⟨ms,hms⟩ := deserializeMembers_accepts ih datas hws
        refine ⟨.struct ms,fun data' => ?_,hms.takes.mono (fun bs hbs => ?_)⟩
        · cases data' with
          | struct datas' =>
            rw [deserializeDepth]
            exact Exec.map_ok (hms.result datas')
        · exact ⟨by rw [Spells]; exact hbs.1,hbs.2⟩

theorem deserialize_accepts {R : Reflection} {D : Defaults R} {inp : Input} {t : Ty R.Name}
    {data w : Val R t} {pos pos' : Int} (h : deserialize D inp t data pos = .ok w pos') :
    ∃ v, Accepts D inp (deserialize D inp t) v pos pos' := by
  rw [deserialize,Exec.bind_ok (Exec.get_run pos)] at h
  obtain ⟨v,hv⟩ := deserializeDepth_accepts D inp _ _ _ _ _ _ h
  refine ⟨v,fun data' => ?_,hv.takes⟩
  rw [deserialize,Exec.bind_ok (Exec.get_run pos)]
  exact hv.result data'

mutual
def Agree {R : Reflection} : {t : Ty R.Name} → Val R t → Val R t → Prop
  | .int _, _, _ => True
  | .bool, _, _ => True
  | .enum _, _, _ => True
  | .string, _, _ => True
  | .ptr _, _, _ => True
  | .vector _, .vector as, .vector bs => as = bs
  | .struct _, .struct as, .struct bs => AgreeMembers as bs

def AgreeMembers {R : Reflection} : {ts : List (Ty R.Name)} → Members R ts → Members R ts → Prop
  | _, .nil, .nil => True
  | _, .cons a as, .cons b bs => Agree a b ∧ AgreeMembers as bs
end

theorem Vals.append_left_cancel {R : Reflection} {t : Ty R.Name} : {as bs cs : Vals R t} →
    as.append cs = bs.append cs → as = bs
  | .nil, .nil, _, _ => rfl
  | .nil, .cons b bs, cs, h => by
      have hl := congrArg Vals.length h
      simp only [Vals.length_append,Vals.length] at hl
      omega
  | .cons a as, .nil, cs, h => by
      have hl := congrArg Vals.length h
      simp only [Vals.length_append,Vals.length] at hl
      omega
  | .cons a as, .cons b bs, cs, h => by
      simp only [Vals.append,Vals.cons.injEq] at h
      rw [h.1,append_left_cancel h.2]

mutual
theorem absorb_eq_absorb_iff {R : Reflection} (D : Defaults R) : {t : Ty R.Name} →
    (a b v : Val R t) → (absorb D a v = absorb D b v ↔ Agree a b)
  | .int _, _, _, .int _ => by simp [absorb,Agree]
  | .bool, _, _, .bool _ => by simp [absorb,Agree]
  | .enum _, _, _, .enum _ => by simp [absorb,Agree]
  | .string, _, _, .string _ => by simp [absorb,Agree]
  | .ptr _, _, _, .null => by simp [absorb,Agree]
  | .ptr _, _, _, .ref _ => by simp [absorb,Agree]
  | .vector _, .vector as, .vector bs, .vector vs => by
      rw [absorb,absorb,Agree,Val.vector.injEq]
      constructor
      · exact Vals.append_left_cancel
      · rintro rfl
        rfl
  | .struct _, .struct as, .struct bs, .struct ms => by
      rw [absorb,absorb,Agree,Val.struct.injEq]
      exact absorbMembers_eq_absorbMembers_iff D as bs ms

theorem absorbMembers_eq_absorbMembers_iff {R : Reflection} (D : Defaults R) :
    {ts : List (Ty R.Name)} → (as bs ms : Members R ts) →
      (absorbMembers D as ms = absorbMembers D bs ms ↔ AgreeMembers as bs)
  | _, .nil, .nil, .nil => by simp [AgreeMembers]
  | _, .cons a as, .cons b bs, .cons v ms => by
      rw [absorbMembers,absorbMembers,AgreeMembers,Members.cons.injEq,absorb_eq_absorb_iff D a b v,
        absorbMembers_eq_absorbMembers_iff D as bs ms]
end

/-- Where decoding into `a` succeeds, decoding into `b` gives the same exactly when the
vectors of the two targets held the same. -/
theorem deserialize_same_iff {R : Reflection} (D : Defaults R) (inp : Input) {t : Ty R.Name}
    (a b : Val R t) {pos pos' : Int} {w : Val R t}
    (h : deserialize D inp t a pos = .ok w pos') :
    deserialize D inp t b pos = .ok w pos' ↔ Agree a b := by
  obtain ⟨v,hv⟩ := deserialize_accepts h
  have hw : absorb D a v = w := by
    have heq := (hv.result a).symm.trans h
    cases heq
    rfl
  rw [hv.result b,← hw,← absorb_eq_absorb_iff D a b v]
  constructor
  · intro heq
    injection heq with heq
    exact heq.symm
  · intro heq
    rw [heq]

/-- A person has no vector, so whoever was there before is gone. -/
theorem persons_same :
    deserialize personDefaults ⟨List.replicate 12 0,12,.little,64⟩ (.struct ())
      (person [99] 30) 0 = .ok (person [] 0) 12 :=
  (deserialize_same_iff personDefaults ⟨List.replicate 12 0,12,.little,64⟩ (person [98,99] 7)
    (person [99] 30) rfl).mpr
    (show AgreeMembers _ _ from ⟨show Agree _ _ from trivial,show Agree _ _ from trivial,trivial⟩)

/-- Eight zero bytes, decoded into an empty vector and into one that holds a 7. -/
theorem targets_differ : ∃ w w' : Val batchReflection (.vector (.int .w64)),
    deserialize batchDefaults ⟨List.replicate 8 0,8,.little,64⟩ (.vector (.int .w64))
      (.vector .nil) 0 = .ok w 8 ∧
    deserialize batchDefaults ⟨List.replicate 8 0,8,.little,64⟩ (.vector (.int .w64))
      (.vector (.cons (.int 7) .nil)) 0 = .ok w' 8 ∧ w ≠ w' := by
  refine ⟨.vector .nil,.vector (.cons (.int 7) .nil),rfl,rfl,fun h => ?_⟩
  cases h

end NewRpc.Codec
