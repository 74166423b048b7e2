import NewRpc.Acceptance
import NewRpc.Survival

/-!
Which payloads the arguments committed for them would be sent as.
-/

set_option autoImplicit false

namespace NewRpc.Codec
open Bytes

mutual
/-- Bytes for an object that holds `data`: flags are 0 or 1, the word of an enumeration is
a value of its underlying type, and a vector is there only to be filled from empty. -/
inductive Canonical {R : Reflection} (D : Defaults R) :
    {t : Ty R.Name} → Val R t → List UInt8 → Prop where
  | int {w : Width} {data : Val R (.int w)} {bs : List UInt8} (h : bs.length = w.sizeof) :
      Canonical D data bs
  | bool {data : Val R .bool} (b : Bool) : Canonical D data (leBytes 1 (boolWord b).toNat)
  | enum {u : Underlying} {data : Val R (.enum u)} (word : I64)
      (h : u.toInt64 (u.ofInt64 word) = word) : Canonical D data (leBytes 8 word.toNat)
  | null {t : Ty R.Name} {data : Val R (.ptr t)} :
      Canonical D data (leBytes 1 (boolWord true).toNat)
  | ref {t : Ty R.Name} {data : Val R (.ptr t)} {bs : List UInt8}
      (h : Canonical D (Val.fresh D t) bs) :
      Canonical D data (leBytes 1 (boolWord false).toNat ++ bs)
  | string {data : Val R .string} (s : List UInt8) : Canonical D data (leBytes 8 s.length ++ s)
  | vector {t : Ty R.Name} {n : Nat} {bs : List UInt8} (h : CanonicalElements D t n bs) :
      Canonical D (.vector (.nil (t := t))) (leBytes 8 n ++ bs)
  | struct {s : R.Name} {datas : Members R (R.members s)} {bs : List UInt8}
      (h : CanonicalMembers D datas bs) : Canonical D (.struct datas) bs

inductive CanonicalElements {R : Reflection} (D : Defaults R) :
    Ty R.Name → Nat → List UInt8 → Prop where
  | nil {t : Ty R.Name} : CanonicalElements D t 0 []
  | cons {t : Ty R.Name} {n : Nat} {as bs : List UInt8} (h : Canonical D (Val.fresh D t) as)
      (hs : CanonicalElements D t n bs) : CanonicalElements D t (n + 1) (as ++ bs)

inductive CanonicalMembers {R : Reflection} (D : Defaults R) :
    {ts : List (Ty R.Name)} → Members R ts → List UInt8 → Prop where
  | nil : CanonicalMembers D .nil []
  | cons {t : Ty R.Name} {ts : List (Ty R.Name)} {data : Val R t} {datas : Members R ts}
      {as bs : List UInt8} (h : Canonical D data as) (hs : CanonicalMembers D datas bs) :
      CanonicalMembers D (.cons data datas) (as ++ bs)
end

mutual
theorem canonical_encode {R : Reflection} (D : Defaults R) : {t : Ty R.Name} →
    (data v : Val R t) → Clear D data v → Canonical D data (encode v)
  | .int _, _, .int _, _ => by
      rw [encode]
      exact .int (by simp)
  | .bool, _, .bool b, _ => by
      rw [encode]
      exact .bool b
  | .enum u, _, .enum v, _ => by
      rw [encode]
      exact .enum _ (by rw [u.ofInt64_toInt64])
  | .ptr _, _, .null, _ => by
      rw [encode]
      exact .null
  | .ptr t, _, .ref v, h => by
      rw [Clear] at h
      rw [encode]
      exact .ref (canonical_encode D (Val.fresh D t) v h)
  | .string, _, .string s, _ => by
      rw [encode]
      exact .string s
  | .vector t, .vector _, .vector vs, h => by
      rw [Clear] at h
      obtain ⟨rfl,hvs⟩ := h
      rw [encode]
      exact .vector (canonicalElements_encode D vs hvs)
  | .struct _, .struct datas, .struct ms, h => by
      rw [Clear] at h
      rw [encode]
      exact .struct (canonicalMembers_encode D datas ms h)

theorem canonicalElements_encode {R : Reflection} (D : Defaults R) : {t : Ty R.Name} →
    (vs : Vals R t) → ClearElements D vs → CanonicalElements D t vs.length (encodeElements vs)
  | _, .nil, _ => by
      rw [encodeElements]
      exact .nil
  | t, .cons v vs, h => by
      rw [ClearElements] at h
      rw [encodeElements,Vals.length]
      exact .cons (canonical_encode D (Val.fresh D t) v h.1) (canonicalElements_encode D vs h.2)

theorem canonicalMembers_encode {R : Reflection} (D : Defaults R) : {ts : List (Ty R.Name)} →
    (datas ms : Members R ts) → ClearMembers D datas ms →
    CanonicalMembers D datas (encodeMembers ms)
  | _, .nil, .nil, _ => by
      rw [encodeMembers]
      exact .nil
  | _, .cons data datas, .cons v ms, h => by
      rw [ClearMembers] at h
      rw [encodeMembers]
      exact .cons (canonical_encode D data v h.1) (canonicalMembers_encode D datas ms h.2)
end

mutual
/-- Canonical bytes are the encoding of a value that its target takes as it is. -/
theorem Canonical.encodes {R : Reflection} {D : Defaults R} : {t : Ty R.Name} → {data : Val R t} →
    {bs : List UInt8} → Canonical D data bs → ∃ v, encode v = bs ∧ Clear D data v
  | .int w, _, bs, .int h =>
      ⟨.int (BitVec.ofNat _ (leValue bs)),by rw [encode,leBytes_ofNat_leValue _ _ h],trivial⟩
  | _, _, _, .bool b => ⟨.bool b,by rw [encode],trivial⟩
  | .enum u, _, _, .enum word h => ⟨.enum (u.ofInt64 word),by rw [encode,h],trivial⟩
  | .ptr _, _, _, .null => ⟨.null,by rw [encode],trivial⟩
  | .ptr _, _, _, .ref h => by
      obtain ⟨v,hv,hc⟩ := Canonical.encodes h
      exact ⟨.ref v,by rw [encode,hv],by rw [Clear]; exact hc⟩
  | _, _, _, .string s => ⟨.string s,by rw [encode],trivial⟩
  | _, _, _, .vector h => by
      obtain ⟨vs,hlen,hvs,hc⟩ := CanonicalElements.encodes h
      exact ⟨.vector vs,by rw [encode,hlen,hvs],by rw [Clear]; exact ⟨rfl,hc⟩⟩
  | _, _, _, .struct h => by
      obtain ⟨ms,hms,hc⟩ := CanonicalMembers.encodes h
      exact ⟨.struct ms,by rw [encode,hms],by rw [Clear]; exact hc⟩

theorem CanonicalElements.encodes {R : Reflection} {D : Defaults R} : {t : Ty R.Name} →
    {n : Nat} → {bs : List UInt8} → CanonicalElements D t n bs →
    ∃ vs : Vals R t, vs.length = n ∧ encodeElements vs = bs ∧ ClearElements D vs
  | _, _, _, .nil => ⟨.nil,rfl,rfl,trivial⟩
  | _, _, _, .cons h hs => by
      obtain ⟨v,hv,hc⟩ := Canonical.encodes h
      obtain ⟨vs,hlen,hvs,hcs⟩ := CanonicalElements.encodes hs
      exact ⟨.cons v vs,by rw [Vals.length,hlen],by rw [encodeElements,hv,hvs],hc,hcs⟩

theorem CanonicalMembers.encodes {R : Reflection} {D : Defaults R} : {ts : List (Ty R.Name)} →
    {datas : Members R ts} → {bs : List UInt8} → CanonicalMembers D datas bs →
    ∃ ms, encodeMembers ms = bs ∧ ClearMembers D datas ms
  | _, _, _, .nil => ⟨.nil,rfl,trivial⟩
  | _, _, _, .cons h hs => by
      obtain ⟨v,hv,hc⟩ := Canonical.encodes h
      obtain ⟨ms,hms,hcs⟩ := CanonicalMembers.encodes hs
      exact ⟨.cons v ms,by rw [encodeMembers,hv,hms],hc,hcs⟩
end

end NewRpc.Codec

namespace NewRpc.Net
open Bytes Codec

theorem decodeArgs_canonical_iff {R : Reflection} (D : Defaults R) {p : Platform}
    {ts : List (Ty R.Name)} {payload : List UInt8} {args : Members R ts}
    (hlen : payload.length ≤ p.heap) (h : decodeArgs D p ts payload = .ok args) :
    encodeMembers args = payload ↔ CanonicalMembers D (Members.fresh D ts) payload := by
  have haddr := p.addressable
  unfold decodeArgs at h
  cases hd : deserializeArgs D (p.input payload) ts 0 with
  | error e pos => simp [hd] at h
  | ok args' pos =>
    simp only [hd,Except.ok.injEq] at h
    subst h
    obtain ⟨ms,hms⟩ := deserializeMembers_accepts
      (fun _ _ _ _ _ hr => deserialize_accepts hr) (Members.fresh D ts) hd
    have hargs : args' = absorbMembers D (Members.fresh D ts) ms := by
      have heq := hd.symm.trans (hms.result (Members.fresh D ts))
      injection heq
    have hsound : (p.input payload).Sound :=
      ⟨Int.le_refl _,show (payload.length : Int) < 2 ^ 63 by omega⟩
    obtain ⟨bs,⟨hspells,_⟩,⟨_,hfit,hshow⟩,_⟩ := hms.takes hsound
      (show p.limit < 2 ^ 63 by omega) (Int.le_refl 0) (show (0 : Int) ≤ payload.length by omega)
    -- the payload goes on behind what was read
    obtain ⟨rest,hpayload⟩ : ∃ rest, payload = bs ++ rest := by
      refine ⟨payload.drop bs.length,?_⟩
      have hfront : payload.take bs.length = bs := by simpa [slice] using hshow
      calc payload = payload.take bs.length ++ payload.drop bs.length :=
            (List.take_append_drop _ _).symm
        _ = bs ++ payload.drop bs.length := by rw [hfront]
    have hsize : ∀ ns : Members R ts, encodeMembers ns = payload → membersSize ns < 2 ^ 63 := by
      intro ns hns
      rw [← encodeMembers_length,hns]
      omega
    constructor
    · intro hencode
      obtain ⟨heq,_,_⟩ := SpellsMembers.unique args' ms _ bs [] rest
        (spellsMembers_encode args' (hsize args' hencode)) hspells
        (by rw [hencode,List.append_nil,hpayload])
      rw [← hencode]
      rw [heq] at hargs ⊢
      exact canonicalMembers_encode D _ ms ((absorbMembers_eq_iff D _ ms).mp hargs.symm)
    · intro hcanonical
      obtain ⟨ns,hns,hclear⟩ := hcanonical.encodes
      obtain ⟨heq,_,_⟩ := SpellsMembers.unique ns ms _ bs [] rest
        (spellsMembers_encode ns (hsize ns hns)) hspells (by rw [hns,List.append_nil,hpayload])
      rw [hargs,← heq,(absorbMembers_eq_iff D _ ns).mpr hclear]
      exact hns

theorem reflect_committed {R : Reflection} {D : Defaults R} {p : Platform} {reg : Register R}
    {header : PackageHeader} {endpoint : EndPoint} {payload : List UInt8}
    {s s' : CoroFrameWork R}
    (h : reflectCommitFunction D p reg header endpoint payload s = .ok (.ok ()) s') :
    ∃ task : RequestTask R, reg header.rpcType = some task.sig ∧
      s'.coroutineQueue = s.coroutineQueue ++ [.root task] ∧
      decodeArgs D p task.sig.args payload = .ok task.args := by
  unfold reflectCommitFunction at h
  cases hreg : reg header.rpcType with
  | none => simp [hreg] at h
  | some sig =>
    cases hd : decodeArgs D p sig.args payload with
    | error e => simp [hreg,hd] at h
    | ok args =>
      simp only [hreg,hd] at h
      cases hstop : s.stopFlag with
      | true =>
        rw [CoroFrameWork.commit_stopped _ (show (s.create _).stopFlag = true from hstop)] at h
        cases h
      | false =>
        rw [CoroFrameWork.commit_running _ (show (s.create _).stopFlag = false from hstop)] at h
        injection h with _ hs
        subst hs
        exact ⟨_,rfl,rfl,hd⟩

theorem RpcBase.withArgs_bytes {R : Reflection} {p : Platform} {ndebug : Bool}
    {rpc built : RpcBase R} {args : Members R rpc.sig.args}
    (h : rpc.withArgs p ndebug args = .ok built) :
    built.sendBuffer = List.replicate 32 0 ++ encodeMembers args := by
  by_cases hfit : SizeAllowed ndebug (32 + membersSize args)
  · rw [withArgs_eq p hfit] at h
    by_cases hheap : p.heap < 32 + membersSize args
    · rw [if_pos hheap] at h
      cases h
    · rw [if_neg hheap] at h
      cases h
      rfl
  · rw [withArgs_tooLong p hfit] at h
    cases h

/-- A committed coroutine runs with arguments that `with_args`, wherever it returns, puts
behind the header as `encodeMembers`; that is the payload exactly when it is canonical. -/
theorem committed_exact_iff {R : Reflection} (D : Defaults R) {p : Platform} {reg : Register R}
    {header : PackageHeader} {endpoint : EndPoint} {payload : List UInt8}
    {s s' : CoroFrameWork R} (hlen : payload.length ≤ p.heap)
    (h : reflectCommitFunction D p reg header endpoint payload s = .ok (.ok ()) s') :
    ∃ task : RequestTask R, reg header.rpcType = some task.sig ∧
      s'.coroutineQueue = s.coroutineQueue ++ [.root task] ∧
      (∀ (q : Platform) (ndebug : Bool) (rpc built : RpcBase R) (hsig : task.sig = rpc.sig),
        rpc.withArgs q ndebug (hsig ▸ task.args) = .ok built →
          built.sendBuffer = List.replicate 32 0 ++ encodeMembers task.args) ∧
      (encodeMembers task.args = payload ↔
        CanonicalMembers D (Members.fresh D task.sig.args) payload) := by
  obtain ⟨task,hreg,hqueue,hargs⟩ := reflect_committed h
  refine ⟨task,hreg,hqueue,?_,decodeArgs_canonical_iff D hlen hargs⟩
  intro q ndebug rpc built hsig hbuilt
  obtain ⟨sig,args,info⟩ := task
  simp only at hsig
  subst hsig
  exact RpcBase.withArgs_bytes hbuilt

def callOne : PackageHeader := PackageHeader.make 1 1 0 0 0

theorem fourBytes_exact : ∃ task : RequestTask personReflection,
    serving callOne.rpcType = some task.sig ∧ encodeMembers task.args = [5,0,0,0] := by
  obtain ⟨⟨sig,args,info⟩,hreg,_,_,hiff⟩ := @committed_exact_iff _ personDefaults .small serving
    callOne (peerAt (1,7)) [5,0,0,0] idle _ (by decide) rfl
  cases hreg
  have hint : Canonical personDefaults (.int 0 : Val personReflection (.int .w32)) [5,0,0,0] :=
    .int rfl
  exact ⟨_,rfl,hiff.mpr (CanonicalMembers.cons hint .nil)⟩

/-- A byte behind the argument is never read, and the coroutine is committed. -/
theorem trailing_committed : ∃ s' task, reflectCommitFunction personDefaults .small serving
      callOne (peerAt (1,7)) [5,0,0,0,9] idle = .ok (.ok ()) s' ∧
    s'.coroutineQueue = idle.coroutineQueue ++ [.root task] ∧
    encodeMembers task.args = [5,0,0,0] ∧ encodeMembers task.args ≠ [5,0,0,0,9] :=
  ⟨_,_,rfl,rfl,by decide,by decide⟩

end NewRpc.Net
