import Mathlib.Order.Fin.Basic
import NewRpc.RpcBase

/-!
The books of one call: its answered flags and its results while responses come in
and when it is resumed.
-/

set_option autoImplicit false

namespace NewRpc.Net
open Bytes Codec

structure Awaited (R : Reflection) extends RpcBase R where
  noResults : receivedResults = []
  unanswered : ∀ e ∈ endpoints, e.2 = false
  frame : Nat
  suspended : coroutine = some frame

def Awaited.build {R : Reflection} (sig : Signature R) (funcId : Word .w16)
    (eps : List EndPoint) (finish : FinishCondition) (hf : finish ≠ .invalid)
    (timeout : Word .w64)
    (onEach : Option (EndPoint → Val R sig.ret → Bool → Val R sig.ret × Bool))
    (frame : Nat) : Awaited R where
  toRpcBase :=
    { (RpcBase.init sig funcId).on eps with
      finishCondition := finish
      finishValid := hf
      timeout := timeout
      onEachFunction := onEach
      coroutine := some frame }
  noResults := rfl
  unanswered := by simp [RpcBase.on,RpcBase.init]
  frame := frame
  suspended := rfl

abbrev Awaited.Request {R : Reflection} (call : Awaited R) := Fin call.endpoints.length

def Awaited.sentTo {R : Reflection} (call : Awaited R) (i : call.Request) : Address :=
  (call.endpoints.get i).1.address

/-- The call while it waits: each request is answered at most once, by the endpoint
it was sent to, and no response so far has resumed the coroutine. -/
inductive Pending {R : Reflection} (D : Defaults R) (p : Platform) (call : Awaited R) :
    List call.Request → RpcBase R → Prop where
  | start : Pending D p call [] call.toRpcBase
  | response {answered : List call.Request} {rpc rpc' : RpcBase R} (i : call.Request)
      (netBuffer : List UInt8) : Pending D p call answered rpc → i ∉ answered →
      rpc.processBufferCb D p (peerAt (call.sentTo i)) netBuffer = .ok (rpc',none) →
      Pending D p call (answered ++ [i]) rpc'

def entry {α : Type} (r : EndPoint × Except Error α) : Address × Option Error :=
  (r.1.address,match r.2 with | .ok _ => none | .error e => some e)

/-- One entry for every occurrence of an endpoint in the list: a value where the
request was answered and `RPC_TIMEOUT` where it was not. -/
def OneEntryEach {R : Reflection} (call : Awaited R) (answered : List call.Request)
    {α : Type} (results : List (EndPoint × Except Error α)) : Prop :=
  (results.map entry).Perm ((List.finRange call.endpoints.length).map
    (fun i => (call.sentTo i,if i ∈ answered then none else some .rpcTimeout)))

def Resumes {R : Reflection} (D : Defaults R) (p : Platform) (call : Awaited R)
    (rpc : RpcBase R) (i : call.Request) (rpc' : RpcBase R) : Prop :=
  ∃ netBuffer frame,
    rpc.processBufferCb D p (peerAt (call.sentTo i)) netBuffer = .ok (rpc',some frame)

structure Accounted {R : Reflection} (D : Defaults R) (p : Platform) (call : Awaited R)
    (answered : List call.Request) (rpc : RpcBase R) : Prop where
  atTimeout : OneEntryEach call answered rpc.timeoutCb.receivedResults
  assertionHolds : rpc.timeoutAssertion = true
  atResponse : ∀ i rpc', i ∉ answered → Resumes D p call rpc i rpc' →
    rpc'.receivedResults.map entry = (answered ++ [i]).map (fun j => (call.sentTo j,none)) ∧
      rpc'.receivedResults.length ≤ call.endpoints.length
  notEmpty : 0 < call.endpoints.length → rpc.timeoutCb.receivedResults ≠ [] ∧
    ∀ i rpc', i ∉ answered → Resumes D p call rpc i rpc' → rpc'.receivedResults ≠ []

/-- The answered requests went to pairwise different addresses, and some endpoint of
the list compares equal to each peer that answered. -/
def Distinguished {R : Reflection} (call : Awaited R) (answered : List call.Request) : Prop :=
  (answered.map call.sentTo).Nodup ∧
    ∀ i ∈ answered, ∃ e ∈ call.endpoints, e.1.eq (peerAt (call.sentTo i)) = true

def waiting (eps : List (EndPoint × Bool)) : List Address :=
  (eps.filter (fun e => !e.2)).map (fun e => e.1.address)

def hits (peer : EndPoint) (eps : List (EndPoint × Bool)) : Bool :=
  match eps.find? (fun e => e.1.eq peer) with
  | some e => !e.2
  | none => false

theorem waiting_hit {peer : EndPoint} {eps : List (EndPoint × Bool)}
    (h : hits peer eps = true) :
    (waiting eps).Perm (peer.address :: waiting (markAnswered peer eps)) := by
  induction eps with
  | nil => simp [hits] at h
  | cons e eps ih =>
    obtain ⟨ep,answered⟩ := e
    by_cases he : ep.eq peer = true
    · have ha := EndPoint.address_of_eq he
      have hf : answered = false := by simpa [hits,he] using h
      subst hf
      simp [waiting,markAnswered,he,ha]
    · have hh : hits peer eps = true := by simpa [hits,he] using h
      cases answered with
      | true => simpa [waiting,markAnswered,he] using ih hh
      | false =>
        have hp := (ih hh).cons ep.address
        have hs := hp.trans (List.Perm.swap peer.address ep.address _)
        simpa [waiting,markAnswered,he] using hs

theorem waiting_miss {peer : EndPoint} {eps : List (EndPoint × Bool)}
    (h : hits peer eps = false) : waiting (markAnswered peer eps) = waiting eps := by
  induction eps with
  | nil => rfl
  | cons e eps ih =>
    obtain ⟨ep,answered⟩ := e
    by_cases he : ep.eq peer = true
    · have hf : answered = true := by simpa [hits,he] using h
      subst hf
      simp [waiting,markAnswered,he]
    · have hh : hits peer eps = false := by simpa [hits,he] using h
      cases answered with
      | true => simpa [waiting,markAnswered,he] using ih hh
      | false =>
        have hw := ih hh
        simp only [waiting] at hw
        simp [waiting,markAnswered,he,hw]

theorem hits_mark_self (peer : EndPoint) (eps : List (EndPoint × Bool)) :
    hits peer (markAnswered peer eps) = false := by
  induction eps with
  | nil => rfl
  | cons e eps ih =>
    by_cases he : e.1.eq peer = true
    · simp [hits,markAnswered,he]
    · simpa [hits,markAnswered,he] using ih

theorem hits_mark_of_not (peer other : EndPoint) (eps : List (EndPoint × Bool))
    (h : hits other eps = false) : hits other (markAnswered peer eps) = false := by
  induction eps with
  | nil => rfl
  | cons e eps ih =>
    by_cases he : e.1.eq peer = true <;> by_cases ho : e.1.eq other = true
    · simp [hits,markAnswered,he,ho]
    · simpa [hits,markAnswered,he,ho] using h
    · simpa [hits,markAnswered,he,ho] using h
    · have hh : hits other eps = false := by simpa [hits,ho] using h
      simpa [hits,markAnswered,he,ho] using ih hh

theorem mem_markAnswered {peer : EndPoint} {eps : List (EndPoint × Bool)}
    {e : EndPoint × Bool} (h : e ∈ markAnswered peer eps) :
    e ∈ eps ∨ e.1.eq peer = true := by
  induction eps with
  | nil => simp [markAnswered] at h
  | cons x eps ih =>
    by_cases hx : x.1.eq peer = true
    · simp only [markAnswered,hx,if_true,List.mem_cons] at h
      rcases h with rfl | h
      · exact .inr hx
      · exact .inl (by simp [h])
    · simp only [markAnswered,hx,Bool.false_eq_true,if_false,List.mem_cons] at h
      rcases h with rfl | h
      · exact .inl (by simp)
      · rcases ih h with h | h
        · exact .inl (by simp [h])
        · exact .inr h

structure Marked (eps : List EndPoint) (as : List Address)
    (now : List (EndPoint × Bool)) : Prop where
  endpoints : now.map (fun e => e.1) = eps
  flagged : ∀ e ∈ now, e.2 = true → e.1.address ∈ as
  spent : ∀ a ∈ as, hits (peerAt a) now = false

theorem Marked.mark {eps : List EndPoint} {as : List Address} {now : List (EndPoint × Bool)}
    (h : Marked eps as now) (a : Address) :
    Marked eps (as ++ [a]) (markAnswered (peerAt a) now) where
  endpoints := by rw [markAnswered_endpoints]; exact h.endpoints
  flagged e he ht := by
    rcases mem_markAnswered he with hm | hm
    · simp [h.flagged e hm ht]
    · have ha := EndPoint.address_of_eq hm
      simp [ha,EndPoint.v4]
  spent b hb := by
    rcases List.mem_append.mp hb with hb | hb
    · exact hits_mark_of_not _ _ _ (h.spent b hb)
    · rw [List.mem_singleton.mp hb]
      exact hits_mark_self _ _

theorem Marked.hits_iff {eps : List EndPoint} {as : List Address}
    {now : List (EndPoint × Bool)} (h : Marked eps as now) (a : Address) :
    hits (peerAt a) now = true ↔ a ∉ as ∧ ∃ ep ∈ eps, ep.eq (peerAt a) = true := by
  constructor
  · intro hh
    constructor
    · intro ha
      rw [h.spent a ha] at hh
      simp at hh
    · cases hf : now.find? (fun e => e.1.eq (peerAt a)) with
      | none => simp [hits,hf] at hh
      | some e =>
        have hm := List.mem_of_find?_eq_some hf
        have he := List.find?_some hf
        refine ⟨e.1,?_,he⟩
        rw [← h.endpoints]
        exact List.mem_map_of_mem hm
  · rintro ⟨ha,ep,hep,heq⟩
    rw [← h.endpoints] at hep
    obtain ⟨x,hx,hxe⟩ := List.mem_map.mp hep
    cases hf : now.find? (fun e => e.1.eq (peerAt a)) with
    | none =>
      have hn := List.find?_eq_none.mp hf x hx
      simp only [hxe] at hn
      exact absurd heq hn
    | some e =>
      have hm := List.mem_of_find?_eq_some hf
      have he := List.find?_some hf
      -- A flag on the first match would come from an earlier answer of the same peer.
      have hflag : e.2 = false := by
        cases ht : e.2 with
        | false => rfl
        | true =>
          have hin := h.flagged e hm ht
          rw [EndPoint.address_of_eq he] at hin
          exact absurd hin ha
      simp [hits,hf,hflag]

theorem Awaited.addresses {R : Reflection} (call : Awaited R) :
    call.endpoints.map (fun e => e.1.address) =
      (List.finRange call.endpoints.length).map call.sentTo := by
  apply List.ext_getElem
  · simp
  · intro i h1 h2
    simp [sentTo]

theorem waiting_start {R : Reflection} (call : Awaited R) :
    waiting call.endpoints = call.endpoints.map (fun e => e.1.address) := by
  rw [waiting,List.filter_eq_self.mpr]
  intro e he
  simp [call.unanswered e he]

structure Books {R : Reflection} (call : Awaited R) (answered : List call.Request)
    (rpc : RpcBase R) : Prop where
  nodup : answered.Nodup
  marked : Marked (call.endpoints.map (fun e => e.1)) (answered.map call.sentTo) rpc.endpoints
  values : rpc.receivedResults.map entry = answered.map (fun j => (call.sentTo j,none))
  balanced : Distinguished call answered → (call.endpoints.map (fun e => e.1.address)).Perm
    (answered.map call.sentTo ++ waiting rpc.endpoints)
  atLeast : call.endpoints.length ≤ answered.length + (waiting rpc.endpoints).length
  surplus : ¬ Distinguished call answered →
    call.endpoints.length < answered.length + (waiting rpc.endpoints).length

theorem distinguished_snoc {R : Reflection} (call : Awaited R) (answered : List call.Request)
    (i : call.Request) : Distinguished call (answered ++ [i]) ↔ Distinguished call answered ∧
      call.sentTo i ∉ answered.map call.sentTo ∧
      ∃ ep ∈ call.endpoints.map (fun e => e.1), ep.eq (peerAt (call.sentTo i)) = true := by
  unfold Distinguished
  rw [List.map_append,List.nodup_append]
  constructor
  · intro ⟨⟨hn,_,hd⟩,hr⟩
    obtain ⟨e,he,heq⟩ := hr i (by simp)
    refine ⟨⟨hn,fun j hj => hr j (by simp [hj])⟩,fun hin => ?_,
      e.1,List.mem_map_of_mem he,heq⟩
    exact hd _ hin (call.sentTo i) (by simp) rfl
  · intro ⟨⟨hn,hr⟩,hnot,ep,hep,heq⟩
    obtain ⟨e,he,rfl⟩ := List.mem_map.mp hep
    refine ⟨⟨hn,by simp,fun a ha b hb hab => ?_⟩,fun j hj => ?_⟩
    · have hb' : b = call.sentTo i := by simpa using hb
      exact hnot (hb' ▸ hab ▸ ha)
    · rcases List.mem_append.mp hj with hj | hj
      · exact hr j hj
      · rw [List.mem_singleton.mp hj]
        exact ⟨e,he,heq⟩

theorem Books.start {R : Reflection} (call : Awaited R) : Books call [] call.toRpcBase where
  nodup := List.nodup_nil
  marked := ⟨rfl,fun e he ht => by simp [call.unanswered e he] at ht,by simp⟩
  values := by simp [call.noResults]
  balanced _ := by simp [waiting_start]
  atLeast := by simp [waiting_start]
  surplus h := absurd ⟨List.nodup_nil,by simp⟩ h

theorem Books.record {R : Reflection} {call : Awaited R} {answered : List call.Request}
    {rpc : RpcBase R} (h : Books call answered rpc) {i : call.Request} (hi : i ∉ answered)
    (value : Val R rpc.sig.ret) :
    Books call (answered ++ [i]) (rpc.record (peerAt (call.sentTo i)) value) := by
  have hiff := h.marked.hits_iff (call.sentTo i)
  have hsnoc := distinguished_snoc call answered i
  have hmark : (rpc.record (peerAt (call.sentTo i)) value).endpoints =
      markAnswered (peerAt (call.sentTo i)) rpc.endpoints := rfl
  refine ⟨?_,?_,?_,?_,?_,?_⟩
  · simp only [List.nodup_append,List.mem_singleton]
    refine ⟨h.nodup,by simp,?_⟩
    rintro j hj k rfl rfl
    exact hi hj
  · rw [hmark,List.map_append]
    exact h.marked.mark (call.sentTo i)
  · simp [RpcBase.record,h.values,entry,EndPoint.v4]
  · intro hd
    obtain ⟨hdist,hnew⟩ := hsnoc.mp hd
    have hw := waiting_hit (hiff.mpr hnew)
    have hb := (h.balanced hdist).trans (hw.append_left _)
    rw [hmark]
    simpa [EndPoint.v4] using hb
  · have hl := h.atLeast
    rw [hmark]
    cases hh : hits (peerAt (call.sentTo i)) rpc.endpoints with
    | true =>
      have hw := (waiting_hit hh).length_eq
      simp only [List.length_cons] at hw
      simp only [List.length_append,List.length_singleton]; omega
    | false =>
      rw [waiting_miss hh]
      simp only [List.length_append,List.length_singleton]; omega
  · intro hnd
    have hl := h.atLeast
    rw [hmark]
    cases hh : hits (peerAt (call.sentTo i)) rpc.endpoints with
    | true =>
      have hold : ¬ Distinguished call answered :=
        fun hd => hnd (hsnoc.mpr ⟨hd,hiff.mp hh⟩)
      have hs := h.surplus hold
      have hw := (waiting_hit hh).length_eq
      simp only [List.length_cons] at hw
      simp only [List.length_append,List.length_singleton]; omega
    | false =>
      rw [waiting_miss hh]
      simp only [List.length_append,List.length_singleton]; omega

theorem Pending.books {R : Reflection} {D : Defaults R} {p : Platform} {call : Awaited R}
    {answered : List call.Request} {rpc : RpcBase R} (h : Pending D p call answered rpc) :
    Books call answered rpc := by
  induction h with
  | start => exact Books.start call
  | response i netBuffer _ hi hcb ih =>
    obtain ⟨value,_,rfl,_⟩ := RpcBase.processBufferCb_ok hcb
    exact ih.record hi value

def Awaited.unansweredOf {R : Reflection} (call : Awaited R) (answered : List call.Request) :
    List call.Request :=
  (List.finRange call.endpoints.length).filter (fun i => !decide (i ∈ answered))

theorem Books.split {R : Reflection} {call : Awaited R} {answered : List call.Request}
    {rpc : RpcBase R} (h : Books call answered rpc) :
    (List.finRange call.endpoints.length).Perm (answered ++ call.unansweredOf answered) := by
  have hp := List.filter_append_perm (fun i => decide (i ∈ answered))
    (List.finRange call.endpoints.length)
  have hans : ((List.finRange call.endpoints.length).filter (fun i => decide (i ∈ answered))).Perm
      answered := by
    rw [List.perm_ext_iff_of_nodup ((List.nodup_finRange _).filter _) h.nodup]
    intro i
    simp [List.mem_finRange]
  exact hp.symm.trans (hans.append_right _)

theorem Books.answered_length {R : Reflection} {call : Awaited R}
    {answered : List call.Request} {rpc : RpcBase R} (h : Books call answered rpc) :
    answered.length + (call.unansweredOf answered).length = call.endpoints.length := by
  have hl := h.split.length_eq
  simp only [List.length_finRange,List.length_append] at hl
  omega

theorem Books.expected {R : Reflection} {call : Awaited R} {answered : List call.Request}
    {rpc : RpcBase R} (h : Books call answered rpc) :
    ((List.finRange call.endpoints.length).map
      (fun i => (call.sentTo i,if i ∈ answered then none else some Error.rpcTimeout))).Perm
    (answered.map (fun i => (call.sentTo i,none)) ++
      ((call.unansweredOf answered).map call.sentTo).map (fun a => (a,some Error.rpcTimeout))) := by
  refine (h.split.map _).trans ?_
  rw [List.map_append,List.map_map]
  have ha : answered.map (fun i => (call.sentTo i,
      if i ∈ answered then none else some Error.rpcTimeout)) =
      answered.map (fun i => (call.sentTo i,none)) :=
    List.map_congr_left (fun i hi => by simp [hi])
  have hu : (call.unansweredOf answered).map (fun i => (call.sentTo i,
      if i ∈ answered then none else some Error.rpcTimeout)) =
      (call.unansweredOf answered).map ((fun a => (a,some Error.rpcTimeout)) ∘ call.sentTo) :=
    List.map_congr_left (fun i hi => by
      have hn : i ∉ answered := by simpa [Awaited.unansweredOf] using (List.mem_filter.mp hi).2
      simp [hn])
  rw [ha,hu]

theorem Books.timeoutEntries {R : Reflection} {call : Awaited R} {answered : List call.Request}
    {rpc : RpcBase R} (h : Books call answered rpc) :
    rpc.timeoutCb.receivedResults.map entry = answered.map (fun i => (call.sentTo i,none)) ++
      (waiting rpc.endpoints).map (fun a => (a,some Error.rpcTimeout)) := by
  simp only [RpcBase.timeoutCb,List.map_append,h.values,waiting,List.map_map]
  rfl

theorem Books.timeoutLength {R : Reflection} {call : Awaited R} {answered : List call.Request}
    {rpc : RpcBase R} (h : Books call answered rpc) :
    rpc.timeoutCb.receivedResults.length = answered.length + (waiting rpc.endpoints).length := by
  have hl := congrArg List.length h.timeoutEntries
  simpa using hl

theorem Books.endpointsLength {R : Reflection} {call : Awaited R} {answered : List call.Request}
    {rpc : RpcBase R} (h : Books call answered rpc) :
    rpc.endpoints.length = call.endpoints.length := by
  have hl := congrArg List.length h.marked.endpoints
  simpa using hl

theorem Books.oneEntryEach_of {R : Reflection} {call : Awaited R} {answered : List call.Request}
    {rpc : RpcBase R} (h : Books call answered rpc) (hd : Distinguished call answered) :
    OneEntryEach call answered rpc.timeoutCb.receivedResults := by
  have hb := h.balanced hd
  rw [call.addresses] at hb
  have hs := h.split.map call.sentTo
  rw [List.map_append] at hs
  have hw : (waiting rpc.endpoints).Perm ((call.unansweredOf answered).map call.sentTo) :=
    (List.perm_append_left_iff _).mp (hb.symm.trans hs)
  unfold OneEntryEach
  rw [h.timeoutEntries]
  exact ((hw.map _).append_left _).trans h.expected.symm

theorem Books.resumed {R : Reflection} {D : Defaults R} {p : Platform} {call : Awaited R}
    {answered : List call.Request} {rpc : RpcBase R} (h : Books call answered rpc)
    {i : call.Request} {rpc' : RpcBase R} (hi : i ∉ answered)
    (hr : Resumes D p call rpc i rpc') : Books call (answered ++ [i]) rpc' := by
  obtain ⟨netBuffer,frame,hcb⟩ := hr
  obtain ⟨value,_,rfl,_⟩ := RpcBase.processBufferCb_ok hcb
  exact h.record hi value

theorem accounted_iff_distinguished {R : Reflection} (D : Defaults R) (p : Platform)
    (call : Awaited R) (answered : List call.Request) (rpc : RpcBase R)
    (h : Pending D p call answered rpc) :
    Accounted D p call answered rpc ↔ Distinguished call answered := by
  have hb := h.books
  have hlen := hb.timeoutLength
  constructor
  · intro ha
    by_cases hd : Distinguished call answered
    · exact hd
    · have hs := hb.surplus hd
      have he := ha.atTimeout.length_eq
      simp only [List.length_map,List.length_finRange] at he
      omega
  · intro hd
    have hone := hb.oneEntryEach_of hd
    have he := hone.length_eq
    simp only [List.length_map,List.length_finRange] at he
    refine ⟨hone,?_,?_,?_⟩
    · have hends := hb.endpointsLength
      simp only [RpcBase.timeoutAssertion,beq_iff_eq,he]
      simp [RpcBase.timeoutCb,hends]
    · intro i rpc' hi hr
      have hb' := hb.resumed hi hr
      have hl := congrArg List.length hb'.values
      have hle := hb'.answered_length
      simp only [List.length_map] at hl
      exact ⟨hb'.values,by omega⟩
    · intro hpos
      refine ⟨?_,?_⟩
      · intro hnil
        rw [hnil] at he
        simp at he
        omega
      · intro i rpc' hi hr hnil
        have hv := (hb.resumed hi hr).values
        rw [hnil] at hv
        simp at hv

def askThree (first second third : EndPoint) : Awaited personReflection :=
  Awaited.build ⟨[],.bool⟩ 2 [first,second,third] .whenAll (by decide) 1000000 none 0

def twoAnswered (first second third : EndPoint) : RpcBase personReflection :=
  ((askThree first second third).toRpcBase.record
    (peerAt first.address) (.bool true)).record (peerAt second.address) (.bool true)

def firstTwo (first second third : EndPoint) : List (askThree first second third).Request :=
  [(0 : Fin 3),(1 : Fin 3)]

theorem differentEndpoints_accounted : Accounted personDefaults .small
    (askThree (.v4 1 7) (.v4 2 7) (.v4 3 7)) (firstTwo _ _ _)
    (twoAnswered (.v4 1 7) (.v4 2 7) (.v4 3 7)) := by
  refine (accounted_iff_distinguished personDefaults .small
    (askThree (.v4 1 7) (.v4 2 7) (.v4 3 7)) (firstTwo _ _ _)
    (twoAnswered (.v4 1 7) (.v4 2 7) (.v4 3 7))
    (Pending.response ⟨1,by decide⟩ [1]
      (Pending.response ⟨0,by decide⟩ [1] Pending.start (by decide) rfl) (by decide) rfl)).mpr
    ⟨?_,?_⟩
  · show [((1 : BitVec 32),(7 : BitVec 16)),(2,7)].Nodup
    decide
  · intro i _
    exact ⟨_,List.get_mem _ i,by revert i; decide⟩

/-- One endpoint given twice and answered twice: its second flag is never set, so the
timeout reports it once more and leaves four results for three endpoints. -/
theorem repeatedEndpoint_not_accounted :
    Pending personDefaults .small (askThree (.v4 1 7) (.v4 1 7) (.v4 3 7))
      (firstTwo _ _ _) (twoAnswered (.v4 1 7) (.v4 1 7) (.v4 3 7)) ∧
    (twoAnswered (.v4 1 7) (.v4 1 7) (.v4 3 7)).timeoutCb.receivedResults.map entry =
      [((1,7),none),((1,7),none),((1,7),some .rpcTimeout),((3,7),some .rpcTimeout)] ∧
    (twoAnswered (.v4 1 7) (.v4 1 7) (.v4 3 7)).timeoutAssertion = false ∧
    ¬ Accounted personDefaults .small (askThree (.v4 1 7) (.v4 1 7) (.v4 3 7))
      (firstTwo _ _ _) (twoAnswered (.v4 1 7) (.v4 1 7) (.v4 3 7)) := by
  have hf : (twoAnswered (.v4 1 7) (.v4 1 7) (.v4 3 7)).timeoutAssertion = false := by decide
  refine ⟨Pending.response ⟨1,by decide⟩ [1]
    (Pending.response ⟨0,by decide⟩ [1] Pending.start (by decide) rfl) (by decide) rfl,
    by decide,hf,fun h => ?_⟩
  have ht := h.assertionHolds
  rw [hf] at ht
  cases ht

end NewRpc.Net
