import NewRpc.CallAccounting

/-!
Which response hands the coroutine back: what `on_each_result` asks for through
`need_resume`, and what `process_buffer_cb` makes of it.
-/

set_option autoImplicit false

namespace NewRpc.Net
open Bytes Codec

def RpcBase.raised {R : Reflection} (rpc : RpcBase R) (peer : EndPoint)
    (value : Val R rpc.sig.ret) : Bool :=
  match rpc.onEachFunction with
  | some f => (f peer value false).2
  | none => false

def FinishCondition.MetBy (n i : Nat) : FinishCondition → Prop
  | .whenAny => True
  | .whenAll => i = n
  | .whenMajority => i = n / 2 + 1
  | .invalid => False

/-- The responses, of which the first is the `i`-th, are recorded as the callback leaves
them, and the coroutine is handed back by the one that is asked for or meets the condition.
After that the call is no longer pending. -/
def RpcBase.ResumesWhenMet {R : Reflection} (D : Defaults R) (p : Platform) (frame : Nat) :
    RpcBase R → Nat → List (EndPoint × List UInt8) → Prop
  | _, _, [] => True
  | rpc, i, (peer,netBuffer) :: responses =>
      ∀ value, decodeResult D p rpc.sig.ret netBuffer = .ok value →
        ∃ rpc' resumed, rpc.processBufferCb D p peer netBuffer = .ok (rpc',resumed) ∧
          (resumed = some frame ↔ rpc.raised peer value = true ∨
            rpc.finishCondition.MetBy rpc.endpoints.length i) ∧
          (resumed = none ↔ ¬ (rpc.raised peer value = true ∨
            rpc.finishCondition.MetBy rpc.endpoints.length i)) ∧
          rpc' = rpc.record peer value ∧
          (resumed = none → ResumesWhenMet D p frame rpc' (i + 1) responses)

def RpcBase.RaisesWhenMet {R : Reflection} (D : Defaults R) (p : Platform) :
    RpcBase R → Nat → List (EndPoint × List UInt8) → Prop
  | _, _, [] => True
  | rpc, i, (peer,netBuffer) :: responses =>
      ∀ value, decodeResult D p rpc.sig.ret netBuffer = .ok value →
        (rpc.raised peer value = true → rpc.finishCondition.MetBy rpc.endpoints.length i) ∧
          (¬ rpc.finishCondition.MetBy rpc.endpoints.length i →
            RaisesWhenMet D p (rpc.record peer value) (i + 1) responses)

theorem RpcBase.finishes_iff {R : Reflection} (rpc : RpcBase R) : rpc.finishes = true ↔
    rpc.finishCondition.MetBy rpc.endpoints.length (rpc.receivedResults.length + 1) := by
  have hv := rpc.finishValid
  cases hf : rpc.finishCondition with
  | invalid => exact absurd hf hv
  | whenAny => simp [finishes,hf,FinishCondition.met,FinishCondition.MetBy]
  | whenAll => simp [finishes,hf,FinishCondition.met,FinishCondition.MetBy]
  | whenMajority => simp [finishes,hf,FinishCondition.met,FinishCondition.MetBy]

theorem RpcBase.response_eq {R : Reflection} (D : Defaults R) (p : Platform) {rpc : RpcBase R}
    {frame : Nat} (hc : rpc.coroutine = some frame) (peer : EndPoint) {netBuffer : List UInt8}
    {value : Val R rpc.sig.ret} (hd : decodeResult D p rpc.sig.ret netBuffer = .ok value) :
    rpc.processBufferCb D p peer netBuffer =
      .ok (rpc.record peer value,if rpc.finishes then some frame else none) := by
  rw [processBufferCb_eq,hd,hc]

theorem RpcBase.resumesWhenMet_iff {R : Reflection} (D : Defaults R) (p : Platform)
    {rpc : RpcBase R} {frame : Nat} (hc : rpc.coroutine = some frame) {i : Nat}
    (hi : i = rpc.receivedResults.length + 1) (responses : List (EndPoint × List UInt8)) :
    rpc.ResumesWhenMet D p frame i responses ↔ rpc.RaisesWhenMet D p i responses := by
  induction responses generalizing rpc i with
  | nil => exact Iff.rfl
  | cons response responses ih =>
    obtain ⟨peer,netBuffer⟩ := response
    refine forall_congr' (fun value => forall_congr' (fun hd => ?_))
    have heq := response_eq D p hc peer hd
    have hmet := rpc.finishes_iff
    rw [← hi] at hmet
    have hnext := @ih (rpc.record peer value) hc (i + 1)
      (by rw [hi,record,List.length_append]; rfl)
    by_cases hm : rpc.finishCondition.MetBy rpc.endpoints.length i
    · rw [if_pos (hmet.mpr hm)] at heq
      refine iff_of_true ⟨_,_,heq,by simp [hm],by simp [hm],rfl,fun h => by cases h⟩ ?_
      exact ⟨fun _ => hm,fun h => absurd hm h⟩
    · rw [if_neg (fun h => hm (hmet.mp h))] at heq
      constructor
      · rintro ⟨rpc',resumed,hr,hiff,_,hrec,hrest⟩
        rw [heq] at hr
        cases hr
        refine ⟨fun hraised => ?_,fun _ => hnext.mp (hrest rfl)⟩
        cases hiff.mpr (.inl hraised)
      · rintro ⟨hraised,hrest⟩
        have hnot : ¬ (rpc.raised peer value = true ∨
            rpc.finishCondition.MetBy rpc.endpoints.length i) := by
          rintro (h | h)
          · exact hm (hraised h)
          · exact hm h
        exact ⟨_,_,heq,by simp [hnot],by simp [hnot],rfl,fun _ => hnext.mpr (hrest hm)⟩

/-- A registered call is resumed as it should be exactly where its callback asks for
nothing that the finish condition does not grant. -/
theorem resumes_when_met_iff {R : Reflection} (D : Defaults R) (p : Platform) (call : Awaited R)
    (responses : List (EndPoint × List UInt8)) :
    call.toRpcBase.ResumesWhenMet D p call.frame 1 responses ↔
      call.toRpcBase.RaisesWhenMet D p 1 responses :=
  RpcBase.resumesWhenMet_iff D p call.suspended (by rw [call.noResults]; rfl) responses

theorem FinishCondition.whenAll_valid : FinishCondition.whenAll ≠ .invalid := by decide

def oneIsEnough : Awaited personReflection :=
  Awaited.build ⟨[],.bool⟩ 1 [peerAt (1,8888),peerAt (2,8888)]
    .whenAll FinishCondition.whenAll_valid 1000
    (some (fun _ value _ => (value,true))) 5

theorem oneIsEnough_waits :
    ¬ oneIsEnough.toRpcBase.ResumesWhenMet personDefaults .small oneIsEnough.frame 1
      [(peerAt (1,8888),[1])] := by
  intro h
  obtain ⟨rpc',resumed,hr,hiff,_⟩ := h (.bool true) rfl
  have hnone : oneIsEnough.toRpcBase.processBufferCb personDefaults .small (peerAt (1,8888)) [1] =
      .ok (oneIsEnough.toRpcBase.record (peerAt (1,8888)) (.bool true),none) := rfl
  rw [hnone] at hr
  cases hr
  cases hiff.mpr (.inl rfl)

end NewRpc.Net
