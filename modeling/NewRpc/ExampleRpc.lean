import NewRpc.Services

/-!
The functions of `__RPC_REGISTER__`, called from another process.
-/

set_option autoImplicit false

namespace NewRpc.Net
open Codec Resumable NewRpc.Task

def pointReflection : Reflection where
  Name := Unit
  members _ := [.int .w64,.int .w64]
  members_ne _ := by simp
  rank _ := 0
  height := 0
  rank_le := flat_rank_le
  rank_lt _ _ h := by simp at h

def pointDefaults : Defaults pointReflection :=
  fun _ => .cons (.int 0) (.cons (.int 0) .nil)

def exampleRegister : Register pointReflection := fun id =>
  if id = 1 then some ⟨[.int .w64,.int .w64],.int .w64⟩
  else if id = 2 then some ⟨[],.int .w64⟩
  else if id = 3 then some ⟨[.struct (),.struct ()],.struct ()⟩
  else none

def readPoint : Members pointReflection [.int .w64,.int .w64] → Word .w64 × Word .w64
  | .cons (.int x) (.cons (.int y) .nil) => (x,y)

def callAdd : (ts : List (Ty Unit)) → Members pointReflection ts → ExampleFrame
  | [.int .w64,.int .w64], .cons (.int a) (.cons (.int b) .nil) => .add a b
  | _, _ => .add 0 0

def callAddPoint : (ts : List (Ty Unit)) → Members pointReflection ts → ExampleFrame
  | [.struct (),.struct ()], .cons (.struct a) (.cons (.struct b) .nil) =>
      .addPoint (readPoint a) (readPoint b)
  | _, _ => .addPoint (0,0) (0,0)

def exampleCall (id : Word .w16) (ts : List (Ty Unit)) (args : Members pointReflection ts) :
    ExampleFrame :=
  if id = 1 then callAdd ts args else if id = 3 then callAddPoint ts args else .echo

def exampleResult : (t : Ty Unit) → ExampleValue → Val pointReflection t
  | .int .w64, .int64 v => .int v
  | .struct (), .point p => .struct (.cons (.int p.1) (.cons (.int p.2) .nil))
  | t, _ => Val.fresh pointDefaults t

def exampleService : Service pointReflection ExampleFrame ExampleValue Unit where
  program := exampleRpc
  body task := exampleCall task.responseInfo.responseRpcType task.sig.args task.args
  result task := exampleResult task.sig.ret

/-- What a function gives when it is called and not asked for. The sums wrap around, where
C++ leaves an overflow of `int64_t` undefined. -/
def exampleAnswer : ExampleFrame → ExampleValue
  | .add a b => .int64 (a + b)
  | .added ret => .int64 ret
  | .echo | .echoed => .int64 0
  | .addPoint a b => .point (a.1 + b.1,a.2 + b.2)

theorem exampleRpc_computes {l : ExampleFrame} {as : List Unit} {v : Option ExampleValue}
    (h : Computes exampleRpc l as v) : v = some (exampleAnswer l) := by
  induction h with
  | @ret l v h => cases l <;> cases h <;> rfl
  | @call l c rest as bs v w h => cases l <;> cases h
  | @ask l rest a as v h hrest ih =>
    cases l <;> cases h
    · exact ih
    · exact ih

theorem point_clear (m : Members pointReflection (pointReflection.members ())) :
    absorb pointDefaults (.struct (pointDefaults ())) (.struct m) =
      (.struct m : Val pointReflection (.struct ())) := by
  match m with
  | .cons (.int x) (.cons (.int y) .nil) => rfl

theorem example_clear {id : Word .w16} {sig : Signature pointReflection}
    (h : exampleRegister id = some sig) (args : Members pointReflection sig.args)
    (value : Val pointReflection sig.ret) :
    absorbMembers pointDefaults (Members.fresh pointDefaults sig.args) args = args ∧
      absorb pointDefaults (Val.fresh pointDefaults sig.ret) value = value := by
  have hsig : sig = ⟨[.int .w64,.int .w64],.int .w64⟩ ∨ sig = ⟨[],.int .w64⟩ ∨
      sig = ⟨[.struct (),.struct ()],.struct ()⟩ := by
    unfold exampleRegister at h
    split at h
    · exact .inl (Option.some.inj h).symm
    · split at h
      · exact .inr (.inl (Option.some.inj h).symm)
      · obtain ⟨_,h⟩ := Option.ite_none_right_eq_some.mp h
        exact .inr (.inr (Option.some.inj h).symm)
  rcases hsig with rfl | rfl | rfl
  · match args, value with
    | .cons (.int a) (.cons (.int b) .nil), .int v => exact ⟨rfl,rfl⟩
  · match args, value with
    | .nil, .int v => exact ⟨rfl,rfl⟩
  · match args, value with
    | .cons (.struct a) (.cons (.struct b) .nil), .struct v =>
      refine ⟨?_,point_clear v⟩
      simp only [Members.fresh,Val.fresh,absorbMembers]
      rw [point_clear a,point_clear b]

theorem absorb_cast {R : Reflection} {D : Defaults R} {t t' : Ty R.Name} (h : t = t')
    (v : Val R t) : absorb D (Val.fresh D t') (h ▸ v) = h ▸ absorb D (Val.fresh D t) v := by
  subst h
  rfl

section
variable {N : Type} [DecidableEq N]

/-- A call of a function of the register receives what the function gives: its results are the
sums of its arguments, or zero, whichever peers have answered and whatever the bytes have been
through. -/
theorem example_calls_answered (dep : Deployment pointReflection N)
    (hregister : dep.register = exampleRegister) (hdefaults : dep.defaults = pointDefaults)
    (s : System dep ExampleFrame ExampleValue Unit)
    (h : Transition.Reaches (System.step exampleService) System.allows (.start dep) s) (n : N)
    (c : Nat) (inv : Invocation dep) (hc : (s.cluster n).invocations[c]? = some inv)
    (hshown : ((s.cluster n).world.net.calls c).onEachFunction = none) :
    ∀ result ∈ ((s.cluster n).world.net.calls c).values,
      ∃ (m : N) (hret : inv.rpc.sig.ret = ((s.cluster n).world.net.calls c).sig.ret),
        result = (peerAt (dep.address m),hret ▸ exampleResult inv.rpc.sig.ret
          (exampleAnswer (exampleCall inv.rpc.funcId inv.rpc.sig.args inv.args))) := by
  intro result hin
  obtain ⟨m,value,hret,⟨v,as,hvalue,hcomputes⟩,hresult⟩ := System.answers h hc result hin
  have hsig : exampleRegister inv.rpc.funcId = some inv.rpc.sig := hregister ▸ inv.registered
  obtain ⟨hargs,habsorb⟩ := example_clear hsig inv.args value
  have hanswer := Option.some.inj (exampleRpc_computes hcomputes)
  have hbody : exampleService.body (inv.task (dep.address n)
      ((s.cluster n).world.tasks c).coroId) =
        exampleCall inv.rpc.funcId inv.rpc.sig.args inv.args := by
    simp only [exampleService,Invocation.task,hdefaults,hargs]
  rw [hbody] at hanswer
  have hgiven : value = exampleResult inv.rpc.sig.ret
      (exampleAnswer (exampleCall inv.rpc.funcId inv.rpc.sig.args inv.args)) := by
    rw [hvalue,hanswer]
    rfl
  refine ⟨m,hret,?_⟩
  rw [hresult,RpcBase.shown,hshown,← hgiven,hdefaults,absorb_cast hret,habsorb]

end

def examplePair : Deployment pointReflection Bool where
  address := pairAddress
  distinct := pairAddress_injective
  platform _ := .small
  defaults := pointDefaults
  register := exampleRegister
  ndebug := false

def addOther : Invocation examplePair where
  rpc := Awaited.build ⟨[.int .w64,.int .w64],.int .w64⟩ 1 [.v4 2 7] .whenAny
    FinishCondition.whenAny_valid 1000000000 none 1
  registered := rfl
  args := .cons (.int 1) (.cons (.int 2) .nil)

def addedOnce : List (SystemEvent examplePair ExampleFrame ExampleValue Unit) :=
  [.net (.call false 1 addOther),.net (.own false (.loop 0)),.net (.own false (.loop 0)),
    .net (.write false 0 0 true 50000),.net (.accept true 0 []),.code true (.other (.start 0)),
    .code true (.suspend 0),.code true (.other (.wake 0)),.code true (.run 0 ()),
    .finish true 0 (some false) 50001,.net (.deliver false 0 []),.net (.own false (.resume 1))]

theorem addedOnce_reached : ∃ s, Transition.Reaches (System.step exampleService) System.allows
    (.start examplePair) s ∧ ((s.cluster false).world.net.calls 0).values.length = 1 ∧
      ((s.cluster false).world.net.calls 0).onEachFunction = none ∧
        (s.cluster false).invocations.length = 1 := by
  have hrun : (Transition.run (System.step exampleService) System.allows (.start examplePair)
      addedOnce).map (fun s => (((s.cluster false).world.net.calls 0).values.length,
        ((s.cluster false).world.net.calls 0).onEachFunction.isNone,
          (s.cluster false).invocations.length)) = some (1,true,1) := by decide +kernel
  obtain ⟨s,hs,heq⟩ := Option.map_eq_some_iff.mp hrun
  simp only [Prod.mk.injEq,Option.isNone_iff_eq_none] at heq
  exact ⟨s,Transition.reaches_of_run hs,heq⟩

theorem addedOnce_computes : ∃ (s : System examplePair ExampleFrame ExampleValue Unit)
    (inv : Invocation examplePair), ((s.cluster false).world.net.calls 0).values.length = 1 ∧
      ∀ result ∈ ((s.cluster false).world.net.calls 0).values,
        exampleService.Answers s.cluster false 0 inv result := by
  obtain ⟨s,hs,hvalue,_,hinv⟩ := addedOnce_reached
  obtain ⟨inv,hget⟩ : ∃ inv, (s.cluster false).invocations[0]? = some inv :=
    ⟨_,List.getElem?_eq_getElem (by omega)⟩
  exact ⟨s,inv,hvalue,remote_calls_compute examplePair exampleService s hs false 0 inv hget⟩

theorem addedOnce_answered : ∃ (s : System examplePair ExampleFrame ExampleValue Unit)
    (inv : Invocation examplePair), ((s.cluster false).world.net.calls 0).values.length = 1 ∧
      ∀ result ∈ ((s.cluster false).world.net.calls 0).values, ∃ (m : Bool)
        (hret : inv.rpc.sig.ret = ((s.cluster false).world.net.calls 0).sig.ret),
          result = (peerAt (examplePair.address m),hret ▸ exampleResult inv.rpc.sig.ret
            (exampleAnswer (exampleCall inv.rpc.funcId inv.rpc.sig.args inv.args))) := by
  obtain ⟨s,hs,hvalue,hshown,hinv⟩ := addedOnce_reached
  obtain ⟨inv,hget⟩ : ∃ inv, (s.cluster false).invocations[0]? = some inv :=
    ⟨_,List.getElem?_eq_getElem (by omega)⟩
  exact ⟨s,inv,hvalue,example_calls_answered examplePair rfl rfl s hs false 0 inv hget hshown⟩

end NewRpc.Net
