import Mathlib.Data.List.Nodup
import NewRpc.Attribution

/-!
Calls from end to end: the steps of a cluster as steps of the calls of each process, and
what a caller receives as what the coroutines of its peers have returned.
-/

set_option autoImplicit false

namespace NewRpc.Net
open Codec

section
variable {R : Reflection} {N : Type} {dep : Deployment R N}
variable {ok : World R → Event R → Bool} {lossy : Prop} {s t : Cluster dep}

theorem Request.Stems.carried {m : N} {rq : Request N} {inv : Invocation dep}
    (h : rq.Stems s m inv) (pace : List Nat) : Carries ⟨some rq.remote,rq.bytes,pace⟩ rq.remote
      (requestHeader inv.rpc.funcId (s.coroId rq.origin) (dep.address rq.origin.client).2
        (membersSize inv.args)) (encodeMembers inv.args) := by
  have haddr := (dep.platform rq.origin.client).addressable
  have hroom := h.room
  refine ⟨rfl,h.bytes,?_⟩
  rw [encodeMembers_length]
  exact payloadLen_toNat (by omega)

theorem Process.connection_some {n : N} {pr next : Process dep} {origin : Origin N}
    {socket : Socket} {finish : Finish} (h : pr.connection n origin socket = some (finish,next)) :
    ∃ framework, receive dep.defaults (dep.platform n) dep.ndebug dep.register socket
        pr.framework = (finish,framework) ∧ (∀ e, finish ≠ .died e) ∧
      next = pr.put origin framework := by
  unfold connection at h
  split at h
  · cases h
  · rename_i f framework hlive hr
    simp only [Option.some.injEq,Prod.mk.injEq] at h
    obtain ⟨rfl,rfl⟩ := h
    exact ⟨framework,hr,hlive,rfl⟩

theorem Process.accept_change (hs : s.Sound) {n : N} {k : Nat} {rq : Request N} {pace : List Nat}
    {pr : Process dep} (hk : (s n).requests[k]? = some rq)
    (h : (s n).accept n k rq pace = some pr) : Change ok lossy s n pr := by
  obtain ⟨inv,hinv⟩ := (hs n).requests rq (List.mem_of_getElem? hk)
  obtain ⟨⟨finish,next⟩,hcon,hpr⟩ := Option.map_eq_some_iff.mp h
  obtain ⟨framework,hr,hlive,hnext⟩ := Process.connection_some hcon
  replace hpr := hpr.symm.trans hnext
  obtain ⟨hnet,hqueue⟩ := receive_request (hinv.carried pace) hr hlive
  have hclient : (rq.remote.1,(dep.address rq.origin.client).2) = dep.address rq.origin.client := by
    rw [hinv.remote]
  rw [hpr]
  rcases hqueue with hq | hq
  · have hsame : Process.put { s n with requests := (s n).requests.eraseIdx k } rq.origin
        framework = { s n with
          requests := (s n).requests.eraseIdx k
          runningCoroCnt := framework.runningCoroCnt } := by
      simp [Process.put,hnet,hq,Process.framework]
    rw [hsame]
    exact .refuse k framework.runningCoroCnt
  · have hsame : Process.put { s n with requests := (s n).requests.eraseIdx k } rq.origin
        framework = { s n with
          requests := (s n).requests.eraseIdx k
          runningCoroCnt := framework.runningCoroCnt
          executions := (s n).executions ++ [⟨rq.origin,
            inv.task (dep.address rq.origin.client) (s.coroId rq.origin),none⟩] } := by
      simp [Process.put,hnet,hq,Process.framework,Ready.coroutine,Ready.task,hclient,
        List.filterMap_cons]
    rw [hsame]
    exact .accept k framework.runningCoroCnt rq inv hk hinv

theorem Process.deliver_lost {n : N} {pr pr' : Process dep} {k : Nat} {r : Response}
    {pace : List Nat} (hr : r.Valid) (hheap : (dep.platform n).heap < r.payload.length)
    (h : pr.deliver n k r pace = some pr') : pr' = { pr with world := pr.world.take k } := by
  have hc : Carries (r.socket pace) r.remote r.header r.payload := ⟨rfl,rfl,hr.payloadLen⟩
  have hlen : (r.socket pace).payloadLen = r.payload.length := hc.length
  have hlong : ¬ (r.socket pace).stream.length < 32 := by
    rw [hc.stream]
    simp
  have hbody := receiveBody_eq dep.defaults (dep.platform n) dep.ndebug dep.register
    (peerAt r.remote) (r.socket pace)
    (Process.framework { pr with world := pr.world.take k })
  rw [if_neg hlong,hlen,if_pos hheap] at hbody
  have hthrown : Stop.exception.isException = true := rfl
  simp only [Process.deliver,Process.connection,receive,hc.remote,hbody,hthrown,if_true] at h
  cases h
  simp [Process.put,Process.framework]

theorem Process.deliver_change (hs : s.Sound) {n : N} {k : Nat} {r : Response} {pace : List Nat}
    {pr : Process dep} (hk : (s n).world.network[k]? = some r)
    (h : (s n).deliver n k r pace = some pr) (hok : ok (s n).world (.deliver k) = true)
    (hlossy : r.payload.length ≤ (dep.platform n).heap ∨ lossy) : Change ok lossy s n pr := by
  obtain ⟨m,x,hx,v,hv⟩ := (hs n).posts 0 r (List.mem_append_left _ (List.mem_of_getElem? hk))
  by_cases hheap : r.payload.length ≤ (dep.platform n).heap
  · obtain ⟨w,hw,rfl⟩ := Process.deliver_world hv.valid hheap h
    refine .step (.deliver k) w rfl hok ?_
    simp only [World.step,hk]
    exact hw
  · rw [Process.deliver_lost hv.valid (by omega) h]
    exact .drop k (hlossy.resolve_left hheap)

theorem Cluster.Sound.pending_new (hs : s.Sound) {o : Origin N} {m : N}
    (hw : ((s o.client).world.tasks o.call).sends[o.occurrence]? = some .pending) :
    o ∉ (s m).origins := by
  intro ho
  have hsent : ∃ inv, o.Sent s m inv := by
    rcases List.mem_append.mp ho with ho | ho
    · obtain ⟨rq,hrq,rfl⟩ := List.mem_map.mp ho
      obtain ⟨inv,hinv⟩ := (hs m).requests rq hrq
      exact ⟨inv,hinv.sent⟩
    · obtain ⟨x,hx,rfl⟩ := List.mem_map.mp ho
      obtain ⟨inv,hinv⟩ := (hs m).executions x hx
      exact ⟨inv,hinv.sent⟩
  obtain ⟨inv,hinv⟩ := hsent
  rw [hinv.written] at hw
  cases hw

theorem Cluster.Sound.running_new (hs : s.Sound) {n m : N} {j : Nat} {x : Execution R N}
    (hj : (s m).executions[j]? = some x) (hn : x.result = none) (hc : x.origin.client = n) :
    (x.origin.call,x.origin.occurrence) ∉ (s n).world.answered := by
  intro ha
  obtain ⟨m',y,hy,ho,hsome⟩ := (hs n).answered _ ha
  have horigin : y.origin = x.origin := by
    rw [ho,← hc]
  have hx := List.mem_of_getElem? hj
  obtain ⟨inv,hinv⟩ := (hs m).executions x hx
  obtain ⟨inv',hinv'⟩ := (hs m').executions y hy
  have hsent := hinv'.sent
  rw [horigin] at hsent
  obtain ⟨hm,_⟩ := hsent.unique hinv.sent
  subst hm
  have hnodup := ((hs m').once.sublist (List.sublist_append_right _ _) :
    ((s m').executions.map Execution.origin).Nodup)
  have heq := List.inj_on_of_nodup_map hnodup hy hx horigin
  rw [heq,hn] at hsome
  cases hsome

/-- The result of a coroutine, as the response that carries it to its caller. -/
theorem Execution.response_returns {n m : N} {x : Execution R N} {v : Val R x.task.sig.ret}
    {endpoint : EndPoint} {bytes : List UInt8} (port : Word .w16) (hc : x.origin.client = n)
    (h : sendResponse (dep.platform m) dep.ndebug x.task.responseInfo (dep.address m).2 v =
      .ok (endpoint,bytes)) :
    endpoint = x.task.responseInfo.responseToEndPoint ∧
      (x.response ((dep.address m).1,port) bytes).Returns dep n m
        ⟨x.origin,x.task,some v⟩ v := by
  replace h := (sendResponse_eq (dep.platform m) dep.ndebug x.task.responseInfo
    (dep.address m).2 v).symm.trans h
  by_cases hheap : (dep.platform m).heap < 32 + getSerializeSize v
  · rw [if_pos hheap] at h
    cases h
  · rw [if_neg hheap] at h
    cases h
    refine ⟨rfl,rfl,?_,rfl,?_,?_,Nat.le_of_not_lt hheap⟩
    · rw [← hc]
      rfl
    · show PackageHeader.parse _ = _
      rw [List.take_left' (PackageHeader.bytes_length _),PackageHeader.parse_bytes]
    · exact List.drop_left' (PackageHeader.bytes_length _)

theorem Cluster.start_sound (dep : Deployment R N) : (Cluster.start dep).Sound := by
  intro n
  refine ⟨World.start_sound _ _,World.start_posted _ _,rfl,rfl,?_,?_,?_,?_,?_,?_,?_,?_,.nil⟩ <;>
    simp [Cluster.start,World.start,World.posts,Process.origins]

abbrev Deployment.calls (dep : Deployment R N) (n : N) : World R → Event R → Option (World R) :=
  World.step dep.defaults (dep.platform n) dep.ndebug

theorem Cluster.Sound.answers (hs : s.Sound) {n m : N} {x : Execution R N}
    {v : Val R x.task.sig.ret} {r : Response} (hx : x ∈ (s m).executions)
    (hr : r.Returns dep n m x v) : dep.calls n (s n).world
      (.answer r.call r.occurrence r.remote (dep.address m).2 r.payload) =
        some ((s n).answered r).world := by
  obtain ⟨inv,hinv⟩ := (hs m).executions x hx
  have hsent := hinv.sent
  rw [hr.origin] at hsent
  have hmade := (hs n).made r.call inv hsent.made
  have hlen : r.payload.length = getSerializeSize v := by
    rw [hr.payload,encode_length]
  have hheader : r.header = responseHeader ⟨peerAt r.remote,((s n).world.tasks r.call).coroId,
      ((s n).world.net.calls r.call).funcId⟩ (dep.address m).2 r.payload.length := by
    have hinfo : x.task.responseInfo = ⟨peerAt (dep.address x.origin.client),
        s.coroId x.origin,inv.rpc.funcId⟩ := by
      rw [hinv.task]
      rfl
    rw [hr.header,hlen,hinfo,hmade.funcId,hr.origin]
    rfl
  simp only [Deployment.calls,World.step]
  rw [if_pos ⟨hsent.call,hsent.written⟩]
  simp only [World.answer,Process.answered,← hheader]

theorem Change.refines (hs : s.Sound) {n : N} {pr : Process dep}
    (hok : ∀ (w : World R) e, (∀ k, e ≠ .deliver k) → ok w e = true)
    (h : Change ok False s n pr) :
    Transition.Reaches (dep.calls n) ok (s n).world pr.world := by
  cases h with
  | step e w he hok' hw => exact .single ⟨e,hok',hw⟩
  | drop k hl => exact hl.elim
  | call coroId rpc inv w hl hw => exact .single ⟨_,hok _ (.call coroId rpc) (fun _ => nofun),hw⟩
  | answer m x v r hx hr hnew =>
    exact .single ⟨_,hok _ (.answer _ _ _ _ _) (fun _ => nofun),hs.answers hx hr⟩
  | _ => exact .refl

/-- Every coroutine that serves a request serves one of a call that was made to its process,
with the arguments of the call; no request has two, and no request is answered twice or
before its coroutine has returned. -/
structure Cluster.Served (s : Cluster dep) : Prop where
  asked : ∀ m, ∀ x ∈ (s m).executions, ∃ inv endpoint,
    (s x.origin.client).invocations[x.origin.call]? = some inv ∧
    inv.rpc.endpoints[x.origin.occurrence]? = some endpoint ∧
    endpoint.1.address = dep.address m ∧
    x.task = inv.task (dep.address x.origin.client) (s.coroId x.origin)
  once : ∀ (m m' : N) (j j' : Nat) (x x' : Execution R N), (s m).executions[j]? = some x →
    (s m').executions[j']? = some x' → x.origin = x'.origin → m = m' ∧ j = j'
  answered : ∀ n, ∀ a ∈ (s n).world.answered, ∃ m, ∃ x ∈ (s m).executions,
    x.origin = ⟨n,a.1,a.2⟩ ∧ x.result.isSome = true
  answeredOnce : ∀ n, (s n).world.answered.Nodup

theorem Cluster.Sound.served (hs : s.Sound) : s.Served := by
  refine ⟨fun m x hx => ?_,fun m m' j j' x x' hj hj' ho => ?_,fun n => (hs n).answered,
    fun n => (hs n).answeredOnce⟩
  · obtain ⟨inv,hinv⟩ := (hs m).executions x hx
    obtain ⟨address,hget,haddr⟩ := Option.map_eq_some_iff.mp hinv.sent.addressed
    rw [List.getElem?_map] at hget
    obtain ⟨endpoint,hep,rfl⟩ := Option.map_eq_some_iff.mp hget
    exact ⟨inv,endpoint,hinv.sent.made,hep,haddr,hinv.task⟩
  · obtain ⟨inv,hinv⟩ := (hs m).executions x (List.mem_of_getElem? hj)
    obtain ⟨inv',hinv'⟩ := (hs m').executions x' (List.mem_of_getElem? hj')
    have hsent := hinv.sent
    rw [ho] at hsent
    obtain ⟨hm,_⟩ := hsent.unique hinv'.sent
    subst hm
    have hnodup := ((hs m).once.sublist (List.sublist_append_right _ _) :
      ((s m).executions.map Execution.origin).Nodup)
    obtain ⟨hlt,_⟩ := List.getElem?_eq_some_iff.mp hj
    refine ⟨rfl,(List.getElem?_inj (by simpa using hlt) hnodup).mp ?_⟩
    simp only [List.getElem?_map,hj,hj',Option.map_some,ho]

def Execution.Returned (x : Execution R N) {t : Ty R.Name} (v : Val R t) : Prop :=
  ∃ h : t = x.task.sig.ret, x.result = some (h ▸ v)

/-- The pair that the coroutine `x` of the process `m` is the reason of among the results of
the call `c` of the process `n`. -/
structure Execution.Yields (s : Cluster dep) (n : N) (c : Nat) (inv : Invocation dep) (m : N)
    (x : Execution R N) (result : EndPoint × Val R ((s n).world.net.calls c).sig.ret) :
    Prop where
  serves : x ∈ (s m).executions
  client : x.origin.client = n
  call : x.origin.call = c
  task : x.task = inv.task (dep.address n) ((s n).world.tasks c).coroId
  value : ∃ v, x.Returned v ∧ result = (peerAt (dep.address m),
    ((s n).world.net.calls c).shown (peerAt (dep.address m))
      (absorb dep.defaults (Val.fresh dep.defaults ((s n).world.net.calls c).sig.ret) v))

theorem encode_cast {t t' : Ty R.Name} (h : t = t') (v : Val R t') :
    encode (h ▸ v) = encode v := by
  subst h
  rfl

theorem getSerializeSize_cast {t t' : Ty R.Name} (h : t = t') (v : Val R t') :
    getSerializeSize (h ▸ v) = getSerializeSize v := by
  subst h
  rfl

theorem cast_back {t t' : Ty R.Name} (h : t = t') (v : Val R t') :
    h ▸ (h ▸ v : Val R t) = v := by
  subst h
  rfl

/-- A response that has become a result of the call it was sent for. -/
theorem Cluster.Sound.yields (hs : s.Sound) {n : N} {c : Nat} {inv : Invocation dep}
    (hc : (s n).invocations[c]? = some inv) {r : Response} (hr : r.Stems s n) (hcall : r.call = c)
    {result : EndPoint × Val R ((s n).world.net.calls c).sig.ret}
    (h : StemsFrom dep.defaults (dep.platform n) ((s n).world.net.calls c) r result) :
    ∃ m, ∃ x : Execution R N, x.Yields s n c inv m result ∧
      x.origin = ⟨n,r.call,r.occurrence⟩ := by
  obtain ⟨m,x,hx,v,hv⟩ := hr
  obtain ⟨inv',hinv⟩ := (hs m).executions x hx
  have hsent := hinv.sent
  rw [hv.origin,hcall] at hsent
  have hsame := hc.symm.trans hsent.made
  simp only [Option.some.injEq] at hsame
  subst hsame
  have hsig := ((hs n).made c inv hc).sig
  have htask : x.task = inv.task (dep.address n) ((s n).world.tasks c).coroId := by
    rw [hinv.task,Cluster.coroId,hv.origin,hcall]
  have hret : ((s n).world.net.calls c).sig.ret = x.task.sig.ret := by
    rw [htask,hsig]
    rfl
  obtain ⟨value,hdecode,rfl⟩ := h
  have hpeer : r.peer = peerAt (dep.address m) := by
    rw [Response.peer,hv.header,peerAt,hv.remote]
    rfl
  have hencode : r.payload = encode (hret ▸ v : Val R ((s n).world.net.calls c).sig.ret) := by
    rw [hv.payload,encode_cast hret]
  rw [hencode] at hdecode
  have haddr := (dep.platform m).addressable
  have hroom := hv.room
  have hvalue := decodeResult_of_encode (by rw [getSerializeSize_cast hret]; omega) hdecode
  refine ⟨m,x,⟨hx,by rw [hv.origin],by rw [hv.origin]; exact hcall,htask,hret ▸ v,⟨hret,?_⟩,?_⟩,
    hv.origin⟩
  · rw [hv.result,cast_back hret v]
  · rw [hvalue,hpeer]

/-- A relation between two lists through the elements that witness it. -/
theorem forall₂_exists {α β γ δ : Type} {P : α → β → Prop} {Q : γ → β → Prop} {f : γ → δ}
    {g : α → δ} {as : List α} {bs : List β} (h : List.Forall₂ P as bs)
    (hq : ∀ a ∈ as, ∀ b, P a b → ∃ c, Q c b ∧ f c = g a) :
    ∃ cs, List.Forall₂ Q cs bs ∧ cs.map f = as.map g := by
  induction h with
  | nil => exact ⟨[],.nil,rfl⟩
  | @cons a b as bs hab _ ih =>
    obtain ⟨c,hc,hf⟩ := hq a (List.mem_cons_self ..) b hab
    obtain ⟨cs,hcs,hmap⟩ := ih (fun a ha => hq a (List.mem_cons_of_mem _ ha))
    exact ⟨c :: cs,.cons hc hcs,by rw [List.map_cons,List.map_cons,hf,hmap]⟩

theorem World.reached_own {D : Defaults R} {p : Platform} {ndebug : Bool} {net : NetService R}
    {now : Int} {w : World R} (h : Transition.Reaches (World.step D p ndebug) responseInTime
      (.start net now) w) : w.Logged D p ∧ w.Own := by
  have hinv : (w.Sound ∧ w.Posted) ∧ w.Logged D p ∧ w.Own := by
    refine h.invariant (I := fun w => (w.Sound ∧ w.Posted) ∧ w.Logged D p ∧ w.Own)
      (fun w e w' hi hok he => ?_) ⟨⟨World.start_sound net now,World.start_posted net now⟩,?_⟩
    · obtain ⟨⟨hs,hp⟩,hl,ho⟩ := hi
      have hst := World.step_stepped he
      exact ⟨⟨hst.sound hs,hst.posted hp⟩,hst.logged hs hl,hst.own hok hs hp hl ho⟩
    · exact ⟨⟨fun _ _ => rfl,fun _ h => absurd h (Nat.not_lt_zero _)⟩,
        fun _ h => absurd h (Nat.not_lt_zero _)⟩
  exact hinv.2

theorem askedOnce_reached : ∃ s, Transition.Reaches Cluster.step
    (fun s e => s.bufferLives e && s.memoryLasts e && s.inTime e) (.start pair) s ∧
      (s true).executions.length = 1 ∧ ((s false).world.net.calls 0).values.length = 1 ∧
      (s false).invocations.length = 1 := by
  have hrun : (Transition.run Cluster.step
      (fun s e => s.bufferLives e && s.memoryLasts e && s.inTime e) (.start pair) askedOnce).map
      (fun s => ((s true).executions.length,((s false).world.net.calls 0).values.length,
        (s false).invocations.length)) = some (1,1,1) := by decide +kernel
  obtain ⟨s,hs,heq⟩ := Option.map_eq_some_iff.mp hrun
  simp only [Prod.mk.injEq] at heq
  exact ⟨s,Transition.reaches_of_run hs,heq⟩

variable [DecidableEq N]

theorem Cluster.Sound.write_stems (hs : s.Sound) {n m : N} {c i : Nat} {w : World R} (port : Word .w16)
    {endpoint : EndPoint × Bool} (hi : ((s n).world.net.calls c).endpoints[i]? = some endpoint)
    (ha : endpoint.1.address = dep.address m)
    (hst : Stepped dep.defaults (dep.platform n) (s n).world (.sent c i true) w) :
    ∃ inv, Request.Stems (s.set n { s n with world := w }) m
      ⟨⟨n,c,i⟩,((dep.address n).1,port),((s n).world.net.calls c).sendBuffer⟩ inv := by
  cases hst with
  | sent _ _ _ hc hp =>
  have hlt : c < (s n).invocations.length := by
    rw [(hs n).invoked]
    exact hc
  have hget : (s n).invocations[c]? = some ((s n).invocations[c]) :=
    List.getElem?_eq_getElem hlt
  have hmade := (hs n).made c _ hget
  have hself : (s.set n { s n with world := (s n).world.sent c i true }) n =
      { s n with world := (s n).world.sent c i true } := Cluster.set_self ..
  obtain ⟨hil,_⟩ := List.getElem?_eq_some_iff.mp hp
  refine ⟨(s n).invocations[c],⟨?_,?_,?_,?_⟩,rfl,?_,hmade.room⟩
  · simp only [hself]
    exact hc
  · simp only [hself]
    exact hget
  · simp only [hself]
    simp only [World.sent,World.setTask,Function.update_self]
    exact List.getElem?_set_self hil
  · rw [← hmade.endpoints,List.getElem?_map,hi]
    exact congrArg some ha
  · simp only [Cluster.coroId,hself]
    simp only [World.sent,World.setTask,Function.update_self]
    exact hmade.sendBuffer

abbrev Moved (ok : World R → Event R → Bool) (lossy : Prop) : Cluster dep → Cluster dep → Prop :=
  Relation.ReflTransGen (Moves ok lossy)

theorem Change.moved {n : N} {pr : Process dep} (h : Change ok lossy s n pr) :
    Moved ok lossy s (s.set n pr) := .single ⟨n,pr,h,rfl⟩

theorem Cluster.write_moved (hs : s.Sound) {n m : N} {c i : Nat} {port : Word .w16}
    (h : s.write n c i m port = some t) (hok : ok (s n).world (.sent c i true) = true) :
    Moved ok lossy s t := by
  unfold Cluster.write at h
  simp only at h
  split at h
  · cases h
  · rename_i endpoint hi
    split at h
    · rename_i ha
      obtain ⟨pr,hpr,rfl⟩ := Option.map_eq_some_iff.mp h
      obtain ⟨w,hw,rfl⟩ := Option.map_eq_some_iff.mp hpr
      have hst := World.step_stepped hw
      have hfirst : Change ok lossy s n { s n with world := w } := .step _ w rfl hok hw
      obtain ⟨inv,hinv⟩ := hs.write_stems port hi ha hst
      have horigins : (s.set n { s n with world := w } m).origins = (s m).origins := by
        by_cases hm : m = n
        · subst hm
          rw [Cluster.set_self]
          rfl
        · rw [Cluster.set_of_ne s hm]
      refine hfirst.moved.trans (Change.moved (.write _ inv hinv ?_))
      rw [horigins]
      cases hst with
      | sent _ _ _ hc hp => exact hs.pending_new hp
    · cases h

theorem Cluster.finish_moved (hs : s.Sound) {n : N} {j : Nat}
    {result : (task : RequestTask R) → Val R task.sig.ret} {target : Option N}
    {port : Word .w16} (h : s.finish n j result target port = some t) : Moved ok lossy s t := by
  unfold Cluster.finish at h
  split at h
  · cases h
  · rename_i x hj
    split at h
    · cases h
    · rename_i hnone
      simp only [Bool.not_eq_true,Option.isSome_eq_false_iff,Option.isNone_iff_eq_none] at hnone
      rw [(hs n).listenPort] at h
      split at h
      · cases h
      · rename_i endpoint bytes hsend
        have hfirst : Change ok lossy s n
            ((s n).ended j ⟨x.origin,x.task,some (result x.task)⟩) :=
          .finish j x _ hj hnone
        simp only at h
        split at h
        · cases h
          exact hfirst.moved
        · rename_i m
          split at h
          · rename_i ha
            cases h
            obtain ⟨inv,hinv⟩ := (hs n).executions x (List.mem_of_getElem? hj)
            have hclient : x.origin.client = m := by
              have hend := (Execution.response_returns port rfl hsend).1
              rw [hend,hinv.task] at ha
              exact dep.distinct ha
            have hr := (Execution.response_returns port hclient hsend).2
            have hnew := hs.running_new hj hnone hclient
            obtain ⟨hlt,_⟩ := List.getElem?_eq_some_iff.mp hj
            refine hfirst.moved.trans (Change.moved (.answer n _ _ _ ?_ hr ?_))
            · rw [Cluster.set_self]
              exact List.mem_set hlt _
            · by_cases hm : m = n
              · subst hm
                rw [Cluster.set_self]
                exact hnew
              · rw [Cluster.set_of_ne s hm]
                exact hnew
          · cases h

/-- What `ok` says of a delivery is to hold where the cluster delivers. -/
theorem Cluster.step_moved (hs : s.Sound) {e : ClusterEvent dep} (h : s.step e = some t)
    (hok : ∀ (w : World R) e, (∀ k, e ≠ .deliver k) → ok w e = true)
    (hdeliver : ∀ n k pace, e = .deliver n k pace → ok (s n).world (.deliver k) = true)
    (hlossy : s.memoryLasts e = true ∨ lossy) : Moved ok lossy s t := by
  cases e with
  | own n e =>
    obtain ⟨he,h⟩ := Option.ite_none_right_eq_some.mp h
    obtain ⟨pr,hpr,rfl⟩ := Option.map_eq_some_iff.mp h
    obtain ⟨w,hw,rfl⟩ := Option.map_eq_some_iff.mp hpr
    refine Change.moved (.step e w ?_ (hok _ e ?_) hw)
    · cases e <;> first | rfl | cases he
    · rintro k rfl
      cases he
  | call n coroId inv =>
    obtain ⟨pr,hpr,rfl⟩ := Option.map_eq_some_iff.mp h
    unfold Process.call at hpr
    split at hpr
    · cases hpr
    · rename_i rpc hl
      obtain ⟨next,hnext,rfl⟩ := Option.map_eq_some_iff.mp hpr
      obtain ⟨w,hw,rfl⟩ := Option.map_eq_some_iff.mp hnext
      exact Change.moved (.call coroId rpc inv w hl hw)
  | write n c i m port => exact Cluster.write_moved hs h (hok _ (.sent c i true) (fun _ => nofun))
  | fail n c i =>
    obtain ⟨pr,hpr,rfl⟩ := Option.map_eq_some_iff.mp h
    obtain ⟨w,hw,rfl⟩ := Option.map_eq_some_iff.mp hpr
    exact Change.moved (.step _ w rfl (hok _ (.sent c i false) (fun _ => nofun)) hw)
  | accept n k pace =>
    simp only [Cluster.step] at h
    split at h
    · cases h
    · rename_i rq hk
      obtain ⟨pr,hpr,rfl⟩ := Option.map_eq_some_iff.mp h
      exact (Process.accept_change hs hk hpr).moved
  | finish n j result target port => exact Cluster.finish_moved hs h
  | deliver n k pace =>
    simp only [Cluster.step] at h
    split at h
    · cases h
    · rename_i r hk
      obtain ⟨pr,hpr,rfl⟩ := Option.map_eq_some_iff.mp h
      refine (Process.deliver_change hs hk hpr (hdeliver n k pace rfl) ?_).moved
      refine hlossy.imp_left fun hmem => ?_
      simpa [Cluster.memoryLasts,hk] using hmem
  | stop n =>
    cases h
    exact Change.moved .stop

theorem Moved.sound (h : Moved ok lossy s t) (hs : s.Sound) : t.Sound := by
  induction h with
  | refl => exact hs
  | tail _ hm ih => exact hm.sound ih

theorem Cluster.Sound.step (hs : s.Sound) {e : ClusterEvent dep} (h : s.step e = some t) :
    t.Sound := by
  have hm : Moved (fun _ _ => true) True s t :=
    Cluster.step_moved hs h (fun _ _ _ => rfl) (fun _ _ _ _ => rfl) (.inr trivial)
  exact hm.sound hs

theorem Moved.refines (hs : s.Sound)
    (hok : ∀ (w : World R) e, (∀ k, e ≠ .deliver k) → ok w e = true)
    (h : Moved ok False s t) (n : N) :
    Transition.Reaches (dep.calls n) ok (s n).world (t n).world := by
  induction h with
  | refl => exact .refl
  | @tail u v hu hm ih =>
    obtain ⟨m,pr,hc,rfl⟩ := hm
    refine ih.trans ?_
    by_cases hn : n = m
    · subst hn
      rw [Cluster.set_self]
      exact hc.refines (Moved.sound hu hs) hok
    · rw [Cluster.set_of_ne _ hn]

theorem Cluster.refines {allowed : Cluster dep → ClusterEvent dep → Bool}
    (hok : ∀ (w : World R) e, (∀ k, e ≠ .deliver k) → ok w e = true)
    (hallowed : ∀ (s : Cluster dep) e, allowed s e = true → s.memoryLasts e = true ∧
      ∀ n k pace, e = .deliver n k pace → ok (s n).world (.deliver k) = true)
    (h : Transition.Reaches Cluster.step allowed (.start dep) s) (n : N) :
    Transition.Reaches (dep.calls n) ok (.start (dep.net n) 0) (s n).world := by
  refine h.simulates (f := fun s => (s n).world) (I := Cluster.Sound)
    (fun s e t hs _ he => hs.step he) (fun s e t hs ha he => ?_) (Cluster.start_sound dep)
  obtain ⟨hmem,hdel⟩ := hallowed s e ha
  exact (Cluster.step_moved hs he hok hdel (.inl hmem)).refines hs hok n

/-- Each process of a cluster does with its peers what it can do with peers that answer what
they are asked. -/
theorem peers_answer (dep : Deployment R N) (s : Cluster dep)
    (h : Transition.Reaches Cluster.step (fun s e => s.bufferLives e && s.memoryLasts e)
      (.start dep) s) (n : N) :
    Transition.Reaches (World.step dep.defaults (dep.platform n) dep.ndebug) (fun _ _ => true)
      (.start (dep.net n) 0) (s n).world := by
  refine Cluster.refines (fun _ _ _ => rfl) (fun s e ha => ?_) h n
  rw [Bool.and_eq_true] at ha
  exact ⟨ha.2,fun _ _ _ _ => rfl⟩

theorem askedOnce_refines : ∃ s : Cluster pair, (s true).executions.length = 1 ∧
    Transition.Reaches (World.step pair.defaults (pair.platform false) pair.ndebug)
      (fun _ _ => true) (.start (pair.net false) 0) (s false).world := by
  obtain ⟨s,hs,hone,_,_⟩ := askedOnce_reached
  refine ⟨s,hone,peers_answer pair s (hs.mono fun s e h => ?_) false⟩
  simp only [Bool.and_eq_true] at h ⊢
  exact h.1

theorem requests_served_once (dep : Deployment R N) (s : Cluster dep)
    (h : Transition.Reaches Cluster.step Cluster.bufferLives (.start dep) s) : s.Served :=
  (h.invariant (fun _ _ _ hs _ he => hs.step he) (Cluster.start_sound dep)).served

theorem askedOnce_served : ∃ s : Cluster pair, (s true).executions.length = 1 ∧ s.Served := by
  obtain ⟨s,hs,hone,_,_⟩ := askedOnce_reached
  refine ⟨s,hone,requests_served_once pair s (hs.mono fun s e h => ?_)⟩
  simp only [Bool.and_eq_true] at h
  exact h.1.1

theorem Cluster.values_yield (h : Transition.Reaches Cluster.step
      (fun s e => s.bufferLives e && s.memoryLasts e && s.inTime e) (.start dep) s)
    {n : N} {c : Nat} {inv : Invocation dep} (hc : (s n).invocations[c]? = some inv) :
    ∃ xs : List (N × Execution R N), (xs.map (fun x => x.2.origin)).Nodup ∧
      List.Forall₂ (fun x result => x.2.Yields s n c inv x.1 result) xs
        ((s n).world.net.calls c).values := by
  have hs : s.Sound := h.invariant (fun _ _ _ hs _ he => hs.step he) (Cluster.start_sound dep)
  have hworld : Transition.Reaches (dep.calls n) responseInTime (.start (dep.net n) 0)
      (s n).world := by
    refine Cluster.refines (fun w e hne => ?_) (fun s e ha => ?_) h n
    · cases e with
      | deliver k => exact absurd rfl (hne k)
      | _ => rfl
    · simp only [Bool.and_eq_true] at ha
      refine ⟨ha.1.2,fun n k pace he => ?_⟩
      subst he
      exact ha.2
  obtain ⟨hlogged,hown⟩ := World.reached_own hworld
  have hlt := (hs n).lt hc
  have hyields : ∀ r ∈ (s n).world.log c, ∀ result, StemsFrom dep.defaults (dep.platform n)
      ((s n).world.net.calls c) r result → ∃ x : N × Execution R N,
        x.2.Yields s n c inv x.1 result ∧ x.2.origin = ⟨n,r.call,r.occurrence⟩ := by
    intro r hr result hstem
    obtain ⟨m,x,hx,ho⟩ := hs.yields hc ((hs n).posts c r (List.mem_append_right _ hr))
      (hown c hlt r hr).1 hstem
    exact ⟨(m,x),hx,ho⟩
  obtain ⟨xs,hxs,horigins⟩ := forall₂_exists (hlogged.values c hlt) hyields
  refine ⟨xs,?_,hxs⟩
  rw [horigins]
  have hnodup := (hs n).postsOnce c
  rw [World.posts,List.map_append] at hnodup
  have hlog := hnodup.sublist (List.sublist_append_right _ _)
  have hmap : ((s n).world.log c).map (fun r => (⟨n,r.call,r.occurrence⟩ : Origin N)) =
      (((s n).world.log c).map Response.request).map (fun a => ⟨n,a.1,a.2⟩) := by
    rw [List.map_map]
    rfl
  rw [hmap]
  refine hlog.map fun a b hab => ?_
  simp only [Origin.mk.injEq,true_and] at hab
  exact Prod.ext hab.1 hab.2

/-- Where every response comes in time, the values among the results of a call are what as
many different coroutines have returned, which its peers ran on its arguments. -/
theorem values_returned (dep : Deployment R N) (s : Cluster dep)
    (h : Transition.Reaches Cluster.step
      (fun s e => s.bufferLives e && s.memoryLasts e && s.inTime e) (.start dep) s)
    (n : N) (c : Nat) (inv : Invocation dep) (hc : (s n).invocations[c]? = some inv) :
    ∃ xs : List (N × Execution R N), (xs.map (fun x => x.2.origin)).Nodup ∧
      List.Forall₂ (fun x result => x.2.Yields s n c inv x.1 result) xs
        ((s n).world.net.calls c).values :=
  Cluster.values_yield h hc

theorem askedOnce_returned : ∃ (s : Cluster pair) (inv : Invocation pair)
    (xs : List (Bool × Execution personReflection Bool)),
    ((s false).world.net.calls 0).values.length = 1 ∧
      List.Forall₂ (fun x result => x.2.Yields s false 0 inv x.1 result) xs
        ((s false).world.net.calls 0).values := by
  obtain ⟨s,hs,_,hvalue,hinv⟩ := askedOnce_reached
  obtain ⟨inv,hget⟩ : ∃ inv, (s false).invocations[0]? = some inv :=
    ⟨_,List.getElem?_eq_getElem (by omega)⟩
  obtain ⟨xs,_,hxs⟩ := values_returned pair s hs false 0 inv hget
  exact ⟨s,inv,xs,hvalue,hxs⟩

end

end NewRpc.Net
