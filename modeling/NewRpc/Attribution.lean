import Mathlib.Data.List.Perm.Basic
import NewRpc.ClusterSteps

/-!
Where everything in a cluster comes from: each request from a call of its client, each
coroutine from one request, each response from a coroutine that has returned.
-/

set_option autoImplicit false

namespace NewRpc.Net
open Codec

section
variable {R : Reflection} {N : Type} {dep : Deployment R N}

structure Invocation.Made (inv : Invocation dep) (n : N) (c : Nat) (w : World R) : Prop where
  sig : (w.net.calls c).sig = inv.rpc.sig
  funcId : (w.net.calls c).funcId = inv.rpc.funcId
  endpoints : (w.net.calls c).endpoints.map Prod.fst = inv.rpc.endpoints.map Prod.fst
  sendBuffer : (w.net.calls c).sendBuffer = inv.bytes (w.tasks c).coroId (dep.address n).2
  room : 32 + membersSize inv.args ≤ (dep.platform n).heap

def Cluster.coroId (s : Cluster dep) (o : Origin N) : Word .w64 :=
  ((s o.client).world.tasks o.call).coroId

structure Origin.Sent (s : Cluster dep) (m : N) (o : Origin N) (inv : Invocation dep) : Prop where
  call : o.call < (s o.client).world.count
  made : (s o.client).invocations[o.call]? = some inv
  written : ((s o.client).world.tasks o.call).sends[o.occurrence]? = some (.finished true)
  addressed : (inv.rpc.endpoints.map Prod.fst)[o.occurrence]?.map EndPoint.address =
    some (dep.address m)

structure Request.Stems (s : Cluster dep) (m : N) (rq : Request N) (inv : Invocation dep) :
    Prop where
  sent : rq.origin.Sent s m inv
  remote : rq.remote.1 = (dep.address rq.origin.client).1
  bytes : rq.bytes = inv.bytes (s.coroId rq.origin) (dep.address rq.origin.client).2
  room : 32 + membersSize inv.args ≤ (dep.platform rq.origin.client).heap

structure Execution.Stems (s : Cluster dep) (m : N) (x : Execution R N) (inv : Invocation dep) :
    Prop where
  sent : x.origin.Sent s m inv
  task : x.task = inv.task (dep.address x.origin.client) (s.coroId x.origin)

structure Response.Returns (dep : Deployment R N) (n m : N) (r : Response) (x : Execution R N)
    (v : Val R x.task.sig.ret) : Prop where
  result : x.result = some v
  origin : x.origin = ⟨n,r.call,r.occurrence⟩
  remote : r.remote.1 = (dep.address m).1
  header : r.header = responseHeader x.task.responseInfo (dep.address m).2 (getSerializeSize v)
  payload : r.payload = encode v
  room : 32 + getSerializeSize v ≤ (dep.platform m).heap

def Response.Stems (s : Cluster dep) (n : N) (r : Response) : Prop :=
  ∃ m, ∃ x ∈ (s m).executions, ∃ v, r.Returns dep n m x v

def Response.request (r : Response) : Nat × Nat := (r.call,r.occurrence)

def World.posts (w : World R) (c : Nat) : List Response := w.network ++ w.log c

def Process.origins (pr : Process dep) : List (Origin N) :=
  pr.requests.map Request.origin ++ pr.executions.map Execution.origin

structure Process.Sound (s : Cluster dep) (n : N) (pr : Process dep) : Prop where
  world : pr.world.Sound
  posted : pr.world.Posted
  listenPort : pr.world.net.listenPort = (dep.address n).2
  invoked : pr.invocations.length = pr.world.count
  made : ∀ (c : Nat) (inv : Invocation dep), pr.invocations[c]? = some inv →
    inv.Made n c pr.world
  requests : ∀ rq ∈ pr.requests, ∃ inv, rq.Stems s n inv
  executions : ∀ x ∈ pr.executions, ∃ inv, x.Stems s n inv
  once : pr.origins.Nodup
  posts : ∀ c, ∀ r ∈ pr.world.posts c, r.Stems s n
  postsAnswer : ∀ c, ∀ r ∈ pr.world.posts c, r.request ∈ pr.world.answered
  postsOnce : ∀ c, ((pr.world.posts c).map Response.request).Nodup
  answered : ∀ a ∈ pr.world.answered, ∃ m, ∃ x ∈ (s m).executions,
    x.origin = ⟨n,a.1,a.2⟩ ∧ x.result.isSome = true
  answeredOnce : pr.world.answered.Nodup

def Cluster.Sound (s : Cluster dep) : Prop := ∀ n, (s n).Sound s n

def Execution.Goes (x y : Execution R N) : Prop :=
  y = x ∨ x.result = none ∧ y.origin = x.origin ∧ y.task = x.task

structure Process.Grows (a b : Process dep) : Prop where
  kept : a.world.Kept b.world
  invocations : ∀ (c : Nat) (inv : Invocation dep), a.invocations[c]? = some inv →
    b.invocations[c]? = some inv
  executions : ∀ x ∈ a.executions, ∃ y ∈ b.executions, x.Goes y

def Cluster.Grows (s t : Cluster dep) : Prop := ∀ n, (s n).Grows (t n)

theorem Execution.Goes.refl (x : Execution R N) : x.Goes x := .inl rfl

theorem Execution.Goes.origin {x y : Execution R N} (h : x.Goes y) : y.origin = x.origin := by
  rcases h with rfl | ⟨_,ho,_⟩
  · rfl
  · exact ho

theorem Execution.Goes.returned {x y : Execution R N} (h : x.Goes y)
    (hx : x.result.isSome = true) : y = x := by
  rcases h with rfl | ⟨hn,_⟩
  · rfl
  · rw [hn] at hx
    cases hx

theorem World.Kept.of_same {w w' : World R} (hcount : w'.count = w.count)
    (htasks : w'.tasks = w.tasks) (hcalls : w'.net.calls = w.net.calls) : w.Kept w' := by
  refine ⟨by omega,fun c _ => ?_,fun c _ => ?_⟩
  · rw [htasks]
    exact .refl _
  · rw [hcalls]
    exact .refl _

theorem Process.Grows.of_executions {a b : Process dep} (hk : a.world.Kept b.world)
    (hi : b.invocations = a.invocations) (hx : ∀ x ∈ a.executions, x ∈ b.executions) :
    a.Grows b :=
  ⟨hk,fun _ _ h => hi ▸ h,fun x hm => ⟨x,hx x hm,.refl x⟩⟩

theorem Process.Grows.refl (a : Process dep) : a.Grows a :=
  .of_executions (.of_same rfl rfl rfl) rfl (fun _ h => h)

theorem Origin.Sent.grows {s t : Cluster dep} {m : N} {o : Origin N} {inv : Invocation dep}
    (h : o.Sent s m inv) (hg : s.Grows t) : o.Sent t m inv :=
  ⟨Nat.lt_of_lt_of_le h.call (hg o.client).kept.count,(hg o.client).invocations _ _ h.made,
    ((hg o.client).kept.tasks _ h.call).finished _ _ h.written,h.addressed⟩

theorem Origin.Sent.coroId {s t : Cluster dep} {m : N} {o : Origin N} {inv : Invocation dep}
    (h : o.Sent s m inv) (hg : s.Grows t) : t.coroId o = s.coroId o :=
  ((hg o.client).kept.tasks _ h.call).coroId

theorem Request.Stems.grows {s t : Cluster dep} {m : N} {rq : Request N} {inv : Invocation dep}
    (h : rq.Stems s m inv) (hg : s.Grows t) : rq.Stems t m inv :=
  ⟨h.sent.grows hg,h.remote,by rw [h.sent.coroId hg]; exact h.bytes,h.room⟩

theorem Execution.Stems.grows {s t : Cluster dep} {m : N} {x : Execution R N}
    {inv : Invocation dep} (h : x.Stems s m inv) (hg : s.Grows t) : x.Stems t m inv :=
  ⟨h.sent.grows hg,by rw [h.sent.coroId hg]; exact h.task⟩

theorem Execution.Stems.goes {s : Cluster dep} {m : N} {x y : Execution R N}
    {inv : Invocation dep} (h : x.Stems s m inv) (hg : x.Goes y) : y.Stems s m inv := by
  rcases hg with rfl | ⟨_,ho,ht⟩
  · exact h
  · exact ⟨by rw [ho]; exact h.sent,by rw [ho,ht]; exact h.task⟩

theorem Response.Stems.grows {s t : Cluster dep} {n : N} {r : Response} (h : r.Stems s n)
    (hg : s.Grows t) : r.Stems t n := by
  obtain ⟨m,x,hx,v,hv⟩ := h
  obtain ⟨y,hy,hxy⟩ := (hg m).executions x hx
  have heq := hxy.returned (by rw [hv.result]; rfl)
  subst heq
  exact ⟨m,y,hy,v,hv⟩

theorem Process.Sound.grows {s t : Cluster dep} {n : N} {pr : Process dep} (h : pr.Sound s n)
    (hg : s.Grows t) : pr.Sound t n := by
  refine { h with
    requests := fun rq hrq => ?_
    executions := fun x hx => ?_
    posts := fun c r hr => (h.posts c r hr).grows hg
    answered := fun a ha => ?_ }
  · obtain ⟨inv,hinv⟩ := h.requests rq hrq
    exact ⟨inv,hinv.grows hg⟩
  · obtain ⟨inv,hinv⟩ := h.executions x hx
    exact ⟨inv,hinv.grows hg⟩
  · obtain ⟨m,x,hx,ho,hsome⟩ := h.answered a ha
    obtain ⟨y,hy,hxy⟩ := (hg m).executions x hx
    have heq := hxy.returned hsome
    subst heq
    exact ⟨m,y,hy,ho,hsome⟩

theorem Origin.Sent.unique {s : Cluster dep} {m m' : N} {o : Origin N} {inv inv' : Invocation dep}
    (h : o.Sent s m inv) (h' : o.Sent s m' inv') : m = m' ∧ inv = inv' := by
  have hinv := h.made.symm.trans h'.made
  simp only [Option.some.injEq] at hinv
  subst hinv
  have haddr := h.addressed.symm.trans h'.addressed
  simp only [Option.some.injEq] at haddr
  exact ⟨dep.distinct haddr,rfl⟩

def Event.isInner : Event R → Bool
  | .call _ _ | .answer _ _ _ _ _ => false
  | _ => true

/-- The changes a step of the cluster consists of. Where responses may be lost for want of
memory, `lossy` holds; where what is delivered is restricted, `ok` does. -/
inductive Change (ok : World R → Event R → Bool) (lossy : Prop) (s : Cluster dep)
    (n : N) : Process dep → Prop where
  | step (e : Event R) (w : World R) : e.isInner = true → ok (s n).world e = true →
      (s n).world.step dep.defaults (dep.platform n) dep.ndebug e = some w →
      Change ok lossy s n { s n with world := w }
  | drop (k : Nat) : lossy → Change ok lossy s n { s n with world := (s n).world.take k }
  | call (coroId : Word .w64) (rpc : Awaited R) (inv : Invocation dep) (w : World R) :
      inv.rpc.launch (dep.platform n) dep.ndebug inv.args coroId
        (s n).world.net.listenPort = .ok rpc →
      (s n).world.step dep.defaults (dep.platform n) dep.ndebug (.call coroId rpc) = some w →
      Change ok lossy s n
        { s n with world := w, invocations := (s n).invocations ++ [inv] }
  | write (rq : Request N) (inv : Invocation dep) : rq.Stems s n inv →
      rq.origin ∉ (s n).origins → Change ok lossy s n ((s n).written rq)
  | refuse (k cnt : Nat) : Change ok lossy s n
      { s n with requests := (s n).requests.eraseIdx k, runningCoroCnt := cnt }
  | accept (k cnt : Nat) (rq : Request N) (inv : Invocation dep) : (s n).requests[k]? = some rq →
      rq.Stems s n inv → Change ok lossy s n { s n with
        requests := (s n).requests.eraseIdx k
        runningCoroCnt := cnt
        executions := (s n).executions ++ [⟨rq.origin,
          inv.task (dep.address rq.origin.client) (s.coroId rq.origin),none⟩] }
  | finish (j : Nat) (x : Execution R N) (v : Val R x.task.sig.ret) :
      (s n).executions[j]? = some x → x.result = none →
      Change ok lossy s n ((s n).ended j ⟨x.origin,x.task,some v⟩)
  | answer (m : N) (x : Execution R N) (v : Val R x.task.sig.ret) (r : Response) :
      x ∈ (s m).executions → r.Returns dep n m x v →
      (r.call,r.occurrence) ∉ (s n).world.answered → Change ok lossy s n ((s n).answered r)
  | stop : Change ok lossy s n { s n with stopFlag := true }

/-- What a step that posts nothing leaves of the messages. -/
theorem Stepped.inner {D : Defaults R} {p : Platform} {s t : World R} {e : Event R}
    (h : Stepped D p s e t) (he : e.isInner = true) : t.count = s.count ∧
      t.answered = s.answered ∧ ∀ c, (t.posts c).Subperm (s.posts c) := by
  have hdropped : ∀ (k : Nat) (c : Nat), (s.network.eraseIdx k ++ s.log c).Subperm (s.posts c) :=
    fun k c => ((List.eraseIdx_sublist ..).append_right _).subperm
  have hlogged : ∀ (k : Nat) (m : Response) (c' : Nat), s.network[k]? = some m → ∀ c,
      (s.network.eraseIdx k ++ Function.update s.log c' (s.log c' ++ [m]) c).Subperm
        (s.posts c) := by
    intro k m c' hm c
    by_cases hc : c = c'
    · subst hc
      obtain ⟨hlt,hget⟩ := List.getElem?_eq_some_iff.mp hm
      have hperm : (m :: s.network.eraseIdx k).Perm s.network := by
        rw [← hget]
        exact List.getElem_cons_eraseIdx_perm hlt
      rw [Function.update_self,← List.append_assoc]
      exact ((List.perm_append_singleton _ _).trans (hperm.append_right _)).subperm
    · rw [Function.update_of_ne hc]
      exact hdropped k c
  cases h with
  | call coroId rpc => cases he
  | answer c i remote port payload => cases he
  | drop k m hm => exact ⟨rfl,rfl,hdropped k⟩
  | record k m info value hm => exact ⟨rfl,rfl,hlogged k m _ hm⟩
  | finish k m info value frame hm => exact ⟨rfl,rfl,hlogged k m _ hm⟩
  | _ => exact ⟨rfl,rfl,fun _ => .refl _⟩

theorem nodup_of_subperm {α β : Type} {l l' : List α} {f : α → β} (h : l.Subperm l')
    (hl : (l'.map f).Nodup) : (l.map f).Nodup := by
  obtain ⟨m,hp,hs⟩ := h
  exact (hp.map f).nodup_iff.mp (hl.sublist (hs.map f))

theorem Invocation.Made.kept {inv : Invocation dep} {n : N} {c : Nat} {w w' : World R}
    (h : inv.Made n c w) (hc : c < w.count) (hk : w.Kept w') (hs : w.Static w') :
    inv.Made n c w' := by
  have hcall := hs.calls c hc
  refine ⟨hcall.sig.trans h.sig,hcall.funcId.trans h.funcId,hcall.endpoints.trans h.endpoints,?_,
    h.room⟩
  rw [hcall.sendBuffer,(hk.tasks c hc).coroId]
  exact h.sendBuffer

theorem Process.Sound.lt {s : Cluster dep} {n : N} {pr : Process dep} (h : pr.Sound s n)
    {c : Nat} {inv : Invocation dep} (hc : pr.invocations[c]? = some inv) :
    c < pr.world.count := by
  obtain ⟨hlt,_⟩ := List.getElem?_eq_some_iff.mp hc
  rw [← h.invoked]
  exact hlt

theorem Process.Sound.world_step {t : Cluster dep} {n : N} {pr : Process dep} (h : pr.Sound t n)
    {w : World R} {e : Event R} (hst : Stepped dep.defaults (dep.platform n) pr.world e w)
    (he : e.isInner = true) : Process.Sound t n { pr with world := w } := by
  obtain ⟨hcount,hanswered,hposts⟩ := hst.inner he
  refine { h with
    world := hst.sound h.world
    posted := hst.posted h.posted
    listenPort := hst.static.listenPort.trans h.listenPort
    invoked := h.invoked.trans hcount.symm
    made := fun c inv hc => (h.made c inv hc).kept (h.lt hc) hst.kept hst.static
    posts := fun c r hr => h.posts c r ((hposts c).subset hr)
    postsAnswer := fun c r hr => by
      rw [hanswered]
      exact h.postsAnswer c r ((hposts c).subset hr)
    postsOnce := fun c => nodup_of_subperm (hposts c) (h.postsOnce c)
    answered := by rw [hanswered]; exact h.answered
    answeredOnce := by rw [hanswered]; exact h.answeredOnce }

theorem Process.Grows.call {a : Process dep} {w : World R} (hk : a.world.Kept w)
    (inv : Invocation dep) :
    a.Grows { a with world := w, invocations := a.invocations ++ [inv] } := by
  refine ⟨hk,fun c inv' hc => ?_,fun x hx => ⟨x,hx,.refl x⟩⟩
  obtain ⟨hlt,_⟩ := List.getElem?_eq_some_iff.mp hc
  exact (List.getElem?_append_left hlt).trans hc

theorem Process.Grows.ended {a : Process dep} {j : Nat} {x y : Execution R N}
    (hx : a.executions[j]? = some x) (hgo : x.Goes y) : a.Grows (a.ended j y) := by
  refine ⟨.of_same rfl rfl rfl,fun _ _ h => h,fun z hz => ?_⟩
  obtain ⟨i,hi⟩ := List.mem_iff_getElem?.mp hz
  by_cases hij : j = i
  · subst hij
    rw [hx] at hi
    cases hi
    obtain ⟨hlt,_⟩ := List.getElem?_eq_some_iff.mp hx
    exact ⟨y,List.mem_set hlt y,hgo⟩
  · refine ⟨z,?_,.refl z⟩
    rw [List.mem_iff_getElem?]
    exact ⟨i,(List.getElem?_set_ne hij).trans hi⟩

variable {ok : World R → Event R → Bool} {lossy : Prop} {s : Cluster dep} {n : N}
  {pr : Process dep}

theorem Change.grows (h : Change ok lossy s n pr) : (s n).Grows pr := by
  cases h with
  | step e w he hok hw => exact .of_executions (World.step_stepped hw).kept rfl (fun _ h => h)
  | drop k hl => exact .of_executions (.of_same rfl rfl rfl) rfl (fun _ h => h)
  | call coroId rpc inv w hl hw => exact .call (World.step_stepped hw).kept inv
  | write rq inv hrq hnew => exact .of_executions (.of_same rfl rfl rfl) rfl (fun _ h => h)
  | refuse k cnt => exact .of_executions (.of_same rfl rfl rfl) rfl (fun _ h => h)
  | accept k cnt rq inv hk hrq =>
    exact .of_executions (.of_same rfl rfl rfl) rfl (fun _ h => List.mem_append_left _ h)
  | finish j x v hj hx => exact .ended hj (.inr ⟨hx,rfl,rfl⟩)
  | answer m x v r hx hr hnew =>
    exact .of_executions (.of_same rfl rfl rfl) rfl (fun _ h => h)
  | stop => exact .of_executions (.of_same rfl rfl rfl) rfl (fun _ h => h)

theorem Process.Sound.call {t : Cluster dep} (h : pr.Sound t n) {coroId : Word .w64}
    {rpc : Awaited R} {inv : Invocation dep} {w : World R}
    (hl : inv.rpc.launch (dep.platform n) dep.ndebug inv.args coroId pr.world.net.listenPort =
      .ok rpc)
    (hst : Stepped dep.defaults (dep.platform n) pr.world (.call coroId rpc) w) :
    Process.Sound t n { pr with world := w, invocations := pr.invocations ++ [inv] } := by
  obtain ⟨hsig,hfunc,heps,_,hbuf,hroom⟩ := inv.launched hl
  have hsound := hst.sound h.world
  have hposted := hst.posted h.posted
  have hkept := hst.kept
  have hstatic := hst.static
  cases hst with
  | call =>
  refine { h with
    world := hsound
    posted := hposted
    listenPort := hstatic.listenPort.trans h.listenPort
    invoked := by simp [h.invoked,World.register]
    made := fun c inv' hc => ?_
    posts := h.posts
    postsAnswer := h.postsAnswer
    postsOnce := h.postsOnce
    answered := h.answered
    answeredOnce := h.answeredOnce }
  by_cases hlast : c = pr.world.count
  · subst hlast
    rw [← h.invoked] at hc
    simp only [List.getElem?_concat_length,Option.some.injEq] at hc
    subst hc
    refine ⟨?_,?_,?_,?_,hroom⟩
    all_goals simp only [World.register,NetService.insert_calls,NetService.setCall_calls,
      Function.update_self]
    · exact hsig
    · exact hfunc
    · rw [heps]
    · rw [hbuf,h.listenPort]
  · have hlt : c < pr.world.count := by
      obtain ⟨hlt,_⟩ := List.getElem?_eq_some_iff.mp hc
      simp only [List.length_append,List.length_singleton,h.invoked] at hlt
      omega
    rw [List.getElem?_append_left (by rw [h.invoked]; exact hlt)] at hc
    exact (h.made c inv' hc).kept hlt hkept hstatic

/-- A request that is put into the inbox, one that no coroutine serves yet. -/
theorem Process.Sound.written {t : Cluster dep} (h : pr.Sound t n) {rq : Request N}
    {inv : Invocation dep} (hrq : rq.Stems t n inv) (hnew : rq.origin ∉ pr.origins) :
    (pr.written rq).Sound t n := by
  refine { h with
    requests := fun rq' hrq' => ?_
    once := ?_ }
  · rcases List.mem_append.mp hrq' with hold | hlast
    · exact h.requests rq' hold
    · rw [List.mem_singleton.mp hlast]
      exact ⟨inv,hrq⟩
  · have hperm : (pr.written rq).origins.Perm (rq.origin :: pr.origins) := by
      simp only [Process.origins,Process.written,List.map_append,List.map_cons,List.map_nil]
      rw [List.append_assoc]
      exact List.perm_middle
    exact hperm.nodup_iff.mpr (List.nodup_cons.mpr ⟨hnew,h.once⟩)

theorem Process.Sound.accepted {t : Cluster dep} (h : pr.Sound t n) {k : Nat} {rq : Request N}
    {inv : Invocation dep} {x : Execution R N} (hk : pr.requests[k]? = some rq)
    (hx : x.Stems t n inv) (ho : x.origin = rq.origin) (cnt : Nat) :
    Process.Sound t n { pr with
      requests := pr.requests.eraseIdx k
      runningCoroCnt := cnt
      executions := pr.executions ++ [x] } := by
  refine { h with
    requests := fun rq' hrq' => h.requests rq' (List.mem_of_mem_eraseIdx hrq')
    executions := fun y hy => ?_
    once := ?_ }
  · rcases List.mem_append.mp hy with hold | hlast
    · exact h.executions y hold
    · rw [List.mem_singleton.mp hlast]
      exact ⟨inv,hx⟩
  · obtain ⟨hlt,hget⟩ := List.getElem?_eq_some_iff.mp hk
    have hperm : (pr.requests.map Request.origin).Perm
        (rq.origin :: (pr.requests.eraseIdx k).map Request.origin) := by
      rw [← hget,← List.map_cons]
      exact ((List.getElem_cons_eraseIdx_perm hlt).map _).symm
    have hall := (hperm.append_right (pr.executions.map Execution.origin)).nodup_iff.mp h.once
    simp only [Process.origins,List.map_append,List.map_cons,List.map_nil,ho]
    rw [← List.append_assoc]
    exact (List.perm_append_singleton _ _).nodup_iff.mpr hall

theorem Process.Sound.refused {t : Cluster dep} (h : pr.Sound t n) (k cnt : Nat) :
    Process.Sound t n
      { pr with requests := pr.requests.eraseIdx k, runningCoroCnt := cnt } := by
  refine { h with
    requests := fun rq' hrq' => h.requests rq' (List.mem_of_mem_eraseIdx hrq')
    once := ?_ }
  have hsub : (pr.requests.eraseIdx k).Sublist pr.requests := List.eraseIdx_sublist ..
  exact h.once.sublist ((hsub.map _).append_right _)

theorem Process.Sound.ended {t : Cluster dep} (h : pr.Sound t n) {j : Nat} {x y : Execution R N}
    (hj : pr.executions[j]? = some x) (hgo : x.Goes y) : (pr.ended j y).Sound t n := by
  refine { h with
    executions := fun z hz => ?_
    once := ?_ }
  · rcases List.mem_or_eq_of_mem_set hz with hz | hz
    · exact h.executions z hz
    · rw [hz]
      obtain ⟨inv,hinv⟩ := h.executions x (List.mem_of_getElem? hj)
      exact ⟨inv,hinv.goes hgo⟩
  · have hsame : (pr.executions.set j y).map Execution.origin =
        pr.executions.map Execution.origin := by
      rw [List.map_set,hgo.origin]
      refine List.ext_getElem? fun i => ?_
      by_cases hij : j = i
      · subst hij
        obtain ⟨hlt,hget⟩ := List.getElem?_eq_some_iff.mp hj
        simp [hlt,hget]
      · rw [List.getElem?_set_ne hij]
    simp only [Process.origins,Process.ended,hsame]
    exact h.once

/-- The coroutine of a request that is answered was not answered for before. -/
theorem Process.Sound.answered_sound {t : Cluster dep} (h : pr.Sound t n) {m : N}
    {x : Execution R N} {v : Val R x.task.sig.ret} {r : Response} (hx : x ∈ (t m).executions)
    (hr : r.Returns dep n m x v) {inv : Invocation dep} (hinv : x.Stems t m inv)
    (hcount : (t n).world.count = pr.world.count) (htasks : (t n).world.tasks = pr.world.tasks)
    (hnew : (r.call,r.occurrence) ∉ pr.world.answered) : (pr.answered r).Sound t n := by
  have ho := hr.origin
  have hsent := hinv.sent
  rw [ho] at hsent
  have hlt := hsent.call
  have hwritten := hsent.written
  simp only [hcount,htasks] at hlt hwritten
  have hposts : ∀ c, ((pr.answered r).world.posts c).Perm (r :: pr.world.posts c) := by
    intro c
    show (pr.world.network ++ [r] ++ pr.world.log c).Perm _
    rw [List.append_assoc]
    exact List.perm_middle
  refine { h with
    world := h.world.of_kept (.of_same rfl rfl rfl) rfl rfl rfl rfl
    posted := ⟨fun r' hr' => ?_,fun a ha => ?_⟩
    made := fun c inv hc =>
      (h.made c inv hc).kept (h.lt hc) (.of_same rfl rfl rfl) ⟨rfl,fun _ _ => .refl _⟩
    posts := fun c r' hr' => ?_
    postsAnswer := fun c r' hr' => ?_
    postsOnce := fun c => ?_
    answered := fun a ha => ?_
    answeredOnce := List.nodup_append.mpr ⟨h.answeredOnce,by simp,?_⟩ }
  · rcases List.mem_append.mp hr' with hr' | hr'
    · obtain ⟨ha,hrid⟩ := h.posted.network r' hr'
      exact ⟨List.mem_append_left _ ha,hrid⟩
    · rw [List.mem_singleton.mp hr']
      refine ⟨List.mem_append_right _ (List.mem_singleton_self _),?_⟩
      have hid : x.task.responseInfo.responseToCoroId = t.coroId x.origin := by
        rw [hinv.task]
        rfl
      rw [hr.header]
      show x.task.responseInfo.responseToCoroId = _
      rw [hid,ho,Cluster.coroId,htasks]
      rfl
  · rcases List.mem_append.mp ha with ha | ha
    · exact h.posted.answered a ha
    · rw [List.mem_singleton.mp ha]
      exact ⟨hlt,hwritten⟩
  · rcases List.mem_cons.mp ((hposts c).subset hr') with rfl | hr'
    · exact ⟨m,x,hx,v,hr⟩
    · exact h.posts c r' hr'
  · rcases List.mem_cons.mp ((hposts c).subset hr') with rfl | hr'
    · exact List.mem_append_right _ (List.mem_singleton_self _)
    · exact List.mem_append_left _ (h.postsAnswer c r' hr')
  · refine ((hposts c).map _).nodup_iff.mpr (List.nodup_cons.mpr ⟨fun hin => ?_,h.postsOnce c⟩)
    obtain ⟨r',hr',heq⟩ := List.mem_map.mp hin
    have ha := h.postsAnswer c r' hr'
    rw [heq] at ha
    exact hnew ha
  · rcases List.mem_append.mp ha with ha | ha
    · exact h.answered a ha
    · rw [List.mem_singleton.mp ha]
      exact ⟨m,x,hx,hr.origin,by rw [hr.result]; rfl⟩
  · intro a ha b hb heq
    rw [List.mem_singleton.mp hb] at heq
    exact hnew (heq ▸ ha)

theorem Response.Returns.valid {m : N} {r : Response} {x : Execution R N}
    {v : Val R x.task.sig.ret} (h : r.Returns dep n m x v) : r.Valid := by
  have haddr := (dep.platform m).addressable
  have hroom := h.room
  refine ⟨?_,?_,?_⟩
  · rw [h.header]
    exact PackageHeader.getMessageType_response _ _ _ _ _
  · rw [h.header]
    rfl
  · rw [h.header,h.payload,encode_length]
    exact payloadLen_toNat (by omega)

variable [DecidableEq N]

theorem Cluster.set_self (s : Cluster dep) (n : N) (pr : Process dep) : s.set n pr n = pr :=
  Function.update_self ..

theorem Cluster.set_of_ne (s : Cluster dep) {n m : N} (h : m ≠ n) (pr : Process dep) :
    s.set n pr m = s m := Function.update_of_ne h ..

theorem Cluster.Grows.set {s : Cluster dep} {n : N} {pr : Process dep} (h : (s n).Grows pr) :
    s.Grows (s.set n pr) := by
  intro m
  by_cases hm : m = n
  · subst hm
    rw [Cluster.set_self]
    exact h
  · rw [Cluster.set_of_ne s hm]
    exact .refl _

theorem Cluster.Sound.set {s : Cluster dep} (hs : s.Sound) {n : N} {pr : Process dep}
    (hg : (s n).Grows pr) (hpr : (s n).Sound (s.set n pr) n → pr.Sound (s.set n pr) n) :
    (s.set n pr).Sound := by
  intro m
  have hm := (hs m).grows (.set hg)
  by_cases h : m = n
  · subst h
    rw [Cluster.set_self]
    exact hpr hm
  · rw [Cluster.set_of_ne s h]
    exact hm

theorem Change.sound (h : Change ok lossy s n pr) (hs : s.Sound) : (s.set n pr).Sound := by
  have hg : s.Grows (s.set n pr) := .set h.grows
  refine hs.set h.grows fun hn => ?_
  cases h with
  | step e w he hok hw => exact hn.world_step (World.step_stepped hw) he
  | drop k hl =>
    have htaken : ∀ c, (((s n).world.take k).posts c).Subperm ((s n).world.posts c) :=
      fun c => ((List.eraseIdx_sublist ..).append_right _).subperm
    refine { hn with
      world := hn.world.of_kept (.of_same rfl rfl rfl) rfl rfl rfl rfl
      posted := hn.posted.of_kept (.of_same rfl rfl rfl) (fun _ => List.mem_of_mem_eraseIdx) rfl
      made := fun c inv hc =>
        (hn.made c inv hc).kept (hn.lt hc) (.of_same rfl rfl rfl) ⟨rfl,fun _ _ => .refl _⟩
      posts := fun c r hr => hn.posts c r ((htaken c).subset hr)
      postsAnswer := fun c r hr => hn.postsAnswer c r ((htaken c).subset hr)
      postsOnce := fun c => nodup_of_subperm (htaken c) (hn.postsOnce c) }
  | call coroId rpc inv w hl hw => exact hn.call hl (World.step_stepped hw)
  | write rq inv hrq hnew => exact hn.written (hrq.grows hg) hnew
  | refuse k cnt => exact hn.refused k cnt
  | accept k cnt rq inv hk hrq =>
    exact hn.accepted hk ⟨hrq.sent.grows hg,by rw [hrq.sent.coroId hg]⟩ rfl cnt
  | finish j x v hj hx => exact hn.ended hj (.inr ⟨hx,rfl,rfl⟩)
  | answer m x v r hx hr hnew =>
    obtain ⟨y,hy,hxy⟩ := (hg m).executions x hx
    have heq := hxy.returned (by rw [hr.result]; rfl)
    subst heq
    obtain ⟨inv,hinv⟩ := (hs m).executions _ hx
    refine hn.answered_sound hy hr (hinv.grows hg) ?_ ?_ hnew
    · rw [Cluster.set_self]
      rfl
    · rw [Cluster.set_self]
      rfl
  | stop => exact { hn with }

def Moves (ok : World R → Event R → Bool) (lossy : Prop) (s t : Cluster dep) : Prop :=
  ∃ n pr, Change ok lossy s n pr ∧ t = s.set n pr

theorem Moves.sound {t : Cluster dep} (h : Moves ok lossy s t) (hs : s.Sound) : t.Sound := by
  obtain ⟨n,pr,hc,rfl⟩ := h
  exact hc.sound hs

end

end NewRpc.Net
