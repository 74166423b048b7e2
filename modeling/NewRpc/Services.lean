import NewRpc.EndToEnd
import NewRpc.Termination

/-!
A cluster whose requests are served by coroutines with bodies: what a remote call receives is
what the body of the function that it names computes.
-/

set_option autoImplicit false

namespace NewRpc.Net
open Codec Resumable

structure Service (R : Reflection) (L V A : Type) where
  program : Program L (Option V) A
  body : RequestTask R → L
  result : (task : RequestTask R) → V → Val R task.sig.ret

structure System {R : Reflection} {N : Type} (dep : Deployment R N) (L V A : Type) where
  cluster : Cluster dep
  programs : N → Task.Programs L V A
  frames : N → List Nat

/-- `net` is a step of the cluster that ends no coroutine, `code` one of the coroutines of a
process that neither ends one that serves a request nor makes one. -/
inductive SystemEvent {R : Reflection} {N : Type} (dep : Deployment R N) (L V A : Type) where
  | net (e : ClusterEvent dep)
  | code (n : N) (a : Task.Action L V A)
  | finish (n : N) (j : Nat) (target : Option N) (port : Word .w16)

section
variable {R : Reflection} {N L V A : Type} {dep : Deployment R N}

def ClusterEvent.process : ClusterEvent dep → N
  | .own n _ | .call n _ _ | .write n _ _ _ _ | .fail n _ _ | .accept n _ _ | .finish n _ _ _ _
  | .deliver n _ _ | .stop n => n

def ClusterEvent.isFinish : ClusterEvent dep → Bool
  | .finish _ _ _ _ _ => true
  | _ => false

def System.ownCode (s : System dep L V A) (n : N) : Task.Action L V A → Bool
  | .finish f => decide (f ∉ s.frames n)
  | .other (.request _ _) | .other .stop => false
  | _ => true

section
variable [DecidableEq L] (service : Service R L V A)

def Service.serve (programs : Task.Programs L V A) (task : RequestTask R) :
    Option (Task.Programs L V A) :=
  let t := programs.coro.tasks.length
  (programs.step service.program (.create (service.body task))).bind (fun programs =>
    (programs.step service.program (.other (.request t task.responseInfo))).bind
      (fun programs => programs.step service.program (.other (.commit t))))

def Service.spawn (programs : Task.Programs L V A) :
    List (Execution R N) → List Nat → Option (Task.Programs L V A × List Nat)
  | [], frames => some (programs,frames)
  | x :: xs, frames => (service.serve programs x.task).bind (fun next =>
      spawn next xs (frames ++ [programs.coro.count]))

variable [DecidableEq N]

def System.set (s : System dep L V A) (n : N) (programs : Task.Programs L V A) :
    System dep L V A :=
  { s with programs := Function.update s.programs n programs }

def System.stopped (s : System dep L V A) (e : ClusterEvent dep) : Option (System dep L V A) :=
  match e with
  | .stop n => ((s.programs n).step service.program (.other .stop)).map (s.set n)
  | _ => some s

def System.net (s : System dep L V A) (e : ClusterEvent dep) : Option (System dep L V A) :=
  match s.cluster.step e, s.stopped service e with
  | some cluster, some s =>
      let n := e.process
      let new := (cluster n).executions.drop (s.cluster n).executions.length
      (service.spawn (s.programs n) new (s.frames n)).map (fun served => { s.set n served.1 with
        cluster := cluster
        frames := Function.update s.frames n served.2 })
  | _, _ => none

def System.finish (s : System dep L V A) (n : N) (j : Nat) (target : Option N)
    (port : Word .w16) : Option (System dep L V A) :=
  match (s.frames n)[j]? with
  | none => none
  | some f => match (s.programs n).command service.program f with
      | some (.ret (some value)) =>
          match s.cluster.step (.finish n j (fun task => service.result task value) target port),
            (s.programs n).step service.program (.finish f) with
          | some cluster, some programs => some { s.set n programs with cluster := cluster }
          | _, _ => none
      | _ => none

def System.step (s : System dep L V A) : SystemEvent dep L V A → Option (System dep L V A)
  | .net e => if e.isFinish then none else s.net service e
  | .code n a =>
      if s.ownCode n a then ((s.programs n).step service.program a).map (s.set n) else none
  | .finish n j target port => s.finish service n j target port

omit [DecidableEq L] in
def System.start (dep : Deployment R N) : System dep L V A :=
  ⟨.start dep,fun _ => .start,fun _ => []⟩

omit [DecidableEq L] [DecidableEq N] in
theorem Process.connection_executions {n : N} {pr next : Process dep} {origin : Origin N}
    {socket : Socket} {finish : Finish}
    (h : pr.connection n origin socket = some (finish,next)) :
    ∃ new, next.executions = pr.executions ++ new ∧ ∀ x ∈ new, x.result = none := by
  obtain ⟨framework,_,_,rfl⟩ := Process.connection_some h
  refine ⟨_,rfl,fun x hx => ?_⟩
  obtain ⟨task,_,rfl⟩ := List.mem_map.mp hx
  rfl

structure Cluster.Extends (s t : Cluster dep) (n : N) : Prop where
  same : ∀ m, m ≠ n → (t m).executions = (s m).executions
  more : ∃ new, (t n).executions = (s n).executions ++ new ∧ ∀ x ∈ new, x.result = none

omit [DecidableEq L] in
theorem Cluster.Extends.set (s : Cluster dep) {n : N} {pr : Process dep}
    (h : ∃ new, pr.executions = (s n).executions ++ new ∧ ∀ x ∈ new, x.result = none) :
    s.Extends (s.set n pr) n := by
  refine ⟨fun m hm => by rw [Cluster.set_of_ne s hm],?_⟩
  rw [Cluster.set_self]
  exact h

omit [DecidableEq L] in
theorem Cluster.step_extends {s t : Cluster dep} {e : ClusterEvent dep} (h : s.step e = some t)
    (he : e.isFinish = false) : s.Extends t e.process := by
  have hsame : ∀ {n : N} {pr : Process dep}, pr.executions = (s n).executions →
      s.Extends (s.set n pr) n :=
    fun heq => .set s ⟨[],by rw [heq,List.append_nil],fun _ hx => absurd hx List.not_mem_nil⟩
  have hstep : ∀ {n : N} {pr : Process dep} {e : Event R}, (s n).step n e = some pr →
      pr.executions = (s n).executions := by
    intro n pr e hpr
    obtain ⟨w,_,rfl⟩ := Option.map_eq_some_iff.mp hpr
    rfl
  cases e with
  | own n e =>
    obtain ⟨_,h⟩ := Option.ite_none_right_eq_some.mp h
    obtain ⟨pr,hpr,rfl⟩ := Option.map_eq_some_iff.mp h
    exact hsame (hstep hpr)
  | call n coroId inv =>
    obtain ⟨pr,hpr,rfl⟩ := Option.map_eq_some_iff.mp h
    unfold Process.call at hpr
    split at hpr
    · cases hpr
    · obtain ⟨next,hnext,rfl⟩ := Option.map_eq_some_iff.mp hpr
      have hexec := hstep hnext
      exact hsame hexec
  | write n c i m port =>
    simp only [Cluster.step,Cluster.write] at h
    split at h
    · cases h
    · obtain ⟨_,h⟩ := Option.ite_none_right_eq_some.mp h
      obtain ⟨pr,hpr,rfl⟩ := Option.map_eq_some_iff.mp h
      have hall : ∀ rq m', (((s.set n pr).set m ((s.set n pr m).written rq)) m').executions =
          (s m').executions := by
        intro rq m'
        have hfirst : ((s.set n pr) m').executions = (s m').executions := by
          by_cases hn : m' = n
          · rw [hn,Cluster.set_self]
            exact hstep hpr
          · rw [Cluster.set_of_ne s hn]
        by_cases hm : m' = m
        · subst hm
          rw [Cluster.set_self]
          exact hfirst
        · rw [Cluster.set_of_ne _ hm]
          exact hfirst
      refine ⟨fun m' _ => hall _ m',[],?_,fun _ hx => absurd hx List.not_mem_nil⟩
      rw [List.append_nil]
      exact hall _ n
  | fail n c i =>
    obtain ⟨pr,hpr,rfl⟩ := Option.map_eq_some_iff.mp h
    exact hsame (hstep hpr)
  | accept n k pace =>
    simp only [Cluster.step] at h
    split at h
    · cases h
    · obtain ⟨pr,hpr,rfl⟩ := Option.map_eq_some_iff.mp h
      obtain ⟨⟨finish,next⟩,hcon,rfl⟩ := Option.map_eq_some_iff.mp hpr
      have hmore := Process.connection_executions hcon
      exact .set s hmore
  | finish => cases he
  | deliver n k pace =>
    simp only [Cluster.step] at h
    split at h
    · cases h
    · obtain ⟨pr,hpr,rfl⟩ := Option.map_eq_some_iff.mp h
      simp only [Process.deliver] at hpr
      split at hpr
      · cases hpr
      · rename_i finish next hcon
        cases hpr
        have hmore := Process.connection_executions hcon
        refine .set s ?_
        split <;> exact hmore
  | stop n =>
    cases h
    exact hsame rfl

/-- The value is one that the body of the request computes. -/
def Service.Computed (service : Service R L V A) (task : RequestTask R)
    (value : Val R task.sig.ret) : Prop :=
  ∃ v as, value = service.result task v ∧ Computes service.program (service.body task) as (some v)

structure Service.Serves (service : Service R L V A) (programs : Task.Programs L V A)
    (executions : List (Execution R N)) (frames : List Nat) : Prop where
  sound : programs.Sound service.program
  length : frames.length = executions.length
  called : ∀ (j : Nat) (x : Execution R N) (f : Nat), executions[j]? = some x →
    frames[j]? = some f → programs.Called f (service.body x.task)
  computed : ∀ x ∈ executions, ∀ v, x.result = some v → service.Computed x.task v

variable {service}

omit [DecidableEq N] in
theorem Service.Serves.step {programs next : Task.Programs L V A}
    {executions : List (Execution R N)} {frames : List Nat}
    (h : service.Serves programs executions frames) {a : Task.Action L V A}
    (he : programs.step service.program a = some next) :
    service.Serves next executions frames :=
  ⟨Task.Programs.step_sound h.sound he,h.length,
    fun j x f hj hf => Task.Programs.step_called he (h.called j x f hj hf),h.computed⟩

omit [DecidableEq N] in
theorem Service.Serves.serve {programs next : Task.Programs L V A}
    {executions : List (Execution R N)} {frames : List Nat}
    (h : service.Serves programs executions frames) {x : Execution R N} (hx : x.result = none)
    (he : service.serve programs x.task = some next) :
    service.Serves next (executions ++ [x]) (frames ++ [programs.coro.count]) := by
  unfold Service.serve at he
  obtain ⟨created,hcreate,hb⟩ := Option.bind_eq_some_iff.mp he
  obtain ⟨requested,hrequest,hcommit⟩ := Option.bind_eq_some_iff.mp hb
  have hnew : created.Called programs.coro.count (service.body x.task) := by
    cases hcreate
    exact ⟨Nat.lt_succ_self _,Function.update_self ..⟩
  have hlast := Task.Programs.step_called hcommit (Task.Programs.step_called hrequest hnew)
  have hnext := ((h.step hcreate).step hrequest).step hcommit
  refine ⟨hnext.sound,by simp [h.length],fun j y f hj hf => ?_,fun y hy v hv => ?_⟩
  · rw [List.getElem?_append] at hj hf
    rw [h.length] at hf
    split at hj
    · rename_i hlt
      rw [if_pos hlt] at hf
      exact hnext.called j y f hj hf
    · rename_i hlt
      rw [if_neg hlt] at hf
      rw [List.getElem?_singleton] at hj hf
      split at hj
      · rename_i hzero
        rw [if_pos hzero] at hf
        cases hj
        cases hf
        exact hlast
      · cases hj
  · rcases List.mem_append.mp hy with hold | hone
    · exact h.computed y hold v hv
    · cases List.mem_singleton.mp hone
      cases hx.symm.trans hv

omit [DecidableEq N] in
theorem Service.Serves.spawn {new : List (Execution R N)} {programs next : Task.Programs L V A}
    {executions : List (Execution R N)} {frames frames' : List Nat}
    (h : service.Serves programs executions frames) (hnew : ∀ x ∈ new, x.result = none)
    (he : service.spawn programs new frames = some (next,frames')) :
    service.Serves next (executions ++ new) frames' := by
  induction new generalizing programs executions frames with
  | nil =>
    cases he
    rw [List.append_nil]
    exact h
  | cons x new ih =>
    obtain ⟨served,hserve,hspawn⟩ := Option.bind_eq_some_iff.mp he
    have hone := h.serve (hnew x List.mem_cons_self) hserve
    have hall := ih hone (fun y hy => hnew y (List.mem_cons_of_mem _ hy)) hspawn
    rw [List.append_assoc] at hall
    exact hall

omit [DecidableEq L] [DecidableEq N] in
/-- The value a frame returns is what its body has computed. -/
theorem Service.Serves.returns {programs : Task.Programs L V A} {executions : List (Execution R N)}
    {frames : List Nat} (h : service.Serves programs executions frames) {j f : Nat}
    {x : Execution R N} {v : V} (hj : executions[j]? = some x) (hf : frames[j]? = some f)
    (hret : programs.command service.program f = some (.ret (some v))) :
    service.Computed x.task (service.result x.task v) := by
  have hcalled := h.called j x f hj hf
  obtain ⟨l,m,hl,hm,hleaves⟩ := h.sound.faithful.bodied f hcalled.born
  cases hcalled.entry.symm.trans hl
  obtain ⟨m',hm',hp⟩ := Task.Programs.command_some hret
  cases hm.symm.trans hm'
  exact ⟨v,_,rfl,hleaves.returns hp⟩

omit [DecidableEq L] [DecidableEq N] in
theorem Service.Serves.ended {programs : Task.Programs L V A} {executions : List (Execution R N)}
    {frames : List Nat} (h : service.Serves programs executions frames) {j : Nat}
    {x : Execution R N} {value : Val R x.task.sig.ret} (hj : executions[j]? = some x)
    (hvalue : service.Computed x.task value) :
    service.Serves programs (executions.set j ⟨x.origin,x.task,some value⟩) frames := by
  refine ⟨h.sound,by rw [List.length_set,h.length],fun i y f hi hf => ?_,fun y hy v hv => ?_⟩
  · rw [List.getElem?_set] at hi
    split at hi
    · rename_i heq
      subst heq
      split at hi
      · cases hi
        exact h.called j x f hj hf
      · cases hi
    · exact h.called i y f hi hf
  · rcases List.mem_or_eq_of_mem_set hy with hold | heq
    · exact h.computed y hold v hv
    · cases heq
      cases hv
      exact hvalue

structure System.Sound (service : Service R L V A) (s : System dep L V A) : Prop where
  cluster : s.cluster.Sound
  serves : ∀ n, service.Serves (s.programs n) (s.cluster n).executions (s.frames n)

omit [DecidableEq L] in
theorem System.Sound.set {s : System dep L V A} (h : s.Sound service) {n : N}
    {programs : Task.Programs L V A}
    (hn : service.Serves programs (s.cluster n).executions (s.frames n)) :
    (s.set n programs).Sound service := by
  refine ⟨h.cluster,fun m => ?_⟩
  by_cases hm : m = n
  · subst hm
    rw [show (s.set m programs).programs m = programs from Function.update_self ..]
    exact hn
  · rw [show (s.set n programs).programs m = s.programs m from Function.update_of_ne hm ..]
    exact h.serves m

theorem System.stopped_sound {s t : System dep L V A} {e : ClusterEvent dep} (h : s.Sound service)
    (he : s.stopped service e = some t) :
    t.Sound service ∧ t.cluster = s.cluster ∧ t.frames = s.frames := by
  cases e with
  | stop n =>
    simp only [System.stopped] at he
    obtain ⟨programs,hp,rfl⟩ := Option.map_eq_some_iff.mp he
    exact ⟨h.set ((h.serves n).step hp),rfl,rfl⟩
  | _ =>
    cases he
    exact ⟨h,rfl,rfl⟩

theorem System.net_sound {s t : System dep L V A} {e : ClusterEvent dep} (h : s.Sound service)
    (hf : e.isFinish = false) (he : s.net service e = some t) :
    t.Sound service ∧ s.cluster.step e = some t.cluster := by
  unfold System.net at he
  split at he
  · rename_i cluster stopped hc hstop
    obtain ⟨⟨programs,frames⟩,hspawn,rfl⟩ := Option.map_eq_some_iff.mp he
    obtain ⟨hstopped,hcluster,hframes⟩ := stopped_sound h hstop
    have hext := Cluster.step_extends hc hf
    refine ⟨⟨h.cluster.step hc,fun m => ?_⟩,hc⟩
    by_cases hm : m = e.process
    · subst hm
      obtain ⟨new,hnew,hnone⟩ := hext.more
      have hdrop : (cluster e.process).executions.drop
          (stopped.cluster e.process).executions.length = new := by
        rw [hcluster,hnew,List.drop_left]
      rw [hdrop] at hspawn
      have hserves := (hstopped.serves e.process).spawn hnone hspawn
      rw [hcluster,← hnew] at hserves
      show service.Serves (Function.update stopped.programs e.process programs e.process)
        (cluster e.process).executions (Function.update stopped.frames e.process frames e.process)
      rw [Function.update_self,Function.update_self]
      exact hserves
    · have hserves := hstopped.serves m
      rw [hcluster,← hext.same m hm] at hserves
      show service.Serves (Function.update stopped.programs e.process programs m)
        (cluster m).executions (Function.update stopped.frames e.process frames m)
      rw [Function.update_of_ne hm,Function.update_of_ne hm]
      exact hserves
  · cases he

theorem Cluster.finish_executions {s t : Cluster dep} {n : N} {j : Nat}
    {result : (task : RequestTask R) → Val R task.sig.ret} {target : Option N}
    {port : Word .w16} (h : s.finish n j result target port = some t) :
    ∃ x, (s n).executions[j]? = some x ∧
      (t n).executions = (s n).executions.set j ⟨x.origin,x.task,some (result x.task)⟩ ∧
        ∀ m, m ≠ n → (t m).executions = (s m).executions := by
  unfold Cluster.finish at h
  split at h
  · cases h
  · rename_i x hj
    refine ⟨x,hj,?_⟩
    split at h
    · cases h
    · split at h
      · cases h
      · simp only at h
        split at h
        · cases h
          rw [Cluster.set_self]
          exact ⟨rfl,fun m hm => by rw [Cluster.set_of_ne s hm]⟩
        · rename_i m
          obtain ⟨_,h⟩ := Option.ite_none_right_eq_some.mp h
          have hall : ∀ (u : Cluster dep) r m', ((u.set m ((u m).answered r)) m').executions =
              (u m').executions := by
            intro u r m'
            by_cases hm : m' = m
            · rw [hm,Cluster.set_self]
              rfl
            · rw [Cluster.set_of_ne u hm]
          cases h
          rw [hall,Cluster.set_self]
          exact ⟨rfl,fun m' hm => by rw [hall,Cluster.set_of_ne s hm]⟩

theorem System.finish_sound {s t : System dep L V A} {n : N} {j : Nat} {target : Option N}
    {port : Word .w16} (h : s.Sound service) (he : s.finish service n j target port = some t) :
    t.Sound service ∧ ∃ result, s.cluster.step (.finish n j result target port) =
      some t.cluster := by
  unfold System.finish at he
  split at he
  · cases he
  · rename_i f hf
    split at he
    · rename_i v hret
      split at he
      · rename_i cluster programs hc hp
        cases he
        have hfinish : s.cluster.finish n j (fun task => service.result task v) target port =
            some cluster := hc
        obtain ⟨x,hj,hset,hother⟩ := Cluster.finish_executions hfinish
        have hserves := (h.serves n).step hp
        refine ⟨⟨h.cluster.step hc,fun m => ?_⟩,_,hc⟩
        by_cases hm : m = n
        · subst hm
          show service.Serves (Function.update s.programs m programs m) (cluster m).executions
            (s.frames m)
          rw [Function.update_self,hset]
          exact hserves.ended hj ((h.serves m).returns hj hf hret)
        · show service.Serves (Function.update s.programs n programs m) (cluster m).executions
            (s.frames m)
          rw [Function.update_of_ne hm,hother m hm]
          exact h.serves m
      · cases he
    · cases he

theorem System.step_sound {s t : System dep L V A} {e : SystemEvent dep L V A}
    (h : s.Sound service) (he : s.step service e = some t) : t.Sound service := by
  cases e with
  | net e =>
    simp only [System.step] at he
    split at he
    · cases he
    · rename_i hf
      exact (net_sound h (Bool.eq_false_iff.mpr hf) he).1
  | code n a =>
    obtain ⟨_,he⟩ := Option.ite_none_right_eq_some.mp he
    obtain ⟨programs,hp,rfl⟩ := Option.map_eq_some_iff.mp he
    exact h.set ((h.serves n).step hp)
  | finish n j target port => exact (finish_sound h he).1

omit [DecidableEq L] [DecidableEq N] in
theorem System.start_sound : (System.start dep : System dep L V A).Sound service :=
  ⟨Cluster.start_sound dep,fun _ => ⟨Task.Programs.start_sound,rfl,fun _ _ _ hj => (by cases hj),
    fun _ hx => absurd hx List.not_mem_nil⟩⟩

def System.allows (s : System dep L V A) : SystemEvent dep L V A → Bool
  | .net e => s.cluster.bufferLives e && s.cluster.memoryLasts e && s.cluster.inTime e
  | _ => true

theorem System.reaches_cluster {s : System dep L V A}
    (h : Transition.Reaches (System.step service) System.allows (.start dep) s) :
    Transition.Reaches Cluster.step
      (fun s e => s.bufferLives e && s.memoryLasts e && s.inTime e) (.start dep) s.cluster := by
  refine h.simulates (f := System.cluster) (I := System.Sound service)
    (fun s e t hs _ he => step_sound hs he) (fun s e t hs hok he => ?_) start_sound
  cases e with
  | net e =>
    simp only [System.step] at he
    split at he
    · cases he
    · rename_i hf
      exact .single ⟨e,hok,(net_sound hs (Bool.eq_false_iff.mpr hf) he).2⟩
  | code n a =>
    obtain ⟨_,he⟩ := Option.ite_none_right_eq_some.mp he
    obtain ⟨programs,_,rfl⟩ := Option.map_eq_some_iff.mp he
    exact .refl
  | finish n j target port =>
    obtain ⟨result,hc⟩ := (finish_sound hs he).2
    exact .single ⟨_,rfl,hc⟩

def Service.Answers (service : Service R L V A) (s : Cluster dep) (n : N) (c : Nat)
    (inv : Invocation dep) (result : EndPoint × Val R ((s n).world.net.calls c).sig.ret) : Prop :=
  ∃ (m : N) (value : Val R inv.rpc.sig.ret)
    (h : inv.rpc.sig.ret = ((s n).world.net.calls c).sig.ret),
    service.Computed (inv.task (dep.address n) ((s n).world.tasks c).coroId) value ∧
    result = (peerAt (dep.address m),((s n).world.net.calls c).shown (peerAt (dep.address m))
      (absorb dep.defaults (Val.fresh dep.defaults ((s n).world.net.calls c).sig.ret) (h ▸ value)))

omit [DecidableEq L] [DecidableEq N] in
theorem Execution.Yields.answers {s : System dep L V A} (hs : s.Sound service) {n m : N} {c : Nat}
    {inv : Invocation dep} {x : Execution R N}
    {result : EndPoint × Val R ((s.cluster n).world.net.calls c).sig.ret}
    (h : x.Yields s.cluster n c inv m result) : service.Answers s.cluster n c inv result := by
  obtain ⟨hserves,_,_,htask,v,⟨hret,hv⟩,hresult⟩ := h
  obtain ⟨origin,task,r⟩ := x
  subst htask
  have heq : inv.rpc.sig.ret = ((s.cluster n).world.net.calls c).sig.ret := hret.symm
  have hcomputed : service.Computed (inv.task (dep.address n)
      ((s.cluster n).world.tasks c).coroId) (heq ▸ v) := (hs.serves m).computed _ hserves _ hv
  refine ⟨m,heq ▸ v,heq,hcomputed,?_⟩
  rw [cast_back heq]
  exact hresult

theorem forall₂_related {α β : Type} {r : α → β → Prop} {l : List α} {l' : List β}
    (h : List.Forall₂ r l l') {b : β} (hb : b ∈ l') : ∃ a ∈ l, r a b := by
  induction h with
  | nil => cases hb
  | cons hab _ ih =>
    rcases List.mem_cons.mp hb with rfl | hb'
    · exact ⟨_,List.mem_cons_self,hab⟩
    · obtain ⟨a,ha,hr⟩ := ih hb'
      exact ⟨a,List.mem_cons_of_mem _ ha,hr⟩

theorem System.answers {s : System dep L V A}
    (h : Transition.Reaches (System.step service) System.allows (.start dep) s) {n : N} {c : Nat}
    {inv : Invocation dep} (hc : (s.cluster n).invocations[c]? = some inv) :
    ∀ result ∈ ((s.cluster n).world.net.calls c).values,
      service.Answers s.cluster n c inv result := by
  have hs : s.Sound service :=
    h.invariant (fun _ _ _ hi _ he => System.step_sound hi he) System.start_sound
  obtain ⟨xs,_,hxs⟩ := Cluster.values_yield (System.reaches_cluster h) hc
  intro result hin
  obtain ⟨x,_,hx⟩ := forall₂_related hxs hin
  exact hx.answers hs

/-- Calling a function of another process is calling it: in a run in which responses come in
time, each value among the results of a call is what the body of the function computes on the
arguments of the call. -/
theorem remote_calls_compute (dep : Deployment R N) (service : Service R L V A)
    (s : System dep L V A)
    (h : Transition.Reaches (System.step service) System.allows (.start dep) s) (n : N) (c : Nat)
    (inv : Invocation dep) (hc : (s.cluster n).invocations[c]? = some inv) :
    ∀ result ∈ ((s.cluster n).world.net.calls c).values,
      service.Answers s.cluster n c inv result :=
  System.answers h hc

end

end

end NewRpc.Net
