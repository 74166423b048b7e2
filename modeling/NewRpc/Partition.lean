import NewRpc.CoroutineQueue

/-!
`fetch_nodes` with a log of the calls of its condition: it splits a queue in two and keeps the
order of both parts.
-/

set_option autoImplicit false

namespace NewRpc
open IntrusiveList

def CoroutineQueue.fetchLoopTraced (ndebug : Bool) (condition : Nat → Bool) :
    Nat → List Nat → QueueLinks → CoroutineQueue → Option CoroutineQueue → Slot Nat → Option Nat →
      Option (List Nat × QueueLinks × CoroutineQueue × Option CoroutineQueue)
  | _, calls, link, q, target, _, none => some (calls,link,q,target)
  | 0, _, _, _, _, _, some _ => none
  | fuel + 1, calls, link, q, target, last, some iter =>
      let next := link iter
      let calls := calls ++ [iter]
      if condition iter then
        let stored := last.store (link iter) (q.head,link)
        let link := Function.update stored.2 iter none
        match appendToTarget ndebug link target iter with
        | none => none
        | some (link,target) =>
            fetchLoopTraced ndebug condition fuel calls link ⟨stored.1,q.tail,q.size - 1⟩ target
              last next
      else fetchLoopTraced ndebug condition fuel calls link q target (.next iter) next

def CoroutineQueue.fetchNodesTraced (ndebug : Bool) (condition : Nat → Bool) (link : QueueLinks)
    (q : CoroutineQueue) (target : Option CoroutineQueue) :
    Option (List Nat × QueueLinks × CoroutineQueue × Option CoroutineQueue) :=
  match fetchLoopTraced ndebug condition q.size [] link q target .head q.head with
  | none => none
  | some (calls,link,q,target) =>
      some (calls,link,if q.size = 0 then ⟨none,none,q.size⟩ else q,target)

theorem CoroutineQueue.fetchLoopTraced_erase (ndebug : Bool) (condition : Nat → Bool) (fuel : Nat)
    (calls : List Nat) (link : QueueLinks) (q : CoroutineQueue) (target : Option CoroutineQueue)
    (last : Slot Nat) (iter : Option Nat) :
    (fetchLoopTraced ndebug condition fuel calls link q target last iter).map Prod.snd =
      fetchLoop ndebug condition fuel link q target last iter := by
  induction fuel generalizing calls link q target last iter with
  | zero => cases iter <;> rfl
  | succ fuel ih =>
    cases iter with
    | none => rfl
    | some iter =>
      by_cases hc : condition iter
      · simp only [fetchLoopTraced,fetchLoop,if_pos hc]
        cases appendToTarget ndebug
          (Function.update (last.store (link iter) (q.head,link)).2 iter none) target iter with
        | none => rfl
        | some r => exact ih ..
      · simp only [fetchLoopTraced,fetchLoop,if_neg hc]
        exact ih ..

theorem CoroutineQueue.fetchNodesTraced_erase (ndebug : Bool) (condition : Nat → Bool)
    (link : QueueLinks) (q : CoroutineQueue) (target : Option CoroutineQueue) :
    (q.fetchNodesTraced ndebug condition link target).map Prod.snd =
      q.fetchNodes ndebug condition link target := by
  unfold fetchNodesTraced fetchNodes
  rw [← fetchLoopTraced_erase ndebug condition q.size [] link q target .head q.head]
  cases fetchLoopTraced ndebug condition q.size [] link q target .head q.head <;> rfl

/-- The loop calls its condition on each node before it, once and in order. -/
theorem CoroutineQueue.fetchLoopTraced_calls (ndebug : Bool) (condition : Nat → Bool)
    (rs : List Nat) (fuel : Nat) (calls : List Nat) (link : QueueLinks) (q : CoroutineQueue)
    (target : Option CoroutineQueue) (ks ys : List Nat) (iter : Option Nat)
    (hq : q.Lists link (ks ++ rs)) (hiter : Seg link iter rs none)
    (ht : TargetHolds link ys target) (hdisj : ∀ x ∈ ks ++ rs, x ∉ ys) :
    ∀ r ∈ fetchLoopTraced ndebug condition fuel calls link q target (Slot.after ks) iter,
      r.1 = calls ++ rs := by
  induction rs generalizing fuel calls link q target ks ys iter with
  | nil =>
    rw [Seg] at hiter
    subst hiter
    intro r hr
    cases fuel <;> cases hr <;> exact (List.append_nil calls).symm
  | cons x rs ih =>
    obtain ⟨rfl,hnext⟩ := hiter
    intro r hr
    have hsplit : calls ++ x :: rs = calls ++ [x] ++ rs := by simp
    rw [hsplit]
    cases fuel with
    | zero => cases hr
    | succ fuel =>
      by_cases hc : condition x
      · have hx := (List.nodup_cons.mp (List.nodup_middle.mp hq.seg.nodup)).1
        obtain ⟨link2,target2,ha,hq2,hnext2,ht2,_⟩ := hq.takeNode hnext ht hdisj ndebug rfl
        simp only [fetchLoopTraced,if_pos hc,ha] at hr
        exact ih fuel (calls ++ [x]) link2 _ target2 ks (ys ++ [x]) (link x) hq2 hnext2 ht2
          (apart_taken hdisj hx) r hr
      · have hk : ks ++ x :: rs = ks ++ [x] ++ rs := by simp
        rw [hk] at hq hdisj
        simp only [fetchLoopTraced,if_neg hc] at hr
        refine ih fuel (calls ++ [x]) link q target (ks ++ [x]) ys (link x) hq hnext ht hdisj r ?_
        rw [Slot.after_append]
        exact hr

def LinkedInOrder (link : QueueLinks) (xs : List Nat) : Prop :=
  ∀ (i x : Nat), xs[i]? = some x → link x = xs[i + 1]?

/-- A queue of `xs` is split: what fails the condition stays, what meets it goes behind the
nodes `ys` of the target. -/
structure Partitioned (condition : Nat → Bool) (link : QueueLinks) (xs ys calls : List Nat)
    (link' : QueueLinks) (q' t' : CoroutineQueue) : Prop where
  calls : calls = xs
  kept : Seg link' q'.head (xs.filter (fun x => !condition x)) none
  reachable : ∀ x, Reach link' q'.head x ↔ x ∈ xs ∧ condition x = false
  size : q'.size = (xs.filter (fun x => !condition x)).length
  target : t'.Holds link' (ys ++ xs.filter condition)
  keptLinks : LinkedInOrder link' (xs.filter (fun x => !condition x))
  targetLinks : LinkedInOrder link' (ys ++ xs.filter condition)
  others : ∀ x, x ∉ xs → x ∉ ys → link' x = link x

theorem Seg.linkedInOrder {link : QueueLinks} {a : Option Nat} {xs : List Nat}
    (h : Seg link a xs none) : LinkedInOrder link xs := by
  induction xs generalizing a with
  | nil =>
    intro i x hx
    cases hx
  | cons y ys ih =>
    intro i x hx
    cases i with
    | zero =>
      have hyx : y = x := by simpa using hx
      subst hyx
      cases ys with
      | nil => exact h.2
      | cons z zs => simpa using h.2.1
    | succ i => simpa using ih h.2 i x (by simpa using hx)

/-- `fetch_nodes` is a stable partition. -/
theorem CoroutineQueue.fetch_nodes_partitions {link : QueueLinks} {q t : CoroutineQueue}
    {xs ys : List Nat} (hq : q.Holds link xs) (ht : t.Holds link ys) (hdisj : ∀ x ∈ xs, x ∉ ys)
    (ndebug : Bool) (condition : Nat → Bool) :
    ∃ calls link' q' t',
      q.fetchNodesTraced ndebug condition link (some t) = some (calls,link',q',some t') ∧
      Partitioned condition link xs ys calls link' q' t' := by
  obtain ⟨link',q',target',hfetch,hfetched,_⟩ :=
    hq.toLists.fetchNodes (show TargetHolds link ys (some t) from ht) hdisj ndebug condition
  rw [← fetchNodesTraced_erase,Option.map_eq_some_iff] at hfetch
  obtain ⟨⟨calls,_⟩,htraced,rfl⟩ := hfetch
  obtain ⟨t',rfl⟩ := Option.isSome_iff_exists.mp hfetched.isSome
  have hcalls : calls = xs := by
    have hloop := fetchLoopTraced_calls ndebug condition xs q.size [] link q (some t) [] ys q.head
      hq.toLists hq.seg ht hdisj
    rw [Slot.after_nil] at hloop
    unfold fetchNodesTraced at htraced
    cases hr : fetchLoopTraced ndebug condition q.size [] link q (some t) .head q.head with
    | none =>
      rw [hr] at htraced
      cases htraced
    | some r =>
      rw [hr] at htraced
      obtain ⟨calls',link1,q1,target1⟩ := r
      cases htraced
      exact hloop _ hr
  have hkept := hfetched.lists.seg
  refine ⟨calls,link',q',t',htraced,hcalls,hkept,fun x => ?_,hfetched.lists.size,hfetched.holds,
    Seg.linkedInOrder hkept,Seg.linkedInOrder hfetched.holds.seg,hfetched.frame⟩
  rw [hkept.reach_iff,List.mem_filter,Bool.not_eq_true']

def threeLinked : QueueLinks := fun x => if x = 1 then some 2 else if x = 2 then some 3 else none

theorem CoroutineQueue.oddNodes_partitioned :
    ∃ calls link' q' t',
      (⟨some 1,some 3,3⟩ : CoroutineQueue).fetchNodesTraced false (fun x => x % 2 == 1)
        threeLinked (some ⟨some 4,some 4,1⟩) = some (calls,link',q',some t') ∧
      Partitioned (fun x => x % 2 == 1) threeLinked [1,2,3] [4] calls link' q' t' :=
  fetch_nodes_partitions ⟨⟨by simp [Seg,threeLinked],rfl⟩,rfl⟩
    ⟨⟨by simp [Seg,threeLinked],rfl⟩,rfl⟩ (by decide) false _

end NewRpc
