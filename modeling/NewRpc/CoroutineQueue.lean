import NewRpc.IntrusiveList

/-!
The queue that schedulers and timers keep coroutines in. Its links are fields of the
coroutines, which are named by numbers.
-/

set_option autoImplicit false

namespace NewRpc
open IntrusiveList

structure CoroutineQueue where
  head : Option Nat
  tail : Option Nat
  size : Nat
  deriving DecidableEq, Repr

def CoroutineQueue.empty : CoroutineQueue := ⟨none,none,0⟩

abbrev QueueLinks := Links Nat

def unlinked (ndebug : Bool) (link : QueueLinks) (coroFrame : Nat) : Bool :=
  ndebug || (link coroFrame).isNone

/-- Like the two operations below it gives `none` where the process ends: by a failed
assertion or at a null pointer. -/
def CoroutineQueue.appendToTail (ndebug : Bool) (link : QueueLinks) (q : CoroutineQueue)
    (coroFrame : Nat) : Option (QueueLinks × CoroutineQueue) :=
  if unlinked ndebug link coroFrame then
    if q.size = 0 then some (link,⟨some coroFrame,some coroFrame,q.size + 1⟩)
    else match q.tail with
      | none => none
      | some tail => some (Function.update link tail (some coroFrame),
          ⟨q.head,some coroFrame,q.size + 1⟩)
  else none

def appendToTarget (ndebug : Bool) (link : QueueLinks) (target : Option CoroutineQueue)
    (iter : Nat) : Option (QueueLinks × Option CoroutineQueue) :=
  match target with
  | none => some (link,none)
  | some t => (t.appendToTail ndebug link iter).map (fun r => (r.1,some r.2))

def CoroutineQueue.fetchLoop (ndebug : Bool) (condition : Nat → Bool) :
    Nat → QueueLinks → CoroutineQueue → Option CoroutineQueue → Slot Nat → Option Nat →
      Option (QueueLinks × CoroutineQueue × Option CoroutineQueue)
  | _, link, q, target, _, none => some (link,q,target)
  | 0, _, _, _, _, some _ => none
  | fuel + 1, link, q, target, last, some iter =>
      let next := link iter
      if condition iter then
        let stored := last.store (link iter) (q.head,link)
        let link := Function.update stored.2 iter none
        match appendToTarget ndebug link target iter with
        | none => none
        | some (link,target) =>
            fetchLoop ndebug condition fuel link ⟨stored.1,q.tail,q.size - 1⟩ target last next
      else fetchLoop ndebug condition fuel link q target (.next iter) next

def CoroutineQueue.fetchNodes (ndebug : Bool) (condition : Nat → Bool) (link : QueueLinks)
    (q : CoroutineQueue) (target : Option CoroutineQueue) :
    Option (QueueLinks × CoroutineQueue × Option CoroutineQueue) :=
  match fetchLoop ndebug condition q.size link q target .head q.head with
  | none => none
  | some (link,q,target) => some (link,if q.size = 0 then ⟨none,none,q.size⟩ else q,target)

def CoroutineQueue.popFromHead (ndebug : Bool) (link : QueueLinks) (q : CoroutineQueue) :
    Option (QueueLinks × CoroutineQueue × Nat) :=
  match q.head with
  | none => none
  | some ret =>
      if q.head = q.tail then
        if unlinked ndebug link ret then
          some (Function.update link ret none,⟨none,none,q.size - 1⟩,ret)
        else none
      else some (Function.update link ret none,⟨link ret,q.tail,q.size - 1⟩,ret)

structure CoroutineQueue.Lists (link : QueueLinks) (q : CoroutineQueue) (xs : List Nat) : Prop where
  seg : Seg link q.head xs none
  size : q.size = xs.length

structure CoroutineQueue.Holds (link : QueueLinks) (q : CoroutineQueue) (xs : List Nat) : Prop
    extends q.Lists link xs where
  tail : q.tail = xs.getLast?

theorem CoroutineQueue.empty_holds (link : QueueLinks) : empty.Holds link [] :=
  ⟨⟨rfl,rfl⟩,rfl⟩

theorem CoroutineQueue.Lists.congr {link link' : QueueLinks} {q : CoroutineQueue} {xs : List Nat}
    (h : q.Lists link xs) (heq : ∀ x ∈ xs, link' x = link x) : q.Lists link' xs :=
  ⟨h.seg.congr heq,h.size⟩

theorem CoroutineQueue.Holds.congr {link link' : QueueLinks} {q : CoroutineQueue} {xs : List Nat}
    (h : q.Holds link xs) (heq : ∀ x ∈ xs, link' x = link x) : q.Holds link' xs :=
  ⟨h.toLists.congr heq,h.tail⟩

/-- Appending needs the right tail, and touches the link of the last node alone. -/
theorem CoroutineQueue.Lists.appendToTail {link : QueueLinks} {q : CoroutineQueue} {xs : List Nat}
    (h : q.Lists link xs) (ndebug : Bool) {f : Nat} (hf : f ∉ xs) (hlink : link f = none)
    (htail : xs ≠ [] → q.tail = xs.getLast?) :
    ∃ link' q', q.appendToTail ndebug link f = some (link',q') ∧ q'.Holds link' (xs ++ [f]) ∧
      ∀ x ∉ xs, link' x = link x := by
  have hu : unlinked ndebug link f = true := by simp [unlinked,hlink]
  rcases List.eq_nil_or_concat xs with rfl | ⟨ys,t,rfl⟩
  · have hsize : q.size = 0 := h.size
    refine ⟨link,⟨some f,some f,q.size + 1⟩,?_,⟨⟨⟨rfl,hlink⟩,?_⟩,rfl⟩,fun _ _ => rfl⟩
    · rw [CoroutineQueue.appendToTail,if_pos hu,if_pos hsize]
    · simp [hsize]
  · rw [List.concat_eq_append] at *
    have hsize := h.size
    have hne : q.size ≠ 0 := by
      rw [hsize]
      simp
    have ht : q.tail = some t := by
      rw [htail (by simp)]
      simp
    refine ⟨Function.update link t (some f),⟨q.head,some f,q.size + 1⟩,?_,
      ⟨⟨h.seg.snoc hf hlink,?_⟩,?_⟩,?_⟩
    · rw [CoroutineQueue.appendToTail,if_pos hu,if_neg hne,ht]
    · simp [hsize]
    · simp
    · intro x hx
      exact Function.update_of_ne (fun heq => hx (by simp [heq])) _ _

theorem CoroutineQueue.Holds.popFromHead {link : QueueLinks} {q : CoroutineQueue} {x : Nat}
    {xs : List Nat} (h : q.Holds link (x :: xs)) (ndebug : Bool) :
    ∃ q', q.popFromHead ndebug link = some (Function.update link x none,q',x) ∧
      q'.Holds (Function.update link x none) xs := by
  obtain ⟨hhead,hseg⟩ := h.seg
  have hx := (List.nodup_cons.mp h.seg.nodup).1
  have hoff : ∀ y ∈ xs, Function.update link x none y = link y :=
    fun y hy => Function.update_of_ne (fun (heq : y = x) => hx (heq ▸ hy)) _ _
  have hsize : q.size - 1 = xs.length := by
    rw [h.size]
    simp
  cases xs with
  | nil =>
    have hu : unlinked ndebug link x = true := by
      have hnone : link x = none := hseg
      simp [unlinked,hnone]
    have ht : q.head = q.tail := by rw [hhead,h.tail]; rfl
    refine ⟨⟨none,none,q.size - 1⟩,?_,⟨⟨rfl,hsize⟩,rfl⟩⟩
    simp only [CoroutineQueue.popFromHead,hhead]
    rw [if_pos (hhead ▸ ht),if_pos hu]
  | cons y ys =>
    have hlast : (x :: y :: ys).getLast? = (y :: ys).getLast? := rfl
    have ht : ¬ q.head = q.tail := by
      intro heq
      rw [hhead,h.tail,hlast] at heq
      exact hx (List.mem_of_getLast? heq.symm)
    refine ⟨⟨link x,q.tail,q.size - 1⟩,?_,⟨⟨hseg.congr hoff,hsize⟩,h.tail⟩⟩
    simp only [CoroutineQueue.popFromHead,hhead]
    rw [if_neg (hhead ▸ ht)]

def TargetHolds (link : QueueLinks) (ys : List Nat) : Option CoroutineQueue → Prop
  | none => True
  | some t => t.Holds link ys

theorem appendToTarget_spec (ndebug : Bool) {link : QueueLinks} {target : Option CoroutineQueue}
    {ys : List Nat} (h : TargetHolds link ys target) {f : Nat} (hf : f ∉ ys)
    (hlink : link f = none) :
    ∃ link' target', appendToTarget ndebug link target f = some (link',target') ∧
      TargetHolds link' (ys ++ [f]) target' ∧ target'.isSome = target.isSome ∧
      ∀ x ∉ ys, link' x = link x := by
  cases target with
  | none => exact ⟨link,none,rfl,trivial,rfl,fun _ _ => rfl⟩
  | some t =>
    obtain ⟨link',t',ht,hholds,hframe⟩ :=
      h.toLists.appendToTail ndebug hf hlink (fun _ => h.tail)
    exact ⟨link',some t',by simp [appendToTarget,ht],hholds,rfl,hframe⟩

/-- One round of the loop that takes its node, with the nodes of `ks` behind it and those of
`rs` before it. What is written lies in `ks`, in the target or is the node. -/
theorem CoroutineQueue.Lists.takeNode {link : QueueLinks} {q : CoroutineQueue}
    {target : Option CoroutineQueue} {ks rs ys : List Nat} {x : Nat}
    (h : q.Lists link (ks ++ x :: rs)) (hnext : Seg link (link x) rs none)
    (ht : TargetHolds link ys target) (hdisj : ∀ y ∈ ks ++ x :: rs, y ∉ ys) (ndebug : Bool)
    {stored : Option Nat × QueueLinks}
    (hst : stored = (Slot.after ks).store (link x) (q.head,link)) :
    ∃ link' target', appendToTarget ndebug (Function.update stored.2 x none) target x =
        some (link',target') ∧
      CoroutineQueue.Lists link' ⟨stored.1,q.tail,q.size - 1⟩ (ks ++ rs) ∧
      Seg link' (link x) rs none ∧ TargetHolds link' (ys ++ [x]) target' ∧
      target'.isSome = target.isSome ∧ (∀ y, y ∉ ks → y ≠ x → y ∉ ys → link' y = link y) ∧
      (target = none → target' = none ∧ link' x = none ∧ ∀ y ∈ ys, link' y = link y) := by
  have hx : x ∉ ks ++ rs ∧ x ∉ ys :=
    ⟨(List.nodup_cons.mp (List.nodup_middle.mp h.seg.nodup)).1,hdisj x (by simp)⟩
  obtain ⟨link1,hlink1⟩ : ∃ link1, link1 = Function.update stored.2 x none := ⟨_,rfl⟩
  have hself : link1 x = none := by
    rw [hlink1]
    exact Function.update_self _ _ _
  have hoff : ∀ y, y ≠ x → link1 y = stored.2 y := by
    intro y hy
    rw [hlink1]
    exact Function.update_of_ne hy _ _
  have hrest : ∀ y, y ∉ ks → y ≠ x → link1 y = link y := by
    intro y hy hne
    rw [hoff y hne,hst]
    exact Slot.store_after link q.head (link x) hy
  have hseg : Seg link1 stored.1 (ks ++ rs) none := by
    have hunlink := h.seg.unlink
    rw [← hst] at hunlink
    exact hunlink.congr (fun y hy => hoff y (fun heq => hx.1 (heq ▸ hy)))
  have hys : ∀ y ∈ ys, link1 y = link y := fun y hy =>
    hrest y (fun hk => hdisj y (by simp [hk]) hy) (fun heq => hx.2 (heq ▸ hy))
  have hapart : ∀ y ∈ ks ++ rs, y ∉ ys := by
    intro y hy
    rcases List.mem_append.mp hy with hk | hr
    · exact hdisj y (by simp [hk])
    · exact hdisj y (by simp [hr])
  have ht1 : TargetHolds link1 ys target := by
    cases target with
    | none => trivial
    | some t => exact CoroutineQueue.Holds.congr ht hys
  obtain ⟨link2,target2,ha,ht2,hsome,hframe⟩ := appendToTarget_spec ndebug ht1 hx.2 hself
  rw [← hlink1]
  refine ⟨link2,target2,ha,⟨hseg.congr (fun y hy => hframe y (hapart y hy)),?_⟩,?_,ht2,hsome,
    fun y hk hne hy => (hframe y hy).trans (hrest y hk hne),?_⟩
  · simp [h.size]
  · refine hnext.congr (fun y hy => ?_)
    have hk : y ∉ ks := by
      intro hk
      have hnd := List.nodup_append.mp h.seg.nodup
      exact hnd.2.2 y hk y (by simp [hy]) rfl
    have hne : y ≠ x := fun heq => hx.1 (by simp [← heq,hy])
    exact (hframe y (hapart y (by simp [hy]))).trans (hrest y hk hne)
  · rintro rfl
    -- without a target nothing is appended, and the node keeps the null it was given
    cases ha
    exact ⟨rfl,hself,hys⟩

theorem apart_taken {ks rs ys : List Nat} {x : Nat} (hdisj : ∀ y ∈ ks ++ x :: rs, y ∉ ys)
    (hx : x ∉ ks ++ rs) : ∀ y ∈ ks ++ rs, y ∉ ys ++ [x] := by
  intro y hy
  simp only [List.mem_append,List.mem_singleton,not_or]
  refine ⟨hdisj y ?_,fun heq => hx (heq ▸ hy)⟩
  rcases List.mem_append.mp hy with hk | hr
  · simp [hk]
  · simp [hr]

/-- The loop with the nodes of `ks` behind it and those of `rs` before it. -/
theorem CoroutineQueue.fetchLoop_spec (ndebug : Bool) (condition : Nat → Bool)
    (rs : List Nat) (fuel : Nat) (link : QueueLinks) (q : CoroutineQueue)
    (target : Option CoroutineQueue) (ks ys : List Nat) (iter : Option Nat)
    (hfuel : rs.length ≤ fuel) (hq : q.Lists link (ks ++ rs)) (hiter : Seg link iter rs none)
    (ht : TargetHolds link ys target) (hdisj : ∀ x ∈ ks ++ rs, x ∉ ys) :
    ∃ link' q' target',
      fetchLoop ndebug condition fuel link q target (Slot.after ks) iter =
        some (link',q',target') ∧
      q'.Lists link' (ks ++ rs.filter (fun x => !condition x)) ∧
      TargetHolds link' (ys ++ rs.filter condition) target' ∧
      target'.isSome = target.isSome ∧ q'.tail = q.tail ∧
      (∀ x, x ∉ ks ++ rs → x ∉ ys → link' x = link x) ∧
      (target = none → (∀ y ∈ ys, link y = none) →
        ∀ y ∈ ys ++ rs.filter condition, link' y = none) := by
  induction rs generalizing fuel link q target ks ys iter with
  | nil =>
    rw [Seg] at hiter
    subst hiter
    refine ⟨link,q,target,?_,by simpa using hq,by simpa using ht,rfl,rfl,fun _ _ _ => rfl,
      fun _ hfree => by simpa using hfree⟩
    cases fuel <;> rfl
  | cons x rs ih =>
    obtain ⟨rfl,hnext⟩ := hiter
    obtain ⟨fuel,rfl⟩ : ∃ n, fuel = n + 1 := ⟨fuel - 1,by simp at hfuel; omega⟩
    by_cases hc : condition x
    · have hx := (List.nodup_cons.mp (List.nodup_middle.mp hq.seg.nodup)).1
      obtain ⟨link2,target2,ha,hq2,hnext2,ht2,hsome,hframe,hnone⟩ :=
        hq.takeNode hnext ht hdisj ndebug rfl
      obtain ⟨link',q',target',hl,h1,h2,h3,h4,h5,h6⟩ := ih fuel link2 _ target2 ks (ys ++ [x])
        (link x) (by simpa using hfuel) hq2 hnext2 ht2 (apart_taken hdisj hx)
      refine ⟨link',q',target',?_,by simpa [hc] using h1,by simpa [hc] using h2,h3.trans hsome,h4,
        ?_,?_⟩
      · simp only [fetchLoop,if_pos hc]
        rw [ha]
        exact hl
      · intro y hy hys
        simp only [List.mem_append,List.mem_cons,not_or] at hy
        rw [h5 y (by simp [hy]) (by simp [hys,hy])]
        exact hframe y hy.1 hy.2.1 hys
      · intro htarget hfree
        obtain ⟨htarget2,hself,hkept⟩ := hnone htarget
        have hys : ∀ y ∈ ys ++ [x], link2 y = none := by
          intro y hy
          rcases List.mem_append.mp hy with hy | hy
          · exact (hkept y hy).trans (hfree y hy)
          · rw [List.mem_singleton.mp hy]
            exact hself
        simpa [hc] using h6 htarget2 hys
    · have hk : ks ++ x :: rs = ks ++ [x] ++ rs := by simp
      rw [hk] at hq hdisj
      obtain ⟨link',q',target',hl,h1,h2,h3,h4,h5,h6⟩ := ih fuel link q target (ks ++ [x]) ys (link x)
        (by simpa using hfuel) hq hnext ht hdisj
      rw [Slot.after_append] at hl
      refine ⟨link',q',target',?_,by simpa [hc] using h1,by simpa [hc] using h2,h3,h4,?_,?_⟩
      · simp only [fetchLoop,if_neg hc]
        exact hl
      · rw [hk]
        exact h5
      · simpa [hc] using h6

/-- What `fetch_nodes` leaves of a queue of `xs` and a target of `ys`. It forgets the
tail only when nothing is left. -/
structure Fetched (condition : Nat → Bool) (link : QueueLinks) (q : CoroutineQueue)
    (target : Option CoroutineQueue) (xs ys : List Nat) (link' : QueueLinks)
    (q' : CoroutineQueue) (target' : Option CoroutineQueue) : Prop where
  lists : q'.Lists link' (xs.filter (fun x => !condition x))
  holds : TargetHolds link' (ys ++ xs.filter condition) target'
  isSome : target'.isSome = target.isSome
  tail : q'.size ≠ 0 → q'.tail = q.tail
  frame : ∀ x, x ∉ xs → x ∉ ys → link' x = link x

theorem CoroutineQueue.Lists.fetchNodes {link : QueueLinks} {q : CoroutineQueue}
    {target : Option CoroutineQueue} {xs ys : List Nat} (h : q.Lists link xs)
    (ht : TargetHolds link ys target) (hdisj : ∀ x ∈ xs, x ∉ ys) (ndebug : Bool)
    (condition : Nat → Bool) :
    ∃ link' q' target', q.fetchNodes ndebug condition link target = some (link',q',target') ∧
      Fetched condition link q target xs ys link' q' target' ∧
      (target = none → (∀ y ∈ ys, link y = none) →
        ∀ y ∈ ys ++ xs.filter condition, link' y = none) := by
  obtain ⟨link',q',target',hl,hq',ht',hsome,htail,hframe,hfree⟩ :=
    fetchLoop_spec ndebug condition xs q.size link q target [] ys q.head
      (Nat.le_of_eq h.size.symm) h h.seg ht hdisj
  rw [Slot.after_nil] at hl
  simp only [CoroutineQueue.fetchNodes,hl]
  by_cases hz : q'.size = 0
  · rw [if_pos hz]
    refine ⟨link',_,target',rfl,⟨⟨?_,hq'.size⟩,ht',hsome,fun hne => absurd hz hne,hframe⟩,hfree⟩
    have hnil := List.length_eq_zero_iff.mp (hq'.size.symm.trans hz)
    simp only [List.nil_append] at hnil
    rw [hnil]
    rfl
  · rw [if_neg hz]
    exact ⟨link',_,target',rfl,⟨hq',ht',hsome,fun _ => htail,hframe⟩,hfree⟩

end NewRpc
