import Mathlib.Data.List.Chain
import Mathlib.Data.List.Nodup
import Mathlib.Logic.Function.Basic

/-!
Stacks kept as rings of two-way links: each ring starts at its root, goes through the
stack and comes back to the root. Linking an element in before the root pushes it, and
unlinking it pops it.
-/

set_option autoImplicit false

namespace Ring

variable {α : Type}

def Link (next prev : α → Option α) (a b : α) : Prop := next a = some b ∧ prev b = some a

structure Threaded (next prev : α → Option α) (stack : α → List α) : Prop where
  head : ∀ r, ∀ a ∈ (stack r).head?, a = r
  once : ∀ r, (stack r).Nodup
  apart : ∀ r q a, a ∈ stack r → a ∈ stack q → r = q
  linked : ∀ r, stack r ≠ [] → (stack r ++ [r]).IsChain (Link next prev)
  loose : ∀ a, (∀ r, a ∉ stack r) → next a = none ∧ prev a = none

theorem Threaded.root {next prev : α → Option α} {stack : α → List α}
    (h : Threaded next prev stack) {r : α} (hr : stack r ≠ []) : ∃ l, stack r = r :: l := by
  cases hs : stack r with
  | nil => exact absurd hs hr
  | cons a l =>
    have ha := h.head r a (by rw [hs]; rfl)
    exact ⟨l,by rw [ha]⟩

theorem Threaded.root_mem {next prev : α → Option α} {stack : α → List α}
    (h : Threaded next prev stack) {r : α} (hr : stack r ≠ []) : r ∈ stack r := by
  obtain ⟨l,hl⟩ := h.root hr
  rw [hl]
  exact List.mem_cons_self

theorem Threaded.closing {next prev : α → Option α} {stack : α → List α}
    (h : Threaded next prev stack) {r a : α} {l : List α} (hr : stack r = l ++ [a]) :
    Link next prev a r := by
  have hc := h.linked r (by simp [hr])
  rw [hr,List.append_assoc] at hc
  exact List.isChain_pair.mp hc.right_of_append

theorem Threaded.within {next prev : α → Option α} {stack : α → List α}
    (h : Threaded next prev stack) {r a b : α} {l m : List α} (hr : stack r = l ++ a :: b :: m) :
    Link next prev a b := by
  have hc := h.linked r (by simp [hr])
  rw [hr] at hc
  have hc' := hc.left_of_append.right_of_append
  exact (List.isChain_cons_cons.mp hc').1

theorem Threaded.follows {next prev : α → Option α} {stack : α → List α}
    (h : Threaded next prev stack) {r a : α} (ha : a ∈ stack r) :
    ∃ b ∈ stack r, Link next prev a b := by
  obtain ⟨l,m,hr⟩ := List.append_of_mem ha
  cases m with
  | nil => exact ⟨r,h.root_mem (by simp [hr]),h.closing hr⟩
  | cons b m => exact ⟨b,by simp [hr],h.within hr⟩

theorem Threaded.precedes {next prev : α → Option α} {stack : α → List α}
    (h : Threaded next prev stack) {r b : α} (hb : b ∈ stack r) :
    ∃ a ∈ stack r, Link next prev a b := by
  obtain ⟨l,m,hr⟩ := List.append_of_mem hb
  rcases List.eq_nil_or_concat l with hl | ⟨l',a,hl⟩
  · have hbr := h.head r b (by simp [hr,hl])
    have hne : stack r ≠ [] := by simp [hr]
    obtain ⟨k,a,hk⟩ := (List.eq_nil_or_concat (stack r)).resolve_left hne
    rw [List.concat_eq_append] at hk
    exact ⟨a,by simp [hk],hbr ▸ h.closing hk⟩
  · rw [hl,List.concat_eq_append,List.append_assoc] at hr
    exact ⟨a,by simp [hr],h.within hr⟩

theorem Threaded.inverse {next prev : α → Option α} {stack : α → List α}
    (h : Threaded next prev stack) (a b : α) : next a = some b ↔ prev b = some a := by
  constructor
  · intro hn
    by_cases ha : ∃ r, a ∈ stack r
    · obtain ⟨r,hr⟩ := ha
      obtain ⟨c,_,hnc,hpc⟩ := h.follows hr
      rw [hn] at hnc
      rw [Option.some.inj hnc]
      exact hpc
    · rw [(h.loose a (fun r hr => ha ⟨r,hr⟩)).1] at hn
      cases hn
  · intro hp
    by_cases hb : ∃ r, b ∈ stack r
    · obtain ⟨r,hr⟩ := hb
      obtain ⟨c,_,hnc,hpc⟩ := h.precedes hr
      rw [hp] at hpc
      rw [Option.some.inj hpc]
      exact hnc
    · rw [(h.loose b (fun r hr => hb ⟨r,hr⟩)).2] at hp
      cases hp

/-- An element that is linked to itself is the whole of its stack. -/
theorem Threaded.alone {next prev : α → Option α} {stack : α → List α}
    (h : Threaded next prev stack) {r a : α} (ha : a ∈ stack r) :
    prev a = some a ↔ stack a = [a] := by
  constructor
  · intro hp
    obtain ⟨l,m,hr⟩ := List.append_of_mem ha
    have hnod := h.once r
    rcases List.eq_nil_or_concat l with hl | ⟨l',b,hl⟩
    · have har := h.head r a (by simp [hr,hl])
      rw [hl,List.nil_append] at hr
      rcases List.eq_nil_or_concat m with hm | ⟨k,b,hm⟩
      · rw [har] at hr ⊢
        rw [hr,hm]
      · rw [hm,List.concat_eq_append,← List.cons_append] at hr
        have hb := (h.closing hr).2
        rw [← har,hp] at hb
        rw [hr,← Option.some.inj hb] at hnod
        simp at hnod
    · rw [hl,List.concat_eq_append,List.append_assoc] at hr
      have hb := (h.within hr).2
      rw [hp] at hb
      rw [hr,← Option.some.inj hb] at hnod
      have htail := (List.nodup_append.mp hnod).2.1
      exact absurd List.mem_cons_self (List.nodup_cons.mp htail).1
  · intro hs
    exact (h.closing (l := []) (by simpa using hs)).2

theorem ring_unique {next : α → Option α} {r a : α} {l m : List α}
    (hl : (a :: l ++ [r]).IsChain (fun x y => next x = some y)) (hrl : r ∉ l)
    (hm : (a :: m ++ [r]).IsChain (fun x y => next x = some y)) (hrm : r ∉ m) : l = m := by
  induction l generalizing a m with
  | nil =>
    have hn := (List.isChain_cons_cons.mp hl).1
    cases m with
    | nil => rfl
    | cons b m =>
      have hb := (List.isChain_cons_cons.mp hm).1
      rw [hn] at hb
      rw [Option.some.inj hb] at hrm
      exact absurd List.mem_cons_self hrm
  | cons b l ih =>
    obtain ⟨hn,hl⟩ := List.isChain_cons_cons.mp hl
    cases m with
    | nil =>
      have hb := (List.isChain_cons_cons.mp hm).1
      rw [hn] at hb
      rw [Option.some.inj hb] at hrl
      exact absurd List.mem_cons_self hrl
    | cons c m =>
      obtain ⟨hc,hm⟩ := List.isChain_cons_cons.mp hm
      rw [hn] at hc
      have hbc := Option.some.inj hc
      subst hbc
      rw [ih hl (fun hin => hrl (List.mem_cons_of_mem _ hin)) hm
        (fun hin => hrm (List.mem_cons_of_mem _ hin))]

/-- The chains that start at one element and go on as long as they can. -/
theorem chain_unique {call : α → Option α} {a : α} {l m : List α}
    (hl : (a :: l).IsChain (fun x y => call x = some y))
    (hlast : ∀ x ∈ (a :: l).getLast?, call x = none)
    (hm : (a :: m).IsChain (fun x y => call x = some y))
    (hmlast : ∀ x ∈ (a :: m).getLast?, call x = none) : l = m := by
  induction l generalizing a m with
  | nil =>
    have hn := hlast a rfl
    cases m with
    | nil => rfl
    | cons b m =>
      have hb := (List.isChain_cons_cons.mp hm).1
      rw [hn] at hb
      cases hb
  | cons b l ih =>
    obtain ⟨hn,hl⟩ := List.isChain_cons_cons.mp hl
    cases m with
    | nil =>
      have hb := hmlast a rfl
      rw [hn] at hb
      cases hb
    | cons c m =>
      obtain ⟨hc,hm⟩ := List.isChain_cons_cons.mp hm
      rw [hn] at hc
      have hbc := Option.some.inj hc
      subst hbc
      rw [ih hl (fun x hx => hlast x (by simpa using hx)) hm
        (fun x hx => hmlast x (by simpa using hx))]

theorem Threaded.chain_of {next prev next' prev' : α → Option α} {stack : α → List α}
    (h : Threaded next prev stack) {q : α} (hq : stack q ≠ [])
    (hn : ∀ a ∈ stack q, next' a = next a) (hp : ∀ a ∈ stack q, prev' a = prev a) :
    (stack q ++ [q]).IsChain (Link next' prev') := by
  have hin : ∀ a ∈ stack q ++ [q], a ∈ stack q := by
    intro a ha
    rcases List.mem_append.mp ha with ha | ha
    · exact ha
    · rw [List.mem_singleton.mp ha]
      exact h.root_mem hq
  refine (h.linked q hq).imp_of_mem_imp (fun a b ha hb hab => ?_)
  exact ⟨(hn a (hin a ha)).trans hab.1,(hp b (hin b hb)).trans hab.2⟩

/-- The part of a ring up to an element `a` keeps its links when only the next link of `a`
and the previous link of the root change. -/
theorem Threaded.front {next prev next' prev' : α → Option α} {stack : α → List α}
    (h : Threaded next prev stack) {r a : α} {l l' : List α} (hr : stack r = l ++ a :: l')
    (hn : ∀ x ∈ l, next' x = next x) (hp : ∀ x ∈ l ++ [a], x ≠ r → prev' x = prev x) :
    (l ++ [a]).IsChain (Link next' prev') := by
  have hne : stack r ≠ [] := by simp [hr]
  have hc := h.linked r hne
  have hnod := h.once r
  have hsplit : stack r = (l ++ [a]) ++ l' := by simp [hr]
  rw [hsplit] at hnod
  obtain ⟨hnod',_,hapart⟩ := List.nodup_append.mp hnod
  obtain ⟨m,hm⟩ := h.root hne
  have hhead : (l ++ [a]).head? = some r := by
    have hfirst := congrArg List.head? hsplit
    rw [List.head?_append_of_ne_nil _ (by simp),hm] at hfirst
    exact hfirst.symm
  obtain ⟨k,hk⟩ := List.head?_eq_some_iff.mp hhead
  rw [hr,List.append_assoc,List.cons_append] at hc
  obtain ⟨hfront,hback⟩ := List.isChain_split.mp hc
  refine hfront.imp_of_mem_tail_imp (fun x y hx hy hxy => ?_)
  have hy' : y ∈ l ++ [a] := List.mem_of_mem_tail hy
  have hyr : y ≠ r := by
    intro heq
    rw [hk,List.tail_cons,heq] at hy
    rw [hk] at hnod'
    exact (List.nodup_cons.mp hnod').1 hy
  refine ⟨?_,(hp y hy' hyr).trans hxy.2⟩
  rcases List.mem_append.mp hx with hx | hx
  · exact (hn x hx).trans hxy.1
  · -- what follows `a` is in the rest of the ring, or the root
    have hnext := hxy.1
    rw [List.mem_singleton.mp hx] at hnext
    cases l' with
    | nil =>
      have hroot := (List.isChain_cons_cons.mp hback).1.1
      rw [hroot] at hnext
      exact absurd (Option.some.inj hnext).symm hyr
    | cons c l' =>
      have hlater := (List.isChain_cons_cons.mp hback).1.1
      rw [hlater] at hnext
      exact absurd (Option.some.inj hnext).symm (hapart y hy' c (by simp))

theorem ne_of_alone {stack : α → List α} {r c x : α} (hc : stack c = [c]) (hx : x ∈ stack r)
    (hxc : x ≠ c) : r ≠ c := by
  intro heq
  rw [heq,hc] at hx
  exact hxc (List.mem_singleton.mp hx)

variable [DecidableEq α]

def pushed (stack : α → List α) (r c : α) : α → List α :=
  Function.update (Function.update stack c []) r (stack r ++ [c])

theorem pushed_root (stack : α → List α) (r c : α) : pushed stack r c r = stack r ++ [c] :=
  Function.update_self ..

theorem pushed_child (stack : α → List α) {r c : α} (h : r ≠ c) : pushed stack r c c = [] := by
  unfold pushed
  rw [Function.update_of_ne (Ne.symm h),Function.update_self]

theorem pushed_ne (stack : α → List α) {r c q : α} (hr : q ≠ r) (hc : q ≠ c) :
    pushed stack r c q = stack q := by
  unfold pushed
  rw [Function.update_of_ne hr,Function.update_of_ne hc]

theorem of_pushed {stack : α → List α} {r c q : α} (hr : stack r ≠ []) (hne : r ≠ c)
    (hq : pushed stack r c q ≠ []) : stack q ≠ [] ∧ q ≠ c := by
  have hqc : q ≠ c := by
    intro heq
    rw [heq] at hq
    exact hq (pushed_child stack hne)
  by_cases hqr : q = r
  · exact ⟨hqr ▸ hr,hqc⟩
  · rw [pushed_ne stack hqr hqc] at hq
    exact ⟨hq,hqc⟩

theorem Threaded.mem_pushed {next prev : α → Option α} {stack : α → List α}
    (h : Threaded next prev stack) {r c : α} (hc : stack c = [c]) (hne : r ≠ c) (q a : α) :
    a ∈ pushed stack r c q ↔ (a ∈ stack q ∧ a ≠ c) ∨ (q = r ∧ a = c) := by
  have hcq : c ∈ stack q → q = c := fun hin => h.apart q c c hin (by simp [hc])
  by_cases hqr : q = r
  · subst hqr
    rw [pushed_root]
    by_cases hac : a = c
    · simp [hac]
    · simp [hac]
  · by_cases hqc : q = c
    · subst hqc
      rw [pushed_child stack hne,hc]
      simp [hqr]
    · rw [pushed_ne stack hqr hqc]
      by_cases hac : a = c
      · have hout : c ∉ stack q := fun hin => hqc (hcq hin)
        simp [hac,hqr,hout]
      · simp [hac,hqr]

theorem Threaded.push {next prev next' prev' : α → Option α} {stack : α → List α}
    (h : Threaded next prev stack) {r a c : α} {l : List α} (hr : stack r = l ++ [a])
    (hc : stack c = [c]) (hne : r ≠ c)
    (hn : ∀ x, next' x = if x = c then some r else if x = a then some c else next x)
    (hp : ∀ x, prev' x = if x = r then some c else if x = c then some a else prev x) :
    Threaded next' prev' (pushed stack r c) := by
  have hmem := h.mem_pushed hc hne
  have hrin : r ∈ stack r := h.root_mem (by simp [hr])
  have hnot : ∀ q, q ≠ c → c ∉ stack q := fun q hq hin => hq (h.apart q c c hin (by simp [hc]))
  have hnod := h.once r
  have hal : a ∉ l := by
    intro hin
    rw [hr] at hnod
    exact (List.nodup_append.mp hnod).2.2 a hin a (by simp) rfl
  have hca : c ≠ a := by
    intro heq
    exact hnot r hne (by simp [hr,heq])
  refine ⟨?_,?_,?_,?_,?_⟩
  · intro q x hx
    by_cases hqr : q = r
    · subst hqr
      rw [pushed_root,List.head?_append_of_ne_nil _ (by simp [hr])] at hx
      exact h.head q x hx
    · by_cases hqc : q = c
      · subst hqc
        rw [pushed_child stack hne] at hx
        cases hx
      · rw [pushed_ne stack hqr hqc] at hx
        exact h.head q x hx
  · intro q
    by_cases hqr : q = r
    · subst hqr
      rw [pushed_root,List.nodup_append]
      refine ⟨hnod,by simp,fun x hx y hy heq => ?_⟩
      rw [heq,List.mem_singleton.mp hy] at hx
      exact hnot q hne hx
    · by_cases hqc : q = c
      · subst hqc
        rw [pushed_child stack hne]
        exact List.nodup_nil
      · rw [pushed_ne stack hqr hqc]
        exact h.once q
  · intro q q' x hx hx'
    rcases (hmem q x).mp hx with ⟨h1,hxc⟩ | ⟨h1,h1c⟩
    · rcases (hmem q' x).mp hx' with ⟨h2,_⟩ | ⟨_,h2c⟩
      · exact h.apart q q' x h1 h2
      · exact absurd h2c hxc
    · rcases (hmem q' x).mp hx' with ⟨_,hxc⟩ | ⟨h2,_⟩
      · exact absurd h1c hxc
      · rw [h1,h2]
  · intro q hq
    by_cases hqr : q = r
    · subst hqr
      rw [pushed_root,hr,List.append_assoc,List.append_assoc]
      have hfront : (l ++ [a]).IsChain (Link next' prev') := by
        refine h.front hr (fun x hx => ?_) (fun x hx hxq => ?_)
        · have hxc : x ≠ c := by
            intro heq
            exact hnot q hne (by simp [hr,heq ▸ hx])
          have hxa : x ≠ a := fun heq => hal (heq ▸ hx)
          rw [hn,if_neg hxc,if_neg hxa]
        · have hxc : x ≠ c := fun heq => hnot q hne (heq ▸ hr ▸ hx)
          rw [hp,if_neg hxq,if_neg hxc]
      have hback : ([a] ++ ([c] ++ [q])).IsChain (Link next' prev') := by
        refine List.isChain_cons_cons.mpr ⟨⟨?_,?_⟩,List.isChain_pair.mpr ⟨?_,?_⟩⟩
        · rw [hn,if_neg (Ne.symm hca),if_pos rfl]
        · rw [hp,if_neg (Ne.symm hne),if_pos rfl]
        · rw [hn,if_pos rfl]
        · rw [hp,if_pos rfl]
      exact List.isChain_split.mpr ⟨hfront,hback⟩
    · by_cases hqc : q = c
      · subst hqc
        rw [pushed_child stack hne] at hq
        exact absurd rfl hq
      · rw [pushed_ne stack hqr hqc] at hq ⊢
        have hout : ∀ x ∈ stack q, x ≠ c ∧ x ∉ stack r := by
          intro x hx
          refine ⟨?_,fun hin => hqr (h.apart q r x hx hin)⟩
          intro heq
          exact hnot q hqc (heq ▸ hx)
        refine h.chain_of hq (fun x hx => ?_) (fun x hx => ?_)
        · obtain ⟨hxc,hxr⟩ := hout x hx
          have hxa : x ≠ a := fun heq => hxr (by simp [hr,heq])
          rw [hn,if_neg hxc,if_neg hxa]
        · obtain ⟨hxc,hxr⟩ := hout x hx
          have hxr' : x ≠ r := fun heq => hxr (heq ▸ hrin)
          rw [hp,if_neg hxr',if_neg hxc]
  · intro x hx
    have hxc : x ≠ c := fun heq => hx r ((hmem r x).mpr (.inr ⟨rfl,heq⟩))
    have hxs : ∀ q, x ∉ stack q := fun q hin => hx q ((hmem q x).mpr (.inl ⟨hin,hxc⟩))
    have hxa : x ≠ a := fun heq => hxs r (by simp [hr,heq])
    have hxr : x ≠ r := fun heq => hxs r (heq ▸ hrin)
    rw [hn,hp,if_neg hxc,if_neg hxa,if_neg hxr,if_neg hxc]
    exact h.loose x hxs

def popped (stack : α → List α) (r : α) (l : List α) : α → List α := Function.update stack r l

theorem mem_of_popped {stack : α → List α} {r q x : α} {l l' : List α} (hr : stack r = l ++ l')
    (hx : x ∈ popped stack r l q) : x ∈ stack q := by
  by_cases hq : q = r
  · rw [hq,popped,Function.update_self] at hx
    rw [hq,hr]
    exact List.mem_append_left l' hx
  · rw [popped,Function.update_of_ne hq] at hx
    exact hx

theorem Threaded.pop {next prev next' prev' : α → Option α} {stack : α → List α}
    (h : Threaded next prev stack) {r a c : α} {l : List α} (hr : stack r = l ++ [a,c])
    (hn : ∀ x, next' x = if x = c then none else if x = a then some r else next x)
    (hp : ∀ x, prev' x = if x = c then none else if x = r then some a else prev x) :
    Threaded next' prev' (popped stack r (l ++ [a])) := by
  have hr' : stack r = (l ++ [a]) ++ [c] := by simp [hr]
  have hnod := h.once r
  rw [hr'] at hnod
  obtain ⟨hnod',_,hapart⟩ := List.nodup_append.mp hnod
  have hcl : ∀ x ∈ l ++ [a], x ≠ c := fun x hx => hapart x hx c (by simp)
  have hal : a ∉ l := by
    intro hin
    exact (List.nodup_append.mp hnod').2.2 a hin a (by simp) rfl
  obtain ⟨m,hm⟩ := h.root (r := r) (by simp [hr])
  have hhead : (l ++ [a]).head? = some r := by
    have := congrArg List.head? hr'
    rwa [List.head?_append_of_ne_nil _ (by simp),hm,List.head?_cons,eq_comm] at this
  have hrl : r ∈ l ++ [a] := List.mem_of_head? hhead
  have hrin : r ∈ stack r := h.root_mem (by simp [hr])
  have hmem : ∀ q x, x ∈ popped stack r (l ++ [a]) q ↔ x ∈ stack q ∧ x ≠ c := by
    intro q x
    unfold popped
    by_cases hqr : q = r
    · subst hqr
      rw [Function.update_self,hr']
      by_cases hxc : x = c
      · subst hxc
        exact iff_of_false (fun hin => hcl x hin rfl) (fun hin => hin.2 rfl)
      · simp [hxc]
    · rw [Function.update_of_ne hqr]
      refine ⟨fun hin => ⟨hin,?_⟩,fun hin => hin.1⟩
      intro heq
      exact hqr (h.apart q r x hin (by simp [hr,heq]))
  refine ⟨?_,?_,?_,?_,?_⟩
  · intro q x hx
    by_cases hqr : q = r
    · subst hqr
      rw [popped,Function.update_self,hhead] at hx
      exact (Option.some.inj hx).symm
    · rw [popped,Function.update_of_ne hqr] at hx
      exact h.head q x hx
  · intro q
    by_cases hqr : q = r
    · subst hqr
      rw [popped,Function.update_self]
      exact hnod'
    · rw [popped,Function.update_of_ne hqr]
      exact h.once q
  · intro q q' x hx hx'
    exact h.apart q q' x ((hmem q x).mp hx).1 ((hmem q' x).mp hx').1
  · intro q hq
    by_cases hqr : q = r
    · subst hqr
      rw [popped,Function.update_self,List.append_assoc]
      refine List.isChain_split.mpr ⟨?_,List.isChain_pair.mpr ⟨?_,?_⟩⟩
      · refine h.front hr (fun x hx => ?_) (fun x hx hxq => ?_)
        · have hxa : x ≠ a := fun heq => hal (heq ▸ hx)
          rw [hn,if_neg (hcl x (by simp [hx])),if_neg hxa]
        · rw [hp,if_neg (hcl x hx),if_neg hxq]
      · rw [hn,if_neg (hcl a (by simp)),if_pos rfl]
      · rw [hp,if_neg (hcl q hrl),if_pos rfl]
    · rw [popped,Function.update_of_ne hqr] at hq ⊢
      have hout : ∀ x ∈ stack q, x ∉ stack r := fun x hx hin => hqr (h.apart q r x hx hin)
      refine h.chain_of hq (fun x hx => ?_) (fun x hx => ?_)
      · have hxc : x ≠ c := fun heq => hout x hx (by simp [hr,heq])
        have hxa : x ≠ a := fun heq => hout x hx (by simp [hr,heq])
        rw [hn,if_neg hxc,if_neg hxa]
      · have hxc : x ≠ c := fun heq => hout x hx (by simp [hr,heq])
        have hxr : x ≠ r := fun heq => hout x hx (heq ▸ hrin)
        rw [hp,if_neg hxc,if_neg hxr]
  · intro x hx
    rw [hn,hp]
    by_cases hxc : x = c
    · rw [if_pos hxc,if_pos hxc]
      exact ⟨rfl,rfl⟩
    · have hxs : ∀ q, x ∉ stack q := fun q hin => hx q ((hmem q x).mpr ⟨hin,hxc⟩)
      have hxa : x ≠ a := fun heq => hxs r (by simp [hr,heq])
      have hxr : x ≠ r := fun heq => hxs r (heq ▸ hrin)
      rw [if_neg hxc,if_neg hxa,if_neg hxc,if_neg hxr]
      exact h.loose x hxs

end Ring
