import Mathlib.Data.List.Nodup
import Mathlib.Logic.Function.Basic

/-!
Singly linked lists whose links are kept in the nodes: what a walk along the links
visits, and how it changes when a link is written.
-/

set_option autoImplicit false

namespace IntrusiveList

variable {α : Type}

abbrev Links (α : Type) := α → Option α

/-- Following the links from `a` visits `xs` and arrives at `b`. -/
def Seg (link : Links α) : Option α → List α → Option α → Prop
  | a, [], b => a = b
  | a, x :: xs, b => a = some x ∧ Seg link (link x) xs b

inductive Reach (link : Links α) : Option α → α → Prop where
  | here (x : α) : Reach link (some x) x
  | next {x y : α} : Reach link (link x) y → Reach link (some x) y

theorem Seg.append_iff {link : Links α} {a c : Option α} {xs ys : List α} :
    Seg link a (xs ++ ys) c ↔ ∃ b, Seg link a xs b ∧ Seg link b ys c := by
  induction xs generalizing a with
  | nil => simp [Seg]
  | cons x xs ih =>
    simp only [List.cons_append,Seg,ih]
    constructor
    · intro ⟨ha,b,hx,hy⟩
      exact ⟨b,⟨ha,hx⟩,hy⟩
    · intro ⟨b,⟨ha,hx⟩,hy⟩
      exact ⟨ha,b,hx,hy⟩

/-- A walk does not depend on the links of the nodes it misses. -/
theorem Seg.congr {link link' : Links α} {a b : Option α} {xs : List α} (h : Seg link a xs b)
    (heq : ∀ x ∈ xs, link' x = link x) : Seg link' a xs b := by
  induction xs generalizing a with
  | nil => exact h
  | cons x xs ih =>
    obtain ⟨ha,hx⟩ := h
    refine ⟨ha,?_⟩
    rw [heq x (by simp)]
    exact ih hx (fun y hy => heq y (by simp [hy]))

theorem Seg.unique {link : Links α} {a : Option α} {xs ys : List α} (hx : Seg link a xs none)
    (hy : Seg link a ys none) : xs = ys := by
  induction xs generalizing a ys with
  | nil =>
    cases ys with
    | nil => rfl
    | cons y ys =>
      rw [Seg] at hx
      rw [hx] at hy
      cases hy.1
  | cons x xs ih =>
    cases ys with
    | nil =>
      rw [Seg] at hy
      rw [hy] at hx
      cases hx.1
    | cons y ys =>
      have heq := hx.1.symm.trans hy.1
      cases heq
      rw [ih hx.2 hy.2]

/-- A walk that ends comes by no node twice. -/
theorem Seg.nodup {link : Links α} {a : Option α} {xs : List α} (h : Seg link a xs none) :
    xs.Nodup := by
  induction xs generalizing a with
  | nil => exact List.nodup_nil
  | cons x xs ih =>
    refine List.nodup_cons.mpr ⟨fun hin => ?_,ih h.2⟩
    obtain ⟨ys,zs,hsplit⟩ := List.append_of_mem hin
    have hwhole := h.2
    rw [hsplit,append_iff] at hwhole
    obtain ⟨b,_,hb⟩ := hwhole
    -- the walk from the second visit on is the one from the first
    have hlen := congrArg List.length (hb.2.unique h.2)
    rw [hsplit] at hlen
    simp at hlen
    omega

theorem Seg.reach_iff {link : Links α} {a : Option α} {xs : List α} (h : Seg link a xs none)
    (y : α) : Reach link a y ↔ y ∈ xs := by
  induction xs generalizing a with
  | nil =>
    rw [Seg] at h
    subst h
    simp only [List.not_mem_nil,iff_false]
    intro hr
    cases hr
  | cons x xs ih =>
    obtain ⟨rfl,hx⟩ := h
    rw [List.mem_cons,← ih hx]
    constructor
    · intro hr
      cases hr with
      | here => exact .inl rfl
      | next hr => exact .inr hr
    · intro hy
      rcases hy with rfl | hr
      · exact .here _
      · exact .next hr

theorem Seg.snoc [DecidableEq α] {link : Links α} {a : Option α} {xs : List α} {t y : α}
    (h : Seg link a (xs ++ [t]) none) (hy : y ∉ xs ++ [t]) (hlink : link y = none) :
    Seg (Function.update link t (some y)) a (xs ++ [t] ++ [y]) none := by
  have hnd := List.nodup_append.mp h.nodup
  obtain ⟨b,hx,hb,_⟩ := append_iff.mp h
  have hne : y ≠ t := fun heq => hy (by simp [heq])
  refine append_iff.mpr ⟨some y,append_iff.mpr ⟨b,?_,hb,?_⟩,rfl,?_⟩
  · exact hx.congr (fun x hxs => Function.update_of_ne
      (fun heq => hnd.2.2 x hxs t (by simp) heq) _ _)
  · simp [Seg]
  · rw [Function.update_of_ne hne,hlink]
    rfl

/-- A place that holds a link: the head of a list or the link of a node. -/
inductive Slot (α : Type) where
  | head
  | next (x : α)

def Slot.store [DecidableEq α] : Slot α → Option α → Option α × Links α → Option α × Links α
  | .head, v, (_,link) => (v,link)
  | .next x, v, (a,link) => (a,Function.update link x v)

def Slot.after (xs : List α) : Slot α :=
  match xs.getLast? with
  | none => .head
  | some x => .next x

@[simp] theorem Slot.after_nil : Slot.after ([] : List α) = .head := rfl

@[simp] theorem Slot.after_append (xs : List α) (x : α) : Slot.after (xs ++ [x]) = .next x := by
  simp [after]

theorem Slot.store_after [DecidableEq α] (link : Links α) (a v : Option α) {xs : List α} {y : α}
    (hy : y ∉ xs) : ((Slot.after xs).store v (a,link)).2 y = link y := by
  rcases List.eq_nil_or_concat xs with rfl | ⟨zs,z,rfl⟩
  · rfl
  · rw [List.concat_eq_append] at hy ⊢
    rw [Slot.after_append]
    exact Function.update_of_ne (fun heq => hy (by simp [heq])) _ _

/-- Writing the link of a node over the slot that points to it takes the node out. -/
theorem Seg.unlink [DecidableEq α] {link : Links α} {a : Option α} {xs ys : List α} {x : α}
    (h : Seg link a (xs ++ x :: ys) none) :
    Seg ((Slot.after xs).store (link x) (a,link)).2 ((Slot.after xs).store (link x) (a,link)).1
      (xs ++ ys) none := by
  have hnd := h.nodup
  obtain ⟨b,hxs,_,hys⟩ := append_iff.mp h
  rcases List.eq_nil_or_concat xs with rfl | ⟨zs,z,rfl⟩
  · exact hys
  · rw [List.concat_eq_append] at hxs hnd ⊢
    rw [Slot.after_append]
    obtain ⟨c,hzs,hc,_⟩ := append_iff.mp hxs
    have hz : z ∉ zs ∧ z ∉ ys := by
      simp only [List.append_assoc,List.singleton_append,List.nodup_append,List.nodup_cons,
        List.mem_cons,not_or] at hnd
      refine ⟨fun hin => hnd.2.2 z hin z (by simp) rfl,hnd.2.1.1.2⟩
    have hoff : ∀ w, w ≠ z → Function.update link z (link x) w = link w :=
      fun w hw => Function.update_of_ne hw _ _
    refine append_iff.mpr ⟨link x,append_iff.mpr ⟨c,?_,hc,?_⟩,?_⟩
    · exact hzs.congr (fun w hw => hoff w (fun heq => hz.1 (heq ▸ hw)))
    · simp [Slot.store,Seg]
    · exact hys.congr (fun w hw => hoff w (fun heq => hz.2 (heq ▸ hw)))

end IntrusiveList
