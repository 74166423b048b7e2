import Mathlib.Logic.Relation

/-!
Procedures that call each other and ask for answers from outside, as the places where they
can be suspended: what they compute, and what is left of them on the way.
-/

set_option autoImplicit false

namespace Resumable

/-- What a procedure does next: it returns, it calls another one and goes on with its value,
or it asks and goes on with the answer. -/
inductive Command (L V A : Type) where
  | ret (value : V)
  | call (callee : L) (rest : V → L)
  | ask (rest : A → L)

abbrev Program (L V A : Type) := L → Command L V A

variable {L V A : Type} {P : Program L V A}

inductive Computes (P : Program L V A) : L → List A → V → Prop
  | ret {l : L} {v : V} (h : P l = .ret v) : Computes P l [] v
  | call {l c : L} {rest : V → L} {as bs : List A} {v w : V} (h : P l = .call c rest)
      (hc : Computes P c as v) (hrest : Computes P (rest v) bs w) : Computes P l (as ++ bs) w
  | ask {l : L} {rest : A → L} {a : A} {as : List A} {v : V} (h : P l = .ask rest)
      (hrest : Computes P (rest a) as v) : Computes P l (a :: as) v

inductive Leaves (P : Program L V A) (l : L) : List A → L → Prop
  | refl : Leaves P l [] l
  | call {m c : L} {rest : V → L} {as bs : List A} {v : V} (h : Leaves P l as m)
      (hm : P m = .call c rest) (hc : Computes P c bs v) : Leaves P l (as ++ bs) (rest v)
  | ask {m : L} {rest : A → L} {as : List A} (h : Leaves P l as m) (hm : P m = .ask rest)
      (a : A) : Leaves P l (as ++ [a]) (rest a)

theorem Leaves.computes {l m : L} {as bs : List A} {v : V} (h : Leaves P l as m)
    (hm : Computes P m bs v) : Computes P l (as ++ bs) v := by
  induction h generalizing bs with
  | refl => exact hm
  | call h hn hc ih =>
    rw [List.append_assoc]
    exact ih (.call hn hc hm)
  | ask h hn a ih =>
    rw [List.append_assoc]
    exact ih (.ask hn hm)

theorem Leaves.returns {l m : L} {as : List A} {v : V} (h : Leaves P l as m)
    (hm : P m = .ret v) : Computes P l as v := by
  have hv := h.computes (.ret hm)
  rw [List.append_nil] at hv
  exact hv

/-- The value depends on the answers alone, and so does how many of them are taken. -/
theorem Computes.unique {l : L} {as as' rs rs' : List A} {v v' : V} (h : Computes P l as v)
    (h' : Computes P l as' v') (heq : as ++ rs = as' ++ rs') : as = as' ∧ v = v' := by
  induction h generalizing as' rs rs' v' with
  | ret h =>
    cases h' with
    | ret h' =>
      cases h.symm.trans h'
      exact ⟨rfl,rfl⟩
    | call h' => cases h.symm.trans h'
    | ask h' => cases h.symm.trans h'
  | call h hc hrest ihc ihrest =>
    cases h' with
    | ret h' => cases h.symm.trans h'
    | call h' hc' hrest' =>
      cases h.symm.trans h'
      rw [List.append_assoc,List.append_assoc] at heq
      obtain ⟨rfl,rfl⟩ := ihc hc' heq
      obtain ⟨rfl,rfl⟩ := ihrest hrest' (List.append_cancel_left heq)
      exact ⟨rfl,rfl⟩
    | ask h' => cases h.symm.trans h'
  | ask h hrest ih =>
    cases h' with
    | ret h' => cases h.symm.trans h'
    | call h' => cases h.symm.trans h'
    | ask h' hrest' =>
      cases h.symm.trans h'
      obtain ⟨rfl,htail⟩ := List.cons.inj heq
      obtain ⟨rfl,rfl⟩ := ih hrest' htail
      exact ⟨rfl,rfl⟩

theorem Computes.value {l : L} {as : List A} {v v' : V} (h : Computes P l [] v)
    (h' : Computes P l as v') : v = v' :=
  (h.unique h' (List.nil_append as |>.trans (List.append_nil as).symm)).2

/-- Where a procedure goes next from a place, or the procedure that it calls there. -/
inductive Below (P : Program L V A) : L → L → Prop
  | callee {l c : L} {rest : V → L} (h : P l = .call c rest) : Below P c l
  | value {l c : L} {rest : V → L} {as : List A} {v : V} (h : P l = .call c rest)
      (hc : Computes P c as v) : Below P (rest v) l
  | answer {l : L} {rest : A → L} (h : P l = .ask rest) (a : A) : Below P (rest a) l

def Terminates (P : Program L V A) (l : L) : Prop := Acc (Below P) l

theorem Leaves.descends {l m : L} {as : List A} (h : Leaves P l as m) :
    Relation.ReflTransGen (Below P) m l := by
  induction h with
  | refl => exact .refl
  | call _ hm hc ih => exact .head (.value hm hc) ih
  | ask _ hm a ih => exact .head (.answer hm a) ih

end Resumable
