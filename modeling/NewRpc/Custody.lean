import Mathlib.Data.Finset.Card
import Mathlib.Data.List.Nodup
import Mathlib.Data.List.Perm.Basic
import Mathlib.Logic.Function.Basic

/-!
Things kept in places: each one that is live is in exactly one place, once, and what the
places hold is live. How that survives when a thing is taken, put or handed over, and
the number of the live ones.
-/

set_option autoImplicit false

namespace Custody

variable {P T : Type}

structure Exclusive (held : P → List T) (live : T → Prop) : Prop where
  placed : ∀ x, live x → ∃ p, x ∈ held p
  live : ∀ p, ∀ x ∈ held p, live x
  once : ∀ p, (held p).Nodup
  apart : ∀ p q x, x ∈ held p → x ∈ held q → p = q

theorem Exclusive.unique {held : P → List T} {live : T → Prop} (h : Exclusive held live) {x : T}
    (hx : live x) : ∃! p, x ∈ held p := by
  obtain ⟨p,hp⟩ := h.placed x hx
  exact ⟨p,hp,fun q hq => h.apart q p x hq hp⟩

theorem Exclusive.not_mem {held : P → List T} {live : T → Prop} (h : Exclusive held live)
    {x : T} (hx : ¬ live x) (p : P) : x ∉ held p := fun hin => hx (h.live p x hin)

theorem Exclusive.elsewhere {held : P → List T} {live : T → Prop} (h : Exclusive held live)
    {x : T} {p q : P} (hx : x ∈ held p) (hq : q ≠ p) : x ∉ held q :=
  fun hin => hq (h.apart q p x hin hx)

theorem Exclusive.perm {held held' : P → List T} {live live' : T → Prop} (h : Exclusive held live)
    (hp : ∀ r, (held' r).Perm (held r)) (hl : ∀ x, live' x ↔ live x) : Exclusive held' live' := by
  refine ⟨?_,?_,?_,?_⟩
  · intro x hx
    obtain ⟨p,hin⟩ := h.placed x ((hl x).mp hx)
    exact ⟨p,(hp p).mem_iff.mpr hin⟩
  · intro p x hx
    exact (hl x).mpr (h.live p x ((hp p).mem_iff.mp hx))
  · intro p
    exact (hp p).nodup_iff.mpr (h.once p)
  · intro p q x hx hx'
    exact h.apart p q x ((hp p).mem_iff.mp hx) ((hp q).mem_iff.mp hx')

theorem exclusive_empty {held : P → List T} {live : T → Prop} (hnone : ∀ x, ¬ live x)
    (hempty : ∀ p, held p = []) : Exclusive held live := by
  refine ⟨fun x hx => absurd hx (hnone x),?_,?_,?_⟩
  · intro p x hx
    rw [hempty] at hx
    cases hx
  · intro p
    rw [hempty]
    exact List.nodup_nil
  · intro p q x hx
    rw [hempty] at hx
    cases hx

/-- Some of what a place holds goes to an empty one. -/
theorem Exclusive.part {held held' : P → List T} {live live' : T → Prop} (h : Exclusive held live)
    {p q : P} (hempty : held q = []) (taken : T → Bool)
    (hp : held' p = (held p).filter (fun x => !taken x)) (hq : held' q = (held p).filter taken)
    (hr : ∀ r, r ≠ p → r ≠ q → held' r = held r) (hl : ∀ y, live' y ↔ live y) :
    Exclusive held' live' := by
  classical
  have hmem : ∀ r x, x ∈ held' r → (x ∈ held p ∧ r = if taken x then q else p) ∨
      (r ≠ p ∧ r ≠ q ∧ x ∈ held r) := by
    intro r x hx
    by_cases hrp : r = p
    · rw [hrp,hp] at hx
      obtain ⟨hin,hnot⟩ := List.mem_filter.mp hx
      have hfree : taken x = false := by simpa using hnot
      exact .inl ⟨hin,by simp [hfree,hrp]⟩
    · by_cases hrq : r = q
      · rw [hrq,hq] at hx
        obtain ⟨hin,htaken⟩ := List.mem_filter.mp hx
        exact .inl ⟨hin,by simp [htaken,hrq]⟩
      · rw [hr r hrp hrq] at hx
        exact .inr ⟨hrp,hrq,hx⟩
  refine ⟨?_,?_,?_,?_⟩
  · intro x hx
    obtain ⟨r,hin⟩ := h.placed x ((hl x).mp hx)
    by_cases hrp : r = p
    · rw [hrp] at hin
      cases htaken : taken x with
      | true => exact ⟨q,by rw [hq]; exact List.mem_filter.mpr ⟨hin,htaken⟩⟩
      | false => exact ⟨p,by rw [hp]; exact List.mem_filter.mpr ⟨hin,by simp [htaken]⟩⟩
    · have hrq : r ≠ q := by
        intro heq
        rw [heq,hempty] at hin
        cases hin
      exact ⟨r,by rw [hr r hrp hrq]; exact hin⟩
  · intro r x hx
    rcases hmem r x hx with ⟨hin,_⟩ | ⟨_,_,hin⟩
    · exact (hl x).mpr (h.live p x hin)
    · exact (hl x).mpr (h.live r x hin)
  · intro r
    by_cases hrp : r = p
    · rw [hrp,hp]
      exact (h.once p).filter _
    · by_cases hrq : r = q
      · rw [hrq,hq]
        exact (h.once p).filter _
      · rw [hr r hrp hrq]
        exact h.once r
  · intro r r' x hx hx'
    rcases hmem r x hx with ⟨hin,heq⟩ | ⟨hrp,_,hin⟩
    · rcases hmem r' x hx' with ⟨_,heq'⟩ | ⟨hrp',_,hin'⟩
      · rw [heq,heq']
      · exact absurd (h.apart r' p x hin' hin) hrp'
    · rcases hmem r' x hx' with ⟨hin',_⟩ | ⟨_,_,hin'⟩
      · exact absurd (h.apart r p x hin hin') hrp
      · exact h.apart r r' x hin hin'

section Handover
variable [DecidableEq P]

def within (held : P → List T) (q : P) (x : T) : P → List T :=
  Function.update held q (held q ++ [x])

@[simp] theorem within_self (held : P → List T) (q : P) (x : T) :
    within held q x q = held q ++ [x] := Function.update_self ..

theorem within_ne (held : P → List T) {q r : P} (x : T) (h : r ≠ q) :
    within held q x r = held r := Function.update_of_ne h _ _

theorem Exclusive.put {held : P → List T} {live : T → Prop} (h : Exclusive held live) {x : T}
    (hx : ¬ live x) (q : P) : Exclusive (within held q x) (fun y => live y ∨ y = x) := by
  have hmem : ∀ r y, y ∈ within held q x r ↔ y ∈ held r ∨ (r = q ∧ y = x) := by
    intro r y
    by_cases hr : r = q
    · subst hr
      rw [within_self]
      simp
    · rw [within_ne held x hr]
      simp [hr]
  refine ⟨?_,?_,?_,?_⟩
  · intro y hy
    rcases hy with hy | hy
    · obtain ⟨r,hr⟩ := h.placed y hy
      exact ⟨r,(hmem r y).mpr (.inl hr)⟩
    · exact ⟨q,(hmem q y).mpr (.inr ⟨rfl,hy⟩)⟩
  · intro r y hy
    rcases (hmem r y).mp hy with hin | ⟨_,heq⟩
    · exact .inl (h.live r y hin)
    · exact .inr heq
  · intro r
    by_cases hr : r = q
    · subst hr
      rw [within_self,List.nodup_append]
      refine ⟨h.once r,by simp,fun a ha b hb heq => ?_⟩
      rw [heq,List.mem_singleton.mp hb] at ha
      exact h.not_mem hx r ha
    · rw [within_ne held x hr]
      exact h.once r
  · intro r r' y hy hy'
    rcases (hmem r y).mp hy with h1 | ⟨h1,h1x⟩
    · rcases (hmem r' y).mp hy' with h2 | ⟨_,h2x⟩
      · exact h.apart r r' y h1 h2
      · rw [h2x] at h1
        exact absurd h1 (h.not_mem hx r)
    · rcases (hmem r' y).mp hy' with h2 | ⟨h2,_⟩
      · rw [h1x] at h2
        exact absurd h2 (h.not_mem hx r')
      · rw [h1,h2]

theorem Exclusive.insert {held held' : P → List T} {live live' : T → Prop}
    (h : Exclusive held live) {x : T} {q : P} (hx : ¬ live x)
    (hq : (held' q).Perm (held q ++ [x])) (hr : ∀ r, r ≠ q → held' r = held r)
    (hl : ∀ y, live' y ↔ live y ∨ y = x) : Exclusive held' live' := by
  refine (h.put hx q).perm (fun r => ?_) hl
  by_cases hrq : r = q
  · subst hrq
    rw [within_self]
    exact hq
  · rw [within_ne held x hrq,hr r hrq]

variable [DecidableEq T]

def without (held : P → List T) (p : P) (x : T) : P → List T :=
  Function.update held p ((held p).erase x)

@[simp] theorem without_self (held : P → List T) (p : P) (x : T) :
    without held p x p = (held p).erase x := Function.update_self ..

theorem without_ne (held : P → List T) {p r : P} (x : T) (h : r ≠ p) :
    without held p x r = held r := Function.update_of_ne h _ _

theorem Exclusive.take {held : P → List T} {live : T → Prop} (h : Exclusive held live) {x : T}
    {p : P} (hx : x ∈ held p) : Exclusive (without held p x) (fun y => live y ∧ y ≠ x) := by
  have hmem : ∀ r y, y ∈ without held p x r ↔ y ∈ held r ∧ y ≠ x := by
    intro r y
    by_cases hr : r = p
    · subst hr
      rw [without_self,(h.once r).mem_erase_iff]
      exact And.comm
    · rw [without_ne held x hr]
      refine ⟨fun hy => ⟨hy,?_⟩,fun hy => hy.1⟩
      intro heq
      rw [heq] at hy
      exact h.elsewhere hx hr hy
  refine ⟨?_,?_,?_,?_⟩
  · intro y hy
    obtain ⟨r,hr⟩ := h.placed y hy.1
    exact ⟨r,(hmem r y).mpr ⟨hr,hy.2⟩⟩
  · intro r y hy
    obtain ⟨hin,hne⟩ := (hmem r y).mp hy
    exact ⟨h.live r y hin,hne⟩
  · intro r
    by_cases hr : r = p
    · subst hr
      rw [without_self]
      exact (h.once r).erase x
    · rw [without_ne held x hr]
      exact h.once r
  · intro r r' y hy hy'
    exact h.apart r r' y ((hmem r y).mp hy).1 ((hmem r' y).mp hy').1

/-- A thing is handed over from one place to another. -/
theorem Exclusive.move {held held' : P → List T} {live live' : T → Prop} (h : Exclusive held live)
    {x : T} {p q : P} (hx : x ∈ held p) (hpq : p ≠ q) (hp : (held' p).Perm ((held p).erase x))
    (hq : (held' q).Perm (held q ++ [x])) (hr : ∀ r, r ≠ p → r ≠ q → held' r = held r)
    (hl : ∀ y, live' y ↔ live y) : Exclusive held' live' := by
  refine ((h.take hx).put (fun hy => hy.2 rfl) q).perm (fun r => ?_) (fun y => ?_)
  · by_cases hrq : r = q
    · subst hrq
      rw [within_self,without_ne held x (Ne.symm hpq)]
      exact hq
    · rw [within_ne _ x hrq]
      by_cases hrp : r = p
      · subst hrp
        rw [without_self]
        exact hp
      · rw [without_ne held x hrp,hr r hrp hrq]
  · rw [hl]
    by_cases hy : y = x
    · rw [hy]
      simp [h.live p x hx]
    · simp [hy]

theorem Exclusive.remove {held held' : P → List T} {live live' : T → Prop}
    (h : Exclusive held live) {x : T} {p : P} (hx : x ∈ held p)
    (hp : (held' p).Perm ((held p).erase x)) (hr : ∀ r, r ≠ p → held' r = held r)
    (hl : ∀ y, live' y ↔ live y ∧ y ≠ x) : Exclusive held' live' := by
  refine (h.take hx).perm (fun r => ?_) hl
  by_cases hrp : r = p
  · subst hrp
    rw [without_self]
    exact hp
  · rw [without_ne held x hrp,hr r hrp]

end Handover

def Numbers (live : T → Prop) (n : Int) : Prop :=
  ∃ l : Finset T, (∀ x, x ∈ l ↔ live x) ∧ (l.card : Int) = n

theorem numbers_none {live : T → Prop} (h : ∀ x, ¬ live x) : Numbers live 0 :=
  ⟨∅,fun x => by simp [h x],rfl⟩

theorem Numbers.none {live : T → Prop} (h : Numbers live 0) (x : T) : ¬ live x := by
  obtain ⟨l,hl,hn⟩ := h
  have hempty : l = ∅ := Finset.card_eq_zero.mp (by omega)
  rw [← hl,hempty]
  exact Finset.notMem_empty x

theorem Numbers.eq_zero {live : T → Prop} {n : Int} (h : Numbers live n) (hnone : ∀ x, ¬ live x) :
    n = 0 := by
  obtain ⟨l,hl,hn⟩ := h
  have hempty : l = ∅ := Finset.eq_empty_of_forall_notMem (fun x hx => hnone x ((hl x).mp hx))
  rw [← hn,hempty]
  rfl

theorem Numbers.congr {live live' : T → Prop} {n : Int} (h : Numbers live n)
    (hl : ∀ x, live' x ↔ live x) : Numbers live' n := by
  obtain ⟨l,hx,hn⟩ := h
  exact ⟨l,fun x => (hx x).trans (hl x).symm,hn⟩

theorem Numbers.nonneg {live : T → Prop} {n : Int} (h : Numbers live n) : 0 ≤ n := by
  obtain ⟨l,_,hn⟩ := h
  omega

theorem Numbers.insert [DecidableEq T] {live live' : T → Prop} {n : Int} (h : Numbers live n)
    {x : T} (hx : ¬ live x) (hl : ∀ y, live' y ↔ live y ∨ y = x) : Numbers live' (n + 1) := by
  obtain ⟨l,hmem,hn⟩ := h
  refine ⟨Insert.insert x l,fun y => ?_,?_⟩
  · rw [Finset.mem_insert,hmem,hl]
    exact or_comm
  · rw [Finset.card_insert_of_notMem (fun hin => hx ((hmem x).mp hin))]
    omega

theorem Numbers.remove [DecidableEq T] {live live' : T → Prop} {n : Int} (h : Numbers live n)
    {x : T} (hx : live x) (hl : ∀ y, live' y ↔ live y ∧ y ≠ x) : Numbers live' (n - 1) := by
  obtain ⟨l,hmem,hn⟩ := h
  have hin := (hmem x).mpr hx
  refine ⟨l.erase x,fun y => ?_,?_⟩
  · rw [Finset.mem_erase,hmem,hl]
    exact and_comm
  · have hcard := Finset.card_erase_add_one hin
    omega

end Custody
