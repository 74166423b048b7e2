import Mathlib.Logic.Function.Basic
import Mathlib.Logic.Nontrivial.Basic

/-!
Output into a memory of fixed size: a position, and a record of every element written with
the index it went to, whether the memory has that index or not.
-/

set_option autoImplicit false

namespace NewRpc.TextBuffer

structure Out (α : Type) where
  pos : Int
  writes : List (Int × α)

/-- The elements of a text that goes to the index `i` and those behind it. -/
def indexed {α : Type} (i : Int) : List α → List (Int × α)
  | [] => []
  | a :: as => (i,a) :: indexed (i + 1) as

def store {α : Type} (memory : Int → α) : List (Int × α) → Int → α
  | [] => memory
  | (i,a) :: ws => store (Function.update memory i a) ws

structure Advances {α : Type} (bound : Int) (out out' : Out α) : Prop where
  pos : out.pos ≤ out'.pos
  bounded : out'.pos ≤ bound
  wrote : ∃ ws, out'.writes = out.writes ++ ws ∧ ∀ w ∈ ws, out.pos ≤ w.1 ∧ w.1 < bound

def Overruns {α : Type} (bound : Int) (out : Out α) : Prop := ∃ w ∈ out.writes, bound ≤ w.1

structure Shows {α : Type} (start : Int) (text : List α) (out : Out α) : Prop where
  pos : out.pos = start + text.length
  shown : ∀ (memory : Int → α) (i : Nat) (a : α), text[i]? = some a →
    store memory out.writes (start + i) = a

def Extends {α : Type} (out out' : Out α) : Prop := ∃ ws, out'.writes = out.writes ++ ws

section
variable {α : Type} {bound : Int} {out out' out'' : Out α}

theorem mem_indexed {i : Int} {text : List α} {w : Int × α} (h : w ∈ indexed i text) :
    i ≤ w.1 ∧ w.1 < i + text.length := by
  induction text generalizing i with
  | nil => cases h
  | cons a as ih =>
    simp only [List.length_cons]
    rcases List.mem_cons.mp h with rfl | h
    · simp only
      omega
    · have hw := ih h
      omega

theorem exists_mem_indexed {i : Int} {text : List α} {j : Int} (hlo : i ≤ j)
    (hhi : j < i + text.length) : ∃ w ∈ indexed i text, w.1 = j := by
  induction text generalizing i with
  | nil =>
    simp only [List.length_nil] at hhi
    omega
  | cons a as ih =>
    simp only [List.length_cons] at hhi
    by_cases h : i = j
    · exact ⟨(i,a),by simp [indexed],h⟩
    · obtain ⟨w,hw,hj⟩ := ih (i := i + 1) (by omega) (by omega)
      exact ⟨w,List.mem_cons_of_mem _ hw,hj⟩

theorem store_of_not_written (memory : Int → α) {ws : List (Int × α)} {i : Int}
    (h : ∀ w ∈ ws, w.1 ≠ i) : store memory ws i = memory i := by
  induction ws generalizing memory with
  | nil => rfl
  | cons w ws ih =>
    obtain ⟨j,a⟩ := w
    have hj : j ≠ i := h (j,a) (List.mem_cons_self ..)
    rw [store,ih _ (fun w hw => h w (List.mem_cons_of_mem _ hw)),Function.update_of_ne hj.symm]

theorem store_append (memory : Int → α) (ws ws' : List (Int × α)) :
    store memory (ws ++ ws') = store (store memory ws) ws' := by
  induction ws generalizing memory with
  | nil => rfl
  | cons w ws ih => exact ih (Function.update memory w.1 w.2)

theorem store_indexed (memory : Int → α) {text : List α} {n : Nat} {a : α}
    (h : text[n]? = some a) (i : Int) : store memory (indexed i text) (i + n) = a := by
  induction text generalizing memory i n with
  | nil => cases h
  | cons b text ih =>
    rw [indexed,store]
    cases n with
    | zero =>
      have hb : b = a := by simpa using h
      rw [store_of_not_written _ (fun w hw => ?_),hb]
      · simp
      · have hin := mem_indexed hw
        omega
    | succ n =>
      have hi : i + ((n + 1 : Nat) : Int) = i + 1 + n := by omega
      rw [hi]
      exact ih (Function.update memory i b) (by simpa using h) (i + 1)

theorem Shows.nil (start : Int) (writes : List (Int × α)) : Shows start [] ⟨start,writes⟩ :=
  ⟨by simp,fun _ _ _ h => by cases h⟩

theorem Shows.append {start : Int} {text : List α} (h : Shows start text out) (more : List α) :
    Shows start (text ++ more) ⟨out.pos + more.length,out.writes ++ indexed out.pos more⟩ := by
  have hpos := h.pos
  refine ⟨?_,?_⟩
  · simp only [List.length_append]
    omega
  · intro memory i a hi
    rw [store_append]
    by_cases hlt : i < text.length
    · rw [List.getElem?_append_left hlt] at hi
      rw [store_of_not_written _ (fun w hw => ?_)]
      · exact h.shown memory i a hi
      · have hin := mem_indexed hw
        omega
    · rw [List.getElem?_append_right (Nat.le_of_not_lt hlt)] at hi
      have hsum : start + (i : Int) = out.pos + ((i - text.length : Nat) : Int) := by omega
      rw [hsum]
      exact store_indexed _ hi out.pos

theorem Shows.back {start : Int} {text : List α} (h : Shows start text out) {n : Nat}
    (hn : n ≤ text.length) :
    Shows start (text.take (text.length - n)) ⟨out.pos - n,out.writes⟩ := by
  have hpos := h.pos
  refine ⟨?_,?_⟩
  · simp only [List.length_take]
    omega
  · intro memory i a hi
    refine h.shown memory i a ?_
    rw [List.getElem?_take] at hi
    split at hi
    · exact hi
    · cases hi

theorem Shows.unique [Inhabited α] {start : Int} {text text' : List α} (h : Shows start text out)
    (h' : Shows start text' out) : text = text' := by
  have hlength : text.length = text'.length := by
    have hpos := h.pos
    have hpos' := h'.pos
    omega
  refine List.ext_getElem hlength (fun i hi hi' => ?_)
  exact (h.shown default i _ (List.getElem?_eq_getElem hi)).symm.trans
    (h'.shown default i _ (List.getElem?_eq_getElem hi'))

/-- An index that comes to hold one element whatever it held before was written. -/
theorem written_of_store [Nontrivial α] {ws : List (Int × α)} {i : Int} {a : α}
    (h : ∀ memory, store memory ws i = a) : ∃ w ∈ ws, w.1 = i := by
  refine Classical.byContradiction (fun hnot => ?_)
  obtain ⟨b,hb⟩ := exists_ne a
  have hkept : store (fun _ => b) ws i = b :=
    store_of_not_written _ (fun w hw hi => hnot ⟨w,hw,hi⟩)
  exact hb (hkept.symm.trans (h _))

theorem Extends.refl (out : Out α) : Extends out out := ⟨[],(List.append_nil _).symm⟩

theorem Extends.trans (h : Extends out out') (h' : Extends out' out'') : Extends out out'' := by
  obtain ⟨ws,hw⟩ := h
  obtain ⟨ws',hw'⟩ := h'
  exact ⟨ws ++ ws',by rw [hw',hw,List.append_assoc]⟩

theorem Overruns.extends (h : Overruns bound out) (h' : Extends out out') :
    Overruns bound out' := by
  obtain ⟨w,hw,hi⟩ := h
  obtain ⟨ws,hws⟩ := h'
  exact ⟨w,by rw [hws]; exact List.mem_append_left _ hw,hi⟩

theorem Advances.refl (h : out.pos ≤ bound) : Advances bound out out :=
  ⟨Int.le_refl _,h,[],(List.append_nil _).symm,by simp⟩

theorem Advances.trans (h : Advances bound out out') (h' : Advances bound out' out'') :
    Advances bound out out'' := by
  obtain ⟨hpos,_,ws,hw,hin⟩ := h
  obtain ⟨hpos',hb,ws',hw',hin'⟩ := h'
  refine ⟨Int.le_trans hpos hpos',hb,ws ++ ws',by rw [hw',hw,List.append_assoc],?_⟩
  intro w hmem
  rcases List.mem_append.mp hmem with hmem | hmem
  · exact hin w hmem
  · have hi := hin' w hmem
    omega

theorem Advances.back (h : Advances bound out out') {n : Int} (hn : 0 ≤ n)
    (hp : out.pos + n ≤ out'.pos) :
    Advances bound out ⟨out'.pos - n,out'.writes⟩ := by
  have hb := h.bounded
  exact ⟨by simp only; omega,by simp only; omega,h.wrote⟩

end

end NewRpc.TextBuffer
