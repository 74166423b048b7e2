import Mathlib.Data.List.Rotate
import NewRpc.Ring

/-!
Rings of two-way links without a root: every element reads its ring from itself on. An
element that is alone can be inserted behind any other.
-/

set_option autoImplicit false

namespace Ring

variable {α : Type}

/-- `ring a` is the ring of `a` from `a` on. -/
structure Rings (next prev : α → Option α) (ring : α → List α) : Prop where
  starts : ∀ a, ∃ l, ring a = a :: l
  once : ∀ a, (ring a).Nodup
  linked : ∀ a, (ring a ++ [a]).IsChain (Link next prev)

section
variable {next prev : α → Option α} {ring : α → List α}

theorem Rings.follows (h : Rings next prev ring) (a : α) : ∃ s ∈ ring a, Link next prev a s := by
  obtain ⟨l,hl⟩ := h.starts a
  have hc := h.linked a
  rw [hl] at hc ⊢
  cases l with
  | nil => exact ⟨a,List.mem_cons_self,List.isChain_pair.mp hc⟩
  | cons s l => exact ⟨s,by simp,(List.isChain_cons_cons.mp hc).1⟩

theorem Rings.precedes (h : Rings next prev ring) (b : α) : ∃ a ∈ ring b, Link next prev a b := by
  obtain ⟨l,hl⟩ := h.starts b
  have hc := h.linked b
  obtain ⟨k,a,hk⟩ := (List.eq_nil_or_concat (ring b)).resolve_left (by simp [hl])
  rw [List.concat_eq_append] at hk
  rw [hk,List.append_assoc] at hc
  exact ⟨a,by simp [hk],List.isChain_pair.mp hc.right_of_append⟩

theorem Rings.inverse (h : Rings next prev ring) (a b : α) :
    next a = some b ↔ prev b = some a := by
  constructor
  · intro hn
    obtain ⟨s,_,hs,hp⟩ := h.follows a
    rw [hn] at hs
    rw [Option.some.inj hs]
    exact hp
  · intro hp
    obtain ⟨p,_,hn,hs⟩ := h.precedes b
    rw [hp] at hs
    rw [Option.some.inj hs]
    exact hn

/-- The ring of an element on a ring is that ring, turned. -/
theorem Rings.turned (h : Rings next prev ring) {a b : α} {l m : List α}
    (ha : ring a = l ++ b :: m) : ring b = b :: (m ++ l) := by
  obtain ⟨k,hk⟩ := h.starts b
  have hb := h.linked b
  have hbnod := h.once b
  have hc := h.linked a
  have hnod := h.once a
  rw [hk] at hb hbnod
  rw [ha] at hc hnod
  have hout : b ∉ m ++ l := (List.nodup_cons.mp (List.nodup_middle.mp hnod)).1 ∘ fun hin => by
    rcases List.mem_append.mp hin with hin | hin
    · simp [hin]
    · simp [hin]
  have hring : (b :: (m ++ l) ++ [b]).IsChain (Link next prev) := by
    rw [List.append_assoc,List.cons_append] at hc
    obtain ⟨hfront,hback⟩ := List.isChain_split.mp hc
    obtain ⟨k',hk'⟩ := h.starts a
    cases l with
    | nil =>
      have hab : b = a := by
        rw [hk'] at ha
        exact (List.cons.inj ha).1.symm
      rw [hab] at hback ⊢
      rw [List.append_nil]
      exact hback
    | cons c l =>
      have hca : c = a := by
        rw [hk'] at ha
        exact (List.cons.inj ha).1.symm
      rw [← hca] at hback
      have hjoin : (b :: m ++ c :: (l ++ [b])).IsChain (Link next prev) :=
        List.isChain_split.mpr ⟨hback,hfront⟩
      simpa using hjoin
  rw [hk]
  have hl : k = m ++ l := ring_unique (hb.imp fun _ _ hab => hab.1) (List.nodup_cons.mp hbnod).1
    (hring.imp fun _ _ hab => hab.1) hout
  rw [hl]

theorem Rings.rotated (h : Rings next prev ring) {a b : α} (hb : b ∈ ring a) :
    List.IsRotated (ring b) (ring a) := by
  obtain ⟨l,m,ha⟩ := List.append_of_mem hb
  rw [h.turned ha,ha]
  exact List.isRotated_append (l := b :: m)

theorem Rings.mem_comm (h : Rings next prev ring) {a b : α} (hb : b ∈ ring a) : a ∈ ring b := by
  obtain ⟨l,hl⟩ := h.starts a
  rw [(h.rotated hb).mem_iff,hl]
  exact List.mem_cons_self

theorem Rings.alone (h : Rings next prev ring) (a : α) : prev a = some a ↔ ring a = [a] := by
  obtain ⟨l,hl⟩ := h.starts a
  have hc := h.linked a
  have hnod := h.once a
  rw [← h.inverse]
  rw [hl] at hc hnod ⊢
  cases l with
  | nil => exact iff_of_true (List.isChain_pair.mp hc).1 rfl
  | cons s l =>
    have hs := (List.isChain_cons_cons.mp hc).1.1
    refine iff_of_false (fun ha => ?_) (by simp)
    rw [hs] at ha
    rw [Option.some.inj ha] at hnod
    exact (List.nodup_cons.mp hnod).1 List.mem_cons_self

end

variable [DecidableEq α]

def insertAfter (h c : α) : List α → List α
  | [] => []
  | x :: l => if x = h then h :: c :: insertAfter h c l else x :: insertAfter h c l

def inserted (ring : α → List α) (h c : α) : α → List α :=
  if h = c then ring
  else Function.update (fun a => insertAfter h c (ring a)) c (c :: (ring h).tail ++ [h])

theorem insertAfter_of_notMem {h : α} (c : α) {l : List α} (hl : h ∉ l) :
    insertAfter h c l = l := by
  induction l with
  | nil => rfl
  | cons x l ih =>
    rw [List.mem_cons,not_or] at hl
    rw [insertAfter,if_neg (Ne.symm hl.1),ih hl.2]

theorem mem_insertAfter {h c x : α} {l : List α} :
    x ∈ insertAfter h c l ↔ x ∈ l ∨ x = c ∧ h ∈ l := by
  induction l with
  | nil => simp [insertAfter]
  | cons y l ih =>
    by_cases hy : y = h
    · subst hy
      simp only [insertAfter,if_true,List.mem_cons,ih,true_or,and_true]
      tauto
    · simp only [insertAfter,if_neg hy,List.mem_cons,ih,Ne.symm hy,false_or]
      tauto

theorem nodup_insertAfter {h c : α} {l : List α} (hl : l.Nodup) (hc : c ∉ l) :
    (insertAfter h c l).Nodup := by
  induction l with
  | nil => exact hl
  | cons x l ih =>
    obtain ⟨hx,hl⟩ := List.nodup_cons.mp hl
    rw [List.mem_cons,not_or] at hc
    by_cases heq : x = h
    · subst heq
      rw [insertAfter,if_pos rfl,insertAfter_of_notMem c hx]
      simp [hl,hx,hc.2,Ne.symm hc.1]
    · rw [insertAfter,if_neg heq,List.nodup_cons,mem_insertAfter]
      refine ⟨?_,ih hl hc.2⟩
      rintro (hin | ⟨hxc,_⟩)
      · exact hx hin
      · exact hc.1 hxc.symm

section
variable {next prev next' prev' : α → Option α} {ring : α → List α} {h c s : α}

theorem head?_insertAfter (h c z : α) (l : List α) :
    (insertAfter h c l ++ [z]).head? = (l ++ [z]).head? := by
  cases l with
  | nil => rfl
  | cons x l =>
    by_cases hx : x = h
    · rw [insertAfter,if_pos hx,hx]
      rfl
    · rw [insertAfter,if_neg hx]
      rfl

theorem chain_insertAfter (hs : Link next prev h s) (hsc : s ≠ c)
    (hn : ∀ x, next' x = if x = c then some s else if x = h then some c else next x)
    (hp : ∀ x, prev' x = if x = s then some c else if x = c then some h else prev x)
    {z : α} {l : List α} (hl : (l ++ [z]).IsChain (Link next prev)) (hc : c ∉ l ++ [z]) :
    (insertAfter h c l ++ [z]).IsChain (Link next' prev') := by
  induction l with
  | nil => exact List.isChain_singleton z
  | cons x l ih =>
    rw [List.cons_append] at hl hc
    obtain ⟨hx,hl⟩ := List.isChain_cons.mp hl
    rw [List.mem_cons,not_or] at hc
    have hrest := ih hl hc.2
    have hhead := head?_insertAfter h c z l
    have hcs : ∀ y ∈ (l ++ [z]).head?, y ≠ c := by
      intro y hy heq
      exact hc.2 (heq ▸ List.mem_of_head? hy)
    by_cases heq : x = h
    · subst heq
      rw [insertAfter,if_pos rfl,List.cons_append,List.cons_append]
      refine List.isChain_cons_cons.mpr ⟨⟨?_,?_⟩,List.isChain_cons.mpr ⟨fun y hy => ?_,hrest⟩⟩
      · rw [hn,if_neg (Ne.symm hc.1),if_pos rfl]
      · rw [hp,if_neg (Ne.symm hsc),if_pos rfl]
      · rw [hhead] at hy
        have hys : y = s := by
          have hxy := (hx y hy).1
          rw [hs.1] at hxy
          exact (Option.some.inj hxy).symm
        rw [hys]
        exact ⟨by rw [hn,if_pos rfl],by rw [hp,if_pos rfl]⟩
    · rw [insertAfter,if_neg heq,List.cons_append]
      refine List.isChain_cons.mpr ⟨fun y hy => ?_,hrest⟩
      rw [hhead] at hy
      obtain ⟨hnx,hpy⟩ := hx y hy
      refine ⟨?_,?_⟩
      · rw [hn,if_neg (Ne.symm hc.1),if_neg heq,hnx]
      · have hys : y ≠ s := by
          intro hys
          rw [hys,hs.2] at hpy
          exact heq (Option.some.inj hpy).symm
        rw [hp,if_neg hys,if_neg (hcs y hy),hpy]

omit [DecidableEq α] in
theorem Rings.notMem (h : Rings next prev ring) {c : α} (hc : ring c = [c]) {a : α} (ha : a ≠ c) :
    c ∉ ring a := by
  intro hin
  have hac := h.mem_comm hin
  rw [hc,List.mem_singleton] at hac
  exact ha hac

/-- An element that was alone is linked in behind `h`. -/
theorem Rings.insert {a : α} (hr : Rings next prev ring) (hc : ring c = [c]) (hca : c ≠ a)
    (hs : next a = some s)
    (hn : ∀ x, next' x = if x = c then some s else if x = a then some c else next x)
    (hp : ∀ x, prev' x = if x = s then some c else if x = c then some a else prev x) :
    Rings next' prev' (inserted ring a c) := by
  have hlink : Link next prev a s := ⟨hs,(hr.inverse a s).mp hs⟩
  have hsc : s ≠ c := by
    intro heq
    have hloop := ((hr.alone c).mpr hc).symm.trans (heq ▸ hlink.2)
    exact hca (Option.some.inj hloop)
  have hchain : ∀ b, b ≠ c →
      (insertAfter a c (ring b) ++ [b]).IsChain (Link next' prev') := by
    intro b hb
    refine chain_insertAfter hlink hsc hn hp (hr.linked b) ?_
    rw [List.mem_append,List.mem_singleton,not_or]
    exact ⟨hr.notMem hc hb,Ne.symm hb⟩
  obtain ⟨l,hl⟩ := hr.starts a
  have hnod := hr.once a
  rw [hl] at hnod
  have hal := (List.nodup_cons.mp hnod).1
  have hcl : c ∉ l := fun hin => hr.notMem hc (Ne.symm hca) (by simp [hl,hin])
  have hself : inserted ring a c c = c :: l ++ [a] := by
    rw [inserted,if_neg (Ne.symm hca),Function.update_self,hl]
    rfl
  have hother : ∀ b, b ≠ c → inserted ring a c b = insertAfter a c (ring b) := by
    intro b hb
    rw [inserted,if_neg (Ne.symm hca),Function.update_of_ne hb]
  refine ⟨fun b => ?_,fun b => ?_,fun b => ?_⟩
  · by_cases hb : b = c
    · rw [hb,hself]
      exact ⟨_,rfl⟩
    · obtain ⟨k,hk⟩ := hr.starts b
      rw [hother b hb,hk,insertAfter]
      split
      · rename_i hba
        exact ⟨_,by rw [hba]⟩
      · exact ⟨_,rfl⟩
  · by_cases hb : b = c
    · rw [hb,hself]
      have hturned : (l ++ [a]).Nodup := List.nodup_append_comm.mp (show ([a] ++ l).Nodup from hnod)
      exact List.nodup_cons.mpr ⟨by simp [hcl,hca],hturned⟩
    · rw [hother b hb]
      exact nodup_insertAfter (hr.once b) (hr.notMem hc hb)
  · by_cases hb : b = c
    · rw [hb,hself]
      -- the ring of `a`, from `c` on
      have ha := hchain a (Ne.symm hca)
      rw [hl,insertAfter,if_pos rfl,insertAfter_of_notMem c hal] at ha
      obtain ⟨hac,hback⟩ := List.isChain_cons_cons.mp ha
      have hjoin : (c :: l ++ a :: [c]).IsChain (Link next' prev') :=
        List.isChain_split.mpr ⟨hback,List.isChain_pair.mpr hac⟩
      simpa using hjoin
    · rw [hother b hb]
      exact hchain b hb

end

end Ring
