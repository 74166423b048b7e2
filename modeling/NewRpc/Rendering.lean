import NewRpc.Stringification

/-!
The full text of a value, and where in it the names of members end.
-/

set_option autoImplicit false

namespace NewRpc.Stringification
open Codec TextBuffer

abbrev separator : Text := [',',' ']

def braced (withKey : Bool) (text : Text) : Text := if withKey then ['{'] ++ text ++ ['}'] else text

def moreRendering (elements : Elements) : Text :=
  if 8 < elements.size then moreText (elements.size - 8) else []

mutual
def rendering : Value → Bool → Text
  | .scalar value, _ => value.text
  | .pointer pointerAddr pointee, withKey => pointerText pointerAddr ++ rendering pointee withKey
  | .formattable text, withKey => braced withKey text
  | .range elements, withKey =>
      braced withKey (['['] ++ separator.intercalate ((renderings elements).take 8) ++
        moreRendering elements ++ [']'])
  | .reflectable members, withKey =>
      braced withKey (separator.intercalate (memberRenderings members))

def renderings : Elements → List Text
  | .nil => []
  | .cons element elements => rendering element true :: renderings elements

def memberRenderings : Members → List Text
  | .nil => []
  | .cons name member members =>
      (keyText name ++ rendering member true) :: memberRenderings members
end

def elementsRendering (room : Nat) (elements : Elements) : Text :=
  separator.intercalate ((renderings elements).take room)

def membersRendering (members : Members) : Text := separator.intercalate (memberRenderings members)

mutual
/-- How far into the rendering each name with its colon reaches. -/
def keyEnds : Value → Bool → List Nat
  | .scalar _, _ => []
  | .pointer pointerAddr pointee, withKey =>
      (keyEnds pointee withKey).map ((pointerText pointerAddr).length + ·)
  | .formattable _, _ => []
  | .range elements, withKey => (elementKeyEnds elements 8).map (withKey.toNat + 1 + ·)
  | .reflectable members, withKey => (memberKeyEnds members).map (withKey.toNat + ·)

def elementKeyEnds : Elements → Nat → List Nat
  | .nil, _ => []
  | .cons _ _, 0 => []
  | .cons element elements, room+1 =>
      keyEnds element true ++ (elementKeyEnds elements room).map
        ((rendering element true).length + 2 + ·)

def memberKeyEnds : Members → List Nat
  | .nil => []
  | .cons name member members =>
      (keyText name).length :: (keyEnds member true).map ((keyText name).length + ·) ++
        (memberKeyEnds members).map
          ((keyText name).length + (rendering member true).length + 2 + ·)
end

def Fits (bufferLen pos : Int) (ends : List Nat) : Prop := ∀ e ∈ ends, pos + e ≤ bufferLen

instance (bufferLen pos : Int) (ends : List Nat) : Decidable (Fits bufferLen pos ends) :=
  inferInstanceAs (Decidable (∀ e ∈ ends, pos + e ≤ bufferLen))

@[simp] theorem renderings_length : (elements : Elements) →
    (renderings elements).length = elements.size
  | .nil => rfl
  | .cons _ elements => congrArg (· + 1) (renderings_length elements)

theorem renderings_ne_nil {elements : Elements} (h : elements.size ≠ 0) :
    renderings elements ≠ [] := by
  intro hn
  rw [← renderings_length,hn] at h
  exact h rfl

theorem elementsRendering_cons (room : Nat) (element : Value) (elements : Elements) :
    elementsRendering (room + 1) (.cons element elements) =
      rendering element true ++
        (if room ≠ 0 ∧ elements.size ≠ 0 then separator else []) ++
        elementsRendering room elements := by
  unfold elementsRendering
  rw [renderings,List.take_succ_cons]
  by_cases h : room ≠ 0 ∧ elements.size ≠ 0
  · have hne : (renderings elements).take room ≠ [] := by
      intro hn
      rcases List.take_eq_nil_iff.mp hn with hn | hn
      · exact h.1 hn
      · exact renderings_ne_nil h.2 hn
    rw [if_pos h,List.intercalate_cons_of_ne_nil hne]
  · have hnil : (renderings elements).take room = [] := by
      refine List.take_eq_nil_iff.mpr ?_
      by_cases hr : room = 0
      · exact .inl hr
      · refine .inr (List.eq_nil_of_length_eq_zero ?_)
        rw [renderings_length]
        exact Nat.eq_zero_of_not_pos (fun hp => h ⟨hr,Nat.pos_iff_ne_zero.mp hp⟩)
    rw [if_neg h,hnil]
    simp

theorem membersRendering_cons (name : MemberName) (member : Value) (members : Members) :
    membersRendering (.cons name member members) ++ separator =
      keyText name ++ rendering member true ++ separator ++
        (match members with
        | .nil => []
        | .cons _ _ _ => membersRendering members ++ separator) := by
  unfold membersRendering
  rw [memberRenderings]
  cases members with
  | nil => simp [memberRenderings]
  | cons name' member' members =>
    rw [List.intercalate_cons_of_ne_nil (by simp [memberRenderings])]
    simp only [List.append_assoc]

theorem keyText_length (name : MemberName) : 2 ≤ (keyText name).length := by
  have hne := List.length_pos_iff.mpr name.2
  rw [keyText,List.length_append]
  exact Nat.succ_le_succ hne

theorem fits_nil (bufferLen pos : Int) : Fits bufferLen pos [] := by simp [Fits]

theorem fits_append {bufferLen pos : Int} {ends ends' : List Nat} :
    Fits bufferLen pos (ends ++ ends') ↔ Fits bufferLen pos ends ∧ Fits bufferLen pos ends' := by
  simp only [Fits,List.mem_append,or_imp,forall_and]

theorem fits_map {bufferLen pos : Int} {ends : List Nat} (n : Nat) :
    Fits bufferLen pos (ends.map (n + ·)) ↔ Fits bufferLen (pos + n) ends := by
  simp only [Fits,List.forall_mem_map,Int.natCast_add,Int.add_assoc]

theorem elementKeyEnds_eq_nil {room : Nat} {elements : Elements}
    (h : ¬ (room ≠ 0 ∧ elements.size ≠ 0)) : elementKeyEnds elements room = [] := by
  cases elements with
  | nil => rfl
  | cons element elements =>
    cases room with
    | zero => rfl
    | succ room => exact absurd ⟨Nat.succ_ne_zero room,Nat.succ_ne_zero elements.size⟩ h

end NewRpc.Stringification
