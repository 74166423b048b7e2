import NewRpc.Truncation

/-!
`INFO_LOG`: the arguments of a line, one behind the other in one buffer of 1 KiB, and the views
of it that are given to the logger.
-/

set_option autoImplicit false

namespace NewRpc.Stringification
open Codec TextBuffer

structure View where
  begins : Int
  size : Int
  deriving DecidableEq, Repr

def View.text (memory : Int → Char) (view : View) : Text :=
  (List.range view.size.toNat).map (fun i => memory (view.begins + (i : Nat)))

structure Rises (out out' : Out Char) : Prop where
  pos : out.pos ≤ out'.pos
  wrote : ∃ ws, out'.writes = out.writes ++ ws ∧ ∀ w ∈ ws, out.pos ≤ w.1

theorem Rises.refl (out : Out Char) : Rises out out :=
  ⟨Int.le_refl _,[],(List.append_nil _).symm,by simp⟩

theorem Rises.trans {out out' out'' : Out Char} (h : Rises out out') (h' : Rises out' out'') :
    Rises out out'' := by
  obtain ⟨hpos,ws,hws,hin⟩ := h
  obtain ⟨hpos',ws',hws',hin'⟩ := h'
  refine ⟨Int.le_trans hpos hpos',ws ++ ws',by rw [hws',hws,List.append_assoc],fun w hw => ?_⟩
  rcases List.mem_append.mp hw with hw | hw
  · exact hin w hw
  · exact Int.le_trans hpos (hin' w hw)

theorem formatTo_rises (bufferLen : Int) (text : Text) (out : Out Char) :
    Rises out (formatTo bufferLen text out) := by
  unfold formatTo
  split
  · rename_i hlt
    refine ⟨?_,_,rfl,fun w hw => (mem_indexed hw).1⟩
    show out.pos ≤ if out.pos + (text.length : Int) ≤ bufferLen then out.pos + text.length
      else bufferLen
    omega
  · exact .refl out

theorem kvFormatTo_rises (bufferLen : Int) (name : MemberName) (out : Out Char) :
    Rises out (kvFormatTo bufferLen (keyText name) out) ∧
      out.pos + 2 ≤ (kvFormatTo bufferLen (keyText name) out).pos := by
  have hlength := keyText_length name
  have hpos : (kvFormatTo bufferLen (keyText name) out).pos =
      out.pos + (keyText name).length := rfl
  exact ⟨⟨by omega,_,rfl,fun w hw => (mem_indexed hw).1⟩,by omega⟩

theorem formatToIf_rises (withKey : Bool) (bufferLen : Int) (text : Text) (out : Out Char) :
    Rises out (formatToIf withKey bufferLen text out) := by
  cases withKey with
  | false => exact .refl out
  | true => exact formatTo_rises bufferLen text out

mutual
theorem valueToString_rises (bufferLen : Int) : (value : Value) → (withKey : Bool) →
    (out : Out Char) → Rises out (valueToString bufferLen value withKey out)
  | .scalar value, _, out => formatTo_rises bufferLen value.text out
  | .pointer _ pointee, withKey, _ =>
      (formatTo_rises ..).trans (valueToString_rises bufferLen pointee withKey _)
  | .formattable _, _, _ =>
      (formatToIf_rises ..).trans ((formatTo_rises ..).trans (formatToIf_rises ..))
  | .range elements, withKey, out => by
      have hbegin : Rises out (rangeBegin bufferLen withKey out) :=
        (formatToIf_rises ..).trans (formatTo_rises ..)
      have helements := elementsToString_rises bufferLen elements 0
        (rangeBegin bufferLen withKey out)
      rw [valueToString_range]
      exact hbegin.trans (helements.trans ((formatToIf_rises ..).trans
        ((formatTo_rises ..).trans (formatToIf_rises ..))))
  | .reflectable .nil, _, _ => (formatToIf_rises ..).trans (formatToIf_rises ..)
  | .reflectable (.cons name member members), withKey, out => by
      obtain ⟨⟨_,ws,hws,hin⟩,htwo⟩ := membersToString_rises bufferLen
        (.cons name member members) (formatToIf withKey bufferLen ['{'] out,false)
      have hpos := htwo (by simp)
      rw [valueToString_reflectable]
      -- the name alone is as long as what is taken back
      have hback : Rises (formatToIf withKey bufferLen ['{'] out)
          ⟨(membersToString bufferLen (.cons name member members)
              (formatToIf withKey bufferLen ['{'] out,false)).1.pos - 2,
            (membersToString bufferLen (.cons name member members)
              (formatToIf withKey bufferLen ['{'] out,false)).1.writes⟩ :=
        ⟨by simp only at hpos ⊢; omega,ws,hws,hin⟩
      exact (formatToIf_rises ..).trans (hback.trans (formatToIf_rises ..))

theorem elementsToString_rises (bufferLen : Int) : (elements : Elements) → (idx : Nat) →
    (out : Out Char) → Rises out (elementsToString bufferLen elements idx out)
  | .nil, _, out => .refl out
  | .cons element elements, idx, out => by
      by_cases hidx : idx < maxPrintSize
      · rw [elementsToString_cons bufferLen _ _ hidx]
        exact (valueToString_rises bufferLen element true out).trans
          ((formatToIf_rises ..).trans (elementsToString_rises bufferLen elements (idx + 1) _))
      · rw [elementsToString_full bufferLen _ (Nat.le_of_not_lt hidx)]
        exact .refl out

theorem membersToString_rises (bufferLen : Int) : (members : Members) → (state : Out Char × Bool) →
    Rises state.1 (membersToString bufferLen members state).1 ∧
      (members ≠ .nil → state.1.pos + 2 ≤ (membersToString bufferLen members state).1.pos)
  | .nil, state => ⟨.refl _,fun hne => absurd rfl hne⟩
  | .cons name member members, state => by
      obtain ⟨hkey,hpos⟩ := kvFormatTo_rises bufferLen name state.1
      have hmember := (valueToString_rises bufferLen member true
        (kvFormatTo bufferLen (keyText name) state.1)).trans
          (formatTo_rises bufferLen [',',' '] _)
      have hnext := hmember.trans (membersToString_rises bufferLen members
        (formatTo bufferLen [',',' '] (kvToString bufferLen name
          (valueToString bufferLen member true) state.1),true)).1
      exact ⟨hkey.trans hnext,fun _ => Int.le_trans hpos hnext.pos⟩
end

mutual
theorem keyEnds_le : (value : Value) → (withKey : Bool) → ∀ e ∈ keyEnds value withKey,
    e ≤ (rendering value withKey).length
  | .scalar _, _ => by simp [keyEnds]
  | .pointer pointerAddr pointee, withKey => by
      intro e he
      obtain ⟨d,hd,rfl⟩ := List.mem_map.mp he
      have hle := keyEnds_le pointee withKey d hd
      rw [rendering,List.length_append]
      omega
  | .formattable _, _ => by simp [keyEnds]
  | .range elements, withKey => by
      intro e he
      obtain ⟨d,hd,rfl⟩ := List.mem_map.mp he
      have hle := elementKeyEnds_le elements 8 d hd
      rw [rendering_range,List.length_append,List.length_append,rangeOpening_length]
      omega
  | .reflectable members, withKey => by
      intro e he
      obtain ⟨d,hd,rfl⟩ := List.mem_map.mp he
      have hle := memberKeyEnds_le members d hd
      rw [rendering_reflectable,List.length_append,List.length_append,opening_length]
      omega

theorem elementKeyEnds_le : (elements : Elements) → (room : Nat) →
    ∀ e ∈ elementKeyEnds elements room, e ≤ (elementsRendering room elements).length
  | .nil, _ => by simp [elementKeyEnds]
  | .cons _ _, 0 => by simp [elementKeyEnds]
  | .cons element elements, room+1 => by
      intro e he
      rw [elementsRendering_cons,List.length_append,List.length_append]
      rcases List.mem_append.mp he with he | he
      · have hle := keyEnds_le element true e he
        omega
      · obtain ⟨d,hd,rfl⟩ := List.mem_map.mp he
        have hle := elementKeyEnds_le elements room d hd
        have hnext : room ≠ 0 ∧ elements.size ≠ 0 := by
          refine Classical.byContradiction (fun hn => ?_)
          rw [elementKeyEnds_eq_nil hn] at hd
          cases hd
        rw [if_pos hnext]
        simp only [separator,List.length_cons,List.length_nil]
        omega

theorem memberKeyEnds_le : (members : Members) →
    ∀ e ∈ memberKeyEnds members, e ≤ (membersRendering members).length
  | .nil => by simp [memberKeyEnds]
  | .cons name member members => by
      intro e he
      have hlength := congrArg List.length (membersRendering_cons name member members)
      simp only [List.length_append] at hlength
      simp only [memberKeyEnds,List.mem_append,List.mem_cons,List.mem_map] at he
      obtain (rfl | ⟨d,hd,rfl⟩) | ⟨d,hd,rfl⟩ := he
      · omega
      · have hle := keyEnds_le member true d hd
        omega
      · have hle := memberKeyEnds_le members d hd
        cases members with
        | nil => cases hd
        | cons name' member' members =>
          have htwo : separator.length = 2 := rfl
          simp only [List.length_append] at hlength
          omega
end

end NewRpc.Stringification
