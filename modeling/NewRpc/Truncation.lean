import NewRpc.PrintBounds

/-!
What `value_to_string` leaves in a buffer that the full text does not fit into. The separator
behind the last member of a struct is taken back as a whole, even where it was cut.
-/

set_option autoImplicit false

namespace NewRpc.Stringification
open Codec TextBuffer

def appended (bufferLen pos : Int) (value : Value) (withKey : Bool) : Text :=
  (rendering value withKey).take (bufferLen - pos).toNat

structure AppendsPrefix (bufferLen pos : Int) (value : Value) (withKey : Bool) : Prop where
  text : Shows pos (appended bufferLen pos value withKey) (print bufferLen pos value withKey)
  before : ∀ (memory : Int → Char) (i : Int), i < pos →
    store memory (print bufferLen pos value withKey).writes i = memory i
  inside : ∀ w ∈ (print bufferLen pos value withKey).writes, 0 ≤ w.1 ∧ w.1 < bufferLen

mutual
def structEnd : Value → Bool → Option Nat
  | .scalar _, _ => none
  | .pointer pointerAddr pointee, withKey =>
      (structEnd pointee withKey).map ((pointerText pointerAddr).length + ·)
  | .formattable _, _ => none
  | .range elements, withKey => (elementsStructEnd elements 8).map (withKey.toNat + 1 + ·)
  | .reflectable .nil, _ => none
  | .reflectable (.cons name member members), withKey =>
      some (withKey.toNat + (membersRendering (.cons name member members)).length)

def elementsStructEnd : Elements → Nat → Option Nat
  | .nil, _ => none
  | .cons _ _, 0 => none
  | .cons element elements, room+1 =>
      match elementsStructEnd elements room with
      | some n => some ((rendering element true).length + 2 + n)
      | none => structEnd element true
end

def SeparatorFits (bufferLen pos : Int) (value : Value) (withKey : Bool) : Prop :=
  ∀ n ∈ structEnd value withKey, pos + n + 2 ≤ bufferLen ∨
    ((rendering value withKey).drop n).take 2 =
      ((rendering value withKey).drop ((bufferLen - pos).toNat - 2)).take 2

/-- Every name and the last separator fit. Besides there are three cases: nothing is printed;
a buffer of no length is full; a single member at index 0 has a name that is with its colon
two characters longer than the buffer. -/
def CutsCleanly (bufferLen pos : Int) (value : Value) (withKey : Bool) : Prop :=
  0 ≤ pos ∧ Fits bufferLen pos (keyEnds value withKey) ∧
    SeparatorFits bufferLen pos value withKey ∨
  rendering value withKey = [] ∨
  pos = bufferLen ∧ bufferLen ≤ 0 ∧ value.oneLetter = true ∨
  pos = 0 ∧ withKey = false ∧ ∃ name member,
    value = .reflectable (.cons name member .nil) ∧ keyEnds member true = [] ∧
      (keyText name).length = bufferLen + 2

theorem room_of_elementsStructEnd {room n : Nat} {elements : Elements}
    (h : elementsStructEnd elements room = some n) : room ≠ 0 ∧ elements.size ≠ 0 := by
  cases elements with
  | nil => cases h
  | cons element elements =>
    cases room with
    | zero => cases h
    | succ room => exact ⟨Nat.succ_ne_zero room,Nat.succ_ne_zero elements.size⟩

mutual
theorem keyEnds_eq_nil_iff : (value : Value) → (withKey : Bool) →
    (keyEnds value withKey = [] ↔ structEnd value withKey = none)
  | .scalar _, _ => by simp [keyEnds,structEnd]
  | .pointer _ pointee, withKey => by simp [keyEnds,structEnd,keyEnds_eq_nil_iff pointee]
  | .formattable _, _ => by simp [keyEnds,structEnd]
  | .range elements, withKey => by simp [keyEnds,structEnd,elementKeyEnds_eq_nil_iff elements]
  | .reflectable .nil, _ => by simp [keyEnds,memberKeyEnds,structEnd]
  | .reflectable (.cons name member members), _ => by simp [keyEnds,memberKeyEnds,structEnd]

theorem elementKeyEnds_eq_nil_iff : (elements : Elements) → (room : Nat) →
    (elementKeyEnds elements room = [] ↔ elementsStructEnd elements room = none)
  | .nil, _ => by simp [elementKeyEnds,elementsStructEnd]
  | .cons _ _, 0 => by simp [elementKeyEnds,elementsStructEnd]
  | .cons element elements, room+1 => by
      have helements := elementKeyEnds_eq_nil_iff elements room
      have helement := keyEnds_eq_nil_iff element true
      rw [elementKeyEnds,elementsStructEnd,List.append_eq_nil_iff,List.map_eq_nil_iff,helements]
      cases elementsStructEnd elements room with
      | none => simpa using helement
      | some n => simp
end

mutual
theorem structEnd_le : (value : Value) → (withKey : Bool) → ∀ n ∈ structEnd value withKey,
    n ≤ (rendering value withKey).length
  | .scalar _, _ => by simp [structEnd]
  | .pointer pointerAddr pointee, withKey => by
      intro n hn
      obtain ⟨m,hm,rfl⟩ := Option.map_eq_some_iff.mp hn
      have hle := structEnd_le pointee withKey m hm
      rw [rendering,List.length_append]
      omega
  | .formattable _, _ => by simp [structEnd]
  | .range elements, withKey => by
      intro n hn
      obtain ⟨m,hm,rfl⟩ := Option.map_eq_some_iff.mp hn
      have hle := elementsStructEnd_le elements 8 m hm
      rw [elementsRendering] at hle
      rw [rendering,braced_length]
      simp only [List.length_append,List.length_singleton]
      omega
  | .reflectable .nil, _ => by simp [structEnd]
  | .reflectable (.cons name member members), withKey => by
      intro n hn
      have heq : withKey.toNat + (membersRendering (.cons name member members)).length = n :=
        Option.some.inj hn
      rw [rendering,braced_length,← membersRendering]
      omega

theorem elementsStructEnd_le : (elements : Elements) → (room : Nat) →
    ∀ n ∈ elementsStructEnd elements room, n ≤ (elementsRendering room elements).length
  | .nil, _ => by simp [elementsStructEnd]
  | .cons _ _, 0 => by simp [elementsStructEnd]
  | .cons element elements, room+1 => by
      intro n hn
      rw [elementsStructEnd] at hn
      rw [elementsRendering_cons]
      simp only [List.length_append]
      cases helements : elementsStructEnd elements room with
      | none =>
        rw [helements] at hn
        have hle := structEnd_le element true n hn
        omega
      | some m =>
        rw [helements] at hn
        have heq : (rendering element true).length + 2 + m = n := Option.some.inj hn
        have hle := elementsStructEnd_le elements room m helements
        rw [if_pos (room_of_elementsStructEnd helements)]
        simp only [List.length_cons,List.length_nil]
        omega
end

/-- The text `shown` after a value with the rendering `text` where there is room for `room`
characters in all. The last struct leaves out what is not two characters before their end. -/
def printed (room : Nat) (shown text : Text) : Option Nat → Text
  | none => shown ++ text
  | some n => (shown ++ text.take n).take (room - 2) ++ text.drop n

theorem printed_fits {room : Nat} {shown text : Text} {ends : Option Nat}
    (h : ∀ n ∈ ends, shown.length + n + 2 ≤ room) : printed room shown text ends =
      shown ++ text := by
  cases ends with
  | none => rfl
  | some n =>
    have hn := h n rfl
    rw [printed,List.take_of_length_le,List.append_assoc,List.take_append_drop]
    simp only [List.length_append,List.length_take]
    omega

theorem printed_append {room : Nat} {shown text : Text} {ends : Option Nat}
    (h : ∀ n ∈ ends, n ≤ text.length) (more : Text) :
    printed room shown (text ++ more) ends = printed room shown text ends ++ more := by
  cases ends with
  | none => simp [printed]
  | some n =>
    have hn := h n rfl
    rw [printed,printed,List.take_append_of_le_length hn,List.drop_append_of_le_length hn,
      List.append_assoc]

theorem printed_behind (room : Nat) (shown text first : Text) (ends : Option Nat) :
    printed room shown (first ++ text) (ends.map (first.length + ·)) =
      printed room (shown ++ first) text ends := by
  cases ends with
  | none => simp [printed]
  | some n =>
    rw [Option.map_some,printed,printed,List.take_length_add_append,List.drop_length_add_append,
      List.append_assoc]

/-- Two characters before the end of the room the full text is printed. -/
theorem printed_take (room : Nat) (shown text : Text) (ends : Option Nat) :
    (printed room shown text ends).take (room - 2) = (shown ++ text).take (room - 2) := by
  cases ends with
  | none => rfl
  | some n =>
    have hwhole : shown ++ text = shown ++ text.take n ++ text.drop n := by
      rw [List.append_assoc,List.take_append_drop]
    rw [printed,hwhole,List.take_append,@List.take_append _ (shown ++ text.take n)]
    simp only [List.take_take,List.length_take,Nat.min_self]
    congr 2
    omega

section
variable {start : Int} {room : Nat} {shown : Text} {out : Out Char}

theorem formatTo_shows (text : Text) (h : Shows start (shown.take room) out) :
    Shows start ((shown ++ text).take room) (formatTo (start + room) text out) := by
  have hpos := h.pos
  rw [List.length_take] at hpos
  by_cases hlt : shown.length < room
  · have hroom : (start + room - out.pos).toNat = room - shown.length := by omega
    have hcut : (shown ++ text).take room = shown.take room ++ text.take (room - shown.length) :=
      List.take_append
    have hnext : (if out.pos + text.length ≤ start + room then out.pos + text.length
        else start + room) = out.pos + (text.take (room - shown.length)).length := by
      rw [List.length_take]
      split <;> omega
    rw [hcut,formatTo,if_pos (by omega)]
    simp only [formatToN,hroom,hnext]
    exact h.append _
  · rw [formatTo_end text (by omega),List.take_append_of_le_length (Nat.le_of_not_lt hlt)]
    exact h

theorem formatToIf_shows (withKey : Bool) (text : Text) (h : Shows start (shown.take room) out) :
    Shows start ((shown ++ if withKey then text else []).take room)
      (formatToIf withKey (start + room) text out) := by
  cases withKey with
  | false => simpa [formatToIf] using h
  | true => exact formatTo_shows text h

theorem kvFormatTo_shows (hstart : 0 ≤ start) {text : Text}
    (hfits : shown.length + text.length ≤ room)
    (h : Shows start (shown.take room) out) :
    Shows start ((shown ++ text).take room) (kvFormatTo (start + room) text out) := by
  have hwhole : (shown ++ text).take room = shown.take room ++ text := by
    rw [List.take_append,List.take_of_length_le (l := text) (by omega)]
  have htext : text.take (start + room).toNat = text := List.take_of_length_le (by omega)
  rw [hwhole,kvFormatTo,formatToN]
  simp only [htext]
  exact h.append text

theorem back_shows (hroom : 2 ≤ room)
    (h : Shows start ((shown ++ separator).take room) out) :
    Shows start (shown.take (room - 2)) ⟨out.pos - 2,out.writes⟩ := by
  have hlength : ((shown ++ separator).take room).length = min room (shown.length + 2) := by
    rw [List.length_take,List.length_append]
    rfl
  have hback := h.back (n := 2) (by omega)
  rw [hlength,List.take_take,List.take_append_of_le_length (by omega)] at hback
  have htake : shown.take (min (min room (shown.length + 2) - 2) room) = shown.take (room - 2) := by
    rw [List.take_eq_take_iff]
    omega
  rw [htake] at hback
  exact hback

end

def opening (withKey : Bool) : Text := if withKey then ['{'] else []

def closing (withKey : Bool) : Text := if withKey then ['}'] else []

def rangeOpening (withKey : Bool) : Text := opening withKey ++ ['[']

def rangeClosing (elements : Elements) (withKey : Bool) : Text :=
  moreRendering elements ++ [']'] ++ closing withKey

theorem opening_length (withKey : Bool) : (opening withKey).length = withKey.toNat := by
  cases withKey <;> rfl

theorem rangeOpening_length (withKey : Bool) :
    (rangeOpening withKey).length = withKey.toNat + 1 := by
  rw [rangeOpening,List.length_append,opening_length]
  rfl

theorem braced_eq (withKey : Bool) (text : Text) :
    braced withKey text = opening withKey ++ text ++ closing withKey := by
  cases withKey with
  | false => simp [braced,opening,closing]
  | true => rfl

theorem rendering_range (elements : Elements) (withKey : Bool) :
    rendering (.range elements) withKey =
      rangeOpening withKey ++ elementsRendering 8 elements ++ rangeClosing elements withKey := by
  rw [rendering,braced_eq,rangeOpening,rangeClosing,elementsRendering]
  simp only [List.append_assoc]

theorem rendering_reflectable (members : Members) (withKey : Bool) :
    rendering (.reflectable members) withKey =
      opening withKey ++ membersRendering members ++ closing withKey := by
  rw [rendering,braced_eq,membersRendering]

theorem membersRendering_nil (name : MemberName) (member : Value) :
    membersRendering (.cons name member .nil) = keyText name ++ rendering member true := by
  rw [membersRendering,memberRenderings,memberRenderings,List.intercalate_singleton]

theorem membersRendering_next (name : MemberName) (member : Value) (name' : MemberName)
    (member' : Value) (members : Members) :
    membersRendering (.cons name member (.cons name' member' members)) =
      keyText name ++ rendering member true ++ separator ++
        membersRendering (.cons name' member' members) := by
  rw [membersRendering,memberRenderings,
    List.intercalate_cons_of_ne_nil (by simp [memberRenderings])]
  rfl

section
variable {start : Int} {room : Nat} {shown : Text} {out : Out Char}

theorem rangeBegin_shows (withKey : Bool) (h : Shows start (shown.take room) out) :
    Shows start ((shown ++ rangeOpening withKey).take room)
      (rangeBegin (start + room) withKey out) := by
  rw [rangeOpening,← List.append_assoc]
  exact formatTo_shows ['['] (formatToIf_shows withKey ['{'] h)

theorem rangeEnd_shows (elements : Elements) (withKey : Bool)
    (h : Shows start (shown.take room) out) :
    Shows start ((shown ++ rangeClosing elements withKey).take room)
      (rangeEnd (start + room) elements withKey out) := by
  have hmore := formatToIf_shows (maxPrintSize < elements.size)
    (moreText (elements.size - maxPrintSize)) h
  have heq : (if decide (maxPrintSize < elements.size) then
      moreText (elements.size - maxPrintSize) else []) = moreRendering elements := by
    by_cases hs : 8 < elements.size <;> simp [maxPrintSize,moreRendering,hs]
  rw [heq] at hmore
  rw [rangeClosing,← List.append_assoc,← List.append_assoc]
  exact formatToIf_shows withKey ['}'] (formatTo_shows [']'] hmore)

theorem fits_behind {bufferLen : Int} {text : Text} {n : Nat} {ends : List Nat}
    (hn : text.length = n) (h : Fits bufferLen (start + shown.length) (ends.map (n + ·))) :
    Fits bufferLen (start + (shown ++ text).length) ends := by
  rw [List.length_append,hn,Int.natCast_add,← Int.add_assoc]
  exact (fits_map n).mp h

/-- A struct inside a part of the text that a name follows ends before it. -/
theorem fits_next {ends : List Nat} {n : Nat} (hne : ends ≠ [])
    (h : Fits (start + room) (start + shown.length) (ends.map (n + 2 + ·))) :
    shown.length + n + 2 ≤ room := by
  obtain ⟨e,he⟩ := List.exists_mem_of_ne_nil ends hne
  have hle := h _ (List.mem_map_of_mem he)
  omega

end

mutual
theorem valueToString_shows {start : Int} {room : Nat} (hstart : 0 ≤ start) : (value : Value) →
    (withKey : Bool) → (shown : Text) → (out : Out Char) → Shows start (shown.take room) out →
    Fits (start + room) (start + shown.length) (keyEnds value withKey) →
    Shows start ((printed room shown (rendering value withKey) (structEnd value withKey)).take room)
      (valueToString (start + room) value withKey out)
  | .scalar value, _, shown, out, h, _ => formatTo_shows value.text h
  | .pointer pointerAddr pointee, withKey, shown, out, h, hf => by
      have hprefix := formatTo_shows (pointerText pointerAddr) h
      rw [rendering,structEnd,printed_behind]
      exact valueToString_shows hstart pointee withKey _ _ hprefix (fits_behind rfl hf)
  | .formattable text, withKey, shown, out, h, _ => by
      have htext := formatTo_shows text (formatToIf_shows withKey ['{'] h)
      have hclose := formatToIf_shows withKey ['}'] htext
      rw [rendering,structEnd,printed,braced_eq,← List.append_assoc,← List.append_assoc]
      exact hclose
  | .range elements, withKey, shown, out, h, hf => by
      have hbegin := rangeBegin_shows withKey h
      have helements := elementsToString_shows hstart elements 0 8 rfl _ _ hbegin
        (fits_behind (rangeOpening_length withKey) hf)
      have hle : ∀ n ∈ (elementsStructEnd elements 8).map ((rangeOpening withKey).length + ·),
          n ≤ (rangeOpening withKey ++ elementsRendering 8 elements).length := by
        intro n hn
        obtain ⟨m,hm,rfl⟩ := Option.map_eq_some_iff.mp hn
        have hle := elementsStructEnd_le elements 8 m hm
        rw [List.length_append]
        omega
      rw [valueToString_range,rendering_range,structEnd,← rangeOpening_length,printed_append hle,
        printed_behind]
      exact rangeEnd_shows elements withKey helements
  | .reflectable .nil, withKey, shown, out, h, _ => by
      have hclose := formatToIf_shows withKey ['}'] (formatToIf_shows withKey ['{'] h)
      rw [valueToString_empty,rendering,structEnd,printed,braced_eq,memberRenderings,
        List.intercalate_nil,List.append_nil,← List.append_assoc]
      exact hclose
  | .reflectable (.cons name member members), withKey, shown, out, h, hf => by
      have hopen := formatToIf_shows withKey ['{'] h
      have hmembers := membersToString_shows hstart (.cons name member members) (by simp) _ _ false
        hopen (fits_behind (opening_length withKey) hf)
      have hcut : ∀ text : Text, (text.take (room - 2)).take room = text.take (room - 2) := by
        intro text
        rw [List.take_take,Nat.min_eq_right (Nat.sub_le room 2)]
      rw [← hcut] at hmembers
      have hclose := formatToIf_shows withKey ['}'] hmembers
      rw [valueToString_reflectable,rendering_reflectable,structEnd,printed,← opening_length,
        ← List.length_append,List.take_left,List.drop_left,← List.append_assoc]
      exact hclose

theorem elementsToString_shows {start : Int} {room : Nat} (hstart : 0 ≤ start) :
    (elements : Elements) → (idx left : Nat) → idx + left = 8 → (shown : Text) → (out : Out Char) →
    Shows start (shown.take room) out →
    Fits (start + room) (start + shown.length) (elementKeyEnds elements left) →
    Shows start ((printed room shown (elementsRendering left elements)
      (elementsStructEnd elements left)).take room)
      (elementsToString (start + room) elements idx out)
  | .nil, _, _, _, shown, out, h, _ => by
      simpa [elementsToString,elementsRendering,renderings,elementsStructEnd,printed] using h
  | .cons element elements, idx, 0, hleft, shown, out, h, _ => by
      rw [elementsToString_full _ _ (show maxPrintSize ≤ idx from Nat.le_of_eq hleft.symm)]
      simpa [elementsRendering,elementsStructEnd,printed] using h
  | .cons element elements, idx, left+1, hleft, shown, out, h, hf => by
      have hidx := lt_maxPrintSize hleft
      obtain ⟨hfits,hrest⟩ := fits_append.mp hf
      have helement := valueToString_shows hstart element true _ _ h hfits
      have hseparator := formatToIf_shows (idx < maxPrintSize - 1 ∧ elements.size ≠ 0) separator
        helement
      simp only [next_iff_room hleft,decide_eq_true_eq] at hseparator
      rw [elementsToString_cons _ _ _ hidx,elementsRendering_cons,elementsStructEnd]
      simp only [next_iff_room hleft]
      cases hends : elementsStructEnd elements left with
      | none =>
        have hnil := (elementKeyEnds_eq_nil_iff elements left).mpr hends
        have helements := elementsToString_shows hstart elements (idx + 1) left (by omega) _ _
          hseparator (by rw [hnil]; exact fits_nil _ _)
        have hle := structEnd_le element true
        have hle' : ∀ n ∈ structEnd element true, n ≤ (rendering element true ++
            if left ≠ 0 ∧ elements.size ≠ 0 then separator else []).length := by
          intro n hn
          rw [List.length_append]
          exact Nat.le_add_right_of_le (hle n hn)
        rw [printed_append hle',printed_append hle]
        rw [hends,printed] at helements
        exact helements
      | some n =>
        have hnext := fits_next (fun hnil => by
          rw [elementKeyEnds_eq_nil_iff elements left,hends] at hnil
          cases hnil) hrest
        have hinside : ∀ m ∈ structEnd element true, shown.length + m + 2 ≤ room := by
          intro m hm
          have hle := structEnd_le element true m hm
          omega
        have hroom := room_of_elementsStructEnd hends
        rw [printed_fits hinside,if_pos hroom] at hseparator
        have hlater := fits_behind
          (List.length_append : (rendering element true ++ separator).length = _) hrest
        rw [← List.append_assoc] at hlater
        have helements := elementsToString_shows hstart elements (idx + 1) left (by omega) _ _
          hseparator hlater
        rw [hends,List.append_assoc,← printed_behind,Option.map_some,
          List.length_append] at helements
        rw [if_pos hroom]
        exact helements

theorem membersToString_shows {start : Int} {room : Nat} (hstart : 0 ≤ start) :
    (members : Members) → members ≠ .nil → (shown : Text) → (out : Out Char) → (needBack : Bool) →
    Shows start (shown.take room) out →
    Fits (start + room) (start + shown.length) (memberKeyEnds members) →
    Shows start ((shown ++ membersRendering members).take (room - 2))
      ⟨(membersToString (start + room) members (out,needBack)).1.pos - 2,
        (membersToString (start + room) members (out,needBack)).1.writes⟩
  | .nil, hne, _, _, _, _, _ => absurd rfl hne
  | .cons name member members, _, shown, out, needBack, h, hf => by
      obtain ⟨hends,hrest⟩ := fits_append.mp hf
      have hk := hends _ (List.mem_cons_self ..)
      have h2 := keyText_length name
      have hroom : shown.length + (keyText name).length ≤ room := by omega
      have hkey := kvFormatTo_shows hstart hroom h
      have hfits := fits_behind rfl (fun e he => hends e (List.mem_cons_of_mem _ he))
      have hmember := formatTo_shows separator
        (valueToString_shows hstart member true _ _ hkey hfits)
      cases members with
      | nil =>
        have hback := back_shows (by omega) hmember
        rw [printed_take] at hback
        rw [membersRendering_nil,← List.append_assoc]
        exact hback
      | cons name' member' members =>
        have hnext := fits_next (by simp [memberKeyEnds]) hrest
        have hinside : ∀ n ∈ structEnd member true,
            (shown ++ keyText name).length + n + 2 ≤ room := by
          intro n hn
          have hle := structEnd_le member true n hn
          rw [List.length_append]
          omega
        rw [printed_fits hinside] at hmember
        have hlength : (keyText name ++ rendering member true ++ separator).length =
            (keyText name).length + (rendering member true).length + 2 := by
          rw [List.length_append,List.length_append]
          rfl
        have hlater := fits_behind hlength hrest
        rw [← List.append_assoc,← List.append_assoc] at hlater
        have hmembers := membersToString_shows hstart (.cons name' member' members) (by simp) _ _
          true hmember hlater
        rw [membersRendering_next,← List.append_assoc,← List.append_assoc,← List.append_assoc]
        exact hmembers
end

mutual
theorem two_le_keyEnds : (value : Value) → (withKey : Bool) → ∀ e ∈ keyEnds value withKey, 2 ≤ e
  | .scalar _, _ => by simp [keyEnds]
  | .pointer _ pointee, withKey => by
      intro e he
      obtain ⟨d,hd,rfl⟩ := List.mem_map.mp he
      exact Nat.le_add_left_of_le (two_le_keyEnds pointee withKey d hd)
  | .formattable _, _ => by simp [keyEnds]
  | .range elements, _ => by
      intro e he
      obtain ⟨d,hd,rfl⟩ := List.mem_map.mp he
      exact Nat.le_add_left_of_le (two_le_elementKeyEnds elements 8 d hd)
  | .reflectable .nil, _ => by simp [keyEnds,memberKeyEnds]
  | .reflectable (.cons name member members), withKey => by
      have h2 := keyText_length name
      simp only [keyEnds,memberKeyEnds,List.mem_map,List.mem_append,List.mem_cons]
      rintro _ ⟨_,(rfl | ⟨d,_,rfl⟩) | ⟨d,_,rfl⟩,rfl⟩ <;> omega

theorem two_le_elementKeyEnds : (elements : Elements) → (room : Nat) →
    ∀ e ∈ elementKeyEnds elements room, 2 ≤ e
  | .nil, _ => by simp [elementKeyEnds]
  | .cons _ _, 0 => by simp [elementKeyEnds]
  | .cons element elements, room+1 => by
      intro e he
      rcases List.mem_append.mp he with he | he
      · exact two_le_keyEnds element true e he
      · obtain ⟨d,_,rfl⟩ := List.mem_map.mp he
        omega
end

/-- What is printed is the full text up to the end of the room. -/
theorem printed_eq_iff {room : Nat} {text : Text} {ends : Option Nat}
    (hle : ∀ n ∈ ends, n ≤ text.length ∧ 2 ≤ room) :
    (printed room [] text ends).take room = text.take room ↔
      ∀ n ∈ ends, n + 2 ≤ room ∨ (text.drop n).take 2 = (text.drop (room - 2)).take 2 := by
  cases ends with
  | none => simp [printed]
  | some n =>
    obtain ⟨hn,hroom⟩ := hle n rfl
    simp only [Option.mem_some_iff,forall_eq']
    by_cases hfits : n + 2 ≤ room
    · rw [printed_fits (by simpa using hfits)]
      simp [hfits]
    · have hlength : (text.take (room - 2)).length = room - 2 := by
        rw [List.length_take]
        omega
      have hfirst : (([] ++ text.take n).take (room - 2)) = text.take (room - 2) := by
        rw [List.nil_append,List.take_take,Nat.min_eq_left (by omega)]
      have hsum : room = room - 2 + 2 := by omega
      have hwhole : text.take room =
          text.take (room - 2) ++ (text.drop (room - 2)).take 2 := by
        rw [← List.take_add,← hsum]
      have hprinted : (printed room [] text (some n)).take room =
          text.take (room - 2) ++ (text.drop n).take 2 := by
        rw [printed,hfirst,List.take_append,hlength,List.take_of_length_le (by omega)]
        congr 2
        omega
      rw [hprinted,hwhole,List.append_cancel_left_eq]
      simp [hfits]

theorem print_shows {pos : Int} {room : Nat} {value : Value} {withKey : Bool} (h0 : 0 ≤ pos)
    (h : Fits (pos + room) pos (keyEnds value withKey)) :
    Shows pos ((printed room [] (rendering value withKey) (structEnd value withKey)).take room)
      (print (pos + room) pos value withKey) := by
  refine valueToString_shows h0 value withKey [] ⟨pos,[]⟩ ?_ ?_
  · rw [List.take_nil]
    exact .nil pos []
  · rw [List.length_nil,Int.natCast_zero,Int.add_zero]
    exact h

theorem structEnd_room {pos : Int} {room : Nat} {value : Value} {withKey : Bool}
    (h : Fits (pos + room) pos (keyEnds value withKey)) :
    ∀ n ∈ structEnd value withKey, n ≤ (rendering value withKey).length ∧ 2 ≤ room := by
  intro n hn
  refine ⟨structEnd_le value withKey n hn,?_⟩
  have hne : keyEnds value withKey ≠ [] := by
    rw [Ne,keyEnds_eq_nil_iff,hn]
    exact Option.some_ne_none n
  obtain ⟨e,he⟩ := List.exists_mem_of_ne_nil _ hne
  have h2 := two_le_keyEnds value withKey e he
  have hle := h e he
  omega

theorem separatorFits_iff (pos : Int) (room : Nat) (value : Value) (withKey : Bool) :
    SeparatorFits (pos + room) pos value withKey ↔
      ∀ n ∈ structEnd value withKey, n + 2 ≤ room ∨ ((rendering value withKey).drop n).take 2 =
        ((rendering value withKey).drop (room - 2)).take 2 := by
  have hroom : (pos + room - pos).toNat = room := by omega
  have hle : ∀ n : Nat, pos + n + 2 ≤ pos + room ↔ n + 2 ≤ room := by omega
  simp only [SeparatorFits,hroom,hle]

theorem appendsPrefix_iff_of_fits {pos : Int} {room : Nat} {value : Value} {withKey : Bool}
    (h0 : 0 ≤ pos) (h : Fits (pos + room) pos (keyEnds value withKey)) :
    AppendsPrefix (pos + room) pos value withKey ↔
      SeparatorFits (pos + room) pos value withKey := by
  have hroom : (pos + room - pos).toNat = room := by omega
  have hshows := print_shows h0 h
  rw [separatorFits_iff,← printed_eq_iff (structEnd_room h)]
  constructor
  · intro ha
    have htext := ha.text
    rw [appended,hroom] at htext
    exact hshows.unique htext
  · intro heq
    obtain ⟨ws,hws,hin⟩ := (valueToString_follows value withKey ⟨pos,[]⟩ pos
      (.inl ⟨rfl,by omega⟩) h).advances.wrote
    refine ⟨?_,(staysInside_of_fits (by omega) h).before,?_⟩
    · rw [appended,hroom,← heq]
      exact hshows
    · intro w hw
      rw [print,hws,List.nil_append] at hw
      have hle := hin w hw
      simp only at hle
      omega

theorem formatTo_nil (bufferLen : Int) (out : Out Char) : formatTo bufferLen [] out = out := by
  unfold formatTo formatToN
  by_cases hlt : out.pos < bufferLen
  · rw [if_pos hlt]
    simp [indexed,Int.le_of_lt hlt]
  · rw [if_neg hlt]

theorem print_nothing {value : Value} {withKey : Bool} (h : rendering value withKey = [])
    (bufferLen pos : Int) : print bufferLen pos value withKey = ⟨pos,[]⟩ := by
  cases value with
  | scalar value =>
    rw [rendering] at h
    rw [print,valueToString,h,formatTo_nil]
  | pointer pointerAddr pointee => simp [rendering,pointerText] at h
  | formattable text =>
    cases withKey with
    | false =>
      have htext : text = [] := h
      rw [print,valueToString,htext]
      exact formatTo_nil bufferLen _
    | true => simp [rendering,braced] at h
  | range elements => simp [rendering_range,rangeOpening] at h
  | reflectable members =>
    cases members with
    | nil =>
      cases withKey with
      | false => rfl
      | true => simp [rendering,braced] at h
    | cons name member members =>
      have hn := structEnd_le (.reflectable (.cons name member members)) withKey _ rfl
      have h2 := keyText_length name
      have hmembers : (keyText name).length ≤
          (membersRendering (.cons name member members)).length := by
        cases members with
        | nil =>
          rw [membersRendering_nil,List.length_append]
          exact Nat.le_add_right _ _
        | cons name' member' members =>
          rw [membersRendering_next]
          simp only [List.length_append]
          omega
      rw [h,List.length_nil] at hn
      omega

theorem appendsPrefix_nothing {pos bufferLen : Int} {value : Value} {withKey : Bool}
    (h : rendering value withKey = []) : AppendsPrefix bufferLen pos value withKey := by
  have hprint := print_nothing h bufferLen pos
  refine ⟨?_,?_,?_⟩
  · rw [appended,h,hprint,List.take_nil]
    exact .nil pos []
  · rw [hprint]
    exact fun _ _ _ => rfl
  · simp [hprint]

theorem appendsPrefix_full_iff {bufferLen : Int} (hlen : bufferLen ≤ 0) (value : Value)
    (withKey : Bool) :
    AppendsPrefix bufferLen bufferLen value withKey ↔ value.oneLetter = true := by
  obtain ⟨hwrites,_,hiff⟩ := valueToString_drifts hlen value withKey ⟨bufferLen,[]⟩ (Int.le_refl _)
  have hnone : appended bufferLen bufferLen value withKey = [] := by simp [appended]
  rw [← hiff]
  constructor
  · intro h
    have hpos := h.text.pos
    rw [hnone] at hpos
    exact hpos
  · intro h
    have hprint : print bufferLen bufferLen value withKey = ⟨bufferLen,[]⟩ := by
      have hout : ∀ out : Out Char, out.pos = bufferLen + 0 → out.writes = [] →
          out = ⟨bufferLen,[]⟩ := by
        rintro ⟨_,_⟩ rfl rfl
        rw [Int.add_zero]
      exact hout _ h hwrites
    refine ⟨?_,?_,?_⟩
    · rw [hnone,hprint]
      exact .nil bufferLen []
    · rw [hprint]
      exact fun _ _ _ => rfl
    · simp [hprint]

/-- A single member at index 0 whose name is longer than the buffer. -/
theorem appendsPrefix_long_iff {bufferLen : Int} {name : MemberName} {member : Value}
    (hlen : 0 ≤ bufferLen) (hends : keyEnds member true = [])
    (hlong : bufferLen < (keyText name).length) :
    AppendsPrefix bufferLen 0 (.reflectable (.cons name member .nil)) false ↔
      (keyText name).length = bufferLen + 2 := by
  have hprint := print_long hlong hends
  have htext : appended bufferLen 0 (.reflectable (.cons name member .nil)) false =
      (keyText name).take bufferLen.toNat := by
    rw [appended,rendering_reflectable,membersRendering_nil,Int.sub_zero]
    simp only [opening,closing,Bool.false_eq_true,if_false,List.nil_append,List.append_nil]
    exact List.take_append_of_le_length (by omega)
  have hlength : ((keyText name).take bufferLen.toNat).length = bufferLen.toNat := by
    rw [List.length_take]
    omega
  constructor
  · intro h
    have hpos := h.text.pos
    rw [htext,hlength,hprint] at hpos
    simp only at hpos
    omega
  · intro h
    have hshows := (Shows.nil 0 []).append ((keyText name).take bufferLen.toNat)
    have hin : ∀ w ∈ indexed 0 ((keyText name).take bufferLen.toNat),
        0 ≤ w.1 ∧ w.1 < bufferLen := by
      intro w hw
      have hle := mem_indexed hw
      omega
    refine ⟨?_,?_,?_⟩
    · rw [htext,hprint]
      rw [hlength] at hshows
      have hpos : ((keyText name).length : Int) - 2 = 0 + (bufferLen.toNat : Int) := by omega
      rw [hpos]
      exact hshows
    · intro memory i hi
      rw [hprint]
      refine store_of_not_written memory (fun w hw => ?_)
      have hle := hin w hw
      omega
    · rw [hprint]
      exact hin

theorem AppendsPrefix.staysInside {bufferLen pos : Int} {value : Value} {withKey : Bool}
    (h : AppendsPrefix bufferLen pos value withKey) (hpos : pos ≤ bufferLen) :
    StaysInside bufferLen pos value withKey := by
  have hend := h.text.pos
  rw [appended,List.length_take] at hend
  exact ⟨fun w hw => (h.inside w hw).2,h.before,by omega,by omega⟩

theorem AppendsPrefix.nonneg {bufferLen pos : Int} {value : Value} {withKey : Bool}
    (h : AppendsPrefix bufferLen pos value withKey) (hlt : pos < bufferLen)
    (hne : rendering value withKey ≠ []) : 0 ≤ pos := by
  have hlength := List.length_pos_iff.mpr hne
  have hfirst : 0 < (appended bufferLen pos value withKey).length := by
    rw [appended,List.length_take]
    omega
  have htwo : Nontrivial Char := ⟨'0','1',by decide⟩
  obtain ⟨w,hw,hi⟩ := written_of_store (i := pos) (fun memory => by
    simpa using h.text.shown memory 0 _ (List.getElem?_eq_getElem hfirst))
  have hin := h.inside w hw
  omega

/-- The text that `value_to_string` appends is the prefix of the full text that there is room
for exactly where the names and the last separator fit. -/
theorem appends_prefix_iff {bufferLen pos : Int} (hpos : pos ≤ bufferLen) (value : Value)
    (withKey : Bool) :
    AppendsPrefix bufferLen pos value withKey ↔ CutsCleanly bufferLen pos value withKey := by
  obtain ⟨room,rfl⟩ : ∃ room : Nat, bufferLen = pos + room :=
    ⟨(bufferLen - pos).toNat,by omega⟩
  constructor
  · intro h
    by_cases h0 : 0 ≤ pos
    · rcases (staysInside_iff_namesFit h0 hpos value withKey).mp (h.staysInside hpos) with
        hfit | ⟨hlen,hone⟩ | ⟨hp,hk,name,member,hv,hends,hle⟩
      · exact .inl ⟨h0,hfit,(appendsPrefix_iff_of_fits h0 hfit).mp h⟩
      · exact .inr (.inr (.inl ⟨by omega,by omega,hone⟩))
      · subst hp hk hv
        by_cases hlong : (0 : Int) + room < (keyText name).length
        · have heq := (appendsPrefix_long_iff (by omega) hends hlong).mp h
          exact .inr (.inr (.inr ⟨rfl,rfl,name,member,rfl,hends,heq⟩))
        · have hfit := single_fits hends (Int.not_lt.mp hlong)
          exact .inl ⟨h0,hfit,(appendsPrefix_iff_of_fits h0 hfit).mp h⟩
    · by_cases hfull : room = 0
      · subst hfull
        rw [Int.natCast_zero,Int.add_zero] at h ⊢
        have hone := (appendsPrefix_full_iff (by omega) value withKey).mp h
        exact .inr (.inr (.inl ⟨rfl,by omega,hone⟩))
      · refine .inr (.inl (Classical.byContradiction (fun hne => h0 ?_)))
        exact h.nonneg (by omega) hne
  · rintro (⟨h0,hfit,hsep⟩ | hnil | ⟨hp,hlen,hone⟩ | ⟨rfl,rfl,name,member,rfl,hends,heq⟩)
    · exact (appendsPrefix_iff_of_fits h0 hfit).mpr hsep
    · exact appendsPrefix_nothing hnil
    · rw [← hp] at hlen ⊢
      exact (appendsPrefix_full_iff hlen value withKey).mpr hone
    · exact (appendsPrefix_long_iff (by omega) hends (by omega)).mpr heq

theorem idAndAge_whole : AppendsPrefix 20 0 idAndAge false :=
  (appends_prefix_iff (by decide) idAndAge false).mpr
    (.inl ⟨by decide,by decide,fun _ h => .inl (by cases h; decide)⟩)

/-- One character is missing, and two more are taken back. -/
theorem idAndAge_shortened : ¬ AppendsPrefix 17 0 idAndAge false := by
  intro h
  have hpos : (print 17 0 idAndAge false).pos = 15 := by decide
  have hend := h.text.pos
  rw [hpos] at hend
  exact absurd hend (by decide)

end NewRpc.Stringification
