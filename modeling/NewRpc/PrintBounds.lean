import NewRpc.Rendering

/-!
Where `value_to_string` writes. The two positions, of the printer and of the full text,
go together until the buffer is full; a name that ends behind it is written there.
-/

set_option autoImplicit false

namespace NewRpc.Stringification
open Codec TextBuffer

structure StaysInside (bufferLen pos : Int) (value : Value) (withKey : Bool) : Prop where
  below : ∀ w ∈ (print bufferLen pos value withKey).writes, w.1 < bufferLen
  before : ∀ (memory : Int → Char) (i : Int), i < pos →
    store memory (print bufferLen pos value withKey).writes i = memory i
  start : pos ≤ (print bufferLen pos value withKey).pos
  bounded : (print bufferLen pos value withKey).pos ≤ bufferLen

mutual
def Value.oneLetter : Value → Bool
  | .scalar _ => true
  | .pointer _ pointee => pointee.oneLetter
  | .formattable _ => true
  | .range elements => elements.oneLetter 8
  | .reflectable members => members.oneLetter

def Elements.oneLetter : Elements → Nat → Bool
  | .nil, _ => true
  | .cons _ _, 0 => true
  | .cons element elements, room+1 => element.oneLetter && elements.oneLetter room

def Members.oneLetter : Members → Bool
  | .nil => true
  | .cons name member .nil => (keyText name).length == 2 && member.oneLetter
  | .cons _ _ (.cons _ _ _) => false
end

/-- Every name of the full text ends, with its colon, within the buffer. Besides there are
two cases where `pos -= 2` takes back what did not fit: a buffer of length 0, and a single
member at index 0 whose name and colon are at most two characters longer than the buffer. -/
def NamesFit (bufferLen pos : Int) (value : Value) (withKey : Bool) : Prop :=
  Fits bufferLen pos (keyEnds value withKey) ∨
  bufferLen = 0 ∧ value.oneLetter = true ∨
  pos = 0 ∧ withKey = false ∧ ∃ name member,
    value = .reflectable (.cons name member .nil) ∧ keyEnds member true = [] ∧
      (keyText name).length ≤ bufferLen + 2

/-- The position is `p`, or the end of the buffer is less than two characters away from it
and at most two from the position. -/
def Tracks (bufferLen p : Int) (out : Out Char) : Prop :=
  out.pos = p ∧ p ≤ bufferLen ∨
    bufferLen < p + 2 ∧ out.pos ≤ bufferLen ∧ bufferLen ≤ out.pos + 2

def Meets (bufferLen p : Int) (out : Out Char) : Prop :=
  out.pos = p ∧ p ≤ bufferLen ∨ bufferLen < p ∧ out.pos = bufferLen

structure Follows (bufferLen p : Int) (out out' : Out Char) : Prop where
  advances : Advances bufferLen out out'
  tracks : Tracks bufferLen p out'

section
variable {bufferLen p q : Int} {out out' out'' : Out Char}

theorem Tracks.le (h : Tracks bufferLen p out) : out.pos ≤ bufferLen := by
  unfold Tracks at h
  omega

theorem Meets.tracks (h : Meets bufferLen p out) : Tracks bufferLen p out := by
  unfold Meets at h
  unfold Tracks
  omega

theorem Follows.trans (h : Follows bufferLen p out out') (h' : Follows bufferLen q out' out'') :
    Follows bufferLen q out out'' := ⟨h.advances.trans h'.advances,h'.tracks⟩

theorem Tracks.refl (h : Tracks bufferLen p out) : Follows bufferLen p out out :=
  ⟨.refl h.le,h⟩

theorem formatTo_follows (text : Text) (h : Tracks bufferLen p out) :
    Follows bufferLen (p + text.length) out (formatTo bufferLen text out) := by
  refine ⟨formatTo_advances text h.le,?_⟩
  have hpos := formatTo_pos text h.le
  unfold Tracks at h ⊢
  omega

theorem formatTo_meets (text : Text) (h : Meets bufferLen p out) :
    Meets bufferLen (p + text.length) (formatTo bufferLen text out) := by
  have hpos := formatTo_pos text h.tracks.le
  unfold Meets at h ⊢
  omega

theorem formatTo_fills (text : Text) (hl : text.length = 2) (h : Tracks bufferLen p out) :
    Meets bufferLen (p + text.length) (formatTo bufferLen text out) := by
  have hpos := formatTo_pos text h.le
  unfold Tracks at h
  unfold Meets
  omega

theorem Meets.back (h : Meets bufferLen (p + 2) out) :
    Tracks bufferLen p ⟨out.pos - 2,out.writes⟩ := by
  unfold Meets at h
  unfold Tracks
  simp only
  omega

theorem formatToIf_follows (withKey : Bool) (c : Char) (h : Tracks bufferLen p out) :
    Follows bufferLen (p + withKey.toNat) out (formatToIf withKey bufferLen [c] out) := by
  cases withKey with
  | false => simpa [formatToIf] using h.refl
  | true => exact formatTo_follows [c] h

theorem formatToIf_meets (withKey : Bool) (c : Char) (h : Meets bufferLen p out) :
    Meets bufferLen (p + withKey.toNat) (formatToIf withKey bufferLen [c] out) := by
  cases withKey with
  | false => simpa [formatToIf] using h
  | true => exact formatTo_meets [c] h

theorem formatToIf_extends (withKey : Bool) (bufferLen : Int) (text : Text) (out : Out Char) :
    Extends out (formatToIf withKey bufferLen text out) := by
  cases withKey with
  | false => exact .refl out
  | true => exact formatTo_extends bufferLen text out

theorem formatToIf_end (withKey : Bool) (text : Text) (h : bufferLen ≤ out.pos) :
    formatToIf withKey bufferLen text out = out := by
  cases withKey with
  | false => rfl
  | true => exact formatTo_end text h

theorem key_fits {name : MemberName} (h : Tracks bufferLen p out)
    (hk : p + (keyText name).length ≤ bufferLen) :
    Advances bufferLen out (kvFormatTo bufferLen (keyText name) out) ∧
      (kvFormatTo bufferLen (keyText name) out).pos = p + (keyText name).length := by
  have h2 := keyText_length name
  have hp : out.pos = p := by
    unfold Tracks at h
    omega
  exact ⟨kvFormatTo_advances (by omega),by rw [kvFormatTo_pos,hp]⟩

end

theorem braced_length (withKey : Bool) (text : Text) :
    (braced withKey text).length = withKey.toNat + text.length + withKey.toNat := by
  cases withKey with
  | false => simp [braced]
  | true =>
    simp only [braced,if_true,List.length_append,List.length_singleton,Bool.toNat_true]

theorem membersToString_needBack (bufferLen : Int) : (members : Members) →
    (state : Out Char × Bool) → (membersToString bufferLen members state).2 =
      match members with
      | .nil => state.2
      | .cons _ _ _ => true
  | .nil, _ => rfl
  | .cons _ _ members, _ => by
      rw [membersToString,membersToString_needBack bufferLen members]
      cases members <;> rfl

theorem valueToString_reflectable (bufferLen : Int) (name : MemberName) (member : Value)
    (members : Members) (withKey : Bool) (out : Out Char) :
    valueToString bufferLen (.reflectable (.cons name member members)) withKey out =
      formatToIf withKey bufferLen ['}']
        ⟨(membersToString bufferLen (.cons name member members)
            (formatToIf withKey bufferLen ['{'] out,false)).1.pos - 2,
          (membersToString bufferLen (.cons name member members)
            (formatToIf withKey bufferLen ['{'] out,false)).1.writes⟩ := by
  have hback := membersToString_needBack bufferLen (.cons name member members)
    (formatToIf withKey bufferLen ['{'] out,false)
  rw [valueToString]
  simp only [hback,if_true]

theorem valueToString_empty (bufferLen : Int) (withKey : Bool) (out : Out Char) :
    valueToString bufferLen (.reflectable .nil) withKey out =
      formatToIf withKey bufferLen ['}'] (formatToIf withKey bufferLen ['{'] out) := rfl

def rangeBegin (bufferLen : Int) (withKey : Bool) (out : Out Char) : Out Char :=
  formatTo bufferLen ['['] (formatToIf withKey bufferLen ['{'] out)

def rangeEnd (bufferLen : Int) (elements : Elements) (withKey : Bool) (out : Out Char) :
    Out Char :=
  formatToIf withKey bufferLen ['}']
    (formatTo bufferLen [']'] (formatToIf (maxPrintSize < elements.size) bufferLen
      (moreText (elements.size - maxPrintSize)) out))

theorem valueToString_range (bufferLen : Int) (elements : Elements) (withKey : Bool)
    (out : Out Char) : valueToString bufferLen (.range elements) withKey out =
      rangeEnd bufferLen elements withKey
        (elementsToString bufferLen elements 0 (rangeBegin bufferLen withKey out)) := by
  simp only [valueToString,rangeEnd,rangeBegin,formatToIf,decide_eq_true_eq]

/-- As long as there is room for an element, the loop goes on. -/
theorem lt_maxPrintSize {idx room : Nat} (h : idx + (room + 1) = 8) : idx < maxPrintSize := by
  unfold maxPrintSize
  omega

theorem next_iff_room {idx room : Nat} (h : idx + (room + 1) = 8) :
    idx < maxPrintSize - 1 ↔ room ≠ 0 := by
  unfold maxPrintSize
  omega

theorem elementsToString_cons (bufferLen : Int) (element : Value) (elements : Elements) {idx : Nat}
    (h : idx < maxPrintSize) (out : Out Char) :
    elementsToString bufferLen (.cons element elements) idx out =
      elementsToString bufferLen elements (idx + 1)
        (formatToIf (idx < maxPrintSize - 1 ∧ elements.size ≠ 0) bufferLen separator
          (valueToString bufferLen element true out)) := by
  rw [elementsToString,if_pos h]
  simp only [formatToIf,decide_eq_true_eq]

theorem elementsToString_full (bufferLen : Int) (elements : Elements) {idx : Nat}
    (h : maxPrintSize ≤ idx) (out : Out Char) :
    elementsToString bufferLen elements idx out = out := by
  cases elements with
  | nil => rfl
  | cons element elements => rw [elementsToString,if_neg (Nat.not_lt.mpr h)]

theorem rangeBegin_follows {bufferLen p : Int} {out : Out Char} (withKey : Bool)
    (h : Tracks bufferLen p out) :
    Follows bufferLen (p + (withKey.toNat + 1 : Nat)) out (rangeBegin bufferLen withKey out) := by
  have hopen := formatToIf_follows withKey '{' h
  rw [Int.natCast_add,← Int.add_assoc]
  exact hopen.trans (formatTo_follows ['['] hopen.tracks)

theorem rangeEnd_follows {bufferLen p : Int} {out : Out Char} (elements : Elements)
    (withKey : Bool) (h : Tracks bufferLen p out) :
    Follows bufferLen (p + ((moreRendering elements).length + 1 + withKey.toNat : Nat)) out
      (rangeEnd bufferLen elements withKey out) := by
  have hmore : Follows bufferLen (p + (moreRendering elements).length) out (formatToIf
      (maxPrintSize < elements.size) bufferLen (moreText (elements.size - maxPrintSize)) out) := by
    unfold moreRendering formatToIf maxPrintSize
    by_cases hs : 8 < elements.size
    · simpa only [hs,decide_true,if_true] using formatTo_follows _ h
    · simpa [hs] using h.refl
  have hbracket := formatTo_follows [']'] hmore.tracks
  have hclose := formatToIf_follows withKey '}' hbracket.tracks
  simp only [Int.natCast_add,← Int.add_assoc]
  exact hmore.trans (hbracket.trans hclose)

/-- A member whose name fits, with the separator behind it. -/
theorem member_follows {bufferLen p : Int} {out : Out Char} {name : MemberName} {member : Value}
    (h : Tracks bufferLen p out) (hk : p + (keyText name).length ≤ bufferLen)
    (hmember : Follows bufferLen (p + (keyText name).length + (rendering member true).length)
      (kvFormatTo bufferLen (keyText name) out)
      (valueToString bufferLen member true (kvFormatTo bufferLen (keyText name) out))) :
    Advances bufferLen out (formatTo bufferLen separator
        (valueToString bufferLen member true (kvFormatTo bufferLen (keyText name) out))) ∧
      out.pos + 2 ≤ (formatTo bufferLen separator
        (valueToString bufferLen member true (kvFormatTo bufferLen (keyText name) out))).pos ∧
      Meets bufferLen
        (p + (keyText name).length + (rendering member true).length + separator.length)
        (formatTo bufferLen separator
          (valueToString bufferLen member true (kvFormatTo bufferLen (keyText name) out))) := by
  have hkey := (key_fits h hk).1
  have hrest := hmember.advances.trans (formatTo_advances separator hmember.tracks.le)
  refine ⟨hkey.trans hrest,?_,formatTo_fills separator rfl hmember.tracks⟩
  have h2 := keyText_length name
  have hpos := kvFormatTo_pos bufferLen (keyText name) out
  have hle := hrest.pos
  omega

def MembersFollow (bufferLen p : Int) (members : Members) (out out' : Out Char) : Prop :=
  match members with
  | .nil => out' = out
  | .cons _ _ _ => Advances bufferLen out out' ∧ out.pos + 2 ≤ out'.pos ∧
      Meets bufferLen (p + (membersRendering members ++ separator).length) out'

mutual
theorem valueToString_follows {bufferLen : Int} : (value : Value) → (withKey : Bool) →
    (out : Out Char) → (p : Int) → Tracks bufferLen p out →
    Fits bufferLen p (keyEnds value withKey) →
    Follows bufferLen (p + (rendering value withKey).length) out
      (valueToString bufferLen value withKey out)
  | .scalar value, _, out, p, h, _ => formatTo_follows value.text h
  | .pointer pointerAddr pointee, withKey, out, p, h, hf => by
      have hprefix := formatTo_follows (pointerText pointerAddr) h
      have hrest := valueToString_follows pointee withKey _ _ hprefix.tracks
        ((fits_map _).mp hf)
      rw [rendering,List.length_append,Int.natCast_add,← Int.add_assoc]
      exact hprefix.trans hrest
  | .formattable text, withKey, out, p, h, _ => by
      have hopen := formatToIf_follows withKey '{' h
      have htext := formatTo_follows text hopen.tracks
      have hclose := formatToIf_follows withKey '}' htext.tracks
      rw [rendering,braced_length,Int.natCast_add,Int.natCast_add,← Int.add_assoc,
        ← Int.add_assoc]
      exact hopen.trans (htext.trans hclose)
  | .range elements, withKey, out, p, h, hf => by
      have hbegin := rangeBegin_follows withKey h
      have helements := elementsToString_follows elements 0 8 rfl _ _ hbegin.tracks
        ((fits_map _).mp hf)
      have hend := rangeEnd_follows elements withKey helements.tracks
      have hlength : (rendering (.range elements) withKey).length = withKey.toNat + 1 +
          (elementsRendering 8 elements).length +
          ((moreRendering elements).length + 1 + withKey.toNat) := by
        rw [rendering,braced_length]
        simp only [List.length_append,List.length_singleton,elementsRendering]
        omega
      rw [valueToString_range,hlength]
      simp only [Int.natCast_add,← Int.add_assoc] at hbegin helements hend ⊢
      exact hbegin.trans (helements.trans hend)
  | .reflectable .nil, withKey, out, p, h, hf => by
      have hopen := formatToIf_follows withKey '{' h
      have hclose := formatToIf_follows withKey '}' hopen.tracks
      have hlength : (rendering (.reflectable .nil) withKey).length =
          withKey.toNat + withKey.toNat := by
        rw [rendering,braced_length,memberRenderings,List.intercalate_nil]
        rfl
      rw [hlength,Int.natCast_add,← Int.add_assoc]
      exact hopen.trans hclose
  | .reflectable (.cons name member members), withKey, out, p, h, hf => by
      have hopen := formatToIf_follows withKey '{' h
      obtain ⟨hadvances,hpos,hmeets⟩ := membersToString_follows (.cons name member members) _
        false _ hopen.tracks ((fits_map _).mp hf)
      have hback := hadvances.back (show (0 : Int) ≤ 2 by decide) hpos
      rw [List.length_append,Int.natCast_add,← Int.add_assoc] at hmeets
      have hclose := formatToIf_follows withKey '}' hmeets.back
      have hlength : (rendering (.reflectable (.cons name member members)) withKey).length =
          withKey.toNat + (membersRendering (.cons name member members)).length +
            withKey.toNat := by
        rw [rendering,braced_length,membersRendering]
      rw [valueToString_reflectable,hlength]
      simp only [Int.natCast_add,← Int.add_assoc]
      exact ⟨hopen.advances.trans (hback.trans hclose.advances),hclose.tracks⟩

theorem elementsToString_follows {bufferLen : Int} : (elements : Elements) → (idx room : Nat) →
    idx + room = 8 → (out : Out Char) → (p : Int) → Tracks bufferLen p out →
    Fits bufferLen p (elementKeyEnds elements room) →
    Follows bufferLen (p + (elementsRendering room elements).length) out
      (elementsToString bufferLen elements idx out)
  | .nil, _, _, _, out, p, h, _ => by
      simpa [elementsToString,elementsRendering,renderings] using h.refl
  | .cons element elements, idx, 0, hroom, out, p, h, _ => by
      rw [elementsToString_full bufferLen _ (show maxPrintSize ≤ idx from Nat.le_of_eq hroom.symm)]
      simpa [elementsRendering] using h.refl
  | .cons element elements, idx, room+1, hroom, out, p, h, hf => by
      have hidx := lt_maxPrintSize hroom
      obtain ⟨hfits,hrest⟩ := fits_append.mp hf
      have helement := valueToString_follows element true out p h hfits
      have hnext := next_iff_room hroom
      rw [elementsToString_cons bufferLen _ _ hidx,elementsRendering_cons]
      simp only [hnext,List.length_append,Int.natCast_add,← Int.add_assoc]
      by_cases hc : room ≠ 0 ∧ elements.size ≠ 0
      · rw [decide_eq_true hc,if_pos hc]
        have hseparator := formatTo_follows separator helement.tracks
        rw [fits_map,Int.natCast_add,← Int.add_assoc] at hrest
        exact helement.trans (hseparator.trans
          (elementsToString_follows elements (idx + 1) room (by omega) _ _ hseparator.tracks hrest))
      · rw [decide_eq_false hc,if_neg hc,List.length_nil,Int.natCast_zero,Int.add_zero]
        have hends : elementKeyEnds elements room = [] := elementKeyEnds_eq_nil hc
        exact helement.trans (elementsToString_follows elements (idx + 1) room (by omega) _ _
          helement.tracks (by rw [hends]; exact fits_nil _ _))

theorem membersToString_follows {bufferLen : Int} : (members : Members) → (out : Out Char) →
    (needBack : Bool) → (p : Int) → Tracks bufferLen p out →
    Fits bufferLen p (memberKeyEnds members) →
    MembersFollow bufferLen p members out (membersToString bufferLen members (out,needBack)).1
  | .nil, _, _, _, _, _ => rfl
  | .cons name member members, out, needBack, p, h, hf => by
      obtain ⟨hends,hrest⟩ := fits_append.mp hf
      have hk : p + (keyText name).length ≤ bufferLen := hends _ (List.mem_cons_self ..)
      have hmember := valueToString_follows member true _ (p + (keyText name).length)
        (.inl ⟨(key_fits h hk).2,hk⟩)
        ((fits_map _).mp (fun e he => hends e (List.mem_cons_of_mem _ he)))
      obtain ⟨hadvances,htwo,hmeets⟩ := member_follows h hk hmember
      cases members with
      | nil =>
        refine ⟨hadvances,htwo,?_⟩
        rw [membersRendering_cons]
        simp only [List.length_append,List.length_nil,Int.natCast_add,← Int.add_assoc,
          Int.natCast_zero,Int.add_zero]
        exact hmeets
      | cons name' member' members =>
        rw [fits_map] at hrest
        simp only [Int.natCast_add,← Int.add_assoc] at hrest
        obtain ⟨hnext,hle,hlast⟩ := membersToString_follows (.cons name' member' members) _ true _
          hmeets.tracks hrest
        refine ⟨hadvances.trans hnext,Int.le_trans htwo hnext.pos,?_⟩
        rw [membersRendering_cons]
        simp only [List.length_append,Int.natCast_add,← Int.add_assoc] at hlast ⊢
        exact hlast
end

theorem rangeBegin_extends (bufferLen : Int) (withKey : Bool) (out : Out Char) :
    Extends out (rangeBegin bufferLen withKey out) :=
  (formatToIf_extends ..).trans (formatTo_extends ..)

theorem rangeEnd_extends (bufferLen : Int) (elements : Elements) (withKey : Bool)
    (out : Out Char) : Extends out (rangeEnd bufferLen elements withKey out) :=
  (formatToIf_extends ..).trans ((formatTo_extends ..).trans (formatToIf_extends ..))

mutual
theorem valueToString_extends (bufferLen : Int) : (value : Value) → (withKey : Bool) →
    (out : Out Char) → Extends out (valueToString bufferLen value withKey out)
  | .scalar value, _, out => formatTo_extends bufferLen value.text out
  | .pointer _ pointee, withKey, out =>
      (formatTo_extends ..).trans (valueToString_extends bufferLen pointee withKey _)
  | .formattable _, _, _ =>
      (formatToIf_extends ..).trans ((formatTo_extends ..).trans (formatToIf_extends ..))
  | .range elements, withKey, out => by
      rw [valueToString_range]
      exact (rangeBegin_extends bufferLen withKey out).trans
        ((elementsToString_extends bufferLen elements 0 _).trans (rangeEnd_extends ..))
  | .reflectable .nil, _, _ => (formatToIf_extends ..).trans (formatToIf_extends ..)
  | .reflectable (.cons name member members), withKey, out => by
      have hmembers := membersToString_extends bufferLen (.cons name member members)
        (formatToIf withKey bufferLen ['{'] out,false)
      rw [valueToString_reflectable]
      exact (formatToIf_extends withKey bufferLen ['{'] out).trans
        (hmembers.trans (formatToIf_extends ..))

theorem elementsToString_extends (bufferLen : Int) : (elements : Elements) → (idx : Nat) →
    (out : Out Char) → Extends out (elementsToString bufferLen elements idx out)
  | .nil, _, out => .refl out
  | .cons element elements, idx, out => by
      by_cases hidx : idx < maxPrintSize
      · rw [elementsToString_cons bufferLen _ _ hidx]
        exact (valueToString_extends bufferLen element true out).trans
          ((formatToIf_extends ..).trans (elementsToString_extends bufferLen elements (idx + 1) _))
      · rw [elementsToString_full bufferLen _ (Nat.le_of_not_lt hidx)]
        exact .refl out

theorem membersToString_extends (bufferLen : Int) : (members : Members) →
    (state : Out Char × Bool) → Extends state.1 (membersToString bufferLen members state).1
  | .nil, state => .refl state.1
  | .cons name member members, state =>
      (kvFormatTo_extends bufferLen (keyText name) state.1).trans
        ((valueToString_extends bufferLen member true _).trans
          ((formatTo_extends ..).trans (membersToString_extends bufferLen members _)))
end

theorem Overruns.elements {bufferLen : Int} {element : Value} {out : Out Char}
    (h : Overruns bufferLen (valueToString bufferLen element true out)) (elements : Elements)
    {idx : Nat} (hidx : idx < maxPrintSize) :
    Overruns bufferLen (elementsToString bufferLen (.cons element elements) idx out) := by
  rw [elementsToString_cons bufferLen _ _ hidx]
  exact h.extends ((formatToIf_extends ..).trans (elementsToString_extends ..))

structure AtEnd (bufferLen : Int) (ends : List Nat) (out out' : Out Char) : Prop where
  unchanged : ends = [] → out' = out
  overruns : 0 < bufferLen → ends ≠ [] → Overruns bufferLen out'

theorem membersToString_overruns_of_key {bufferLen : Int} (hlen : 0 < bufferLen)
    (name : MemberName) (member : Value) (members : Members) {out : Out Char} (needBack : Bool)
    (hcut : 0 < out.pos ∨ (keyText name).length ≤ bufferLen)
    (h : bufferLen < out.pos + (keyText name).length) :
    Overruns bufferLen
      (membersToString bufferLen (.cons name member members) (out,needBack)).1 := by
  have hne : keyText name ≠ [] := by
    intro hn
    have h2 := keyText_length name
    rw [hn] at h2
    cases h2
  have hkey := kvFormatTo_overruns hlen hcut hne h
  exact hkey.extends ((valueToString_extends bufferLen member true _).trans
    ((formatTo_extends ..).trans (membersToString_extends bufferLen members _)))

theorem valueToString_overruns_of_members {bufferLen : Int} {name : MemberName} {member : Value}
    {members : Members} {withKey : Bool} {out : Out Char}
    (h : Overruns bufferLen (membersToString bufferLen (.cons name member members)
      (formatToIf withKey bufferLen ['{'] out,false)).1) :
    Overruns bufferLen
      (valueToString bufferLen (.reflectable (.cons name member members)) withKey out) := by
  rw [valueToString_reflectable]
  exact Overruns.extends h (formatToIf_extends withKey bufferLen ['}'] ⟨_,_⟩)

mutual
theorem valueToString_atEnd {bufferLen : Int} : (value : Value) → (withKey : Bool) →
    (out : Out Char) → bufferLen ≤ out.pos →
    AtEnd bufferLen (keyEnds value withKey) out (valueToString bufferLen value withKey out)
  | .scalar value, _, out, h => ⟨fun _ => formatTo_end value.text h,fun _ hne => absurd rfl hne⟩
  | .pointer pointerAddr pointee, withKey, out, h => by
      have hpointee := valueToString_atEnd pointee withKey out h
      rw [valueToString,formatTo_end _ h,keyEnds]
      exact ⟨fun hnil => hpointee.unchanged (List.map_eq_nil_iff.mp hnil),
        fun hlen hne => hpointee.overruns hlen (fun hn => hne (List.map_eq_nil_iff.mpr hn))⟩
  | .formattable text, withKey, out, h => by
      refine ⟨fun _ => ?_,fun _ hne => absurd rfl hne⟩
      rw [valueToString,formatToIf_end withKey _ h,formatTo_end _ h,formatToIf_end withKey _ h]
  | .range elements, withKey, out, h => by
      have helements := elementsToString_atEnd elements 0 8 rfl out h
      have hbegin : rangeBegin bufferLen withKey out = out := by
        rw [rangeBegin,formatToIf_end withKey _ h,formatTo_end _ h]
      have hend : rangeEnd bufferLen elements withKey out = out := by
        rw [rangeEnd,formatToIf_end _ _ h,formatTo_end _ h,formatToIf_end withKey _ h]
      rw [valueToString_range,hbegin,keyEnds]
      refine ⟨fun hnil => ?_,fun hlen hne => ?_⟩
      · rw [helements.unchanged (List.map_eq_nil_iff.mp hnil),hend]
      · exact (helements.overruns hlen (fun hn => hne (List.map_eq_nil_iff.mpr hn))).extends
          (rangeEnd_extends ..)
  | .reflectable .nil, withKey, out, h => by
      refine ⟨fun _ => ?_,fun _ hne => absurd rfl hne⟩
      rw [valueToString_empty,formatToIf_end withKey _ h,formatToIf_end withKey _ h]
  | .reflectable (.cons name member members), withKey, out, h => by
      refine ⟨fun hnil => absurd hnil (by simp [keyEnds,memberKeyEnds]),fun hlen _ => ?_⟩
      have h2 := keyText_length name
      refine valueToString_overruns_of_members ?_
      rw [formatToIf_end withKey _ h]
      exact membersToString_overruns_of_key hlen name member members false (.inl (by omega))
        (by omega)

theorem elementsToString_atEnd {bufferLen : Int} : (elements : Elements) → (idx room : Nat) →
    idx + room = 8 → (out : Out Char) → bufferLen ≤ out.pos →
    AtEnd bufferLen (elementKeyEnds elements room) out
      (elementsToString bufferLen elements idx out)
  | .nil, _, _, _, _, _ => ⟨fun _ => rfl,fun _ hne => absurd rfl hne⟩
  | .cons element elements, idx, 0, hroom, out, _ => by
      rw [elementsToString_full bufferLen _ (show maxPrintSize ≤ idx from Nat.le_of_eq hroom.symm)]
      exact ⟨fun _ => rfl,fun _ hne => absurd rfl hne⟩
  | .cons element elements, idx, room+1, hroom, out, h => by
      have helement := valueToString_atEnd element true out h
      have hrest := elementsToString_atEnd elements (idx + 1) room (by omega) out h
      have hidx := lt_maxPrintSize hroom
      by_cases hends : keyEnds element true = []
      · rw [elementsToString_cons bufferLen _ _ hidx,helement.unchanged hends,
          formatToIf_end _ _ h,elementKeyEnds,hends,List.nil_append]
        exact ⟨fun hnil => hrest.unchanged (List.map_eq_nil_iff.mp hnil),
          fun hlen hne => hrest.overruns hlen (fun hn => hne (List.map_eq_nil_iff.mpr hn))⟩
      · refine ⟨fun hnil => absurd (List.append_eq_nil_iff.mp hnil).1 hends,fun hlen _ => ?_⟩
        exact Overruns.elements (helement.overruns hlen hends) elements hidx
end

def Members.FirstFits (bufferLen : Int) : Members → Prop
  | .nil => True
  | .cons name _ _ => (keyText name).length ≤ bufferLen

def Value.FirstFits (bufferLen : Int) : Value → Bool → Prop
  | .reflectable members, false => members.FirstFits bufferLen
  | _, _ => True

theorem Value.firstFits_key (bufferLen : Int) (value : Value) : value.FirstFits bufferLen true := by
  cases value <;> trivial

section
variable {bufferLen p : Int} {out : Out Char}

theorem formatTo_pos_pos {text : Text} (hlen : 0 < bufferLen) (h0 : 0 ≤ out.pos)
    (hle : out.pos ≤ bufferLen) (hne : text ≠ []) : 0 < (formatTo bufferLen text out).pos := by
  have hpos := formatTo_pos text hle
  have htext := List.length_pos_iff.mpr hne
  omega

theorem not_fits_map {ends : List Nat} {n : Nat}
    (h : ¬ Fits bufferLen p (ends.map (n + ·))) : ¬ Fits bufferLen (p + n) ends :=
  fun hf => h ((fits_map n).mpr hf)

end

mutual
theorem valueToString_overruns {bufferLen : Int} (hlen : 0 < bufferLen) : (value : Value) →
    (withKey : Bool) → (out : Out Char) → (p : Int) → Meets bufferLen p out → 0 ≤ out.pos →
    0 < out.pos ∨ value.FirstFits bufferLen withKey →
    ¬ Fits bufferLen p (keyEnds value withKey) →
    Overruns bufferLen (valueToString bufferLen value withKey out)
  | .scalar _, _, _, _, _, _, _, hf => absurd (fits_nil _ _) hf
  | .pointer pointerAddr pointee, withKey, out, p, h, h0, _, hf => by
      have hpos := formatTo_pos_pos hlen h0 h.tracks.le
        (show pointerText pointerAddr ≠ [] by simp [pointerText])
      exact valueToString_overruns hlen pointee withKey _ _ (formatTo_meets _ h)
        (Int.le_of_lt hpos) (.inl hpos) (not_fits_map hf)
  | .formattable _, _, _, _, _, _, _, hf => absurd (fits_nil _ _) hf
  | .range elements, withKey, out, p, h, h0, _, hf => by
      have hbegin : Meets bufferLen (p + (withKey.toNat + 1 : Nat))
          (rangeBegin bufferLen withKey out) := by
        rw [Int.natCast_add,← Int.add_assoc]
        exact formatTo_meets ['['] (formatToIf_meets withKey '{' h)
      have hle := (rangeBegin_follows withKey h.tracks).advances.pos
      rw [valueToString_range]
      exact (elementsToString_overruns hlen elements 0 8 rfl _ _ hbegin (Int.le_trans h0 hle)
        (not_fits_map hf)).extends (rangeEnd_extends ..)
  | .reflectable .nil, _, _, _, _, _, _, hf => absurd (fits_nil _ _) hf
  | .reflectable (.cons name member members), withKey, out, p, h, h0, hfirst, hf => by
      have hopen := formatToIf_meets withKey '{' h
      have hle := (formatToIf_follows withKey '{' h.tracks).advances.pos
      refine valueToString_overruns_of_members (membersToString_overruns hlen
        (.cons name member members) _ false _ hopen (Int.le_trans h0 hle) ?_ (not_fits_map hf))
      cases withKey with
      | false => exact hfirst
      | true => exact .inl (formatTo_pos_pos hlen h0 h.tracks.le (by simp))

theorem elementsToString_overruns {bufferLen : Int} (hlen : 0 < bufferLen) :
    (elements : Elements) → (idx room : Nat) → idx + room = 8 → (out : Out Char) → (p : Int) →
    Meets bufferLen p out → 0 ≤ out.pos → ¬ Fits bufferLen p (elementKeyEnds elements room) →
    Overruns bufferLen (elementsToString bufferLen elements idx out)
  | .nil, _, _, _, _, _, _, _, hf => absurd (fits_nil _ _) hf
  | .cons _ _, _, 0, _, _, _, _, _, hf => absurd (fits_nil _ _) hf
  | .cons element elements, idx, room+1, hroom, out, p, h, h0, hf => by
      have hidx := lt_maxPrintSize hroom
      by_cases hfit : Fits bufferLen p (keyEnds element true)
      · have hrest := not_fits_map (fun hr => hf (fits_append.mpr ⟨hfit,hr⟩))
        have helement := valueToString_follows element true out p h.tracks hfit
        have hc : idx < maxPrintSize - 1 ∧ elements.size ≠ 0 := by
          refine Classical.byContradiction (fun hn => hrest ?_)
          rw [elementKeyEnds_eq_nil (fun hc => hn ⟨(next_iff_room hroom).mpr hc.1,hc.2⟩)]
          exact fits_nil _ _
        have hmeets := formatTo_fills separator rfl helement.tracks
        have hle := (helement.advances.trans
          (formatTo_advances separator helement.tracks.le)).pos
        rw [elementsToString_cons bufferLen _ _ hidx,decide_eq_true hc]
        rw [Int.natCast_add,← Int.add_assoc] at hrest
        exact elementsToString_overruns hlen elements (idx + 1) room (by omega) _ _ hmeets
          (Int.le_trans h0 hle) hrest
      · exact Overruns.elements (valueToString_overruns hlen element true out p h h0
          (.inr (element.firstFits_key bufferLen)) hfit) elements hidx

theorem membersToString_overruns {bufferLen : Int} (hlen : 0 < bufferLen) :
    (members : Members) → (out : Out Char) → (needBack : Bool) → (p : Int) →
    Meets bufferLen p out → 0 ≤ out.pos → 0 < out.pos ∨ members.FirstFits bufferLen →
    ¬ Fits bufferLen p (memberKeyEnds members) →
    Overruns bufferLen (membersToString bufferLen members (out,needBack)).1
  | .nil, _, _, _, _, _, _, hf => absurd (fits_nil _ _) hf
  | .cons name member members, out, needBack, p, h, h0, hfirst, hf => by
      have h2 := keyText_length name
      by_cases hk : out.pos + (keyText name).length ≤ bufferLen
      · have hp : out.pos = p := by
          unfold Meets at h
          omega
        have hkp : p + (keyText name).length ≤ bufferLen := by omega
        have hpos := (key_fits h.tracks hkp).2
        have hmeets : Meets bufferLen (p + (keyText name).length)
            (kvFormatTo bufferLen (keyText name) out) := .inl ⟨hpos,hkp⟩
        by_cases hfit : Fits bufferLen (p + (keyText name).length) (keyEnds member true)
        · have hmember := valueToString_follows member true _ _ hmeets.tracks hfit
          obtain ⟨_,htwo,hfilled⟩ := member_follows h.tracks hkp hmember
          have hrest : ¬ Fits bufferLen p ((memberKeyEnds members).map
              ((keyText name).length + (rendering member true).length + 2 + ·)) := by
            refine fun hr => hf (fits_append.mpr ⟨fun e he => ?_,hr⟩)
            rcases List.mem_cons.mp he with rfl | he
            · exact hkp
            · exact (fits_map _).mpr hfit e he
          have hrest' := not_fits_map hrest
          simp only [Int.natCast_add,← Int.add_assoc] at hrest'
          have hnext : 0 < (formatTo bufferLen separator (valueToString bufferLen member true
              (kvFormatTo bufferLen (keyText name) out))).pos := by omega
          exact membersToString_overruns hlen members _ true _ hfilled (Int.le_of_lt hnext)
            (.inl hnext) hrest'
        · have hmember := valueToString_overruns hlen member true _ _ hmeets (by omega)
            (.inr (member.firstFits_key bufferLen)) hfit
          exact hmember.extends
            ((formatTo_extends ..).trans (membersToString_extends bufferLen members _))
      · exact membersToString_overruns_of_key hlen name member members needBack hfirst
          (by omega)
end

structure Drifts (n : Int) (exactly : Bool) (out out' : Out Char) : Prop where
  writes : out'.writes = out.writes
  pos : out.pos + n ≤ out'.pos
  iff : out'.pos = out.pos + n ↔ exactly = true

def Members.drift : Members → Int
  | .nil => 0
  | .cons _ _ _ => 2

theorem Drifts.refl (out : Out Char) : Drifts 0 true out out := ⟨rfl,by omega,by simp⟩

theorem kvFormatTo_empty {bufferLen : Int} (hlen : bufferLen ≤ 0) (text : Text) (out : Out Char) :
    kvFormatTo bufferLen text out = ⟨out.pos + text.length,out.writes⟩ := by
  simp [kvFormatTo,formatToN,indexed,Int.toNat_of_nonpos hlen]

mutual
theorem valueToString_drifts {bufferLen : Int} (hlen : bufferLen ≤ 0) : (value : Value) →
    (withKey : Bool) → (out : Out Char) → bufferLen ≤ out.pos →
    Drifts 0 value.oneLetter out (valueToString bufferLen value withKey out)
  | .scalar value, _, out, h => by
      rw [valueToString,formatTo_end _ h]
      exact .refl out
  | .pointer pointerAddr pointee, withKey, out, h => by
      rw [valueToString,formatTo_end _ h]
      exact valueToString_drifts hlen pointee withKey out h
  | .formattable text, withKey, out, h => by
      rw [valueToString,formatToIf_end withKey _ h,formatTo_end _ h,formatToIf_end withKey _ h]
      exact .refl out
  | .range elements, withKey, out, h => by
      have helements := elementsToString_drifts hlen elements 0 8 rfl out h
      have hpos : bufferLen ≤ (elementsToString bufferLen elements 0 out).pos := by
        have hle := helements.pos
        omega
      rw [valueToString_range,rangeBegin,formatToIf_end withKey _ h,formatTo_end _ h,rangeEnd,
        formatToIf_end _ _ hpos,formatTo_end _ hpos,formatToIf_end withKey _ hpos]
      exact helements
  | .reflectable .nil, withKey, out, h => by
      rw [valueToString_empty,formatToIf_end withKey _ h,formatToIf_end withKey _ h]
      exact .refl out
  | .reflectable (.cons name member members), withKey, out, h => by
      obtain ⟨hwrites,hpos,hiff⟩ :=
        membersToString_drifts hlen (.cons name member members) out false h
      rw [Members.drift] at hpos hiff
      rw [valueToString_reflectable,formatToIf_end withKey _ h,
        formatToIf_end withKey _ (by simp only; omega)]
      refine ⟨hwrites,by simp only; omega,?_⟩
      rw [Value.oneLetter,← hiff]
      simp only
      omega

theorem elementsToString_drifts {bufferLen : Int} (hlen : bufferLen ≤ 0) :
    (elements : Elements) → (idx room : Nat) → idx + room = 8 → (out : Out Char) →
    bufferLen ≤ out.pos →
    Drifts 0 (elements.oneLetter room) out (elementsToString bufferLen elements idx out)
  | .nil, _, _, _, out, _ => .refl out
  | .cons element elements, idx, 0, hroom, out, _ => by
      rw [elementsToString_full bufferLen _ (show maxPrintSize ≤ idx from Nat.le_of_eq hroom.symm)]
      exact .refl out
  | .cons element elements, idx, room+1, hroom, out, h => by
      have hidx := lt_maxPrintSize hroom
      obtain ⟨hwrites,hle,hiff⟩ := valueToString_drifts hlen element true out h
      have hpos : bufferLen ≤ (valueToString bufferLen element true out).pos := by omega
      obtain ⟨hwrites',hle',hiff'⟩ :=
        elementsToString_drifts hlen elements (idx + 1) room (by omega) _ hpos
      rw [elementsToString_cons bufferLen _ _ hidx,formatToIf_end _ _ hpos]
      refine ⟨hwrites'.trans hwrites,by omega,?_⟩
      rw [Elements.oneLetter,Bool.and_eq_true,← hiff,← hiff']
      omega

theorem membersToString_drifts {bufferLen : Int} (hlen : bufferLen ≤ 0) : (members : Members) →
    (out : Out Char) → (needBack : Bool) → bufferLen ≤ out.pos →
    Drifts members.drift members.oneLetter out
      (membersToString bufferLen members (out,needBack)).1
  | .nil, out, _, _ => .refl out
  | .cons name member members, out, needBack, h => by
      have h2 := keyText_length name
      obtain ⟨hwrites,hle,hiff⟩ := valueToString_drifts hlen member true
        (kvFormatTo bufferLen (keyText name) out)
        (by rw [kvFormatTo_empty hlen]; simp only; omega)
      have hkey := kvFormatTo_pos bufferLen (keyText name) out
      have hpos : bufferLen ≤
          (valueToString bufferLen member true (kvFormatTo bufferLen (keyText name) out)).pos := by
        omega
      obtain ⟨hwrites',hle',hiff'⟩ := membersToString_drifts hlen members _ true hpos
      rw [membersToString]
      simp only [kvToString,formatTo_end separator hpos]
      have hkept : (kvFormatTo bufferLen (keyText name) out).writes = out.writes := by
        rw [kvFormatTo_empty hlen]
      refine ⟨hwrites'.trans (hwrites.trans hkept),?_,?_⟩
      · cases members <;> simp only [Members.drift] at hle' ⊢ <;> omega
      · cases members with
        | nil =>
          simp only [membersToString,Members.drift,Members.oneLetter,Bool.and_eq_true,
            beq_iff_eq,← hiff]
          omega
        | cons name' member' members =>
          simp only [Members.drift,Members.oneLetter,Bool.false_eq_true,iff_false] at hle' ⊢
          omega
end

theorem staysInside_of_advances {bufferLen pos : Int} {value : Value} {withKey : Bool}
    (h : Advances bufferLen ⟨pos,[]⟩ (print bufferLen pos value withKey)) :
    StaysInside bufferLen pos value withKey := by
  obtain ⟨ws,hws,hin⟩ := h.wrote
  rw [List.nil_append] at hws
  refine ⟨?_,?_,h.pos,h.bounded⟩
  · rw [hws]
    exact fun w hw => (hin w hw).2
  · intro memory i hi
    refine store_of_not_written memory (fun w hw => ?_)
    rw [hws] at hw
    exact Int.ne_of_gt (Int.lt_of_lt_of_le hi (hin w hw).1)

theorem StaysInside.not_overruns {bufferLen pos : Int} {value : Value} {withKey : Bool}
    (h : StaysInside bufferLen pos value withKey) :
    ¬ Overruns bufferLen (print bufferLen pos value withKey) := by
  rintro ⟨w,hw,hle⟩
  exact Int.not_le.mpr (h.below w hw) hle

theorem staysInside_of_fits {bufferLen pos : Int} {value : Value} {withKey : Bool}
    (hpos : pos ≤ bufferLen) (h : Fits bufferLen pos (keyEnds value withKey)) :
    StaysInside bufferLen pos value withKey :=
  staysInside_of_advances
    (valueToString_follows value withKey ⟨pos,[]⟩ pos (.inl ⟨rfl,hpos⟩) h).advances

theorem staysInside_empty_iff (value : Value) (withKey : Bool) :
    StaysInside 0 0 value withKey ↔ value.oneLetter = true := by
  obtain ⟨hwrites,hpos,hiff⟩ := valueToString_drifts (Int.le_refl 0) value withKey ⟨0,[]⟩
    (Int.le_refl 0)
  rw [← hiff]
  constructor
  · intro h
    exact Int.le_antisymm h.bounded h.start
  · intro h
    refine staysInside_of_advances ⟨Int.le_of_eq h.symm,Int.le_of_eq h,[],?_,by simp⟩
    rw [print,hwrites]
    rfl

/-- The first name begins at index 0 and is longer than the buffer. -/
theorem longName_end {bufferLen : Int} {name : MemberName}
    (hlong : bufferLen < (keyText name).length) :
    bufferLen ≤ (kvFormatTo bufferLen (keyText name) ⟨0,[]⟩).pos := by
  rw [kvFormatTo_pos]
  simp only
  omega

theorem print_long {bufferLen : Int} {name : MemberName} {member : Value}
    (hlong : bufferLen < (keyText name).length) (hends : keyEnds member true = []) :
    print bufferLen 0 (.reflectable (.cons name member .nil)) false =
      ⟨(keyText name).length - 2,indexed 0 ((keyText name).take bufferLen.toNat)⟩ := by
  have hend := longName_end hlong
  have hmember := (valueToString_atEnd member true _ hend).unchanged hends
  have hmembers : membersToString bufferLen (.cons name member .nil) (⟨0,[]⟩,false) =
      (kvFormatTo bufferLen (keyText name) ⟨0,[]⟩,true) := by
    show (formatTo bufferLen separator (valueToString bufferLen member true
      (kvFormatTo bufferLen (keyText name) ⟨0,[]⟩)),true) = _
    rw [hmember,formatTo_end _ hend]
  have hopen : formatToIf false bufferLen ['{'] ⟨0,[]⟩ = (⟨0,[]⟩ : Out Char) := rfl
  rw [print,valueToString_reflectable,hopen,hmembers]
  simp [formatToIf,kvFormatTo,formatToN]

theorem staysInside_long_iff {bufferLen : Int} (hlen : 0 < bufferLen) {name : MemberName}
    {member : Value} {members : Members} (hlong : bufferLen < (keyText name).length) :
    StaysInside bufferLen 0 (.reflectable (.cons name member members)) false ↔
      members = .nil ∧ keyEnds member true = [] ∧ (keyText name).length ≤ bufferLen + 2 := by
  have hend := longName_end hlong
  have hmember := valueToString_atEnd member true _ hend
  constructor
  · intro h
    have hinside := h.not_overruns
    have hends : keyEnds member true = [] := by
      refine Classical.byContradiction (fun hne => hinside ?_)
      exact valueToString_overruns_of_members (Overruns.extends (hmember.overruns hlen hne)
        ((formatTo_extends ..).trans (membersToString_extends bufferLen members _)))
    cases members with
    | nil =>
      have hbounded := h.bounded
      rw [print_long hlong hends] at hbounded
      simp only at hbounded
      exact ⟨rfl,hends,by omega⟩
    | cons name' member' members =>
      refine absurd (valueToString_overruns_of_members ?_) hinside
      show Overruns bufferLen (membersToString bufferLen (.cons name' member' members)
        (formatTo bufferLen separator (valueToString bufferLen member true
          (kvFormatTo bufferLen (keyText name) ⟨0,[]⟩)),true)).1
      rw [hmember.unchanged hends,formatTo_end _ hend]
      have h2 := keyText_length name'
      exact membersToString_overruns_of_key hlen name' member' members true (.inl (by omega))
        (by omega)
  · rintro ⟨rfl,hends,hle⟩
    have h2 := keyText_length name
    refine staysInside_of_advances ?_
    rw [print_long hlong hends]
    refine ⟨by simp only; omega,by simp only; omega,_,(List.nil_append _).symm,?_⟩
    intro w hw
    have hin := mem_indexed hw
    rw [List.length_take] at hin
    simp only
    omega

theorem single_fits {bufferLen : Int} {name : MemberName} {member : Value}
    (hends : keyEnds member true = []) (h : (keyText name).length ≤ bufferLen) :
    Fits bufferLen 0 (keyEnds (.reflectable (.cons name member .nil)) false) := by
  simpa [keyEnds,memberKeyEnds,hends,Fits] using h

theorem oneLetter_of_keyEnds {value : Value} {withKey : Bool} (h : keyEnds value withKey = []) :
    value.oneLetter = true := by
  refine (staysInside_empty_iff value withKey).mp (staysInside_of_fits (Int.le_refl 0) ?_)
  rw [h]
  exact fits_nil 0 0

theorem namesFit_empty_iff (value : Value) (withKey : Bool) :
    NamesFit 0 0 value withKey ↔ value.oneLetter = true := by
  constructor
  · rintro (hfit | ⟨_,h⟩ | ⟨_,_,name,member,rfl,hends,hle⟩)
    · exact (staysInside_empty_iff value withKey).mp (staysInside_of_fits (Int.le_refl 0) hfit)
    · exact h
    · have h2 := keyText_length name
      have hlength : (keyText name).length = 2 := by omega
      simp [Value.oneLetter,Members.oneLetter,hlength,oneLetter_of_keyEnds hends]
  · exact fun h => .inr (.inl ⟨rfl,h⟩)

theorem staysInside_iff_namesFit {bufferLen pos : Int} (h0 : 0 ≤ pos) (hpos : pos ≤ bufferLen)
    (value : Value) (withKey : Bool) :
    StaysInside bufferLen pos value withKey ↔ NamesFit bufferLen pos value withKey := by
  by_cases hlen : bufferLen = 0
  · have hp : pos = 0 := by omega
    subst hlen hp
    rw [staysInside_empty_iff,namesFit_empty_iff]
  by_cases hfit : Fits bufferLen pos (keyEnds value withKey)
  · exact iff_of_true (staysInside_of_fits hpos hfit) (.inl hfit)
  by_cases hfirst : 0 < pos ∨ value.FirstFits bufferLen withKey
  · have hover : Overruns bufferLen (print bufferLen pos value withKey) :=
      valueToString_overruns (by omega) value withKey ⟨pos,[]⟩ pos (.inl ⟨rfl,hpos⟩) h0 hfirst hfit
    refine iff_of_false (fun h => h.not_overruns hover) ?_
    rintro (h | ⟨h,_⟩ | ⟨hp,rfl,name,member,rfl,hends,_⟩)
    · exact hfit h
    · exact hlen h
    · subst hp
      exact hfit (single_fits hends (hfirst.resolve_left (Int.lt_irrefl 0)))
  -- What is left begins with a name at index 0 that is longer than the buffer.
  · have hp : pos = 0 := by omega
    subst hp
    have hlong : ¬ value.FirstFits bufferLen withKey := fun h => hfirst (.inr h)
    cases value with
    | reflectable members =>
      cases withKey with
      | true => exact absurd (Value.firstFits_key bufferLen _) hlong
      | false =>
        cases members with
        | nil => exact absurd trivial hlong
        | cons name member members =>
          rw [staysInside_long_iff (by omega) (Int.not_le.mp hlong)]
          constructor
          · rintro ⟨rfl,hends,hle⟩
            exact .inr (.inr ⟨rfl,rfl,name,member,rfl,hends,hle⟩)
          · rintro (h | ⟨h,_⟩ | ⟨_,_,name',member',heq,hends,hle⟩)
            · exact absurd h hfit
            · exact absurd h hlen
            · cases heq
              exact ⟨rfl,hends,hle⟩
    | scalar value => exact absurd trivial hlong
    | pointer pointerAddr pointee => exact absurd trivial hlong
    | formattable text => exact absurd trivial hlong
    | range elements => exact absurd trivial hlong

/-- `value_to_string` stays inside its buffer exactly where the names of members fit. -/
theorem stays_inside_iff {bufferLen pos : Int} (h0 : 0 ≤ pos) (hpos : pos ≤ bufferLen)
    (value : Value) (withKey : Bool) :
    StaysInside bufferLen pos value withKey ↔ NamesFit bufferLen pos value withKey :=
  staysInside_iff_namesFit h0 hpos value withKey

def idAndAge : Value :=
  .reflectable (.cons ⟨['i','d'],by decide⟩ (.scalar (.integral 12345678))
    (.cons ⟨['a','g','e'],by decide⟩ (.scalar (.integral 1)) .nil))

theorem idAndAge_inside : StaysInside 17 0 idAndAge false :=
  (stays_inside_iff (by decide) (by decide) idAndAge false).mpr (.inl (by decide))

/-- In a buffer of eight characters the second name is written to the indices 8 to 11. -/
theorem idAndAge_overruns : ¬ StaysInside 8 0 idAndAge false :=
  fun h => absurd (h.below (8,'a') (by decide)) (by decide)

end NewRpc.Stringification
