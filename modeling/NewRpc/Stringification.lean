import NewRpc.Reflection
import NewRpc.TextBuffer

/-!
`value_to_string` and `kv_to_string`: text of a value, printed into a buffer of fixed size.
-/

set_option autoImplicit false

namespace NewRpc.Stringification
open Codec TextBuffer

abbrev Text := List Char

abbrev MemberName := { name : Text // name ≠ [] }

/-- What is printed by a single `FORMAT_TO`: strings, a null pointer, a pointer that cannot
be dereferenced, enumerations, truth values, integers and characters. -/
inductive Scalar where
  | string (value : Text)
  | null
  | address (pointerAddr : I64)
  | enum (u : Underlying) (value : u.Carrier)
  | bool (value : Bool)
  | integral (value : Int)
  | char (value : Char)

mutual
/-- A finite value. A pointer has its address and what it points at; `formattable` has the
text that the type's own formatter makes. -/
inductive Value where
  | scalar (value : Scalar)
  | pointer (pointerAddr : I64) (pointee : Value)
  | formattable (text : Text)
  | range (elements : Elements)
  | reflectable (members : Members)

inductive Elements where
  | nil
  | cons (element : Value) (elements : Elements)

inductive Members where
  | nil
  | cons (name : MemberName) (member : Value) (members : Members)
end

def Elements.size : Elements → Nat
  | .nil => 0
  | .cons _ elements => elements.size + 1

def decimal (value : Int) : Text :=
  (if value < 0 then ['-'] else []) ++ Nat.toDigits 10 value.natAbs

def hexadecimal (value : Int) : Text :=
  (if value < 0 then ['-'] else []) ++ ['0','x'] ++ Nat.toDigits 16 value.natAbs

def Scalar.text : Scalar → Text
  | .string value => value
  | .null => "NULL".toList
  | .address pointerAddr => hexadecimal pointerAddr.toInt
  | .enum u value => decimal (u.toInt64 value).toInt
  | .bool value => if value then "true".toList else "false".toList
  | .integral value => decimal value
  | .char value => ['\'',value,'\'']

def pointerText (pointerAddr : I64) : Text := ['('] ++ hexadecimal pointerAddr.toInt ++ [')',':']

def moreText (extraSize : Nat) : Text := ['.','.','('] ++ decimal extraSize ++ " more)".toList

def keyText (key : MemberName) : Text := key.1 ++ [':']

def formatToN (i n : Int) (text : Text) : List (Int × Char) × Int :=
  (indexed i (text.take n.toNat),text.length)

def formatTo (bufferLen : Int) (text : Text) (out : Out Char) : Out Char :=
  if out.pos < bufferLen then
    let (written,size) := formatToN out.pos (bufferLen - out.pos) text
    let pos := if out.pos + size ≤ bufferLen then out.pos + size else bufferLen
    ⟨pos,out.writes ++ written⟩
  else out

/-- `FORMAT_TO` of `kv_to_string`: the whole length of the buffer, from any position. -/
def kvFormatTo (bufferLen : Int) (text : Text) (out : Out Char) : Out Char :=
  let (written,size) := formatToN out.pos bufferLen text
  ⟨out.pos + size,out.writes ++ written⟩

def formatToIf (withKey : Bool) (bufferLen : Int) (text : Text) (out : Out Char) : Out Char :=
  if withKey then formatTo bufferLen text out else out

def kvToString (bufferLen : Int) (key : MemberName) (valueToString : Out Char → Out Char)
    (out : Out Char) : Out Char :=
  valueToString (kvFormatTo bufferLen (keyText key) out)

def maxPrintSize : Nat := 8

mutual
def valueToString (bufferLen : Int) : Value → Bool → Out Char → Out Char
  | .scalar value, _, out => formatTo bufferLen value.text out
  | .pointer pointerAddr pointee, withKey, out =>
      valueToString bufferLen pointee withKey (formatTo bufferLen (pointerText pointerAddr) out)
  | .formattable text, withKey, out =>
      let out := formatToIf withKey bufferLen ['{'] out
      let out := formatTo bufferLen text out
      formatToIf withKey bufferLen ['}'] out
  | .range elements, withKey, out =>
      let out := formatToIf withKey bufferLen ['{'] out
      let out := formatTo bufferLen ['['] out
      let out := elementsToString bufferLen elements 0 out
      let out :=
        if maxPrintSize < elements.size then
          formatTo bufferLen (moreText (elements.size - maxPrintSize)) out
        else out
      let out := formatTo bufferLen [']'] out
      formatToIf withKey bufferLen ['}'] out
  | .reflectable members, withKey, out =>
      let out := formatToIf withKey bufferLen ['{'] out
      let (out,needBack) := membersToString bufferLen members (out,false)
      let out : Out Char := if needBack then ⟨out.pos - 2,out.writes⟩ else out
      formatToIf withKey bufferLen ['}'] out

def elementsToString (bufferLen : Int) : Elements → Nat → Out Char → Out Char
  | .nil, _, out => out
  | .cons element elements, idx, out =>
      if idx < maxPrintSize then
        let out := valueToString bufferLen element true out
        let out :=
          if idx < maxPrintSize - 1 ∧ elements.size ≠ 0 then formatTo bufferLen [',',' '] out
          else out
        elementsToString bufferLen elements (idx + 1) out
      else out

def membersToString (bufferLen : Int) : Members → Out Char × Bool → Out Char × Bool
  | .nil, state => state
  | .cons name member members, (out,_) =>
      let out := kvToString bufferLen name (valueToString bufferLen member true) out
      let out := formatTo bufferLen [',',' '] out
      membersToString bufferLen members (out,true)
end

def print (bufferLen pos : Int) (value : Value) (withKey : Bool) : Out Char :=
  valueToString bufferLen value withKey ⟨pos,[]⟩

theorem formatTo_end {bufferLen : Int} {out : Out Char} (text : Text)
    (h : bufferLen ≤ out.pos) : formatTo bufferLen text out = out := by
  rw [formatTo,if_neg (by omega)]

theorem formatTo_pos {bufferLen : Int} {out : Out Char} (text : Text)
    (h : out.pos ≤ bufferLen) :
    (formatTo bufferLen text out).pos = min (out.pos + text.length) bufferLen := by
  unfold formatTo formatToN
  by_cases hlt : out.pos < bufferLen
  · rw [if_pos hlt]
    simp only
    split <;> omega
  · rw [if_neg hlt]
    omega

theorem formatTo_advances {bufferLen : Int} {out : Out Char} (text : Text)
    (h : out.pos ≤ bufferLen) : Advances bufferLen out (formatTo bufferLen text out) := by
  have hpos := formatTo_pos text h
  by_cases hlt : out.pos < bufferLen
  · refine ⟨by omega,by omega,indexed out.pos (text.take (bufferLen - out.pos).toNat),?_,?_⟩
    · rw [formatTo,if_pos hlt]
      rfl
    · intro w hw
      have hin := mem_indexed hw
      rw [List.length_take] at hin
      omega
  · rw [formatTo_end text (by omega)]
    exact .refl h

theorem formatTo_extends (bufferLen : Int) (text : Text) (out : Out Char) :
    Extends out (formatTo bufferLen text out) := by
  unfold formatTo
  split
  · exact ⟨_,rfl⟩
  · exact .refl out

theorem kvFormatTo_pos (bufferLen : Int) (text : Text) (out : Out Char) :
    (kvFormatTo bufferLen text out).pos = out.pos + text.length := rfl

theorem kvFormatTo_extends (bufferLen : Int) (text : Text) (out : Out Char) :
    Extends out (kvFormatTo bufferLen text out) := ⟨_,rfl⟩

/-- Where the key fits, `kv_to_string` is right. -/
theorem kvFormatTo_advances {bufferLen : Int} {out : Out Char} {text : Text}
    (h : out.pos + text.length ≤ bufferLen) :
    Advances bufferLen out (kvFormatTo bufferLen text out) := by
  have hpos := kvFormatTo_pos bufferLen text out
  refine ⟨by omega,by omega,_,rfl,?_⟩
  intro w hw
  have hin := mem_indexed hw
  rw [List.length_take] at hin
  omega

/-- Where it does not fit, it is written behind the end, unless it begins at index 0 and
the length of the buffer cuts it. -/
theorem kvFormatTo_overruns {bufferLen : Int} {out : Out Char} {text : Text}
    (hlen : 0 < bufferLen) (hcut : 0 < out.pos ∨ text.length ≤ bufferLen)
    (hne : text ≠ []) (h : bufferLen < out.pos + text.length) :
    Overruns bufferLen (kvFormatTo bufferLen text out) := by
  have hpos := List.length_pos_iff.mpr hne
  have hlast : max bufferLen out.pos < out.pos + (text.take bufferLen.toNat).length := by
    rw [List.length_take]
    omega
  obtain ⟨w,hw,hi⟩ := exists_mem_indexed (i := out.pos) (Int.le_max_right bufferLen out.pos)
    hlast
  refine ⟨w,List.mem_append_right _ hw,?_⟩
  rw [hi]
  exact Int.le_max_left _ _

end NewRpc.Stringification
