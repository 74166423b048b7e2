import NewRpc.Bytes

/-!
The types the serializer is instantiated at, their values, and the values
their default constructors leave.
-/

set_option autoImplicit false

namespace NewRpc.Codec
open Bytes

inductive Width where
  | w8 | w16 | w32 | w64
  deriving DecidableEq, Repr

def Width.sizeof : Width → Nat
  | .w8 => 1
  | .w16 => 2
  | .w32 => 4
  | .w64 => 8

theorem Width.sizeof_pos (w : Width) : 0 < w.sizeof := by cases w <;> decide

theorem Width.sizeof_le (w : Width) : w.sizeof ≤ 8 := by cases w <;> decide

abbrev Word (w : Width) := BitVec (8 * w.sizeof)
abbrev I64 := BitVec (8 * 8)

inductive Underlying where
  | bool
  | sint (w : Width)
  | uint (w : Width)
  deriving DecidableEq, Repr

abbrev Underlying.Carrier : Underlying → Type
  | .bool => Bool
  | .sint w => Word w
  | .uint w => Word w

def Underlying.toInt64 : (u : Underlying) → u.Carrier → I64
  | .bool, b => if b then 1 else 0
  | .sint _, v => v.signExtend (8 * 8)
  | .uint _, v => v.setWidth (8 * 8)

def Underlying.ofInt64 : (u : Underlying) → I64 → u.Carrier
  | .bool, v => v != 0
  | .sint w, v => v.setWidth (8 * w.sizeof)
  | .uint w, v => v.setWidth (8 * w.sizeof)

def Underlying.zero : (u : Underlying) → u.Carrier
  | .bool => false
  | .sint _ => 0
  | .uint _ => 0

theorem Underlying.ofInt64_toInt64 (u : Underlying) (v : u.Carrier) :
    u.ofInt64 (u.toInt64 v) = v := by
  cases u with
  | bool => cases v <;> decide
  | sint w =>
    have hw := w.sizeof_le
    apply BitVec.eq_of_getLsbD_eq
    intro i hi
    have hi' : i < 8 * 8 := by omega
    simp [ofInt64,toInt64,hi,hi',BitVec.getElem_signExtend]
  | uint w =>
    have hw := w.sizeof_le
    apply BitVec.eq_of_getLsbD_eq
    intro i hi
    have hi' : i < 8 * 8 := by omega
    simp [ofInt64,toInt64,hi,hi']

/-- The types `Serializer<T>` accepts, over the names of the reflected structs.
Signedness of integers never reaches the bytes, so only their width is kept. -/
inductive Ty (S : Type) where
  | int (w : Width)
  | bool
  | enum (u : Underlying)
  | string
  | ptr (t : Ty S)
  | vector (t : Ty S)
  | struct (s : S)
  deriving DecidableEq

/-- The `STATIC_REFLECT` declarations of a program. A struct lists at least one
member and holds no struct by value whose definition is not complete before. -/
structure Reflection where
  Name : Type
  members : Name → List (Ty Name)
  members_ne : ∀ s, members s ≠ []
  rank : Name → Nat
  height : Nat
  rank_le : ∀ s, rank s ≤ height
  rank_lt : ∀ s t, Ty.struct t ∈ members s → rank t < rank s

/-- Where no struct holds another, all have rank 0. -/
theorem flat_rank_le {S : Type} (_ : S) : (0 : Nat) ≤ 0 := Nat.le_refl 0

mutual
inductive Val (R : Reflection) : Ty R.Name → Type where
  | int {w : Width} : Word w → Val R (.int w)
  | bool : Bool → Val R .bool
  | enum {u : Underlying} : u.Carrier → Val R (.enum u)
  | string : List UInt8 → Val R .string
  | null {t : Ty R.Name} : Val R (.ptr t)
  | ref {t : Ty R.Name} : Val R t → Val R (.ptr t)
  | vector {t : Ty R.Name} : Vals R t → Val R (.vector t)
  | struct {s : R.Name} : Members R (R.members s) → Val R (.struct s)

inductive Vals (R : Reflection) : Ty R.Name → Type where
  | nil {t : Ty R.Name} : Vals R t
  | cons {t : Ty R.Name} : Val R t → Vals R t → Vals R t

inductive Members (R : Reflection) : List (Ty R.Name) → Type where
  | nil : Members R []
  | cons {t : Ty R.Name} {ts : List (Ty R.Name)} :
      Val R t → Members R ts → Members R (t :: ts)
end

def Vals.length {R : Reflection} {t : Ty R.Name} : Vals R t → Nat
  | .nil => 0
  | .cons _ vs => vs.length + 1

def Vals.append {R : Reflection} {t : Ty R.Name} : Vals R t → Vals R t → Vals R t
  | .nil, ws => ws
  | .cons v vs, ws => .cons v (vs.append ws)

def Vals.pushBack {R : Reflection} {t : Ty R.Name} (vs : Vals R t) (v : Val R t) : Vals R t :=
  vs.append (.cons v .nil)

@[simp] theorem Vals.nil_append {R : Reflection} {t : Ty R.Name} (ws : Vals R t) :
    Vals.nil.append ws = ws := rfl

@[simp] theorem Vals.append_nil {R : Reflection} {t : Ty R.Name} :
    (vs : Vals R t) → vs.append .nil = vs
  | .nil => rfl
  | .cons v vs => by rw [append,append_nil vs]

theorem Vals.append_assoc {R : Reflection} {t : Ty R.Name} :
    (us vs ws : Vals R t) → (us.append vs).append ws = us.append (vs.append ws)
  | .nil, _, _ => rfl
  | .cons u us, vs, ws => by simp only [append,append_assoc us vs ws]

theorem Vals.length_append {R : Reflection} {t : Ty R.Name} :
    (vs ws : Vals R t) → (vs.append ws).length = vs.length + ws.length
  | .nil, ws => by simp [append,length]
  | .cons v vs, ws => by simp only [append,length,length_append vs ws]; omega

abbrev Defaults (R : Reflection) := (s : R.Name) → Members R (R.members s)

/-- A freshly constructed object. A scalar that C++ would leave indeterminate is
zero here: the decoder overwrites it before anything reads it. -/
def Val.fresh {R : Reflection} (D : Defaults R) : (t : Ty R.Name) → Val R t
  | .int _ => .int 0
  | .bool => .bool false
  | .enum u => .enum u.zero
  | .string => .string []
  | .ptr _ => .null
  | .vector _ => .vector .nil
  | .struct s => .struct (D s)

def Members.fresh {R : Reflection} (D : Defaults R) : (ts : List (Ty R.Name)) → Members R ts
  | [] => .nil
  | t :: ts => .cons (Val.fresh D t) (Members.fresh D ts)

end NewRpc.Codec
