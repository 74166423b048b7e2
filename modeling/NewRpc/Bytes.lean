import Mathlib.Algebra.Group.Int.Defs
import Mathlib.Algebra.Group.Nat.Defs

/-!
Machine words as byte strings, the unsigned reading of a signed length, and
reads and writes inside one block of bytes.
-/

set_option autoImplicit false

namespace Bytes

inductive Endian where
  | little | big
  deriving DecidableEq, Repr

/-- The `n` low bytes of `v`, least significant first. -/
def leBytes : Nat → Nat → List UInt8
  | 0, _ => []
  | n+1, v => UInt8.ofNat v :: leBytes n (v / 256)

def leValue : List UInt8 → Nat
  | [] => 0
  | b :: bs => b.toNat + 256 * leValue bs

@[simp] theorem leBytes_length (n v : Nat) : (leBytes n v).length = n := by
  induction n generalizing v with
  | zero => rfl
  | succ n ih => simp [leBytes,ih]

theorem leValue_leBytes (n v : Nat) : leValue (leBytes n v) = v % 256 ^ n := by
  induction n generalizing v with
  | zero => simp [leBytes,leValue,Nat.mod_one]
  | succ n ih =>
    have hb : (UInt8.ofNat v).toNat = v % 256 := UInt8.toNat_ofNat'
    simp only [leBytes,leValue,ih,hb]
    have hp : 256 ^ (n+1) = 256 * 256 ^ n := by rw [Nat.pow_succ,Nat.mul_comm]
    rw [hp,Nat.mod_mul]

theorem leValue_lt (bs : List UInt8) : leValue bs < 256 ^ bs.length := by
  induction bs with
  | nil => simp [leValue]
  | cons b bs ih =>
    have hb := b.toNat_lt
    simp only [leValue,List.length_cons,Nat.pow_succ]
    omega

theorem leBytes_leValue (bs : List UInt8) : leBytes bs.length (leValue bs) = bs := by
  induction bs with
  | nil => rfl
  | cons b bs ih =>
    have hb := b.toNat_lt
    have hd : (b.toNat + 256 * leValue bs) / 256 = leValue bs := by omega
    have hm : UInt8.ofNat (b.toNat + 256 * leValue bs) = b := by
      apply UInt8.toNat_inj.mp
      simp only [UInt8.toNat_ofNat']
      omega
    simp only [leValue,List.length_cons,leBytes,hd,hm,ih]

theorem two_pow_eight_mul (n : Nat) : 2 ^ (8 * n) = 256 ^ n := by
  rw [Nat.pow_mul]

/-- The bytes an object of `n` bytes occupies in memory. -/
def object (e : Endian) (n : Nat) (v : BitVec (8 * n)) : List UInt8 :=
  match e with
  | .little => leBytes n v.toNat
  | .big => (leBytes n v.toNat).reverse

def ofObject (e : Endian) (n : Nat) (bs : List UInt8) : BitVec (8 * n) :=
  match e with
  | .little => BitVec.ofNat _ (leValue bs)
  | .big => BitVec.ofNat _ (leValue bs.reverse)

/-- `std::byteswap`: the value whose bytes are those of `v` in reverse. -/
def byteswap (n : Nat) (v : BitVec (8 * n)) : BitVec (8 * n) :=
  BitVec.ofNat _ (leValue (leBytes n v.toNat).reverse)

@[simp] theorem object_length (e : Endian) (n : Nat) (v : BitVec (8 * n)) :
    (object e n v).length = n := by
  cases e <;> simp [object]

theorem toNat_ofNat_leValue (n : Nat) (bs : List UInt8) (h : bs.length = n) :
    (BitVec.ofNat (8 * n) (leValue bs)).toNat = leValue bs := by
  have hb := leValue_lt bs
  rw [BitVec.toNat_ofNat,two_pow_eight_mul]
  apply Nat.mod_eq_of_lt
  simpa [h] using hb

theorem ofNat_leValue_leBytes (n : Nat) (v : BitVec (8 * n)) :
    BitVec.ofNat (8 * n) (leValue (leBytes n v.toNat)) = v := by
  apply BitVec.eq_of_toNat_eq
  have hv := v.isLt
  rw [toNat_ofNat_leValue n _ (by simp),leValue_leBytes]
  apply Nat.mod_eq_of_lt
  rwa [two_pow_eight_mul] at hv

theorem leBytes_ofNat_leValue (n : Nat) (bs : List UInt8) (h : bs.length = n) :
    leBytes n (BitVec.ofNat (8 * n) (leValue bs)).toNat = bs := by
  rw [toNat_ofNat_leValue n bs h]
  subst h
  exact leBytes_leValue bs

/-- Swapping before the copy on a big-endian machine gives the little-endian bytes. -/
theorem object_big_byteswap (n : Nat) (v : BitVec (8 * n)) :
    object .big n (byteswap n v) = leBytes n v.toNat := by
  simp only [object,byteswap]
  rw [leBytes_ofNat_leValue n _ (by simp),List.reverse_reverse]

theorem byteswap_ofObject_big (n : Nat) (bs : List UInt8) (h : bs.length = n) :
    byteswap n (ofObject .big n bs) = BitVec.ofNat _ (leValue bs) := by
  simp only [ofObject,byteswap]
  rw [leBytes_ofNat_leValue n _ (by simpa using h),List.reverse_reverse]

theorem ofObject_little_leBytes (n : Nat) (v : BitVec (8 * n)) :
    ofObject .little n (leBytes n v.toNat) = v := ofNat_leValue_leBytes n v

/-- The conversion of an `int64_t` operand to `uint64_t`. -/
def u64 (x : Int) : Nat := (x % 2 ^ 64).toNat

theorem u64_eq {x : Int} (h : 0 ≤ x) (hx : x < 2 ^ 64) : u64 x = x.toNat := by
  simp only [u64]; omega

def slice (block : List UInt8) (at_ n : Nat) : List UInt8 := (block.drop at_).take n

def splice (block : List UInt8) (at_ : Nat) (src : List UInt8) : List UInt8 :=
  block.take at_ ++ src ++ block.drop (at_ + src.length)

theorem slice_length {block : List UInt8} {at_ n : Nat} (h : at_ + n ≤ block.length) :
    (slice block at_ n).length = n := by
  simp [slice]; omega

@[simp] theorem splice_nil (block : List UInt8) (at_ : Nat) : splice block at_ [] = block := by
  simp [splice]

theorem splice_length {block src : List UInt8} {at_ : Nat}
    (h : at_ + src.length ≤ block.length) : (splice block at_ src).length = block.length := by
  simp [splice]; omega

/-- A write leaves the bytes before and behind it. -/
theorem splice_outside {block src : List UInt8} {at_ i : Nat}
    (h : at_ + src.length ≤ block.length) (hi : i < at_ ∨ at_ + src.length ≤ i) :
    (splice block at_ src)[i]? = block[i]? := by
  have ht : (block.take at_).length = at_ := by simp; omega
  rcases hi with hi | hi
  · rw [splice,List.append_assoc,List.getElem?_append_left (by omega),
      List.getElem?_take_of_lt hi]
  · rw [splice,List.getElem?_append_right (by rw [List.length_append,ht]; exact hi),
      List.getElem?_drop,List.length_append,ht]
    congr 1
    omega

theorem slice_splice {block src : List UInt8} {at_ : Nat}
    (h : at_ + src.length ≤ block.length) :
    slice (splice block at_ src) at_ src.length = src := by
  have ht : (block.take at_).length = at_ := by simp; omega
  rw [slice,splice,List.append_assoc,List.drop_append_of_le_length (by omega)]
  simp

/-- Two writes next to each other are one write. -/
theorem splice_splice {block a b : List UInt8} {at_ : Nat}
    (h : at_ + (a ++ b).length ≤ block.length) :
    splice (splice block at_ a) (at_ + a.length) b = splice block at_ (a ++ b) := by
  have hl : at_ + a.length + b.length ≤ block.length := by simpa [Nat.add_assoc] using h
  have ht : (block.take at_).length = at_ := by simp; omega
  have hhead : (splice block at_ a).take (at_ + a.length) = block.take at_ ++ a := by
    rw [splice,List.take_append_of_le_length (by simp; omega)]
    exact List.take_of_length_le (Nat.le_of_eq (by rw [List.length_append,ht]))
  have htail : (splice block at_ a).drop (at_ + a.length + b.length) =
      block.drop (at_ + a.length + b.length) := by
    rw [splice,List.drop_append,List.drop_drop]
    rw [List.drop_eq_nil_of_le (by simp; omega),List.nil_append]
    congr 1
    simp only [List.length_append,ht]
    omega
  rw [splice,hhead,htail,splice]
  simp [Nat.add_assoc]

/-- A write that ends where the block does. -/
theorem splice_end {block src : List UInt8} {at_ : Nat} (h : block.length ≤ at_ + src.length) :
    splice block at_ src = block.take at_ ++ src := by
  simp [splice,h]

theorem splice_zero (block src : List UInt8) :
    splice block 0 src = src ++ block.drop src.length := by
  simp [splice]

theorem slice_append {block : List UInt8} {at_ m n : Nat} :
    slice block at_ (m + n) = slice block at_ m ++ slice block (at_ + m) n := by
  simp [slice,List.take_add,List.drop_drop]

end Bytes
