import NewRpc.Reflection

/-!
Endpoints, errors and finish conditions as the network module and the calls
share them.
-/

set_option autoImplicit false

namespace NewRpc.Net

/-- The union `ip_` is kept as the four bytes of `ipv4_` and the other twelve of
`ipv6_`, which start at the same address. -/
structure EndPoint where
  ipv4 : BitVec 32
  ipv6Rest : BitVec 96
  port : BitVec 16
  flags : BitVec 32
  deriving DecidableEq, Repr

/-- The literal `0x…011b` is hexadecimal: the mask has five bits, not two. -/
def EndPoint.ipTypeMask : BitVec 32 := 0x11b

def EndPoint.v4 (ipv4 : BitVec 32) (port : BitVec 16) : EndPoint := ⟨ipv4,0,port,1⟩

def EndPoint.setPort (ep : EndPoint) (port : BitVec 16) : EndPoint := { ep with port }

/-- `operator==`: the left operand alone says which half of the union counts. -/
def EndPoint.eq (ep rhs : EndPoint) : Bool :=
  if ep.flags &&& ipTypeMask = 1 then ep.ipv4 == rhs.ipv4 && ep.port == rhs.port
  else if ep.flags &&& ipTypeMask = 2 then
    ep.ipv4 == rhs.ipv4 && ep.ipv6Rest == rhs.ipv6Rest && ep.port == rhs.port
  else false

abbrev Address := BitVec 32 × BitVec 16

abbrev EndPoint.address (ep : EndPoint) : Address := (ep.ipv4,ep.port)

abbrev peerAt (a : Address) : EndPoint := EndPoint.v4 a.1 a.2

theorem EndPoint.address_of_eq {ep rhs : EndPoint} (h : ep.eq rhs = true) :
    ep.address = rhs.address := by
  unfold eq at h
  split at h
  · simpa using h
  · split at h
    · simp only [Bool.and_eq_true,beq_iff_eq] at h
      simp [h]
    · simp at h

inductive Error where
  | rpcTimeout | hasBeenStopped | functionNotReflected
  deriving DecidableEq, Repr

inductive FinishCondition where
  | invalid | whenAny | whenAll | whenMajority
  deriving DecidableEq, Repr

end NewRpc.Net
