import NewRpc.RoundTrip

/-!
The message header and its 32 bytes.
-/

set_option autoImplicit false

namespace NewRpc.Net
open Bytes Codec

structure PackageHeader where
  version : Word .w16
  reserved : Word .w16
  serverPort : Word .w16
  flags : Word .w16
  rpcId : Word .w64
  processRestartCounter : Word .w16
  rpcType : Word .w16
  checksum : Word .w32
  payloadLen : Word .w64
  deriving DecidableEq

inductive MessageType where
  | request | response | other
  deriving DecidableEq, Repr

def PackageHeader.magicNumber : Word .w32 := 0xaabbccdd

def PackageHeader.maskMessageTypeBits : Word .w16 := 0x11b

def PackageHeader.default : PackageHeader where
  version := 0
  reserved := 0
  serverPort := 0
  flags := 0
  rpcId := 0
  processRestartCounter := 0
  rpcType := 0
  checksum := magicNumber
  payloadLen := 0

def PackageHeader.make (processRestartCounter rpcType : Word .w16) (rpcId : Word .w64)
    (serverPort : Word .w16) (payloadLen : Word .w64) : PackageHeader where
  version := 1
  reserved := 0
  serverPort := serverPort
  flags := 0
  rpcId := rpcId
  processRestartCounter := processRestartCounter
  rpcType := rpcType
  checksum := magicNumber
  payloadLen := payloadLen

def MessageType.bits : MessageType → Word .w16
  | .request => 1
  | .response => 2
  | .other => 0

def PackageHeader.setMessageType (h : PackageHeader) (type : MessageType) : PackageHeader :=
  { h with flags := h.flags ||| type.bits }

def PackageHeader.getMessageType (h : PackageHeader) : MessageType :=
  if h.flags &&& maskMessageTypeBits = 1 then .request
  else if h.flags &&& maskMessageTypeBits = 2 then .response
  else .other

theorem PackageHeader.getMessageType_request (p t s : Word .w16) (i n : Word .w64) :
    ((make p t i s n).setMessageType .request).getMessageType = .request := by
  have h : ((make p t i s n).setMessageType .request).flags &&& maskMessageTypeBits = 1 := by
    show ((0 : Word .w16) ||| 1) &&& maskMessageTypeBits = 1
    decide
  rw [getMessageType,if_pos h]

theorem PackageHeader.getMessageType_response (p t s : Word .w16) (i n : Word .w64) :
    ((make p t i s n).setMessageType .response).getMessageType = .response := by
  have h : ((make p t i s n).setMessageType .response).flags &&& maskMessageTypeBits = 2 := by
    show ((0 : Word .w16) ||| 2) &&& maskMessageTypeBits = 2
    decide
  rw [getMessageType,h,if_neg (by decide),if_pos rfl]

/-- The `STATIC_REFLECT` of the header, whose last two members are not declared in
this order. -/
def headerReflection : Reflection where
  Name := Unit
  members _ := [.int .w16,.int .w16,.int .w16,.int .w16,.int .w64,.int .w16,.int .w16,
    .int .w64,.int .w32]
  members_ne _ := by simp
  rank _ := 0
  height := 0
  rank_le := flat_rank_le
  rank_lt _ _ h := by simp at h

def PackageHeader.members (h : PackageHeader) : Members headerReflection
    (headerReflection.members ()) :=
  .cons (.int h.version) (.cons (.int h.reserved) (.cons (.int h.serverPort)
    (.cons (.int h.flags) (.cons (.int h.rpcId) (.cons (.int h.processRestartCounter)
      (.cons (.int h.rpcType) (.cons (.int h.payloadLen) (.cons (.int h.checksum) .nil))))))))

def PackageHeader.toVal (h : PackageHeader) : Val headerReflection (.struct ()) :=
  .struct h.members

def PackageHeader.ofVal : Val headerReflection (.struct ()) → PackageHeader
  | .struct (.cons (.int version) (.cons (.int reserved) (.cons (.int serverPort)
    (.cons (.int flags) (.cons (.int rpcId) (.cons (.int counter)
      (.cons (.int rpcType) (.cons (.int payloadLen) (.cons (.int checksum) .nil))))))))) =>
    ⟨version,reserved,serverPort,flags,rpcId,counter,rpcType,checksum,payloadLen⟩

def headerDefaults : Defaults headerReflection := fun _ => PackageHeader.default.members

@[simp] theorem PackageHeader.ofVal_toVal (h : PackageHeader) : ofVal h.toVal = h := rfl

def serializeHeader (e : Endian) (bufferLen : Int) (h : PackageHeader) : SerM Unit :=
  serialize e bufferLen h.toVal

def deserializeHeader (inp : Input) (h : PackageHeader) : DesM PackageHeader :=
  PackageHeader.ofVal <$> deserialize headerDefaults inp (.struct ()) h.toVal

def headerSize (h : PackageHeader) : Nat := getSerializeSize h.toVal

@[simp] theorem headerSize_eq (h : PackageHeader) : headerSize h = 32 := rfl

def PackageHeader.bytes (h : PackageHeader) : List UInt8 := encode h.toVal

@[simp] theorem PackageHeader.bytes_length (h : PackageHeader) : h.bytes.length = 32 :=
  encode_length h.toVal

theorem PackageHeader.bytes_eq (h : PackageHeader) :
    h.bytes = leBytes 2 h.version.toNat ++ (leBytes 2 h.reserved.toNat ++
      (leBytes 2 h.serverPort.toNat ++ (leBytes 2 h.flags.toNat ++ (leBytes 8 h.rpcId.toNat ++
        (leBytes 2 h.processRestartCounter.toNat ++ (leBytes 2 h.rpcType.toNat ++
          (leBytes 8 h.payloadLen.toNat ++ (leBytes 4 h.checksum.toNat ++ [])))))))) := rfl

theorem absorb_header (h data : PackageHeader) :
    absorb headerDefaults data.toVal h.toVal = h.toVal := rfl

theorem serializeHeader_writes (e : Endian) (bufferLen : Int) (h : PackageHeader) :
    Writes bufferLen (serializeHeader e bufferLen h) h.bytes :=
  serialize_writes e bufferLen h.toVal (show 32 < 2 ^ 63 by decide)

theorem deserializeHeader_reads {inp : Input} (hs : inp.Sound) (h data : PackageHeader) :
    Reads inp (deserializeHeader inp data) h.bytes h := by
  have hr := (deserialize_reads headerDefaults hs h.toVal data.toVal
    ⟨trivial,trivial,trivial,trivial,trivial,trivial,trivial,trivial,trivial,trivial⟩).map
    PackageHeader.ofVal
  rwa [absorb_header] at hr

def PackageHeader.parse (bs : List UInt8) : PackageHeader where
  version := BitVec.ofNat _ (leValue (slice bs 0 2))
  reserved := BitVec.ofNat _ (leValue (slice bs 2 2))
  serverPort := BitVec.ofNat _ (leValue (slice bs 4 2))
  flags := BitVec.ofNat _ (leValue (slice bs 6 2))
  rpcId := BitVec.ofNat _ (leValue (slice bs 8 8))
  processRestartCounter := BitVec.ofNat _ (leValue (slice bs 16 2))
  rpcType := BitVec.ofNat _ (leValue (slice bs 18 2))
  payloadLen := BitVec.ofNat _ (leValue (slice bs 20 8))
  checksum := BitVec.ofNat _ (leValue (slice bs 28 4))

theorem leBytes_parsed {bs : List UInt8} {at_ : Nat} (n : Nat) (h : at_ + n ≤ bs.length) :
    leBytes n (BitVec.ofNat (8 * n) (leValue (slice bs at_ n))).toNat = slice bs at_ n :=
  leBytes_ofNat_leValue _ _ (slice_length h)

/-- Any 32 bytes are the encoding of some header. -/
theorem PackageHeader.bytes_parse {bs : List UInt8} (h : bs.length = 32) :
    (parse bs).bytes = bs := by
  have hall : slice bs 0 32 = bs := by
    simp only [slice,List.drop_zero]
    exact List.take_of_length_le (by omega)
  rw [bytes_eq]
  simp only [parse,Width.sizeof]
  rw [leBytes_parsed 2 (by omega),leBytes_parsed 2 (by omega),leBytes_parsed 2 (by omega),
    leBytes_parsed 2 (by omega),leBytes_parsed 8 (by omega),leBytes_parsed 2 (by omega),
    leBytes_parsed 2 (by omega),leBytes_parsed 8 (by omega),leBytes_parsed 4 (by omega),
    List.append_nil,← slice_append,← slice_append,← slice_append,← slice_append,
    ← slice_append,← slice_append,← slice_append,← slice_append]
  exact hall

end NewRpc.Net
