import NewRpc.Message

/-!
A connection that hands out its bytes in pieces of any size, and the loop that
reads a fixed number of them.
-/

set_option autoImplicit false

namespace NewRpc.Net
open Bytes

/-- The bytes the peer sends before it ends the connection, and how many of them
each read finds there. `remote_endpoint` fails once the peer is gone. -/
structure Socket where
  remote : Option Address
  stream : List UInt8
  pace : List Nat

def Socket.asyncReadSome (room : Nat) (socket : Socket) : Except Stop (List UInt8 × Socket) :=
  if socket.stream = [] then .error .exception
  else
    let n := min room (max 1 (socket.pace.headD room))
    .ok (socket.stream.take n,{ socket with
      stream := socket.stream.drop n
      pace := socket.pace.tail })

/-- `while (read_idx < size)` over a buffer; a read returns at least one byte, so
`size` rounds are enough. -/
def readLoop (size : Nat) : Nat → List UInt8 → Nat → Socket → Except Stop (List UInt8 × Socket)
  | 0, data, _, socket => .ok (data,socket)
  | rounds+1, data, readIdx, socket =>
      if readIdx < size then do
        let (bytes,socket) ← socket.asyncReadSome (size - readIdx)
        readLoop size rounds (splice data readIdx bytes) (readIdx + bytes.length) socket
      else .ok (data,socket)

def Socket.readBytes (socket : Socket) (size : Nat) (data : List UInt8) :
    Except Stop (List UInt8 × Socket) :=
  readLoop size size data 0 socket

theorem readLoop_short {size rounds readIdx : Nat} {data : List UInt8} {socket : Socket}
    (hr : size ≤ readIdx + rounds) (h : readIdx + socket.stream.length < size) :
    readLoop size rounds data readIdx socket = .error .exception := by
  induction rounds generalizing data readIdx socket with
  | zero => omega
  | succ rounds ih =>
    rw [readLoop,if_pos (by omega),Socket.asyncReadSome]
    by_cases hs : socket.stream = []
    · rw [if_pos hs]
      rfl
    · rw [if_neg hs,Exec.ok_bind]
      have hlen := List.length_pos_iff.mpr hs
      exact ih (by simp only [List.length_take]; omega)
        (by simp only [List.length_take,List.length_drop]; omega)

/-- However the stream is cut, the loop ends with its next bytes in the buffer. -/
theorem readLoop_full {size rounds readIdx : Nat} {data : List UInt8} {socket : Socket}
    (hr : size ≤ readIdx + rounds) (hi : readIdx ≤ size) (hd : size ≤ data.length)
    (h : size ≤ readIdx + socket.stream.length) :
    ∃ pace, readLoop size rounds data readIdx socket =
      .ok (splice data readIdx (socket.stream.take (size - readIdx)),
        ⟨socket.remote,socket.stream.drop (size - readIdx),pace⟩) := by
  induction rounds generalizing data readIdx socket with
  | zero =>
    have he : size - readIdx = 0 := by omega
    exact ⟨socket.pace,by simp [readLoop,he]⟩
  | succ rounds ih =>
    rw [readLoop]
    by_cases hlt : readIdx < size
    · have hs : socket.stream ≠ [] := by
        intro hn
        rw [hn] at h
        simp at h
        omega
      have hlen := List.length_pos_iff.mpr hs
      rw [if_pos hlt,Socket.asyncReadSome,if_neg hs,Exec.ok_bind]
      simp only
      obtain ⟨n,hn⟩ : ∃ n, n = min (size - readIdx) (max 1 (socket.pace.headD (size - readIdx))) :=
        ⟨_,rfl⟩
      rw [← hn]
      have htake : (socket.stream.take n).length = n := by
        rw [List.length_take]
        omega
      obtain ⟨pace,hp⟩ := @ih (readIdx + n) (splice data readIdx (socket.stream.take n))
        ⟨socket.remote,socket.stream.drop n,socket.pace.tail⟩
        (by omega) (by omega) (by rw [splice_length (by omega)]; exact hd)
        (by simp only [List.length_drop]; omega)
      have hsum : size - readIdx = n + (size - (readIdx + n)) := by omega
      have hroom : readIdx + (socket.stream.take n ++
          (socket.stream.drop n).take (size - (readIdx + n))).length ≤ data.length := by
        simp only [List.length_append,List.length_take,List.length_drop]
        omega
      have hjoin := splice_splice hroom
      rw [htake] at hjoin
      refine ⟨pace,?_⟩
      rw [htake,hp,hsum,List.take_add,← List.drop_drop,hjoin]
    · have he : size - readIdx = 0 := by omega
      exact ⟨socket.pace,by rw [if_neg hlt,he]; simp⟩

end NewRpc.Net
