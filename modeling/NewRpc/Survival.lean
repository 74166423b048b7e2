import NewRpc.Outcome

/-!
Which connections `receive` survives, and which messages it acts on.
-/

set_option autoImplicit false

namespace NewRpc.Net
open Bytes Codec

/-- `receive` closes the connection with the process alive, and acts on the message only
if its header is one this code base writes and names a function it serves. -/
structure Survives {R : Reflection} (D : Defaults R) (p : Platform) (ndebug : Bool)
    (reg : Register R) (socket : Socket) (s : CoroFrameWork R) : Prop where
  alive : ∀ stop, (receive D p ndebug reg socket s).1 ≠ .died stop
  valid : Dispatched s (receive D p ndebug reg socket s).2 →
    socket.header.checksum = PackageHeader.magicNumber ∧
      (socket.header.getMessageType = .request ∧ (reg socket.header.rpcType).isSome ∨
        socket.header.getMessageType = .response)

/-- The connections `receive` can take. A build with assertions needs the checksum, then
either a payload that never reaches anybody or one of at most 96 bytes that is not
refused. A build without them needs a known message type, and with a wrong checksum
that nobody takes the message. -/
def Harmless {R : Reflection} (D : Defaults R) (p : Platform) (ndebug : Bool)
    (reg : Register R) (socket : Socket) (s : CoroFrameWork R) : Prop :=
  socket.remote = none ∨ socket.stream.length < 32 ∨ p.heap < socket.payloadLen ∨
    if ndebug then
      socket.stream.length < 32 + socket.payloadLen ∨
        socket.header.getMessageType ≠ .other ∧
          (socket.header.checksum = PackageHeader.magicNumber ∨
            Undecodable D p reg s socket.header socket.payload ∨ ¬ Addressed reg s socket.header)
    else
      socket.header.checksum = PackageHeader.magicNumber ∧
        (socket.stream.length < 32 + socket.payloadLen ∨
          Undecodable D p reg s socket.header socket.payload ∨
            socket.payloadLen ≤ 96 ∧
              (socket.header.getMessageType = .response ∨ Addressed reg s socket.header))

theorem survives_of_closed {R : Reflection} {D : Defaults R} {p : Platform} {ndebug : Bool}
    {reg : Register R} {socket : Socket} {s s' : CoroFrameWork R}
    (h : receive D p ndebug reg socket s = (.closed,s'))
    (hv : Dispatched s s' → socket.header.checksum = PackageHeader.magicNumber ∧
      Addressed reg s socket.header) : Survives D p ndebug reg socket s where
  alive stop := by simp [h]
  valid hd := by
    rw [h] at hd
    exact ⟨(hv hd).1,(hv hd).2.served⟩

theorem not_survives_of_died {R : Reflection} {D : Defaults R} {p : Platform} {ndebug : Bool}
    {reg : Register R} {socket : Socket} {s s' : CoroFrameWork R} {e : Stop}
    (h : receive D p ndebug reg socket s = (.died e,s')) : ¬ Survives D p ndebug reg socket s :=
  fun hs => hs.alive e (by rw [h])

theorem survives_of_dropped {R : Reflection} {D : Defaults R} {p : Platform} {ndebug : Bool}
    {reg : Register R} {socket : Socket} {s : CoroFrameWork R}
    (h : receive D p ndebug reg socket s = (.dropped,s)) : Survives D p ndebug reg socket s where
  alive stop := by simp [h]
  valid hd := absurd hd (by rw [h]; exact not_dispatched rfl rfl)

/-- With the message in memory, the outcome is that of `dispatch`. -/
theorem survives_iff_of_read {R : Reflection} (D : Defaults R) {p : Platform} {ndebug : Bool}
    (reg : Register R) {socket : Socket} {remote : Address} (s : CoroFrameWork R)
    (hr : socket.remote = some remote) (h : Read p ndebug socket) :
    Survives D p ndebug reg socket s ↔
      (Undecodable D p reg s socket.header socket.payload ∨
        if ndebug then socket.header.getMessageType ≠ .other ∧
          (socket.header.checksum = PackageHeader.magicNumber ∨ ¬ Addressed reg s socket.header)
        else socket.payloadLen ≤ 96 ∧
          (socket.header.getMessageType = .response ∨ Addressed reg s socket.header)) := by
  have ho := receive_outcome D reg s hr h
  generalize hrec : receive D p ndebug reg socket s = out at ho
  cases ho with
  | undecodable hu => exact ⟨fun _ => .inl hu,fun _ => survives_of_dropped hrec⟩
  | unknown ht =>
    have hu : ¬ Undecodable D p reg s socket.header socket.payload := fun hu => hu.type ht
    have ha : ¬ Addressed reg s socket.header := fun ha => ha.type ht
    cases ndebug <;> simp [hu,ha,ht,not_survives_of_died hrec]
  | refused s' ht hu ha hn =>
    subst hn
    simp [hu,ha,ht,not_survives_of_died hrec]
  | tooLong s' hto hu hn hlong =>
    subst hn
    simp [hu,not_survives_of_died hrec,Nat.not_le.mpr hlong]
  | closed s' ht hu hsize hiff =>
    cases ndebug with
    | false =>
      have hs : socket.payloadLen ≤ 96 ∧
          (socket.header.getMessageType = .response ∨ Addressed reg s socket.header) := by
        simpa using hsize
      have hc : socket.header.checksum = PackageHeader.magicNumber := by simpa using h.checksum
      exact iff_of_true (survives_of_closed hrec (fun hd => ⟨hc,hiff.mp hd⟩)) (.inr hs)
    | true =>
      simp only [hu,ht,false_or,if_true,ne_eq,not_false_eq_true,true_and]
      constructor
      · intro hS
        by_cases ha : Addressed reg s socket.header
        · exact .inl (hS.valid (by rw [hrec]; exact hiff.mpr ha)).1
        · exact .inr ha
      · intro hc
        refine survives_of_closed hrec (fun hd => ⟨?_,hiff.mp hd⟩)
        exact hc.resolve_right (not_not_intro (hiff.mp hd))

theorem harmless_iff_of_read {R : Reflection} (D : Defaults R) {p : Platform} {ndebug : Bool}
    (reg : Register R) {socket : Socket} {remote : Address} (s : CoroFrameWork R)
    (hr : socket.remote = some remote) (h : Read p ndebug socket) :
    Harmless D p ndebug reg socket s ↔
      (Undecodable D p reg s socket.header socket.payload ∨
        if ndebug then socket.header.getMessageType ≠ .other ∧
          (socket.header.checksum = PackageHeader.magicNumber ∨ ¬ Addressed reg s socket.header)
        else socket.payloadLen ≤ 96 ∧
          (socket.header.getMessageType = .response ∨ Addressed reg s socket.header)) := by
  simp only [Harmless,hr,h.header,h.memory,h.payload,reduceCtorEq,false_or]
  cases ndebug with
  | true =>
    simp only [if_true]
    constructor
    · intro hu
      rcases hu with ⟨ht,hc | hu | ha⟩
      · exact .inr ⟨ht,.inl hc⟩
      · exact .inl hu
      · exact .inr ⟨ht,.inr ha⟩
    · intro hu
      rcases hu with hu | ⟨ht,hc | ha⟩
      · exact ⟨hu.type,.inr (.inl hu)⟩
      · exact ⟨ht,.inl hc⟩
      · exact ⟨ht,.inr (.inr ha)⟩
  | false =>
    have hc : socket.header.checksum = PackageHeader.magicNumber := by simpa using h.checksum
    simp [hc]

theorem survives_iff_harmless {R : Reflection} (D : Defaults R) (p : Platform) (ndebug : Bool)
    (reg : Register R) (socket : Socket) (s : CoroFrameWork R) :
    Survives D p ndebug reg socket s ↔ Harmless D p ndebug reg socket s := by
  cases hr : socket.remote with
  | none =>
    have hd : receive D p ndebug reg socket s = (.dropped,s) := by simp only [receive,hr]
    exact iff_of_true (survives_of_dropped hd) (.inl hr)
  | some remote =>
    have hbody := receiveBody_eq D p ndebug reg (peerAt remote) socket s
    have hdrop : receiveBody D p ndebug reg (peerAt remote) socket s = .error .exception s →
        Survives D p ndebug reg socket s := by
      intro he
      exact survives_of_dropped (by simp only [receive,hr,he]; rfl)
    by_cases hshort : socket.stream.length < 32
    · rw [if_pos hshort] at hbody
      exact iff_of_true (hdrop hbody) (.inr (.inl hshort))
    rw [if_neg hshort] at hbody
    by_cases hmem : p.heap < socket.payloadLen
    · rw [if_pos hmem] at hbody
      exact iff_of_true (hdrop hbody) (.inr (.inr (.inl hmem)))
    rw [if_neg hmem] at hbody
    by_cases hsum : ndebug = true ∨ socket.header.checksum = PackageHeader.magicNumber
    · rw [if_neg (not_not_intro hsum)] at hbody
      by_cases hcut : socket.stream.length < 32 + socket.payloadLen
      · rw [if_pos hcut] at hbody
        refine iff_of_true (hdrop hbody) (.inr (.inr (.inr ?_)))
        cases ndebug with
        | true => exact .inl hcut
        | false => exact ⟨by simpa using hsum,.inl hcut⟩
      · have hread : Read p ndebug socket := ⟨hshort,hmem,hsum,hcut⟩
        exact (survives_iff_of_read D reg s hr hread).trans (harmless_iff_of_read D reg s hr hread).symm
    · rw [if_pos hsum] at hbody
      have hdied : receive D p ndebug reg socket s = (.died (.assertion .checksum),s) := by
        simp only [receive,hr,hbody]
        rfl
      have hn : ndebug = false := by simpa using fun h => hsum (.inl h)
      have hc : socket.header.checksum ≠ PackageHeader.magicNumber := fun h => hsum (.inr h)
      refine iff_of_false (not_survives_of_died hdied) ?_
      simp [Harmless,hr,hshort,hmem,hn,hc]

def serving : Register personReflection := fun id => if id = 1 then some ⟨[.int .w32],.bool⟩ else none

def idle : CoroFrameWork personReflection where
  net := ⟨8888,fun _ => none,fun _ => RpcBase.init ⟨[],.bool⟩ 0⟩
  stopFlag := false
  runningCoroCnt := 0
  coroutineQueue := []
  created := []

def zeros : Socket := ⟨some (1,7),List.replicate 32 0,[]⟩

/-- Thirty-two zero bytes end a process: by the assertion on the checksum or, without
assertions, by the `abort` for an unknown message type. -/
theorem zeros_not_survived :
    ¬ Survives personDefaults .small false serving zeros idle ∧
      ¬ Survives personDefaults .small true serving zeros idle := by
  have hread : Read .small true zeros := ⟨by decide,by decide,.inl rfl,by decide⟩
  have htype : zeros.header.getMessageType = .other := by decide
  have hstop : dispatch personDefaults .small true serving zeros.header (peerAt (1,7))
      zeros.payload idle = .error .abort idle := by
    simp only [dispatch,htype]
    rfl
  have hrelease := @receive_read _ personDefaults _ _ serving _ (1,7) idle rfl hread
  rw [hstop] at hrelease
  have hbody := receiveBody_eq personDefaults .small false serving (peerAt (1,7)) zeros idle
  rw [if_neg hread.header,if_neg hread.memory,if_pos (by decide)] at hbody
  have hdebug : receive personDefaults .small false serving zeros idle =
      (.died (.assertion .checksum),idle) := by
    simp only [receive,zeros] at hbody ⊢
    rw [hbody]
    rfl
  exact ⟨not_survives_of_died hdebug,not_survives_of_died hrelease⟩

end NewRpc.Net
