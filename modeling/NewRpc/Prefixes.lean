import NewRpc.Acceptance
import NewRpc.Agreement

/-!
Where a decoder stops. What it has read ends there whatever follows, so that a message
which was cut short is never taken for another one.
-/

set_option autoImplicit false

namespace NewRpc.Codec
open Bytes

/-- What two byte strings show at one place begins with the same bytes. -/
theorem Input.Shows.common {inp : Input} {pos : Int} {a b : List UInt8} (ha : inp.Shows pos a)
    {len : Int} (hb : Input.Shows { inp with bufferLen := len } pos b) :
    ∃ r r', a ++ r = b ++ r' := by
  obtain ⟨_,_,ha⟩ := ha
  obtain ⟨_,_,hb⟩ := hb
  have hfront : ∀ c : List UInt8, slice inp.buffer pos.toNat c.length = c →
      c ++ (inp.buffer.drop pos.toNat).drop c.length = inp.buffer.drop pos.toNat := by
    intro c hc
    rw [slice] at hc
    calc c ++ (inp.buffer.drop pos.toNat).drop c.length
        = (inp.buffer.drop pos.toNat).take c.length ++
            (inp.buffer.drop pos.toNat).drop c.length := by rw [hc]
      _ = inp.buffer.drop pos.toNat := List.take_append_drop _ _
  exact ⟨_,_,(hfront a ha).trans (hfront b hb).symm⟩

/-- A decoder that meets the encoding of a value and returns has read that value. -/
theorem deserialize_of_encode {R : Reflection} {D : Defaults R} {inp : Input} (hs : inp.Sound)
    (hl : inp.limit < 2 ^ 63) {t : Ty R.Name} {data v w : Val R t} {pos pos' : Int}
    (hshow : inp.Shows pos (encode v)) (h : deserialize D inp t data pos = .ok w pos') :
    w = absorb D data v ∧ pos' = pos + getSerializeSize v := by
  have hsize : getSerializeSize v < 2 ^ 63 := by
    have hlen := encode_length v
    have hfit := hshow.2.1
    have hmax := hs.2
    have h0 := hshow.1
    omega
  obtain ⟨u,hu⟩ := deserialize_accepts h
  obtain ⟨bs,⟨hspells,_⟩,hbs,hend⟩ := hu.takes hs hl hshow.1 (by
    have hfit := hshow.2.1
    omega)
  obtain ⟨r,r',heq⟩ := hshow.common hbs
  obtain ⟨rfl,rfl,_⟩ := Spells.unique v u _ bs r r' (spells_encode v hsize) hspells heq
  have hw := (hu.result data).symm.trans h
  injection hw with hw
  exact ⟨hw.symm,by rw [hend,encode_length]⟩

theorem decodeArgs_of_encode {R : Reflection} {D : Defaults R} {p : Net.Platform}
    {ts : List (Ty R.Name)} {args w : Members R ts} (hlen : membersSize args < 2 ^ 63)
    (h : Net.decodeArgs D p ts (encodeMembers args) = .ok w) :
    w = absorbMembers D (Members.fresh D ts) args := by
  have haddr := p.addressable
  have hsound : (p.input (encodeMembers args)).Sound :=
    ⟨Int.le_refl _,by simp [encodeMembers_length]; omega⟩
  unfold Net.decodeArgs at h
  cases hd : Net.deserializeArgs D (p.input (encodeMembers args)) ts 0 with
  | error e pos => simp [hd] at h
  | ok w' pos =>
    simp only [hd,Except.ok.injEq] at h
    subst h
    obtain ⟨ms,hms⟩ := deserializeMembers_accepts
      (fun _ _ _ _ _ hr => deserialize_accepts hr) (Members.fresh D ts) hd
    obtain ⟨bs,⟨hspells,_⟩,hbs,_⟩ := hms.takes hsound (show p.limit < 2 ^ 63 by omega)
      (Int.le_refl 0) (show (0 : Int) ≤ _ by simp)
    obtain ⟨r,r',heq⟩ := (p.input_shows (encodeMembers args)).common hbs
    obtain ⟨rfl,_,_⟩ := SpellsMembers.unique args ms _ bs r r'
      (spellsMembers_encode args (by omega)) hspells heq
    have hw := hd.symm.trans (hms.result (Members.fresh D ts))
    injection hw

theorem decodeResult_of_encode {R : Reflection} {D : Defaults R} {p : Net.Platform}
    {t : Ty R.Name} {v w : Val R t} (hlen : getSerializeSize v < 2 ^ 63)
    (h : Net.decodeResult D p t (encode v) = .ok w) : w = absorb D (Val.fresh D t) v := by
  have haddr := p.addressable
  have hsound : (p.input (encode v)).Sound :=
    ⟨Int.le_refl _,by simp [encode_length]; omega⟩
  unfold Net.decodeResult at h
  cases hd : deserialize D (p.input (encode v)) t (Val.fresh D t) 0 with
  | error e pos => simp [hd] at h
  | ok w' pos =>
    simp only [hd,Except.ok.injEq] at h
    subst h
    exact (deserialize_of_encode hsound (show p.limit < 2 ^ 63 by omega)
      (p.input_shows (encode v)) hd).1

/-- Whatever a decoder has read, of any front that is shorter it reads nothing: into any
target it throws. -/
theorem cut_short_throws {R : Reflection} (D : Defaults R) {inp : Input} (hs : inp.Safe)
    {t : Ty R.Name} {data w : Val R t} {pos pos' : Int} (h0 : 0 ≤ pos) (hp : pos ≤ inp.bufferLen)
    (h : deserialize D inp t data pos = .ok w pos') {len : Int} (hpos : pos ≤ len)
    (hcut : len < pos') (data' : Val R t) :
    ∃ e pos'', deserialize D { inp with bufferLen := len } t data' pos = .error e pos'' ∧
      e.isException = true := by
  have ha := hs.addressable
  have hlen := hs.sound.1
  have hin := ((deserialize_stays D hs t data h0 hp).ok h).2
  have hs' : Input.Safe { inp with bufferLen := len } :=
    ⟨⟨show len ≤ inp.buffer.length by omega,show len < 2 ^ 63 by omega⟩,
      show len + inp.limit < 2 ^ 63 by omega⟩
  have hstays := deserialize_stays D hs' t data' h0 hpos
  cases hd : deserialize D { inp with bufferLen := len } t data' pos with
  | error e pos'' => exact ⟨e,pos'',rfl,hstays.error hd⟩
  | ok w' pos'' =>
    exfalso
    have hin' : pos'' ≤ len := (hstays.ok hd).2
    obtain ⟨v,hv⟩ := deserialize_accepts h
    obtain ⟨v',hv'⟩ := deserialize_accepts hd
    obtain ⟨bs,⟨hspells,_⟩,hbs,hend⟩ := hv.takes hs.sound (by omega) h0 hp
    obtain ⟨bs',⟨hspells',_⟩,hbs',hend'⟩ := hv'.takes hs'.sound (show inp.limit < 2 ^ 63 by omega)
      h0 hpos
    obtain ⟨r,r',heq⟩ := hbs.common hbs'
    obtain ⟨_,rfl,_⟩ := Spells.unique v v' bs bs' r r' hspells hspells' heq
    omega

theorem elevenBytes_throw : ∃ e pos'', deserialize personDefaults
    ⟨List.replicate 12 0,11,.little,64⟩ (.struct ()) (person [98,99] 7) 0 = .error e pos'' ∧
      e.isException = true :=
  @cut_short_throws _ personDefaults ⟨List.replicate 12 0,12,.little,64⟩
    ⟨⟨by decide,by decide⟩,by decide⟩ (.struct ()) (person [] 0) (person [] 0) 0 12
    (by decide) (by decide) rfl 11 (by decide) (by decide) (person [98,99] 7)

end NewRpc.Codec
