import NewRpc.DecodeSafety

/-!
The byte strings that are read as a value. Several may be: a bool is any byte, and an
enumeration any word that narrows to it.
-/

set_option autoImplicit false

namespace NewRpc.Codec
open Bytes

mutual
def Spells {R : Reflection} : {t : Ty R.Name} → Val R t → List UInt8 → Prop
  | .int w, .int v, bs => bs = leBytes w.sizeof v.toNat
  | .bool, .bool b, bs => ∃ word : BitVec (8 * 1), bs = leBytes 1 word.toNat ∧ (word != 0) = b
  | .enum u, .enum v, bs => ∃ word : I64, bs = leBytes 8 word.toNat ∧ u.ofInt64 word = v
  | .ptr _, .null, bs => ∃ word : BitVec (8 * 1), bs = leBytes 1 word.toNat ∧ (word != 0) = true
  | .ptr _, .ref v, bs => ∃ cs, bs = leBytes 1 (boolWord false).toNat ++ cs ∧ Spells v cs
  | .string, .string s, bs => bs = leBytes 8 s.length ++ s ∧ s.length < 2 ^ 63
  | .vector _, .vector vs, bs =>
      ∃ cs, bs = leBytes 8 vs.length ++ cs ∧ vs.length < 2 ^ 63 ∧ SpellsElements vs cs
  | .struct _, .struct ms, bs => SpellsMembers ms bs

def SpellsElements {R : Reflection} : {t : Ty R.Name} → Vals R t → List UInt8 → Prop
  | _, .nil, bs => bs = []
  | _, .cons v vs, bs => ∃ as cs, bs = as ++ cs ∧ Spells v as ∧ SpellsElements vs cs

def SpellsMembers {R : Reflection} : {ts : List (Ty R.Name)} → Members R ts → List UInt8 → Prop
  | _, .nil, bs => bs = []
  | _, .cons v ms, bs => ∃ as cs, bs = as ++ cs ∧ Spells v as ∧ SpellsMembers ms cs
end

theorem word_append {n : Nat} {v w : BitVec (8 * n)} {r r' : List UInt8}
    (h : leBytes n v.toNat ++ r = leBytes n w.toNat ++ r') : v = w ∧ r = r' := by
  obtain ⟨hw,hr⟩ := List.append_inj h (by simp)
  refine ⟨?_,hr⟩
  rw [← ofNat_leValue_leBytes n v,hw,ofNat_leValue_leBytes]

theorem length_append {m n : Nat} (hm : m < 2 ^ 63) (hn : n < 2 ^ 63) {r r' : List UInt8}
    (h : leBytes 8 m ++ r = leBytes 8 n ++ r') : m = n ∧ r = r' := by
  rw [← toNat_ofNat hm,← toNat_ofNat hn] at h
  obtain ⟨hw,hr⟩ := word_append h
  have ht := congrArg BitVec.toNat hw
  rw [toNat_ofNat hm,toNat_ofNat hn] at ht
  exact ⟨ht,hr⟩

mutual
/-- What is read from a byte string is settled by its front. -/
theorem Spells.unique {R : Reflection} : {t : Ty R.Name} → (v w : Val R t) →
    (a b r r' : List UInt8) → Spells v a → Spells w b → a ++ r = b ++ r' →
    v = w ∧ a = b ∧ r = r'
  | .int _, .int v, .int w, _, _, _, _, ha, hb, h => by
      rw [Spells] at ha hb
      subst ha hb
      obtain ⟨rfl,hr⟩ := word_append h
      exact ⟨rfl,rfl,hr⟩
  | .bool, .bool _, .bool _, _, _, _, _, ha, hb, h => by
      rw [Spells] at ha hb
      obtain ⟨x,rfl,rfl⟩ := ha
      obtain ⟨y,rfl,rfl⟩ := hb
      obtain ⟨rfl,hr⟩ := word_append h
      exact ⟨rfl,rfl,hr⟩
  | .enum _, .enum _, .enum _, _, _, _, _, ha, hb, h => by
      rw [Spells] at ha hb
      obtain ⟨x,rfl,rfl⟩ := ha
      obtain ⟨y,rfl,rfl⟩ := hb
      obtain ⟨rfl,hr⟩ := word_append h
      exact ⟨rfl,rfl,hr⟩
  | .ptr _, .null, .null, _, _, _, _, ha, hb, h => by
      rw [Spells] at ha hb
      obtain ⟨x,rfl,_⟩ := ha
      obtain ⟨y,rfl,_⟩ := hb
      obtain ⟨rfl,hr⟩ := word_append h
      exact ⟨rfl,rfl,hr⟩
  | .ptr _, .null, .ref _, _, _, _, _, ha, hb, h => by
      rw [Spells] at ha
      rw [Spells] at hb
      obtain ⟨x,rfl,hx⟩ := ha
      obtain ⟨cs,rfl,_⟩ := hb
      rw [List.append_assoc] at h
      obtain ⟨rfl,_⟩ := word_append h
      exact absurd hx (by decide)
  | .ptr _, .ref _, .null, _, _, _, _, ha, hb, h => by
      rw [Spells] at ha
      rw [Spells] at hb
      obtain ⟨cs,rfl,_⟩ := ha
      obtain ⟨x,rfl,hx⟩ := hb
      rw [List.append_assoc] at h
      obtain ⟨rfl,_⟩ := word_append h
      exact absurd hx (by decide)
  | .ptr _, .ref v, .ref w, _, _, _, _, ha, hb, h => by
      rw [Spells] at ha hb
      obtain ⟨cs,rfl,hv⟩ := ha
      obtain ⟨ds,rfl,hw⟩ := hb
      rw [List.append_assoc,List.append_assoc] at h
      obtain ⟨rfl,rfl,hr⟩ := Spells.unique v w cs ds _ _ hv hw (word_append h).2
      exact ⟨rfl,rfl,hr⟩
  | .string, .string _, .string _, _, _, _, _, ha, hb, h => by
      rw [Spells] at ha hb
      obtain ⟨rfl,hm⟩ := ha
      obtain ⟨rfl,hn⟩ := hb
      rw [List.append_assoc,List.append_assoc] at h
      obtain ⟨hlen,hrest⟩ := length_append hm hn h
      obtain ⟨rfl,hr⟩ := List.append_inj hrest hlen
      exact ⟨rfl,rfl,hr⟩
  | .vector _, .vector vs, .vector ws, _, _, _, _, ha, hb, h => by
      rw [Spells] at ha hb
      obtain ⟨cs,rfl,hm,hv⟩ := ha
      obtain ⟨ds,rfl,hn,hw⟩ := hb
      rw [List.append_assoc,List.append_assoc] at h
      obtain ⟨hlen,hrest⟩ := length_append hm hn h
      obtain ⟨rfl,rfl,hr⟩ := SpellsElements.unique vs ws cs ds _ _ hlen hv hw hrest
      exact ⟨rfl,rfl,hr⟩
  | .struct _, .struct ms, .struct ns, _, _, _, _, ha, hb, h => by
      rw [Spells] at ha hb
      obtain ⟨rfl,hs⟩ := SpellsMembers.unique ms ns _ _ _ _ ha hb h
      exact ⟨rfl,hs⟩

theorem SpellsElements.unique {R : Reflection} : {t : Ty R.Name} → (vs ws : Vals R t) →
    (a b r r' : List UInt8) → vs.length = ws.length → SpellsElements vs a →
    SpellsElements ws b → a ++ r = b ++ r' → vs = ws ∧ a = b ∧ r = r'
  | _, .nil, .nil, _, _, _, _, _, ha, hb, h => by
      rw [SpellsElements] at ha hb
      subst ha hb
      exact ⟨rfl,rfl,h⟩
  | _, .nil, .cons _ _, _, _, _, _, hlen, _, _, _ => by simp [Vals.length] at hlen
  | _, .cons _ _, .nil, _, _, _, _, hlen, _, _, _ => by simp [Vals.length] at hlen
  | _, .cons v vs, .cons w ws, _, _, _, _, hlen, ha, hb, h => by
      rw [SpellsElements] at ha hb
      obtain ⟨a,as,rfl,hv,hvs⟩ := ha
      obtain ⟨b,bs,rfl,hw,hws⟩ := hb
      rw [List.append_assoc,List.append_assoc] at h
      obtain ⟨rfl,rfl,h'⟩ := Spells.unique v w a b _ _ hv hw h
      obtain ⟨rfl,rfl,hr⟩ := SpellsElements.unique vs ws as bs _ _
        (by simpa [Vals.length] using hlen) hvs hws h'
      exact ⟨rfl,rfl,hr⟩

theorem SpellsMembers.unique {R : Reflection} : {ts : List (Ty R.Name)} → (ms ns : Members R ts) →
    (a b r r' : List UInt8) → SpellsMembers ms a → SpellsMembers ns b → a ++ r = b ++ r' →
    ms = ns ∧ a = b ∧ r = r'
  | _, .nil, .nil, _, _, _, _, ha, hb, h => by
      rw [SpellsMembers] at ha hb
      subst ha hb
      exact ⟨rfl,rfl,h⟩
  | _, .cons v ms, .cons w ns, _, _, _, _, ha, hb, h => by
      rw [SpellsMembers] at ha hb
      obtain ⟨a,as,rfl,hv,hms⟩ := ha
      obtain ⟨b,bs,rfl,hw,hns⟩ := hb
      rw [List.append_assoc,List.append_assoc] at h
      obtain ⟨rfl,rfl,h'⟩ := Spells.unique v w a b _ _ hv hw h
      obtain ⟨rfl,rfl,hr⟩ := SpellsMembers.unique ms ns as bs _ _ hms hns h'
      exact ⟨rfl,rfl,hr⟩
end

mutual
theorem spells_encode {R : Reflection} : {t : Ty R.Name} → (v : Val R t) →
    getSerializeSize v < 2 ^ 63 → Spells v (encode v)
  | .int _, .int _, _ => by rw [Spells,encode]
  | .bool, .bool b, _ => by
      rw [Spells]
      exact ⟨boolWord b,rfl,by cases b <;> decide⟩
  | .enum u, .enum v, _ => by
      rw [Spells]
      exact ⟨u.toInt64 v,rfl,u.ofInt64_toInt64 v⟩
  | .ptr _, .null, _ => by
      rw [Spells]
      exact ⟨boolWord true,rfl,by decide⟩
  | .ptr _, .ref v, h => by
      rw [getSerializeSize] at h
      rw [Spells]
      exact ⟨encode v,rfl,spells_encode v (by omega)⟩
  | .string, .string s, h => by
      rw [getSerializeSize] at h
      rw [Spells]
      exact ⟨rfl,by omega⟩
  | .vector _, .vector vs, h => by
      rw [getSerializeSize] at h
      have hn := length_le_elementsSize vs
      rw [Spells]
      exact ⟨encodeElements vs,rfl,by omega,spellsElements_encode vs (by omega)⟩
  | .struct _, .struct ms, h => by
      rw [Spells]
      exact spellsMembers_encode ms h

theorem spellsElements_encode {R : Reflection} : {t : Ty R.Name} → (vs : Vals R t) →
    elementsSize vs < 2 ^ 63 → SpellsElements vs (encodeElements vs)
  | _, .nil, _ => by rw [SpellsElements,encodeElements]
  | _, .cons v vs, h => by
      rw [elementsSize] at h
      rw [SpellsElements]
      exact ⟨encode v,encodeElements vs,rfl,spells_encode v (by omega),
        spellsElements_encode vs (by omega)⟩

theorem spellsMembers_encode {R : Reflection} : {ts : List (Ty R.Name)} → (ms : Members R ts) →
    membersSize ms < 2 ^ 63 → SpellsMembers ms (encodeMembers ms)
  | _, .nil, _ => by rw [SpellsMembers,encodeMembers]
  | _, .cons v ms, h => by
      rw [membersSize] at h
      rw [SpellsMembers]
      exact ⟨encode v,encodeMembers ms,rfl,spells_encode v (by omega),
        spellsMembers_encode ms (by omega)⟩
end

mutual
theorem Spells.length {R : Reflection} : {t : Ty R.Name} → (v : Val R t) → (bs : List UInt8) →
    Spells v bs → bs.length = getSerializeSize v
  | .int _, .int _, _, h => by rw [Spells] at h; simp [h,getSerializeSize]
  | .bool, .bool _, _, h => by
      rw [Spells] at h
      obtain ⟨word,rfl,_⟩ := h
      simp [getSerializeSize]
  | .enum _, .enum _, _, h => by
      rw [Spells] at h
      obtain ⟨word,rfl,_⟩ := h
      simp [getSerializeSize]
  | .ptr _, .null, _, h => by
      rw [Spells] at h
      obtain ⟨word,rfl,_⟩ := h
      simp [getSerializeSize]
  | .ptr _, .ref v, _, h => by
      rw [Spells] at h
      obtain ⟨cs,rfl,hv⟩ := h
      simp [getSerializeSize,Spells.length v cs hv]
  | .string, .string _, _, h => by
      rw [Spells] at h
      obtain ⟨rfl,_⟩ := h
      simp [getSerializeSize]
  | .vector _, .vector vs, _, h => by
      rw [Spells] at h
      obtain ⟨cs,rfl,_,hv⟩ := h
      simp [getSerializeSize,SpellsElements.length vs cs hv]
  | .struct _, .struct ms, _, h => by
      rw [Spells] at h
      rw [getSerializeSize,SpellsMembers.length ms _ h]

theorem SpellsElements.length {R : Reflection} : {t : Ty R.Name} → (vs : Vals R t) →
    (bs : List UInt8) → SpellsElements vs bs → bs.length = elementsSize vs
  | _, .nil, _, h => by rw [SpellsElements] at h; simp [h,elementsSize]
  | _, .cons v vs, _, h => by
      rw [SpellsElements] at h
      obtain ⟨as,cs,rfl,hv,hvs⟩ := h
      simp [elementsSize,Spells.length v as hv,SpellsElements.length vs cs hvs]

theorem SpellsMembers.length {R : Reflection} : {ts : List (Ty R.Name)} → (ms : Members R ts) →
    (bs : List UInt8) → SpellsMembers ms bs → bs.length = membersSize ms
  | _, .nil, _, h => by rw [SpellsMembers] at h; simp [h,membersSize]
  | _, .cons v ms, _, h => by
      rw [SpellsMembers] at h
      obtain ⟨as,cs,rfl,hv,hms⟩ := h
      simp [membersSize,Spells.length v as hv,SpellsMembers.length ms cs hms]
end

end NewRpc.Codec
