import NewRpc.Custody
import NewRpc.Message

/-!
Who owns the blocks of network memory: `NetBuffer` objects that are constructed, moved,
assigned and destroyed, alone or inside a `co_rpc` that is built call by call.
-/

set_option autoImplicit false

namespace NewRpc.Net
open Codec

structure NetBuffer where
  buffer : Option Nat
  bufferLen : Nat
  deriving DecidableEq, Repr

def NetBuffer.empty : NetBuffer := ⟨none,0⟩

def NetBuffer.move (rhs : NetBuffer) : NetBuffer × NetBuffer :=
  (⟨rhs.buffer,rhs.bufferLen⟩,⟨none,0⟩)

structure CoRpc (R : Reflection) where
  rpcBase : RpcBase R
  sendBuffer : NetBuffer
  multiRpc : Bool

def CoRpc.new {R : Reflection} (sig : Signature R) (funcId : Word .w16) : CoRpc R :=
  ⟨RpcBase.init sig funcId,.empty,false⟩

def CoRpc.move {R : Reflection} (rhs : CoRpc R) : CoRpc R × CoRpc R :=
  let (sendBuffer,left) := rhs.sendBuffer.move
  ({ rhs with sendBuffer := sendBuffer },
    { rhs with
      rpcBase := { rhs.rpcBase with
        endpoints := []
        sendBuffer := []
        receivedResults := []
        onEachFunction := none }
      sendBuffer := left })

inductive Builder (R : Reflection) where
  | withArgs (types : List (Ty R.Name)) (args : Members R types)
  | timeout (timeout : Word .w64)
  | onEach (endpoints : List EndPoint)
  | on (endpoint : EndPoint)
  | whenAll
  | whenAny
  | whenMajority
  | onEachResult (type : Ty R.Name) (func : EndPoint → Val R type → Bool → Val R type × Bool)

def Builder.allocates {R : Reflection} : Builder R → Bool
  | .withArgs _ _ => true
  | _ => false

theorem whenAll_valid : FinishCondition.whenAll ≠ .invalid := by simp

theorem whenAny_valid : FinishCondition.whenAny ≠ .invalid := by simp

theorem whenMajority_valid : FinishCondition.whenMajority ≠ .invalid := by simp

section
variable {R : Reflection} [DecidableEq R.Name]

/-- What a builder function does to its object before it is moved; `block` is the next one that
`new` returns. `none` where the types do not fit or the call does not return. -/
def CoRpc.build (p : Platform) (ndebug : Bool) (block : Nat) (c : CoRpc R) :
    Builder R → Option (CoRpc R)
  | .withArgs types args =>
      if h : types = c.rpcBase.sig.args then
        match c.rpcBase.withArgs p ndebug (h ▸ args) with
        | .error _ => none
        -- `new (&send_buffer_) NetBuffer{total_serialize_size_}`
        | .ok rpcBase => some { c with
            rpcBase := rpcBase
            sendBuffer := ⟨some block,rpcBase.totalSerializeSize⟩ }
      else none
  | .timeout timeout => some { c with rpcBase := { c.rpcBase with timeout := timeout } }
  | .onEach endpoints => some { c with rpcBase := c.rpcBase.on endpoints, multiRpc := true }
  | .on endpoint => some { c with rpcBase := c.rpcBase.on [endpoint], multiRpc := false }
  | .whenAll => some { c with rpcBase := { c.rpcBase with
      finishCondition := .whenAll
      finishValid := whenAll_valid } }
  | .whenAny => some { c with rpcBase := { c.rpcBase with
      finishCondition := .whenAny
      finishValid := whenAny_valid } }
  | .whenMajority => some { c with rpcBase := { c.rpcBase with
      finishCondition := .whenMajority
      finishValid := whenMajority_valid } }
  | .onEachResult type func =>
      if h : type = c.rpcBase.sig.ret then
        some { c with rpcBase := { c.rpcBase with onEachFunction := some (h ▸ func) } }
      else none

end

inductive NetObject (R : Reflection) where
  | netBuffer (b : NetBuffer)
  | coRpc (c : CoRpc R)

def NetObject.buffer {R : Reflection} : NetObject R → NetBuffer
  | .netBuffer b => b
  | .coRpc c => c.sendBuffer

structure NetMemory (R : Reflection) where
  objects : Nat → Option (NetObject R)
  allocated : Nat
  released : List Nat

def NetMemory.start (R : Reflection) : NetMemory R := ⟨fun _ => none,0,[]⟩

inductive BufferOperation (R : Reflection) where
  | construct (this : Nat)
  | constructSized (this size : Nat)
  | moveConstruct (this rhs : Nat)
  | moveAssign (this rhs : Nat)
  | coRpc (this : Nat) (sig : Signature R) (funcId : Word .w16)
  | build (result this : Nat) (b : Builder R)
  | destroy (this : Nat)

def NetMemory.set {R : Reflection} (s : NetMemory R) (a : Nat) (o : NetObject R) : NetMemory R :=
  { s with objects := Function.update s.objects a (some o) }

def NetMemory.place {R : Reflection} (s : NetMemory R) (a : Nat) (o : NetObject R) :
    Option (NetMemory R) :=
  if (s.objects a).isNone then some (s.set a o) else none

def NetMemory.alloc {R : Reflection} (s : NetMemory R) : NetMemory R :=
  { s with allocated := s.allocated + 1 }

def NetMemory.step {R : Reflection} [DecidableEq R.Name] (p : Platform) (ndebug : Bool)
    (s : NetMemory R) : BufferOperation R → Option (NetMemory R)
  | .construct this => s.place this (.netBuffer .empty)
  | .constructSized this size =>
      if p.heap < size then none
      else s.alloc.place this (.netBuffer ⟨some s.allocated,size⟩)
  | .moveConstruct this rhs =>
      match s.objects rhs with
      | some (.netBuffer b) => (s.set rhs (.netBuffer b.move.2)).place this (.netBuffer b.move.1)
      | _ => none
  | .moveAssign this rhs =>
      match s.objects this, s.objects rhs with
      | some (.netBuffer _), some (.netBuffer b) =>
          if rhs = this then some s
          else some ((s.set rhs (.netBuffer b.move.2)).set this (.netBuffer b.move.1))
      | _, _ => none
  | .coRpc this sig funcId => s.place this (.coRpc (.new sig funcId))
  | .build result this b =>
      match s.objects this with
      | some (.coRpc c) =>
          match c.build p ndebug s.allocated b with
          | none => none
          | some c =>
              let t := if b.allocates then s.alloc else s
              (t.set this (.coRpc c.move.2)).place result (.coRpc c.move.1)
      | _ => none
  | .destroy this =>
      match s.objects this with
      | none => none
      | some o => some { s with
          objects := Function.update s.objects this none
          released := s.released ++ o.buffer.buffer.toList }

section
variable {R : Reflection}

def NetMemory.owns (s : NetMemory R) (a : Nat) : Option Nat :=
  (s.objects a).bind (fun o => o.buffer.buffer)

def NetMemory.Live (s : NetMemory R) (block : Nat) : Prop :=
  block < s.allocated ∧ block ∉ s.released

/-- Each live block has one owner, what is owned is live, and no block is released twice; once
nothing is owned each block has been released. -/
structure NetMemory.Owned (s : NetMemory R) : Prop where
  owner : ∀ block, s.Live block → ∃! a, s.owns a = some block
  live : ∀ a block, s.owns a = some block → s.Live block
  once : s.released.Nodup
  known : ∀ block ∈ s.released, block < s.allocated
  finished : (∀ a, s.owns a = none) → ∀ block < s.allocated, s.released.count block = 1

def NetMemory.displaced (s : NetMemory R) : BufferOperation R → Option Nat
  | .moveAssign this rhs => if rhs = this then none else s.owns this
  | .build _ this b => if b.allocates then s.owns this else none
  | .destroy this => s.owns this
  | _ => none

def NetMemory.keepsBlocks (s : NetMemory R) : BufferOperation R → Bool
  | .moveAssign this rhs => rhs == this || (s.owns this).isNone
  | .build _ this b => !b.allocates || (s.owns this).isNone
  | _ => true

variable [DecidableEq R.Name]

/-- At every moment the blocks are owned, and each operation releases the block of the owner
that is destroyed by it or takes over another one. -/
def NetMemory.OwnsSingly (p : Platform) (ndebug : Bool) :
    NetMemory R → List (BufferOperation R) → Prop
  | s, [] => s.Owned
  | s, e :: es => s.Owned ∧ ∀ t, s.step p ndebug e = some t →
      t.released = s.released ++ (s.displaced e).toList ∧ OwnsSingly p ndebug t es

def NetMemory.keepsAllBlocks (p : Platform) (ndebug : Bool) :
    NetMemory R → List (BufferOperation R) → Bool
  | _, [] => true
  | s, e :: es =>
      match s.step p ndebug e with
      | none => true
      | some t => s.keepsBlocks e && keepsAllBlocks p ndebug t es

end

section
variable {R : Reflection} {s t : NetMemory R}

abbrev NetMemory.Held (s : NetMemory R) : Prop :=
  Custody.Exclusive (fun a => (s.owns a).toList) s.Live

theorem NetMemory.Owned.held (h : s.Owned) : s.Held := by
  refine ⟨fun block hb => ?_,fun a block hb => ?_,fun a => ?_,fun a c block ha hc => ?_⟩
  · obtain ⟨a,ha,_⟩ := h.owner block hb
    exact ⟨a,by simp [ha]⟩
  · exact h.live a block (Option.mem_toList.mp hb)
  · cases s.owns a with
    | none => exact List.nodup_nil
    | some block => exact List.nodup_singleton block
  · have hlive := h.live a block (Option.mem_toList.mp ha)
    exact (h.owner block hlive).unique (Option.mem_toList.mp ha) (Option.mem_toList.mp hc)

theorem NetMemory.Held.owned (h : s.Held) (hnodup : s.released.Nodup)
    (hknown : ∀ block ∈ s.released, block < s.allocated) : s.Owned := by
  refine ⟨fun block hb => ?_,fun a block ha => ?_,hnodup,hknown,fun hnone block hb => ?_⟩
  · obtain ⟨a,ha,hunique⟩ := h.unique hb
    refine ⟨a,Option.mem_toList.mp ha,fun c hc => hunique c ?_⟩
    exact Option.mem_toList.mpr hc
  · exact h.live a block (Option.mem_toList.mpr ha)
  · have hin : block ∈ s.released := by
      refine Classical.byContradiction (fun hout => ?_)
      obtain ⟨a,ha⟩ := h.placed block ⟨hb,hout⟩
      simp [hnone a] at ha
    exact List.count_eq_one_of_mem hnodup hin

theorem NetMemory.Owned.same (h : s.Owned) (howns : ∀ x, t.owns x = s.owns x)
    (halloc : t.allocated = s.allocated) (hreleased : t.released = s.released) : t.Owned := by
  refine NetMemory.Held.owned (h.held.perm (fun x => ?_) (fun block => ?_)) ?_ ?_
  · rw [howns]
  · rw [Live,Live,halloc,hreleased]
  · rw [hreleased]
    exact h.once
  · rw [hreleased,halloc]
    exact h.known

theorem NetMemory.Owned.fresh (h : s.Owned) {a : Nat} (ha : s.owns a = none)
    (howns : ∀ x, t.owns x = if x = a then some s.allocated else s.owns x)
    (halloc : t.allocated = s.allocated + 1) (hreleased : t.released = s.released) : t.Owned := by
  have hout : s.allocated ∉ s.released := fun hin => Nat.lt_irrefl _ (h.known _ hin)
  refine NetMemory.Held.owned (h.held.insert (x := s.allocated) (q := a)
    (fun hl => Nat.lt_irrefl _ hl.1) ?_ (fun r hr => ?_) (fun block => ?_)) ?_ ?_
  · simp [howns,ha]
  · simp [howns,hr]
  · rw [Live,Live,halloc,hreleased,Nat.lt_succ_iff_lt_or_eq]
    constructor
    · rintro ⟨hlt | heq,hnot⟩
      · exact .inl ⟨hlt,hnot⟩
      · exact .inr heq
    · rintro (⟨hlt,hnot⟩ | heq)
      · exact ⟨.inl hlt,hnot⟩
      · rw [heq]
        exact ⟨.inr rfl,hout⟩
  · rw [hreleased]
    exact h.once
  · intro block hb
    rw [hreleased] at hb
    rw [halloc]
    exact Nat.lt_succ_of_lt (h.known block hb)

theorem NetMemory.Owned.given (h : s.Owned) {a r : Nat} (ha : s.owns a = none) (har : a ≠ r)
    (howns : ∀ x, t.owns x = if x = a then s.owns r else if x = r then none else s.owns x)
    (halloc : t.allocated = s.allocated) (hreleased : t.released = s.released) : t.Owned := by
  cases hr : s.owns r with
  | none =>
    refine h.same (fun x => ?_) halloc hreleased
    rw [howns,hr]
    split
    · rename_i hxa
      rw [hxa,ha]
    · split
      · rename_i hxr
        rw [hxr,hr]
      · rfl
  | some block =>
    refine NetMemory.Held.owned (h.held.move (x := block) (p := r) (q := a) ?_ (Ne.symm har) ?_ ?_
      (fun x hxr hxa => ?_) (fun block => ?_)) ?_ ?_
    · simp [hr]
    · simp [howns,Ne.symm har,hr]
    · simp [howns,hr,ha]
    · simp [howns,hxa,hxr]
    · rw [Live,Live,halloc,hreleased]
    · rw [hreleased]
      exact h.once
    · rw [hreleased,halloc]
      exact h.known

theorem NetMemory.Owned.destroyed (h : s.Owned) {a : Nat}
    (howns : ∀ x, t.owns x = if x = a then none else s.owns x)
    (halloc : t.allocated = s.allocated)
    (hreleased : t.released = s.released ++ (s.owns a).toList) : t.Owned := by
  cases ha : s.owns a with
  | none =>
    rw [ha] at hreleased
    refine h.same (fun x => ?_) halloc (by simpa using hreleased)
    rw [howns]
    split
    · rename_i hxa
      rw [hxa,ha]
    · rfl
  | some block =>
    have hlive := h.live a block ha
    rw [ha,Option.toList_some] at hreleased
    refine NetMemory.Held.owned (h.held.remove (x := block) (p := a) ?_ ?_ (fun r hr => ?_)
      (fun other => ?_)) ?_ ?_
    · simp [ha]
    · simp [howns,ha]
    · simp [howns,hr]
    · rw [Live,Live,halloc,hreleased,List.mem_append,List.mem_singleton,not_or,and_assoc]
    · rw [hreleased]
      exact List.nodup_append_comm.mp (List.nodup_cons.mpr ⟨hlive.2,h.once⟩)
    · intro other hother
      rw [hreleased,List.mem_append,List.mem_singleton] at hother
      rw [halloc]
      rcases hother with hother | hother
      · exact h.known other hother
      · rw [hother]
        exact hlive.1

/-- A live block that nobody owns any more. -/
theorem NetMemory.Owned.lost (h : s.Owned) {a block : Nat} (ha : s.owns a = some block)
    (hnone : ∀ x, t.owns x ≠ some block) (halloc : s.allocated ≤ t.allocated)
    (hreleased : t.released = s.released) : ¬ t.Owned := by
  intro ht
  have hlive := h.live a block ha
  have hlive' : t.Live block := ⟨Nat.lt_of_lt_of_le hlive.1 halloc,by rw [hreleased]; exact hlive.2⟩
  obtain ⟨x,hx,_⟩ := ht.owner block hlive'
  exact hnone x hx

theorem NetMemory.owns_set (s : NetMemory R) (a : Nat) (o : NetObject R) (x : Nat) :
    (s.set a o).owns x = if x = a then o.buffer.buffer else s.owns x := by
  unfold NetMemory.owns NetMemory.set
  by_cases hx : x = a
  · simp [hx]
  · simp [hx]

theorem NetMemory.owns_of_none {a : Nat} (h : s.objects a = none) : s.owns a = none := by
  rw [owns,h]
  rfl

theorem NetMemory.owns_of_some {a : Nat} {o : NetObject R} (h : s.objects a = some o) :
    s.owns a = o.buffer.buffer := by
  rw [owns,h]
  rfl

theorem NetMemory.place_some {a : Nat} {o : NetObject R} (h : s.place a o = some t) :
    s.objects a = none ∧ t = s.set a o := by
  obtain ⟨hnone,heq⟩ := Option.ite_none_right_eq_some.mp h
  exact ⟨Option.isNone_iff_eq_none.mp hnone,(Option.some.inj heq).symm⟩

theorem NetMemory.Owned.place (h : s.Owned) {a : Nat} {o : NetObject R}
    (ho : o.buffer.buffer = none) (ht : s.place a o = some t) :
    t.Owned ∧ t.released = s.released := by
  obtain ⟨hnone,rfl⟩ := place_some ht
  refine ⟨h.same (fun x => ?_) rfl rfl,rfl⟩
  rw [owns_set,ho]
  split
  · rename_i hx
    rw [hx,owns_of_none hnone]
  · rfl

theorem NetMemory.Owned.constructSized (h : s.Owned) {a size : Nat}
    (ht : s.alloc.place a (.netBuffer ⟨some s.allocated,size⟩) = some t) :
    t.Owned ∧ t.released = s.released := by
  obtain ⟨hnone,rfl⟩ := place_some ht
  refine ⟨h.fresh (owns_of_none hnone) (fun x => ?_) rfl rfl,rfl⟩
  rw [owns_set]
  rfl

theorem NetMemory.owns_moved (s : NetMemory R) {a r : Nat} {o left : NetObject R}
    (ho : o.buffer.buffer = s.owns r) (hleft : left.buffer.buffer = none) (x : Nat) :
    ((s.set r left).set a o).owns x =
      if x = a then s.owns r else if x = r then none else s.owns x := by
  rw [owns_set,owns_set,ho,hleft]

theorem NetMemory.Owned.moveConstruct (h : s.Owned) {a r : Nat} {b : NetBuffer}
    (hr : s.objects r = some (.netBuffer b))
    (ht : (s.set r (.netBuffer b.move.2)).place a (.netBuffer b.move.1) = some t) :
    t.Owned ∧ t.released = s.released := by
  obtain ⟨hnone,rfl⟩ := place_some ht
  have har : a ≠ r := by
    intro heq
    simp [NetMemory.set,heq] at hnone
  have hnone' : s.objects a = none := by simpa [NetMemory.set,har] using hnone
  refine ⟨h.given (owns_of_none hnone') har (s.owns_moved ?_ rfl) rfl rfl,rfl⟩
  rw [owns_of_some hr]
  rfl

/-- The block that the left side owned is lost. -/
theorem NetMemory.Owned.moveAssign_iff (h : s.Owned) {a r : Nat} {b : NetBuffer}
    (hr : s.objects r = some (.netBuffer b)) (har : r ≠ a) :
    ((s.set r (.netBuffer b.move.2)).set a (.netBuffer b.move.1)).Owned ↔ s.owns a = none := by
  have howns : ∀ x, ((s.set r (.netBuffer b.move.2)).set a (.netBuffer b.move.1)).owns x =
      if x = a then s.owns r else if x = r then none else s.owns x :=
    s.owns_moved (by rw [owns_of_some hr]; rfl) rfl
  constructor
  · intro ht
    cases ha : s.owns a with
    | none => rfl
    | some block =>
      refine absurd ht (h.lost ha (fun x hx => ?_) (Nat.le_refl _) rfl)
      rw [howns] at hx
      obtain ⟨c,_,hunique⟩ := h.owner block (h.live a block ha)
      have hother : ∀ y, s.owns y = some block → y = a := fun y hy =>
        (hunique y hy).trans (hunique a ha).symm
      split at hx
      · exact har (hother r hx)
      · split at hx
        · cases hx
        · rename_i hxa _
          exact hxa (hother x hx)
  · intro ha
    exact h.given ha (Ne.symm har) howns rfl rfl

end

section
variable {R : Reflection} {s t : NetMemory R} [DecidableEq R.Name] {p : Platform} {ndebug : Bool}

theorem CoRpc.build_buffer {block : Nat} {c c' : CoRpc R} {b : Builder R}
    (h : c.build p ndebug block b = some c') :
    c'.sendBuffer.buffer = if b.allocates then some block else c.sendBuffer.buffer := by
  cases b with
  | withArgs types args =>
    rw [build] at h
    split at h
    · split at h
      · cases h
      · cases h
        rfl
    · cases h
  | onEachResult type func =>
    rw [build] at h
    split at h
    · cases h
      rfl
    · cases h
  | _ =>
    cases h
    rfl

theorem NetMemory.Owned.build_iff (h : s.Owned) {result this : Nat} {b : Builder R}
    (ht : s.step p ndebug (.build result this b) = some t) :
    t.released = s.released ∧ (t.Owned ↔ b.allocates = false ∨ s.owns this = none) := by
  simp only [step] at ht
  split at ht
  · rename_i c hc
    split at ht
    · cases ht
    · rename_i c' hbuild
      obtain ⟨hnone,rfl⟩ := place_some ht
      have hbuffer := CoRpc.build_buffer hbuild
      have hne : result ≠ this := by
        intro heq
        simp [NetMemory.set,heq] at hnone
      have hobjects : (if b.allocates then s.alloc else s).objects = s.objects := by
        cases b.allocates <;> rfl
      have hnone' : s.owns result = none := by
        refine owns_of_none ?_
        simpa [NetMemory.set,hobjects,hne] using hnone
      cases hb : b.allocates with
      | false =>
        simp only [hb,Bool.false_eq_true,if_false] at hbuffer ⊢
        refine ⟨rfl,iff_of_true (h.given hnone' hne (s.owns_moved ?_ rfl) rfl rfl) (.inl trivial)⟩
        rw [owns_of_some hc]
        exact hbuffer
      | true =>
        simp only [hb,if_true] at hbuffer ⊢
        refine ⟨rfl,?_⟩
        have howns : ∀ x, ((s.alloc.set this (.coRpc c'.move.2)).set result
            (.coRpc c'.move.1)).owns x =
              if x = result then some s.allocated else if x = this then none else s.owns x := by
          intro x
          rw [owns_set,owns_set]
          have hfirst : (NetObject.coRpc c'.move.1).buffer.buffer = some s.allocated := hbuffer
          rw [hfirst]
          rfl
        constructor
        · intro hown
          cases ha : s.owns this with
          | none => exact .inr rfl
          | some block =>
            have hlive := h.live this block ha
            refine absurd hown (h.lost ha (fun x hx => ?_) (Nat.le_succ _) rfl)
            rw [howns] at hx
            split at hx
            · exact Nat.ne_of_gt hlive.1 (Option.some.inj hx)
            · split at hx
              · cases hx
              · rename_i hxt
                exact hxt ((h.owner block hlive).unique hx ha)
        · rintro (hfalse | ha)
          · cases hfalse
          · refine h.fresh hnone' (fun x => ?_) rfl rfl
            rw [howns]
            split
            · rfl
            · split
              · rename_i hx
                rw [hx,ha]
              · rfl
  · cases ht

/-- One operation releases what it should and leaves every block owned exactly where no owner
takes over another block. -/
theorem NetMemory.Owned.step_iff (h : s.Owned) {e : BufferOperation R}
    (ht : s.step p ndebug e = some t) :
    (t.released = s.released ++ (s.displaced e).toList ∧ t.Owned) ↔ s.keepsBlocks e = true := by
  cases e with
  | construct this =>
    obtain ⟨hown,hreleased⟩ := h.place rfl ht
    exact iff_of_true ⟨by simpa [displaced] using hreleased,hown⟩ rfl
  | constructSized this size =>
    simp only [step] at ht
    split at ht
    · cases ht
    · obtain ⟨hown,hreleased⟩ := h.constructSized ht
      exact iff_of_true ⟨by simpa [displaced] using hreleased,hown⟩ rfl
  | moveConstruct this rhs =>
    simp only [step] at ht
    split at ht
    · rename_i b hb
      obtain ⟨hown,hreleased⟩ := h.moveConstruct hb ht
      exact iff_of_true ⟨by simpa [displaced] using hreleased,hown⟩ rfl
    · cases ht
  | moveAssign this rhs =>
    simp only [step] at ht
    split at ht
    · rename_i b hthis hrhs
      by_cases hself : rhs = this
      · rw [if_pos hself] at ht
        cases ht
        exact iff_of_true ⟨by simp [displaced,hself],h⟩ (by simp [keepsBlocks,hself])
      · rw [if_neg hself] at ht
        cases ht
        rw [h.moveAssign_iff hrhs hself]
        simp only [displaced,keepsBlocks,if_neg hself,NetMemory.set]
        cases hown : s.owns this <;> simp [hself]
    · cases ht
  | coRpc this sig funcId =>
    obtain ⟨hown,hreleased⟩ := h.place rfl ht
    exact iff_of_true ⟨by simpa [displaced] using hreleased,hown⟩ rfl
  | build result this b =>
    obtain ⟨hreleased,hiff⟩ := h.build_iff ht
    rw [hreleased,hiff]
    simp only [displaced,keepsBlocks]
    cases b.allocates <;> cases hown : s.owns this <;> simp
  | destroy this =>
    simp only [step] at ht
    split at ht
    · cases ht
    · rename_i o ho
      cases ht
      have hreleased : s.released ++ o.buffer.buffer.toList =
          s.released ++ (s.owns this).toList := by rw [owns_of_some ho]
      refine iff_of_true ⟨hreleased,h.destroyed (fun x => ?_) rfl hreleased⟩ rfl
      unfold owns
      by_cases hx : x = this
      · simp [hx]
      · simp [hx]

theorem NetMemory.OwnsSingly.owned {es : List (BufferOperation R)}
    (h : s.OwnsSingly p ndebug es) : s.Owned := by
  cases es with
  | nil => exact h
  | cons e es => exact h.1

theorem NetMemory.Owned.ownsSingly_iff (h : s.Owned) (es : List (BufferOperation R)) :
    s.OwnsSingly p ndebug es ↔ s.keepsAllBlocks p ndebug es = true := by
  induction es generalizing s with
  | nil => exact iff_of_true h rfl
  | cons e es ih =>
    rw [OwnsSingly,keepsAllBlocks]
    cases ht : s.step p ndebug e with
    | none => simp [h]
    | some t =>
      have hstep := h.step_iff ht
      simp only [Bool.and_eq_true,← hstep,Option.some.injEq,forall_eq']
      constructor
      · rintro ⟨_,hreleased,hrest⟩
        exact ⟨⟨hreleased,hrest.owned⟩,(ih hrest.owned).mp hrest⟩
      · rintro ⟨⟨hreleased,hown⟩,hrest⟩
        exact ⟨h,hreleased,(ih hown).mpr hrest⟩

theorem NetMemory.start_owned (R : Reflection) : (NetMemory.start R).Owned := by
  refine ⟨fun block hb => absurd hb.1 (Nat.not_lt_zero block),fun a block ha => ?_,
    List.nodup_nil,fun block hb => ?_,fun _ block hb => absurd hb (Nat.not_lt_zero block)⟩
  · cases ha
  · cases hb

/-- Exactly the runs in which no buffer that owns a block takes over another one keep each
block with one owner and release it once. -/
theorem owns_singly_iff (p : Platform) (ndebug : Bool) (es : List (BufferOperation R)) :
    (NetMemory.start R).OwnsSingly p ndebug es ↔
      (NetMemory.start R).keepsAllBlocks p ndebug es = true :=
  (NetMemory.start_owned R).ownsSingly_iff es

end

instance : DecidableEq headerReflection.Name := inferInstanceAs (DecidableEq Unit)

def assignedOver : List (BufferOperation headerReflection) :=
  [.constructSized 0 8,.constructSized 1 8,.moveAssign 0 1]

def argsTwice : List (BufferOperation headerReflection) :=
  [.coRpc 0 ⟨[.bool],.bool⟩ 1,.build 1 0 (.withArgs [.bool] (.cons (.bool true) .nil)),
    .build 2 1 (.withArgs [.bool] (.cons (.bool false) .nil))]

/-- In both the first block is lost: it is live, and no object owns it. -/
theorem firstBlock_lost :
    ¬ (NetMemory.start headerReflection).OwnsSingly .small false assignedOver ∧
    ¬ (NetMemory.start headerReflection).OwnsSingly .small false argsTwice := by
  have hiff : ∀ es, (NetMemory.start headerReflection).OwnsSingly .small false es ↔
      (NetMemory.start headerReflection).keepsAllBlocks .small false es = true :=
    (NetMemory.start_owned headerReflection).ownsSingly_iff
  rw [hiff,hiff]
  decide

end NewRpc.Net
