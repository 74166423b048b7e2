import NewRpc.NetThread

/-!
The table of waiting calls and the suspended calls: every call is registered under a free
id, called back while it waits, committed once, and left alone from then on.
-/

set_option autoImplicit false

namespace NewRpc.Net
open Codec

def Note.callback? : Note → Option Nat
  | .callback c => some c
  | _ => none

def lastCallback (history : List Note) : Option Nat := (history.filterMap Note.callback?).getLast?

def Note.commits (c : Nat) : Note → Bool
  | .commit _ call => call == some c
  | _ => false

structure NetThread.CompletesOnce {R : Reflection} (s : NetThread R) : Prop where
  inserts : ∀ c found, .insert c found ∈ s.history → found = false
  once : ∀ c, (s.history.filter (Note.commits c)).length ≤ 1
  committed : ∀ before f call, before ++ [.commit f call] <+: s.history →
    ∃ c, call = some c ∧ s.frame c = f ∧ lastCallback before = some c
  quiet : ∀ before f c after, s.history = before ++ .commit f (some c) :: after →
    .callback c ∉ after

/-- A call that was committed is not called back and not committed again. -/
def Note.Leaves (a b : Note) : Prop := ∀ f c, a = .commit f (some c) → b ≠ .callback c ∧
  Note.commits c b = false

def Committed (history : List Note) (c : Nat) : Prop := ∃ f, .commit f (some c) ∈ history

theorem Committed.append_iff {history : List Note} {note : Note} {c : Nat} :
    Committed (history ++ [note]) c ↔ Committed history c ∨ ∃ f, note = .commit f (some c) := by
  simp only [Committed,List.mem_append,List.mem_singleton,exists_or]
  exact or_congr_right ⟨fun ⟨f,h⟩ => ⟨f,h.symm⟩,fun ⟨f,h⟩ => ⟨f,h.symm⟩⟩

theorem pairwise_leaves_append {history : List Note} {note : Note}
    (h : history.Pairwise Note.Leaves)
    (hnote : ∀ c, Committed history c → note ≠ .callback c ∧ note.commits c = false) :
    (history ++ [note]).Pairwise Note.Leaves := by
  refine List.pairwise_append.mpr ⟨h,List.pairwise_singleton _ _,?_⟩
  intro a ha b hb f c heq
  rw [List.mem_singleton.mp hb]
  exact hnote c ⟨f,heq ▸ ha⟩

theorem lastCallback_append (history : List Note) (note : Note) :
    lastCallback (history ++ [note]) = note.callback?.or (lastCallback history) := by
  unfold lastCallback
  rw [List.filterMap_append]
  cases h : note.callback? with
  | none => simp [h]
  | some c => simp [h]

theorem commits_length_of_pairwise {history : List Note} (h : history.Pairwise Note.Leaves)
    (c : Nat) : (history.filter (Note.commits c)).length ≤ 1 := by
  induction history with
  | nil => simp
  | cons a history ih =>
    obtain ⟨ha,hrest⟩ := List.pairwise_cons.mp h
    cases hc : a.commits c with
    | false =>
      rw [List.filter_cons_of_neg (by simp [hc])]
      exact ih hrest
    | true =>
      have hnone : history.filter (Note.commits c) = [] := by
        rw [List.filter_eq_nil_iff]
        intro b hb
        cases a with
        | commit f call =>
          have hcall : call = some c := by simpa [Note.commits] using hc
          rw [((ha b hb) f c (by rw [hcall])).2]
          simp
        | _ => cases hc
      rw [List.filter_cons_of_pos hc,hnone]
      rfl

theorem quiet_of_pairwise {history before after : List Note} {f c : Nat}
    (h : history.Pairwise Note.Leaves) (heq : history = before ++ .commit f (some c) :: after) :
    .callback c ∉ after := by
  rw [heq] at h
  have hafter := (List.pairwise_cons.mp (List.pairwise_append.mp h).2.1).1
  exact fun hin => (hafter _ hin f c rfl).1 rfl

structure NetThread.Suspended {R : Reflection} (owner : Nat → Word .w64) (s : NetThread R)
    (c : Nat) : Prop where
  made : c < s.count
  chain : s.chain (s.caller c) = some c
  owner : owner (s.frame c) = s.caller c

structure NetThread.Entry {R : Reflection} (owner : Nat → Word .w64) (s : NetThread R)
    (coroId : Word .w64) (info : MaintainInfo) : Prop where
  suspended : s.Suspended owner info.coroRpcCallback
  waits : ¬ Committed s.history info.coroRpcCallback
  caller : s.caller info.coroRpcCallback = coroId
  coroutine : info.coroutine = s.frame info.coroRpcCallback
  awaits : (s.net.calls info.coroRpcCallback).coroutine = some info.coroutine

structure NetThread.Awaking {R : Reflection} (owner : Nat → Word .w64) (s : NetThread R)
    (f c : Nat) : Prop where
  suspended : s.Suspended owner c
  waits : ¬ Committed s.history c
  frame : s.frame c = f
  erased : s.net.waitingCoros (s.caller c) = none
  last : lastCallback s.history = some c

def NetThread.Notes {R : Reflection} (s : NetThread R) : Note → Prop
  | .insert _ found => found = false
  | .callback _ => True
  | .commit f call => ∃ c < s.count, call = some c ∧ s.frame c = f

structure NetThread.Sound {R : Reflection} (owner : Nat → Word .w64) (s : NetThread R) :
    Prop where
  chains : ∀ id c, s.chain id = some c → c < s.count ∧ s.caller c = id
  entries : ∀ id info, s.net.waitingCoros id = some info → s.Entry owner id info
  awaking : ∀ f, s.needAwak = some f → ∃ c, s.Awaking owner f c
  ready : ∀ f ∈ s.ready, ∃ c, s.Suspended owner c ∧ Committed s.history c ∧ s.frame c = f
  readyOnce : s.ready.Nodup
  notes : ∀ note ∈ s.history, s.Notes note
  last : ∀ before f call, before ++ [.commit f call] <+: s.history →
    ∃ c, call = some c ∧ lastCallback before = some c
  leaves : s.history.Pairwise Note.Leaves
  served : ∀ c < s.count, (∃ info, s.net.waitingCoros (s.caller c) = some info ∧
    info.coroRpcCallback = c) ∨ (∃ f, s.needAwak = some f ∧ s.Awaking owner f c) ∨
      Committed s.history c

theorem NetThread.Sound.once {R : Reflection} {owner : Nat → Word .w64}
    {s : NetThread R} (h : s.Sound owner) : s.CompletesOnce := by
  refine ⟨fun c found hin => h.notes _ hin,commits_length_of_pairwise h.leaves,?_,
    fun before f c after heq => quiet_of_pairwise h.leaves heq⟩
  intro before f call hpre
  obtain ⟨c,hc,hlast⟩ := h.last before f call hpre
  have hin : Note.commit f call ∈ s.history := hpre.subset (by simp)
  obtain ⟨d,_,hd,hf⟩ := h.notes _ hin
  rw [hc] at hd
  cases hd
  exact ⟨c,hc,hf,hlast⟩

section Steps
variable {R : Reflection} {owner : Nat → Word .w64} {s t : NetThread R}

theorem NetThread.Sound.unregistered (h : s.Sound owner) {coroId : Word .w64}
    (hc : s.chain coroId = none) : s.net.waitingCoros coroId = none := by
  cases hw : s.net.waitingCoros coroId with
  | none => rfl
  | some info =>
    have he := h.entries coroId info hw
    have hchain := he.suspended.chain
    rw [he.caller,hc] at hchain
    cases hchain

theorem last_append {history : List Note} {note : Note}
    (h : ∀ before f call, before ++ [.commit f call] <+: history →
      ∃ c, call = some c ∧ lastCallback before = some c)
    (hnote : ∀ f call, note = .commit f call → ∃ c, call = some c ∧ lastCallback history = some c) :
    ∀ before f call, before ++ [.commit f call] <+: history ++ [note] →
      ∃ c, call = some c ∧ lastCallback before = some c := by
  intro before f call hpre
  rcases List.prefix_concat_iff.mp hpre with heq | hpre
  · obtain ⟨hb,hn⟩ := List.append_inj' heq rfl
    rw [hb]
    exact hnote f call (List.singleton_inj.mp hn).symm
  · exact h before f call hpre

theorem notes_append {note : Note} (h : ∀ x ∈ s.history, s.Notes x)
    (hmono : ∀ x, s.Notes x → t.Notes x) (hn : t.Notes note)
    (ht : t.history = s.history ++ [note]) : ∀ x ∈ t.history, t.Notes x := by
  intro x hx
  rw [ht] at hx
  rcases List.mem_append.mp hx with hin | heq
  · exact hmono x (h x hin)
  · rw [List.mem_singleton.mp heq]
    exact hn

theorem NetThread.call_caller (s : NetThread R) {coroId : Word .w64} {rpc : Awaited R} {c : Nat}
    (hc : c < s.count) : (s.call coroId rpc).caller c = s.caller c :=
  Function.update_of_ne (Nat.ne_of_lt hc) _ _

theorem NetThread.call_frame (s : NetThread R) {coroId : Word .w64} {rpc : Awaited R} {c : Nat}
    (hc : c < s.count) : (s.call coroId rpc).frame c = s.frame c :=
  Function.update_of_ne (Nat.ne_of_lt hc) _ _

theorem NetThread.Suspended.call {c : Nat} (h : s.Suspended owner c) {coroId : Word .w64}
    (hid : s.chain coroId = none) (rpc : Awaited R) : (s.call coroId rpc).Suspended owner c := by
  have hne : s.caller c ≠ coroId := by
    intro heq
    have hchain := h.chain
    rw [heq,hid] at hchain
    cases hchain
  refine ⟨Nat.lt_succ_of_lt h.made,?_,?_⟩
  · rw [s.call_caller h.made]
    exact (Function.update_of_ne hne _ _).trans h.chain
  · rw [s.call_caller h.made,s.call_frame h.made]
    exact h.owner

theorem NetThread.call_committed (s : NetThread R) {coroId : Word .w64} {rpc : Awaited R}
    {c : Nat} : Committed (s.call coroId rpc).history c ↔ Committed s.history c := by
  rw [show (s.call coroId rpc).history = s.history ++ [_] from rfl,Committed.append_iff]
  simp

theorem NetThread.call_lastCallback (s : NetThread R) (coroId : Word .w64) (rpc : Awaited R) :
    lastCallback (s.call coroId rpc).history = lastCallback s.history := lastCallback_append _ _

theorem NetThread.call_waitingCoros (s : NetThread R) {coroId : Word .w64} {rpc : Awaited R}
    (h : s.net.waitingCoros coroId = none) : (s.call coroId rpc).net.waitingCoros =
      Function.update s.net.waitingCoros coroId (some ⟨rpc.frame,s.count⟩) := by
  simp [NetThread.call,NetService.insert,h]

theorem NetThread.call_calls (s : NetThread R) {coroId : Word .w64} {rpc : Awaited R} :
    (s.call coroId rpc).net.calls = Function.update s.net.calls s.count rpc.toRpcBase := by
  simp [NetThread.call]

/-- No call has the next number. -/
theorem NetThread.Sound.uncommitted (h : s.Sound owner) : ¬ Committed s.history s.count := by
  rintro ⟨f,hin⟩
  obtain ⟨c,hlt,heq,_⟩ := h.notes _ hin
  cases heq
  exact Nat.lt_irrefl _ hlt

theorem NetThread.Entry.call {coroId id : Word .w64} {info : MaintainInfo}
    (h : s.Entry owner id info) (hid : s.chain coroId = none) (rpc : Awaited R) :
    (s.call coroId rpc).Entry owner id info := by
  have hlt := h.suspended.made
  refine ⟨h.suspended.call hid rpc,fun hc => h.waits (s.call_committed.mp hc),?_,?_,?_⟩
  · rw [s.call_caller hlt]
    exact h.caller
  · rw [s.call_frame hlt]
    exact h.coroutine
  · rw [s.call_calls,Function.update_of_ne (Nat.ne_of_lt hlt)]
    exact h.awaits

theorem NetThread.Awaking.call {coroId : Word .w64} {f c : Nat} (h : s.Awaking owner f c)
    (hid : s.chain coroId = none) (hw : s.net.waitingCoros coroId = none) (rpc : Awaited R) :
    (s.call coroId rpc).Awaking owner f c := by
  have hlt := h.suspended.made
  have hne : s.caller c ≠ coroId := by
    intro heq
    have hchain := h.suspended.chain
    rw [heq,hid] at hchain
    cases hchain
  refine ⟨h.suspended.call hid rpc,fun hc => h.waits (s.call_committed.mp hc),?_,?_,?_⟩
  · rw [s.call_frame hlt]
    exact h.frame
  · rw [s.call_caller hlt,s.call_waitingCoros hw,Function.update_of_ne hne]
    exact h.erased
  · rw [s.call_lastCallback]
    exact h.last

theorem NetThread.Sound.call (h : s.Sound owner) {coroId : Word .w64} {rpc : Awaited R}
    (hid : s.chain coroId = none) (ho : owner rpc.frame = coroId) :
    (s.call coroId rpc).Sound owner := by
  have hw := h.unregistered hid
  have hcount : (s.call coroId rpc).count = s.count + 1 := rfl
  have hcaller : (s.call coroId rpc).caller s.count = coroId := Function.update_self ..
  have hframe : (s.call coroId rpc).frame s.count = rpc.frame := Function.update_self ..
  have hchain : (s.call coroId rpc).chain coroId = some s.count := Function.update_self ..
  have hnew : (s.call coroId rpc).Suspended owner s.count := by
    refine ⟨Nat.lt_succ_self _,?_,?_⟩
    · rw [hcaller]
      exact hchain
    · rw [hcaller,hframe]
      exact ho
  refine ⟨?_,?_,?_,?_,h.readyOnce,?_,?_,?_,?_⟩
  · intro id c hc
    by_cases hi : id = coroId
    · rw [hi] at hc ⊢
      rw [hchain] at hc
      cases hc
      exact ⟨Nat.lt_succ_self _,hcaller⟩
    · obtain ⟨hlt,hcall⟩ := h.chains id c ((Function.update_of_ne hi _ _).symm.trans hc)
      exact ⟨Nat.lt_succ_of_lt hlt,(s.call_caller hlt).trans hcall⟩
  · intro id info hi
    rw [s.call_waitingCoros hw] at hi
    by_cases hid' : id = coroId
    · rw [hid',Function.update_self] at hi
      cases hi
      refine ⟨hnew,fun hc => h.uncommitted (s.call_committed.mp hc),?_,hframe.symm,?_⟩
      · rw [hid']
        exact hcaller
      · rw [s.call_calls,Function.update_self]
        exact rpc.suspended
    · rw [Function.update_of_ne hid'] at hi
      exact (h.entries id info hi).call hid rpc
  · intro f hf
    obtain ⟨c,hc⟩ := h.awaking f hf
    exact ⟨c,hc.call hid hw rpc⟩
  · intro f hf
    obtain ⟨c,hsus,hcom,hfr⟩ := h.ready f hf
    refine ⟨c,hsus.call hid rpc,s.call_committed.mpr hcom,?_⟩
    rw [s.call_frame hsus.made]
    exact hfr
  · refine notes_append h.notes (fun x hx => ?_) ?_ rfl
    · cases x with
      | commit f call =>
        obtain ⟨c,hlt,hc,hf⟩ := hx
        exact ⟨c,Nat.lt_succ_of_lt hlt,hc,(s.call_frame hlt).trans hf⟩
      | _ => exact hx
    · show (s.net.waitingCoros coroId).isSome = false
      rw [hw]
      rfl
  · exact last_append h.last (fun f call heq => by cases heq)
  · exact pairwise_leaves_append h.leaves (fun c _ => by simp [Note.commits])
  · intro c hc
    rcases Nat.lt_succ_iff_lt_or_eq.mp hc with hlt | heq
    · rcases h.served c hlt with ⟨info,hi,hcb⟩ | ⟨f,hf,ha⟩ | hcom
      · refine .inl ⟨info,?_,hcb⟩
        have hne : s.caller c ≠ coroId := by
          intro heq
          rw [heq,hw] at hi
          cases hi
        rw [s.call_caller hlt,s.call_waitingCoros hw,Function.update_of_ne hne]
        exact hi
      · exact .inr (.inl ⟨f,hf,ha.call hid hw rpc⟩)
      · exact .inr (.inr (s.call_committed.mpr hcom))
    · refine .inl ⟨⟨rpc.frame,s.count⟩,?_,heq.symm⟩
      rw [heq,hcaller,s.call_waitingCoros hw,Function.update_self]

structure NetThread.Called (s t : NetThread R) (info : MaintainInfo) (awak : Bool) : Prop where
  entry : s.net.waitingCoros (s.caller info.coroRpcCallback) = some info
  waitingCoros : t.net.waitingCoros = if awak then
    Function.update s.net.waitingCoros (s.caller info.coroRpcCallback) none
    else s.net.waitingCoros
  coroutine : ∀ c, (t.net.calls c).coroutine = (s.net.calls c).coroutine
  chain : t.chain = s.chain
  count : t.count = s.count
  caller : t.caller = s.caller
  frame : t.frame = s.frame
  ready : t.ready = s.ready
  phase : t.phase = s.phase
  needAwak : t.needAwak = if awak then some info.coroutine else none
  history : t.history = s.history ++ [.callback info.coroRpcCallback]

theorem NetThread.Called.suspended {info : MaintainInfo} {awak : Bool} (h : s.Called t info awak)
    {c : Nat} (hs : s.Suspended owner c) : t.Suspended owner c := by
  refine ⟨?_,?_,?_⟩
  · rw [h.count]
    exact hs.made
  · rw [h.chain,h.caller]
    exact hs.chain
  · rw [h.frame,h.caller]
    exact hs.owner

theorem NetThread.Called.committed {info : MaintainInfo} {awak : Bool} (h : s.Called t info awak)
    {c : Nat} : Committed t.history c ↔ Committed s.history c := by
  rw [h.history,Committed.append_iff]
  simp

theorem NetThread.Called.table {info : MaintainInfo} {awak : Bool} (h : s.Called t info awak)
    {id : Word .w64} {i : MaintainInfo} (hi : t.net.waitingCoros id = some i) :
    s.net.waitingCoros id = some i := by
  rw [h.waitingCoros] at hi
  cases awak with
  | false => exact hi
  | true =>
    by_cases hid : id = s.caller info.coroRpcCallback
    · simp [hid] at hi
    · simpa [hid] using hi

theorem NetThread.Called.entries {info : MaintainInfo} {awak : Bool} (h : s.Called t info awak)
    {id : Word .w64} {i : MaintainInfo} (he : s.Entry owner id i) : t.Entry owner id i := by
  refine ⟨h.suspended he.suspended,fun hc => he.waits (h.committed.mp hc),?_,?_,?_⟩
  · rw [h.caller]
    exact he.caller
  · rw [h.frame]
    exact he.coroutine
  · rw [h.coroutine]
    exact he.awaits

theorem NetThread.Sound.called (h : s.Sound owner) {info : MaintainInfo} {awak : Bool}
    (hc : s.Called t info awak) (hfree : s.needAwak = none) : t.Sound owner := by
  have he := h.entries _ _ hc.entry
  refine ⟨?_,fun id i hi => hc.entries (h.entries id i (hc.table hi)),?_,?_,?_,?_,?_,?_,?_⟩
  · rw [hc.chain,hc.count,hc.caller]
    exact h.chains
  · intro f hf
    rw [hc.needAwak] at hf
    cases awak with
    | false => cases hf
    | true =>
      cases hf
      refine ⟨info.coroRpcCallback,hc.suspended he.suspended,fun hcom => he.waits
        (hc.committed.mp hcom),?_,?_,?_⟩
      · rw [hc.frame]
        exact he.coroutine.symm
      · rw [hc.caller,hc.waitingCoros]
        exact Function.update_self ..
      · rw [hc.history,lastCallback_append]
        rfl
  · intro f hf
    rw [hc.ready] at hf
    obtain ⟨c,hsus,hcom,hfr⟩ := h.ready f hf
    refine ⟨c,hc.suspended hsus,hc.committed.mpr hcom,?_⟩
    rw [hc.frame]
    exact hfr
  · rw [hc.ready]
    exact h.readyOnce
  · have hnote : t.Notes (.callback info.coroRpcCallback) := trivial
    refine notes_append h.notes (fun x hx => ?_) hnote hc.history
    cases x with
    | commit f call =>
      obtain ⟨c,hlt,hcall,hf⟩ := hx
      exact ⟨c,hc.count ▸ hlt,hcall,hc.frame ▸ hf⟩
    | _ => exact hx
  · rw [hc.history]
    exact last_append h.last (fun f call heq => by cases heq)
  · rw [hc.history]
    refine pairwise_leaves_append h.leaves (fun c hcom => ⟨fun heq => ?_,rfl⟩)
    cases heq
    exact he.waits hcom
  · intro c hlt
    rw [hc.count] at hlt
    rcases h.served c hlt with ⟨i,hi,hcb⟩ | ⟨f,hf,_⟩ | hcom
    · by_cases hbe : awak = true ∧ s.caller c = s.caller info.coroRpcCallback
      · obtain ⟨hawak,heq⟩ := hbe
        rw [heq,hc.entry] at hi
        cases hi
        subst hcb
        have hneed : t.needAwak = some info.coroutine := by rw [hc.needAwak,if_pos hawak]
        refine .inr (.inl ⟨info.coroutine,hneed,hc.suspended he.suspended,
          fun hcom => he.waits (hc.committed.mp hcom),?_,?_,?_⟩)
        · rw [hc.frame]
          exact he.coroutine.symm
        · rw [hc.caller,hc.waitingCoros,if_pos hawak]
          exact Function.update_self ..
        · rw [hc.history,lastCallback_append]
          rfl
      · refine .inl ⟨i,?_,hcb⟩
        rw [hc.caller,hc.waitingCoros]
        split
        · rename_i hawak
          rw [Function.update_of_ne (fun heq => hbe ⟨hawak,heq⟩)]
          exact hi
        · exact hi
    · rw [hfree] at hf
      cases hf
    · exact .inr (.inr (hc.committed.mpr hcom))

theorem NetThread.Suspended.unique {c d : Nat} (hc : s.Suspended owner c)
    (hd : s.Suspended owner d) (h : s.caller c = s.caller d) : c = d := by
  have hchain := hc.chain
  rw [h,hd.chain] at hchain
  exact (Option.some.inj hchain).symm

theorem NetThread.Suspended.same_frame {c d : Nat} (hc : s.Suspended owner c)
    (hd : s.Suspended owner d) (h : s.frame c = s.frame d) : c = d := by
  refine hc.unique hd ?_
  rw [← hc.owner,← hd.owner,h]

theorem NetThread.Awaking.call_eq {f c : Nat} (h : s.Awaking owner f c) :
    s.chain (owner f) = some c := by
  rw [← h.frame,h.suspended.owner]
  exact h.suspended.chain

theorem NetThread.Awaking.committed_iff {f c : Nat} (h : s.Awaking owner f c) {d : Nat} :
    Committed (s.commit owner f).history d ↔ Committed s.history d ∨ d = c := by
  rw [show (s.commit owner f).history = s.history ++ [.commit f (s.chain (owner f))] from rfl,
    Committed.append_iff,h.call_eq]
  simp [eq_comm]

theorem NetThread.Sound.commit (h : s.Sound owner) {f : Nat} (hf : s.needAwak = some f) :
    (s.commit owner f).Sound owner := by
  obtain ⟨c,hc⟩ := h.awaking f hf
  have hcall := hc.call_eq
  have hiff : ∀ d, Committed (s.commit owner f).history d ↔ Committed s.history d ∨ d = c :=
    fun d => hc.committed_iff
  refine ⟨h.chains,?_,by simp [NetThread.commit],?_,?_,?_,?_,?_,?_⟩
  · intro id info hi
    have he := h.entries id info hi
    refine ⟨⟨he.suspended.made,he.suspended.chain,he.suspended.owner⟩,fun hcom => ?_,he.caller,
      he.coroutine,he.awaits⟩
    rcases (hiff _).mp hcom with hcom | heq
    · exact he.waits hcom
    · have hid := he.caller
      have herased := hc.erased
      rw [← heq,hid] at herased
      exact absurd (hi.symm.trans herased) (by simp)
  · intro g hg
    rcases List.mem_append.mp hg with hin | heq
    · obtain ⟨d,hsus,hcom,hfr⟩ := h.ready g hin
      exact ⟨d,⟨hsus.made,hsus.chain,hsus.owner⟩,(hiff d).mpr (.inl hcom),hfr⟩
    · rw [List.mem_singleton.mp heq]
      have hsus := hc.suspended
      exact ⟨c,⟨hsus.made,hsus.chain,hsus.owner⟩,(hiff c).mpr (.inr rfl),hc.frame⟩
  · refine List.nodup_append.mpr ⟨h.readyOnce,by simp,fun g hg g' hg' heq => ?_⟩
    rw [heq,List.mem_singleton.mp hg'] at hg
    obtain ⟨d,hsus,hcom,hfr⟩ := h.ready f hg
    have hdc := hsus.same_frame hc.suspended (hfr.trans hc.frame.symm)
    exact hc.waits (hdc ▸ hcom)
  · refine notes_append h.notes (fun x hx => hx) ?_ rfl
    exact ⟨c,hc.suspended.made,hcall,hc.frame⟩
  · refine last_append h.last (fun g call heq => ⟨c,?_,hc.last⟩)
    cases heq
    exact hcall
  · refine pairwise_leaves_append h.leaves (fun d hcom => ⟨by simp,?_⟩)
    have hne : c ≠ d := by
      intro heq
      exact hc.waits (heq ▸ hcom)
    simp [Note.commits,hcall,hne]
  · intro d hlt
    rcases h.served d hlt with hi | ⟨g,hg,ha⟩ | hcom
    · exact .inl hi
    · rw [hf] at hg
      cases hg
      have hdc := ha.suspended.same_frame hc.suspended (ha.frame.trans hc.frame.symm)
      exact .inr (.inr ((hiff d).mpr (.inr hdc)))
    · exact .inr (.inr ((hiff d).mpr (.inl hcom)))

theorem NetThread.Suspended.resume {c d : Nat} (hd : s.Suspended owner d)
    (hc : s.Suspended owner c) (hne : d ≠ c) :
    (s.resume owner (s.frame c)).Suspended owner d := by
  have hcaller : s.caller d ≠ owner (s.frame c) := by
    rw [hc.owner]
    exact fun heq => hne (hd.unique hc heq)
  exact ⟨hd.made,(Function.update_of_ne hcaller _ _).trans hd.chain,hd.owner⟩

theorem NetThread.Sound.resume (h : s.Sound owner) {f : Nat} (hf : f ∈ s.ready) :
    (s.resume owner f).Sound owner := by
  obtain ⟨c,hsus,hcom,hfr⟩ := h.ready f hf
  subst hfr
  have hstays : ∀ d, s.Suspended owner d → ¬ Committed s.history d →
      (s.resume owner (s.frame c)).Suspended owner d := by
    intro d hd hnot
    refine hd.resume hsus (fun heq => hnot ?_)
    rw [heq]
    exact hcom
  have hawaking : ∀ g d, s.Awaking owner g d →
      (s.resume owner (s.frame c)).Awaking owner g d :=
    fun g d ha => ⟨hstays d ha.suspended ha.waits,ha.waits,ha.frame,ha.erased,ha.last⟩
  refine ⟨?_,?_,?_,?_,h.readyOnce.erase _,h.notes,h.last,h.leaves,?_⟩
  · intro id d hd
    by_cases hid : id = owner (s.frame c)
    · simp [NetThread.resume,hid] at hd
    · exact h.chains id d (by simpa [NetThread.resume,hid] using hd)
  · intro id info hi
    have he := h.entries id info hi
    exact ⟨hstays _ he.suspended he.waits,he.waits,he.caller,he.coroutine,he.awaits⟩
  · intro g hg
    obtain ⟨d,ha⟩ := h.awaking g hg
    exact ⟨d,hawaking g d ha⟩
  · intro g hg
    obtain ⟨hne,hin⟩ := h.readyOnce.mem_erase_iff.mp hg
    obtain ⟨d,hd,hdcom,hdf⟩ := h.ready g hin
    refine ⟨d,hd.resume hsus (fun heq => hne ?_),hdcom,hdf⟩
    rw [← hdf,heq]
  · intro d hlt
    rcases h.served d hlt with hi | ⟨g,hg,ha⟩ | hdcom
    · exact .inl hi
    · exact .inr (.inl ⟨g,hg,hawaking g d ha⟩)
    · exact .inr (.inr hdcom)

theorem NetThread.Sound.outside (h : s.Sound owner) (timers : List (Word .w64)) (phase : Phase) :
    { s with timers := timers, phase := phase }.Sound owner := by
  have hawaking : ∀ f c, s.Awaking owner f c →
      { s with timers := timers, phase := phase }.Awaking owner f c := fun f c ha =>
    ⟨⟨ha.suspended.made,ha.suspended.chain,ha.suspended.owner⟩,ha.waits,ha.frame,
      ha.erased,ha.last⟩
  refine ⟨h.chains,?_,?_,?_,h.readyOnce,?_,h.last,h.leaves,?_⟩
  · intro id info hi
    have he := h.entries id info hi
    exact ⟨⟨he.suspended.made,he.suspended.chain,he.suspended.owner⟩,he.waits,he.caller,
      he.coroutine,he.awaits⟩
  · intro f hf
    obtain ⟨c,ha⟩ := h.awaking f hf
    exact ⟨c,hawaking f c ha⟩
  · intro f hf
    obtain ⟨c,hsus,hcom⟩ := h.ready f hf
    exact ⟨c,⟨hsus.made,hsus.chain,hsus.owner⟩,hcom⟩
  · intro note hn
    have hnote := h.notes note hn
    cases note <;> exact hnote
  · intro c hlt
    rcases h.served c hlt with hi | ⟨f,hf,ha⟩ | hcom
    · exact .inl hi
    · exact .inr (.inl ⟨f,hf,hawaking f c ha⟩)
    · exact .inr (.inr hcom)

theorem NetThread.callbacks_some {info : MaintainInfo} {id : Word .w64}
    (h : s.net.waitingCoros id = some info) :
    s.callbacks id = [.callback info.coroRpcCallback] := by
  simp [callbacks,h]

theorem NetService.setCall_coroutine (net : NetService R) (c : Nat) (rpc : RpcBase R)
    (h : rpc.coroutine = (net.calls c).coroutine) (d : Nat) :
    ((net.setCall c rpc).calls d).coroutine = (net.calls d).coroutine := by
  by_cases hd : d = c
  · subst hd
    simp [NetService.setCall,h]
  · simp [NetService.setCall,hd]

/-- A response finds no entry and changes nothing, or is given to the call of the entry. -/
theorem NetThread.Sound.receive_cases (h : s.Sound owner) (hfree : s.needAwak = none)
    {D : Defaults R} {p : Platform} {header : PackageHeader} {peer : EndPoint}
    {payload : List UInt8} (he : s.receive D p header peer payload = some t) :
    t = s ∨ ∃ info awak, s.Called t info awak := by
  unfold receive at he
  cases hw : s.net.waitingCoros header.rpcId with
  | none =>
    simp only [NetService.respond_none hw,callbacks,hw,List.append_nil,Option.some.injEq] at he
    refine .inl (he.symm.trans ?_)
    rw [← hfree]
  | some info =>
    have hentry := h.entries _ _ hw
    have hcaller := hentry.caller
    have hkey : s.net.waitingCoros (s.caller info.coroRpcCallback) = some info := by
      rw [hcaller]
      exact hw
    refine .inr ⟨info,?_⟩
    rw [callbacks_some hw,NetService.respond_some hw] at he
    cases hd : decodeResult D p (s.net.calls info.coroRpcCallback).sig.ret payload with
    | error e =>
      simp only [hd] at he
      obtain ⟨_,heq⟩ := Option.ite_none_right_eq_some.mp he
      cases heq
      exact ⟨false,hkey,rfl,fun _ => rfl,rfl,rfl,rfl,rfl,rfl,rfl,hfree,rfl⟩
    | ok value =>
      simp only [hd,Option.some.injEq] at he
      subst he
      refine ⟨(s.net.calls info.coroRpcCallback).finishes,hkey,?_,?_,rfl,rfl,rfl,rfl,rfl,rfl,?_,
        rfl⟩
      · rw [hentry.awaits,hcaller]
        cases (s.net.calls info.coroRpcCallback).finishes <;> rfl
      · intro c
        have hset := s.net.setCall_coroutine info.coroRpcCallback
          ((s.net.calls info.coroRpcCallback).record (peer.setPort header.serverPort) value) rfl c
        rw [hentry.awaits]
        cases (s.net.calls info.coroRpcCallback).finishes <;> exact hset
      · rw [hentry.awaits]

/-- A timer finds no entry, or it completes the call of the entry. -/
theorem NetThread.Sound.expire_cases (h : s.Sound owner) (hfree : s.needAwak = none)
    {ndebug : Bool} {coroId : Word .w64} (he : s.expire ndebug coroId = some t) :
    t = { s with timers := s.timers.erase coroId } ∨ ∃ info, s.Called t info true := by
  unfold expire at he
  cases hw : s.net.waitingCoros coroId with
  | none =>
    simp only [NetService.timeout,hw,callbacks,List.append_nil,Option.some.injEq] at he
    refine .inl (he.symm.trans ?_)
    rw [← hfree]
  | some info =>
    have hentry := h.entries _ _ hw
    have hcaller := hentry.caller
    have hkey : s.net.waitingCoros (s.caller info.coroRpcCallback) = some info := by
      rw [hcaller]
      exact hw
    refine .inr ⟨info,?_⟩
    by_cases hok : ndebug = true ∨ (s.net.calls info.coroRpcCallback).timeoutAssertion = true
    · simp only [NetService.timeout,hw,callbacks_some hw,check_pos hok,Exec.ok_bind,
        Option.some.injEq] at he
      subst he
      refine ⟨hkey,?_,fun c => ?_,rfl,rfl,rfl,rfl,rfl,rfl,rfl,rfl⟩
      · rw [hcaller]
        rfl
      · exact s.net.setCall_coroutine info.coroRpcCallback
          (s.net.calls info.coroRpcCallback).timeoutCb rfl c
    · simp only [NetService.timeout,hw,check_neg hok,Exec.error_bind] at he
      cases he

theorem NetThread.Sound.step (h : s.Sound owner) {D : Defaults R} {p : Platform} {ndebug : Bool}
    {e : NetEvent R} (he : s.step owner D p ndebug e = some t) : t.Sound owner := by
  cases e with
  | call coroId rpc =>
    obtain ⟨⟨hid,ho⟩,heq⟩ := Option.ite_none_right_eq_some.mp he
    cases heq
    exact h.call hid ho
  | receive header peer payload =>
    obtain ⟨hfree,heq⟩ := Option.ite_none_right_eq_some.mp he
    rcases h.receive_cases hfree.2 heq with heq | ⟨info,awak,hc⟩
    · rw [heq]
      exact h
    · exact h.called hc hfree.2
  | expire coroId =>
    obtain ⟨⟨hfree,_⟩,heq⟩ := Option.ite_none_right_eq_some.mp he
    rcases h.expire_cases hfree.2 heq with heq | ⟨info,hc⟩
    · rw [heq]
      exact h.outside _ s.phase
    · exact h.called hc hfree.2
  | commit =>
    obtain ⟨f,hf,heq⟩ := Option.map_eq_some_iff.mp he
    rw [← heq]
    exact h.commit hf
  | resume f =>
    obtain ⟨hf,heq⟩ := Option.ite_none_right_eq_some.mp he
    cases heq
    exact h.resume hf
  | stop =>
    obtain ⟨_,heq⟩ := Option.ite_none_right_eq_some.mp he
    cases heq
    exact h.outside s.timers _
  | finish =>
    obtain ⟨_,heq⟩ := Option.ite_none_right_eq_some.mp he
    cases heq
    exact h.outside s.timers _

theorem NetThread.start_sound (net : NetService R) : (start net).Sound owner := by
  refine ⟨by simp [start],by simp [start],by simp [start],by simp [start],List.nodup_nil,
    by simp [start],?_,.nil,by simp [start]⟩
  intro before f call hpre
  have hlen := hpre.length_le
  simp [start] at hlen

end Steps

/-- However calls, responses and timers come, every call completes at most once. -/
theorem completesOnce {R : Reflection} (owner : Nat → Word .w64) (D : Defaults R) (p : Platform)
    (ndebug : Bool) (net : NetService R) (s : NetThread R)
    (h : Transition.Reaches (NetThread.step owner D p ndebug) (fun _ _ => true) (.start net) s) :
    s.CompletesOnce := by
  have hsound : s.Sound owner := h.invariant (I := NetThread.Sound owner)
    (fun _ _ _ hs _ he => hs.step he) (NetThread.start_sound net)
  exact hsound.once

def answeredTwice : List (NetEvent personReflection) :=
  [.call 1 (askBoth 1000),yes,.commit,.resume 1,.call 1 (askBoth 1000),yes,.commit,.expire 1]

theorem answeredTwice_completesOnce : ∃ s : NetThread personReflection,
    s.history = [.insert 0 false,.callback 0,.commit 1 (some 0),.insert 1 false,.callback 1,
      .commit 1 (some 1)] ∧ s.CompletesOnce := by
  have hrun : (Transition.run (NetThread.step ownFrame personDefaults .small true)
      (fun _ _ => true) idleThread answeredTwice).map NetThread.history =
      some [.insert 0 false,.callback 0,.commit 1 (some 0),.insert 1 false,.callback 1,
        .commit 1 (some 1)] := by decide
  obtain ⟨s,hs,heq⟩ := Option.map_eq_some_iff.mp hrun
  exact ⟨s,heq,completesOnce ownFrame personDefaults .small true _ s
    (Transition.reaches_of_run hs)⟩

end NewRpc.Net
