/-
Fanout/FanoutCommand.lean

The state that the shares of one fanout have in common, from `fanout/fanout_command.rs`.

Design.  The operation is any type with the hooks of the trait `FanoutCommand`.  What the state does to the
outside is a list of calls: of the operation's hooks and of the completion callback.  Every answer that a
state takes in *settles* one target, by a response that the operation processed or by an error (`settles`).
-/
import ValkeyTimeSeries.Fanout.FanoutError

namespace ValkeyTimeSeries

open List

inductive NodeLocation where
  | here
  | remote
deriving DecidableEq, Repr

/-- What tells the nodes of a cluster apart; two nodes are one when their ids are. -/
structure NodeInfo where
  id : Nat
  location : NodeLocation
deriving DecidableEq, Repr

def NodeInfo.isLocal (node : NodeInfo) : Bool := node.location = .here

/-- Stand-in target for a callback that has no sender; no node has its id. -/
def placeholderNode : NodeInfo := ⟨0, .remote⟩

class FanoutCommand (Op : Type) where
  Response : Type
  default : Op
  deserialize : List (BitVec 8) → Except String Response
  onResponse : Op → Response → NodeInfo → Except FanoutError Unit × Op
  onError : Op → FanoutError → NodeInfo → Op
  onCompletion : Op → Op
  failFast : Op → Bool
  generateErrorReply : Op → FanoutError

inductive FanoutLifecycleState where
  | pending
  | active
  | completed
deriving DecidableEq, Repr

inductive FanoutCall (Op : Type) where
  | onResponse (target : NodeInfo) (result : Except FanoutError Unit)
  | onError (error : FanoutError) (target : NodeInfo)
  | onCompletion
  | callback (operation : Op) (result : Except FanoutError Unit)

structure FanoutStateInner (Op : Type) where
  operation : Op
  lifecycle : FanoutLifecycleState
  outstanding : Nat
  timedOut : Bool
  errorCount : Nat
  abortError : Option FanoutError
  /-- Whether the callback is still there to be taken. -/
  callback : Bool
  /-- What has been called, oldest first. -/
  calls : List (FanoutCall Op)

namespace FanoutStateInner

variable {Op : Type}

def new (operation : Op) (outstanding : Nat) : FanoutStateInner Op :=
  { operation, outstanding, lifecycle := .pending, errorCount := 0, timedOut := false, abortError := none,
    callback := true, calls := [] }

variable [FanoutCommand Op] (s : FanoutStateInner Op)

def activate : FanoutStateInner Op :=
  if s.lifecycle = .pending then { s with lifecycle := .active } else s

/-- The result passed on: of several reasons to fail, the first one here. -/
def result : Except FanoutError Unit :=
  match s.abortError with
  | some err => .error err
  | none =>
    if s.timedOut then .error .timeout
    else if s.errorCount > 0 then .error (FanoutCommand.generateErrorReply s.operation)
    else .ok ()

/-- The operation's own `on_completion`, for a success only. -/
def complete : FanoutStateInner Op :=
  match s.result with
  | .ok () => { s with operation := FanoutCommand.onCompletion s.operation, calls := s.calls ++ [.onCompletion] }
  | .error _ => { s with abortError := none }

def onCompletion : FanoutStateInner Op :=
  if s.lifecycle = .completed then s
  else if ¬ s.callback then { s with lifecycle := .completed }
  else
    let result := s.result
    let s := s.complete
    { s with
      lifecycle := .completed
      callback := false
      operation := FanoutCommand.default
      calls := s.calls ++ [.callback s.operation result] }

def rpcDone : FanoutStateInner Op :=
  let s := { s with outstanding := s.outstanding - 1 }
  if s.outstanding = 0 then s.onCompletion else s

/-- The operation's own `on_error`, and the count. -/
def countError (error : FanoutError) (target : NodeInfo) : FanoutStateInner Op :=
  { s with
    operation := FanoutCommand.onError s.operation error target
    calls := s.calls ++ [.onError error target]
    errorCount := s.errorCount + 1 }

def onError (error : FanoutError) (target : NodeInfo) : FanoutStateInner Op :=
  if s.lifecycle = .completed then s
  else
    let s := s.activate.countError error target
    match error.kind with
    | .timeout => onCompletion { s with timedOut := true, outstanding := 0 }
    | .clusterMapMismatch => onCompletion { s with abortError := some error }
    | .keyPermissions | .permissions | .busy => onCompletion { s with abortError := some error }
    | _ => s.rpcDone

def received (operation : Op) (target : NodeInfo) (result : Except FanoutError Unit) : FanoutStateInner Op :=
  { s with operation, calls := s.calls ++ [.onResponse target result] }

def onResponse (resp : FanoutCommand.Response Op) (target : NodeInfo) : FanoutStateInner Op :=
  if s.lifecycle = .completed then s
  else
    let s := s.activate
    if s.timedOut then s.rpcDone
    else
      let (result, operation) := FanoutCommand.onResponse s.operation resp target
      let s := s.received operation target result
      match result with
      | .ok () => s.rpcDone
      | .error err =>
        if FanoutCommand.failFast s.operation then
          onCompletion { s.countError err target with outstanding := 0 }
        else s.onError err target

/-- What happens when the last handle on the state goes away. -/
def drop : FanoutStateInner Op :=
  if s.lifecycle = .active then s.onCompletion else s

/-! ### What the calls say -/

end FanoutStateInner

namespace FanoutCall

variable {Op : Type}

/-- The target whose share a call settles: a response that was processed, or an error. -/
def settles : FanoutCall Op → Option NodeInfo
  | .onResponse target (.ok ()) => some target
  | .onError _ target => some target
  | _ => none

def processes : FanoutCall Op → Option NodeInfo
  | .onResponse target (.ok ()) => some target
  | _ => none

def isCallback : FanoutCall Op → Bool
  | .callback _ _ => true
  | _ => false

def isSuccess : FanoutCall Op → Bool
  | .callback _ (.ok ()) => true
  | _ => false

theorem isCallback_of_isSuccess {call : FanoutCall Op} (h : call.isSuccess = true) : call.isCallback = true := by
  cases call <;> first | rfl | cases h

end FanoutCall

namespace FanoutStateInner

open FanoutCall

variable {Op : Type} {s : FanoutStateInner Op}

def settled (s : FanoutStateInner Op) : List NodeInfo := s.calls.filterMap settles

def processed (s : FanoutStateInner Op) : List NodeInfo := s.calls.filterMap processes

/-- A fanout that has not completed: nothing has gone wrong that ends it, and the callback
has not run. -/
structure Open (s : FanoutStateInner Op) : Prop where
  lifecycle : s.lifecycle ≠ .completed
  timedOut : s.timedOut = false
  abortError : s.abortError = none
  callback : s.callback = true
  calls : ∀ call ∈ s.calls, call.isCallback = false
  processed : s.errorCount = 0 → s.processed = s.settled

/-- A fanout that has completed: the callback ran, as the last of the calls. -/
structure Closed (s : FanoutStateInner Op) : Prop where
  lifecycle : s.lifecycle = .completed
  calls : ∃ before operation result, s.calls = before ++ [.callback operation result]
    ∧ ∀ call ∈ before, call.isCallback = false

theorem Open.no_callback (h : Open s) : ¬ ∃ call ∈ s.calls, call.isCallback = true := by
  rintro ⟨call, hcall, hcallback⟩
  rw [h.calls call hcall] at hcallback
  cases hcallback

theorem Closed.callback (h : Closed s) : ∃ call ∈ s.calls, call.isCallback = true := by
  obtain ⟨before, operation, result, hcalls, -⟩ := h.calls
  exact ⟨.callback operation result, by simp [hcalls], rfl⟩

theorem Closed.callback_last (h : Closed s) : s.calls.countP isCallback = 1
    ∧ ∀ before call after, s.calls = before ++ call :: after → call.isCallback = true → after = [] := by
  obtain ⟨front, operation, result, hcalls, hfront⟩ := h.calls
  constructor
  · rw [hcalls, countP_append, countP_eq_zero.mpr fun call hcall => by simp [hfront call hcall]]
    rfl
  · intro before call after heq hcallback
    rcases eq_nil_or_concat after with hnil | ⟨rest, last, hlast⟩
    · exact hnil
    · -- all but the last call are other calls
      have hmem : call ∈ front := by
        rw [hcalls, hlast, concat_eq_append, ← cons_append, ← append_assoc] at heq
        rw [(append_inj' heq rfl).1]
        exact mem_append_right _ mem_cons_self
      rw [hfront call hmem] at hcallback
      cases hcallback

theorem new_open (operation : Op) (outstanding : Nat) : (new operation outstanding).Open :=
  ⟨by simp [new], rfl, rfl, rfl, by simp [new], fun _ => rfl⟩

/-- What an answer of `target` does to a fanout that has not completed. -/
inductive Taken (s : FanoutStateInner Op) (target : NodeInfo) : FanoutStateInner Op → Prop
  /-- It is counted, and the fanout waits for more. -/
  | counted {s' : FanoutStateInner Op} (isOpen : s'.Open) (more : 1 < s.outstanding)
      (outstanding : s'.outstanding + 1 = s.outstanding)
      (settled : s'.settled = s.settled ++ [target]) : Taken s target s'
  /-- It ends the fanout; without an error only if it is the last one and all were processed. -/
  | ended {s' : FanoutStateInner Op} (closed : s'.Closed) (settled : s'.settled = s.settled ++ [target])
      (success : (∃ call ∈ s'.calls, call.isSuccess = true) →
        s.outstanding ≤ 1 ∧ s'.processed = s'.settled) : Taken s target s'

variable [FanoutCommand Op] {s' : FanoutStateInner Op} {target : NodeInfo}

omit [FanoutCommand Op] in
theorem Taken.congr {s₀ : FanoutStateInner Op} (h : Taken s target s') (houtstanding : s.outstanding = s₀.outstanding)
    (hsettled : s.settled = s₀.settled) : Taken s₀ target s' := by
  cases h with
  | counted isOpen more outstanding settled =>
    exact .counted isOpen (houtstanding ▸ more) (houtstanding ▸ outstanding) (hsettled ▸ settled)
  | ended closed settled success => exact .ended closed (hsettled ▸ settled) (houtstanding ▸ success)

/-! ### Completion -/

/-- What a completion leaves of the calls before it. -/
structure Completes (s s' : FanoutStateInner Op) : Prop where
  closed : s'.Closed
  settled : s'.settled = s.settled
  processed : s'.processed = s.processed
  success : (∃ call ∈ s'.calls, call.isSuccess = true) → s.result = .ok ()

theorem onCompletion_completes (hlife : s.lifecycle ≠ .completed) (hcallback : s.callback = true)
    (hcalls : ∀ call ∈ s.calls, call.isCallback = false) : Completes s s.onCompletion := by
  have hsuccess (call : FanoutCall Op) (hcall : call ∈ s.calls) : call.isSuccess = false := by
    by_contra hok
    have := isCallback_of_isSuccess (Bool.eq_true_of_not_eq_false hok)
    rw [hcalls call hcall] at this
    cases this
  rw [onCompletion, if_neg hlife, if_neg (by simp [hcallback])]
  unfold complete
  cases hresult : s.result with
  | ok =>
    refine ⟨⟨rfl, _, _, _, rfl, fun call hcall => ?_⟩, ?_, ?_, fun _ => hresult⟩
    · rcases mem_append.mp hcall with hcall | hcall
      · exact hcalls call hcall
      · rw [mem_singleton.mp hcall]
        rfl
    · simp [settled, settles]
    · simp [processed, processes]
  | error e =>
    refine ⟨⟨rfl, _, _, _, rfl, hcalls⟩, ?_, ?_, ?_⟩
    · simp [settled, settles]
    · simp [processed, processes]
    · rintro ⟨call, hcall, hok⟩
      rcases mem_append.mp hcall with hcall | hcall
      · rw [hsuccess call hcall] at hok
        cases hok
      · rw [mem_singleton.mp hcall] at hok
        cases hok

theorem onCompletion_taken (hlife : s'.lifecycle ≠ .completed) (hcall : s'.callback = true)
    (hcalls : ∀ call ∈ s'.calls, call.isCallback = false) (hsettled : s'.settled = s.settled ++ [target])
    (hfails : s'.result ≠ .ok ()) : Taken s target s'.onCompletion := by
  have h := onCompletion_completes hlife hcall hcalls
  exact .ended h.closed (h.settled.trans hsettled) fun hok => absurd (h.success hok) hfails

theorem Open.rpcDone_taken (h : s'.Open) (houtstanding : s'.outstanding = s.outstanding)
    (hsettled : s'.settled = s.settled ++ [target]) : Taken s target s'.rpcDone := by
  rw [rpcDone]
  dsimp only
  have hopen : ({ s' with outstanding := s'.outstanding - 1 } : FanoutStateInner Op).Open :=
    ⟨h.lifecycle, h.timedOut, h.abortError, h.callback, h.calls, h.processed⟩
  split
  · have hcompl := onCompletion_completes hopen.lifecycle hopen.callback hopen.calls
    refine .ended hcompl.closed (hcompl.settled.trans hsettled) fun hok => ⟨by omega, ?_⟩
    have hresult := hcompl.success hok
    rw [hcompl.processed, hcompl.settled]
    refine h.processed ?_
    rw [result] at hresult
    rw [h.abortError, h.timedOut] at hresult
    by_contra herr
    rw [if_pos (Nat.pos_of_ne_zero herr)] at hresult
    cases hresult
  · exact .counted hopen (by omega) (by dsimp only; omega) hsettled

/-! ### Answers -/

omit [FanoutCommand Op] in
theorem activate_eq (hlife : s.lifecycle ≠ .completed) : s.activate = { s with lifecycle := .active } := by
  unfold activate
  split
  · rfl
  · rename_i hpending
    obtain ⟨operation, lifecycle, _⟩ := s
    cases lifecycle with
    | pending => exact absurd rfl hpending
    | active => rfl
    | completed => exact absurd rfl hlife

theorem Open.countError (h : s.Open) (hactive : s.lifecycle = .active) (error : FanoutError) (target : NodeInfo) :
    (s.countError error target).Open ∧ (s.countError error target).settled = s.settled ++ [target] := by
  refine ⟨⟨?_, h.timedOut, h.abortError, h.callback, fun call hcall => ?_, fun hzero => ?_⟩, ?_⟩
  · rw [FanoutStateInner.countError, hactive]
    simp
  · rcases mem_append.mp hcall with hcall | hcall
    · exact h.calls call hcall
    · rw [mem_singleton.mp hcall]
      rfl
  · exact absurd hzero (Nat.succ_ne_zero _)
  · simp [FanoutStateInner.countError, settled, settles]

omit [FanoutCommand Op] in
theorem Open.activate (h : s.Open) : s.activate.Open ∧ s.activate.lifecycle = .active ∧ s.activate.settled = s.settled
    ∧ s.activate.outstanding = s.outstanding := by
  rw [activate_eq h.lifecycle]
  exact ⟨⟨by simp, h.timedOut, h.abortError, h.callback, h.calls, h.processed⟩, rfl, rfl, rfl⟩

/-- **An error** is taken in by a fanout that has not completed. -/
theorem Open.onError_taken (h : s.Open) (error : FanoutError) (target : NodeInfo) :
    Taken s target (s.onError error target) := by
  rw [onError, if_neg h.lifecycle]
  obtain ⟨hopen, hactive, hsame, houtstanding⟩ := h.activate
  obtain ⟨hopen, hsettled⟩ := hopen.countError hactive error target
  have hcount : 0 < (s.activate.countError error target).errorCount := Nat.succ_pos _
  have hout : (s.activate.countError error target).outstanding = s.outstanding := houtstanding
  rw [hsame] at hsettled
  generalize s.activate.countError error target = s' at hopen hsettled hcount hout
  -- whatever ends the fanout here makes it fail
  have habort : Taken s target (onCompletion { s' with abortError := some error }) :=
    onCompletion_taken hopen.lifecycle hopen.callback hopen.calls hsettled (by simp [result])
  split
  · exact onCompletion_taken hopen.lifecycle hopen.callback hopen.calls hsettled (by simp [result, hopen.abortError])
  · exact habort
  · exact habort
  · exact habort
  · exact habort
  · exact hopen.rpcDone_taken hout hsettled

omit [FanoutCommand Op] in
theorem Open.received (h : s.Open) (operation : Op) (target : NodeInfo) (result : Except FanoutError Unit) :
    (s.received operation target result).Open ∧ (s.received operation target result).settled
        = s.settled ++ (match result with | .ok () => [target] | .error _ => []) := by
  have hsettled : (s.received operation target result).settled
      = s.settled ++ (match result with | .ok () => [target] | .error _ => []) := by
    rw [FanoutStateInner.received, settled, settled, filterMap_append]
    cases result <;> rfl
  refine ⟨⟨h.lifecycle, h.timedOut, h.abortError, h.callback, fun call hcall => ?_, fun hzero => ?_⟩, hsettled⟩
  · rcases mem_append.mp hcall with hcall | hcall
    · exact h.calls call hcall
    · rw [mem_singleton.mp hcall]
      rfl
  · rw [hsettled, ← h.processed hzero, FanoutStateInner.received, FanoutStateInner.processed,
      FanoutStateInner.processed, filterMap_append]
    cases result <;> rfl

/-- **A response** is taken in by a fanout that has not completed. -/
theorem Open.onResponse_taken (h : s.Open) (resp : FanoutCommand.Response Op) (target : NodeInfo) :
    Taken s target (s.onResponse resp target) := by
  rw [onResponse, if_neg h.lifecycle]
  obtain ⟨hopen, hactive, hsame, houtstanding⟩ := h.activate
  generalize s.activate = s₁ at hopen hactive hsame houtstanding
  rw [if_neg (by rw [hopen.timedOut]; exact Bool.false_ne_true)]
  obtain ⟨result, operation⟩ := FanoutCommand.onResponse s₁.operation resp target
  obtain ⟨hopen₂, hsettled⟩ := hopen.received operation target result
  have hactive₂ : (s₁.received operation target result).lifecycle = .active := hactive
  have houtstanding₂ : (s₁.received operation target result).outstanding = s.outstanding := houtstanding
  rw [hsame] at hsettled
  dsimp only
  generalize s₁.received operation target result = s₂ at hopen₂ hsettled hactive₂ houtstanding₂
  cases result with
  | ok => exact hopen₂.rpcDone_taken houtstanding₂ hsettled
  | error err =>
    rw [append_nil] at hsettled
    dsimp only
    split
    · obtain ⟨hopen₃, hsettled₃⟩ := hopen₂.countError hactive₂ err target
      rw [hsettled] at hsettled₃
      refine onCompletion_taken hopen₃.lifecycle hopen₃.callback hopen₃.calls hsettled₃ ?_
      simp [result, hopen₂.abortError, hopen₂.timedOut, FanoutStateInner.countError]
    · exact (hopen₂.onError_taken err target).congr houtstanding₂ hsettled

theorem Open.onError_ends (h : s.Open) (error : FanoutError) (target : NodeInfo)
    (hkind : error.kind ∈ [.timeout, .clusterMapMismatch, .keyPermissions, .permissions, .busy]) :
    (s.onError error target).Closed ∧ (s.onError error target).settled = s.settled ++ [target]
    ∧ ∀ call ∈ (s.onError error target).calls, call.isSuccess = false := by
  rw [onError, if_neg h.lifecycle]
  obtain ⟨hopen, hactive, hsame, -⟩ := h.activate
  obtain ⟨hopen, hsettled⟩ := hopen.countError hactive error target
  rw [hsame] at hsettled
  generalize s.activate.countError error target = s₁ at hopen hsettled
  -- a completion from here on, with a result that is not a success
  have hends (s₂ : FanoutStateInner Op) (hlife : s₂.lifecycle = s₁.lifecycle) (hcallback : s₂.callback = s₁.callback)
      (hcalls : s₂.calls = s₁.calls) (hresult : s₂.result ≠ .ok ()) :
      s₂.onCompletion.Closed ∧ s₂.onCompletion.settled = s.settled ++ [target]
        ∧ ∀ call ∈ s₂.onCompletion.calls, call.isSuccess = false := by
    have hcompl := onCompletion_completes (hlife ▸ hopen.lifecycle) (hcallback.trans hopen.callback)
      (hcalls ▸ hopen.calls)
    have hsame : s₂.settled = s₁.settled := by rw [settled, settled, hcalls]
    refine ⟨hcompl.closed, (hcompl.settled.trans hsame).trans hsettled, fun call hcall => ?_⟩
    by_contra hok
    exact hresult (hcompl.success ⟨call, hcall, Bool.eq_true_of_not_eq_false hok⟩)
  have habort := hends { s₁ with abortError := some error } rfl rfl rfl (by simp [result])
  split
  · exact hends _ rfl rfl rfl (by simp [result, hopen.abortError])
  · exact habort
  · exact habort
  · exact habort
  · exact habort
  · simp_all

end FanoutStateInner

end ValkeyTimeSeries
