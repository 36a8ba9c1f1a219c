/-
Fanout/Completion.lean

A fanout completes once, and what a completion without an error means.

Design.  A request is waiting or finished.  While it waits, the shared state and the entry of the in-flight
table count the same thing in two ways: the targets that are not settled. `Waiting` says so, and for each
handle that is gone which targets it has settled.  Every event takes a request that waits to one that waits or
is finished, and leaves a finished one alone (`Fanout.step_tracked`).  A worker that dies breaks the link
between the job's handle and its target, which is where a success without an answer comes from.
-/
import ValkeyTimeSeries.Fanout.ClusterRpc

namespace ValkeyTimeSeries

open FanoutTargets

namespace FanoutTargets

variable {targets : FanoutTargets}

theorem mem_remoteTargets {node : NodeInfo} :
    node ∈ targets.remoteTargets ↔ node ∈ targets.nodes ∧ node.isLocal = false := by
  simp [remoteTargets]

theorem nodup_nodes (targets : FanoutTargets) : targets.nodes.Nodup := targets.nodup.of_map _

theorem eq_of_id {a b : NodeInfo} (ha : a ∈ targets.nodes) (hb : b ∈ targets.nodes) (h : a.id = b.id) : a = b :=
  List.inj_on_of_nodup_map targets.nodup ha hb h

theorem mem_of_full {settled : List NodeInfo} (hnodup : settled.Nodup)
    (hsubset : ∀ node ∈ settled, node ∈ targets.nodes) (hfull : targets.nodes.length ≤ settled.length) :
    ∀ node ∈ targets.nodes, node ∈ settled :=
  fun _ hnode => (List.subperm_of_subset hnodup hsubset |>.perm_of_length_le hfull).symm.subset hnode

end FanoutTargets

/-- Where the local share is agrees with the targets that are settled. -/
def LocalShare.Agrees (targets : FanoutTargets) (settled : List NodeInfo) : LocalShare → Prop
  | .absent => ∀ node ∈ targets.nodes, node.isLocal = false
  | .queued node | .running node => node ∈ targets.nodes ∧ node.isLocal = true ∧ node ∉ settled
  | .done => ∀ node ∈ targets.nodes, node.isLocal = true → node ∈ settled
  | .died => True

namespace Fanout

open FanoutStateInner
open List hiding drop

variable {Op : Type}

/-! ### The invariant -/

inductive InFlight (targets : FanoutTargets) (requestId : Nat) (settled : List NodeInfo) : Option InFlightRequest → Prop
  /-- Without an entry all remote targets are settled. -/
  | gone (all : ∀ node ∈ targets.remoteTargets, node ∈ settled) : InFlight targets requestId settled none
  | waits {request : InFlightRequest} (id_eq : request.id = requestId) (targets_eq : request.targets = targets)
      (timedOut : request.timedOut = false) (pos : 0 < request.outstanding)
      (count : request.outstanding + (settled.filter fun node => !node.isLocal).length = targets.remoteTargets.length)
      (responded : ∀ node ∈ targets.remoteTargets, node.id ∈ request.responded ↔ node ∈ settled) :
      InFlight targets requestId settled (some request)

/-- Some targets are settled, each of them once, and the fanout counts the others. -/
structure Counts (targets : FanoutTargets) (state : FanoutStateInner Op) : Prop where
  isOpen : state.Open
  pos : 0 < state.outstanding
  count : state.outstanding + state.settled.length = targets.nodes.length
  nodup : state.settled.Nodup
  subset : ∀ node ∈ state.settled, node ∈ targets.nodes

/-- The callback has run; each target was counted once at most. -/
structure Finished (targets : FanoutTargets) (state : FanoutStateInner Op) : Prop where
  closed : state.Closed
  once : ∀ node ∈ targets.nodes, state.settled.count node ≤ 1

/-- If the callback was told of a success, every target has one processed response. -/
def Complete (targets : FanoutTargets) (state : FanoutStateInner Op) : Prop :=
  (∃ call ∈ state.calls, call.isSuccess = true) → ∀ node ∈ targets.nodes, state.processed.count node = 1

instance (targets : FanoutTargets) (state : FanoutStateInner Op) : Decidable (Complete targets state) :=
  inferInstanceAs (Decidable ((∃ call ∈ state.calls, _) → ∀ node ∈ targets.nodes, _))

variable {targets : FanoutTargets} {requestId : Nat} {state state' : FanoutStateInner Op} {target : NodeInfo}

/-- **An answer** of a target that is not settled. -/
theorem Counts.taken (h : Counts targets state) (htaken : Taken state target state') (hmem : target ∈ targets.nodes)
    (hnew : target ∉ state.settled) : (Counts targets state' ∨ Finished targets state' ∧ Complete targets state')
    ∧ state'.settled = state.settled ++ [target] := by
  have hnodup : (state.settled ++ [target]).Nodup := by
    rw [← concat_eq_append]
    exact h.nodup.concat hnew
  have hsubset (node : NodeInfo) (hnode : node ∈ state.settled ++ [target]) : node ∈ targets.nodes := by
    rcases mem_append.mp hnode with hnode | hnode
    · exact h.subset node hnode
    · rw [mem_singleton.mp hnode]
      exact hmem
  have hcount := h.count
  cases htaken with
  | counted isOpen more outstanding settled =>
    refine ⟨.inl ⟨isOpen, by omega, ?_, settled ▸ hnodup, settled ▸ hsubset⟩, settled⟩
    rw [settled, length_append, length_singleton]
    omega
  | ended closed settled success =>
    refine ⟨.inr ⟨⟨closed, fun node _ => settled ▸ nodup_iff_count_le_one.mp hnodup node⟩, ?_⟩, settled⟩
    intro hok node hnode
    obtain ⟨hlast, hprocessed⟩ := success hok
    rw [hprocessed, settled]
    refine count_eq_one_of_mem hnodup (mem_of_full hnodup hsubset ?_ node hnode)
    rw [length_append, length_singleton]
    omega

/-- **The timeout**, which no target sends. -/
theorem Counts.timeout [FanoutCommand Op] (h : Counts targets state) : Finished targets
    (state.onError .timeout placeholderNode)
    ∧ Complete targets (state.onError .timeout placeholderNode) := by
  obtain ⟨hclosed, hsettled, hfails⟩ := h.isOpen.onError_ends .timeout placeholderNode (by decide)
  refine ⟨⟨hclosed, fun node hnode => ?_⟩, fun ⟨call, hcall, hok⟩ => ?_⟩
  · have hne : placeholderNode ≠ node := fun heq => targets.real node hnode (heq ▸ rfl)
    rw [hsettled, count_append, count_singleton, beq_eq_false_iff_ne.mpr hne]
    exact nodup_iff_count_le_one.mp h.nodup node
  · rw [hfails call hcall] at hok
    cases hok

/-! ### The in-flight table -/

variable {settled : List NodeInfo} {request : InFlightRequest}

theorem InFlight.finish (h : InFlight targets requestId settled (some request)) (hnodup : settled.Nodup)
    (hsubset : ∀ node ∈ settled, node ∈ targets.nodes) (htarget : target ∈ targets.remoteTargets)
    (hnew : target ∉ settled) :
    InFlight targets requestId (settled ++ [target])
    { request with responded := target.id :: request.responded }.finish := by
  cases h with
  | waits id_eq targets_eq timedOut pos count responded =>
  obtain ⟨hmem, hremote⟩ := mem_remoteTargets.mp htarget
  have hfilter : ((settled ++ [target]).filter fun node => !node.isLocal)
      = (settled.filter fun node => !node.isLocal) ++ [target] := by
    rw [filter_append, filter_singleton, hremote]
    rfl
  rw [InFlightRequest.finish, if_pos pos]
  dsimp only
  split
  · -- the last of the remote targets
    refine .gone ?_
    have hsub : ∀ node ∈ ((settled ++ [target]).filter fun node => !node.isLocal), node ∈ targets.remoteTargets := by
      intro node hnode
      obtain ⟨hnode, hrem⟩ := mem_filter.mp hnode
      refine mem_remoteTargets.mpr ⟨?_, by simpa using hrem⟩
      rcases mem_append.mp hnode with hnode | hnode
      · exact hsubset node hnode
      · rw [mem_singleton.mp hnode]
        exact hmem
    have hnd : ((settled ++ [target]).filter fun node => !node.isLocal).Nodup := by
      rw [← concat_eq_append]
      exact (hnodup.concat hnew).filter _
    have hperm := (List.subperm_of_subset hnd hsub).perm_of_length_le (by
      rw [hfilter, length_append, length_singleton]
      omega)
    exact fun node hnode => (mem_filter.mp (hperm.symm.subset hnode)).1
  · refine .waits id_eq targets_eq timedOut (by dsimp only; omega) ?_ fun node hnode => ?_
    · rw [hfilter, length_append, length_singleton]
      dsimp only
      omega
    · have hid : node.id = target.id ↔ node = target :=
        ⟨fun heq => eq_of_id (mem_remoteTargets.mp hnode).1 hmem heq, fun heq => heq ▸ rfl⟩
      rw [mem_cons, mem_append, mem_singleton, responded node hnode, hid, or_comm]

/-- A request whose remote side waits for answers. -/
structure Waiting (targets : FanoutTargets) (requestId : Nat) (f : Fanout Op) : Prop where
  counts : Counts targets f.state
  inflight : InFlight targets requestId f.state.settled f.inflight

/-- What the remote side of a waiting request goes on to; the local share has no part in it. -/
structure Moved (targets : FanoutTargets) (requestId : Nat) (f f' : Fanout Op) : Prop where
  share : f'.share = f.share
  outcome : Waiting targets requestId f' ∨ Finished targets f'.state ∧ Complete targets f'.state
  settled : ∀ node, node ∈ f.state.settled → node ∈ f'.state.settled
  remote : ∀ node, node.isLocal = true → node ∈ f'.state.settled → node ∈ f.state.settled
  closed : f.state.Closed → f'.state = f.state

variable {f f' f'' : Fanout Op}

theorem Moved.refl (h : Waiting targets requestId f ∨ Finished targets f.state ∧ Complete targets f.state) :
    Moved targets requestId f f :=
  ⟨rfl, h, fun _ hnode => hnode, fun _ _ hnode => hnode, fun _ => rfl⟩

theorem Moved.trans (h : Moved targets requestId f f') (h' : Moved targets requestId f' f'') :
    Moved targets requestId f f'' where
  share := h'.share.trans h.share
  outcome := h'.outcome
  settled node hnode := h'.settled node (h.settled node hnode)
  remote node hlocal hnode := h.remote node hlocal (h'.remote node hlocal hnode)
  closed hclosed := (h'.closed (by rw [h.closed hclosed]; exact hclosed)).trans (h.closed hclosed)

theorem Waiting.not_closed (h : Waiting targets requestId f) : ¬ f.state.Closed :=
  fun hclosed => h.counts.isOpen.lifecycle hclosed.lifecycle

variable [FanoutCommand Op]

theorem responseHandler_taken (h : state.Open) (res : Except FanoutError (List (BitVec 8))) (target : NodeInfo) :
    Taken state target (responseHandler state res target) := by
  unfold responseHandler
  split
  · exact h.onError_taken _ _
  · split
    · exact h.onResponse_taken _ _
    · exact h.onError_taken _ _

theorem getTargetNodeOpt_filter (htargets : request.targets = targets) (sender : Nat) :
    match (request.getTargetNodeOpt sender).filter (fun node => !node.isLocal) with
    | none => ∀ node ∈ targets.remoteTargets, node.id ≠ sender
    | some node => node ∈ targets.remoteTargets ∧ node.id = sender := by
  rw [InFlightRequest.getTargetNodeOpt, htargets]
  cases hfind : targets.nodes.find? (·.id = sender) with
  | none =>
    intro node hnode heq
    have := find?_eq_none.mp hfind node (mem_remoteTargets.mp hnode).1
    exact this (decide_eq_true heq)
  | some node =>
    have hmem := mem_of_find?_eq_some hfind
    have hid : node.id = sender := by simpa using find?_some hfind
    cases hlocal : node.isLocal with
    | false =>
      simp only [Option.filter, hlocal]
      exact ⟨mem_remoteTargets.mpr ⟨hmem, hlocal⟩, hid⟩
    | true =>
      simp only [Option.filter, hlocal]
      intro other hother heq
      obtain ⟨hother, hremote⟩ := mem_remoteTargets.mp hother
      rw [eq_of_id hother hmem (heq.trans hid.symm), hlocal] at hremote
      cases hremote

/-- Only the first answer of a remote target counts. -/
theorem InFlight.handleResponse
    (h : InFlight targets requestId state.settled (some request)) (resp : Except FanoutError (List (BitVec 8)))
    (sender : Nat) : (request.handleResponse state resp sender = (false, request, state)
    ∧ ∀ node ∈ targets.remoteTargets, node.id = sender → node ∈ state.settled)
    ∨ ∃ node ∈ targets.remoteTargets, node.id = sender ∧ node ∉ state.settled ∧ request.handleResponse state resp sender
    = (true, { request with responded := node.id :: request.responded }, responseHandler state resp node) := by
  cases h with
  | waits id_eq targets_eq timedOut pos count responded =>
  have hnode := getTargetNodeOpt_filter targets_eq sender
  rw [InFlightRequest.handleResponse]
  cases hfilter : (request.getTargetNodeOpt sender).filter (fun node => !node.isLocal) with
  | none =>
    rw [hfilter] at hnode
    exact .inl ⟨rfl, fun node hmem heq => absurd heq (hnode node hmem)⟩
  | some node =>
    rw [hfilter] at hnode
    obtain ⟨hmem, rfl⟩ := hnode
    by_cases hold : node.id ∈ request.responded
    · refine .inl ⟨if_pos hold, fun other hother heq => ?_⟩
      exact (responded other hother).mp (heq ▸ hold)
    · exact .inr ⟨node, hmem, rfl, fun hsettled => hold ((responded node hmem).mpr hsettled), if_neg hold⟩

/-- **A message** that a node sends for this request, or one that could not be sent. -/
theorem Waiting.withInflightRequest (h : Waiting targets requestId f) (messageId : Nat)
    (resp : Except FanoutError (List (BitVec 8))) (sender : Nat) :
    Moved targets requestId f (f.withInflightRequest messageId resp sender)
    ∧ (messageId = requestId → ∀ node ∈ targets.remoteTargets, node.id = sender →
    node ∈ (f.withInflightRequest messageId resp sender).state.settled) := by
  rw [Fanout.withInflightRequest]
  cases hreq : f.inflight with
  | none =>
    have hinfl := h.inflight
    rw [hreq] at hinfl
    cases hinfl with
    | gone all => exact ⟨.refl (.inl h), fun _ node hnode _ => all node hnode⟩
  | some request =>
    have hinfl := h.inflight
    rw [hreq] at hinfl
    have hid : request.id = requestId := by
      cases hinfl
      assumption
    dsimp only
    split
    · rcases hinfl.handleResponse resp sender with ⟨hignored, hheard⟩ | ⟨node, hmem, rfl, hnew, htaken⟩
      · rw [hignored]
        exact ⟨⟨rfl, .inl ⟨h.counts, hinfl⟩, fun _ hnode => hnode, fun _ _ hnode => hnode, fun _ => rfl⟩, fun _ =>
          hheard⟩
      · rw [htaken]
        obtain ⟨hnodes, hremote⟩ := mem_remoteTargets.mp hmem
        obtain ⟨hout, hsettled⟩ := h.counts.taken (responseHandler_taken h.counts.isOpen resp node) hnodes hnew
        have hfinish := hinfl.finish h.counts.nodup h.counts.subset hmem hnew
        rw [← hsettled] at hfinish
        refine ⟨⟨rfl, hout.imp_left fun hcounts => ⟨hcounts, hfinish⟩, fun other hother => ?_,
          fun other hlocal hother => ?_, fun hclosed => absurd hclosed h.not_closed⟩, fun _ other hother heq => ?_⟩
        · rw [hsettled]
          exact mem_append_left _ hother
        · rw [hsettled] at hother
          refine (mem_append.mp hother).resolve_right fun hlast => ?_
          rw [mem_singleton.mp hlast, hremote] at hlocal
          cases hlocal
        · rw [hsettled, eq_of_id (mem_remoteTargets.mp hother).1 hnodes heq]
          exact mem_append_right _ mem_cons_self
    · rename_i hother
      exact ⟨.refl (.inl h), fun heq => absurd (hid.trans heq.symm) hother⟩

theorem Finished.responseHandler (h : state.Closed) (res : Except FanoutError (List (BitVec 8))) (target : NodeInfo) :
    responseHandler state res target = state := by
  unfold ValkeyTimeSeries.responseHandler
  split
  · exact if_pos h.lifecycle
  · split
    · exact if_pos h.lifecycle
    · exact if_pos h.lifecycle

theorem Finished.withInflightRequest (h : f.state.Closed) (messageId : Nat)
    (resp : Except FanoutError (List (BitVec 8))) (sender : Nat) : (f.withInflightRequest messageId resp sender).state
    = f.state
    ∧ (f.withInflightRequest messageId resp sender).share = f.share := by
  unfold Fanout.withInflightRequest
  split
  · exact ⟨rfl, rfl⟩
  · split
    · refine ⟨?_, rfl⟩
      dsimp only
      unfold InFlightRequest.handleResponse
      split
      · rfl
      · split
        · rfl
        · exact Finished.responseHandler h _ _
    · exact ⟨rfl, rfl⟩

/-! ### The local share -/

theorem InFlight.append_local {inflight : Option InFlightRequest}
    (h : InFlight targets requestId settled inflight) (hlocal : target.isLocal = true) :
    InFlight targets requestId (settled ++ [target]) inflight := by
  have hmem {node : NodeInfo} (hnode : node ∈ targets.remoteTargets) : node ∈ settled ++ [target] ↔ node ∈ settled := by
    have hremote := (mem_remoteTargets.mp hnode).2
    rw [mem_append, mem_singleton]
    refine or_iff_left fun heq => ?_
    rw [heq, hlocal] at hremote
    cases hremote
  cases h with
  | gone all => exact .gone fun node hnode => (hmem hnode).mpr (all node hnode)
  | waits id_eq targets_eq timedOut pos count responded =>
    refine .waits id_eq targets_eq timedOut pos ?_ fun node hnode => (responded node hnode).trans (hmem hnode).symm
    rw [filter_append, filter_singleton, hlocal]
    simpa using count

theorem agrees_of_remote {share : LocalShare} {settled' : List NodeInfo}
    (h : share.Agrees targets settled) (hmono : ∀ node, node ∈ settled → node ∈ settled')
    (hremote : ∀ node, node.isLocal = true → node ∈ settled' → node ∈ settled) : share.Agrees targets settled' := by
  cases share with
  | absent => exact h
  | queued node => exact ⟨h.1, h.2.1, fun hmem => h.2.2 (hremote node h.2.1 hmem)⟩
  | running node => exact ⟨h.1, h.2.1, fun hmem => h.2.2 (hremote node h.2.1 hmem)⟩
  | done => exact fun node hnode hlocal => hmono node (h node hnode hlocal)
  | died => trivial

omit [FanoutCommand Op] in
/-- **The report** of the local share. -/
theorem Waiting.report (h : Waiting targets requestId f) (hmem : target ∈ targets.nodes)
    (hlocal : target.isLocal = true)
    (hnew : target ∉ f.state.settled) (htaken : Taken f.state target state') :
    (Waiting targets requestId { f with state := state', share := .done } ∧
    LocalShare.done.Agrees targets state'.settled
    ∨ Finished targets state' ∧ Complete targets state') ∧ state'.settled = f.state.settled ++ [target] := by
  obtain ⟨hout, hsettled⟩ := h.counts.taken htaken hmem hnew
  refine ⟨hout.imp_left fun hcounts => ⟨⟨hcounts, ?_⟩, fun node hnode hnodeLocal => ?_⟩, hsettled⟩
  · rw [hsettled]
    exact h.inflight.append_local hlocal
  · rw [hsettled, targets.local_unique node hnode target hmem hnodeLocal hlocal]
    exact mem_append_right _ mem_cons_self

/-! ### Events -/

inductive Tracked (targets : FanoutTargets) (requestId : Nat) (f : Fanout Op) : Prop
  | waiting (waiting : Waiting targets requestId f) (share : f.share.Agrees targets f.state.settled)
  | finished (finished : Finished targets f.state) (complete : f.share ≠ .died → Complete targets f.state)

structure Stepped (targets : FanoutTargets) (requestId : Nat) (f f' : Fanout Op) : Prop where
  tracked : Tracked targets requestId f'
  settled : ∀ node, node ∈ f.state.settled → node ∈ f'.state.settled
  inflight : f.inflight = none → f'.inflight = none

omit [FanoutCommand Op] in
theorem Moved.stepped (h : Moved targets requestId f f') (hshare : f.share.Agrees targets f.state.settled)
    (hinfl : f.inflight = none → f'.inflight = none) : Stepped targets requestId f f' := by
  refine ⟨?_, h.settled, hinfl⟩
  rcases h.outcome with hwait | ⟨hfin, hcompl⟩
  · exact .waiting hwait (h.share ▸ agrees_of_remote hshare h.settled h.remote)
  · exact .finished hfin fun _ => hcompl

theorem Waiting.message (h : Waiting targets requestId f) (hshare : f.share.Agrees targets f.state.settled)
    (messageId : Nat) (resp : Except FanoutError (List (BitVec 8))) (sender : Nat) :
    Stepped targets requestId f (f.withInflightRequest messageId resp sender) := by
  refine (h.withInflightRequest messageId resp sender).1.stepped hshare fun hnone => ?_
  rw [Fanout.withInflightRequest, hnone]
  exact hnone

theorem Waiting.onRequestTimeout (h : Waiting targets requestId f) (hshare : f.share.Agrees targets f.state.settled) :
    Stepped targets requestId f f.onRequestTimeout ∧ f.onRequestTimeout.inflight = none := by
  have hinfl := h.inflight
  unfold Fanout.onRequestTimeout
  split
  · rename_i hnone
    exact ⟨⟨.waiting h hshare, fun _ hnode => hnode, fun hgone => hgone⟩, hnone⟩
  · rename_i request hreq
    rw [hreq] at hinfl
    cases hinfl with
    | waits id_eq targets_eq timedOut pos count responded =>
    rw [if_neg (by rw [timedOut]; exact Bool.false_ne_true)]
    obtain ⟨hfin, hcompl⟩ := h.counts.timeout
    refine ⟨⟨.finished hfin fun _ => hcompl, fun node hnode => ?_, fun _ => rfl⟩, rfl⟩
    change node ∈ (f.state.onError .timeout placeholderNode).settled
    rw [(h.counts.isOpen.onError_ends .timeout placeholderNode (by decide)).2.1]
    exact mem_append_left _ hnode

section

omit [FanoutCommand Op]

theorem Waiting.report_stepped (h : Waiting targets requestId f) (hmem : target ∈ targets.nodes)
    (hlocal : target.isLocal = true) (hnew : target ∉ f.state.settled) (htaken : Taken f.state target state') :
    Stepped targets requestId f { f with state := state', share := .done } := by
  obtain ⟨hout, hsettled⟩ := h.report hmem hlocal hnew htaken
  refine ⟨?_, fun node hnode => ?_, fun hgone => hgone⟩
  · rcases hout with ⟨hwait, hagrees⟩ | ⟨hfin, hcompl⟩
    · exact .waiting hwait hagrees
    · exact .finished hfin fun _ => hcompl
  · rw [hsettled]
    exact mem_append_left _ hnode

theorem Waiting.not_all_settled (h : Waiting targets requestId f)
    (hremote : ∀ node ∈ targets.remoteTargets, node ∈ f.state.settled)
    (hlocal : ∀ node ∈ targets.nodes, node.isLocal = true → node ∈ f.state.settled) : False := by
  have hall : targets.nodes ⊆ f.state.settled := fun node hnode =>
    match hcase : node.isLocal with
    | true => hlocal node hnode hcase
    | false => hremote node (mem_remoteTargets.mpr ⟨hnode, hcase⟩)
  have := (List.subperm_of_subset targets.nodup_nodes hall).length_le
  have := h.counts.count
  have := h.counts.pos
  omega

theorem Waiting.remote_settled (h : Waiting targets requestId f) (hnone : f.inflight = none) :
    ∀ node ∈ targets.remoteTargets, node ∈ f.state.settled := by
  have hinfl := h.inflight
  rw [hnone] at hinfl
  cases hinfl
  assumption

end

theorem Waiting.handlesDropped (h : Waiting targets requestId f) (hshare : f.share.Agrees targets f.state.settled) :
    Stepped targets requestId f f.handlesDropped := by
  have hsame : Stepped targets requestId f f := ⟨.waiting h hshare, fun _ hnode => hnode, fun hgone => hgone⟩
  unfold Fanout.handlesDropped
  split
  · exact hsame
  · exact hsame
  · exact hsame
  · rename_i hnone hqueued hrunning
    cases hcase : f.share with
    | absent =>
      rw [hcase] at hshare
      refine (h.not_all_settled (h.remote_settled hnone) fun node hnode hlocal => ?_).elim
      rw [hshare node hnode] at hlocal
      cases hlocal
    | queued node => exact absurd hcase (hqueued node)
    | running node => exact absurd hcase (hrunning node)
    | done =>
      rw [hcase] at hshare
      exact (h.not_all_settled (h.remote_settled hnone) hshare).elim
    | died =>
      rw [drop]
      split
      · have hcompl := onCompletion_completes h.counts.isOpen.lifecycle h.counts.isOpen.callback h.counts.isOpen.calls
        refine ⟨.finished ⟨hcompl.closed, fun node _ => ?_⟩ fun halive => absurd rfl halive, fun node hnode => ?_,
          fun hgone => hgone⟩
        · rw [hcompl.settled]
          exact nodup_iff_count_le_one.mp h.counts.nodup node
        · rw [hcompl.settled]
          exact hnode
      · exact ⟨.waiting ⟨h.counts, h.inflight⟩ trivial, fun _ hnode => hnode, fun hgone => hgone⟩

/-- **Step lemma** for a request that waits. -/
theorem Waiting.step (h : Waiting targets requestId f) (hshare : f.share.Agrees targets f.state.settled)
    (event : FanoutEvent Op) : Stepped targets requestId f (f.step event) := by
  have hsame : Stepped targets requestId f f := ⟨.waiting h hshare, fun _ hnode => hnode, fun hgone => hgone⟩
  cases event with
  | responseReceived sender message =>
    cases message with
    | none => exact hsame
    | some message => exact h.message hshare _ _ _
  | errorReceived sender message =>
    cases message with
    | none => exact hsame
    | some message => exact h.message hshare _ _ _
  | requestTimeout => exact (h.onRequestTimeout hshare).1
  | shareStarts expired =>
    unfold Fanout.step Fanout.shareStarts
    dsimp only
    split
    · rename_i node hcase
      rw [hcase] at hshare
      obtain ⟨hmem, hlocal, hnew⟩ := hshare
      rw [if_neg h.counts.isOpen.lifecycle]
      split
      · exact h.report_stepped hmem hlocal hnew (h.counts.isOpen.onError_taken _ _)
      · exact ⟨.waiting ⟨h.counts, h.inflight⟩ ⟨hmem, hlocal, hnew⟩, fun _ hnode => hnode, fun hgone => hgone⟩
    · exact hsame
  | shareReports result =>
    unfold Fanout.step Fanout.shareReports
    dsimp only
    split
    · rename_i node hcase
      rw [hcase] at hshare
      obtain ⟨hmem, hlocal, hnew⟩ := hshare
      cases result with
      | ok response => exact h.report_stepped hmem hlocal hnew (h.counts.isOpen.onResponse_taken _ _)
      | error err => exact h.report_stepped hmem hlocal hnew (h.counts.isOpen.onError_taken _ _)
    · exact hsame
  | shareDies =>
    unfold Fanout.step Fanout.shareDies
    dsimp only
    split
    · exact ⟨.waiting ⟨h.counts, h.inflight⟩ trivial, fun _ hnode => hnode, fun hgone => hgone⟩
    · exact ⟨.waiting ⟨h.counts, h.inflight⟩ trivial, fun _ hnode => hnode, fun hgone => hgone⟩
    · exact hsame
  | handlesDropped => exact h.handlesDropped hshare

/-- **Step lemma** for a request that has finished: nothing is called any more. -/
theorem Finished.step (h : f.state.Closed) (event : FanoutEvent Op) :
    (f.step event).state = f.state ∧ (f.share = .died → (f.step event).share = .died) := by
  have hmessage (messageId : Nat) (resp : Except FanoutError (List (BitVec 8))) (sender : Nat) :
      (f.withInflightRequest messageId resp sender).state = f.state
        ∧ (f.share = .died → (f.withInflightRequest messageId resp sender).share = .died) := by
    obtain ⟨hstate, hshare⟩ := Finished.withInflightRequest h messageId resp sender
    exact ⟨hstate, fun hdied => hshare.trans hdied⟩
  have hsame : f.state = f.state ∧ (f.share = .died → f.share = .died) := ⟨rfl, fun hdied => hdied⟩
  cases event with
  | responseReceived sender message =>
    cases message with
    | none => exact hsame
    | some message => exact hmessage _ _ _
  | errorReceived sender message =>
    cases message with
    | none => exact hsame
    | some message => exact hmessage _ _ _
  | requestTimeout =>
    unfold Fanout.step Fanout.onRequestTimeout
    dsimp only
    split
    · exact hsame
    · split
      · exact hsame
      · exact ⟨Finished.responseHandler h (.error .timeout) placeholderNode, fun hdied => hdied⟩
  | shareStarts expired =>
    unfold Fanout.step Fanout.shareStarts
    dsimp only
    split
    · rename_i node hcase
      rw [if_pos h.lifecycle]
      exact ⟨rfl, fun hdied => by rw [hcase] at hdied; cases hdied⟩
    · exact hsame
  | shareReports result =>
    unfold Fanout.step Fanout.shareReports
    dsimp only
    split
    · rename_i node hcase
      refine ⟨?_, fun hdied => by rw [hcase] at hdied; cases hdied⟩
      cases result <;> exact if_pos h.lifecycle
    · exact hsame
  | shareDies =>
    unfold Fanout.step Fanout.shareDies
    dsimp only
    split
    · exact ⟨rfl, fun _ => rfl⟩
    · exact ⟨rfl, fun _ => rfl⟩
    · exact hsame
  | handlesDropped =>
    unfold Fanout.step Fanout.handlesDropped
    dsimp only
    split
    · exact hsame
    · exact hsame
    · exact hsame
    · refine ⟨if_neg ?_, fun hdied => hdied⟩
      rw [h.lifecycle]
      simp

theorem Tracked.step (h : Tracked targets requestId f) (event : FanoutEvent Op) :
    Tracked targets requestId (f.step event) := by
  cases h with
  | waiting h hshare => exact (h.step hshare event).tracked
  | finished h hcompl =>
    obtain ⟨hstate, hdied⟩ := Finished.step h.closed event
    refine .finished (hstate ▸ h) fun halive => hstate ▸ hcompl fun hwas => halive (hdied hwas)

/-! ### The start -/

theorem sendRequest_moved (h : Waiting targets requestId f ∨ Finished targets f.state ∧ Complete targets f.state)
    (sends : Nat → Bool) {node : NodeInfo} (hnode : node ∈ targets.remoteTargets) :
    Moved targets requestId f (f.sendRequest requestId sends node)
    ∧ (sends node.id = false → Waiting targets requestId (f.sendRequest requestId sends node) →
    node ∈ (f.sendRequest requestId sends node).state.settled) := by
  unfold Fanout.sendRequest
  split
  · rename_i hsent
    exact ⟨.refl h, fun hfailed => by rw [hsent] at hfailed; cases hfailed⟩
  · rcases h with hwait | ⟨hfin, hcompl⟩
    · obtain ⟨hmoved, hheard⟩ := hwait.withInflightRequest requestId
        (.error (.custom "Failed to send fanout request to target node")) node.id
      exact ⟨hmoved, fun _ _ => hheard rfl node hnode rfl⟩
    · obtain ⟨hstate, hshare⟩ := Finished.withInflightRequest hfin.closed requestId
        (.error (.custom "Failed to send fanout request to target node")) node.id
      refine ⟨⟨hshare, .inr ?_, fun other hother => ?_, fun other _ hother => ?_, fun _ => hstate⟩, fun _ hwait => ?_⟩
      · rw [Fanout.dispatchSendFailure, hstate]
        exact ⟨hfin, hcompl⟩
      · rwa [Fanout.dispatchSendFailure, hstate]
      · rwa [Fanout.dispatchSendFailure, hstate] at hother
      · refine absurd ?_ hwait.not_closed
        rw [Fanout.dispatchSendFailure, hstate]
        exact hfin.closed

theorem sendRequests_moved (h : Waiting targets requestId f ∨ Finished targets f.state ∧ Complete targets f.state)
    (sends : Nat → Bool) {nodes : List NodeInfo} (hnodes : nodes ⊆ targets.remoteTargets) :
    let f' := nodes.foldl (fun f node => f.sendRequest requestId sends node) f
    Moved targets requestId f f'
    ∧ ∀ node ∈ nodes, sends node.id = false → Waiting targets requestId f' → node ∈ f'.state.settled := by
  induction nodes generalizing f with
  | nil => exact ⟨.refl h, fun node hnode => absurd hnode not_mem_nil⟩
  | cons node nodes ih =>
    obtain ⟨hmoved, hheard⟩ := sendRequest_moved h sends (hnodes mem_cons_self)
    obtain ⟨hrest, hheardRest⟩ := ih hmoved.outcome fun other hother => hnodes (mem_cons_of_mem _ hother)
    refine ⟨hmoved.trans hrest, fun other hother hfailed hwait => ?_⟩
    rcases mem_cons.mp hother with rfl | hother
    · refine hrest.settled other (hheard hfailed ?_)
      -- a fanout that has finished in between does not wait at the end
      refine hmoved.outcome.resolve_right fun hfin => hwait.not_closed ?_
      rw [foldl_cons, hrest.closed hfin.1.closed]
      exact hfin.1.closed
    · exact hheardRest other hother hfailed hwait

omit [FanoutCommand Op] in
theorem new_counts (op : Op) (hne : targets.nodes ≠ []) : Counts targets (.new op targets.nodes.length) :=
  ⟨new_open _ _, length_pos_iff.mpr hne, Nat.add_zero _, nodup_nil, fun _ hnode => absurd hnode not_mem_nil⟩

theorem localNode_spec (targets : FanoutTargets) : match targets.localNode with
    | none => ∀ node ∈ targets.nodes, node.isLocal = false
    | some node => node ∈ targets.nodes ∧ node.isLocal = true := by
  split
  · rename_i hnone
    exact fun node hnode => Bool.eq_false_of_not_eq_true (find?_eq_none.mp hnone node hnode)
  · rename_i node hsome
    exact ⟨mem_of_find?_eq_some hsome, find?_some hsome⟩

/-- **The start** of a fanout. -/
theorem execCommand_tracked {op : Op} {sends : Nat → Bool} {spawned : Bool}
    (h : execCommand op targets requestId sends spawned = .ok f) : Tracked targets requestId f
    ∧ (Waiting targets requestId f → ∀ node ∈ targets.remoteTargets, sends node.id = false → node ∈ f.state.settled)
    ∧ f.share ≠ .died := by
  have hlocal := localNode_spec targets
  unfold execCommand at h
  dsimp only at h
  split at h
  · -- this node is the only target
    rename_i node hnode hone
    rw [hnode] at hlocal
    obtain ⟨hmem, hisLocal⟩ := hlocal
    have hremote : targets.remoteTargets = [] := by
      obtain ⟨other, hother⟩ := length_eq_one_iff.mp hone
      rw [hother] at hmem
      rw [FanoutTargets.remoteTargets, hother, ← mem_singleton.mp hmem]
      simp [hisLocal]
    split at h
    · cases h
      refine ⟨.waiting ⟨?_, .gone ?_⟩ ⟨hmem, hisLocal, not_mem_nil⟩, fun _ other hother => ?_, by simp⟩
      · exact new_counts op (ne_nil_of_mem hmem)
      · rw [hremote]
        exact fun other hother => absurd hother not_mem_nil
      · rw [hremote] at hother
        cases hother
    · cases h
  · split at h
    · cases h
    · rename_i hne
      have hremote : targets.remoteTargets ≠ [] := by simpa using hne
      have hnodes : targets.nodes ≠ [] := fun hnil => hremote (by rw [FanoutTargets.remoteTargets, hnil]; rfl)
      have hstart : Waiting targets requestId
          ({ state := .new op targets.nodes.length
             inflight := some { id := requestId, targets, outstanding := targets.remoteTargets.length, timedOut :=
               false,
                                responded := [] }
             share := .absent } : Fanout Op) :=
        ⟨new_counts op hnodes, .waits rfl rfl rfl (length_pos_iff.mpr hremote) rfl fun node _ => by simp [settled, new]⟩
      obtain ⟨hmoved, hheard⟩ := sendRequests_moved (.inl hstart) sends (List.Subset.refl _)
      generalize targets.remoteTargets.foldl (fun (f : Fanout Op) node => f.sendRequest requestId sends node) _ =
        f₁ at h hmoved hheard
      have hshare : f₁.share = .absent := hmoved.share
      -- the local share has not answered yet
      have hnew (node : NodeInfo) (hnode : node.isLocal = true) : node ∉ f₁.state.settled :=
        fun hsettled => absurd (hmoved.remote node hnode hsettled) not_mem_nil
      split at h
      · rename_i hnone
        rw [hnone] at hlocal
        cases h
        refine ⟨?_, fun hwait node hnode hfailed => hheard node hnode hfailed hwait, by simp [hshare]⟩
        rcases hmoved.outcome with hwait | ⟨hfin, hcompl⟩
        · exact .waiting hwait (hshare ▸ hlocal)
        · exact .finished hfin fun _ => hcompl
      · rename_i node hsome
        rw [hsome] at hlocal
        obtain ⟨hmem, hisLocal⟩ := hlocal
        split at h
        · cases h
          refine ⟨?_, fun hwait other hother hfailed =>
            hheard other hother hfailed ⟨hwait.counts, hwait.inflight⟩, by simp⟩
          rcases hmoved.outcome with hwait | ⟨hfin, hcompl⟩
          · exact .waiting ⟨hwait.counts, hwait.inflight⟩ ⟨hmem, hisLocal, hnew node hisLocal⟩
          · exact .finished hfin fun _ => hcompl
        · -- a queue that is full ends the fanout, with an error
          cases h
          rcases hmoved.outcome with hwait | ⟨hfin, hcompl⟩
          · obtain ⟨hclosed, hsettled, hfails⟩ := hwait.counts.isOpen.onError_ends .busy node (by decide)
            refine ⟨.finished ⟨hclosed, fun other _ => ?_⟩ fun _ hsuccess => ?_, fun hwaits => ?_, by simp [hshare]⟩
            · rw [hsettled, ← concat_eq_append]
              exact nodup_iff_count_le_one.mp (hwait.counts.nodup.concat (hnew node hisLocal)) other
            · obtain ⟨call, hcall, hok⟩ := hsuccess
              rw [hfails call hcall] at hok
              cases hok
            · exact absurd hclosed hwaits.not_closed
          · have hstate : f₁.state.onError .busy node = f₁.state := if_pos hfin.closed.lifecycle
            refine ⟨.finished (hstate.symm ▸ hfin) fun _ => hstate.symm ▸ hcompl, fun hwaits => ?_,
              by simp [hshare]⟩
            exact absurd (hstate.symm ▸ hfin.closed) hwaits.not_closed

/-! ### Runs -/

/-- A message of a node with an answer to this request, whatever the answer is. -/
def Answers (requestId : Nat) (node : NodeInfo) : FanoutEvent Op → Prop
  | .responseReceived sender (some message) | .errorReceived sender (some message) =>
    sender = node.id ∧ message.requestId = requestId
  | _ => False

def isDeath : FanoutEvent Op → Bool
  | .shareDies => true
  | _ => false

theorem run_concat (f : Fanout Op) (events : List (FanoutEvent Op)) (event : FanoutEvent Op) :
    f.run (events ++ [event]) = (f.run events).step event := by
  rw [run, run, foldl_append]
  rfl

/-- **Run lemma.** -/
theorem Tracked.run (h : Tracked targets requestId f) (events : List (FanoutEvent Op)) :
    Tracked targets requestId (f.run events) := by
  induction events using List.reverseRecOn with
  | nil => exact h
  | append_singleton events event ih =>
    rw [run_concat]
    exact ih.step event

theorem Waiting.step_answers (h : Waiting targets requestId f) {node : NodeInfo} (hnode : node ∈ targets.remoteTargets)
    {event : FanoutEvent Op} (hans : Answers requestId node event) : node ∈ (f.step event).state.settled := by
  cases event with
  | responseReceived sender message =>
    cases message with
    | none => exact hans.elim
    | some message => exact (h.withInflightRequest _ _ _).2 hans.2 node hnode hans.1.symm
  | errorReceived sender message =>
    cases message with
    | none => exact hans.elim
    | some message => exact (h.withInflightRequest _ _ _).2 hans.2 node hnode hans.1.symm
  | _ => exact hans.elim

/-- A request that waits at the end of a run has settled what it has heard of. -/
theorem Tracked.run_heard (h : Tracked targets requestId f) (events : List (FanoutEvent Op))
    (hwait : Waiting targets requestId (f.run events)) :
    Waiting targets requestId f ∧ (∀ node, node ∈ f.state.settled → node ∈ (f.run events).state.settled)
    ∧ (∀ node ∈ targets.remoteTargets, (∃ event ∈ events, Answers requestId node event) →
    node ∈ (f.run events).state.settled)
    ∧ (FanoutEvent.requestTimeout ∈ events → (f.run events).inflight = none) := by
  induction events using List.reverseRecOn with
  | nil => exact ⟨hwait, fun _ hnode => hnode, fun node _ ⟨event, hevent, _⟩ => absurd hevent not_mem_nil,
      fun hevent => absurd hevent not_mem_nil⟩
  | append_singleton events event ih =>
    rw [run_concat] at hwait ⊢
    cases h.run events with
    | finished hfin hcompl =>
      refine absurd ?_ hwait.not_closed
      rw [(Finished.step hfin.closed event).1]
      exact hfin.closed
    | waiting hbefore hshare =>
      obtain ⟨hstart, hmono, hheard, htimeout⟩ := ih hbefore
      have hstep := hbefore.step hshare event
      refine ⟨hstart, fun node hnode => hstep.settled node (hmono node hnode), fun node hnode hexists =>
        ?_, fun hevent => ?_⟩
      · obtain ⟨other, hother, hans⟩ := hexists
        rcases mem_append.mp hother with hother | hother
        · exact hstep.settled node (hheard node hnode ⟨other, hother, hans⟩)
        · rw [mem_singleton.mp hother] at hans
          exact hbefore.step_answers hnode hans
      · rcases mem_append.mp hevent with hevent | hevent
        · exact hstep.inflight (htimeout hevent)
        · rw [← mem_singleton.mp hevent]
          exact (hbefore.onRequestTimeout hshare).2

/-- **A fanout completes once.**  The callback runs at most once and nothing is called after
it; each target is counted at most once, and until then the targets that are not counted are the outstanding
ones; and it has run when every remote target has answered or
could not be reached, or the timeout has fired, and the local share is over. -/
theorem execCommand_completes_once {op : Op} {sends : Nat → Bool} {spawned : Bool}
    (h : execCommand op targets requestId sends spawned = .ok f) (events : List (FanoutEvent Op)) :
    let f' := f.run events
    f'.state.calls.countP FanoutCall.isCallback ≤ 1
      ∧ (∀ before call after, f'.state.calls = before ++ call :: after → call.isCallback = true → after = [])
      ∧ ((∀ node ∈ targets.nodes, f'.state.settled.count node ≤ 1)
        ∧ ((∀ call ∈ f'.state.calls, call.isCallback = false) →
          f'.state.outstanding + f'.state.settled.length = targets.nodes.length))
      ∧ ((∀ node ∈ targets.remoteTargets, sends node.id = false ∨ ∃ event ∈ events, Answers requestId node event)
          ∨ FanoutEvent.requestTimeout ∈ events →
        f'.share.isOver = true → ∃ call ∈ f'.state.calls, call.isCallback = true) := by
  obtain ⟨hstart, hsent, -⟩ := execCommand_tracked h
  cases hstart.run events with
  | finished hfin hcompl =>
    obtain ⟨hcount, hlast⟩ := hfin.closed.callback_last
    refine ⟨hcount.le, hlast, ⟨hfin.once, fun hnone => ?_⟩, fun _ _ => hfin.closed.callback⟩
    obtain ⟨call, hcall, hcallback⟩ := hfin.closed.callback
    exact absurd hcallback (by simp [hnone call hcall])
  | waiting hwait hshare =>
    have hnone := hwait.counts.isOpen.no_callback
    refine ⟨?_, fun before call after heq hcallback => absurd ⟨call, by simp [heq], hcallback⟩ hnone,
      ⟨fun node _ => nodup_iff_count_le_one.mp hwait.counts.nodup node, fun _ => hwait.counts.count⟩,
        fun hanswered hover => ?_⟩
    · rw [countP_eq_zero.mpr fun call hcall => by simp [hwait.counts.isOpen.calls call hcall]]
      exact Nat.zero_le 1
    · -- all shares would be settled
      obtain ⟨hfirst, hmono, hheard, htimeout⟩ := hstart.run_heard events hwait
      refine (hwait.not_all_settled ?_ ?_).elim
      · rcases hanswered with hall | hfired
        · intro node hnode
          exact (hall node hnode).elim (fun hfailed => hmono node (hsent hfirst node hnode hfailed)) (hheard node hnode)
        · exact hwait.remote_settled (htimeout hfired)
      · intro node hnode hlocal
        cases hcase : (f.run events).share with
        | absent =>
          rw [hcase] at hshare
          rw [hshare node hnode] at hlocal
          cases hlocal
        | done =>
          rw [hcase] at hshare
          exact hshare node hnode hlocal
        | _ =>
          rw [hcase] at hover
          cases hover

/-! ### Success -/

theorem step_share_alive (h : f.share ≠ .died) {event : FanoutEvent Op} (hdeath : isDeath event = false) :
    (f.step event).share ≠ .died := by
  have hmessage (messageId : Nat) (resp : Except FanoutError (List (BitVec 8))) (sender : Nat) :
      (f.withInflightRequest messageId resp sender).share ≠ .died := by
    unfold Fanout.withInflightRequest
    split
    · exact h
    · split <;> exact h
  cases event with
  | responseReceived sender message =>
    cases message with
    | none => exact h
    | some message => exact hmessage _ _ _
  | errorReceived sender message =>
    cases message with
    | none => exact h
    | some message => exact hmessage _ _ _
  | requestTimeout =>
    unfold Fanout.step Fanout.onRequestTimeout
    dsimp only
    split
    · exact h
    · split <;> exact h
  | shareStarts expired =>
    unfold Fanout.step Fanout.shareStarts
    dsimp only
    split
    · split
      · simp
      · split <;> simp
    · exact h
  | shareReports result =>
    unfold Fanout.step Fanout.shareReports
    dsimp only
    split
    · simp
    · exact h
  | shareDies => cases hdeath
  | handlesDropped =>
    unfold Fanout.step Fanout.handlesDropped
    dsimp only
    split <;> exact h

theorem run_share_alive (h : f.share ≠ .died) {events : List (FanoutEvent Op)}
    (hdeath : ∀ event ∈ events, isDeath event = false) : (f.run events).share ≠ .died := by
  induction events using List.reverseRecOn with
  | nil => exact h
  | append_singleton events event ih =>
    rw [run_concat]
    exact step_share_alive (ih fun other hother => hdeath other (mem_append_left _ hother))
      (hdeath event (mem_append_right _ mem_cons_self))

/-- **A success is complete** unless a worker died before it reported: the operation has one
processed response of every target. -/
theorem execCommand_success_complete {op : Op} {sends : Nat → Bool} {spawned : Bool}
    (h : execCommand op targets requestId sends spawned = .ok f) {events : List (FanoutEvent Op)}
    (hdeath : ∀ event ∈ events, isDeath event = false) : Complete targets (f.run events).state := by
  obtain ⟨hstart, -, halive⟩ := execCommand_tracked h
  cases hstart.run events with
  | finished hfin hcompl => exact hcompl (run_share_alive halive hdeath)
  | waiting hwait hshare =>
    rintro ⟨call, hcall, hok⟩
    exact absurd ⟨call, hcall, FanoutCall.isCallback_of_isSuccess hok⟩ hwait.counts.isOpen.no_callback

/-! ### Two shards -/

/-- An operation that notes the nodes it has heard of. -/
instance collectNodes : FanoutCommand (List NodeInfo) where
  Response := Unit
  default := []
  deserialize _ := .ok ()
  onResponse op _ target := (.ok (), op ++ [target])
  onError op _ _ := op
  onCompletion op := op
  failFast _ := false
  generateErrorReply _ := .custom "Internal error in fanout operation"

def twoShards : FanoutTargets := ⟨[⟨1, .remote⟩, ⟨2, .here⟩], by decide, by decide, by decide⟩

/-- The other node answers, the local worker panics, and dropping the state completes the
fanout: a success without the local share. -/
theorem execCommand_success_incomplete :
    ∃ f : Fanout (List NodeInfo), execCommand [] twoShards 7 (fun _ => true) true = .ok f ∧ ¬ Complete twoShards
        (f.run [.responseReceived 1 (some ⟨7, 0, []⟩), .shareStarts false, .shareDies, .handlesDropped]).state := by
  exact ⟨_, rfl, by decide⟩

theorem execCommand_success_complete_two :
    ∃ f : Fanout (List NodeInfo), execCommand [] twoShards 7 (fun _ => true) true = .ok f ∧ Complete twoShards
        (f.run [.shareStarts false, .responseReceived 1 (some ⟨7, 0, []⟩), .shareReports (.ok ()),
    .handlesDropped]).state := by
  obtain ⟨f, hf⟩ : ∃ f : Fanout (List NodeInfo), execCommand [] twoShards 7 (fun _ => true) true = .ok f := ⟨_, rfl⟩
  exact ⟨f, hf, execCommand_success_complete hf (by simp [isDeath])⟩

/-- The other node answers twice, a stranger once and the other node to another request; then the local share
is reported, and last the timeout fires. -/
def noisyEvents : List (FanoutEvent (List NodeInfo)) :=
  [.responseReceived 1 (some ⟨7, 0, []⟩), .responseReceived 1 (some ⟨7, 0, []⟩), .errorReceived 3 (some ⟨7, 0, []⟩),
    .responseReceived 1 (some ⟨8, 0, []⟩), .shareStarts false, .shareReports (.ok ()), .requestTimeout]

theorem execCommand_completes_once_two :
    ∃ f : Fanout (List NodeInfo), execCommand [] twoShards 7 (fun _ => true) true = .ok f
      ∧ (f.run noisyEvents).state.calls.countP FanoutCall.isCallback ≤ 1
      ∧ (∀ node ∈ twoShards.nodes, (f.run noisyEvents).state.settled.count node ≤ 1)
      ∧ (f.run (noisyEvents.take 4)).state.outstanding + (f.run (noisyEvents.take 4)).state.settled.length = 2
      ∧ ∃ call ∈ (f.run noisyEvents).state.calls, call.isCallback = true := by
  refine ⟨_, rfl, ?_⟩
  obtain ⟨hone, -, ⟨hcount, -⟩, hdone⟩ := execCommand_completes_once
    (show execCommand ([] : List NodeInfo) twoShards 7 (fun _ => true) true = .ok _ from rfl) noisyEvents
  obtain ⟨-, -, ⟨-, houtstanding⟩, -⟩ := execCommand_completes_once
    (show execCommand ([] : List NodeInfo) twoShards 7 (fun _ => true) true = .ok _ from rfl) (noisyEvents.take 4)
  exact ⟨hone, hcount, houtstanding (by decide), hdone (.inr (by simp [noisyEvents])) rfl⟩

end Fanout

end ValkeyTimeSeries
