/-
Common/InternerProtocol.lean

What holds at every point of a run of the string interner.

Design.  `Inv` is kept by every step.  Its centre is `counts`: a node's count is the number of the references
to it, those of its entries, of the threads and of the handles in slots.  What a single thread relies on is
`Pc.Relies`; a step of one thread leaves what the others rely on alone (`Frame`).
-/
import ValkeyTimeSeries.Common.StringInterner

namespace ValkeyTimeSeries.Interner

open List Function State

variable {Thread Slot : Type}

namespace State

variable (σ : State Thread Slot)

def Entry (a : Addr) : Prop := ∃ b, (b, a) ∈ σ.pool

/-- The references of a node by where they are. -/
def pooled (a : Addr) : Nat := (σ.pool.map Prod.snd).count a

def waiting (a : Addr) : Nat := (σ.retired.map Prod.fst).count a

def owned [Fintype Thread] (a : Addr) : Nat := ∑ t, (σ.pc t).refs a

def stored [Fintype Slot] (a : Addr) : Nat := ∑ s, if σ.slots s = some a then 1 else 0

/-- The handles to a node: those in a slot, and those in the hands of an operation. -/
def holders [Fintype Thread] [Fintype Slot] (a : Addr) : Nat := σ.stored a + ∑ t, if (σ.pc t).holds a then 1 else 0

/-- The thread may read the node although it owns no reference to it: the entry is in the pool,
or retired and waiting for this thread. -/
def Readable (t : Thread) (a : Addr) : Prop := σ.Entry a ∨ ∃ ws, (a, ws) ∈ σ.retired ∧ t ∈ ws

def payload (a : Addr) : Option Bytes := (σ.heap a).map Node.bytes

/-- The bytes that the pool accounts for. -/
def accounted : BitVec 64 := (σ.pool.map fun e => allocatedSize e.1.length).sum

end State

/-- What a thread relies on at the point where it is. -/
def Pc.Relies (σ : State Thread Slot) (t : Thread) : Pc Slot → Prop
  | .inserting b a | .rejected b a => σ.heap a = some ⟨2, b⟩
  | .releasing b a => σ.heap a = some ⟨1, b⟩
  | .counting _ a | .dropping a none | .lastDropping a => σ.Entry a
  | .dropping a (some cur) => σ.Entry a ∧ 2 ≤ cur
  | .found _ a | .acquiring _ a _ | .helping _ a => σ.Readable t a
  | .retiring a => σ.Readable t a ∧ σ.strong a = 1
  -- the length that is read next is that of the bytes the entry had
  | .uncounting b a none | .discounting b a none => σ.Readable t a ∧ σ.payload a = some b
  | .uncounting _ a (some _) | .discounting _ a (some _) => σ.Readable t a
  | .cloning s a _ => σ.slots s = some a
  | .abandoning _ => False
  | .idle | .probing _ | .missing _ | .panicked => True

structure Inv [Fintype Thread] [Fintype Slot] (σ : State Thread Slot) : Prop where
  keys : (σ.pool.map Prod.fst).Nodup
  bytes : ∀ b a, (b, a) ∈ σ.pool → ∃ n, σ.heap a = some n ∧ n.bytes = b
  counts : ∀ a, σ.strong a = σ.pooled a + σ.waiting a + σ.owned a + σ.stored a
  handles : ∀ s a, σ.slots s = some a → σ.Entry a
  dead : ∀ a ws, (a, ws) ∈ σ.retired → σ.strong a = 1
  /-- A dead entry has a thread that is on its way to remove it. -/
  doomed : ∀ a, σ.Entry a → σ.strong a = 1 → ∃ t, σ.pc t = .retiring a
  threads : ∀ t, (σ.pc t).Relies σ t
  memory : σ.memoryUsed + ∑ t, (σ.pc t).owed = σ.accounted + ∑ t, (σ.pc t).due

theorem Inv.init [Fintype Thread] [Fintype Slot] : Inv (State.init : State Thread Slot) where
  keys := nodup_nil
  bytes := by simp [State.init]
  counts a := by simp [State.init, State.strong, State.pooled, State.waiting, State.owned, State.stored, Pc.refs]
  handles := by simp [State.init]
  dead := by simp [State.init]
  doomed := by simp [State.init, State.Entry]
  threads t := trivial
  memory := by simp [State.init, State.accounted, Pc.owed, Pc.due]

/-! ### The fields after an update -/

namespace State

variable {σ : State Thread Slot} {t u : Thread} {p : Pc Slot} {s s' : Slot} {a a' : Addr} {b : Bytes} {k : Nat}
  {ws : Finset Thread}

section

variable [DecidableEq Thread]

@[simp] theorem goto_pc : (σ.goto t p).pc = update σ.pc t p := rfl
@[simp] theorem goto_strong : (σ.goto t p).strong = σ.strong := rfl

theorem map_fst_goto_retired : (σ.goto t p).retired.map Prod.fst = σ.retired.map Prod.fst := by
  unfold goto
  split
  · rfl
  · simp

theorem mem_retired_of_goto (h : (a, ws) ∈ (σ.goto t p).retired) : ∃ ws', (a, ws') ∈ σ.retired := by
  have hmem : a ∈ (σ.goto t p).retired.map Prod.fst := mem_map.2 ⟨_, h, rfl⟩
  rw [map_fst_goto_retired] at hmem
  obtain ⟨⟨_, ws'⟩, hws, rfl⟩ := mem_map.1 hmem
  exact ⟨ws', hws⟩

theorem Readable.goto (h : σ.Readable u a) (hpin : u = t → p.pinned) : (σ.goto t p).Readable u a := by
  rcases h with hentry | ⟨ws, hws, hu⟩
  · exact .inl hentry
  · right
    unfold State.goto
    by_cases hp : p.pinned
    · rw [if_pos hp]
      exact ⟨ws, hws, hu⟩
    · rw [if_neg hp]
      refine ⟨ws.erase t, mem_map.2 ⟨_, hws, rfl⟩, Finset.mem_erase.2 ⟨?_, hu⟩⟩
      intro hut
      exact hp (hpin hut)

end

theorem strong_setStrong (h : σ.strong a ≠ 0) :
    (σ.setStrong a k).strong a' = if a' = a then k else σ.strong a' := by
  unfold setStrong strong at *
  by_cases ha : a' = a
  · subst ha
    cases hn : σ.heap a' with
    | none => simp [hn] at h
    | some n => simp
  · simp [ha]

theorem heap_setStrong_of_ne (h : a' ≠ a) : (σ.setStrong a k).heap a' = σ.heap a' :=
  update_of_ne h ..

theorem payload_setStrong : (σ.setStrong a k).payload a' = σ.payload a' := by
  by_cases ha : a' = a
  · subst ha
    simp [State.payload, State.setStrong, Function.comp_def]
  · rw [State.payload, heap_setStrong_of_ne ha, State.payload]

theorem heap_release_of_ne (h : a' ≠ a) : (σ.release a).heap a' = σ.heap a' := by
  unfold release
  split
  · exact update_of_ne h ..
  · exact heap_setStrong_of_ne h

@[simp] theorem release_pc : (σ.release a).pc = σ.pc := by unfold release; split <;> rfl
@[simp] theorem release_pool : (σ.release a).pool = σ.pool := by unfold release; split <;> rfl
@[simp] theorem release_retired : (σ.release a).retired = σ.retired := by unfold release; split <;> rfl
@[simp] theorem release_slots : (σ.release a).slots = σ.slots := by unfold release; split <;> rfl
@[simp] theorem release_memoryUsed : (σ.release a).memoryUsed = σ.memoryUsed := by unfold release; split <;> rfl

@[simp] theorem release_entry : (σ.release a).Entry a' ↔ σ.Entry a' := by rw [Entry, release_pool, Entry]
@[simp] theorem release_pooled : (σ.release a).pooled a' = σ.pooled a' := by rw [pooled, release_pool, pooled]
@[simp] theorem release_waiting : (σ.release a).waiting a' = σ.waiting a' := by rw [waiting, release_retired, waiting]
@[simp] theorem release_owned [Fintype Thread] : (σ.release a).owned a' = σ.owned a' := by rw [owned, release_pc, owned]
@[simp] theorem release_stored [Fintype Slot] : (σ.release a).stored a' = σ.stored a' := by
  rw [stored, release_slots, stored]
@[simp] theorem release_accounted : (σ.release a).accounted = σ.accounted := by rw [accounted, release_pool, accounted]
@[simp] theorem release_readable : (σ.release a).Readable u a' ↔ σ.Readable u a' := by simp [Readable]

theorem strong_of_heap {n : Node} (h : σ.heap a = some n) : σ.strong a = n.strong := by
  rw [strong, h]
  rfl

theorem heap_release_two (h : σ.heap a = some ⟨2, b⟩) : (σ.release a).heap a = some ⟨1, b⟩ := by
  have htwo : σ.strong a = 2 := strong_of_heap h
  unfold release
  rw [if_neg (by omega), htwo]
  simp [setStrong, h]

theorem strong_release : (σ.release a).strong a' = if a' = a then σ.strong a - 1 else σ.strong a' := by
  by_cases ha : a' = a
  · subst ha
    cases hn : σ.heap a' with
    | none => simp [release, setStrong, strong, hn]
    | some n =>
      by_cases hone : n.strong = 1
      · simp [release, strong, hn, hone]
      · simp [release, setStrong, strong, hn, hone]
  · rw [if_neg ha, strong, heap_release_of_ne ha, strong]

/-! ### Who refers to a node -/

theorem Entry.pooled_pos (h : σ.Entry a) : 1 ≤ σ.pooled a := by
  obtain ⟨b, hb⟩ := h
  exact count_pos_iff.2 (mem_map.2 ⟨_, hb, rfl⟩)

theorem waiting_pos (h : (a, ws) ∈ σ.retired) : 1 ≤ σ.waiting a :=
  count_pos_iff.2 (mem_map.2 ⟨_, h, rfl⟩)

theorem stored_pos [Fintype Slot] (h : σ.slots s = some a) : 1 ≤ σ.stored a := by
  have hle := Tally.share_le_sum (fun o => if o = some a then 1 else 0) σ.slots s
  rwa [if_pos h] at hle

theorem refs_le_owned [Fintype Thread] (t : Thread) : (σ.pc t).refs a ≤ σ.owned a :=
  Tally.share_le_sum (Pc.refs a) σ.pc t

theorem refs_add_refs_le [Fintype Thread] [DecidableEq Thread] (h : t ≠ u) :
    (σ.pc t).refs a + (σ.pc u).refs a ≤ σ.owned a :=
  Tally.share_add_share_le_sum (Pc.refs a) σ.pc h

theorem Readable.pos (h : σ.Readable t a) : 1 ≤ σ.pooled a + σ.waiting a := by
  rcases h with hentry | ⟨ws, hws, -⟩
  · have := hentry.pooled_pos
    omega
  · have := waiting_pos hws
    omega

theorem mem_of_lookup (h : σ.lookup b = some a) : (b, a) ∈ σ.pool := by
  obtain ⟨before, after, hpool, -⟩ := lookup_eq_some_iff.1 h
  rw [hpool]
  exact mem_append_right _ mem_cons_self

theorem lookup_of_mem (hkeys : (σ.pool.map Prod.fst).Nodup) (h : (b, a) ∈ σ.pool) : σ.lookup b = some a := by
  obtain ⟨before, after, hpool⟩ := append_of_mem h
  refine lookup_eq_some_iff.2 ⟨before, after, hpool, fun e he => ?_⟩
  rw [hpool, map_append, map_cons, nodup_append] at hkeys
  have hne := hkeys.2.2 e.1 (mem_map.2 ⟨e, he, rfl⟩) b mem_cons_self
  simpa using Ne.symm hne

theorem not_mem_of_lookup (h : σ.lookup b = none) : b ∉ σ.pool.map Prod.fst := by
  intro hmem
  obtain ⟨e, he, rfl⟩ := mem_map.1 hmem
  simpa using lookup_eq_none_iff.1 h e he

end State

/-! ### What the other threads rely on -/

/-- The thread owns a node that is not shared yet, or not any more. -/
def Pc.drafts (a : Addr) : Pc Slot → Bool
  | .inserting _ a' | .rejected _ a' | .releasing _ a' => a' = a
  | _ => false

variable {p : Pc Slot} {a : Addr}

theorem Pc.refs_of_drafts (h : p.drafts a) : 1 ≤ p.refs a := by
  cases p with
  | inserting b a' | rejected b a' | releasing b a' =>
    obtain rfl : a' = a := by simpa [Pc.drafts] using h
    simp [Pc.refs]
  | _ => exact absurd h (by simp [Pc.drafts])

theorem Pc.refs_of_holds (h : p.holds a) : p.refs a = 1 := by
  cases p with
  | counting b a' | dropping a' cur | lastDropping a' | abandoning a' => simpa [Pc.holds, Pc.refs] using h
  | _ => exact absurd h (by simp [Pc.holds])

theorem Pc.refs_eq_holds (h : ¬ p.drafts a) : p.refs a = if p.holds a then 1 else 0 := by
  cases p with
  | inserting b a' | rejected b a' | releasing b a' => simpa [Pc.drafts, Pc.refs, Pc.holds] using h
  | _ => simp [Pc.refs, Pc.holds]

variable {σ : State Thread Slot} {t : Thread}

theorem Pc.entry_of_holds (h : p.Relies σ t) (hholds : p.holds a) : σ.Entry a := by
  cases p with
  | counting b a' | lastDropping a' =>
    obtain rfl : a' = a := by simpa [Pc.holds] using hholds
    exact h
  | dropping a' cur =>
    obtain rfl : a' = a := by simpa [Pc.holds] using hholds
    cases cur with
    | none => exact h
    | some cur => exact h.1
  | abandoning a' => exact h.elim
  | _ => exact absurd hholds (by simp [Pc.holds])

theorem Pc.readable_of_sees (h : p.Relies σ t) (hsees : p.sees a) : σ.Readable t a := by
  cases p with
  | found b a' | acquiring b a' cur | helping b a' =>
    obtain rfl : a' = a := by simpa [Pc.sees] using hsees
    exact h
  | retiring a' =>
    obtain rfl : a' = a := by simpa [Pc.sees] using hsees
    exact h.1
  | uncounting b a' size | discounting b a' size =>
    obtain rfl : a' = a := by simpa [Pc.sees] using hsees
    cases size with
    | none => exact h.1
    | some size => exact h
  | _ => exact absurd hsees (by simp [Pc.sees])

theorem Pc.pinned_of_sees (h : p.sees a) : p.pinned := by
  cases p with
  | found | acquiring | helping | uncounting | retiring | discounting => rfl
  | _ => exact absurd h (by simp [Pc.sees])

theorem Pc.owed_due_of_atRest (h : p.atRest) : p.owed = 0 ∧ p.due = 0 := by
  cases p with
  | idle | panicked => exact ⟨rfl, rfl⟩
  | _ => cases h

/-- A step from `σ` to `τ` leaves the thread `u`, which does not move, what it relies on. -/
structure Frame (σ τ : State Thread Slot) (u : Thread) : Prop where
  draft : ∀ a, (σ.pc u).drafts a → τ.heap a = σ.heap a
  entry : ∀ a, (σ.pc u).holds a → σ.Entry a → τ.Entry a
  readable : ∀ a, (σ.pc u).sees a → σ.Readable u a → τ.Readable u a
  payload : ∀ a, (σ.pc u).sees a → σ.Readable u a → τ.payload a = σ.payload a
  spent : ∀ a, σ.pc u = .retiring a → τ.strong a = σ.strong a
  slot : ∀ s a cur, σ.pc u = .cloning s a cur → τ.slots s = σ.slots s

variable {τ : State Thread Slot}

theorem Frame.relies {u : Thread} (hframe : Frame σ τ u) (h : (σ.pc u).Relies σ u) : (σ.pc u).Relies τ u := by
  obtain ⟨hdraft, hentry, hread, hpayload, hspent, hslot⟩ := hframe
  generalize σ.pc u = p at *
  cases p with
  | inserting b a | rejected b a | releasing b a => exact (hdraft a (by simp [Pc.drafts])).trans h
  | counting b a | lastDropping a => exact hentry a (by simp [Pc.holds]) h
  | dropping a cur =>
    cases cur with
    | none => exact hentry a (by simp [Pc.holds]) h
    | some cur => exact ⟨hentry a (by simp [Pc.holds]) h.1, h.2⟩
  | found b a | acquiring b a cur | helping b a => exact hread a (by simp [Pc.sees]) h
  | retiring a => exact ⟨hread a (by simp [Pc.sees]) h.1, (hspent a rfl).trans h.2⟩
  | uncounting b a size | discounting b a size =>
    cases size with
    | none => exact ⟨hread a (by simp [Pc.sees]) h.1, (hpayload a (by simp [Pc.sees]) h.1).trans h.2⟩
    | some size => exact hread a (by simp [Pc.sees]) h
  | cloning s a cur => exact (hslot s a cur rfl).trans h
  | abandoning a => exact h
  | idle | probing | missing | panicked => trivial

theorem Pc.Relies.goto [DecidableEq Thread] {u : Thread} {q : Pc Slot} (h : q.Relies τ u)
    (hpin : u = t → q = p) : q.Relies (τ.goto t p) u := by
  have hread : ∀ a, q.pinned = true → τ.Readable u a → (τ.goto t p).Readable u a :=
    fun a hq hr => hr.goto fun hut => hpin hut ▸ hq
  cases q with
  | found b a | acquiring b a cur | helping b a => exact hread a rfl h
  | retiring a => exact ⟨hread a rfl h.1, h.2⟩
  | uncounting b a size | discounting b a size =>
    cases size with
    | none => exact ⟨hread a rfl h.1, h.2⟩
    | some size => exact hread a rfl h
  | dropping a cur =>
    cases cur with
    | none => exact h
    | some cur => exact h
  | inserting | rejected | releasing | counting | lastDropping | cloning | abandoning => exact h
  | idle | probing | missing | panicked => trivial

/-! ### One step -/

section

variable [Fintype Thread] [DecidableEq Thread] [Fintype Slot]

/-- A step of thread `t`: the state is written, and the thread goes on to `p`. -/
theorem Inv.goto (h : Inv σ) (hpc : τ.pc = σ.pc)
    (keys : (τ.pool.map Prod.fst).Nodup)
    (bytes : ∀ b a, (b, a) ∈ τ.pool → ∃ n, τ.heap a = some n ∧ n.bytes = b)
    (counts : ∀ a, τ.strong a + (σ.pc t).refs a = τ.pooled a + τ.waiting a + σ.owned a + p.refs a + τ.stored a)
    (handles : ∀ s a, τ.slots s = some a → τ.Entry a)
    (dead : ∀ a ws, (a, ws) ∈ τ.retired → τ.strong a = 1)
    (doomed : ∀ a, τ.Entry a → τ.strong a = 1 → p = .retiring a ∨ ∃ u ≠ t, σ.pc u = .retiring a)
    (own : p.Relies τ t) (others : ∀ u ≠ t, Frame σ τ u)
    (memory : τ.memoryUsed - σ.memoryUsed + p.owed - (σ.pc t).owed =
    τ.accounted - σ.accounted + p.due - (σ.pc t).due) :
    Inv (τ.goto t p) where
  keys := keys
  bytes := bytes
  counts a := by
    have hsum := Tally.sum_update (Pc.refs a) σ.pc t p
    have hwait : (τ.goto t p).waiting a = τ.waiting a := by
      rw [State.waiting, map_fst_goto_retired, State.waiting]
    have hcount := counts a
    show τ.strong a = τ.pooled a + (τ.goto t p).waiting a + ∑ u, (update τ.pc t p u).refs a + τ.stored a
    rw [hpc, hwait]
    unfold State.owned at hcount
    omega
  handles := handles
  dead a ws hws := by
    obtain ⟨ws', hws'⟩ := mem_retired_of_goto hws
    exact dead a ws' hws'
  doomed a hentry hone := by
    rcases doomed a hentry hone with rfl | ⟨u, hu, hret⟩
    · exact ⟨t, update_self ..⟩
    · refine ⟨u, ?_⟩
      rw [goto_pc, update_of_ne hu, hpc, hret]
  threads u := by
    by_cases hu : u = t
    · subst hu
      rw [goto_pc, update_self]
      exact own.goto fun _ => rfl
    · rw [goto_pc, update_of_ne hu, hpc]
      exact ((others u hu).relies (h.threads u)).goto fun hut => absurd hut hu
  memory := by
    have howed := Tally.sum_update Pc.owed σ.pc t p
    have hdue := Tally.sum_update Pc.due σ.pc t p
    have hmem := h.memory
    show τ.memoryUsed + ∑ u, (update τ.pc t p u).owed = τ.accounted + ∑ u, (update τ.pc t p u).due
    rw [hpc]
    linear_combination hmem + howed - hdue + memory

theorem Inv.stay (h : Inv σ) (hpc : τ.pc = σ.pc)
    (hpool : τ.pool = σ.pool) (hheap : τ.heap = σ.heap) (hretired : τ.retired = σ.retired)
    (hrefs : ∀ a, (σ.pc t).refs a + σ.stored a = p.refs a + τ.stored a)
    (hhandles : ∀ s a, τ.slots s = some a → σ.Entry a) (hret : ∀ a, σ.pc t = .retiring a → ¬ σ.Entry a)
    (own : p.Relies τ t) (hslots : ∀ u s a cur, σ.pc u = .cloning s a cur → τ.slots s = σ.slots s)
    (memory : τ.memoryUsed - σ.memoryUsed + p.owed - (σ.pc t).owed = p.due - (σ.pc t).due) : Inv (τ.goto t p) := by
  obtain ⟨pool, memoryUsed, heap, retired, pc, slots⟩ := τ
  subst hpc hpool hheap hretired
  refine h.goto rfl h.keys h.bytes (fun a => ?_) hhandles h.dead (fun a hentry hone => ?_) own
    (fun u _ => ⟨fun _ _ => rfl, fun _ _ he => he, fun _ _ hr => hr, fun _ _ _ => rfl, fun _ _ => rfl, hslots u⟩) ?_
  · have hcount := h.counts a
    have hrefs' := hrefs a
    change σ.strong a + _ = σ.pooled a + σ.waiting a + _ + _ + _
    omega
  · obtain ⟨u, hu⟩ := h.doomed a hentry hone
    refine .inr ⟨u, ?_, hu⟩
    rintro rfl
    exact hret a hu hentry
  · change _ = σ.accounted - σ.accounted + _ - _
    rw [memory]
    ring

end

namespace State

variable {σ : State Thread Slot} {s : Slot} {a a' : Addr} {b : Bytes}

theorem ne_of_slots {s' : Slot} (h' : σ.slots s' = some a') (h : σ.slots s = none) : s' ≠ s := by
  rintro rfl
  rw [h] at h'
  cases h'

section

variable [DecidableEq Slot]

theorem stored_store [Fintype Slot] (h : σ.slots s = none) :
    (σ.store s a).stored a' = σ.stored a' + if a' = a then 1 else 0 := by
  have hsum := Tally.sum_update (fun o => if o = some a' then 1 else 0) σ.slots s (some a)
  rw [h, if_neg (by simp), Nat.add_zero] at hsum
  refine hsum.trans ?_
  simp only [Option.some.injEq, eq_comm (a := a)]
  rfl

theorem slots_store_of_ne {s' : Slot} (h : s' ≠ s) : (σ.store s a).slots s' = σ.slots s' := update_of_ne h ..

theorem slots_of_store {s' : Slot} (h : (σ.store s a).slots s' = some a') : a' = a ∨ σ.slots s' = some a' := by
  by_cases hs : s' = s
  · subst hs
    have hself : (σ.store s' a).slots s' = some a := update_self ..
    exact .inl (Option.some.inj (h.symm.trans hself))
  · rw [slots_store_of_ne hs] at h
    exact .inr h

theorem stored_take [Fintype Slot] (h : σ.slots s = some a) :
    (σ.take s).stored a' + (if a' = a then 1 else 0) = σ.stored a' := by
  have hsum := Tally.sum_update (fun o => if o = some a' then 1 else 0) σ.slots s none
  rw [h, if_neg (c := (none : Option Addr) = some a') (by simp), Nat.add_zero] at hsum
  simp only [Option.some.injEq, eq_comm (a := a)] at hsum
  exact hsum

end

theorem filter_pool {before after : List (Bytes × Addr)} (hkeys : (σ.pool.map Prod.fst).Nodup)
    (hpool : σ.pool = before ++ (b, a) :: after) : σ.pool.filter (·.1 ≠ b) = before ++ after := by
  rw [hpool, map_append, map_cons, nodup_append, nodup_cons] at hkeys
  obtain ⟨-, ⟨hafter, -⟩, hbefore⟩ := hkeys
  have hkeep : ∀ l : List (Bytes × Addr), b ∉ l.map Prod.fst → l.filter (·.1 ≠ b) = l := by
    intro l hl
    refine filter_eq_self.2 fun e he => ?_
    simp only [decide_eq_true_eq]
    rintro rfl
    exact hl (mem_map.2 ⟨e, he, rfl⟩)
  have hb : b ∉ before.map Prod.fst := fun hb => hbefore b hb b mem_cons_self rfl
  rw [hpool, filter_append, hkeep _ hb, filter_cons_of_neg (by simp), hkeep _ hafter]

end State

namespace Inv

variable [Fintype Thread] [Fintype Slot] {σ : State Thread Slot} {t u : Thread} {s : Slot} {a a' : Addr} {b : Bytes}
  {p : Pc Slot}

variable (h : Inv σ)
include h

theorem strong_of_drafts (hdraft : (σ.pc u).drafts a) : σ.strong a = (σ.pc u).refs a := by
  have hrel := h.threads u
  generalize σ.pc u = q at *
  cases q with
  | inserting b a' | rejected b a' | releasing b a' =>
    obtain rfl : a' = a := by simpa [Pc.drafts] using hdraft
    rw [strong_of_heap hrel]
    simp [Pc.refs]
  | _ => exact absurd hdraft (by simp [Pc.drafts])

theorem stored_of_clones (hclones : (σ.pc t).clones a) : 1 ≤ σ.stored a := by
  have hrel := h.threads t
  generalize σ.pc t = p at hclones hrel
  cases p with
  | cloning s a' cur =>
    obtain rfl : a' = a := by simpa [Pc.clones] using hclones
    exact stored_pos hrel
  | _ => exact absurd hclones (by simp [Pc.clones])

theorem not_drafts [DecidableEq Thread] (hu : u ≠ t)
    (hpos : 1 ≤ σ.pooled a + σ.waiting a + σ.stored a + (σ.pc t).refs a) : ¬ (σ.pc u).drafts a := by
  intro hdraft
  have hstrong := h.strong_of_drafts hdraft
  have hcount := h.counts a
  have hown := refs_add_refs_le (σ := σ) (a := a) hu
  omega

theorem alone_of_retiring (hret : σ.pc u = .retiring a) :
    σ.strong a = 1 ∧ σ.pooled a + σ.waiting a = 1 ∧ σ.owned a = 0 ∧ σ.stored a = 0 := by
  have hrel := h.threads u
  rw [hret] at hrel
  have hpos := hrel.1.pos
  have hcount := h.counts a
  have hone := hrel.2
  omega

theorem payload_of_mem (hmem : (b, a) ∈ σ.pool) : σ.payload a = some b := by
  obtain ⟨n, hn, rfl⟩ := h.bytes b a hmem
  rw [State.payload, hn]
  rfl

theorem entry_key {n : Node} (hentry : σ.Entry a) (hn : σ.heap a = some n) : (n.bytes, a) ∈ σ.pool := by
  obtain ⟨b, hb⟩ := hentry
  obtain ⟨n', hn', rfl⟩ := h.bytes b a hb
  rw [hn] at hn'
  cases hn'
  exact hb

/-- A node that a thread reads and that is not dead is in the pool. -/
theorem entry_of_readable (hread : σ.Readable t a) (hone : σ.strong a ≠ 1) : σ.Entry a := by
  rcases hread with hentry | ⟨ws, hws, -⟩
  · exact hentry
  · exact absurd (h.dead a ws hws) hone

theorem two_le_strong (hentry : σ.Entry a) (hrefs : 1 ≤ (σ.pc t).refs a) : 2 ≤ σ.strong a := by
  have hpool := hentry.pooled_pos
  have hown := refs_le_owned (σ := σ) (a := a) t
  have hcount := h.counts a
  omega

theorem doomed_other (hret : ∀ a', σ.pc t ≠ .retiring a') (hentry : σ.Entry a) (hone : σ.strong a = 1) :
    ∃ u ≠ t, σ.pc u = .retiring a := by
  obtain ⟨u, hu⟩ := h.doomed a hentry hone
  refine ⟨u, ?_, hu⟩
  rintro rfl
  exact hret a hu

/-! #### Moves -/

theorem move_relies (hpc : σ.pc t = p) {q : Pc Slot} (hmove : Move σ p q) :
    (∀ a, q.refs a = p.refs a) ∧ q.owed = p.owed ∧ q.due = p.due ∧ q.Relies σ t := by
  have hrel := h.threads t
  rw [hpc] at hrel
  have htwo : ∀ a, σ.Entry a → p.refs a = 1 → 2 ≤ σ.strong a :=
    fun a hentry hrefs => h.two_le_strong (t := t) hentry (by rw [hpc, hrefs])
  cases hmove with
  | start | miss | tooLong | notHelped | retired => exact ⟨fun _ => rfl, rfl, rfl, trivial⟩
  | load | reload | refuse | occupied | count => exact ⟨fun _ => rfl, rfl, rfl, hrel⟩
  | hit hl => exact ⟨fun _ => rfl, rfl, rfl, .inl ⟨_, mem_of_lookup hl⟩⟩
  | borrow hs => exact ⟨fun _ => rfl, rfl, rfl, hs⟩
  | @measure b a n hn | @measureLast b a n hn =>
    obtain ⟨hread, hpayload⟩ := hrel
    rw [State.payload, hn] at hpayload
    obtain rfl : n.bytes = b := Option.some.inj hpayload
    exact ⟨fun _ => rfl, rfl, rfl, hread⟩
  | read a => exact ⟨fun _ => rfl, rfl, rfl, hrel, htwo a hrel (by simp [Pc.refs])⟩
  | reread a hcur => exact ⟨fun _ => rfl, rfl, rfl, hrel.1, htwo a hrel.1 (by simp [Pc.refs])⟩
  | last a => exact ⟨fun _ => rfl, rfl, rfl, hrel.1⟩
  | @notLast a hs => exact ⟨fun _ => rfl, rfl, rfl, hrel, htwo a hrel (by simp [Pc.refs])⟩
  | one | zero => exact absurd hrel.2 (by decide)

theorem not_entry_of_move (hpc : σ.pc t = .retiring a) {q : Pc Slot} (hmove : Move σ (.retiring a) q) :
    ¬ σ.Entry a := by
  intro hentry
  cases hmove with
  | retired hn hdead =>
    refine hdead ?_
    rw [State.isDead, decide_eq_true_iff]
    exact ⟨lookup_of_mem h.keys (h.entry_key hentry hn), (h.alone_of_retiring hpc).1⟩

variable [DecidableEq Thread]

theorem move (hmove : Move σ (σ.pc t) p) : Inv (σ.goto t p) := by
  obtain ⟨hrefs, howed, hdue, hrel⟩ := h.move_relies rfl hmove
  refine h.stay rfl rfl rfl rfl (fun a => by rw [hrefs a]) h.handles (fun a hret => ?_) hrel (fun _ _ _ _ _ => rfl) ?_
  · rw [hret] at hmove
    exact h.not_entry_of_move hret hmove
  · rw [howed, hdue]
    ring

/-! #### Writes to a count -/

/-- The count of a node in the pool changes, and with it the references that the thread or the
slots have; a dead node is not touched. -/
theorem write {k : Nat} {slots : Slot → Option Addr} (hentry : σ.Entry a) (hne : σ.strong a ≠ 1)
    (howed : p.owed = (σ.pc t).owed) (hdue : p.due = (σ.pc t).due)
    (hslots : ∀ u ≠ t, ∀ s a cur, σ.pc u = .cloning s a cur → slots s = σ.slots s)
    (hhandles : ∀ s a', slots s = some a' → a' = a ∨ σ.slots s = some a')
    (hcount : ∀ a', (if a' = a then k else σ.strong a') + (σ.pc t).refs a' + σ.stored a' =
    σ.strong a' + p.refs a' + { σ with slots }.stored a')
    (hlast : k = 1 → p = .retiring a) (hother : ∀ a' ≠ a, σ.pc t ≠ .retiring a')
    (hrel : (σ.setStrong a k).strong a = k → p.Relies { σ.setStrong a k with slots } t) :
    Inv ({ σ.setStrong a k with slots }.goto t p) := by
  have hcounta := h.counts a
  have hpos := hentry.pooled_pos
  have hstrong : ∀ a', (σ.setStrong a k).strong a' = if a' = a then k else σ.strong a' :=
    fun a' => strong_setStrong (by omega)
  refine h.goto rfl h.keys (fun b a' hmem => ?_) (fun a' => ?_) (fun s a' hs => ?_) (fun a' ws hws => ?_)
    (fun a' he hone => ?_) (hrel (by rw [hstrong, if_pos rfl])) (fun u hu => ⟨fun a' hd => ?_, fun _ _ he => he,
      fun _ _ hr => hr, fun a' _ _ => payload_setStrong, fun a' hret => ?_, hslots u hu⟩) ?_
  · -- the bytes of a node never change
    obtain ⟨n, hn, rfl⟩ := h.bytes b a' hmem
    by_cases ha : a' = a
    · subst ha
      exact ⟨{ n with strong := k }, by simp [State.setStrong, hn], rfl⟩
    · exact ⟨n, (heap_setStrong_of_ne ha).trans hn, rfl⟩
  · have hc := hcount a'
    have hbefore := h.counts a'
    change (σ.setStrong a k).strong a' + _ = σ.pooled a' + σ.waiting a' + _ + _ + { σ with slots }.stored a'
    rw [hstrong a']
    omega
  · rcases hhandles s a' hs with rfl | hs'
    · exact hentry
    · exact h.handles s a' hs'
  · have hdead := h.dead a' ws hws
    exact (hstrong a').trans (by rw [if_neg (by rintro rfl; exact hne hdead), hdead])
  · have hone' := (hstrong a').symm.trans hone
    by_cases ha : a' = a
    · subst ha
      rw [if_pos rfl] at hone'
      exact .inl (hlast hone')
    · rw [if_neg ha] at hone'
      obtain ⟨u, hu⟩ := h.doomed a' he hone'
      refine .inr ⟨u, ?_, hu⟩
      rintro rfl
      exact hother a' ha hu
  · refine heap_setStrong_of_ne ?_
    rintro rfl
    exact h.not_drafts hu (by omega) hd
  · have hone := (h.alone_of_retiring hret).1
    exact (hstrong a').trans (if_neg (by rintro rfl; exact hne hone))
  · change σ.memoryUsed - σ.memoryUsed + _ - _ = σ.accounted - σ.accounted + _ - _
    rw [howed, hdue]
    ring

/-- A new handle to a node of the pool: a reference more, and a slot more. -/
theorem newHandle [DecidableEq Slot] {cur next : Nat} (hentry : σ.Entry a) (hcur : σ.strong a = cur) (htwo : 2 ≤ cur)
    (hnext : incrementRefcount cur = some next) (hs : σ.slots s = none) (hrefs : ∀ a', (σ.pc t).refs a' = 0)
    (howed : (σ.pc t).owed = 0) (hdue : (σ.pc t).due = 0) (hret : ∀ a', σ.pc t ≠ .retiring a') :
    Inv (((σ.setStrong a next).store s a).goto t .idle) := by
  obtain rfl : cur + 1 = next := by
    unfold incrementRefcount at hnext
    split at hnext
    · exact Option.some.inj hnext
    · cases hnext
  refine h.write hentry (by omega) (by rw [howed]; rfl) (by rw [hdue]; rfl) (fun u _ s' a' c hclone => ?_)
    (fun s' a' hs' => slots_of_store hs') (fun a' => ?_) (by omega) (fun a' _ => hret a') fun _ => trivial
  · -- a slot that is being cloned from is not the empty one
    have hrel := h.threads u
    rw [hclone] at hrel
    exact slots_store_of_ne (ne_of_slots hrel hs)
  · change _ = _ + 0 + (σ.store s a).stored a'
    rw [stored_store hs, hrefs a']
    split <;> subst_vars <;> omega

theorem release_handle {k : Nat} (hentry : σ.Entry a) (hrefs : ∀ a', (σ.pc t).refs a' = if a = a' then 1 else 0)
    (hk : k + 1 = σ.strong a) (htwo : 2 ≤ σ.strong a) (hprefs : ∀ a', p.refs a' = 0) (howed : p.owed = (σ.pc t).owed)
    (hdue : p.due = (σ.pc t).due) (hlast : k = 1 → p = .retiring a) (hother : ∀ a', σ.pc t ≠ .retiring a')
    (hrel : (σ.setStrong a k).strong a = k → p.Relies (σ.setStrong a k) t) : Inv ((σ.setStrong a k).goto t p) := by
  refine h.write hentry (by omega) howed hdue (fun _ _ _ _ _ _ => rfl) (fun _ _ => .inr) (fun a' => ?_) hlast
    (fun a' _ => hother a') hrel
  change _ = _ + _ + σ.stored a'
  rw [hrefs, hprefs]
  by_cases ha : a = a'
  · subst ha
    simp only [if_true]
    omega
  · simp only [if_neg ha, if_neg (Ne.symm ha)]

theorem decrement {cur : Nat} (hpc : σ.pc t = .dropping a (some cur)) (hthree : 3 ≤ cur)
    (hcur : σ.strong a = cur) : Inv ((σ.setStrong a (cur - 1)).goto t .idle) := by
  have hrel := h.threads t
  rw [hpc] at hrel
  exact h.release_handle hrel.1 (fun _ => by rw [hpc]; rfl) (by omega) (by omega) (fun _ => rfl) (by rw [hpc]; rfl)
    (by rw [hpc]; rfl) (by omega) (by simp [hpc]) fun _ => trivial

/-- The last handle is given up: the entry is dead, and this thread removes it. -/
theorem die (hpc : σ.pc t = .lastDropping a) (htwo : σ.strong a = 2) :
    Inv ((σ.setStrong a 1).goto t (.retiring a)) := by
  have hentry := h.threads t
  rw [hpc] at hentry
  exact h.release_handle hentry (fun _ => by rw [hpc]; rfl) htwo.symm htwo.ge (fun _ => rfl) (by rw [hpc]; rfl)
    (by rw [hpc]; rfl) (fun _ => rfl) (by simp [hpc]) fun hone => ⟨.inl hentry, hone⟩

/-! #### Entries that leave the pool -/

theorem retire {size : BitVec 64} (hdead : σ.isDead b a) (hsize : size = allocatedSize b.length)
    (hrefs : ∀ a', (σ.pc t).refs a' = 0) (hprefs : ∀ a', p.refs a' = 0) (howed : (σ.pc t).owed = 0)
    (hpowed : p.owed = 0) (hdue : (σ.pc t).due = 0) (hpdue : p.due = size)
    (hret : ∀ a' ≠ a, σ.pc t ≠ .retiring a') (hpin : (σ.pc t).pinned)
    (hrel : (σ.retire b a).Readable t a → σ.payload a = some b → p.Relies (σ.retire b a) t) :
    Inv ((σ.retire b a).goto t p) := by
  obtain ⟨hlookup, hone⟩ : σ.lookup b = some a ∧ σ.strong a = 1 := by simpa [State.isDead] using hdead
  have hmem := mem_of_lookup hlookup
  obtain ⟨before, after, hpool⟩ := append_of_mem hmem
  have hrest : (σ.retire b a).pool = before ++ after := filter_pool h.keys hpool
  have hcount := h.counts a
  have hpos := State.Entry.pooled_pos ⟨b, hmem⟩
  have hread : (σ.retire b a).Readable t a :=
    .inr ⟨_, mem_cons_self, Finset.mem_filter.2 ⟨Finset.mem_univ t, hpin⟩⟩
  -- every other entry stays
  have hkeep : ∀ a', a' ≠ a → σ.Entry a' → (σ.retire b a).Entry a' := by
    rintro a' ha ⟨b', hb'⟩
    refine ⟨b', ?_⟩
    rw [hpool, mem_append, mem_cons] at hb'
    rw [hrest, mem_append]
    rcases hb' with hb' | hb' | hb'
    · exact .inl hb'
    · exact absurd (congrArg Prod.snd hb') ha
    · exact .inr hb'
  have hsub : ∀ e ∈ (σ.retire b a).pool, e ∈ σ.pool := fun e he => mem_of_mem_filter he
  have hentries : ∀ a', (σ.retire b a).Entry a' → σ.Entry a' := fun a' ⟨b', hb'⟩ => ⟨b', hsub _ hb'⟩
  have hpooled : ∀ a', σ.pooled a' = (σ.retire b a).pooled a' + if a' = a then 1 else 0 := by
    intro a'
    rw [State.pooled, State.pooled, hrest, hpool]
    simp only [map_append, map_cons, count_append, count_cons, beq_iff_eq, eq_comm (a := a)]
    omega
  have hwait : ∀ a', (σ.retire b a).waiting a' = σ.waiting a' + if a' = a then 1 else 0 := by
    intro a'
    simp only [State.waiting, State.retire, map_cons, count_cons, beq_iff_eq, eq_comm (a := a)]
  have haccounted : (σ.retire b a).accounted + size = σ.accounted := by
    rw [State.accounted, State.accounted, hrest, hpool, hsize]
    simp only [map_append, map_cons, sum_append, sum_cons]
    ring
  refine h.goto rfl (List.Sublist.nodup (List.Sublist.map _ filter_sublist) h.keys)
    (fun b' a' he => h.bytes b' a' (hsub _ he)) (fun a' => ?_) (fun s a' hs => ?_) (fun a' ws hws => ?_)
    (fun a' he hone' => ?_) (hrel hread (h.payload_of_mem hmem)) (fun u hu => ⟨fun _ _ => rfl, fun a' hh he => ?_,
      fun a' hsee hr => ?_, fun _ _ _ => rfl, fun _ _ => rfl, fun _ _ _ _ => rfl⟩) ?_
  · have hc := h.counts a'
    have hp := hpooled a'
    change σ.strong a' + _ = _ + _ + _ + _ + σ.stored a'
    rw [hwait a', hrefs a', hprefs a']
    omega
  · refine hkeep a' ?_ (h.handles s a' hs)
    rintro rfl
    have hs' := stored_pos (σ := σ) hs
    omega
  · rcases mem_cons.1 hws with heq | hws
    · cases heq
      exact hone
    · exact h.dead a' ws hws
  · obtain ⟨u, hu⟩ := h.doomed a' (hentries a' he) hone'
    by_cases hut : u = t
    · subst hut
      refine absurd hu (hret a' ?_)
      -- the node itself has left the pool
      rintro rfl
      have hp := hpooled a'
      have hpos' := he.pooled_pos
      rw [if_pos rfl] at hp
      omega
    · exact .inr ⟨u, hut, hu⟩
  · refine hkeep a' ?_ he
    rintro rfl
    have hown := refs_le_owned (σ := σ) (a := a') u
    rw [Pc.refs_of_holds hh] at hown
    omega
  · rcases hr with hr | ⟨ws, hws, hmem⟩
    · by_cases ha : a' = a
      · -- the entry waits for every thread that may have found it
        subst ha
        exact .inr ⟨_, mem_cons_self, Finset.mem_filter.2 ⟨Finset.mem_univ u, Pc.pinned_of_sees hsee⟩⟩
      · exact .inl (hkeep a' ha hr)
    · exact .inr ⟨ws, mem_cons_of_mem _ hws, hmem⟩
  · change σ.memoryUsed - _ + _ - _ = _
    rw [howed, hpowed, hdue, hpdue, ← haccounted]
    ring

/-! #### New nodes -/

theorem allocate (hpc : σ.pc t = .missing b) (hfree : σ.heap a = none) :
    Inv ((σ.allocate a b 2).goto t (.inserting b a)) := by
  have hzero : σ.strong a = 0 := by rw [State.strong, hfree]; rfl
  have hheap : ∀ a' ≠ a, (σ.allocate a b 2).heap a' = σ.heap a' := fun a' ha => update_of_ne ha ..
  have hself : (σ.allocate a b 2).heap a = some ⟨2, b⟩ := update_self ..
  have hstrong : ∀ a' ≠ a, (σ.allocate a b 2).strong a' = σ.strong a' := fun a' ha => by
    rw [State.strong, hheap a' ha, State.strong]
  -- nothing refers to an address that is free
  have hne : ∀ {a'}, σ.strong a' ≠ 0 → a' ≠ a := by
    rintro a' hs rfl
    exact hs hzero
  have hused : ∀ {a'}, σ.Entry a' → a' ≠ a := by
    rintro a' he rfl
    have hpos := he.pooled_pos
    have hcount := h.counts a'
    omega
  refine h.goto rfl h.keys (fun b' a' he => ?_) (fun a' => ?_) h.handles (fun a' ws hws => ?_)
    (fun a' he hone => ?_) hself (fun u hu => ⟨fun a' hd => ?_, fun _ _ he => he, fun _ _ hr => hr,
      fun a' _ hr => ?_, fun a' hret => ?_, fun _ _ _ _ => rfl⟩) ?_
  · rw [hheap a' (hused ⟨b', he⟩)]
    exact h.bytes b' a' he
  · have hcount := h.counts a'
    change _ = σ.pooled a' + σ.waiting a' + _ + _ + σ.stored a'
    rw [hpc]
    by_cases ha : a' = a
    · subst ha
      rw [strong_of_heap hself]
      simp only [Pc.refs, if_true]
      omega
    · rw [hstrong a' ha]
      simp only [Pc.refs, if_neg (Ne.symm ha)]
      omega
  · have hdead := h.dead a' ws hws
    rw [hstrong a' (hne (by omega)), hdead]
  · have hentry : σ.Entry a' := he
    rw [hstrong a' (hused hentry)] at hone
    exact .inr (h.doomed_other (by simp [hpc]) hentry hone)
  · refine hheap a' (hne ?_)
    rw [h.strong_of_drafts hd]
    have hrefs := Pc.refs_of_drafts hd
    omega
  · have hpos := hr.pos
    have hcount := h.counts a'
    rw [State.payload, hheap a' (hne (by omega)), State.payload]
  · have hone := (h.alone_of_retiring hret).1
    exact hstrong a' (hne (by omega))
  · change σ.memoryUsed - σ.memoryUsed + _ - _ = σ.accounted - σ.accounted + _ - _
    simp only [hpc, Pc.owed, Pc.due]
    ring

theorem insert (hpc : σ.pc t = .inserting b a) (hlookup : σ.lookup b = none) :
    Inv ((σ.insert b a).goto t (.counting b a)) := by
  have hheap := h.threads t
  rw [hpc] at hheap
  have htwo : σ.strong a = 2 := strong_of_heap hheap
  have hgrow : ∀ a', σ.Entry a' → (σ.insert b a).Entry a' := fun a' ⟨b', hb'⟩ => ⟨b', mem_cons_of_mem _ hb'⟩
  refine h.goto rfl (nodup_cons.2 ⟨not_mem_of_lookup hlookup, h.keys⟩) (fun b' a' he => ?_)
    (fun a' => ?_) (fun s a' hs => hgrow a' (h.handles s a' hs)) h.dead (fun a' he hone => ?_) ⟨b, mem_cons_self⟩
    (fun u hu => ⟨fun _ _ => rfl, fun a' _ he => hgrow a' he, fun a' _ hr => ?_, fun _ _ _ => rfl, fun _ _ => rfl,
      fun _ _ _ _ => rfl⟩) ?_
  · rcases mem_cons.1 he with heq | he
    · cases heq
      exact ⟨_, hheap, rfl⟩
    · exact h.bytes b' a' he
  · have hcount := h.counts a'
    have hpooled : (σ.insert b a).pooled a' = σ.pooled a' + if a = a' then 1 else 0 := by
      simp [State.pooled, State.insert, count_cons]
    change σ.strong a' + _ = _ + σ.waiting a' + _ + _ + σ.stored a'
    rw [hpooled, hpc]
    simp only [Pc.refs]
    split <;> omega
  · have hone' : σ.strong a' = 1 := hone
    have ha : a' ≠ a := by
      rintro rfl
      omega
    obtain ⟨b', hb'⟩ := he
    rcases mem_cons.1 hb' with heq | hb'
    · exact absurd (congrArg Prod.snd heq) ha
    · exact .inr (h.doomed_other (by simp [hpc]) ⟨b', hb'⟩ hone')
  · rcases hr with hr | hr
    · exact .inl (hgrow a' hr)
    · exact .inr hr
  · change σ.memoryUsed - σ.memoryUsed + _ - _ = allocatedSize b.length + σ.accounted - σ.accounted + _ - _
    simp only [hpc, Pc.owed, Pc.due]
    ring

/-- The new handle is returned; the size of its node has been added. -/
theorem count [DecidableEq Slot] (hpc : σ.pc t = .counting b a) (hs : σ.slots s = none) :
    Inv (((σ.addMemory (allocatedSize b.length)).store s a).goto t .idle) := by
  have hentry := h.threads t
  rw [hpc] at hentry
  refine h.stay rfl rfl rfl rfl (fun a' => ?_) (fun s' a' hs' => ?_) (by simp [hpc]) trivial
    (fun u s' a' c hclone => ?_) ?_
  · change _ = 0 + (σ.store s a).stored a'
    rw [stored_store hs, hpc]
    simp only [Pc.refs, eq_comm (a := a)]
    omega
  · rcases slots_of_store hs' with rfl | hs'
    · exact hentry
    · exact h.handles s' a' hs'
  · have hrel := h.threads u
    rw [hclone] at hrel
    exact slots_store_of_ne (ne_of_slots hrel hs)
  · change σ.memoryUsed + allocatedSize b.length - _ + _ - _ = _
    simp only [hpc, Pc.owed, Pc.due]
    ring

theorem releaseDraft (hdraft : (σ.pc t).drafts a) (hrefs : ∀ a', (σ.pc t).refs a' = p.refs a' + if a' = a then 1 else 0)
    (howed : (σ.pc t).owed = p.owed) (hdue : (σ.pc t).due = p.due) (hret : ∀ a', σ.pc t ≠ .retiring a')
    (hrel : p.Relies (σ.release a) t) : Inv ((σ.release a).goto t p) := by
  have hstrong := h.strong_of_drafts hdraft
  have hcount := h.counts a
  have hown := refs_le_owned (σ := σ) (a := a) t
  have hself := hrefs a
  rw [if_pos rfl] at hself
  -- the node has no entry, and no retired one
  have hunshared : ∀ {a'}, 1 ≤ σ.pooled a' + σ.waiting a' → a' ≠ a := by
    rintro a' hpos rfl
    omega
  have hused : ∀ {a'}, σ.Entry a' → a' ≠ a := fun he => hunshared (by have := he.pooled_pos; omega)
  refine h.goto release_pc (by rw [release_pool]; exact h.keys) (fun b' a' he => ?_) (fun a' => ?_) (fun s a' hs => ?_)
    (fun a' ws hws => ?_) (fun a' he hone => ?_) hrel (fun u hu => ⟨fun a' hd => ?_, fun a' _ => release_entry.2,
      fun a' _ => release_readable.2, fun a' _ hr => ?_, fun a' hu' => ?_, fun _ _ _ _ => by rw [release_slots]⟩) ?_
  · rw [release_pool] at he
    rw [heap_release_of_ne (hused ⟨b', he⟩)]
    exact h.bytes b' a' he
  · have hcount' := h.counts a'
    have hrefs' := hrefs a'
    rw [strong_release, release_pooled, release_waiting, release_stored]
    by_cases ha : a' = a
    · subst ha
      simp only [if_true] at *
      omega
    · simp only [if_neg ha] at *
      omega
  · rw [release_slots] at hs
    exact release_entry.2 (h.handles s a' hs)
  · rw [release_retired] at hws
    have hdead := h.dead a' ws hws
    have hpos := waiting_pos hws
    rw [strong_release, if_neg (hunshared (by omega)), hdead]
  · have he' := release_entry.1 he
    rw [strong_release, if_neg (hused he')] at hone
    exact .inr (h.doomed_other hret he' hone)
  · refine heap_release_of_ne ?_
    rintro rfl
    exact h.not_drafts hu (by omega) hd
  · rw [State.payload, heap_release_of_ne (hunshared hr.pos), State.payload]
  · have halone := h.alone_of_retiring hu'
    rw [strong_release, if_neg (hunshared (by omega))]
  · rw [release_memoryUsed, release_accounted, howed, hdue]
    ring

/-! #### The other steps -/

theorem drop [DecidableEq Slot] (hpc : σ.pc t = .idle) (hs : σ.slots s = some a) (hborrow : ¬ σ.Borrowed s) :
    Inv ((σ.take s).goto t (.dropping a none)) := by
  refine h.stay rfl rfl rfl rfl (fun a' => ?_) (fun s' a' hs' => ?_) (by simp [hpc]) (h.handles s a hs)
    (fun u s' a' c hclone => ?_) ?_
  · have hstored : (σ.take s).stored a' + (if a' = a then 1 else 0) = σ.stored a' := stored_take hs
    rw [hpc]
    simp only [Pc.refs, eq_comm (a := a)]
    omega
  · have hss : s' ≠ s := by
      rintro rfl
      have hnone : (σ.take s').slots s' = none := update_self ..
      rw [hnone] at hs'
      cases hs'
    have hkeep : (σ.take s).slots s' = σ.slots s' := update_of_ne hss ..
    exact h.handles s' a' (hkeep.symm.trans hs')
  · refine update_of_ne ?_ ..
    rintro rfl
    exact hborrow ⟨u, a', c, hclone⟩
  · change σ.memoryUsed - σ.memoryUsed + _ - _ = _
    simp only [hpc, Pc.owed, Pc.due]
    ring

theorem subMemory {size : BitVec 64} (hdue : (σ.pc t).due = size) (hpdue : p.due = 0)
    (howed : (σ.pc t).owed = 0) (hpowed : p.owed = 0) (hrefs : ∀ a', (σ.pc t).refs a' = p.refs a')
    (hret : ∀ a', σ.pc t ≠ .retiring a') (hrel : ∀ τ : State Thread Slot, p.Relies τ t) :
    Inv ((σ.subMemory size).goto t p) := by
  refine h.stay rfl rfl rfl rfl (fun a' => by rw [hrefs a']; rfl) h.handles (fun a' hret' => absurd hret' (hret a'))
    (hrel _) (fun _ _ _ _ _ => rfl) ?_
  change σ.memoryUsed - size - _ + _ - _ = _
  rw [hdue, hpdue, howed, hpowed]
  ring

omit [DecidableEq Thread] in
/-- A retired entry is dropped when no thread that may have found it is still pinned. -/
theorem reclaim {before after : List (Addr × Finset Thread)}
    (hretired : σ.retired = before ++ (a, ∅) :: after) : Inv ({ σ with retired := before ++ after }.release a) := by
  have hone : σ.strong a = 1 := h.dead a ∅ (by rw [hretired]; simp)
  have hcount := h.counts a
  generalize hτ : ({ σ with retired := before ++ after } : State Thread Slot) = τ
  have hsplit : ∀ a', σ.waiting a' = τ.waiting a' + if a' = a then 1 else 0 := by
    intro a'
    rw [← hτ, State.waiting, State.waiting, hretired]
    simp only [map_append, map_cons, count_append, count_cons, beq_iff_eq, eq_comm (a := a)]
    omega
  have hself := hsplit a
  rw [if_pos rfl] at hself
  -- the node has no other reference
  have hne : ∀ {a'}, σ.pooled a' + τ.waiting a' + σ.owned a' ≠ 0 → a' ≠ a := by
    rintro a' hpos rfl
    omega
  have hentry : ∀ {a'}, σ.Entry a' → a' ≠ a := fun he => hne (by have := he.pooled_pos; omega)
  have hwaits : ∀ {a' ws}, (a', ws) ∈ τ.retired → a' ≠ a := fun hws => hne (by have := waiting_pos hws; omega)
  have hretired' : ∀ e, e ∈ σ.retired ↔ e = (a, ∅) ∨ e ∈ τ.retired := by
    intro e
    rw [← hτ, hretired]
    simp [or_left_comm]
  -- nobody is waited for, so nobody reads the node
  have hreads : ∀ u a', σ.Readable u a' → τ.Readable u a' ∧ a' ≠ a := by
    rintro u a' (he | ⟨ws, hws, hu⟩)
    · exact ⟨.inl (hτ ▸ he), hentry he⟩
    · rcases (hretired' _).1 hws with heq | hstill
      · obtain rfl : ws = ∅ := congrArg Prod.snd heq
        exact absurd hu (Finset.notMem_empty u)
      · exact ⟨.inr ⟨ws, hstill, hu⟩, hwaits hstill⟩
  have hframe : ∀ u, Frame σ (τ.release a) u := by
    refine fun u => ⟨fun a' hd => ?_, fun a' _ he => release_entry.2 (hτ ▸ he),
      fun a' _ hr => release_readable.2 (hreads u a' hr).1, fun a' _ hr => ?_, fun a' hret => ?_,
      fun _ _ _ _ => by rw [release_slots, ← hτ]⟩
    · have hown := refs_le_owned (σ := σ) (a := a') u
      have hrefs := Pc.refs_of_drafts hd
      rw [heap_release_of_ne (hne (by omega)), ← hτ]
    · rw [State.payload, heap_release_of_ne (hreads u a' hr).2, ← hτ]
      rfl
    · have hrel := h.threads u
      rw [hret] at hrel
      rw [strong_release, if_neg (hreads u a' hrel.1).2, ← hτ]
      rfl
  constructor
  · rw [release_pool, ← hτ]
    exact h.keys
  · intro b' a' he
    rw [release_pool, ← hτ] at he
    rw [heap_release_of_ne (hentry ⟨b', he⟩), ← hτ]
    exact h.bytes b' a' he
  · intro a'
    have hcount' := h.counts a'
    have hwait := hsplit a'
    rw [release_pooled, release_owned, release_stored, release_waiting, strong_release]
    rw [← hτ] at *
    change (if _ then σ.strong a - 1 else σ.strong a') = σ.pooled a' + _ + σ.owned a' + σ.stored a'
    by_cases ha : a' = a
    · subst ha
      rw [if_pos rfl] at *
      omega
    · rw [if_neg ha] at *
      omega
  · intro s a' hs
    rw [release_slots, ← hτ] at hs
    exact release_entry.2 (hτ ▸ h.handles s a' hs)
  · intro a' ws hws
    rw [release_retired] at hws
    rw [strong_release, if_neg (hwaits hws), ← hτ]
    exact h.dead a' ws ((hretired' _).2 (.inr hws))
  · intro a' he hone'
    rw [release_entry, ← hτ] at he
    rw [strong_release, if_neg (hentry he), ← hτ] at hone'
    rw [release_pc, ← hτ]
    exact h.doomed a' he hone'
  · intro u
    have hpc : τ.pc u = σ.pc u := by rw [← hτ]
    rw [release_pc, hpc]
    exact (hframe u).relies (h.threads u)
  · rw [release_memoryUsed, release_accounted, release_pc, ← hτ]
    exact h.memory

/-! ### Every run -/

theorem step [DecidableEq Slot] {σ' : State Thread Slot} (hstep : Step σ σ') : Inv σ' := by
  cases hstep with
  | move hmove => exact h.move hmove
  | @acquire t s b a cur next hpc htwo hnext hcur hs =>
    have hrel := h.threads t
    rw [hpc] at hrel
    exact h.newHandle (h.entry_of_readable hrel (by omega)) hcur htwo hnext hs (by simp [hpc, Pc.refs])
      (by simp [hpc, Pc.owed]) (by simp [hpc, Pc.due]) (by simp [hpc])
  | @help t b a hpc hdead =>
    exact h.retire hdead rfl (by simp [hpc, Pc.refs]) (fun _ => rfl) (by simp [hpc, Pc.owed]) rfl
      (by simp [hpc, Pc.due]) rfl (by simp [hpc]) (by rw [hpc]; rfl) fun hread hpayload => ⟨hread, hpayload⟩
  | @uncount t b a size hpc =>
    exact h.subMemory (by simp [hpc, Pc.due]) rfl (by simp [hpc, Pc.owed]) rfl (by simp [hpc, Pc.refs])
      (by simp [hpc]) (fun _ => trivial)
  | allocate hpc _ hfree => exact h.allocate hpc hfree
  | insert hpc hlookup => exact h.insert hpc hlookup
  | count hpc hs => exact h.count hpc hs
  | @reject t b a hpc =>
    have hheap := h.threads t
    rw [hpc] at hheap
    refine h.releaseDraft (by simp [hpc, Pc.drafts]) (fun a' => ?_) (by simp [hpc, Pc.owed]) (by simp [hpc, Pc.due])
      (by simp [hpc]) ?_
    · rw [hpc]
      by_cases ha : a' = a
      · simp [Pc.refs, ha]
      · simp [Pc.refs, ha, Ne.symm ha]
    · exact heap_release_two hheap
  | @giveUp t b a hpc =>
    refine h.releaseDraft (by simp [hpc, Pc.drafts]) (fun a' => ?_) (by simp [hpc, Pc.owed]) (by simp [hpc, Pc.due])
      (by simp [hpc]) trivial
    rw [hpc]
    simp [Pc.refs, eq_comm]
  | @retain t s s' a cur next hpc hnext hcur hs =>
    have hslot := h.threads t
    rw [hpc] at hslot
    have hentry := h.handles s a hslot
    have hpool := hentry.pooled_pos
    have hstored := stored_pos (σ := σ) hslot
    have hcount := h.counts a
    exact h.newHandle hentry hcur (by omega) hnext hs (by simp [hpc, Pc.refs]) (by simp [hpc, Pc.owed])
      (by simp [hpc, Pc.due]) (by simp [hpc])
  | drop hpc hs hborrow => exact h.drop hpc hs hborrow
  | decrement hpc hthree hcur => exact h.decrement hpc hthree hcur
  | die hpc htwo => exact h.die hpc htwo
  | @retire t a n hpc hn hdead =>
    exact h.retire hdead rfl (by simp [hpc, Pc.refs]) (fun _ => rfl) (by simp [hpc, Pc.owed]) rfl
      (by simp [hpc, Pc.due]) rfl (fun a' ha hret => ha (Pc.retiring.inj (hpc.symm.trans hret)).symm)
      (by rw [hpc]; rfl) fun hread hpayload => ⟨hread, hpayload⟩
  | @discount t b a size hpc =>
    exact h.subMemory (by simp [hpc, Pc.due]) rfl (by simp [hpc, Pc.owed]) rfl (by simp [hpc, Pc.refs])
      (by simp [hpc]) (fun _ => trivial)
  | @abandon t a hpc =>
    have hrel := h.threads t
    rw [hpc] at hrel
    exact hrel.elim
  | reclaim hretired => exact h.reclaim hretired

end Inv

/-! ### What the invariant says of handles -/

namespace Inv

variable [Fintype Thread] [Fintype Slot] {σ : State Thread Slot} {a : Addr}

/-- No node has two entries: the bytes are those of the node. -/
theorem pooled_le_one (h : Inv σ) (a : Addr) : σ.pooled a ≤ 1 := by
  have hnodup : (σ.pool.map Prod.snd).Nodup := by
    refine List.Nodup.map_on (fun e he e' he' heq => ?_) (List.Nodup.of_map _ h.keys)
    obtain ⟨n, hn, hb⟩ := h.bytes e.1 e.2 he
    obtain ⟨n', hn', hb'⟩ := h.bytes e'.1 e'.2 he'
    rw [heq, hn'] at hn
    obtain rfl := Option.some.inj hn
    exact Prod.ext (hb.symm.trans hb') heq
  exact nodup_iff_count_le_one.1 hnodup a

theorem entry_of_holders (h : Inv σ) (hpos : 0 < σ.holders a) : σ.Entry a := by
  by_cases hstored : σ.stored a = 0
  · have hsum : ∑ t, (if (σ.pc t).holds a then 1 else 0) ≠ 0 := by
      unfold State.holders at hpos
      omega
    obtain ⟨t, -, ht⟩ := Finset.exists_ne_zero_of_sum_ne_zero hsum
    exact Pc.entry_of_holds (h.threads t) (by simpa using ht)
  · obtain ⟨s, -, hs⟩ := Finset.exists_ne_zero_of_sum_ne_zero hstored
    exact h.handles s a (by simpa using hs)

/-- In the pool, every reference but the pool's own is that of a handle. -/
theorem strong_of_entry (h : Inv σ) (hentry : σ.Entry a) : σ.strong a = σ.holders a + 1 := by
  have hcount := h.counts a
  have hpos := hentry.pooled_pos
  have hpooled := h.pooled_le_one a
  have hwaiting : σ.waiting a = 0 := by
    by_contra hwait
    obtain ⟨e, he, rfl⟩ := mem_map.1 (count_pos_iff.1 (Nat.pos_of_ne_zero hwait))
    have hdead := h.dead e.1 e.2 he
    omega
  have howned : σ.owned a = ∑ t, if (σ.pc t).holds a then 1 else 0 := by
    refine Finset.sum_congr rfl fun t _ => Pc.refs_eq_holds fun hdraft => ?_
    have hstrong := h.strong_of_drafts hdraft
    have hown := refs_le_owned (σ := σ) (a := a) t
    omega
  unfold State.holders
  omega

end Inv

variable [Fintype Thread] [DecidableEq Thread] [Fintype Slot] [DecidableEq Slot]

theorem Reachable.inv (h : Reachable σ) : Inv σ := by
  induction h with
  | refl => exact Inv.init
  | tail _ hstep ih => exact ih.step hstep

/-- **The protocol of the interner.**  At every point of every interleaving of `intern`, `clone`
and `drop`, two handles to equal strings share the pool's entry, the node of a handle is there, and
the count of a node in the pool is one more than the number of its handles.  Once no handle is
left and no operation is in progress, the pool is empty and accounts for no memory. -/
theorem interned_once_and_freed_last {σ : State Thread Slot} (h : Reachable σ) :
    (∀ a a', 0 < σ.holders a → 0 < σ.holders a' → ∃ n n', σ.heap a = some n ∧ σ.heap a' = some n' ∧
      (n.bytes, a) ∈ σ.pool ∧ (n.bytes = n'.bytes → a = a')) ∧ (∀ b a, (b, a) ∈ σ.pool → σ.strong a = σ.holders a + 1) ∧
    ((∀ a, σ.holders a = 0) → (∀ t, (σ.pc t).atRest) → σ.pool = [] ∧ σ.memoryUsed = 0) := by
  have hinv := h.inv
  have hheld : ∀ a, 0 < σ.holders a → ∃ n, σ.heap a = some n ∧ (n.bytes, a) ∈ σ.pool := by
    intro a hpos
    have hentry := hinv.entry_of_holders hpos
    obtain ⟨b, hb⟩ := hentry
    obtain ⟨n, hn, rfl⟩ := hinv.bytes b a hb
    exact ⟨n, hn, hb⟩
  refine ⟨fun a a' ha ha' => ?_, fun b a hmem => hinv.strong_of_entry ⟨b, hmem⟩, fun hnone hrest => ?_⟩
  · obtain ⟨n, hn, hmem⟩ := hheld a ha
    obtain ⟨n', hn', hmem'⟩ := hheld a' ha'
    refine ⟨n, n', hn, hn', hmem, fun hbytes => ?_⟩
    have hlookup := lookup_of_mem hinv.keys hmem
    rw [hbytes, lookup_of_mem hinv.keys hmem'] at hlookup
    exact (Option.some.inj hlookup).symm
  · have hpool : σ.pool = [] := by
      refine eq_nil_iff_forall_not_mem.2 fun ⟨b, a⟩ hmem => ?_
      have hone := hinv.strong_of_entry ⟨b, hmem⟩
      rw [hnone a] at hone
      obtain ⟨t, ht⟩ := hinv.doomed a ⟨b, hmem⟩ hone
      have hrest' := hrest t
      rw [ht] at hrest'
      cases hrest'
    refine ⟨hpool, ?_⟩
    have howed : ∑ t, (σ.pc t).owed = 0 := Finset.sum_eq_zero fun t _ => (Pc.owed_due_of_atRest (hrest t)).1
    have hdue : ∑ t, (σ.pc t).due = 0 := Finset.sum_eq_zero fun t _ => (Pc.owed_due_of_atRest (hrest t)).2
    have hmemory := hinv.memory
    rw [howed, hdue, State.accounted, hpool] at hmemory
    simpa using hmemory

/-- The state after the first thread has interned a string. -/
def oneHandle : State (Fin 2) (Fin 2) :=
  let b : Bytes := [0x61]
  let σ := (State.init.goto 0 (.probing b)).goto 0 (.missing b)
  let σ := ((σ.allocate 7 b 2).goto 0 (.inserting b 7) |>.insert b 7).goto 0 (.counting b 7)
  ((σ.addMemory (allocatedSize b.length)).store 0 7).goto 0 .idle

theorem oneHandle_reachable : Reachable oneHandle := by
  have hstart : Reachable ((State.init : State (Fin 2) (Fin 2)).goto 0 (.probing [0x61])) :=
    .tail .refl (.move (.start _))
  have hmiss := hstart.tail (.move (t := 0) (.miss rfl))
  have hallocate := hmiss.tail (.allocate (t := 0) (a := 7) rfl (by decide) rfl)
  have hinsert := hallocate.tail (.insert (t := 0) (b := [0x61]) (a := 7) rfl rfl)
  exact hinsert.tail (.count (t := 0) (s := 0) (b := [0x61]) (a := 7) rfl rfl)

/-- The second thread has found the entry of the string. -/
def foundByOther : State (Fin 2) (Fin 2) := (oneHandle.goto 1 (.probing [0x61])).goto 1 (.found [0x61] 7)

theorem foundByOther_reachable : Reachable foundByOther := by
  have hstart := oneHandle_reachable.tail (.move (t := 1) (.start [0x61]))
  exact hstart.tail (.move (t := 1) (.hit rfl))

/-- ... and has taken a reference. -/
def twoHandles : State (Fin 2) (Fin 2) :=
  (((foundByOther.goto 1 (.acquiring [0x61] 7 2)).setStrong 7 3).store 1 7).goto 1 .idle

theorem twoHandles_reachable : Reachable twoHandles := by
  have hload := foundByOther_reachable.tail (.move (t := 1) (.load [0x61] 7))
  exact hload.tail (.acquire (t := 1) (s := 1) (b := [0x61]) (a := 7) rfl le_rfl rfl rfl rfl)

theorem not_borrowed {σ : State (Fin 2) (Fin 2)} {s : Fin 2} {p q : Pc (Fin 2)} (hp : σ.pc 0 = p) (hq : σ.pc 1 = q)
    (hp' : ∀ a cur, p ≠ .cloning s a cur) (hq' : ∀ a cur, q ≠ .cloning s a cur) : ¬ σ.Borrowed s := by
  rintro ⟨t, a, cur, hclone⟩
  fin_cases t
  · exact hp' a cur (hp.symm.trans hclone)
  · exact hq' a cur (hq.symm.trans hclone)

/-- The first thread drops the last handle: it pins, gives up the reference, removes the entry and takes
its size off. -/
def dropLast (σ : State (Fin 2) (Fin 2)) : State (Fin 2) (Fin 2) :=
  let σ := ((σ.take 0).goto 0 (.dropping 7 none)).goto 0 (.dropping 7 (some 2))
  let σ := ((σ.goto 0 (.lastDropping 7)).setStrong 7 1).goto 0 (.retiring 7)
  let σ := ((σ.retire [0x61] 7).goto 0 (.discounting [0x61] 7 none)).goto 0 (.discounting [0x61] 7 (some 17))
  (σ.subMemory 17).goto 0 .idle

theorem dropLast_reachable {σ : State (Fin 2) (Fin 2)} (h : Reachable σ) (hidle : σ.pc 0 = .idle)
    (hslot : σ.slots 0 = some 7) (hborrow : ¬ σ.Borrowed 0) (hheap : σ.heap 7 = some ⟨2, [0x61]⟩)
    (hpool : σ.lookup [0x61] = some 7) : Reachable (dropLast σ) := by
  have hstrong : σ.strong 7 = 2 := strong_of_heap hheap
  have hdrop := h.tail (.drop (t := 0) hidle hslot hborrow)
  have hread := hdrop.tail (.move (t := 0) (.read 7))
  rw [show ((σ.take 0).goto 0 (.dropping 7 none)).strong 7 = 2 from hstrong] at hread
  have hlast := hread.tail (.move (t := 0) (.last 7))
  have hdie := hlast.tail (.die (t := 0) (a := 7) rfl hstrong)
  have hnode : (σ.setStrong 7 1).heap 7 = some ⟨1, [0x61]⟩ := by
    simp [State.setStrong, hheap]
  have hretire := hdie.tail (.retire (t := 0) (a := 7) rfl hnode
    (decide_eq_true ⟨hpool, strong_of_heap hnode⟩))
  have hmeasure := hretire.tail (.move (t := 0) (.measureLast (n := ⟨1, [0x61]⟩) hnode))
  exact hmeasure.tail (.discount (t := 0) (b := [0x61]) (a := 7) rfl)

/-- The second thread drops its handle first. -/
def oneDropped : State (Fin 2) (Fin 2) :=
  let σ := ((twoHandles.take 1).goto 1 (.dropping 7 none)).goto 1 (.dropping 7 (some 3))
  (σ.setStrong 7 2).goto 1 .idle

theorem oneDropped_reachable : Reachable oneDropped := by
  have hdrop := twoHandles_reachable.tail
    (.drop (t := 1) (s := 1) (a := 7) rfl rfl (not_borrowed (p := .idle) (q := .idle) rfl rfl nofun nofun))
  have hread := hdrop.tail (.move (t := 1) (.read 7))
  exact hread.tail (.decrement (t := 1) (a := 7) rfl le_rfl rfl)

theorem interned_once_and_freed_last_twoHandles :
    (twoHandles.holders 7 = 2 ∧ twoHandles.strong 7 = twoHandles.holders 7 + 1) ∧
    Reachable (dropLast oneDropped) ∧ (dropLast oneDropped).pool = [] ∧ (dropLast oneDropped).memoryUsed = 0 := by
  have hlast : Reachable (dropLast oneDropped) := dropLast_reachable oneDropped_reachable rfl rfl
    (not_borrowed (p := .idle) (q := .idle) rfl rfl nofun nofun) rfl rfl
  refine ⟨⟨by decide, (interned_once_and_freed_last twoHandles_reachable).2.1 [0x61] 7 mem_cons_self⟩, hlast, ?_⟩
  have hslots : ∀ s, (dropLast oneDropped).slots s = none := by
    intro s
    fin_cases s <;> rfl
  have hidle : ∀ t, (dropLast oneDropped).pc t = .idle := by
    intro t
    fin_cases t <;> rfl
  refine (interned_once_and_freed_last hlast).2.2 (fun a => ?_) (fun t => by rw [hidle t]; rfl)
  simp [State.holders, State.stored, hslots, hidle, Pc.holds]

/-- No operation reads or writes a node that was freed. -/
theorem no_use_after_free (h : Reachable σ) (htouch : (σ.pc t).touches a) : (σ.heap a).isSome := by
  have hinv := h.inv
  have hcount := hinv.counts a
  have hstrong : σ.strong a ≠ 0 := by
    rw [Pc.touches, Bool.or_eq_true, Bool.or_eq_true, bne_iff_ne] at htouch
    rcases htouch with (hsees | hclones) | hrefs
    · have hpos := (Pc.readable_of_sees (hinv.threads t) hsees).pos
      omega
    · -- the handle that is cloned stays in its slot
      have hslot := hinv.stored_of_clones hclones
      omega
    · have hown := refs_le_owned (σ := σ) (a := a) t
      omega
  cases hheap : σ.heap a with
  | none => exact absurd (by rw [State.strong, hheap]; rfl) hstrong
  | some n => rfl

/-- The second thread has found the node; the first one drops the last handle and is done.  The entry has
left the pool, and the node is still there to be read. -/
theorem no_use_after_free_race :
    Reachable (dropLast foundByOther) ∧ (dropLast foundByOther).lookup [0x61] = none ∧
    ((dropLast foundByOther).pc 1).touches 7 ∧ ((dropLast foundByOther).heap 7).isSome := by
  have hlast : Reachable (dropLast foundByOther) := dropLast_reachable foundByOther_reachable rfl rfl
    (not_borrowed (p := .idle) (q := .found [0x61] 7) rfl rfl nofun nofun) rfl rfl
  exact ⟨hlast, rfl, by decide, no_use_after_free (t := 1) hlast (by decide)⟩

end ValkeyTimeSeries.Interner
