/-
Common/StringInterner.lean

The string interner of `common/string_interner.rs`, as a system of threads that share a pool.

Design.  A thread is at rest or inside `intern`, `clone` or `drop`, at one of the points between two atomic
actions (`Pc`); what it has read so far is part of the point.  The handles that exist are in slots, one handle
a slot.  Every atomic action of the source is one constructor of `Step`.

An entry that leaves the pool is not released at once.  It waits for the threads that were pinned at that
moment (`retired`), since one of them may have found it.  A node's address may be given out again as soon as
the node is freed.
-/
import ValkeyTimeSeries.Library.Tally

namespace ValkeyTimeSeries.Interner

open Function

abbrev Bytes : Type := List (BitVec 8)

abbrev Addr : Type := Nat

def maxRefcount : Nat := 2 ^ 63 - 1

/-- `u32::MAX`; a string has to be shorter. -/
def noSeparator : Nat := 2 ^ 32 - 1

def headerSize : Nat := 16

/-- Bytes the pool allocated for a string of `len` bytes; `usize` wraps around. -/
def allocatedSize (len : Nat) : BitVec 64 := BitVec.ofNat 64 (headerSize + len)

def incrementRefcount (current : Nat) : Option Nat :=
  if current + 1 ≤ maxRefcount then some (current + 1) else none

/-- A node: the count of the references to it, and its payload. -/
structure Node where
  strong : Nat
  bytes : Bytes
deriving DecidableEq, Repr

/-- Where a thread is, between two atomic actions.  `cur` is the count that it read last. -/
inductive Pc (Slot : Type) where
  | idle
  /-- `intern`: at the top of the loop, with a guard. -/
  | probing (b : Bytes)
  /-- The pool has an entry; its count is read next. -/
  | found (b : Bytes) (a : Addr)
  /-- In the loop of `try_acquire`. -/
  | acquiring (b : Bytes) (a : Addr) (cur : Nat)
  /-- `try_acquire` refused: the entry is dead. -/
  | helping (b : Bytes) (a : Addr)
  /-- The entry was removed here: the length of the node is read, and then its size taken off. -/
  | uncounting (b : Bytes) (a : Addr) (size : Option (BitVec 64))
  /-- The pool has no entry. -/
  | missing (b : Bytes)
  /-- A new node is to be inserted. -/
  | inserting (b : Bytes) (a : Addr)
  /-- The node is in the pool; its size is added next. -/
  | counting (b : Bytes) (a : Addr)
  /-- Another thread was first: the rejected entry drops. -/
  | rejected (b : Bytes) (a : Addr)
  /-- ... and then the reference of the prospective holder. -/
  | releasing (b : Bytes) (a : Addr)
  /-- `clone` of the handle in a slot, in the loop of `retain`. -/
  | cloning (s : Slot) (a : Addr) (cur : Option Nat)
  /-- `drop`, in its loop. -/
  | dropping (a : Addr) (cur : Option Nat)
  /-- The count was 2: pinned, the swap to 1 is next. -/
  | lastDropping (a : Addr)
  /-- The swap to 1 succeeded: the entry is dead, and retired next. -/
  | retiring (a : Addr)
  /-- The entry was removed here: the length of the node is read, and then its size taken off. -/
  | discounting (b : Bytes) (a : Addr) (size : Option (BitVec 64))
  /-- The count was 1: a plain release. -/
  | abandoning (a : Addr)
  /-- The count was 0, or the string was too long. -/
  | panicked
deriving DecidableEq

namespace Pc

variable {Slot : Type}

def pinned : Pc Slot → Bool
  | .probing _ | .found .. | .acquiring .. | .helping .. | .uncounting .. | .missing _ | .inserting ..
  | .counting .. | .rejected .. | .releasing .. | .lastDropping _ | .retiring _ | .discounting .. => true
  | .idle | .cloning .. | .dropping .. | .abandoning _ | .panicked => false

def refs (a : Addr) : Pc Slot → Nat
  | .inserting _ a' | .rejected _ a' => if a' = a then 2 else 0
  | .counting _ a' | .releasing _ a' | .dropping a' _ | .lastDropping a' | .abandoning a' =>
    if a' = a then 1 else 0
  | _ => 0

/-- Whether the thread owns a handle to the node: one that `intern` is about to return, or one
that `drop` has not given up yet. -/
def holds (a : Addr) : Pc Slot → Bool
  | .counting _ a' | .dropping a' _ | .lastDropping a' | .abandoning a' => a' = a
  | _ => false

/-- Whether the thread reads the node without owning a reference to it: it found the node
through the pool, or has given its own reference up. -/
def sees (a : Addr) : Pc Slot → Bool
  | .found _ a' | .acquiring _ a' _ | .helping _ a' | .uncounting _ a' _ | .retiring a' | .discounting _ a' _ => a' = a
  | _ => false

/-- Whether the thread reads the node through a handle that it borrows. -/
def clones (a : Addr) : Pc Slot → Bool
  | .cloning _ a' _ => a' = a
  | _ => false

/-- Whether the operation of the thread reads or writes the node, or frees a reference to it. -/
def touches (a : Addr) (p : Pc Slot) : Bool := p.sees a || p.clones a || p.refs a != 0

def owed : Pc Slot → BitVec 64
  | .counting b _ => allocatedSize b.length
  | _ => 0

def due : Pc Slot → BitVec 64
  | .uncounting b _ none | .discounting b _ none => allocatedSize b.length
  | .uncounting _ _ (some size) | .discounting _ _ (some size) => size
  | _ => 0

def atRest : Pc Slot → Bool
  | .idle | .panicked => true
  | _ => false

end Pc

variable {Thread Slot : Type} [Fintype Thread] [DecidableEq Thread] [Fintype Slot] [DecidableEq Slot]

/-- The pool, the nodes, the threads and the handles.  `retired` are the entries that left the pool
and are not released yet, each with the threads it still waits for. -/
structure State (Thread Slot : Type) where
  pool : List (Bytes × Addr)
  memoryUsed : BitVec 64
  heap : Addr → Option Node
  retired : List (Addr × Finset Thread)
  pc : Thread → Pc Slot
  slots : Slot → Option Addr

namespace State

variable (σ : State Thread Slot)

def init : State Thread Slot :=
  { pool := [], memoryUsed := 0, heap := fun _ => none, retired := [], pc := fun _ => .idle, slots := fun _ => none }

/-- `get_key_value`. -/
def lookup (b : Bytes) : Option Addr := σ.pool.lookup b

/-- The count of a node, 0 where no node is. -/
def strong (a : Addr) : Nat := (σ.heap a).elim 0 Node.strong

/-- The thread goes to another point.  One that is not pinned there is not waited for. -/
def goto (t : Thread) (p : Pc Slot) : State Thread Slot :=
  { σ with
    pc := update σ.pc t p
    retired := if p.pinned then σ.retired else σ.retired.map fun e => (e.1, e.2.erase t) }

def setStrong (a : Addr) (k : Nat) : State Thread Slot :=
  { σ with heap := update σ.heap a ((σ.heap a).map ({ · with strong := k })) }

/-- One reference is given back; the last one frees the node. -/
def release (a : Addr) : State Thread Slot :=
  if σ.strong a = 1 then { σ with heap := update σ.heap a none } else σ.setStrong a (σ.strong a - 1)

def allocate (a : Addr) (b : Bytes) (strong : Nat) : State Thread Slot :=
  { σ with heap := update σ.heap a (some { strong, bytes := b }) }

def store (s : Slot) (a : Addr) : State Thread Slot := { σ with slots := update σ.slots s (some a) }

def take (s : Slot) : State Thread Slot := { σ with slots := update σ.slots s none }

/-- `try_insert_with`, where the key is absent. -/
def insert (b : Bytes) (a : Addr) : State Thread Slot := { σ with pool := (b, a) :: σ.pool }

/-- The condition of `remove_if` in `retire_if_dead`: the entry is this very node, and dead. -/
def isDead (b : Bytes) (a : Addr) : Bool := σ.lookup b = some a ∧ σ.strong a = 1

/-- `remove_if` where the condition holds: the entry waits for every thread that is pinned. -/
def retire (b : Bytes) (a : Addr) : State Thread Slot :=
  { σ with
    pool := σ.pool.filter (·.1 ≠ b)
    retired := (a, Finset.univ.filter fun t => (σ.pc t).pinned) :: σ.retired }

def addMemory (size : BitVec 64) : State Thread Slot := { σ with memoryUsed := σ.memoryUsed + size }

def subMemory (size : BitVec 64) : State Thread Slot := { σ with memoryUsed := σ.memoryUsed - size }

/-- A clone is reading the handle in the slot. -/
def Borrowed (s : Slot) : Prop := ∃ t a cur, σ.pc t = .cloning s a cur

end State

open State

/-- The moves of a thread that change nothing but the point where it is. -/
inductive Move (σ : State Thread Slot) : Pc Slot → Pc Slot → Prop
  -- `intern`
  | start (b : Bytes) : Move σ .idle (.probing b)
  | hit {b : Bytes} {a : Addr} : σ.lookup b = some a → Move σ (.probing b) (.found b a)
  | miss {b : Bytes} : σ.lookup b = none → Move σ (.probing b) (.missing b)
  | tooLong {b : Bytes} : noSeparator ≤ b.length → Move σ (.missing b) .panicked
  | load (b : Bytes) (a : Addr) : Move σ (.found b a) (.acquiring b a (σ.strong a))
  -- the swap failed; a weak one may fail for no reason
  | reload (b : Bytes) (a : Addr) {cur : Nat} : 2 ≤ cur → Move σ (.acquiring b a cur) (.acquiring b a (σ.strong a))
  | refuse (b : Bytes) (a : Addr) {cur : Nat} : cur < 2 → Move σ (.acquiring b a cur) (.helping b a)
  | notHelped {b : Bytes} {a : Addr} : ¬ σ.isDead b a → Move σ (.helping b a) (.probing b)
  | measure {b : Bytes} {a : Addr} {n : Node} : σ.heap a = some n →
      Move σ (.uncounting b a none) (.uncounting b a (some (allocatedSize n.bytes.length)))
  | occupied {b : Bytes} {a a' : Addr} : σ.lookup b = some a' → Move σ (.inserting b a) (.rejected b a)
  -- `clone`
  | borrow {s : Slot} {a : Addr} : σ.slots s = some a → Move σ .idle (.cloning s a none)
  | count (s : Slot) (a : Addr) (cur : Option Nat) : Move σ (.cloning s a cur) (.cloning s a (some (σ.strong a)))
  -- `drop`
  | read (a : Addr) : Move σ (.dropping a none) (.dropping a (some (σ.strong a)))
  | reread (a : Addr) {cur : Nat} : 3 ≤ cur → Move σ (.dropping a (some cur)) (.dropping a (some (σ.strong a)))
  | last (a : Addr) : Move σ (.dropping a (some 2)) (.lastDropping a)
  | notLast {a : Addr} : σ.strong a ≠ 2 → Move σ (.lastDropping a) (.dropping a (some (σ.strong a)))
  | one (a : Addr) : Move σ (.dropping a (some 1)) (.abandoning a)
  | zero (a : Addr) : Move σ (.dropping a (some 0)) .panicked
  | retired {a : Addr} {n : Node} : σ.heap a = some n → ¬ σ.isDead n.bytes a → Move σ (.retiring a) .idle
  | measureLast {b : Bytes} {a : Addr} {n : Node} : σ.heap a = some n →
      Move σ (.discounting b a none) (.discounting b a (some (allocatedSize n.bytes.length)))

/-- The atomic actions.  The process aborts where a count cannot be incremented: there is no step then. -/
inductive Step (σ : State Thread Slot) : State Thread Slot → Prop
  | move {t : Thread} {p : Pc Slot} : Move σ (σ.pc t) p → Step σ (σ.goto t p)
  -- `intern`
  | acquire {t : Thread} {s : Slot} {b : Bytes} {a : Addr} {cur next : Nat} :
      σ.pc t = .acquiring b a cur → 2 ≤ cur → incrementRefcount cur = some next → σ.strong a = cur → σ.slots s = none →
      Step σ (((σ.setStrong a next).store s a).goto t .idle)
  | help {t : Thread} {b : Bytes} {a : Addr} :
      σ.pc t = .helping b a → σ.isDead b a → Step σ ((σ.retire b a).goto t (.uncounting b a none))
  | uncount {t : Thread} {b : Bytes} {a : Addr} {size : BitVec 64} :
      σ.pc t = .uncounting b a (some size) → Step σ ((σ.subMemory size).goto t (.probing b))
  | allocate {t : Thread} {b : Bytes} {a : Addr} :
      σ.pc t = .missing b → b.length < noSeparator → σ.heap a = none →
      Step σ ((σ.allocate a b 2).goto t (.inserting b a))
  | insert {t : Thread} {b : Bytes} {a : Addr} :
      σ.pc t = .inserting b a → σ.lookup b = none → Step σ ((σ.insert b a).goto t (.counting b a))
  | count {t : Thread} {s : Slot} {b : Bytes} {a : Addr} :
      σ.pc t = .counting b a → σ.slots s = none →
      Step σ (((σ.addMemory (allocatedSize b.length)).store s a).goto t .idle)
  | reject {t : Thread} {b : Bytes} {a : Addr} :
      σ.pc t = .rejected b a → Step σ ((σ.release a).goto t (.releasing b a))
  | giveUp {t : Thread} {b : Bytes} {a : Addr} :
      σ.pc t = .releasing b a → Step σ ((σ.release a).goto t (.probing b))
  -- `clone`
  | retain {t : Thread} {s s' : Slot} {a : Addr} {cur next : Nat} :
      σ.pc t = .cloning s a (some cur) → incrementRefcount cur = some next → σ.strong a = cur → σ.slots s' = none →
      Step σ (((σ.setStrong a next).store s' a).goto t .idle)
  -- `drop`
  | drop {t : Thread} {s : Slot} {a : Addr} :
      σ.pc t = .idle → σ.slots s = some a → ¬ σ.Borrowed s → Step σ ((σ.take s).goto t (.dropping a none))
  | decrement {t : Thread} {a : Addr} {cur : Nat} :
      σ.pc t = .dropping a (some cur) → 3 ≤ cur → σ.strong a = cur → Step σ ((σ.setStrong a (cur - 1)).goto t .idle)
  | die {t : Thread} {a : Addr} :
      σ.pc t = .lastDropping a → σ.strong a = 2 → Step σ ((σ.setStrong a 1).goto t (.retiring a))
  | retire {t : Thread} {a : Addr} {n : Node} :
      σ.pc t = .retiring a → σ.heap a = some n → σ.isDead n.bytes a →
      Step σ ((σ.retire n.bytes a).goto t (.discounting n.bytes a none))
  | discount {t : Thread} {b : Bytes} {a : Addr} {size : BitVec 64} :
      σ.pc t = .discounting b a (some size) → Step σ ((σ.subMemory size).goto t .idle)
  | abandon {t : Thread} {a : Addr} :
      σ.pc t = .abandoning a → Step σ ((σ.release a).goto t .idle)
  -- a retired entry that nobody can still be reading is dropped
  | reclaim {a : Addr} {before after : List (Addr × Finset Thread)} :
      σ.retired = before ++ (a, ∅) :: after → Step σ ({ σ with retired := before ++ after }.release a)

/-- The states that a run reaches, in any interleaving of the threads. -/
def Reachable (σ : State Thread Slot) : Prop := Relation.ReflTransGen Step State.init σ

end ValkeyTimeSeries.Interner
