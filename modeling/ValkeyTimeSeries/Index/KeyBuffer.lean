/-
Index/KeyBuffer.lean

The keys a lookup builds (`key_buffer.rs`), against the keys the index holds (`index_key.rs`).

Design.  A `KeyBuffer` is filled part by part, in an array on the stack where the parts fit and in a vector
otherwise; the bytes are those of the parts either way.
-/
import ValkeyTimeSeries.Index.Query

namespace ValkeyTimeSeries

open List

def stackSize : Nat := 64

/-- On the stack the buffer is an array, of which `len` bytes are used. -/
inductive KeyBuffer
  | stack (buf : Bytes) (len : Nat)
  | heap (bytes : Bytes)

namespace KeyBuffer

def asBytes : KeyBuffer → Bytes
  | stack buf len => buf.take len
  | heap bytes => bytes

/-- `buf[ofs..ofs + part.len()].copy_from_slice(part)`, and the position behind it. -/
def write : Bytes × Nat → Bytes → Bytes × Nat
  | (buf, ofs), part => (buf.take ofs ++ part ++ buf.drop (ofs + part.length), ofs + part.length)

def build (onStack : Bool) (parts : List Bytes) : KeyBuffer :=
  if onStack then
    let filled := parts.foldl write (replicate stackSize 0, 0)
    stack filled.1 filled.2
  else heap parts.flatten

def forPrefix (data : Str) : KeyBuffer :=
  build (data.bytes.length + 1 < stackSize) [data.bytes, [0x3D]]

def forLabelValue (labelName value : Str) : KeyBuffer :=
  build (labelName.bytes.length + 1 + value.bytes.length < stackSize) [labelName.bytes, [0x3D], value.bytes, [0]]

/-- **Run lemma.**  What is in front of the position, and the parts. -/
theorem take_foldl_write {parts : List Bytes} {buf : Bytes} {ofs : Nat} (h : ofs + parts.flatten.length ≤ buf.length) :
    (parts.foldl write (buf, ofs)).1.take (parts.foldl write (buf, ofs)).2 = buf.take ofs ++ parts.flatten := by
  induction parts generalizing buf ofs with
  | nil => simp
  | cons part parts ih =>
    rw [flatten_cons, length_append] at h
    have hlen : (buf.take ofs ++ part).length = ofs + part.length := by
      rw [length_append, length_take]
      omega
    rw [foldl_cons, write, ih, take_left' hlen, flatten_cons, append_assoc]
    rw [length_append, hlen, length_drop]
    omega

theorem asBytes_build {onStack : Bool} {parts : List Bytes} (h : onStack → parts.flatten.length ≤ stackSize) :
    (build onStack parts).asBytes = parts.flatten := by
  unfold build
  split
  · rename_i hstack
    have hlen := h hstack
    exact take_foldl_write (by simpa using hlen)
  · rfl

theorem asBytes_forPrefix (data : Str) : (forPrefix data).asBytes = ValkeyTimeSeries.forPrefix data := by
  rw [forPrefix, asBytes_build]
  · simp [ValkeyTimeSeries.forPrefix, IndexKey.equals]
  · simp
    omega

theorem asBytes_forLabelValue (labelName value : Str) :
    (forLabelValue labelName value).asBytes = (IndexKey.forLabelValue labelName value).bytes := by
  rw [forLabelValue, asBytes_build, IndexKey.bytes, IndexKey.bytes_forLabelValue]
  · simp
  · simp
    omega

end KeyBuffer

/-- A label name and a value that can be told apart in a key. -/
structure KeyParts where
  name : Str
  value : Str
  name_free : 0x3D ∉ name.bytes ∧ 0 ∉ name.bytes
  value_free : 0 ∉ value.bytes

namespace KeyParts

variable {p q : KeyParts}

def key (p : KeyParts) : IndexKey := .forLabelValue p.name p.value

theorem split_key (p : KeyParts) : p.key.split = some (p.name, p.value) := by
  rw [IndexKey.split, key, IndexKey.bytes_forLabelValue, span_cut p.name_free.1]
  simp only [Str.fromUtf8Lossy_bytes]

theorem eq_of_key (h : p.key = q.key) : p = q := by
  have hsplit := congrArg IndexKey.split h
  rw [split_key, split_key] at hsplit
  obtain ⟨hname, hvalue⟩ := Prod.mk.inj (Option.some.inj hsplit)
  cases p
  cases q
  cases hname
  cases hvalue
  rfl

theorem zero_not_mem_key (p : KeyParts) : 0 ∉ p.key.text.bytes := by
  rw [key, IndexKey.bytes_forLabelValue]
  simpa using ⟨p.name_free.2, p.value_free⟩

/-- **Index keys.**  A key tells its parts, is built alike by every route and starts no other key; the keys that start
with what is built for a name are those of that name. -/
theorem keys_unambiguous (p q : KeyParts) :
    (p.key = q.key → p = q) ∧ p.key.split = some (p.name, p.value)
      ∧ (KeyBuffer.forLabelValue p.name p.value).asBytes = p.key.bytes
      ∧ (p.key.bytes <+: q.key.bytes → p = q)
      ∧ ((KeyBuffer.forPrefix p.name).asBytes <+: q.key.bytes ↔ q.name = p.name) := by
  refine ⟨eq_of_key, p.split_key, KeyBuffer.asBytes_forLabelValue _ _, ?_, ?_, fun hname => ?_⟩
  · rintro ⟨rest, hrest⟩
    rw [IndexKey.bytes, IndexKey.bytes, append_assoc, singleton_append] at hrest
    have htext := Str.ext_bytes (eq_of_cut p.zero_not_mem_key q.zero_not_mem_key hrest)
    exact eq_of_key (congrArg IndexKey.mk htext)
  · rintro ⟨rest, hrest⟩
    rw [KeyBuffer.asBytes_forPrefix, forPrefix, IndexKey.equals, append_assoc, singleton_append, IndexKey.bytes, key,
      IndexKey.bytes_forLabelValue, append_assoc, cons_append] at hrest
    exact (Str.ext_bytes (eq_of_cut p.name_free.1 q.name_free.1 hrest)).symm
  · rw [KeyBuffer.asBytes_forPrefix, forPrefix, IndexKey.equals, IndexKey.bytes, key, IndexKey.bytes_forLabelValue,
      hname]
    exact ⟨q.value.bytes ++ [0], by simp⟩

/-- The key `a=1` does not start the key `a=12`. -/
theorem keys_unambiguous_twelve : ∃ p q : KeyParts, p.value.bytes <+: q.value.bytes ∧
    ¬ p.key.bytes <+: q.key.bytes := by
  refine ⟨⟨⟨[0x61], by decide⟩, ⟨[0x31], by decide⟩, by decide, by decide⟩,
    ⟨⟨[0x61], by decide⟩, ⟨[0x31, 0x32], by decide⟩, by decide, by decide⟩, by decide, fun h => ?_⟩
  have hvalue := congrArg KeyParts.value ((keys_unambiguous _ _).2.2.2.1 h)
  exact absurd hvalue (by decide)

end KeyParts

end ValkeyTimeSeries
