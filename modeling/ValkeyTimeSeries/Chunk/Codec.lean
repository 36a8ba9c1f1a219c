/-
Chunk/Codec.lean

What a compressed chunk needs of its encoder.

Design.  The Gorilla and the Chimp chunk are the same code over two encoders. `SampleCodec` is the encoder's
interface, and `LawfulCodec` says what a chunk may rely on: there is one encoder for every list of samples in
time order (`Encodes`), appending moves from one to the next, and decoding gives the list back.
-/
import ValkeyTimeSeries.Common.Sample
import ValkeyTimeSeries.Library.SortedList

namespace ValkeyTimeSeries

open List

class SampleCodec (E : Type) where
  new : E
  addSample : E → Sample → Except IoError E
  /-- The items of the encoder's iterator. -/
  decode : E → Decoded
  numSamples : E → Nat
  firstTs : E → Int
  lastTs : E → Int
  lastValue : E → F64
  buf : E → List (BitVec 8)
  serialize : E → List (BitVec 8)
  deserialize : List (BitVec 8) → Except TsdbError E

open SampleCodec

/-- The samples a chunk can hold: timestamps the commands accept, in order. -/
structure SampleRun (l : List Sample) : Prop where
  times : ValidTimes l
  increasing : Increasing l

theorem SampleRun.nil : SampleRun [] := ⟨by simp [ValidTimes], List.Pairwise.nil⟩

variable {l : List Sample}

theorem SampleRun.sublist {l' : List Sample} (h : SampleRun l) (hsub : l'.Sublist l) : SampleRun l' :=
  ⟨fun s hs => h.times s (hsub.subset hs), h.increasing.sublist hsub⟩

theorem sampleRun_append {l₁ l₂ : List Sample} : SampleRun (l₁ ++ l₂) ↔
    SampleRun l₁ ∧ SampleRun l₂ ∧ ∀ a ∈ l₁, ∀ b ∈ l₂, a.timestamp < b.timestamp := by
  constructor
  · intro h
    exact ⟨h.sublist (sublist_append_left ..), h.sublist (sublist_append_right ..),
      (pairwise_append.mp h.increasing).2.2⟩
  · rintro ⟨h₁, h₂, hlt⟩
    refine ⟨fun s hs => ?_, pairwise_append.mpr ⟨h₁.increasing, h₂.increasing, hlt⟩⟩
    rcases mem_append.mp hs with hs | hs
    · exact h₁.times s hs
    · exact h₂.times s hs

/-! ### Ranges -/

/-- The samples from `startTs` to `endTs`. -/
def samplesIn (startTs endTs : Int) (l : List Sample) : List Sample :=
  l.filter fun s => startTs ≤ s.timestamp ∧ s.timestamp ≤ endTs

/-- The samples before `startTs` or after `endTs`. -/
def samplesOut (startTs endTs : Int) (l : List Sample) : List Sample :=
  l.filter fun s => !decide (startTs ≤ s.timestamp ∧ s.timestamp ≤ endTs)

theorem samplesIn_eq_self {startTs endTs : Int}
    (h : ∀ s ∈ l, startTs ≤ s.timestamp ∧ s.timestamp ≤ endTs) : samplesIn startTs endTs l = l :=
  filter_eq_self.mpr fun s hs => decide_eq_true (h s hs)

theorem samplesOut_eq_self {startTs endTs : Int}
    (h : ∀ s ∈ l, ¬ (startTs ≤ s.timestamp ∧ s.timestamp ≤ endTs)) : samplesOut startTs endTs l = l :=
  filter_eq_self.mpr fun s hs => by rw [decide_eq_false (h s hs)]; rfl

variable (startTs endTs : Int)

@[simp] theorem samplesIn_append (l₁ l₂ : List Sample) :
    samplesIn startTs endTs (l₁ ++ l₂) = samplesIn startTs endTs l₁ ++ samplesIn startTs endTs l₂ :=
  filter_append ..

@[simp] theorem samplesOut_append (l₁ l₂ : List Sample) : samplesOut startTs endTs (l₁ ++ l₂)
    = samplesOut startTs endTs l₁ ++ samplesOut startTs endTs l₂ :=
  filter_append ..

theorem samplesIn_eq_nil {startTs endTs : Int}
    (h : ∀ s ∈ l, s.timestamp < startTs ∨ endTs < s.timestamp) : samplesIn startTs endTs l = [] :=
  filter_eq_nil_iff.mpr fun s hs hin => by
    have := h s hs
    rw [decide_eq_true_eq] at hin
    omega

theorem length_samplesIn_add (l : List Sample) :
    (samplesIn startTs endTs l).length + (samplesOut startTs endTs l).length = l.length :=
  (length_eq_length_filter_add _).symm

theorem samplesOut_eq_filter (h : ValidTimes l) (k : Int) :
    samplesOut 0 (k - 1) l = l.filter fun x => k ≤ x.timestamp := by
  refine filter_congr fun x hx => ?_
  have := (h x hx).1
  rw [← decide_not, decide_eq_decide]
  omega

theorem Increasing.cut (h : Increasing l) (startTs endTs : Int) :
    ∃ l₁ l₂ l₃, l = l₁ ++ (l₂ ++ l₃) ∧ (∀ s ∈ l₁, s.timestamp < startTs)
    ∧ (∀ s ∈ l₂, startTs ≤ s.timestamp ∧ s.timestamp ≤ endTs) ∧ ∀ s ∈ l₃, endTs < s.timestamp := by
  have hsorted : SortedList.Sorted Sample.timestamp l := h
  have hupper := hsorted.sublist (filter_sublist (p := fun s => decide (startTs ≤ s.timestamp)))
  refine ⟨_, _, _, (hsorted.split startTs).trans (congrArg _ (SortedList.Sorted.split hupper (endTs + 1))), ?_, ?_, ?_⟩
  · simp
  · simp only [mem_filter, decide_eq_true_eq]
    omega
  · simp only [mem_filter, decide_eq_true_eq]
    omega

section Cut

variable {l₁ l₂ l₃ : List Sample} {startTs endTs : Int} (h₁ : ∀ s ∈ l₁, s.timestamp < startTs)
  (h₂ : ∀ s ∈ l₂, startTs ≤ s.timestamp ∧ s.timestamp ≤ endTs) (h₃ : ∀ s ∈ l₃, endTs < s.timestamp)
include h₁ h₂ h₃

theorem samplesIn_cut : samplesIn startTs endTs (l₁ ++ (l₂ ++ l₃)) = l₂ := by
  have hnil₁ : samplesIn startTs endTs l₁ = [] := samplesIn_eq_nil fun s hs => .inl (h₁ s hs)
  have hnil₃ : samplesIn startTs endTs l₃ = [] := samplesIn_eq_nil fun s hs => .inr (h₃ s hs)
  rw [samplesIn_append, samplesIn_append, hnil₁, hnil₃, samplesIn_eq_self h₂, nil_append, append_nil]

theorem samplesOut_cut : samplesOut startTs endTs (l₁ ++ (l₂ ++ l₃)) = l₁ ++ l₃ := by
  have hnil₂ : samplesOut startTs endTs l₂ = [] :=
    filter_eq_nil_iff.mpr fun s hs hout => by
      rw [decide_eq_true (h₂ s hs)] at hout
      cases hout
  rw [samplesOut_append, samplesOut_append, hnil₂, samplesOut_eq_self, samplesOut_eq_self, nil_append]
  · intro s hs hin
    have := h₃ s hs
    omega
  · intro s hs hin
    have := h₁ s hs
    omega

end Cut

theorem dropWhile_takeWhile_eq_samplesIn (h : Increasing l) (startTs endTs : Int) :
    (l.takeWhile fun s => s.timestamp ≤ endTs).dropWhile (fun s => s.timestamp < startTs)
    = samplesIn startTs endTs l := by
  have hend : l.Pairwise fun a b => decide (b.timestamp ≤ endTs) = true → decide (a.timestamp ≤ endTs) = true := by
    refine h.imp fun {a b} hab hb => ?_
    rw [decide_eq_true_eq] at hb ⊢
    omega
  rw [SortedList.takeWhile_eq_filter hend, SortedList.dropWhile_eq_filter, filter_filter]
  · refine filter_congr fun s _ => ?_
    rw [← decide_not, ← Bool.decide_and, decide_eq_decide]
    omega
  · refine (List.Pairwise.sublist filter_sublist h).imp fun {a b} hab hb => ?_
    rw [decide_eq_true_eq] at hb ⊢
    omega

/-! ### Codecs -/

/-- The timestamp of the first sample, `0` if there is none. -/
def headTs (l : List Sample) : Int := (l.head?.map (·.timestamp)).getD 0

theorem SampleRun.headTs_le (h : SampleRun l) {s : Sample} (hs : s ∈ l) : headTs l ≤ s.timestamp := by
  cases l with
  | nil => exact absurd hs (not_mem_nil)
  | cons a l =>
    rcases mem_cons.mp hs with rfl | hs
    · exact le_refl _
    · exact ((pairwise_cons.mp h.increasing).1 s hs).le

theorem SampleRun.le_last {last : Sample} (h : SampleRun (l ++ [last])) {s : Sample}
    (hs : s ∈ l ++ [last]) : s.timestamp ≤ last.timestamp := by
  rcases mem_append.mp hs with hs | hs
  · exact ((sampleRun_append.mp h).2.2 s hs last mem_cons_self).le
  · rw [mem_singleton.mp hs]

class LawfulCodec (E : Type) extends SampleCodec E where
  /-- The encoder is the one that holds this list. -/
  Encodes : E → List Sample → Prop
  run_of_encodes : ∀ {e l}, Encodes e l → SampleRun l
  encodes_new : Encodes new []
  encodes_addSample : ∀ {e l s}, Encodes e l → SampleRun (l ++ [s]) →
    ∃ e', addSample e s = .ok e' ∧ Encodes e' (l ++ [s])
  encodes_unique : ∀ {e e' l}, Encodes e l → Encodes e' l → e = e'
  decode_eq : ∀ {e l}, Encodes e l → decode e = (l, none)
  numSamples_eq : ∀ {e l}, Encodes e l → numSamples e = l.length
  firstTs_eq : ∀ {e l}, Encodes e l → firstTs e = headTs l
  last_eq : ∀ {e l s}, Encodes e (l ++ [s]) → lastTs e = s.timestamp ∧ lastValue e = s.value
  length_buf_le : ∀ {e l}, Encodes e l → (buf e).length ≤ 21 * l.length
  /-- A `Vec` of samples, sixteen bytes each, has fewer than `2 ^ 59` of them. -/
  deserialize_serialize : ∀ {e l}, Encodes e l → l.length < 2 ^ 59 →
    deserialize (serialize e) = .ok e

end ValkeyTimeSeries
