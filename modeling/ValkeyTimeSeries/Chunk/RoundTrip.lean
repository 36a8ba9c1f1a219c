/-
Chunk/RoundTrip.lean

The two codecs end to end: what is appended is what is read, and a chunk that is saved, loaded and appended to
is the chunk that never stopped.

A chunk in memory has fewer than `2 ^ 59` samples, sixteen bytes each.
-/
import ValkeyTimeSeries.Chimp.Serialization
import ValkeyTimeSeries.Chunk.Compressed

namespace ValkeyTimeSeries

abbrev GorillaChunk := CompressedChunk GorillaEncoder

abbrev ChimpChunk := CompressedChunk ChimpCompressor

open CompressedChunk

/-- **Gorilla round trip.**  Every list of samples in time order is appended and
decoded bit for bit, and stopping after any part of it to save and load the
chunk gives the same chunk in the end. -/
theorem gorilla_round_trip (l₁ l₂ : List Sample) (htimes : ValidTimes (l₁ ++ l₂))
    (hinc : Increasing (l₁ ++ l₂)) (hlen : l₁.length < 2 ^ 59) (maxSize : Nat)
    (hmax : maxSize < 2 ^ 64) :
    ∃ whole part : GorillaChunk,
      (withMaxSize maxSize).addAll (l₁ ++ l₂) = .ok whole
        ∧ whole.encoder.decode = (l₁ ++ l₂, none)
        ∧ (withMaxSize maxSize).addAll l₁ = .ok part
        ∧ (deserialize part.serialize >>= fun loaded => loaded.addAll l₂) = .ok whole := by
  obtain ⟨whole, part, hw, hwhole, hp, -, hresume⟩ :=
    resume_spec (E := GorillaEncoder) l₁ l₂ ⟨htimes, hinc⟩ hlen hmax
  exact ⟨whole, part, hw, LawfulCodec.decode_eq hwhole, hp, hresume⟩

/-- The bounds of the time range, equal values, and a NaN with a payload. -/
theorem gorilla_round_trip_extremes :
    ∃ whole part : GorillaChunk,
      (withMaxSize 48).addAll
          ([⟨0, 0x3FF8000000000000⟩, ⟨1, 0x3FF8000000000000⟩] ++ [⟨i64Max, 0x7FF8000000000001⟩])
          = .ok whole
        ∧ whole.encoder.decode
          = ([⟨0, 0x3FF8000000000000⟩, ⟨1, 0x3FF8000000000000⟩] ++ [⟨i64Max, 0x7FF8000000000001⟩], none)
        ∧ (withMaxSize 48).addAll [⟨0, 0x3FF8000000000000⟩, ⟨1, 0x3FF8000000000000⟩] = .ok part
        ∧ (deserialize part.serialize >>= fun loaded => loaded.addAll [⟨i64Max, 0x7FF8000000000001⟩])
          = .ok whole :=
  gorilla_round_trip _ _ (by decide) (by decide) (by decide) 48 (by decide)

/-- **Chimp round trip.**  Every list of samples in time order is compressed and
decompressed bit for bit, whatever the decimal functions answer, and stopping
after any part of it to save and load the chunk gives the same chunk in the end. -/
theorem chimp_round_trip [DecimalHelpers] (l₁ l₂ : List Sample) (htimes : ValidTimes (l₁ ++ l₂))
    (hinc : Increasing (l₁ ++ l₂)) (hlen : l₁.length < 2 ^ 59) (maxSize : Nat)
    (hmax : maxSize < 2 ^ 64) :
    ∃ whole part : ChimpChunk,
      (withMaxSize maxSize).addAll (l₁ ++ l₂) = .ok whole
        ∧ whole.encoder.decode = (l₁ ++ l₂, none)
        ∧ ChimpDecompressor.collect whole.encoder.bytes whole.encoder.count = .ok (l₁ ++ l₂)
        ∧ (withMaxSize maxSize).addAll l₁ = .ok part
        ∧ (deserialize part.serialize >>= fun loaded => loaded.addAll l₂) = .ok whole := by
  obtain ⟨whole, part, hw, hwhole, hp, -, hresume⟩ :=
    resume_spec (E := ChimpCompressor) l₁ l₂ ⟨htimes, hinc⟩ hlen hmax
  exact ⟨whole, part, hw, LawfulCodec.decode_eq hwhole, hwhole.2.spec.2.2.2.1, hp, hresume⟩

/-- The decimal functions at `0.1` and `0.2`: one decimal digit, recovered from the power of two below it. -/
@[reducible] def oneTenth : DecimalHelpers where
  getAlphaAndBetaStar v _ :=
    if v = 0x3FB999999999999A then some (1, 0) else if v = 0x3FC999999999999A then some (1, 1) else none
  getFAlpha alpha := if alpha = 1 then 4 else 0
  recover _ betaStar :=
    if betaStar = 0 then .ok 0x3FB999999999999A else if betaStar = 1 then .ok 0x3FC999999999999A
    else .error (.invalidData "Invalid recovery alpha")
  betaStar_lt v last alpha betaStar h _ _ := by
    split_ifs at h
    · obtain ⟨rfl, rfl⟩ := Prod.mk.inj (Option.some.inj h)
      decide
    · obtain ⟨rfl, rfl⟩ := Prod.mk.inj (Option.some.inj h)
      decide

/-- Two erased values and a NaN, which is kept raw. -/
theorem chimp_round_trip_oneTenth :
    ∃ whole part : ChimpChunk,
      letI := oneTenth
      (withMaxSize 48).addAll
          ([⟨10, 0x3FB999999999999A⟩, ⟨20, 0x3FC999999999999A⟩] ++ [⟨i64Max, 0x7FF8000000000001⟩])
          = .ok whole
        ∧ whole.encoder.decode
          = ([⟨10, 0x3FB999999999999A⟩, ⟨20, 0x3FC999999999999A⟩] ++ [⟨i64Max, 0x7FF8000000000001⟩], none)
        ∧ ChimpDecompressor.collect whole.encoder.bytes whole.encoder.count
          = .ok ([⟨10, 0x3FB999999999999A⟩, ⟨20, 0x3FC999999999999A⟩] ++ [⟨i64Max, 0x7FF8000000000001⟩])
        ∧ (withMaxSize 48).addAll [⟨10, 0x3FB999999999999A⟩, ⟨20, 0x3FC999999999999A⟩] = .ok part
        ∧ (deserialize part.serialize >>= fun loaded => loaded.addAll [⟨i64Max, 0x7FF8000000000001⟩])
          = .ok whole :=
  letI := oneTenth
  chimp_round_trip _ _ (by decide) (by decide) (by decide) 48 (by decide)

end ValkeyTimeSeries
