import PdfFilters.Proofs.RoundTrip

/-!
# Compressed streams, block by block

The filter for compressed streams reads what it has written, whatever the level and the sizes of the
buffers on both sides, and however the data and the stream are cut into blocks. What comes behind the
stream is ignored, in the block where the stream ends and in those after it
(`Filter.runBlocks_flate`). The engines have to compress and to inflate one format.

The calls are made on the filter directly here. A guarded session makes the same ones, and aborts the
filter after a fault (`Session.pass_eq_runBlocks`).
-/

namespace PdfFilters

namespace Filter

/-- What the filter for compressed streams writes, at any level and through a buffer of any size that
there is memory for, it reads again through any such buffer. All calls succeed, however the data and
the stream are cut into blocks, and bytes behind the stream are ignored. The stream depends on how the data
were cut, and on nothing else but the level and the buffer of the writer. -/
theorem runBlocks_flate [Host] {format : List UInt8 → Inflation} (level level' : UInt8)
    (size size' : Nat) :
    let writer := (FlateConfig.withLevel {} level.toNat).withBufferSize size
    let reader := (FlateConfig.withLevel {} level'.toNat).withBufferSize size'
    reserve 0 writer.bufferSize = .ok () → Host.Compresses writer.level writer.bufferSize →
    Host.Restores format writer.level writer.bufferSize →
    reserve 0 reader.bufferSize = .ok () → Host.Inflates format reader.bufferSize →
    ∀ blocks : List (List UInt8), ∃ stream : List UInt8,
      (∀ session parameters accepted failure,
        (flate ⟨writer, session⟩).runBlocks .encode parameters blocks (.endless accepted failure)
          = ⟨flate (.idle writer), .endless (accepted ++ stream) failure, .ok ()⟩)
      ∧ ∀ pieces extra, pieces.flatten = stream ++ extra → ∀ session accepted failure,
        (flate ⟨reader, session⟩).runBlocks .decode none pieces (.endless accepted failure)
          = ⟨flate (.idle reader), .endless (accepted ++ blocks.flatten) failure, .ok ()⟩ := by
  intro writer reader room compresses restores room' inflates blocks
  obtain ⟨stream, compressed⟩ := compresses.exists_compressedTo blocks
  have known := restores.format_of_compressedTo compressed
  refine ⟨stream, ?_, ?_⟩
  · intro session parameters accepted failure
    refine runBlocks_of_output ?_ accepted failure
    rw [output_passed_encode_flate parameters writer session room, compressed]
  · intro pieces extra cut session accepted failure
    have cuts : (flate ⟨reader, session⟩).TakesCuts .decode := ⟨format, inflates⟩
    refine runBlocks_of_run ?_ cuts accepted failure
    rw [cut, run_decode_flate none ⟨reader, session⟩ room' rfl inflates,
      inflates.format_append_of_finished extra known, Inflation.output]

/-- The greatest level and a buffer asked for with no size on one side, and the fastest level and a
buffer of five bytes on the other. -/
theorem runBlocks_flate_sizes :
    let writer := (FlateConfig.withLevel {} (9 : UInt8).toNat).withBufferSize 0
    let reader := (FlateConfig.withLevel {} (1 : UInt8).toNat).withBufferSize 5
    (reserve 0 writer.bufferSize = .ok () ∧ Host.Compresses writer.level writer.bufferSize
        ∧ Host.Restores Inflate.inflation writer.level writer.bufferSize)
      ∧ (reserve 0 reader.bufferSize = .ok () ∧ Host.Inflates Inflate.inflation reader.bufferSize)
      ∧ ∃ stream : List UInt8, (∀ session parameters accepted failure,
          (flate ⟨writer, session⟩).runBlocks .encode parameters [[1, 2], [], [3]]
              (.endless accepted failure)
            = ⟨flate (.idle writer), .endless (accepted ++ stream) failure, .ok ()⟩)
        ∧ ∀ pieces extra, pieces.flatten = stream ++ extra → ∀ session accepted failure,
          (flate ⟨reader, session⟩).runBlocks .decode none pieces (.endless accepted failure)
            = ⟨flate (.idle reader), .endless (accepted ++ ([1, 2, 3] : List UInt8)) failure,
              .ok ()⟩ := by
  intro writer reader
  have compresses : Host.Compresses writer.level writer.bufferSize :=
    Host.compresses_builtIn (by decide) _
  have restores : Host.Restores Inflate.inflation writer.level writer.bufferSize :=
    Host.restores_builtIn _
  have inflates : Host.Inflates Inflate.inflation reader.bufferSize :=
    Host.inflates_builtIn (by decide)
  exact ⟨⟨rfl, compresses, restores⟩, ⟨rfl, inflates⟩,
    runBlocks_flate 9 1 0 5 rfl compresses restores rfl inflates [[1, 2], [], [3]]⟩

end Filter

end PdfFilters
