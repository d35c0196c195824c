import Mathlib.Logic.ExistsUnique
import PdfFilters.Deflate.Engine
import PdfFilters.Proofs.Chunking

/-!
# Data in runs can be read in one way

Any bytes are whole runs with something behind them: nothing, the end mark and whatever follows it, a
literal run that is cut short, or the length of a run of copies without its byte (`Run.Ending`). They
are so in one way only (`Run.existsUnique_reading`), because a length byte tells how many bytes belong
to it.

The filter puts out what the whole runs stand for, and the bytes that are there of a literal run. It
stands before a length byte again behind each whole run (`Run.scan_code`), so this follows by induction
on the runs, and no data are turned down (`Filter.run_decode_reading`).
-/

namespace PdfFilters

namespace Run

/-! ## Readings -/

/-- What comes behind whole runs. -/
inductive Ending where
  /-- Nothing. -/
  | nothing
  /-- The end mark, and bytes that do not matter. -/
  | mark (ignored : List UInt8)
  /-- A literal run of so many bytes, of which only these are there. -/
  | cutLiteral (count : Nat) (bytes : List UInt8)
  /-- A run of so many copies, without its byte. -/
  | cutCopies (count : Nat)

namespace Ending

/-- Whether the run that is cut short would fit behind its length byte, and something is missing. -/
def Fits : Ending → Prop
  | .nothing | .mark _ => True
  | .cutLiteral count bytes => bytes.length < count ∧ count ≤ 128
  | .cutCopies count => 2 ≤ count ∧ count ≤ 128

/-- The bytes that are there of it. -/
def content : Ending → List UInt8
  | .nothing | .mark _ | .cutCopies _ => []
  | .cutLiteral _ bytes => bytes

/-- The encoded form. -/
def code : Ending → List UInt8
  | .nothing => []
  | .mark ignored => 128 :: ignored
  | .cutLiteral count bytes => UInt8.ofNat (count - 1) :: bytes
  | .cutCopies count => [UInt8.ofNat (257 - count)]

end Ending

/-- Whole runs, and what comes behind them. -/
structure Reading where
  runs : List Run
  ending : Ending

namespace Reading

/-- Whether all of it fits behind its length bytes. -/
def Fits (reading : Reading) : Prop := (∀ run ∈ reading.runs, run.Fits) ∧ reading.ending.Fits

/-- The bytes that the whole runs stand for, and those that are there of the last one. -/
def content (reading : Reading) : List UInt8 :=
  reading.runs.flatMap Run.content ++ reading.ending.content

/-- The encoded form: that of one run after another, and that of the ending. -/
def code (reading : Reading) : List UInt8 :=
  reading.runs.flatMap Run.code ++ reading.ending.code

/-- The reading with one more run before it. -/
def behind (reading : Reading) (run : Run) : Reading := ⟨run :: reading.runs, reading.ending⟩

theorem code_behind (reading : Reading) (run : Run) :
    (reading.behind run).code = run.code ++ reading.code := by
  unfold code behind
  rw [List.flatMap_cons, List.append_assoc]

theorem Fits.behind {reading : Reading} (fits : reading.Fits) {run : Run} (run_fits : run.Fits) :
    (reading.behind run).Fits :=
  ⟨List.forall_mem_cons.mpr ⟨run_fits, fits.1⟩, fits.2⟩

end Reading

/-- Read any bytes, one length byte after another. -/
def readingOf : List UInt8 → Reading
  | [] => ⟨[], .nothing⟩
  | length :: rest =>
    if length.toNat = 128 then ⟨[], .mark rest⟩
    else if length.toNat < 128 then
      if rest.length < length.toNat + 1 then ⟨[], .cutLiteral (length.toNat + 1) rest⟩
      else (readingOf (rest.drop (length.toNat + 1))).behind (.literal (rest.take (length.toNat + 1)))
    else
      match rest with
      | [] => ⟨[], .cutCopies (257 - length.toNat)⟩
      | byte :: rest => (readingOf rest).behind (.copies (257 - length.toNat) byte)
  termination_by data => data.length
  decreasing_by
    · simp only [List.length_drop, List.length_cons]
      omega
    · simp only [List.length_cons]
      omega

theorem readingOf_cons (length : UInt8) (rest : List UInt8) :
    readingOf (length :: rest)
      = if length.toNat = 128 then ⟨[], .mark rest⟩
        else if length.toNat < 128 then
          if rest.length < length.toNat + 1 then ⟨[], .cutLiteral (length.toNat + 1) rest⟩
          else
            (readingOf (rest.drop (length.toNat + 1))).behind
              (.literal (rest.take (length.toNat + 1)))
        else
          match rest with
          | [] => ⟨[], .cutCopies (257 - length.toNat)⟩
          | byte :: rest => (readingOf rest).behind (.copies (257 - length.toNat) byte) := by
  rw [readingOf.eq_def]

/-! ## Length bytes -/

section Length

variable {count : Nat}

theorem toNat_literalLength (few : count ≤ 128) : (UInt8.ofNat (count - 1)).toNat = count - 1 := by
  rw [UInt8.toNat_ofNat']
  exact Nat.mod_eq_of_lt (by omega)

theorem toNat_copiesLength (several : 2 ≤ count) :
    (UInt8.ofNat (257 - count)).toNat = 257 - count := by
  rw [UInt8.toNat_ofNat']
  exact Nat.mod_eq_of_lt (by omega)

theorem afterLength_literal (some : 1 ≤ count) (few : count ≤ 128) :
    RunLength.afterLength (UInt8.ofNat (count - 1)) = .literal count := by
  have length := toNat_literalLength few
  have notMark : UInt8.ofNat (count - 1) ≠ RunLength.endOfData := by
    intro mark
    rw [mark] at length
    have : RunLength.endOfData.toNat = 128 := rfl
    omega
  have below : UInt8.ofNat (count - 1) < RunLength.endOfData := by
    show (UInt8.ofNat (count - 1)).toNat < 128
    omega
  rw [RunLength.afterLength, if_neg notMark, if_pos below, length, Nat.sub_add_cancel some]

theorem afterLength_copies (several : 2 ≤ count) (few : count ≤ 128) :
    RunLength.afterLength (UInt8.ofNat (257 - count)) = .copies count := by
  have length := toNat_copiesLength several
  have notMark : UInt8.ofNat (257 - count) ≠ RunLength.endOfData := by
    intro mark
    rw [mark] at length
    have : RunLength.endOfData.toNat = 128 := rfl
    omega
  have above : ¬ UInt8.ofNat (257 - count) < RunLength.endOfData := by
    show ¬ (UInt8.ofNat (257 - count)).toNat < 128
    omega
  rw [RunLength.afterLength, if_neg notMark, if_neg above, length]
  congr 1
  omega

/-- A length byte behind the end mark is that of a run of copies. -/
theorem copiesLength_eq {length : UInt8} (notMark : ¬ length.toNat = 128)
    (above : ¬ length.toNat < 128) :
    (2 ≤ 257 - length.toNat ∧ 257 - length.toNat ≤ 128)
      ∧ UInt8.ofNat (257 - (257 - length.toNat)) = length := by
  have small := length.toNat_lt
  have back : 257 - (257 - length.toNat) = length.toNat := by omega
  rw [back, UInt8.ofNat_toNat]
  exact ⟨by omega, rfl⟩

end Length

/-! ## One reading -/

section Reading

variable (rest : List UInt8)

/-- Behind the length byte of a literal run. -/
theorem readingOf_literalLength {count : Nat} (some : 1 ≤ count) (few : count ≤ 128) :
    readingOf (UInt8.ofNat (count - 1) :: rest)
      = if rest.length < count then ⟨[], .cutLiteral count rest⟩
        else (readingOf (rest.drop count)).behind (.literal (rest.take count)) := by
  have notMark : ¬ count - 1 = 128 := by omega
  have below : count - 1 < 128 := by omega
  rw [readingOf_cons, toNat_literalLength few, if_neg notMark, if_pos below, Nat.sub_add_cancel some]

/-- Behind the length byte of a run of copies. -/
theorem readingOf_copiesLength {count : Nat} (several : 2 ≤ count) (few : count ≤ 128) :
    readingOf (UInt8.ofNat (257 - count) :: rest)
      = match rest with
        | [] => ⟨[], .cutCopies count⟩
        | byte :: rest => (readingOf rest).behind (.copies count byte) := by
  have notMark : ¬ 257 - count = 128 := by omega
  have above : ¬ 257 - count < 128 := by omega
  have count_eq : 257 - (257 - count) = count := by omega
  rw [readingOf_cons, toNat_copiesLength several, if_neg notMark, if_neg above, count_eq]

theorem readingOf_append {run : Run} (fits : run.Fits) :
    readingOf (run.code ++ rest) = (readingOf rest).behind run := by
  cases run with
  | literal bytes =>
    obtain ⟨some, few⟩ := fits
    have whole : ¬ (bytes ++ rest).length < bytes.length := by
      rw [List.length_append]
      omega
    rw [code, List.cons_append, readingOf_literalLength _ some few, if_neg whole, List.take_left,
      List.drop_left]
  | copies count byte =>
    obtain ⟨several, few⟩ := fits
    rw [code, List.cons_append, List.singleton_append, readingOf_copiesLength _ several few]

theorem readingOf_ending {ending : Ending} (fits : ending.Fits) :
    readingOf ending.code = ⟨[], ending⟩ := by
  cases ending with
  | nothing => rw [Ending.code, readingOf]
  | mark ignored =>
    rw [Ending.code, readingOf_cons]
    exact if_pos rfl
  | cutLiteral count bytes =>
    obtain ⟨missing, few⟩ := fits
    rw [Ending.code, readingOf_literalLength _ (by omega) few, if_pos missing]
  | cutCopies count =>
    obtain ⟨several, few⟩ := fits
    rw [Ending.code, readingOf_copiesLength _ several few]

/-- What was encoded is read. -/
theorem readingOf_code {reading : Reading} (fits : reading.Fits) :
    readingOf reading.code = reading := by
  obtain ⟨runs, ending⟩ := reading
  obtain ⟨runs_fit, ending_fits⟩ := fits
  induction runs with
  | nil => exact readingOf_ending ending_fits
  | cons run runs ih =>
    obtain ⟨run_fits, others_fit⟩ := List.forall_mem_cons.mp runs_fit
    have code_eq : (Reading.mk (run :: runs) ending).code
        = run.code ++ (Reading.mk runs ending).code :=
      (Reading.mk runs ending).code_behind run
    rw [code_eq, readingOf_append _ run_fits, ih others_fit ending_fits]
    rfl

/-- Any bytes are the encoded form of what is read in them. -/
theorem code_readingOf (data : List UInt8) : (readingOf data).Fits ∧ (readingOf data).code = data := by
  fun_induction readingOf data with
  | case1 => exact ⟨⟨List.forall_mem_nil _, trivial⟩, rfl⟩
  | case2 length rest mark =>
    have length_eq : length = 128 := UInt8.toNat_inj.mp mark
    refine ⟨⟨List.forall_mem_nil _, trivial⟩, ?_⟩
    rw [length_eq]
    rfl
  | case3 length rest notMark below missing =>
    refine ⟨⟨List.forall_mem_nil _, missing, below⟩, ?_⟩
    show UInt8.ofNat (length.toNat + 1 - 1) :: rest = length :: rest
    rw [Nat.add_sub_cancel, UInt8.ofNat_toNat]
  | case4 length rest notMark below whole ih =>
    obtain ⟨fits, code_eq⟩ := ih
    have size : (rest.take (length.toNat + 1)).length = length.toNat + 1 := by
      rw [List.length_take]
      omega
    refine ⟨fits.behind ?_, ?_⟩
    · show 1 ≤ (rest.take (length.toNat + 1)).length ∧ (rest.take (length.toNat + 1)).length ≤ 128
      omega
    · rw [Reading.code_behind, code_eq, code, size, Nat.add_sub_cancel, UInt8.ofNat_toNat,
        List.cons_append, List.take_append_drop]
  | case5 length notMark above =>
    obtain ⟨bounds, length_eq⟩ := copiesLength_eq notMark above
    refine ⟨⟨List.forall_mem_nil _, bounds⟩, ?_⟩
    show [UInt8.ofNat (257 - (257 - length.toNat))] = [length]
    rw [length_eq]
  | case6 length notMark above byte rest ih =>
    obtain ⟨fits, code_eq⟩ := ih
    obtain ⟨bounds, length_eq⟩ := copiesLength_eq notMark above
    refine ⟨fits.behind bounds, ?_⟩
    rw [Reading.code_behind, code_eq, code, length_eq]
    rfl

/-- Any bytes can be read in exactly one way. -/
theorem existsUnique_reading (data : List UInt8) :
    ∃! reading : Reading, reading.Fits ∧ reading.code = data := by
  refine ⟨readingOf data, code_readingOf data, ?_⟩
  rintro other ⟨fits, rfl⟩
  exact (readingOf_code fits).symm

end Reading

/-! ## The filter -/

open RunLength (step)

section Scan

variable (output : Array UInt8)

/-- Inside a literal run, bytes stand for themselves. -/
theorem scan_literal {count : Nat} (some : 1 ≤ count) {bytes : List UInt8}
    (few : bytes.length ≤ count) :
    scan step (.literal count) output bytes
      = (if bytes.length = count then .length else .literal (count - bytes.length),
        output ++ bytes, .ok ()) := by
  induction bytes generalizing count output with
  | nil =>
    have missing : ¬ ([] : List UInt8).length = count := by
      rw [List.length_nil]
      omega
    rw [scan, if_neg missing, Array.appendList_nil]
    rfl
  | cons byte rest ih =>
    rw [List.length_cons] at few ⊢
    by_cases last : count ≤ 1
    · have none : rest = [] := List.length_eq_zero_iff.mp (by omega)
      have taken : step (.literal count) byte = (.length, .ok [byte]) := by
        rw [step, if_pos last]
      subst none
      rw [scan_cons_of_ok taken, scan, if_pos (by rw [List.length_nil]; omega)]
    · have taken : step (.literal count) byte = (.literal (count - 1), .ok [byte]) := by
        rw [step, if_neg last]
      rw [scan_cons_of_ok taken, ih _ (by omega) (by omega), Array.appendList_cons,
        Array.appendList_cons, Array.appendList_nil, Nat.sub_sub, Nat.add_comm 1]
      by_cases whole : rest.length = count - 1
      · rw [if_pos whole, if_pos (by omega)]
      · rw [if_neg whole, if_neg (by omega)]

/-- A whole run is put out, and then there is a length byte again. -/
theorem scan_code {run : Run} (fits : run.Fits) :
    scan step .length output run.code = (.length, output ++ run.content, .ok ()) := by
  cases run with
  | literal bytes =>
    obtain ⟨some, few⟩ := fits
    have taken : step .length (UInt8.ofNat (bytes.length - 1)) = (.literal bytes.length, .ok []) := by
      rw [step, afterLength_literal some few]
    rw [code, scan_cons_of_ok taken, Array.appendList_nil, scan_literal output some (Nat.le_refl _),
      if_pos rfl, content]
  | copies count byte =>
    obtain ⟨several, few⟩ := fits
    have taken : step .length (UInt8.ofNat (257 - count)) = (.copies count, .ok []) := by
      rw [step, afterLength_copies several few]
    rw [code, scan_cons_of_ok taken, Array.appendList_nil]
    rfl

theorem scan_runs {runs : List Run} (fit : ∀ run ∈ runs, run.Fits) :
    scan step .length output (runs.flatMap code)
      = (.length, output ++ runs.flatMap content, .ok ()) := by
  induction runs generalizing output with
  | nil =>
    rw [List.flatMap_nil, List.flatMap_nil, Array.appendList_nil]
    rfl
  | cons run runs ih =>
    obtain ⟨first, others⟩ := List.forall_mem_cons.mp fit
    rw [List.flatMap_cons, List.flatMap_cons, scan_append, scan_code output first]
    dsimp only
    rw [ih _ others, Sink.append_append]

theorem exists_scan_ending {ending : Ending} (fits : ending.Fits) :
    ∃ reader, scan step .length output ending.code = (reader, output ++ ending.content, .ok ()) := by
  cases ending with
  | nothing =>
    refine ⟨.length, ?_⟩
    rw [Ending.content, Array.appendList_nil]
    rfl
  | mark ignored =>
    have taken : step .length 128 = (.done, .ok []) := rfl
    refine ⟨.done, ?_⟩
    rw [Ending.code, Ending.content, scan_cons_of_ok taken, Array.appendList_nil,
      scan_ignored (fun _ => rfl)]
  | cutLiteral count bytes =>
    obtain ⟨missing, few⟩ := fits
    have some : 1 ≤ count := by omega
    have taken : step .length (UInt8.ofNat (count - 1)) = (.literal count, .ok []) := by
      rw [step, afterLength_literal some few]
    rw [Ending.code, Ending.content, scan_cons_of_ok taken, Array.appendList_nil,
      scan_literal output some (Nat.le_of_lt missing)]
    exact ⟨_, rfl⟩
  | cutCopies count =>
    obtain ⟨several, few⟩ := fits
    have taken : step .length (UInt8.ofNat (257 - count)) = (.copies count, .ok []) := by
      rw [step, afterLength_copies several few]
    refine ⟨.copies count, ?_⟩
    rw [Ending.code, Ending.content, scan_cons_of_ok taken, Array.appendList_nil]
    rfl

end Scan

/-- What the filter emits for all of a reading. -/
theorem exists_scanned_reading {reading : Reading} (fits : reading.Fits) :
    ∃ reader, scanned step .idle reading.code = ⟨reading.content, .ok reader⟩ := by
  obtain ⟨runs, ending⟩ := reading
  obtain ⟨runs_fit, ending_fits⟩ := fits
  obtain ⟨reader, read⟩ :=
    exists_scan_ending ((#[] : Array UInt8) ++ runs.flatMap content) ending_fits
  refine ⟨reader, ?_⟩
  have all : ((#[] : Array UInt8) ++ runs.flatMap content ++ ending.content).toList
      = runs.flatMap content ++ ending.content := by simp
  rw [scanned, Reading.code, RunLength.idle, scan_append, scan_runs #[] runs_fit]
  dsimp only
  rw [read]
  dsimp only
  rw [all, Reading.content]

end Run

namespace Filter

/-- Any bytes can be read in exactly one way as whole runs and an ending, and the filter for runs decodes
all of them, to the bytes of the runs and what is there of a literal run that is cut short. It makes no
difference how the bytes are cut into blocks. -/
theorem run_decode_reading [Host] :
    (∀ data, ∃! reading : Run.Reading, reading.Fits ∧ reading.code = data)
      ∧ ∀ reading : Run.Reading, reading.Fits → ∀ state parameters,
        ((runLength state).run .decode parameters reading.code).2 = .ok reading.content
          ∧ ∀ blocks, blocks.flatten = reading.code → ∀ accepted failure,
            (runLength state).runBlocks .decode parameters blocks (.endless accepted failure)
              = ⟨runLength .idle, .endless (accepted ++ reading.content) failure, .ok ()⟩ := by
  refine ⟨Run.existsUnique_reading, ?_⟩
  intro reading fits state parameters
  obtain ⟨reader, read⟩ := Run.exists_scanned_reading fits
  have ran : ((runLength state).run .decode parameters reading.code).2 = .ok reading.content := by
    have ran : ((runLength state).run .decode parameters reading.code).2
        = .ok (reading.content ++ []) :=
      Session.run_of_begin .runReading trivial rfl read rfl
    rwa [List.append_nil] at ran
  refine ⟨ran, ?_⟩
  intro blocks cut accepted failure
  rw [← cut] at ran
  exact runBlocks_of_run ran trivial accepted failure

/-- A literal run of which the bytes look like an end mark, the shortest run of copies, and a literal run
that is cut short, in blocks of two bytes. -/
theorem run_decode_reading_cut :
    let reading : Run.Reading := ⟨[.literal [128, 128], .copies 2 7], .cutLiteral 3 [65]⟩
    reading.Fits ∧ [[1, 128], [128, 255], [7, 2], [65]].flatten = reading.code
      ∧ ((runLength .idle).run .decode none reading.code).2 = .ok [128, 128, 7, 7, 65]
      ∧ (runLength .idle).runBlocks .decode none [[1, 128], [128, 255], [7, 2], [65]]
          (.endless #[] .stalled)
        = ⟨runLength .idle,
          .endless ((#[] : Array UInt8) ++ ([128, 128, 7, 7, 65] : List UInt8)) .stalled, .ok ()⟩ := by
  intro reading
  have fits : reading.Fits := by
    refine ⟨?_, by decide, by decide⟩
    intro run listed
    simp only [reading, List.mem_cons, List.not_mem_nil, or_false] at listed
    rcases listed with rfl | rfl <;> exact ⟨by decide, by decide⟩
  have cut : [[1, 128], [128, 255], [7, 2], [65]].flatten = reading.code := rfl
  obtain ⟨ran, blocks⟩ := run_decode_reading.2 reading fits .idle none
  exact ⟨fits, cut, ran, blocks _ cut #[] .stalled⟩

end Filter

end PdfFilters
