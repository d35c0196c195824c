import PdfFilters.Proofs.Cut
import PdfFilters.Scan

/-!
# Codecs that go byte by byte

What `scan` has put out already is only carried along, so a block emits the same wherever it stands
in the stream. A block with a fault in it emits nothing. Hence a scanned stream can be cut anywhere
(`cuttable_scanned`), but before a fault the cut shows in what was written.
-/

namespace PdfFilters

variable {σ : Type} {step : σ → UInt8 → σ × Except Fault (List UInt8)}

theorem scan_cons_of_ok {state next : σ} {byte : UInt8} {produced : List UInt8}
    (taken : step state byte = (next, .ok produced)) (output : Array UInt8) (rest : List UInt8) :
    scan step state output (byte :: rest) = scan step next (output ++ produced) rest := by
  rw [scan, taken]

theorem scan_cons_of_error {state next : σ} {byte : UInt8} {fault : Fault}
    (failed : step state byte = (next, .error fault)) (output : Array UInt8) (rest : List UInt8) :
    scan step state output (byte :: rest) = (next, output, .error fault) := by
  rw [scan, failed]

/-- A state that takes every byte without putting out anything stays where it is. -/
theorem scan_ignored {state : σ} (takes : ∀ byte, step state byte = (state, .ok []))
    (output : Array UInt8) (ignored : List UInt8) :
    scan step state output ignored = (state, output, .ok ()) := by
  induction ignored with
  | nil => rfl
  | cons byte rest ih => rw [scan_cons_of_ok (takes byte), Array.appendList_nil, ih]

/-- What is put out before a scan stands before what the scan puts out. -/
theorem scan_output (state : σ) (output : Array UInt8) (block : List UInt8) :
    scan step state output block
      = ((scan step state #[] block).1, output ++ (scan step state #[] block).2.1,
        (scan step state #[] block).2.2) := by
  induction block generalizing state output with
  | nil => simp [scan]
  | cons byte rest ih =>
    simp only [scan]
    split
    next next produced _ =>
      -- Both sides go on with output in front, so the hypothesis is used on each.
      rw [ih next (output ++ produced), ih next (#[] ++ produced)]
      simp only [Prod.mk.injEq, true_and, and_true]
      exact Array.ext' (by simp)
    next => simp

/-- The emission of a block that is read byte by byte. -/
def scanned (step : σ → UInt8 → σ × Except Fault (List UInt8)) (state : σ)
    (block : List UInt8) : Emission σ :=
  match scan step state #[] block with
  | (state, output, .ok ()) => ⟨output.toList, .ok state⟩
  | (_, _, .error fault) => .quiet (.error fault)

theorem emits_scanBlock (state : σ) (block : List UInt8) :
    Emits (fun sink => (scanBlock step state block sink).outcome) (scanned step state block) := by
  intro sink
  unfold scanBlock scanned
  rcases scan step state #[] block with ⟨next, output, fault | ended⟩
  · exact (sink.absorb_quiet _).symm
  · exact Reply.outcome_write next sink output.toList

/-- One block after another emits what both emit as one, unless there is a fault. -/
theorem scanned_append (state : σ) (first second : List UInt8) :
    Emission.Alike Eq False
      ((scanned step state first).andThen fun next => scanned step next second)
      (scanned step state (first ++ second)) := by
  simp only [scanned, scan_append]
  obtain ⟨next, output, answer⟩ := scan step state #[] first
  cases answer with
  | error fault => exact .error False.elim
  | ok _ =>
    simp only [Emission.andThen_ok]
    rw [scan_output next output second]
    obtain ⟨last, produced, answer⟩ := scan step next #[] second
    cases answer with
    -- Here the bytes do differ: the first block has been written, and the whole is refused.
    | error fault => exact .error False.elim
    | ok _ =>
      simp only [Array.toList_append]
      exact .ok rfl

/-- If the step finds no fault, the scan finds none. -/
theorem exists_scanned_of_total
    (total : ∀ state byte, ∃ next produced, step state byte = (next, .ok produced)) (state : σ)
    (block : List UInt8) : ∃ next, (scanned step state block).result = .ok next := by
  have fine (state : σ) (output : Array UInt8) (block : List UInt8) :
      (scan step state output block).2.2 = .ok () := by
    induction block generalizing state output with
    | nil => rfl
    | cons byte rest ih =>
      obtain ⟨next, produced, taken⟩ := total state byte
      rw [scan, taken]
      exact ih next _
  have answered := fine state #[] block
  rw [scanned]
  cases scanned : scan step state #[] block with
  | mk next rest =>
    obtain ⟨output, answer⟩ := rest
    rw [scanned] at answered
    cases answered
    exact ⟨next, rfl⟩

theorem cuttable_scanned (step : σ → UInt8 → σ × Except Fault (List UInt8)) :
    Cuttable (scanned step) (fun _ => True) Eq False where
  occurs_of_ok _ _ := trivial
  trans _ _ _ := Eq.trans
  nil _ := .ok rfl
  append first second _ := scanned_append _ first second

end PdfFilters
