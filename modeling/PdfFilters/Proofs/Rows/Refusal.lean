import PdfFilters.Proofs.Rows.Png
import PdfFilters.Proofs.Rows.Tiff
import PdfFilters.Proofs.Stored

/-!
# What is turned down before any data come

A row store looks at the entries of the dictionary before it takes in data, and the same entries are
looked at again when the rows are put back. The two agree (`RowStore.start_foresees`): a store that
does not start has the fault that every data would have, even none, and where one starts, the only
fault that is left is a tag that no row filter has. That is the first such tag in the data
(`IsFirstUnknown`), as the walk through the rows stops at the first fault
(`undoTaggedFrom_eq_error_iff`).

Predictor 1 is left out. Nothing has to be put back with it, so nobody asks how the rows lie, while a
store would not start if they could not be laid out.
-/

namespace PdfFilters

/-- The tag of this row is the first one that no row filter has. A row is so many bytes behind its tag;
the last one may be shorter, or be nothing but its tag. -/
structure IsFirstUnknown (width : Nat) (data : List UInt8) (row : Nat) (tag : UInt8) : Prop where
  tag_eq : data[row * (width + 1)]? = some tag
  unknown : 4 < tag
  known : ∀ earlier < row, ∀ tag ∈ data[earlier * (width + 1)]?, tag ≤ 4

/-- Rows are to be put back by their tags, and the first tag that no row filter has is the reason for
this fault. -/
def Prediction.FindsUnknown (prediction : Prediction) (data : List UInt8) (fault : Fault) : Prop :=
  (10 ≤ prediction.predictor ∧ prediction.predictor ≤ 15)
    ∧ ∃ row tag,
      IsFirstUnknown
        ((prediction.columns.toNat
          * (prediction.colors.toNat * prediction.bitsPerComponent.toNat) + 7) / 8)
        data row tag
      ∧ fault = .unknownPredictor (10 + tag.toNat)

/-! ## Tags -/

theorem RowFilter.ofTag?_eq_none_iff {tag : UInt8} : ofTag? tag = none ↔ 4 < tag := by
  constructor
  · intro none
    by_contra small
    obtain ⟨filter, found, _⟩ := exists_tag (UInt8.not_lt.mp small)
    rw [found] at none
    cases none
  · intro large
    have beyond : 4 < tag.toNat := large
    unfold ofTag?
    split
    · omega
    · omega
    · omega
    · omega
    · omega
    · rfl

section Cons

variable {width row : Nat} {tag found : UInt8} {rest : List UInt8}

/-- A tag that no row filter has is the first one, if it is the first tag. -/
theorem isFirstUnknown_cons_of_unknown (unknown : 4 < tag) :
    IsFirstUnknown width (tag :: rest) row found ↔ row = 0 ∧ found = tag := by
  constructor
  · intro ⟨tag_eq, _, known⟩
    cases row with
    | zero =>
      rw [Nat.zero_mul, List.getElem?_cons_zero] at tag_eq
      exact ⟨rfl, (Option.some.inj tag_eq).symm⟩
    | succ row =>
      have small : tag ≤ 4 := known 0 (Nat.succ_pos row) tag (by rw [Nat.zero_mul]; rfl)
      exact absurd unknown (UInt8.not_lt.mpr small)
  · rintro ⟨rfl, rfl⟩
    refine ⟨?_, unknown, ?_⟩
    · rw [Nat.zero_mul, List.getElem?_cons_zero]
    · intro earlier before
      exact absurd before (Nat.not_lt_zero earlier)

theorem not_isFirstUnknown_zero (known : tag ≤ 4) :
    ¬ IsFirstUnknown width (tag :: rest) 0 found := by
  intro ⟨tag_eq, unknown, _⟩
  rw [Nat.zero_mul, List.getElem?_cons_zero] at tag_eq
  obtain rfl := Option.some.inj tag_eq
  exact absurd unknown (UInt8.not_lt.mpr known)

/-- Behind a known tag and its row, the search goes on. -/
theorem isFirstUnknown_cons_succ (known : tag ≤ 4) :
    IsFirstUnknown width (tag :: rest) (row + 1) found
      ↔ IsFirstUnknown width (rest.drop width) row found := by
  constructor
  · intro first
    refine ⟨?_, first.unknown, ?_⟩
    · rw [← getElem?_tag_succ]
      exact first.tag_eq
    · intro earlier before tag listed
      rw [← getElem?_tag_succ] at listed
      exact first.known (earlier + 1) (Nat.succ_lt_succ before) tag listed
  · intro first
    refine ⟨?_, first.unknown, ?_⟩
    · rw [getElem?_tag_succ]
      exact first.tag_eq
    · intro earlier before tag listed
      cases earlier with
      | zero =>
        rw [Nat.zero_mul, List.getElem?_cons_zero] at listed
        obtain rfl := Option.some.inj listed
        exact known
      | succ earlier =>
        rw [getElem?_tag_succ] at listed
        exact first.known earlier (Nat.lt_of_succ_lt_succ before) tag listed

end Cons

/-- The walk through the rows fails at the first tag that no row filter has, and nowhere else. -/
theorem undoTaggedFrom_eq_error_iff (layout : Layout) (above restored : Array UInt8)
    (data : List UInt8) (fault : Fault) :
    undoTaggedFrom layout above restored data = .error fault
      ↔ ∃ row tag, IsFirstUnknown layout.rowBytes data row tag
        ∧ fault = .unknownPredictor (10 + tag.toNat) := by
  fun_induction undoTaggedFrom layout above restored data with
  | case1 above restored =>
    constructor
    · intro failed
      cases failed
    · rintro ⟨row, tag, ⟨tag_eq, _, _⟩, _⟩
      cases tag_eq
  | case2 above restored tag rest none =>
    have unknown := RowFilter.ofTag?_eq_none_iff.mp none
    constructor
    · intro failed
      refine ⟨0, tag, ?_, (Except.error.inj failed).symm⟩
      exact (isFirstUnknown_cons_of_unknown unknown).mpr ⟨rfl, rfl⟩
    · rintro ⟨row, found, first, rfl⟩
      obtain ⟨_, rfl⟩ := (isFirstUnknown_cons_of_unknown unknown).mp first
      rfl
  | case3 above restored tag rest filter found row ih =>
    have known : tag ≤ 4 := by
      by_contra large
      rw [RowFilter.ofTag?_eq_none_iff.mpr (UInt8.not_le.mp large)] at found
      cases found
    rw [ih]
    constructor
    · rintro ⟨row, tag, first, rfl⟩
      exact ⟨row + 1, tag, (isFirstUnknown_cons_succ known).mpr first, rfl⟩
    · rintro ⟨row, tag, first, rfl⟩
      cases row with
      | zero => exact absurd first (not_isFirstUnknown_zero known)
      | succ row => exact ⟨row, tag, (isFirstUnknown_cons_succ known).mp first, rfl⟩

theorem undoTagged_eq_error_iff (layout : Layout) (data : List UInt8) (fault : Fault) :
    undoTagged layout data = .error fault
      ↔ ∃ row tag, IsFirstUnknown layout.rowBytes data row tag
        ∧ fault = .unknownPredictor (10 + tag.toNat) := by
  rw [← undoTaggedFrom_eq_error_iff layout #[] #[] data fault, undoTagged, map_eq_error_iff]

/-! ## Starting and putting back -/

section Start

variable {prediction : Prediction}

theorem isPredictor_iff {value : Int} :
    isPredictor value = true ↔ value = 1 ∨ value = 2 ∨ (10 ≤ value ∧ value ≤ 15) :=
  decide_eq_true_iff

/-- What keeps a store from starting is the fault of all data. -/
theorem RowStore.undo_of_start_error (changes : prediction.predictor ≠ 1) {fault : Fault}
    (failed : start prediction = .error fault) (data : List UInt8) :
    prediction.undo data = .error fault := by
  unfold start at failed
  by_cases known : isPredictor prediction.predictor = true
  · rw [if_pos known] at failed
    have invalid : prediction.layout = .error fault := map_eq_error_iff.mp failed
    rcases isPredictor_iff.mp known with nothing | differences | tagged
    · exact absurd nothing changes
    · rw [Prediction.undo_of_differences differences, invalid]
      rfl
    · rw [Prediction.undo_of_tagged tagged, invalid]
      rfl
  · rw [if_neg known] at failed
    rw [isPredictor_iff] at known
    unfold Prediction.undo
    rw [if_neg changes, if_neg (by omega), if_neg (by omega), Except.error.inj failed]

/-- Where the rows can be laid out, only a tag can be the reason for a fault. -/
theorem Prediction.undo_eq_error_iff {layout : Layout} (changes : prediction.predictor ≠ 1)
    (known : isPredictor prediction.predictor = true) (valid : prediction.layout = .ok layout)
    (data : List UInt8) (fault : Fault) :
    prediction.undo data = .error fault ↔ prediction.FindsUnknown data fault := by
  obtain ⟨colors, bits, columns⟩ := layout_eq valid
  unfold FindsUnknown
  rw [← colors, ← bits, ← columns]
  rcases isPredictor_iff.mp known with nothing | differences | tagged
  · exact absurd nothing changes
  · rw [undo_of_differences differences, valid]
    constructor
    · intro failed
      cases failed
    · intro finds
      have := finds.1.1
      omega
  · rw [undo_of_tagged tagged, valid]
    show undoTagged layout data = .error fault ↔ _
    rw [undoTagged_eq_error_iff]
    exact ⟨fun first => ⟨tagged, first⟩, fun finds => finds.2⟩

end Start

namespace RowStore

/-- A store holds all that was put into it. -/
theorem foldl_add (blocks : List (Array UInt8)) (store : RowStore) :
    (blocks.foldl add store).prediction = store.prediction
      ∧ (blocks.foldl add store).data.toList
        = store.data.toList ++ blocks.flatMap (·.toList) := by
  induction blocks generalizing store with
  | nil => exact ⟨rfl, (List.append_nil _).symm⟩
  | cons block rest ih =>
    obtain ⟨kept, data⟩ := ih (store.add block)
    refine ⟨kept, ?_⟩
    rw [List.foldl_cons, data, List.flatMap_cons, ← List.append_assoc]
    show (store.data ++ block).toList ++ _ = _
    rw [Array.toList_append]

/-- Turning a predictor down early is exact. If a store does not start, its fault is the one of all
data. If it starts, data have a fault just in case rows are to be put back by their tags and there is a
tag that no row filter has, and the first of these is the fault. Then the filled store gives its sink
nothing, and otherwise it writes the rows. -/
theorem start_foresees {prediction : Prediction} (changes : prediction.predictor ≠ 1) :
    (∀ fault, start prediction = .error fault → ∀ data, prediction.undo data = .error fault)
      ∧ ∀ store, start prediction = .ok store →
        (∀ data fault, prediction.undo data = .error fault ↔ prediction.FindsUnknown data fault)
          ∧ ∀ (blocks : List (Array UInt8)) (sink : Sink),
            (∃ fault, prediction.FindsUnknown (blocks.flatMap (·.toList)) fault
                ∧ (blocks.foldl add store).finish sink = (sink, .error fault))
              ∨ ∃ rows, prediction.undo (blocks.flatMap (·.toList)) = .ok rows
                ∧ (blocks.foldl add store).finish sink = sink.write rows := by
  refine ⟨?_, ?_⟩
  · intro fault failed data
    exact undo_of_start_error changes failed data
  · intro store started
    obtain ⟨known, layout, valid, rfl⟩ := exists_of_start started
    have refuses := Prediction.undo_eq_error_iff changes known valid
    refine ⟨refuses, ?_⟩
    intro blocks sink
    obtain ⟨kept, data⟩ := foldl_add blocks { prediction }
    rw [Array.toList_empty, List.nil_append] at data
    unfold finish
    rw [kept, data]
    cases undone : prediction.undo (blocks.flatMap (·.toList)) with
    | error fault => exact .inl ⟨fault, (refuses _ fault).mp undone, rfl⟩
    | ok rows => exact .inr ⟨rows, rfl, rfl⟩

/-- Two entries that are both unusable, of which the colors are named, and rows of two bytes of which
the second one has an unknown tag and nothing else. -/
theorem start_foresees_unknown :
    let unusable : Prediction := { predictor := 12, colors := 33, columns := 0 }
    let tagged : Prediction := { predictor := 15, columns := 2 }
    (unusable.predictor ≠ 1 ∧ start unusable = .error (.badParameter "Colors" 33)
        ∧ ∀ data, unusable.undo data = .error (.badParameter "Colors" 33))
      ∧ tagged.predictor ≠ 1 ∧ start tagged = .ok { prediction := tagged }
      ∧ tagged.FindsUnknown [2, 7, 7, 9] (.unknownPredictor 19)
      ∧ tagged.undo [2, 7, 7, 9] = .error (.unknownPredictor 19)
      ∧ ∀ sink, ([#[2, 7], #[7, 9]].foldl add { prediction := tagged }).finish sink
        = (sink, .error (.unknownPredictor 19)) := by
  intro unusable tagged
  have changes : unusable.predictor ≠ 1 := by decide
  have changes' : tagged.predictor ≠ 1 := by decide
  have failed : start unusable = .error (.badParameter "Colors" 33) := rfl
  have started : start tagged = .ok { prediction := tagged } := rfl
  have undone : tagged.undo [2, 7, 7, 9] = .error (.unknownPredictor 19) := by decide +kernel
  obtain ⟨refuses, finished⟩ := (start_foresees changes').2 _ started
  refine ⟨⟨changes, failed, (start_foresees changes).1 _ failed⟩, changes', started,
    (refuses _ _).mp undone, undone, ?_⟩
  intro sink
  rcases finished [#[2, 7], #[7, 9]] sink with ⟨fault, found, ended⟩ | ⟨rows, restored, _⟩
  · have same : Except.error fault = Except.error (.unknownPredictor 19) :=
      ((refuses _ fault).mpr found).symm.trans undone
    rw [ended, Except.error.inj same]
  · have both := restored.symm.trans undone
    cases both

end RowStore

end PdfFilters
