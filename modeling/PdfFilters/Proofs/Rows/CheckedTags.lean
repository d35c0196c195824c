import PdfFilters.Proofs.Rows.Measures
import PdfFilters.Proofs.Rows.Png

/-!
# Tagged rows with machine words and slices

A machine restores a tagged row in place, in a row of scratch of its own, with the row before it in
another one. Both are as wide as the rows, but never wider than all the data, and each row works on as
much of them as it is wide. The checked loops have no answer where that is more than there is, or where
a neighbour is looked up outside of it (`RowFilter.restoreChecked`, `undoRowsChecked`).

In the middle of a row, the bytes before a place have been restored and the ones from there on are as
they came (`RowFilter.partly`). So a step finds the neighbours that the walk through the rows finds
(`RowFilter.guessChecked_eq`), and the loops restore what the walk restores.
-/

namespace PdfFilters

/-! ## Predictions -/

/-- The mean of two bytes, of a sum of sixteen bits. -/
def meanChecked (left above : UInt8) : Option UInt8 := do
  let sum ← word16? (left.toNat + above.toNat)
  return UInt8.ofNat (sum / 2)

/-- The distance of a neighbour from the plane, in sixteen bits. -/
def distance? (plane : Int) (neighbour : UInt8) : Option Int := do
  let difference ← int16? (plane - neighbour.toNat)
  int16? difference.natAbs

/-- The nearest of three neighbours, with distances of sixteen bits. -/
def paethChecked (left above corner : UInt8) : Option UInt8 := do
  let sum ← int16? (left.toNat + above.toNat)
  let plane ← int16? (sum - corner.toNat)
  let toLeft ← distance? plane left
  let toAbove ← distance? plane above
  let toCorner ← distance? plane corner
  return if toLeft ≤ toAbove ∧ toLeft ≤ toCorner then left
    else if toAbove ≤ toCorner then above
    else corner

theorem meanChecked_eq (left above corner : UInt8) :
    meanChecked left above = some (RowFilter.mean.estimate left above corner) := by
  have := left.toNat_lt
  have := above.toNat_lt
  rw [meanChecked, bind_of_eq_some (word16?_eq (by omega))]
  rfl

theorem distance?_eq {plane : Int} (low : -255 ≤ plane) (high : plane ≤ 510) (neighbour : UInt8) :
    distance? plane neighbour = some ((plane - neighbour.toNat).natAbs : Int) := by
  have := neighbour.toNat_lt
  rw [distance?, bind_of_eq_some (int16?_eq (by omega) (by omega))]
  exact int16?_eq (by omega) (by omega)

theorem paethChecked_eq (left above corner : UInt8) :
    paethChecked left above corner = some (paeth left above corner) := by
  have := left.toNat_lt
  have := above.toNat_lt
  have := corner.toNat_lt
  rw [paethChecked, bind_of_eq_some (int16?_eq (by omega) (by omega)),
    bind_of_eq_some (int16?_eq (by omega) (by omega)),
    bind_of_eq_some (distance?_eq (by omega) (by omega) left),
    bind_of_eq_some (distance?_eq (by omega) (by omega) above),
    bind_of_eq_some (distance?_eq (by omega) (by omega) corner)]
  simp only [Int.ofNat_le]
  rfl

/-! ## One row -/

/-- The byte one pixel back, or zero if there is no pixel. -/
def neighbour? (pixel : Nat) (row : Array UInt8) (place : Nat) : Option UInt8 :=
  if pixel ≤ place then do row[← minus? place pixel]? else some 0

namespace RowFilter

/-- The prediction of a byte of a row that is restored in place. -/
def guessChecked (filter : RowFilter) (pixel : Nat) (prev row : Array UInt8) (place : Nat) :
    Option UInt8 :=
  match filter with
  | .plain => some 0
  | .left => do row[← minus? place pixel]?
  | .above => prev[place]?
  | .mean => do meanChecked (← neighbour? pixel row place) (← prev[place]?)
  | .paeth => do
    let left ← neighbour? pixel row place
    let corner ← neighbour? pixel prev place
    paethChecked left (← prev[place]?) corner

/-- The places at which a loop adds a prediction. -/
def places (filter : RowFilter) (pixel : Nat) (prev row : Array UInt8) : List Nat :=
  match filter with
  | .plain => []
  | .left => List.range' pixel (row.size - pixel)
  | .above => List.range' 0 (min row.size prev.size)
  | .mean | .paeth => List.range' 0 row.size

/-- Add its prediction to one byte. -/
def restoreByteChecked (filter : RowFilter) (pixel : Nat) (prev row : Array UInt8) (place : Nat) :
    Option (Array UInt8) := do
  let own ← row[place]?
  put? row place (own + (← filter.guessChecked pixel prev row place))

/-- Restore a row in place. -/
def restoreChecked (filter : RowFilter) (pixel : Nat) (prev row : Array UInt8) :
    Option (Array UInt8) :=
  (filter.places pixel prev row).foldlM (filter.restoreByteChecked pixel prev) row

/-- A row that is restored up to a place. -/
def partly (filter : RowFilter) (pixel : Nat) (above : Array UInt8) (stored : List UInt8)
    (place : Nat) : Array UInt8 :=
  filter.undoRow pixel above (stored.take place) ++ (stored.drop place).toArray

section Row

variable (filter : RowFilter) {pixel : Nat} {above prev : Array UInt8} {stored : List UInt8}

theorem size_partly (place : Nat) : (filter.partly pixel above stored place).size = stored.length := by
  rw [partly, Array.size_append, size_undoRow, List.size_toArray, ← List.length_append,
    List.take_append_drop]

theorem partly_length :
    filter.partly pixel above stored stored.length = filter.undoRow pixel above stored := by
  rw [partly, List.take_length, List.drop_length]
  exact Array.append_empty

/-- A row stays as it is where nothing is predicted. -/
theorem undoRow_eq_self
    (nothing : ∀ row : Array UInt8, row.size < stored.length →
      filter.estimateAt pixel above row row.size = 0) :
    filter.undoRow pixel above stored = stored.toArray := by
  induction stored using List.reverseRecOn with
  | nil => rfl
  | append_singleton stored byte ih =>
    rw [List.length_append, List.length_singleton] at nothing
    have before := ih fun row short => nothing row (Nat.lt_succ_of_lt short)
    have here := nothing stored.toArray (by rw [List.size_toArray]; exact Nat.lt_succ_self _)
    rw [undoRow_concat, before, here, UInt8.add_zero, List.push_toArray]

theorem partly_of_nothing {place : Nat}
    (nothing : ∀ row : Array UInt8, row.size < (stored.take place).length →
      filter.estimateAt pixel above row row.size = 0) :
    filter.partly pixel above stored place = stored.toArray := by
  rw [partly, filter.undoRow_eq_self nothing, List.append_toArray, List.take_append_drop]

/-- A step at a place restores the byte there. -/
theorem restoreByteChecked_eq {place : Nat} (inside : place < stored.length)
    (guessed : filter.guessChecked pixel prev (filter.partly pixel above stored place) place
      = some (filter.estimateAt pixel above (filter.undoRow pixel above (stored.take place)) place)) :
    filter.restoreByteChecked pixel prev (filter.partly pixel above stored place) place
      = some (filter.partly pixel above stored (place + 1)) := by
  have size : (filter.undoRow pixel above (stored.take place)).size = place := by
    rw [size_undoRow, List.length_take]
    omega
  have bound : place < (filter.partly pixel above stored place).size := by rwa [size_partly]
  have own : (filter.partly pixel above stored place)[place]? = some stored[place] := by
    rw [partly, Array.getElem?_append_right (Nat.le_of_eq size), size, Nat.sub_self,
      List.drop_eq_getElem_cons inside]
    rfl
  rw [restoreByteChecked, bind_of_eq_some own, bind_of_eq_some guessed, put?_eq bound, partly, partly,
    Array.setIfInBounds_append_right (Nat.le_of_eq size), size, Nat.sub_self,
    List.drop_eq_getElem_cons inside, List.take_succ_eq_append_getElem inside, undoRow_concat, size]
  generalize stored[place] = byte
  generalize stored.drop (place + 1) = rest
  exact congrArg some (Array.ext' (by simp))

/-- The loop from one place to another restores what is between them. -/
theorem foldlM_restoreByteChecked (start count : Nat) (inside : start + count ≤ stored.length)
    (guessed : ∀ place, start ≤ place → place < stored.length →
      filter.guessChecked pixel prev (filter.partly pixel above stored place) place
        = some (filter.estimateAt pixel above (filter.undoRow pixel above (stored.take place)) place)) :
    (List.range' start count).foldlM (filter.restoreByteChecked pixel prev)
        (filter.partly pixel above stored start)
      = some (filter.partly pixel above stored (start + count)) := by
  induction count generalizing start with
  | zero => rfl
  | succ count ih =>
    have here := guessed start (Nat.le_refl start) (by omega)
    have further := ih (start + 1) (by omega) fun place later => guessed place (Nat.le_of_succ_le later)
    rw [List.range'_succ, List.foldlM_cons,
      bind_of_eq_some (filter.restoreByteChecked_eq (by omega) here), further, Nat.add_assoc,
      Nat.add_comm 1]

/-- A row of scratch that holds, as far as it goes, what the walk has above. -/
def Mirrors (prev above : Array UInt8) : Prop :=
  ∀ place < prev.size, prev.getD place 0 = above.getD place 0

theorem Mirrors.getElem?_eq (mirrors : Mirrors prev above) {place : Nat} (inside : place < prev.size) :
    prev[place]? = some (above.getD place 0) := by
  rw [getElem?_eq_getD inside 0, mirrors place inside]

theorem neighbour?_eq {row : Array UInt8} {place : Nat} (value : Nat → UInt8)
    (known : pixel ≤ place → row[place - pixel]? = some (value (place - pixel))) :
    neighbour? pixel row place = some (if pixel ≤ place then value (place - pixel) else 0) := by
  rw [neighbour?]
  by_cases behind : pixel ≤ place
  · rw [if_pos behind, if_pos behind, bind_of_eq_some (minus?_eq behind)]
    exact known behind
  · rw [if_neg behind, if_neg behind]

/-- The neighbours of a byte are those that the walk looks at. The left one has been restored. -/
theorem guessChecked_eq (apart : 0 < pixel) (mirrors : Mirrors prev above)
    (size : prev.size = stored.length) {place : Nat} (inside : place < stored.length)
    (behind : filter = .left → pixel ≤ place) :
    filter.guessChecked pixel prev (filter.partly pixel above stored place) place
      = some (filter.estimateAt pixel above (filter.undoRow pixel above (stored.take place)) place) := by
  have restored : pixel ≤ place → (filter.partly pixel above stored place)[place - pixel]?
      = some ((filter.undoRow pixel above (stored.take place)).getD (place - pixel) 0) := by
    intro back
    have before : place - pixel < (filter.undoRow pixel above (stored.take place)).size := by
      rw [size_undoRow, List.length_take]
      omega
    rw [partly, Array.getElem?_append_left before, getElem?_eq_getD before 0]
  have up : prev[place]? = some (above.getD place 0) := mirrors.getElem?_eq (by omega)
  have left := neighbour?_eq (fun place => (filter.undoRow pixel above _).getD place 0) restored
  have corner := neighbour?_eq (fun place => above.getD place 0) fun back : pixel ≤ place =>
    mirrors.getElem?_eq (by omega : place - pixel < prev.size)
  have estimated : filter.estimateAt pixel above (filter.undoRow pixel above (stored.take place)) place
      = filter.estimate
          (if pixel ≤ place then
            (filter.undoRow pixel above (stored.take place)).getD (place - pixel) 0 else 0)
          (above.getD place 0)
          (if pixel ≤ place then above.getD (place - pixel) 0 else 0) := by
    rw [estimateAt]
    split <;> rfl
  rw [estimated]
  cases filter with
  | plain => rfl
  | left =>
    have back := behind rfl
    rw [guessChecked, bind_of_eq_some (minus?_eq back), if_pos back]
    exact restored back
  | above => exact up
  | mean =>
    rw [guessChecked, bind_of_eq_some left, bind_of_eq_some up]
    exact meanChecked_eq _ _ _
  | paeth =>
    rw [guessChecked, bind_of_eq_some left, bind_of_eq_some corner, bind_of_eq_some up]
    exact paethChecked_eq _ _ _

/-- A row is restored in place as the walk restores it. -/
theorem restoreChecked_eq (apart : 0 < pixel) (mirrors : Mirrors prev above)
    (size : prev.size = stored.length) :
    filter.restoreChecked pixel prev stored.toArray = some (filter.undoRow pixel above stored) := by
  have loop (start count : Nat) (whole : start + count = stored.length)
      (behind : filter = .left → pixel ≤ start)
      (unchanged : filter.partly pixel above stored start = stored.toArray) :
      (List.range' start count).foldlM (filter.restoreByteChecked pixel prev) stored.toArray
        = some (filter.undoRow pixel above stored) := by
    rw [← unchanged, ← partly_length, ← whole]
    apply foldlM_restoreByteChecked _ _ _ (Nat.le_of_eq whole)
    intro place later inside
    exact filter.guessChecked_eq apart mirrors size inside fun left => Nat.le_trans (behind left) later
  have fromZero : filter.partly pixel above stored 0 = stored.toArray :=
    filter.partly_of_nothing fun row short => absurd short (Nat.not_lt_zero _)
  rw [restoreChecked]
  cases filter with
  | plain =>
    rw [undoRow_eq_self]
    · rfl
    · intro row _
      rw [estimateAt]
      split <;> rfl
  | left =>
    rw [places, List.size_toArray]
    by_cases wide : pixel ≤ stored.length
    · apply loop
      · omega
      · exact fun _ => Nat.le_refl pixel
      · apply partly_of_nothing
        intro row short
        rw [List.length_take] at short
        rw [estimateAt, if_neg (by omega)]
        rfl
    · rw [undoRow_eq_self, Nat.sub_eq_zero_of_le (by omega)]
      · rfl
      · intro row short
        rw [estimateAt, if_neg (by omega)]
        rfl
  | above =>
    rw [places, List.size_toArray, size, Nat.min_self]
    exact loop 0 _ (Nat.zero_add _) nofun fromZero
  | mean => exact loop 0 _ (Nat.zero_add _) nofun fromZero
  | paeth => exact loop 0 _ (Nat.zero_add _) nofun fromZero

end Row

end RowFilter

/-! ## All rows -/

/-- Data in chunks of one byte and so many more, the last of which may be shorter. -/
def chunksOf (more : Nat) (data : List UInt8) : List (List UInt8) :=
  match data with
  | [] => []
  | byte :: rest => (byte :: rest.take more) :: chunksOf more (rest.drop more)
  termination_by data.length
  decreasing_by simp only [List.length_drop, List.length_cons]; omega

/-- Data in chunks of this size, if it is not zero. -/
def chunks? (size : Nat) (data : List UInt8) : Option (List (List UInt8)) :=
  if size = 0 then none else some (chunksOf (size - 1) data)

/-- Restore tagged rows one after another, with the row before and the current one in scratch. -/
def undoRowsChecked (pixel : Nat) (prev current : List UInt8) (output : Array UInt8) :
    List (List UInt8) → Option (Except Fault (Array UInt8))
  | [] => some (.ok output)
  | [] :: rest => undoRowsChecked pixel prev current output rest
  | (tag :: row) :: rest => do
    let current ← overlay? current row
    let own ← front? current row.length
    let above ← front? prev row.length
    match RowFilter.ofTag? tag with
    | none => return .error (.unknownPredictor (10 + tag.toNat))
    | some filter =>
      let restored ← filter.restoreChecked pixel above.toArray own.toArray
      let prev ← overlay? prev restored.toList
      let current ← overlay? current restored.toList
      undoRowsChecked pixel prev current (output ++ restored) rest

theorem chunks?_eq {size : Nat} (positive : 0 < size) (data : List UInt8) :
    chunks? size data = some (chunksOf (size - 1) data) := if_neg (Nat.ne_of_gt positive)

theorem RowFilter.Mirrors.take {prev : List UInt8} {above : Array UInt8}
    (mirrors : Mirrors prev.toArray above) (count : Nat) : Mirrors (prev.take count).toArray above := by
  intro place inside
  rw [List.size_toArray, List.length_take] at inside
  have whole : place < prev.toArray.size := by
    rw [List.size_toArray]
    omega
  rw [← mirrors place whole, getD_toArray, getD_toArray, List.getD_eq_getElem?_getD,
    List.getD_eq_getElem?_getD, List.getElem?_take_of_lt (by omega)]

/-- Zeros are what the walk has above the first row. -/
theorem RowFilter.mirrors_replicate (count : Nat) : Mirrors (List.replicate count 0).toArray #[] := by
  intro place inside
  rw [List.size_toArray, List.length_replicate] at inside
  rw [getD_toArray, List.getD_eq_getElem?_getD, List.getElem?_replicate, if_pos inside]
  rfl

section Step

variable {prev current row : List UInt8} (inside : row.length ≤ prev.length)
  (same : current.length = prev.length) {tag : UInt8} (pixel : Nat) (output : Array UInt8)
  (rest : List (List UInt8))

include inside same

theorem undoRowsChecked_of_unknown (unknown : RowFilter.ofTag? tag = none) :
    undoRowsChecked pixel prev current output ((tag :: row) :: rest)
      = some (.error (.unknownPredictor (10 + tag.toNat))) := by
  have room : row.length ≤ (row ++ current.drop row.length).length := by
    rw [List.length_append]
    exact Nat.le_add_right _ _
  rw [undoRowsChecked, bind_of_eq_some (overlay?_eq (by omega)), bind_of_eq_some (front?_eq room),
    bind_of_eq_some (front?_eq inside), unknown]
  rfl

/-- The bytes of a row go into the scratch row, and what is restored there becomes the row before. -/
theorem undoRowsChecked_of_known {filter : RowFilter} (found : RowFilter.ofTag? tag = some filter)
    {above : Array UInt8} (apart : 0 < pixel) (mirrors : RowFilter.Mirrors prev.toArray above) :
    ∃ current', current'.length = prev.length
      ∧ undoRowsChecked pixel prev current output ((tag :: row) :: rest)
        = undoRowsChecked pixel ((filter.undoRow pixel above row).toList ++ prev.drop row.length)
            current' (output ++ filter.undoRow pixel above row) rest := by
  have room : row.length ≤ (row ++ current.drop row.length).length := by
    rw [List.length_append]
    exact Nat.le_add_right _ _
  have wide : (prev.take row.length).toArray.size = row.length := by
    rw [List.size_toArray, List.length_take, Nat.min_eq_left inside]
  have restored := filter.restoreChecked_eq apart (mirrors.take row.length) wide
  have length : (filter.undoRow pixel above row).toList.length = row.length := by
    rw [Array.length_toList, filter.size_undoRow]
  refine ⟨(filter.undoRow pixel above row).toList ++ (row ++ current.drop row.length).drop row.length,
    ?_, ?_⟩
  · rw [List.length_append, List.drop_left, List.length_drop, length]
    omega
  · rw [undoRowsChecked, bind_of_eq_some (overlay?_eq (by omega)), bind_of_eq_some (front?_eq room),
      bind_of_eq_some (front?_eq inside), found, List.take_left]
    dsimp only
    rw [bind_of_eq_some restored, bind_of_eq_some (overlay?_eq (by omega)),
      bind_of_eq_some (overlay?_eq (by omega)), length]

end Step

/-- A row is not wider than the scratch that is made for it. -/
theorem length_row_le {width room : Nat} {tag : UInt8} {rest : List UInt8}
    (enough : min width (tag :: rest).length ≤ room) : (rest.take width).length ≤ room := by
  rw [List.length_cons] at enough
  rw [List.length_take]
  omega

/-- Rows are restored with scratch as the walk restores them, if each row that comes has room in it. -/
theorem undoRowsChecked_eq (layout : Layout) (above output : Array UInt8) (data : List UInt8)
    {prev current : List UInt8} (narrow : prev.length ≤ layout.rowBytes)
    (room : min layout.rowBytes data.length ≤ prev.length) (same : current.length = prev.length)
    (mirrors : data = [] ∨ RowFilter.Mirrors prev.toArray above) :
    undoRowsChecked layout.pixelBytes prev current output (chunksOf layout.rowBytes data)
      = some (undoTaggedFrom layout above output data) := by
  fun_induction undoTaggedFrom layout above output data generalizing prev current with
  | case1 above output =>
    rw [chunksOf]
    rfl
  | case2 above output tag rest unknown =>
    rw [chunksOf]
    exact undoRowsChecked_of_unknown (length_row_le room) same _ output _ unknown
  | case3 above output tag rest filter found restored =>
    rename_i ih
    rcases mirrors with none | mirrors
    · cases none
    obtain ⟨current', same', step⟩ := undoRowsChecked_of_known (length_row_le room) same _ output
      (chunksOf layout.rowBytes (rest.drop layout.rowBytes)) found layout.pixelBytes_pos mirrors
    have inside := length_row_le room
    have size : restored.toList.length = min layout.rowBytes rest.length := by
      rw [Array.length_toList, filter.size_undoRow, List.length_take]
    have kept :
        (restored.toList ++ prev.drop (rest.take layout.rowBytes).length).length = prev.length := by
      rw [List.length_append, List.length_drop, size, List.length_take]
      rw [List.length_take] at inside
      omega
    rw [chunksOf, step]
    refine ih ?_ ?_ ?_ ?_
    · rwa [kept]
    · rw [kept, List.length_drop]
      rw [List.length_cons] at room
      omega
    · rw [same', kept]
    · by_cases last : rest.length ≤ layout.rowBytes
      · exact .inl (List.drop_eq_nil_of_le last)
      · -- A row that is not the last one is as wide as the scratch, so it replaces all of it.
        have all : prev.drop (rest.take layout.rowBytes).length = [] := by
          apply List.drop_eq_nil_of_le
          rw [List.length_take]
          omega
        rw [all, List.append_nil, Array.toArray_toList]
        exact .inr fun _ _ => rfl

end PdfFilters
