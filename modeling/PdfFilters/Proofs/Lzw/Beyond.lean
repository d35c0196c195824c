import Mathlib.Control.Monad.Basic
import PdfFilters.Proofs.Lzw.Invariant

/-!
# Codes beyond the table

A code that the table does not have stands for the string before it and the first byte of that
string, which is the next entry. This is meant for the code of the next entry, but the decoder reads
codes beyond it in the same way: it writes the same string and defines the same entry, so that codes
are as wide as they would be (`Book.reading_of_missing`).

What is not the same is the code that it keeps as the code before. This is the code that was read, and
it has no entry. If the data end there, or the table is reset, then nobody notices. Any other code
looks for that entry, in order to define its own, and fails (`Book.reading_of_lost`): its string is
written if the table has it, and the code that is reported is not the one that has just been read.

`LzwDecoder.readFrom_beyond` says this of every decoder, whatever it has been fed and whatever comes
behind the code.
-/

namespace PdfFilters

variable {space : CodeSpace} {early : Nat}

namespace Book

variable {book : Book} {bits previous code : Nat}

/-- A code leaves the book as it was if it fails. -/
theorem read_endless (bits code : Nat) (accepted : Array UInt8) (failure : WriteFailure) :
    book.read space bits code (.endless accepted failure) =
      match book.reading space bits code with
      | ⟨bytes, .ok next⟩ => ⟨next, .endless (accepted ++ bytes) failure, .ok ()⟩
      | ⟨bytes, .error fault⟩ => ⟨book, .endless (accepted ++ bytes) failure, .error fault⟩ := by
  unfold read reading
  cases book.string bits code with
  | error fault => simp [Emission.quiet]
  | ok string =>
    have written : (Sink.endless accepted failure).write string
        = (.endless (accepted ++ string) failure, .ok ()) := rfl
    dsimp only
    rw [written]
    dsimp only
    cases book.addition? space bits string <;> rfl

variable (before : book.previous = some previous)

include before

/-- A code that the table does not have stands for the string before and its own first byte, and this
is what it adds. -/
theorem reading_of_missing (missing : book.table.get? code = none)
    (room : ¬ book.table.isFull space = true) {first : UInt8} {rest : List UInt8}
    (found : book.entry bits previous = .ok (first, rest)) :
    book.reading space bits code
      = ⟨first :: (rest ++ [first]),
          .ok ⟨book.table.push space (first :: (rest ++ [first])), some code⟩⟩ := by
  have meaning : book.string bits code = .ok (first :: (rest ++ [first])) := by
    unfold Book.string
    rw [missing, before]
    simp only [found]
    rfl
  have adds : book.addition? space bits (first :: (rest ++ [first]))
      = .ok (some (first :: (rest ++ [first]))) := by
    unfold addition?
    rw [before]
    simp only [if_neg room, found]
    rfl
  exact reading_eq meaning adds

/-- There has to be a string before. -/
theorem reading_of_error (missing : book.table.get? code = none) {fault : Fault}
    (lost : book.entry bits previous = .error fault) :
    book.reading space bits code = .quiet (.error fault) := by
  have meaning : book.string bits code = .error fault := by
    unfold Book.string
    rw [missing, before]
    simp only [lost]
    rfl
  unfold reading
  rw [meaning]

/-- If the code before has no entry, every code fails for want of it. -/
theorem reading_of_lost (lost : book.table.get? previous = none)
    (room : ¬ book.table.isFull space = true) (bits code : Nat) :
    book.reading space bits code
      = ⟨(book.table.get? code).getD [], .error (fault bits (.codeWithoutEntry previous))⟩ := by
  have none : book.entry bits previous = .error (fault bits (.codeWithoutEntry previous)) := by
    unfold entry
    rw [lost]
  cases found : book.table.get? code with
  | none => exact reading_of_error before found none
  | some string =>
    have meaning : book.string bits code = .ok string := by
      unfold Book.string
      rw [found]
    have fails : book.addition? space bits string
        = .error (fault bits (.codeWithoutEntry previous)) := by
      unfold addition?
      rw [before]
      simp only [if_neg room, none]
      rfl
    unfold reading
    rw [meaning]
    dsimp only
    rw [fails]
    rfl

end Book

namespace LzwDecoder

/-- What the decoder does once it has taken a code for a string: it reads the code, and then those that
come behind it. -/
def readFrom (space : CodeSpace) (book : Book) (code : Nat) (queue : BitQueue) (bytes : List UInt8)
    (sink : Sink) : Reply LzwDecoder :=
  match book.read space queue.taken code sink with
  | ⟨next, sink, .ok ()⟩ => readCodes space next queue bytes sink
  | ⟨next, sink, .error fault⟩ => ⟨{ space, book := next, queue }, sink, .error fault⟩

theorem readCodes_of_take? {book : Book} {queue : BitQueue} {bytes : List UInt8} {code : Nat}
    {left : BitQueue} (took : (queue.load bytes).1.take? book.table.width = some (code, left))
    (string : code ≠ space.clearCode) (string' : code ≠ space.endCode) (sink : Sink) :
    readCodes space book queue bytes sink
      = readFrom space book code left (queue.load bytes).2 sink := by
  rw [readCodes_eq]
  simp only [took, if_neg string, if_neg string']
  rfl

/-- The same reply of a decoder that keeps another code as the code before. -/
def keeping (code : Nat) (reply : Reply LzwDecoder) : Reply LzwDecoder :=
  { reply with state.book.previous := some code }

/-- How a decoder goes on that keeps a code without an entry as the code before, compared with one that
keeps the code it was read for: the next code for a string fails, and before that nothing shows. -/
def ShowsLater (space : CodeSpace) (table : StringTable) (code : Nat) (queue : BitQueue)
    (bytes : List UInt8) (sink : Sink) (told meant : Reply LzwDecoder) : Prop :=
  match (queue.load bytes).1.take? table.width with
  | none => meant.result = .ok () ∧ told = keeping code meant
  | some (following, left) =>
    if following = space.clearCode then told = meant
    else if following = space.endCode then meant.result = .ok () ∧ told = keeping code meant
    else
      told.result = .error (Book.fault left.taken (.codeWithoutEntry code))
        ∧ told.sink = (sink.write ((table.get? following).getD [])).1
        ∧ told.state = { space, book := ⟨table, some code⟩, queue := left }

theorem showsLater_readCodes {table : StringTable} {code : Nat} (missing : table.get? code = none)
    (room : ¬ table.isFull space = true) (other : Nat) (queue : BitQueue) (bytes : List UInt8)
    (accepted : Array UInt8) (failure : WriteFailure) :
    ShowsLater space table code queue bytes (.endless accepted failure)
      (readCodes space ⟨table, some code⟩ queue bytes (.endless accepted failure))
      (readCodes space ⟨table, some other⟩ queue bytes (.endless accepted failure)) := by
  unfold ShowsLater
  rw [readCodes_eq, readCodes_eq]
  cases (queue.load bytes).1.take? table.width with
  | none => exact ⟨rfl, rfl⟩
  | some taken =>
    obtain ⟨following, left⟩ := taken
    dsimp only
    by_cases clears : following = space.clearCode
    · -- Nothing is left of the code before.
      simp only [if_pos clears]
    · rw [if_neg clears, if_neg clears, if_neg clears]
      by_cases ends : following = space.endCode
      · rw [if_pos ends, if_pos ends, if_pos ends]
        exact ⟨rfl, rfl⟩
      · have fails : Book.reading space ⟨table, some code⟩ left.taken following = _ :=
          Book.reading_of_lost rfl missing room left.taken following
        rw [if_neg ends, if_neg ends, Book.read_endless, fails]
        exact ⟨rfl, rfl, rfl⟩

/-- A code beyond the table is read as the code of the next entry, but it is kept as the code before.
So what comes behind it is read alike if the data stop there or the table is reset, but any other code
fails. -/
theorem readFrom_beyond (grows : space.Grows early) (feeds : List (List UInt8 × Sink)) :
    let book := ((start space).feedAll feeds).book
    ∀ previous, book.previous = some previous →
    ∀ code, book.table.size < code → code < 1 <<< book.table.width →
    ∀ (queue : BitQueue) (bytes : List UInt8) (accepted : Array UInt8) (failure : WriteFailure),
      let told := readFrom space book code queue bytes (.endless accepted failure)
      let meant := readFrom space book book.table.size queue bytes (.endless accepted failure)
      match book.entry queue.taken previous with
      | .error fault =>
        told = ⟨{ space, book, queue }, .endless accepted failure, .error fault⟩ ∧ meant = told
      | .ok (first, rest) =>
        ShowsLater space (book.table.push space (first :: (rest ++ [first]))) code queue bytes
          (.endless (accepted ++ (first :: (rest ++ [first]))) failure) told meant := by
  intro book previous before code beyond fits queue bytes accepted failure told meant
  have built : book.table.IsBuilt early := ((isSteady_start grows).feedAll feeds).built
  -- The code fits into twelve bits, so the table has room for two more entries.
  have below : code < fullTable := by
    have narrow : 2 ^ book.table.width ≤ 2 ^ 12 :=
      Nat.pow_le_pow_right Nat.two_pos built.width_bounds.2
    rw [Nat.one_shiftLeft] at fits
    exact Nat.lt_of_lt_of_le fits narrow
  have isFull : ∀ table : StringTable, table.size < fullTable → ¬ table.isFull space = true := by
    intro table short
    rw [StringTable.isFull_iff grows]
    exact Nat.not_le.mpr short
  have room := isFull book.table (Nat.lt_trans beyond below)
  have missing := StringTable.get?_eq_none (Nat.le_of_lt beyond)
  have missing' := StringTable.get?_eq_none (Nat.le_refl book.table.size)
  unfold told meant readFrom
  cases found : book.entry queue.taken previous with
  | error fault =>
    rw [Book.read_endless, Book.read_endless, Book.reading_of_error before missing found,
      Book.reading_of_error before missing' found]
    simp [Emission.quiet]
  | ok entry =>
    obtain ⟨first, rest⟩ := entry
    rw [Book.read_endless, Book.read_endless, Book.reading_of_missing before missing room found,
      Book.reading_of_missing before missing' room found]
    have size := StringTable.size_push room (first :: (rest ++ [first]))
    refine showsLater_readCodes (StringTable.get?_eq_none ?_) (isFull _ ?_) _ queue bytes _ failure
    · rw [size]
      exact beyond
    · rw [size]
      exact Nat.lt_of_le_of_lt beyond below

/-- The code 300 comes behind the first one, when the table ends with 257. Then 65 and the end. -/
theorem readFrom_beyond_once :
    let book := ((start .early).feedAll [([0x21, 0x4B], .unlimited)]).book
    (book.previous = some 66 ∧ book.table.size < 300 ∧ 300 < 1 <<< book.table.width)
      ∧ ShowsLater .early (book.table.push .early [66, 66]) 300 .empty [0x20, 0xC0, 0x40]
        (.endless #[66, 66] .stalled)
        (readFrom .early book 300 .empty [0x20, 0xC0, 0x40] (.endless #[] .stalled))
        (readFrom .early book book.table.size .empty [0x20, 0xC0, 0x40] (.endless #[] .stalled)) := by
  intro book
  have grows : CodeSpace.early.Grows 1 := ⟨rfl, rfl, rfl⟩
  have before : book.previous = some 66 := by decide +kernel
  have beyond : book.table.size < 300 := by decide +kernel
  have fits : 300 < 1 <<< book.table.width := by decide +kernel
  have found : book.entry BitQueue.empty.taken 66 = .ok (66, []) := by decide +kernel
  have shows := readFrom_beyond grows
    [([0x21, 0x4B], .unlimited)] 66 before 300 beyond fits .empty [0x20, 0xC0, 0x40] #[] .stalled
  rw [found] at shows
  exact ⟨⟨before, beyond, fits⟩, shows⟩

/-- Of two streams that differ only in such a code, one fails and the other does not. -/
theorem feed_beyond_differs :
    ((start .early).feed [0x21, 0x4B, 0x08, 0x30, 0x10] .unlimited).result
        = .error (.malformed "LZWDecode" 3 (.codeWithoutEntry 300))
      ∧ ((start .early).feed [0x21, 0x40, 0x88, 0x30, 0x10] .unlimited).result = .ok () := by
  decide +kernel

end LzwDecoder

end PdfFilters
