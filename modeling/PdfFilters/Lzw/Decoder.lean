import PdfFilters.Catalogue
import PdfFilters.Lzw.BitQueue
import PdfFilters.Lzw.Table
import PdfFilters.Sink

/-!
# Decoding codes into strings

Codes are decoded as soon as their last bit has come. Each one writes its string and defines the
next table entry: the string before it, with the first byte of its own. A code that the table does
not have yet can still be read if there is a string before it: it stands for that string followed
by the first byte of that string again, which is what the entry about to be defined will hold.

`Book` is what has been learned from the codes so far: the table and the code before.
`LzwDecoder` adds the bits that wait for the rest of their code. `LzwDecoder.feed` takes a block;
after a fault it has lost the rest of the block, but not the bits that were in the queue already.
-/

namespace PdfFilters

/-- What the codes so far have taught: the table, and the code before, if there was one since the
last reset. -/
structure Book where
  table : StringTable
  previous : Option Nat

namespace Book

/-- Nothing learned yet. -/
def initial (space : CodeSpace) : Book := ⟨.initial space, none⟩

/-- The fault of codes that are malformed after so many bits. -/
def fault (bits : Nat) (flaw : Flaw) : Fault := .malformed Kind.lzw.name (bits / 8) flaw

/-- The entry of a code that was read before, with its first byte set apart. -/
def entry (book : Book) (bits code : Nat) : Except Fault (UInt8 × List UInt8) :=
  match book.table.get? code with
  | some (first :: rest) => .ok (first, rest)
  | _ => .error (fault bits (.codeWithoutEntry code))

/-- The string that a code stands for. -/
def string (book : Book) (bits code : Nat) : Except Fault (List UInt8) :=
  match book.table.get? code, book.previous with
  | some string, _ => .ok string
  -- The code that is defined by this very step: the string before, and its own first byte.
  | none, some previous => do
    let (first, rest) ← book.entry bits previous
    return first :: (rest ++ [first])
  | none, none => .error (fault bits (.codeOutside code book.table.size))

/-- The string that `string`, coming after the code before, adds to the table, if it adds one: there
has to be a code before, and room in the table. -/
def addition? (space : CodeSpace) (book : Book) (bits : Nat) (string : List UInt8) :
    Except Fault (Option (List UInt8)) :=
  match book.previous with
  | none => .ok none
  | some previous =>
    if book.table.isFull space then .ok none
    else do
      let (first, rest) ← book.entry bits previous
      return some (first :: (rest ++ string.take 1))

/-- The book with an addition, if there is one, and with the code just read as the code before. -/
def advance (space : CodeSpace) (book : Book) (addition : Option (List UInt8)) (code : Nat) : Book :=
  match book, addition with
  | ⟨table, _⟩, none => ⟨table, some code⟩
  | ⟨table, _⟩, some string => ⟨table.push space string, some code⟩

/-- Decode one code that stands for a string: write the string, then define the next entry. -/
def read (space : CodeSpace) (book : Book) (bits code : Nat) (sink : Sink) : Reply Book :=
  match book.string bits code with
  | .error fault => ⟨book, sink, .error fault⟩
  | .ok string =>
    match sink.write string with
    | (sink, .error fault) => ⟨book, sink, .error fault⟩
    | (sink, .ok ()) =>
      match book.addition? space bits string with
      | .error fault => ⟨book, sink, .error fault⟩
      | .ok addition => ⟨book.advance space addition code, sink, .ok ()⟩

end Book

/-- A decoder in the middle of its data. -/
structure LzwDecoder where
  space : CodeSpace
  book : Book
  queue : BitQueue := .empty
  /-- The code that ends the data has been read. -/
  finished : Bool := false

namespace LzwDecoder

/-- A decoder before its first byte. -/
def start (space : CodeSpace) : LzwDecoder := { space, book := .initial space }

/-- The width of the next code. -/
def width (decoder : LzwDecoder) : Nat := decoder.book.table.width

/-- Decode all codes that are complete with the bits in the queue and in the bytes. -/
def readCodes (space : CodeSpace) (book : Book) (queue : BitQueue) (bytes : List UInt8)
    (sink : Sink) : Reply LzwDecoder :=
  match hload : queue.load bytes with
  | (loaded, rest) =>
    match htake : loaded.take? book.table.width with
    | none => ⟨{ space, book, queue := loaded }, sink, .ok ()⟩
    | some (code, left) =>
      have : left.count + 8 * rest.length < queue.count + 8 * bytes.length := by
        have hcount := BitQueue.load_count queue bytes
        have htaken := BitQueue.count_of_take? htake
        have := book.table.width_pos
        simp only [hload] at hcount
        omega
      if code = space.clearCode then readCodes space (.initial space) left rest sink
      else if code = space.endCode then
        ⟨{ space, book, queue := left, finished := true }, sink, .ok ()⟩
      else
        match book.read space left.taken code sink with
        | ⟨next, sink, .ok ()⟩ => readCodes space next left rest sink
        | ⟨next, sink, .error fault⟩ =>
          ⟨{ space, book := next, queue := left }, sink, .error fault⟩
  termination_by queue.count + 8 * bytes.length

/-- Decode a block. After the end of the data nothing is looked at. -/
def feed (decoder : LzwDecoder) (block : List UInt8) (sink : Sink) : Reply LzwDecoder :=
  match decoder with
  | ⟨space, book, queue, true⟩ => ⟨⟨space, book, queue, true⟩, sink, .ok ()⟩
  | ⟨space, book, queue, false⟩ => readCodes space book queue block sink

/-- End the data. There is nothing to object to: bits that do not make a whole code fill up the
last byte, and the code that ends the data may be missing. -/
def finish (_ : LzwDecoder) : Except Fault Unit := .ok ()

end LzwDecoder

end PdfFilters
