import NickDB.Constants
import NickDB.Support.ByteFile
import Mathlib.Data.Int.Notation
import Mathlib.Data.UInt

/-!
# The system calls under the page store

`pread`, `pwrite` and `lseek` on one open file.  The file is a flat array of
bytes.  A call at a negative offset fails.  Every other transfer follows a
schedule of outcomes, one for each `pread` or `pwrite` in the order of the
calls: it completes, stops short after some bytes, or fails.  Once the schedule
is used up every transfer completes, so the empty schedule is the file system
on which all transfers succeed.
-/

namespace NickDB

/-- What the file system does with one transfer. -/
inductive Transfer
  | full
  | short (count : ℕ)
  | failed
  deriving DecidableEq, Repr

/-- The number of bytes moved when `available` bytes could be. -/
def Transfer.count (available : ℕ) : Transfer → Option ℕ
  | .full => some available
  | .short k => some (min k available)
  | .failed => none

/-- The open file of a store, with the outcomes of the transfers to come. -/
@[ext] structure StoreFile where
  image : ByteFile UInt8
  schedule : List Transfer

/-- A file on which every transfer succeeds. -/
abbrev reliable (image : ByteFile UInt8) : StoreFile := ⟨image, []⟩

/-- The outcome of the next transfer. -/
def StoreFile.nextTransfer (file : StoreFile) : Transfer :=
  file.schedule.headD .full

/-- The file after one transfer has used up its outcome. -/
def StoreFile.advance (file : StoreFile) : StoreFile :=
  { file with schedule := file.schedule.tail }

/-- The position in the file that a non-negative offset names. -/
abbrev position (offset : ByteOffset) : ℕ := offset.toNatClampNeg

variable {n : ℕ}

/-- `pread(fd, dest, n, offset)`: the return value, the buffer and the file
afterwards.  A read at the end of the file moves the bytes there are. -/
def pread (file : StoreFile) (dest : Fin n → UInt8) (offset : ByteOffset) :
    ℤ × (Fin n → UInt8) × StoreFile :=
  if offset < 0 then (-1, dest, file)
  else
    let pos := position offset
    match file.nextTransfer.count (min n (file.image.length - pos)) with
    | none => (-1, dest, file.advance)
    | some k =>
        (k, fun i => if (i : ℕ) < k then file.image.byte (pos + i) else dest i,
          file.advance)

/-- `pwrite(fd, src, n, offset)`: the return value and the file afterwards. -/
def pwrite (file : StoreFile) (src : Fin n → UInt8) (offset : ByteOffset) :
    ℤ × StoreFile :=
  if offset < 0 then (-1, file)
  else
    match file.nextTransfer.count n with
    | none => (-1, file.advance)
    | some k =>
        let data : Fin (min k n) → UInt8 := fun i => src ⟨i, by omega⟩
        (k, { file.advance with
          image := file.image.write (position offset) data })

/-- `lseek(fd, offset, SEEK_SET) == -1`. -/
def lseekFails (offset : ByteOffset) : Bool := offset < 0

end NickDB
