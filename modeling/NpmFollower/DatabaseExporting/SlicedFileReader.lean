import NpmFollower.Library.Slices
import NpmFollower.DatabaseExporting.Avc

/-! # The sliced file reader

`SlicedFileReader` reads slices of several files as one. Its position is the
source that it is in, whose file is open, and the position in that file.
-/

namespace NpmFollower.DatabaseExporting

open Slices

/-- A file opened with mode `rb`. -/
structure OpenFile where
  content : Bytes
  position : ℤ
  deriving DecidableEq, Repr

def Disk.openRb (disk : Disk) (path : Path) : Except AvcError OpenFile :=
  match disk path with
  | .regular content => .ok ⟨content, 0⟩
  | .missing => .error .fileNotFoundError
  | .other => .error (.exception "[Errno 21] Is a directory")

def OpenFile.seek (f : OpenFile) (offset : ℤ) : Except AvcError OpenFile :=
  if offset < 0 then .error (.exception "[Errno 22] Invalid argument")
  else .ok { f with position := offset }

/-- The bytes that `f.read` finds, of at most `size`. -/
def OpenFile.bytes (f : OpenFile) (size : ℤ) : Bytes :=
  (f.content.drop f.position.toNat).take size.toNat

def OpenFile.skip (f : OpenFile) (size : ℤ) : OpenFile :=
  { f with position := f.position + (f.bytes size).length }

structure SlicedFileReader where
  sources : List ReadSource
  currentSource : Fin sources.length
  f : OpenFile
  deriving DecidableEq, Repr

def lengths (sources : List ReadSource) : List ℤ := sources.map ReadSource.numBytes

def cumulativeLengths (sources : List ReadSource) : List ℤ := cumulative (lengths sources)

/-- `self.cumulative_lengths[-1]` -/
def totalLength (sources : List ReadSource) : ℤ :=
  (cumulativeLengths sources).getD sources.length 0

def findSourceIdx (sources : List ReadSource) (offset : ℤ) :
    Except AvcError (Option (Fin sources.length)) :=
  let i := bisectRight (cumulativeLengths sources) offset
  let idx : ℤ := i - 1
  if idx = (cumulativeLengths sources).length - 1 then .ok none
  else if h : 0 ≤ idx ∧ idx < sources.length then .ok (some ⟨idx.toNat, by omega⟩)
  else .error .assertionError

namespace SlicedFileReader

def init (disk : Disk) (sources : List ReadSource) : Except AvcError SlicedFileReader :=
  if h : 0 < sources.length then do
    let f ← disk.openRb sources[0].localPath
    let f ← f.seek sources[0].offset
    return ⟨sources, ⟨0, h⟩, f⟩
  else .error .assertionError

variable (r : SlicedFileReader)

def source : ReadSource := r.sources[r.currentSource]

def last : Fin r.sources.length := ⟨r.sources.length - 1, by have := r.currentSource.isLt; omega⟩

/-- `self.cumulative_lengths[i]` -/
def startOf (i : Fin r.sources.length) : ℤ := (cumulativeLengths r.sources).getD i 0

def tell : ℤ := r.startOf r.currentSource + r.f.position - r.source.offset

/-- The source that holds an offset, the last one for offsets from the end on. -/
def destination (offset : ℤ) : Except AvcError (Fin r.sources.length) := do
  let found ← findSourceIdx r.sources offset
  return found.getD r.last

/-- The file of a source, which is opened only if another one is open. -/
def reopened (disk : Disk) (dst : Fin r.sources.length) : Except AvcError OpenFile :=
  if dst ≠ r.currentSource then disk.openRb r.sources[dst].localPath else .ok r.f

/-- `seek` with `whence` 0. -/
def seekTo (disk : Disk) (offset : ℤ) : Except AvcError (ℤ × SlicedFileReader) := do
  let dst ← r.destination offset
  let f ← r.reopened disk dst
  let f ← f.seek (offset + r.sources[dst].offset - r.startOf dst)
  return (f.position + r.startOf dst - r.sources[dst].offset,
    { r with currentSource := dst, f := f })

def seek (disk : Disk) (offset whence : ℤ) : Except AvcError (ℤ × SlicedFileReader) :=
  if whence = 0 then r.seekTo disk offset
  else if whence = 1 then r.seekTo disk (r.tell + offset)
  else if whence = 2 then r.seekTo disk (totalLength r.sources + offset)
  else .error (.exception "Unknown whence")

/-- The end of a turn of the loop: on to the source that the position is now in. -/
def advance (disk : Disk) : Except AvcError SlicedFileReader := do
  let dst ← r.destination r.tell
  if dst ≠ r.currentSource then
    let f ← disk.openRb r.sources[dst].localPath
    let f ← f.seek r.sources[dst].offset
    return { r with currentSource := dst, f := f }
  else return r

/-- One turn of the loop of `read`. -/
def readTurn (disk : Disk) (remaining : ℤ) : Except AvcError (Bytes × SlicedFileReader) :=
  let currentSourceRemaining := r.source.numBytes + r.source.offset - r.f.position
  if currentSourceRemaining ≤ 0 then .error .assertionError
  else
    let toRead := min remaining currentSourceRemaining
    let tmpBytes := r.f.bytes toRead
    if (tmpBytes.length : ℤ) ≠ toRead then .error .assertionError
    else do
      let r ← advance { r with f := r.f.skip toRead } disk
      return (tmpBytes, r)

/-- The turns of the loop while `num_read < size`. -/
def readTurns (disk : Disk) (size : ℤ) :
    ℕ → ℤ → Bytes → SlicedFileReader → Except AvcError (Bytes × SlicedFileReader)
  | fuel, numRead, buffer, r =>
    if numRead < size then
      match fuel with
      | 0 => .error .endless
      | fuel + 1 => do
        let (tmpBytes, r) ← r.readTurn disk (size - numRead)
        readTurns disk size fuel (numRead + tmpBytes.length) (buffer ++ tmpBytes) r
    else .ok (buffer, r)

def clampedSize (size : ℤ) : ℤ :=
  if size = -1 then totalLength r.sources - r.tell else min size (totalLength r.sources - r.tell)

/-- Each turn reads a byte at least, so that `size` turns are enough. -/
def read (disk : Disk) (size : ℤ) : Except AvcError (Bytes × SlicedFileReader) :=
  readTurns disk (r.clampedSize size) (r.clampedSize size).toNat 0 [] r

end SlicedFileReader

/-- What `__getstate__` keeps; `cumulative_lengths` follows from the sources. -/
structure PickledReader where
  sources : List ReadSource
  currentSource : Fin sources.length
  fTell : ℤ

def SlicedFileReader.getstate (r : SlicedFileReader) : PickledReader :=
  ⟨r.sources, r.currentSource, r.f.position⟩

def PickledReader.setstate (disk : Disk) (state : PickledReader) :
    Except AvcError SlicedFileReader := do
  let f ← disk.openRb state.sources[state.currentSource].localPath
  let f ← f.seek state.fTell
  return ⟨state.sources, state.currentSource, f⟩

/-! ## Operations on a reader -/

inductive ReaderOp where
  | read (size : ℤ)
  | seek (offset whence : ℤ)
  | tell
  | pickle
  deriving DecidableEq, Repr

inductive ReaderResult where
  | bytes (buffer : Bytes)
  | position (p : ℤ)
  | copied
  deriving DecidableEq, Repr

def SlicedFileReader.perform (disk : Disk) (r : SlicedFileReader) :
    ReaderOp → Except AvcError (ReaderResult × SlicedFileReader)
  | .read size => do
    let (buffer, r) ← r.read disk size
    return (.bytes buffer, r)
  | .seek offset whence => do
    let (p, r) ← r.seek disk offset whence
    return (.position p, r)
  | .tell => .ok (.position r.tell, r)
  | .pickle => do
    let r ← r.getstate.setstate disk
    return (.copied, r)

/-- The results of a sequence of operations, each on the reader the last one left. -/
def performAll {ρ : Type} (perform : ρ → ReaderOp → Except AvcError (ReaderResult × ρ)) :
    ρ → List ReaderOp → Except AvcError (List ReaderResult)
  | _, [] => .ok []
  | r, op :: ops => do
    let (result, r) ← perform r op
    let results ← performAll perform r ops
    return result :: results

def SlicedFileReader.results (disk : Disk) (sources : List ReadSource) (ops : List ReaderOp) :
    Except AvcError (List ReaderResult) := do
  let r ← init disk sources
  performAll (perform disk) r ops

end NpmFollower.DatabaseExporting
