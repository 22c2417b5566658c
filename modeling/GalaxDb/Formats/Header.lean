import GalaxDb.Lib.Decoding

/-!
# Versions of the files

Every kind of file has a magic number and a range of versions that this engine reads. Most
files begin with a header of sixteen bytes: the magic number, the version and the engine that
wrote the file.
-/

namespace GalaxDb.Formats

open Bytes

/-- The errors of the readers. A text is the `Internal` error; an `io::Error` of the kind
`InvalidData` carries the text of another error. -/
inductive ReadError where
  | unexpectedEof
  | invalidData (reason : ReadError)
  | internal (message : String)
  | invalidMagic (found : Nat)
  | checksumMismatch (expected actual : Nat)
  | formatTooOld (artifact : String) (found minReadable : Nat)
  | formatTooNew (artifact : String) (found current : Nat)
  deriving DecidableEq

/-- What a reader gives back. -/
abbrev Outcome (α : Type) := Decoded ReadError α

structure FormatSupport where
  artifact : String
  magic : Bytes
  minReadable : Nat
  currentWrite : Nat

namespace FormatSupport

def check (support : FormatSupport) (found : Nat) : Outcome Unit :=
  if found < support.minReadable then
    .error (.formatTooOld support.artifact found support.minReadable)
  else if support.currentWrite < found then
    .error (.formatTooNew support.artifact found support.currentWrite)
  else .ok ()

def hnsw : FormatSupport := ⟨"HNSW index", ascii "GHNS", 1, 1⟩
def diskann : FormatSupport := ⟨"DiskANN index", ascii "GDAN", 1, 1⟩

end FormatSupport

structure WriterVersion where
  major : Nat
  minor : Nat
  patch : Nat
  deriving DecidableEq

def formatHeaderSize : Nat := 16

end GalaxDb.Formats
