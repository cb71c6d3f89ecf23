import Celeris.H1.Parser

/-!
# Chunked bodies (`internal/protocol/h1/chunked.go`)

`parseChunkedBody` reads one chunk from the front of a buffer, `peekChunk` only
its size line.
-/

namespace Celeris.H1

/-- The errors of the chunk parser. -/
inductive ChunkError where
  | invalidChunkSize
  | invalidChunkTerminator
  | trailerTooLarge
  | chunkLineTooLong
deriving DecidableEq, Repr

def maxChunkLineSize : Nat := 4096

def chunkSize (line : Bytes) : Option Nat :=
  parseHex64 (trimSpace (line.takeWhile (· ≠ semicolon)))

/-- `PeekChunk`: the declared size and the length of the size line with its
CRLF; `none` if the line is not complete. -/
def peekChunk (buf : Bytes) : Except ChunkError (Option (Nat × Nat)) :=
  match splitLine buf with
  | none =>
    -- A buffer that ends with the CR of a line of the largest size is within the bound.
    if buf.length > maxChunkLineSize + 1 ∨
        (buf.length = maxChunkLineSize + 1 ∧ buf.getLast? ≠ some cr) then
      .error .chunkLineTooLong
    else .ok none
  | some (line, _) =>
    if line.length > maxChunkLineSize then .error .chunkLineTooLong
    else
      match chunkSize line with
      | none => .error .invalidChunkSize
      | some size => .ok (some (size, line.length + 2))

/-- The bytes before the first empty line: the index of `\r\n\r\n`. -/
def findBlank : Bytes → Option Nat
  | a :: b :: c :: d :: bs =>
    if a = cr ∧ b = lf ∧ c = cr ∧ d = lf then some 0
    else (findBlank (b :: c :: d :: bs)).map (· + 1)
  | _ => none

/-- What `ParseChunkedBody` returns: nothing yet, a chunk, or the end of the
body, with the number of bytes consumed. -/
inductive Chunk where
  | needMore
  | data (chunk : Bytes) (consumed : Nat)
  | last (consumed : Nat)
deriving DecidableEq, Repr

/-- The terminating chunk: its trailer, behind a size line of `hdr` bytes. -/
def parseTrailer (hdr : Nat) (rest : Bytes) : Except ChunkError Chunk :=
  if [cr, lf].isPrefixOf rest then .ok (.last (hdr + 2))
  else
    match findBlank rest with
    | none => .ok .needMore
    | some stop =>
      if stop > maxHeaderSize then .error .trailerTooLarge else .ok (.last (hdr + stop + 4))

/-- A data chunk of `size` bytes behind a size line of `hdr` bytes. -/
def parseData (hdr size : Nat) (rest : Bytes) : Except ChunkError Chunk :=
  if rest.length < size + 2 then .ok .needMore
  else if (rest.drop size).take 2 ≠ [cr, lf] then .error .invalidChunkTerminator
  else .ok (.data (rest.take size) (hdr + size + 2))

/-- The part of `ParseChunkedBody` behind the search for the size line. -/
def readChunk (line rest : Bytes) : Except ChunkError Chunk :=
  if line.length > maxChunkLineSize then .error .chunkLineTooLong
  else
    match chunkSize line with
    | none => .error .invalidChunkSize
    | some 0 => parseTrailer (line.length + 2) rest
    | some (size + 1) => parseData (line.length + 2) (size + 1) rest

def parseChunkedBody (buf : Bytes) : Except ChunkError Chunk :=
  match splitLine buf with
  | none => .ok .needMore
  | some (line, rest) => readChunk line rest

end Celeris.H1
