/-!
# Comparing contents

Two contents are compared as they arrive, in chunks whose ends need not
fall together: in every step as much is compared as both sides have.
-/

namespace Vendoring

abbrev Chunk := List UInt8

/-- A content cut into chunks of `size` bytes, the last one excepted. The
first number bounds how many there are. -/
def chunksUpTo (size : Nat) : Nat → Chunk → List Chunk
  | 0, _ => []
  | _ + 1, [] => []
  | n + 1, bytes => bytes.take size :: chunksUpTo size n (bytes.drop size)

/-- How many bytes are read at a time. -/
def chunkSize : Nat := 8192

def chunks (bytes : ByteArray) : List Chunk :=
  chunksUpTo chunkSize bytes.size bytes.toList

/-- What is left of a stream of chunks behind the first `n` bytes of its
first chunk. -/
def afterChunk (n : Nat) (chunk : Chunk) (rest : List Chunk) : List Chunk :=
  if n < chunk.length then chunk.drop n :: rest else rest

/-- Compares two streams of chunks. Every step uses up a chunk on at least
one side, so their number bounds the steps. -/
def sameStreamUpTo : Nat → List Chunk → List Chunk → Bool
  | _, [], [] => true
  | _, [], _ :: _ => false
  | _, _ :: _, [] => false
  | 0, _ :: _, _ :: _ => false
  | steps + 1, a :: as, b :: bs =>
    let n := min a.length b.length
    a.take n == b.take n && sameStreamUpTo steps (afterChunk n a as) (afterChunk n b bs)

def sameStream (as bs : List Chunk) : Bool :=
  sameStreamUpTo (as.length + bs.length) as bs

end Vendoring
