import Embargo.Zip.Basic
import Embargo.Zip.Checksum
import Embargo.Zip.Deflate

/-!
Streams of packed data. Data is taken and expanded only as far as it is read; where
reading meets its end, it has to have its checksum.
-/
namespace Embargo.Zip.Stream

/-- At most so many bytes of data, whose end is met only where more are asked for. -/
def checked (checksum : UInt32) (data : ByteArray) (count : Nat) :
    Except StorageFault ByteArray :=
  if count ≤ data.size then .ok (data.extract 0 count)
  else if Checksum.ofData data = checksum then .ok data
  else .error .checksum

/-- Data that is stored as it is, from one offset to another. -/
def stored (data : ByteArray) (start stop : Nat) (checksum : UInt32) : Stream where
  take count := checked checksum (data.extract start (min stop (start + count))) count

/-- At most so many bytes of data that cannot be expanded any further. Corruption comes
with the last byte already, another stop only where more are asked for. -/
def stopped (cause : Deflate.Stop) (data : ByteArray) (count : Nat) :
    Except StorageFault ByteArray :=
  if data.size < count ∨ (cause = .corrupt ∧ data.size = count ∧ count ≠ 0) then
    .error (if cause = .truncated then .incomplete else .corrupt)
  else .ok (data.extract 0 count)

/-- Compressed data, from one offset to another. -/
def deflated (data : ByteArray) (start stop : Nat) (checksum : UInt32) : Stream where
  take count :=
    match Deflate.expand (data.extract start stop) count with
    | (bytes, none) => checked checksum bytes count
    | (bytes, some cause) => stopped cause bytes count

end Embargo.Zip.Stream
