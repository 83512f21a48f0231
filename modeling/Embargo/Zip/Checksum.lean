/-!
The cyclic redundancy check of zip archives, with the reflected polynomial
`0xEDB88320`.
-/
namespace Embargo.Zip.Checksum

/-- One bit shifted out of a remainder. -/
def shift (r : UInt32) : UInt32 :=
  if r &&& 1 = 1 then (r >>> 1) ^^^ 0xEDB88320 else r >>> 1

/-- The remainder of a byte on its own. -/
def ofByte (n : Nat) : UInt32 := Nat.repeat shift 8 (UInt32.ofNat n)

def table : Array UInt32 := Array.ofFn fun i : Fin 256 => ofByte i

def step (r : UInt32) (b : UInt8) : UInt32 :=
  table.getD (r.toUInt8 ^^^ b).toNat 0 ^^^ (r >>> 8)

def ofData (data : ByteArray) : UInt32 := ~~~(data.foldl step 0xFFFFFFFF)

def ofBytes (bytes : List UInt8) : UInt32 := ofData ⟨bytes.toArray⟩

end Embargo.Zip.Checksum
