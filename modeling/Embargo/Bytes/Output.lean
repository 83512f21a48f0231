/-!
Big-endian bytes of fixed-width words.
-/
namespace Embargo.Bytes

def u8 (v : UInt8) : List UInt8 := [v]

def u16 (v : UInt16) : List UInt8 := [(v >>> 8).toUInt8, v.toUInt8]

def u32 (v : UInt32) : List UInt8 :=
  [(v >>> 24).toUInt8, (v >>> 16).toUInt8, (v >>> 8).toUInt8, v.toUInt8]

def i32 (v : Int32) : List UInt8 := u32 v.toUInt32

def u64 (v : UInt64) : List UInt8 := u32 (v >>> 32).toUInt32 ++ u32 v.toUInt32

@[simp] theorem length_u16 (v : UInt16) : (u16 v).length = 2 := rfl

@[simp] theorem length_u32 (v : UInt32) : (u32 v).length = 4 := rfl

@[simp] theorem length_i32 (v : Int32) : (i32 v).length = 4 := rfl

@[simp] theorem length_u64 (v : UInt64) : (u64 v).length = 8 := rfl

end Embargo.Bytes
