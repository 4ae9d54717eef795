/-!
# CRC-32C

The table-driven checksum of the on-disk structures.
-/

namespace MiniFs

/-- One step of the table construction: shift out a bit of a reflected remainder. -/
def crc32cBit (remainder : UInt32) : UInt32 :=
  if remainder &&& 1 = 1 then (0x82F63B78 : UInt32) ^^^ (remainder >>> 1) else remainder >>> 1

/-- `g_table[index]`, as `crc32c_init_table` fills it. -/
def crc32cTable (index : UInt32) : UInt32 :=
  (List.range 8).foldl (fun remainder _ => crc32cBit remainder) index

/-- `crc32c_update`. -/
def crc32cUpdate (crc : UInt32) (bytes : List UInt8) : UInt32 :=
  ~~~ bytes.foldl
    (fun state byte => crc32cTable ((state ^^^ byte.toUInt32) &&& 0xFF) ^^^ (state >>> 8)) (~~~ crc)

/-- `crc32c`. -/
def crc32c (bytes : List UInt8) : UInt32 := crc32cUpdate 0 bytes

end MiniFs
