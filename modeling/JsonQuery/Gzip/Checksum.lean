/-!
The checksum of gzip members: CRC-32 with the reversed polynomial `EDB88320`.
-/

namespace JsonQuery.Gzip

def crcByte (crc : UInt32) (byte : UInt8) : UInt32 :=
  (List.range 8).foldl
    (fun crc _ => if crc &&& 1 = 1 then (crc >>> 1) ^^^ 0xEDB88320 else crc >>> 1)
    (crc ^^^ byte.toUInt32)

def crc32 (bytes : List UInt8) : Nat := ((bytes.foldl crcByte 0xFFFFFFFF) ^^^ 0xFFFFFFFF).toNat

end JsonQuery.Gzip
