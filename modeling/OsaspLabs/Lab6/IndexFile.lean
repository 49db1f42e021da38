import Mathlib.Data.List.Infix
import OsaspLabs.Library.Memory

/-! # Index files of LAB_6

The number of the records and the records. A time mark is kept as the bits of its `double`. -/

namespace OsaspLabs.Lab6

open Memory

structure IndexS where
  timeMark : UInt64
  recno : UInt64
  deriving DecidableEq

def IndexS.toBytes (order : ByteOrder) (record : IndexS) : List UInt8 :=
  order.bytes 8 record.timeMark.toNat ++ order.bytes 8 record.recno.toNat

def IndexS.ofBytes (order : ByteOrder) (bytes : List UInt8) : IndexS where
  timeMark := UInt64.ofNat (order.value (bytes.take 8))
  recno := UInt64.ofNat (order.value (bytes.drop 8))

/-- The bytes of the file with these records. -/
def indexFile (order : ByteOrder) (records : List IndexS) : List UInt8 :=
  order.bytes 8 records.length ++ records.flatMap (IndexS.toBytes order)

@[simp] theorem IndexS.length_toBytes (order : ByteOrder) (record : IndexS) :
    (record.toBytes order).length = 16 := by
  simp [IndexS.toBytes]

theorem length_flatMap_toBytes (order : ByteOrder) (records : List IndexS) :
    (records.flatMap (IndexS.toBytes order)).length = 16 * records.length := by
  simp [List.length_flatMap, Nat.mul_comm]

theorem length_indexFile (order : ByteOrder) (records : List IndexS) :
    (indexFile order records).length = 8 + 16 * records.length := by
  rw [indexFile, List.length_append, ByteOrder.length_bytes, length_flatMap_toBytes]

theorem IndexS.ofBytes_toBytes (order : ByteOrder) (record : IndexS) :
    IndexS.ofBytes order (record.toBytes order) = record := by
  have hlen : (order.bytes 8 record.timeMark.toNat).length = 8 := by simp
  have hmark : order.value (order.bytes 8 record.timeMark.toNat) = record.timeMark.toNat :=
    order.value_bytes record.timeMark.toNat_lt
  have hrecno : order.value (order.bytes 8 record.recno.toNat) = record.recno.toNat :=
    order.value_bytes record.recno.toNat_lt
  rw [IndexS.ofBytes, IndexS.toBytes, List.take_left' hlen, List.drop_left' hlen, hmark, hrecno,
    UInt64.ofNat_toNat, UInt64.ofNat_toNat]

theorem IndexS.toBytes_ofBytes (order : ByteOrder) {bytes : List UInt8}
    (h : bytes.length = 16) : (IndexS.ofBytes order bytes).toBytes order = bytes := by
  have htake : (bytes.take 8).length = 8 := by
    rw [List.length_take]
    omega
  have hdrop : (bytes.drop 8).length = 8 := by
    rw [List.length_drop]
    omega
  have hmark : (UInt64.ofNat (order.value (bytes.take 8))).toNat = order.value (bytes.take 8) :=
    UInt64.toNat_ofNat_of_lt (order.value_lt htake)
  have hrecno : (UInt64.ofNat (order.value (bytes.drop 8))).toNat = order.value (bytes.drop 8) :=
    UInt64.toNat_ofNat_of_lt (order.value_lt hdrop)
  rw [IndexS.toBytes, IndexS.ofBytes, hmark, hrecno, order.bytes_value htake,
    order.bytes_value hdrop, List.take_append_drop]

end OsaspLabs.Lab6
