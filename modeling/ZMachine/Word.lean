/-
# Words and bytes

A word is two bytes, the high one first.  `Word.ofBytes` joins them, `Word.high` and `Word.low`
take them apart, and `signed` reads a word as a number in `-32768 … 32767`.

Main facts: `ofBytes_high_low`, `high_ofBytes`, `low_ofBytes`.
-/

namespace ZMachine
namespace Word

/-- The word with the given high and low byte. -/
def ofBytes (high low : UInt8) : UInt16 :=
  high.toUInt16 * 256 + low.toUInt16

/-- The high byte of a word. -/
def high (w : UInt16) : UInt8 :=
  (w / 256).toUInt8

/-- The low byte of a word. -/
def low (w : UInt16) : UInt8 :=
  w.toUInt8

/-- The word read as a two's complement number. -/
def signed (w : UInt16) : Int :=
  w.toInt16.toInt

/-- The low sixteen bits of a whole number. -/
def ofInt (i : Int) : UInt16 :=
  UInt16.ofNat (i % 65536).toNat

/-- The word of a truth value: one for true and zero for false. -/
def ofBool (b : Bool) : UInt16 :=
  if b then 1 else 0

/-- The number that a joined pair stands for. -/
theorem toNat_ofBytes (h l : UInt8) : (ofBytes h l).toNat = h.toNat * 256 + l.toNat := by
  have := h.toNat_lt
  have := l.toNat_lt
  simp [ofBytes]
  omega

/-- The number that the high byte stands for. -/
theorem toNat_high (w : UInt16) : (high w).toNat = w.toNat / 256 := by
  have := w.toNat_lt
  simp [high]
  omega

/-- The number that the low byte stands for. -/
theorem toNat_low (w : UInt16) : (low w).toNat = w.toNat % 256 := by
  simp [low]

/-- Splitting a word and joining its bytes gives the word back. -/
@[simp]
theorem ofBytes_high_low (w : UInt16) : ofBytes (high w) (low w) = w := by
  apply UInt16.toNat_inj.mp
  rw [toNat_ofBytes, toNat_high, toNat_low]
  omega

/-- The high byte of a joined pair is its first byte. -/
@[simp]
theorem high_ofBytes (h l : UInt8) : high (ofBytes h l) = h := by
  have := l.toNat_lt
  apply UInt8.toNat_inj.mp
  rw [toNat_high, toNat_ofBytes]
  omega

/-- The low byte of a joined pair is its second byte. -/
@[simp]
theorem low_ofBytes (h l : UInt8) : low (ofBytes h l) = l := by
  have := l.toNat_lt
  apply UInt8.toNat_inj.mp
  rw [toNat_low, toNat_ofBytes]
  omega

end Word
end ZMachine
