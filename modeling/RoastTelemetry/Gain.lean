import RoastTelemetry.Binary.Basic

/-!
# Controller gains

Nothing here computes with a gain. It is handed on from the controller to whoever reads the history,
with the bits that it came with, so a gain is a word: two gains are the same if their bits are, also
where both are no number. Only a document needs the value that the bits stand for, and there all
NaNs are one.
-/

namespace RoastTelemetry

/-- A gain of the controller, as the word of a single-precision value. -/
structure Gain where
  /-- Sign, exponent and fraction. -/
  bits : UInt32
deriving DecidableEq

namespace Gain

/-- The value that a gain stands for; gains that are no number all have the same. -/
def value (g : Gain) : Single := .ofBits g.bits.toNat

/-- The gain of a value; of NaN it is the one that is positive and quiet. -/
def ofValue (x : Single) : Gain := ⟨UInt32.ofNat x.toBits⟩

/-- Where a number is needed, a gain is its value. -/
instance : Coe Gain Single := ⟨value⟩

/-- Where a gain is needed, a number is its word. -/
instance : Coe Single Gain := ⟨ofValue⟩

instance : OfScientific Gain where
  ofScientific significand below exponent :=
    (OfScientific.ofScientific significand below exponent : Single)

end Gain

end RoastTelemetry
