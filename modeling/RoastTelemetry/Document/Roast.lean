import RoastTelemetry.Json.Record
import RoastTelemetry.Roast.Phases
import RoastTelemetry.Roast.Summary

/-!
# Results of a roast as documents

What is not known is written as null, and may be left out where fields have names.
-/

namespace RoastTelemetry

open Json

namespace Landmarks

/-- Writes landmarks. -/
def toJson (l : Landmarks) : Value :=
  .record [("dryEnd", .option .double l.dryEnd), ("firstCrack", .option .double l.firstCrack),
    ("secondCrack", .option .double l.secondCrack),
    ("developmentStart", .option .double l.developmentStart), ("drop", .option .double l.drop)]

/-- Reads landmarks. -/
def ofJson? (v : Value) : Option Landmarks := do
  let r ← v.record? ["dryEnd", "firstCrack", "secondCrack", "developmentStart", "drop"]
  let dryEnd ← r.optional "dryEnd" Value.double?
  let firstCrack ← r.optional "firstCrack" Value.double?
  let secondCrack ← r.optional "secondCrack" Value.double?
  let developmentStart ← r.optional "developmentStart" Value.double?
  let drop ← r.optional "drop" Value.double?
  return { dryEnd, firstCrack, secondCrack, developmentStart, drop }

end Landmarks

namespace PhaseStats

/-- Writes statistics. -/
def toJson (s : PhaseStats) : Value :=
  .record [("dryMean", .single s.dryMean), ("maillardMean", .single s.maillardMean),
    ("developmentMean", .single s.developmentMean), ("overallMean", .single s.overallMean),
    ("max", .single s.max), ("min", .single s.min), ("sampleCount", .nat s.sampleCount.toNat)]

/-- Reads statistics. -/
def ofJson? (v : Value) : Option PhaseStats := do
  let r ← v.record?
    ["dryMean", "maillardMean", "developmentMean", "overallMean", "max", "min", "sampleCount"]
  let dryMean ← r.required "dryMean" Value.single?
  let maillardMean ← r.required "maillardMean" Value.single?
  let developmentMean ← r.required "developmentMean" Value.single?
  let overallMean ← r.required "overallMean" Value.single?
  let max ← r.required "max" Value.single?
  let min ← r.required "min" Value.single?
  let sampleCount ← r.required "sampleCount" Value.uint64?
  return { dryMean, maillardMean, developmentMean, overallMean, max, min, sampleCount }

end PhaseStats

namespace Summary

/-- Writes a summary. -/
def toJson (s : Summary) : Value :=
  .record [("max_bean_temp", .option .single s.maxBeanTemp),
    ("total_time_seconds", .option .double s.totalTime),
    ("first_crack_time", .option .double s.firstCrack),
    ("development_time_ratio", .option .single s.developmentRatio)]

/-- Reads a summary. -/
def ofJson? (v : Value) : Option Summary := do
  let r ← v.record?
    ["max_bean_temp", "total_time_seconds", "first_crack_time", "development_time_ratio"]
  let maxBeanTemp ← r.optional "max_bean_temp" Value.single?
  let totalTime ← r.optional "total_time_seconds" Value.double?
  let firstCrack ← r.optional "first_crack_time" Value.double?
  let developmentRatio ← r.optional "development_time_ratio" Value.single?
  return { maxBeanTemp, totalTime, firstCrack, developmentRatio }

end Summary

end RoastTelemetry
