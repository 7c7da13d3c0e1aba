import RoastTelemetry.Document.Curve
import RoastTelemetry.Document.Roast
import RoastTelemetry.Proofs.Document.Floats

/-!
# Points and results are read as they were written

Every field of these records is written, what is not known as null. So each is read back from what
stands under its own name.
-/

namespace RoastTelemetry

open Json

namespace TemperaturePoint

/-- The floating-point values in a point. -/
def floats (p : TemperaturePoint) : Floats := ⟨[p.temperature], [p.time]⟩

theorem plain_toJson (p : TemperaturePoint) : p.toJson.Plain := by
  refine Value.plain_record ?_
  simp only [List.forall_mem_cons]
  exact ⟨Value.writesFinite_double.plain _, Value.writesFinite_single.plain _,
    List.forall_mem_nil _⟩

theorem ofJson?_toJson {p : TemperaturePoint} (hfinite : p.floats.Finite)
    (hlegible : p.floats.Legible) : ofJson? p.toJson = some p := by
  obtain ⟨hsingles, hdoubles⟩ := Floats.reads hfinite hlegible
  obtain ⟨-, htemperature⟩ := hsingles p.temperature List.mem_cons_self
  obtain ⟨-, htime⟩ := hdoubles p.time List.mem_cons_self
  unfold ofJson?
  refine Record.bind_field (Value.record?_record (by simp) (by simp)) ?_
  refine Record.bind_field ((Record.required_of_get? rfl).trans htime) ?_
  refine Record.bind_field ((Record.required_of_get? rfl).trans htemperature) ?_
  rfl

end TemperaturePoint

namespace RatePoint

/-- The floating-point values in a point. -/
def floats (p : RatePoint) : Floats := ⟨[p.temperature, p.rate], [p.time]⟩

theorem plain_toJson (p : RatePoint) : p.toJson.Plain := by
  refine Value.plain_record ?_
  simp only [List.forall_mem_cons]
  exact ⟨Value.writesFinite_double.plain _, Value.writesFinite_single.plain _,
    Value.writesFinite_single.plain _, List.forall_mem_nil _⟩

theorem ofJson?_toJson {p : RatePoint} (hfinite : p.floats.Finite) (hlegible : p.floats.Legible) :
    ofJson? p.toJson = some p := by
  obtain ⟨hsingles, hdoubles⟩ := Floats.reads hfinite hlegible
  obtain ⟨-, htime⟩ := hdoubles p.time List.mem_cons_self
  simp only [floats, List.forall_mem_cons] at hsingles
  obtain ⟨⟨-, htemperature⟩, ⟨-, hrate⟩, -⟩ := hsingles
  unfold ofJson?
  refine Record.bind_field (Value.record?_record (by simp) (by simp)) ?_
  refine Record.bind_field ((Record.required_of_get? rfl).trans htime) ?_
  refine Record.bind_field ((Record.required_of_get? rfl).trans htemperature) ?_
  refine Record.bind_field ((Record.required_of_get? rfl).trans hrate) ?_
  rfl

end RatePoint

namespace Landmarks

/-- The floating-point values in landmarks. -/
def floats (l : Landmarks) : Floats where
  doubles := l.dryEnd.toList ++ l.firstCrack.toList ++ l.secondCrack.toList
    ++ l.developmentStart.toList ++ l.drop.toList

theorem plain_toJson (l : Landmarks) : l.toJson.Plain := by
  have hdouble := Value.plain_option Value.writesFinite_double.plain
  refine Value.plain_record ?_
  simp only [List.forall_mem_cons]
  exact ⟨hdouble _, hdouble _, hdouble _, hdouble _, hdouble _, List.forall_mem_nil _⟩

theorem ofJson?_toJson {l : Landmarks} (hfinite : l.floats.Finite) (hlegible : l.floats.Legible) :
    ofJson? l.toJson = some l := by
  obtain ⟨-, hdoubles⟩ := Floats.reads hfinite hlegible
  simp only [floats, List.forall_mem_append, Option.mem_toList] at hdoubles
  obtain ⟨⟨⟨⟨hdryEnd, hfirstCrack⟩, hsecondCrack⟩, hdevelopmentStart⟩, hdrop⟩ := hdoubles
  unfold ofJson?
  refine Record.bind_field (Value.record?_record (by simp) (by simp)) ?_
  refine Record.bind_field ((Record.optional_of_get? rfl).trans (Value.option?_option hdryEnd)) ?_
  refine Record.bind_field
    ((Record.optional_of_get? rfl).trans (Value.option?_option hfirstCrack)) ?_
  refine Record.bind_field
    ((Record.optional_of_get? rfl).trans (Value.option?_option hsecondCrack)) ?_
  refine Record.bind_field
    ((Record.optional_of_get? rfl).trans (Value.option?_option hdevelopmentStart)) ?_
  refine Record.bind_field ((Record.optional_of_get? rfl).trans (Value.option?_option hdrop)) ?_
  rfl

end Landmarks

namespace PhaseStats

/-- The floating-point values in statistics. -/
def floats (s : PhaseStats) : Floats where
  singles := [s.dryMean, s.maillardMean, s.developmentMean, s.overallMean, s.max, s.min]

theorem plain_toJson (s : PhaseStats) : s.toJson.Plain := by
  have hsingle := Value.writesFinite_single.plain
  refine Value.plain_record ?_
  simp only [List.forall_mem_cons]
  exact ⟨hsingle _, hsingle _, hsingle _, hsingle _, hsingle _, hsingle _, Value.plain_number _,
    List.forall_mem_nil _⟩

theorem ofJson?_toJson {s : PhaseStats} (hfinite : s.floats.Finite)
    (hlegible : s.floats.Legible) : ofJson? s.toJson = some s := by
  obtain ⟨hsingles, -⟩ := Floats.reads hfinite hlegible
  simp only [floats, List.forall_mem_cons] at hsingles
  obtain ⟨⟨-, hdryMean⟩, ⟨-, hmaillardMean⟩, ⟨-, hdevelopmentMean⟩, ⟨-, hoverallMean⟩, ⟨-, hmax⟩,
    ⟨-, hmin⟩, -⟩ := hsingles
  unfold ofJson?
  refine Record.bind_field (Value.record?_record (by simp) (by simp)) ?_
  refine Record.bind_field ((Record.required_of_get? rfl).trans hdryMean) ?_
  refine Record.bind_field ((Record.required_of_get? rfl).trans hmaillardMean) ?_
  refine Record.bind_field ((Record.required_of_get? rfl).trans hdevelopmentMean) ?_
  refine Record.bind_field ((Record.required_of_get? rfl).trans hoverallMean) ?_
  refine Record.bind_field ((Record.required_of_get? rfl).trans hmax) ?_
  refine Record.bind_field ((Record.required_of_get? rfl).trans hmin) ?_
  refine Record.bind_field
    ((Record.required_of_get? rfl).trans (Value.uint64?_nat s.sampleCount)) ?_
  rfl

end PhaseStats

namespace Summary

/-- The floating-point values in a summary. -/
def floats (s : Summary) : Floats where
  singles := s.maxBeanTemp.toList ++ s.developmentRatio.toList
  doubles := s.totalTime.toList ++ s.firstCrack.toList

theorem plain_toJson (s : Summary) : s.toJson.Plain := by
  have hsingle := Value.plain_option Value.writesFinite_single.plain
  have hdouble := Value.plain_option Value.writesFinite_double.plain
  refine Value.plain_record ?_
  simp only [List.forall_mem_cons]
  exact ⟨hsingle _, hdouble _, hdouble _, hsingle _, List.forall_mem_nil _⟩

theorem ofJson?_toJson {s : Summary} (hfinite : s.floats.Finite) (hlegible : s.floats.Legible) :
    ofJson? s.toJson = some s := by
  obtain ⟨hsingles, hdoubles⟩ := Floats.reads hfinite hlegible
  simp only [floats, List.forall_mem_append, Option.mem_toList] at hsingles hdoubles
  obtain ⟨hmaxBeanTemp, hdevelopmentRatio⟩ := hsingles
  obtain ⟨htotalTime, hfirstCrack⟩ := hdoubles
  unfold ofJson?
  refine Record.bind_field (Value.record?_record (by simp) (by simp)) ?_
  refine Record.bind_field
    ((Record.optional_of_get? rfl).trans (Value.option?_option hmaxBeanTemp)) ?_
  refine Record.bind_field
    ((Record.optional_of_get? rfl).trans (Value.option?_option htotalTime)) ?_
  refine Record.bind_field
    ((Record.optional_of_get? rfl).trans (Value.option?_option hfirstCrack)) ?_
  refine Record.bind_field
    ((Record.optional_of_get? rfl).trans (Value.option?_option hdevelopmentRatio)) ?_
  rfl

end Summary

end RoastTelemetry
