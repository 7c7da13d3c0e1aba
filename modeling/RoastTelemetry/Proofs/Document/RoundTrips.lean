import RoastTelemetry.Proofs.Document.Results
import RoastTelemetry.Proofs.Document.Samples
import RoastTelemetry.Proofs.Document.Settings

/-!
# Data survives being written and read

What is stored or sent as a document comes back as it was, field by field: what is absent stays
absent, zero stays zero, and no band stays no band. The one condition is on the floating-point
values, which have to be finite and to come back one by one. Lists of such data come back too, and
so a batch of packed samples that went through a document unpacks to the same samples.
-/

namespace RoastTelemetry

open Json

section Lists

variable {α : Type} {write : α → Value} {read : Value → Option α} {floats : α → Floats}

theorem roundTrips_of_reads (hplain : ∀ a, (write a).Plain)
    (hread : ∀ {a}, (floats a).Finite → (floats a).Legible → read (write a) = some a) :
    RoundTrips write read floats :=
  fun a hfinite hlegible => (readsBack_iff (hplain a)).mpr (hread hfinite hlegible)

theorem roundTrips_list (hplain : ∀ a, (write a).Plain)
    (hread : ∀ {a}, (floats a).Finite → (floats a).Legible → read (write a) = some a) :
    RoundTrips (Value.list write) (Value.list? read) (fun xs => .join (xs.map floats)) := by
  refine roundTrips_of_reads (Value.plain_list hplain) ?_
  intro xs hfinite hlegible
  refine Value.list?_list ?_
  intro a ha
  have hmem : floats a ∈ xs.map floats := List.mem_map_of_mem ha
  exact hread (Floats.all_join.mp hfinite _ hmem) (Floats.all_join.mp hlegible _ hmem)

/-- Single pieces of data come back, and lists of them. -/
def RoundTripsWithLists (write : α → Value) (read : Value → Option α) (floats : α → Floats) :
    Prop :=
  RoundTrips write read floats ∧
    RoundTrips (Value.list write) (Value.list? read) (fun xs => .join (xs.map floats))

theorem roundTripsWithLists_of_reads (hplain : ∀ a, (write a).Plain)
    (hread : ∀ {a}, (floats a).Finite → (floats a).Legible → read (write a) = some a) :
    RoundTripsWithLists write read floats :=
  ⟨roundTrips_of_reads hplain hread, roundTrips_list hplain hread⟩

end Lists

/-- A batch of packed samples that went through a document is the batch. -/
theorem Packed.readsBack_batch {batch : List Packed}
    (hfinite : (Floats.join (batch.map Packed.floats)).Finite)
    (hlegible : (Floats.join (batch.map Packed.floats)).Legible) :
    ReadsBack Packed.batchToJson Packed.batchOfJson? batch :=
  roundTrips_list Packed.plain_toJson Packed.ofJson?_toJson batch hfinite hlegible

/--
**Every piece of data is read back from its document**, alone and in lists, if its floating-point
values are finite and come back. A batch that went through a document unpacks as it would have
without.
-/
theorem documents_round_trip :
    RoundTripsWithLists Sample.toJson Sample.ofJson? Sample.floats ∧
    RoundTripsWithLists Packed.toJson Packed.ofJson? Packed.floats ∧
    RoundTripsWithLists ChainState.toJson ChainState.ofJson? ChainState.floats ∧
    RoundTripsWithLists Landmarks.toJson Landmarks.ofJson? Landmarks.floats ∧
    RoundTripsWithLists TemperaturePoint.toJson TemperaturePoint.ofJson?
      TemperaturePoint.floats ∧
    RoundTripsWithLists RatePoint.toJson RatePoint.ofJson? RatePoint.floats ∧
    RoundTripsWithLists PhaseStats.toJson PhaseStats.ofJson? PhaseStats.floats ∧
    RoundTripsWithLists Summary.toJson Summary.ofJson? Summary.floats ∧
    RoundTripsWithLists Settings.toJson Settings.ofJson? Settings.floats ∧
    ∀ (c : Codec) (batch : List Packed) (state : ChainState),
      (Floats.join (batch.map Packed.floats)).Finite →
      (Floats.join (batch.map Packed.floats)).Legible →
      ((parse? (Packed.batchToJson batch).bytes).bind Packed.batchOfJson?).map
          (fun stored => (c.decode stored state, c.decodeAfter stored state)) =
        some (c.decode batch state, c.decodeAfter batch state) := by
  refine ⟨roundTripsWithLists_of_reads Sample.plain_toJson Sample.ofJson?_toJson_of_finite,
    roundTripsWithLists_of_reads Packed.plain_toJson Packed.ofJson?_toJson,
    roundTripsWithLists_of_reads ChainState.plain_toJson ChainState.ofJson?_toJson,
    roundTripsWithLists_of_reads Landmarks.plain_toJson Landmarks.ofJson?_toJson,
    roundTripsWithLists_of_reads TemperaturePoint.plain_toJson TemperaturePoint.ofJson?_toJson,
    roundTripsWithLists_of_reads RatePoint.plain_toJson RatePoint.ofJson?_toJson,
    roundTripsWithLists_of_reads PhaseStats.plain_toJson PhaseStats.ofJson?_toJson,
    roundTripsWithLists_of_reads Summary.plain_toJson Summary.ofJson?_toJson,
    roundTripsWithLists_of_reads Settings.plain_toJson Settings.ofJson?_toJson, ?_⟩
  intro c batch state hfinite hlegible
  have hstored : (parse? (Packed.batchToJson batch).bytes).bind Packed.batchOfJson? = some batch :=
    Packed.readsBack_batch hfinite hlegible
  rw [hstored, Option.map_some]

/-- Zero, what is absent and a missing band come back as such. -/
theorem documents_round_trip_with_zeros :
    ReadsBack (Value.list Sample.toJson) (Value.list? Sample.ofJson?)
      [{ timestamp := 1.5, beanTemp := some 0, heater := some 0, heaterOn := some false },
        { timestamp := 2.5, envTemp := some 187.25, kp := some 2.5 }, {}] ∧
    ReadsBack Packed.batchToJson Packed.batchOfJson?
      [{ offset := 0, beanTemp := some 20.5 }, { offset := 1, beanTemp := some 0 }] ∧
    ReadsBack Settings.toJson Settings.ofJson? { rise := { band := none } } := by
  obtain ⟨⟨-, hsamples⟩, ⟨-, hpacked⟩, -, -, -, -, -, -, ⟨hsettings, -⟩, -⟩ := documents_round_trip
  exact ⟨hsamples _ (by decide +kernel) (by decide +kernel),
    hpacked _ (by decide +kernel) (by decide +kernel),
    hsettings _ (by decide +kernel) (by decide +kernel)⟩

end RoastTelemetry
