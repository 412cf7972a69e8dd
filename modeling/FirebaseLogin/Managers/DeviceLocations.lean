import FirebaseLogin.Client.State
import FirebaseLogin.Library.Binary64
import FirebaseLogin.Library.KeyedMap

/-!
The two listeners LocationManager starts: the snapshot listener on the locations
collection, called any number of times, and the one query of the users. Both
enter what they read into a dictionary and remove nothing from it.

A number reaches Swift as an NSNumber, so the cast `as? Double` also takes a
boolean, and refuses an integer that no double equals.
-/

namespace FirebaseLogin

open Execution KeyedMap

/-- The cast `as? Double` of a field that may be absent. -/
def asDouble : Option Value → Option (BitVec 64)
  | some (.double bits) => some bits
  | some (.integer i) => Binary64.exactly i
  | some (.boolean b) => Binary64.exactly (if b then 1 else 0)
  | _ => none

def coordinate? (data : Document) : Option CLLocationCoordinate2D :=
  match asDouble (data.lookup "latitude"), asDouble (data.lookup "longitude") with
  | some latitude, some longitude => some ⟨latitude, longitude⟩
  | _, _ => none

section Numbers

def IsNumber : Option Value → Prop
  | some (.integer _) | some (.double _) => True
  | _ => False

def HasNumbers (data : Document) : Prop :=
  IsNumber (data.lookup "latitude") ∧ IsNumber (data.lookup "longitude")

instance : DecidablePred IsNumber
  | some (.integer _) | some (.double _) => isTrue trivial
  | none | some .null | some (.boolean _) | some (.timestamp _) | some (.string _)
  | some (.bytes _) | some (.reference _) | some (.geoPoint _ _) => isFalse id

instance : DecidablePred HasNumbers := fun _ => inferInstanceAs (Decidable (_ ∧ _))

def IsBoolean (x : Option Value) : Prop := ∃ b, x = some (.boolean b)

/-- The double a field has the value of. A boolean has that of 0 or 1. -/
def CastsTo : Option Value → BitVec 64 → Prop
  | some (.double bits), d => d = bits
  | some (.integer i), d => Binary64.Represents d i
  | some (.boolean b), d => Binary64.Represents d (if b then 1 else 0)
  | none, _ | some .null, _ | some (.timestamp _), _ | some (.string _), _
  | some (.bytes _), _ | some (.reference _), _ | some (.geoPoint _ _), _ => False

/-- The coordinate has the values of the document's latitude and longitude. -/
def CastsAs (data : Document) (location : CLLocationCoordinate2D) : Prop :=
  CastsTo (data.lookup "latitude") location.latitude ∧
    CastsTo (data.lookup "longitude") location.longitude

/-- The coordinate of a document whose latitude and longitude are numbers. -/
def IsCoordinate (data : Document) (location : CLLocationCoordinate2D) : Prop :=
  HasNumbers data ∧ CastsAs data location

def HasCasts (data : Document) : Prop := ∃ location, CastsAs data location

/-- An integer that no double equals. -/
def IsInexact (x : Option Value) : Prop :=
  ∃ i, x = some (.integer i) ∧ ∀ d, ¬ Binary64.Represents d i

/-- The cast and the type of the fields disagree: a boolean passes for a number,
or a number is refused. -/
def Miscast (data : Document) : Prop :=
  (HasCasts data ∧
    (IsBoolean (data.lookup "latitude") ∨ IsBoolean (data.lookup "longitude"))) ∨
  (HasNumbers data ∧
    (IsInexact (data.lookup "latitude") ∨ IsInexact (data.lookup "longitude")))

variable {data : Document} {x : Option Value}

theorem asDouble_eq_some {d : BitVec 64} : asDouble x = some d ↔ CastsTo x d := by
  match x with
  | some (.double bits) => simp [asDouble, CastsTo, eq_comm]
  | some (.integer i) => exact Binary64.represents_iff.symm
  | some (.boolean b) => exact Binary64.represents_iff.symm
  | none | some .null | some (.timestamp _) | some (.string _) | some (.bytes _)
  | some (.reference _) | some (.geoPoint _ _) => simp [asDouble, CastsTo]

theorem coordinate?_eq_some {location : CLLocationCoordinate2D} :
    coordinate? data = some location ↔ CastsAs data location := by
  rw [CastsAs, ← asDouble_eq_some, ← asDouble_eq_some]
  unfold coordinate?
  split
  · next latitude longitude hlatitude hlongitude =>
      rw [hlatitude, hlongitude]
      constructor
      · rintro ⟨⟩
        exact ⟨rfl, rfl⟩
      · rintro ⟨⟨⟩, ⟨⟩⟩
        rfl
  · next hnone =>
      refine ⟨nofun, fun h => ?_⟩
      exact absurd h.2 (hnone _ _ h.1)

theorem coordinate?_isSome : (coordinate? data).isSome ↔ HasCasts data :=
  Option.isSome_iff_exists.trans (exists_congr fun _ => coordinate?_eq_some)

instance : DecidablePred HasCasts := fun _ => decidable_of_iff _ coordinate?_isSome

theorem hasCasts_iff : HasCasts data ↔ (∃ latitude, CastsTo (data.lookup "latitude") latitude) ∧
    ∃ longitude, CastsTo (data.lookup "longitude") longitude := by
  constructor
  · rintro ⟨location, hlatitude, hlongitude⟩
    exact ⟨⟨_, hlatitude⟩, _, hlongitude⟩
  · rintro ⟨⟨latitude, hlatitude⟩, longitude, hlongitude⟩
    exact ⟨⟨latitude, longitude⟩, hlatitude, hlongitude⟩

theorem exists_represents_bool (b : Bool) :
    ∃ d, Binary64.Represents d (if b then 1 else 0) := by
  simp only [Binary64.represents_iff, ← Option.isSome_iff_exists]
  cases b <;> decide

theorem exists_castsTo_iff :
    (∃ d, CastsTo x d) ↔ IsBoolean x ∨ (IsNumber x ∧ ¬ IsInexact x) := by
  match x with
  | some (.boolean b) => simpa [CastsTo, IsBoolean, IsNumber] using exists_represents_bool b
  | some (.integer i) => simp [CastsTo, IsBoolean, IsNumber, IsInexact]
  | some (.double bits) => simp [CastsTo, IsNumber, IsInexact]
  | none | some .null | some (.timestamp _) | some (.string _) | some (.bytes _)
  | some (.reference _) | some (.geoPoint _ _) =>
      simp [CastsTo, IsBoolean, IsNumber]

theorem not_isNumber_of_isBoolean (h : IsBoolean x) : ¬ IsNumber x := by
  obtain ⟨b, rfl⟩ := h
  exact id

theorem not_castsTo_of_isInexact (h : IsInexact x) (d : BitVec 64) : ¬ CastsTo x d := by
  obtain ⟨i, rfl, hi⟩ := h
  exact hi d

/-- Outside the two kinds of miscast a document casts exactly when it has
numbers. -/
theorem hasNumbers_iff_hasCasts : (HasNumbers data ↔ HasCasts data) ↔ ¬ Miscast data := by
  constructor
  · rintro h (⟨hcasts, hboolean⟩ | ⟨hnumbers, hinexact⟩)
    · obtain ⟨hlatitude, hlongitude⟩ := h.mpr hcasts
      obtain hboolean | hboolean := hboolean
      · exact not_isNumber_of_isBoolean hboolean hlatitude
      · exact not_isNumber_of_isBoolean hboolean hlongitude
    · obtain ⟨location, hlatitude, hlongitude⟩ := h.mp hnumbers
      obtain hinexact | hinexact := hinexact
      · exact not_castsTo_of_isInexact hinexact _ hlatitude
      · exact not_castsTo_of_isInexact hinexact _ hlongitude
  · intro h
    constructor
    · intro hnumbers
      refine hasCasts_iff.mpr ⟨?_, ?_⟩
      · exact exists_castsTo_iff.mpr
          (.inr ⟨hnumbers.1, fun hi => h (.inr ⟨hnumbers, .inl hi⟩)⟩)
      · exact exists_castsTo_iff.mpr
          (.inr ⟨hnumbers.2, fun hi => h (.inr ⟨hnumbers, .inr hi⟩)⟩)
    · intro hcasts
      obtain ⟨hlatitude, hlongitude⟩ := hasCasts_iff.mp hcasts
      constructor
      · have hnot : ¬ IsBoolean (data.lookup "latitude") := fun hb => h (.inl ⟨hcasts, .inl hb⟩)
        exact ((exists_castsTo_iff.mp hlatitude).resolve_left hnot).1
      · have hnot : ¬ IsBoolean (data.lookup "longitude") := fun hb => h (.inl ⟨hcasts, .inr hb⟩)
        exact ((exists_castsTo_iff.mp hlongitude).resolve_left hnot).1

end Numbers

structure OwnerInfo where
  name : String
  email : String
  deriving DecidableEq

def ownerInfo (data : Document) : OwnerInfo where
  name := (asString (data.lookup "name")).getD "Desconocido"
  email := (asString (data.lookup "email")).getD "Sin correo"

/-- The dictionaries the listeners fill, and whether the users query is still
outstanding. -/
structure LocationListeners where
  deviceLocations : Map String CLLocationCoordinate2D
  deviceOwners : Map String OwnerInfo
  ownersPending : Bool

inductive ListenerEvent where
  | deviceLocations (answer : Except String QuerySnapshot)
  | deviceOwners (answer : Except String QuerySnapshot)

namespace LocationListeners

def launch : LocationListeners := ⟨∅, ∅, true⟩

def listenForDeviceLocations (m : LocationListeners) :
    Except String QuerySnapshot → LocationListeners
  | .error _ => m
  | .ok snapshot =>
      { m with deviceLocations := absorb coordinate? m.deviceLocations snapshot.documents }

def listenForDeviceOwners (m : LocationListeners) :
    Except String QuerySnapshot → LocationListeners
  | .error _ => m
  | .ok snapshot =>
      { m with
        deviceOwners :=
          absorb (fun data => some (ownerInfo data)) m.deviceOwners snapshot.documents }

def step (m : LocationListeners) : ListenerEvent → Option LocationListeners
  | .deviceLocations answer => some (m.listenForDeviceLocations answer)
  | .deviceOwners answer =>
      if m.ownersPending then
        some ({ m with ownersPending := false }.listenForDeviceOwners answer)
      else none

variable {m m' : LocationListeners} {e : ListenerEvent}

section Examples

/-- One document with a position. -/
def onePosition : QuerySnapshot :=
  ⟨[("user_a", dictionary [("latitude", .double 1), ("longitude", .double 2)])], by decide⟩

end Examples

end LocationListeners

end FirebaseLogin
