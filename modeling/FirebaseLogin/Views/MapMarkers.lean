import FirebaseLogin.Managers.DeviceLocations

/-!
MapView on one GMSMapView. Each updateUIView makes new markers for the user's own
position and for every known device and attaches them; the markers of earlier
calls stay attached. The camera moves in a block queued on the main queue, so
that a run also has events for these blocks and for the view's onAppear.
-/

namespace FirebaseLogin

open Execution KeyedMap

structure GMSMarker where
  position : CLLocationCoordinate2D
  title : String
  deriving DecidableEq

structure GMSCameraPosition where
  target : CLLocationCoordinate2D
  zoom : Nat
  deriving DecidableEq

/-- A map with the markers attached to it. -/
structure GMSMapView where
  camera : GMSCameraPosition
  markers : List GMSMarker
  deriving DecidableEq

/-- What LocationManager publishes. -/
structure Published where
  currentLocation : Option CLLocationCoordinate2D
  deviceLocations : Map String CLLocationCoordinate2D
  deviceOwners : Map String OwnerInfo

structure MapView where
  mapView : GMSMapView
  didCenterOnUserLocation : Bool
  centerings : List CLLocationCoordinate2D
  deriving DecidableEq

inductive MapEvent where
  | onAppear
  | updateUIView (published : Published)
  | mainQueue

def ownerTitle (deviceId : String) (owner : OwnerInfo) : String :=
  "Dispositivo: " ++ deviceId ++ "\nPropietario: " ++ owner.name ++ " (" ++ owner.email ++ ")"

def deviceTitle (deviceOwners : Map String OwnerInfo) (deviceId : String) : String :=
  match deviceOwners.lookup deviceId with
  | some ownerInfo => ownerTitle deviceId ownerInfo
  | none => "Dispositivo: " ++ deviceId

def GMSMapView.attach (mapView : GMSMapView) (marker : GMSMarker) : GMSMapView :=
  { mapView with markers := mapView.markers ++ [marker] }

namespace MapView

/-- The view once makeUIView has made its map. -/
def makeUIView : MapView where
  mapView := ⟨⟨⟨0xc04176de54b48d3b#64, 0x4061533b4f616723#64⟩, 10⟩, []⟩
  didCenterOnUserLocation := false
  centerings := []

def markCurrentLocation (v : MapView) (location : CLLocationCoordinate2D) : MapView :=
  { v with
    mapView := v.mapView.attach ⟨location, "Mi ubicación"⟩
    centerings :=
      if v.didCenterOnUserLocation then v.centerings else v.centerings ++ [location] }

def updateMarkers (v : MapView) (published : Published) : MapView :=
  let v :=
    match published.currentLocation with
    | some location => v.markCurrentLocation location
    | none => v
  { v with
    mapView := published.deviceLocations.entries.foldl
      (fun mapView entry =>
        mapView.attach ⟨entry.2, deviceTitle published.deviceOwners entry.1⟩)
      v.mapView }

def updateUIView (v : MapView) (published : Published) : MapView := v.updateMarkers published

def step (v : MapView) : MapEvent → Option MapView
  | .onAppear => some { v with didCenterOnUserLocation := false }
  | .updateUIView published => some (v.updateUIView published)
  | .mainQueue =>
      match v.centerings with
      | [] => none
      | location :: rest =>
          some
            { mapView := { v.mapView with camera := ⟨location, 15⟩ }
              didCenterOnUserLocation := true
              centerings := rest }

end MapView

/-- The markers the published state calls for: the user's own, and one for each
device. -/
def Published.markers (p : Published) : List GMSMarker :=
  (p.currentLocation.map fun location => ⟨location, "Mi ubicación"⟩).toList ++
    p.deviceLocations.entries.map fun entry => ⟨entry.2, deviceTitle p.deviceOwners entry.1⟩

/-- What an event adds to the map. -/
def MapEvent.adds : MapEvent → List GMSMarker
  | .updateUIView published => published.markers
  | .onAppear | .mainQueue => []

theorem Published.markers_eq_nil {p : Published} :
    p.markers = [] ↔ p.currentLocation = none ∧ p.deviceLocations.entries = [] := by
  simp [Published.markers]

theorem foldl_attach {α : Type} (marker : α → GMSMarker) (entries : List α)
    (mapView : GMSMapView) :
    (entries.foldl (fun mapView entry => mapView.attach (marker entry)) mapView).markers =
      mapView.markers ++ entries.map marker := by
  induction entries generalizing mapView with
  | nil => simp
  | cons entry entries ih =>
      rw [List.foldl_cons, ih]
      simp [GMSMapView.attach]

namespace MapView

variable {v v' : MapView} {e : MapEvent} {es : List MapEvent}

theorem updateUIView_markers (v : MapView) (published : Published) :
    (v.updateUIView published).mapView.markers = v.mapView.markers ++ published.markers := by
  unfold updateUIView updateMarkers Published.markers
  rw [foldl_attach]
  cases published.currentLocation with
  | none => simp
  | some location => simp [markCurrentLocation, GMSMapView.attach]

theorem step_markers (h : v.step e = some v') :
    v'.mapView.markers = v.mapView.markers ++ e.adds := by
  cases e with
  | onAppear => cases h; simp [MapEvent.adds]
  | updateUIView published => cases h; exact updateUIView_markers v published
  | mainQueue =>
      simp only [step] at h
      split at h
      · cases h
      · cases h; simp [MapEvent.adds]

/-- The map holds the markers of every call, in the order made. -/
theorem run_markers (h : run step v es = some v') :
    v'.mapView.markers = v.mapView.markers ++ es.flatMap MapEvent.adds := by
  induction es generalizing v with
  | nil => cases h; simp
  | cons e es ih =>
      obtain ⟨w, hw, hrest⟩ := run_cons.mp h
      rw [ih hrest, step_markers hw, List.flatMap_cons, List.append_assoc]

/-- The last update leaves the map exact when no earlier one has attached a
marker. -/
theorem markers_perm_iff {pre : List MapEvent} {published : Published}
    (h : run step makeUIView (pre ++ [.updateUIView published]) = some v) :
    v.mapView.markers.Perm published.markers ↔ ∀ e ∈ pre, e.adds = [] := by
  have hall := run_markers h
  simp only [makeUIView, List.flatMap_append, List.flatMap_singleton, MapEvent.adds,
    List.nil_append] at hall
  rw [hall, ← List.flatMap_eq_nil_iff]
  constructor
  · intro hperm
    have hlength := hperm.length_eq
    rw [List.length_append] at hlength
    exact List.eq_nil_of_length_eq_zero (by omega)
  · intro hnil
    rw [hnil, List.nil_append]

/-- After an update the map holds what the published state calls for, and the
same update again changes nothing. -/
def ShowsOnce (_ : MapView) : MapEvent → MapView → Prop
  | .updateUIView published, v' =>
      v'.mapView.markers.Perm published.markers ∧
        (v'.updateUIView published).mapView.markers.Perm v'.mapView.markers
  | .onAppear, _ | .mainQueue, _ => True

/-- There is neither an own position nor a device to show. -/
def NothingToShow : MapEvent → Prop
  | .updateUIView published =>
      published.currentLocation = none ∧ published.deviceLocations.entries = []
  | .onAppear | .mainQueue => True

theorem showsOnce_iff (hv : v.mapView.markers = []) (h : v.step e = some v') :
    v.ShowsOnce e v' ↔ NothingToShow e := by
  have hadded := step_markers h
  cases e with
  | onAppear | mainQueue => exact Iff.rfl
  | updateUIView published =>
      simp only [hv, MapEvent.adds, List.nil_append] at hadded
      simp only [ShowsOnce, NothingToShow, updateUIView_markers, hadded,
        ← Published.markers_eq_nil]
      constructor
      · rintro ⟨-, htwice⟩
        have hlength := htwice.length_eq
        rw [List.length_append] at hlength
        exact List.eq_nil_of_length_eq_zero (by omega)
      · intro hnil
        simp [hnil]

/-- The map shows each thing once exactly along the runs that never have a thing
to show: the first update that attaches a marker attaches it again when
repeated. -/
theorem showsOnce_along_iff (es : List MapEvent) :
    Along step ShowsOnce makeUIView es ↔
      Along step (fun _ e _ => NothingToShow e) makeUIView es := by
  apply along_congr (I := fun v => v.mapView.markers = [])
  · intro v e v' h hnothing hv
    rw [step_markers h, hv]
    cases e with
    | onAppear | mainQueue => rfl
    | updateUIView published => exact Published.markers_eq_nil.mpr hnothing
  · intro v e v' h hv
    exact showsOnce_iff hv h
  · rfl

section Examples

/-- One device without an owner entry. -/
def deviceAt (location : CLLocationCoordinate2D) : Published :=
  ⟨none, (∅ : Map String CLLocationCoordinate2D).insert "user_a" location, ∅⟩

/-- The device moves between two updates. -/
def movingRun : List MapEvent := [.updateUIView (deviceAt ⟨1, 2⟩), .updateUIView (deviceAt ⟨3, 4⟩)]

/-- Both positions stay on the map. -/
theorem moved_device_shown_twice :
    (∃ v, run step makeUIView movingRun = some v ∧
      v.mapView.markers =
        [⟨⟨1, 2⟩, "Dispositivo: user_a"⟩, ⟨⟨3, 4⟩, "Dispositivo: user_a"⟩]) ∧
      ¬ Along step ShowsOnce makeUIView movingRun := by
  refine ⟨⟨_, rfl, by decide⟩, fun h => ?_⟩
  have hperm := ((h _ rfl).2 _ rfl).1.1
  exact absurd hperm.length_eq (by decide)

end Examples

end MapView

end FirebaseLogin
