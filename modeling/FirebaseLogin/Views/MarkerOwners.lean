import FirebaseLogin.System
import FirebaseLogin.Views.MapMarkers

/-!
The join behind a marker's title. saveLocationToFirestore files a position under
"user_" and the uid, listenForDeviceLocations keeps that document id as the key,
listenForDeviceOwners keys the owners by the bare uid, and updateMarkers looks
the first up among the second.
-/

namespace FirebaseLogin

open Execution KeyedMap

/-- The marker updateMarkers makes for one key of the device positions. -/
def Published.markerOf (p : Published) (deviceId : String) : Option GMSMarker :=
  (p.deviceLocations.lookup deviceId).map fun location =>
    ⟨location, deviceTitle p.deviceOwners deviceId⟩

theorem Published.markerOf_mem {p : Published} {deviceId : String} {marker : GMSMarker}
    (h : p.markerOf deviceId = some marker) : marker ∈ p.markers := by
  obtain ⟨location, hlocation, rfl⟩ := Option.map_eq_some_iff.mp h
  refine List.mem_append_right _ (List.mem_map.mpr ⟨⟨deviceId, location⟩, ?_, rfl⟩)
  exact AList.mem_lookup_iff.mp hlocation

namespace ListenerEvent

/-- The event is a snapshot of the positions. -/
def IsSnapshot : ListenerEvent → Prop
  | .deviceLocations (.ok _) => True
  | .deviceLocations (.error _) | .deviceOwners _ => False

end ListenerEvent

namespace LocationListeners

variable {m m' : LocationListeners} {e : ListenerEvent} {es : List ListenerEvent}

def published (m : LocationListeners) (currentLocation : Option CLLocationCoordinate2D) :
    Published :=
  ⟨currentLocation, m.deviceLocations, m.deviceOwners⟩

theorem deviceOwners_of_step {answer : Except String QuerySnapshot}
    (h : m.step (.deviceOwners answer) = some m') : m.ownersPending = true ∧
      m' = { m with ownersPending := false }.listenForDeviceOwners answer := by
  simp only [step, Option.ite_none_right_eq_some, Option.some.injEq] at h
  exact ⟨h.1, h.2.symm⟩

theorem step_deviceOwners (h : m.step e = some m') :
    (m'.ownersPending = m.ownersPending ∧ m'.deviceOwners = m.deviceOwners) ∨
    ∃ answer, e = .deviceOwners answer ∧ m.ownersPending = true ∧ m'.ownersPending = false ∧
      m'.deviceOwners = (m.listenForDeviceOwners answer).deviceOwners := by
  cases e with
  | deviceLocations answer =>
      cases h
      cases answer <;> exact .inl ⟨rfl, rfl⟩
  | deviceOwners answer =>
      obtain ⟨hpending, rfl⟩ := deviceOwners_of_step h
      cases answer <;> exact .inr ⟨_, rfl, hpending, rfl, rfl⟩

/-- Nothing is entered before the users query answers. -/
theorem deviceOwners_of_pending (h : run step launch es = some m) (hm : m.ownersPending = true) :
    m.deviceOwners = ∅ := by
  have hinv : m.ownersPending = true → m.deviceOwners = ∅ := by
    refine run_preserves (I := fun m => m.ownersPending = true → m.deviceOwners = ∅) ?_
      (fun _ => rfl) h
    intro m e m' hstep hinv hpending
    obtain ⟨hsame, howners⟩ | ⟨answer, -, -, hdone, -⟩ := step_deviceOwners hstep
    · rw [howners]
      exact hinv (hsame ▸ hpending)
    · rw [hdone] at hpending
      cases hpending
  exact hinv hm

/-- Nothing is entered after it has answered. -/
theorem deviceOwners_of_answered (h : run step m es = some m') (hm : m.ownersPending = false) :
    m'.deviceOwners = m.deviceOwners := by
  induction es generalizing m with
  | nil => cases h; rfl
  | cons e es ih =>
      obtain ⟨w, hw, hrest⟩ := run_cons.mp h
      obtain ⟨hsame, howners⟩ | ⟨answer, -, hpending, -, -⟩ := step_deviceOwners hw
      · rw [ih hrest (hsame.trans hm), howners]
      · rw [hm] at hpending
        cases hpending

theorem run_deviceOwners (h : run step launch es = some m) {answer : Except String QuerySnapshot}
    (hanswer : .deviceOwners answer ∈ es) :
    m.deviceOwners = (launch.listenForDeviceOwners answer).deviceOwners := by
  obtain ⟨pre, post, rfl⟩ := List.append_of_mem hanswer
  obtain ⟨m₁, hpre, hrest⟩ := run_append.mp h
  obtain ⟨m₂, hstep, hpost⟩ := run_cons.mp hrest
  obtain ⟨hpending, rfl⟩ := deviceOwners_of_step hstep
  rw [deviceOwners_of_answered hpost (by cases answer <;> rfl)]
  have hempty := deviceOwners_of_pending hpre hpending
  cases answer <;> simp [listenForDeviceOwners, launch, hempty]

theorem run_deviceLocations (h : run step m es = some m') (hes : ∀ e ∈ es, ¬ e.IsSnapshot) :
    m'.deviceLocations = m.deviceLocations := by
  induction es generalizing m with
  | nil => cases h; rfl
  | cons e es ih =>
      obtain ⟨w, hw, hrest⟩ := run_cons.mp h
      rw [ih hrest fun f hf => hes f (List.mem_cons_of_mem e hf)]
      match e, hw with
      | .deviceLocations (.ok _), _ => exact absurd trivial (hes _ List.mem_cons_self)
      | .deviceLocations (.error _), hw => cases hw; rfl
      | .deviceOwners answer, hw =>
          obtain ⟨-, rfl⟩ := deviceOwners_of_step hw
          cases answer <;> rfl

/-- The last snapshot of the positions that was delivered. -/
def LastSnapshot (es : List ListenerEvent) (locations : QuerySnapshot) : Prop :=
  ∃ pre post, es = pre ++ .deviceLocations (.ok locations) :: post ∧ ∀ e ∈ post, ¬ e.IsSnapshot

theorem lookup_of_lastSnapshot {locations : QuerySnapshot} (h : run step launch es = some m)
    (hlast : LastSnapshot es locations) {id : String} {data : Document}
    (hdata : (id, data) ∈ locations.documents) {location : CLLocationCoordinate2D}
    (hlocation : coordinate? data = some location) :
    m.deviceLocations.lookup id = some location := by
  obtain ⟨pre, post, rfl, hpost⟩ := hlast
  obtain ⟨m₁, -, hrest⟩ := run_append.mp h
  obtain ⟨m₂, hstep, hpost'⟩ := run_cons.mp hrest
  cases hstep
  rw [run_deviceLocations hpost' hpost]
  simp only [listenForDeviceLocations]
  rw [lookup_absorb_of_mem locations.distinct hdata, hlocation, Option.some_or]

end LocationListeners

open LocationListeners

/-- The name and email of a user's document as a title gives them, with the
fallbacks of the users query. -/
def OwnerText (data : Document) (text : String) : Prop :=
  ∃ name email, Reads (data.lookup "name") "Desconocido" name ∧
    Reads (data.lookup "email") "Sin correo" email ∧ text = name ++ " (" ++ email ++ ")"

/-- The marker made from the user's location document carries the user's own name
and email, and so those of no other user that read differently. -/
def NamesOwner (p : Published) (u : Uid) (profile : Document) : Prop :=
  ∃ marker text, p.markerOf (locationId u) = some marker ∧
    (∀ v : MapView, marker ∈ (v.updateUIView p).mapView.markers) ∧ OwnerText profile text ∧
    marker.title = "Dispositivo: " ++ locationId u ++ "\nPropietario: " ++ text

theorem ownerText_iff {data : Document} {text : String} : OwnerText data text ↔
    (ownerInfo data).name ++ " (" ++ (ownerInfo data).email ++ ")" = text := by
  constructor
  · rintro ⟨name, email, hname, hemail, rfl⟩
    rw [← reads_iff.mp hname, ← reads_iff.mp hemail]
    rfl
  · rintro rfl
    exact ⟨_, _, reads_asString _ _, reads_asString _ _, rfl⟩

theorem ownerTitle_eq_iff {deviceId : String} {data : Document} {text : String} :
    ownerTitle deviceId (ownerInfo data) =
        "Dispositivo: " ++ deviceId ++ "\nPropietario: " ++ text ↔ OwnerText data text := by
  rw [ownerText_iff]
  delta ownerTitle
  generalize "Dispositivo: " ++ deviceId ++ "\nPropietario: " = label
  simp only [String.append_assoc, String.append_right_inj]

theorem title_ne_bare (deviceId text : String) :
    "Dispositivo: " ++ deviceId ≠ "Dispositivo: " ++ deviceId ++ "\nPropietario: " ++ text := by
  generalize "Dispositivo: " ++ deviceId = bare
  intro h
  have hnil : "\nPropietario: " ++ text = "" := by
    rw [← String.append_right_inj bare, String.append_empty]
    simpa only [String.append_assoc] using h.symm
  simp at hnil

theorem lookup_deviceOwners {es : List ListenerEvent} {m : LocationListeners}
    {users : QuerySnapshot} (hrun : run step launch es = some m)
    (husers : .deviceOwners (.ok users) ∈ es) (id : String) :
    (∃ data, (id, data) ∈ users.documents ∧ m.deviceOwners.lookup id = some (ownerInfo data)) ∨
    ((∀ data, (id, data) ∉ users.documents) ∧ m.deviceOwners.lookup id = none) := by
  rw [run_deviceOwners hrun husers]
  simp only [listenForDeviceOwners]
  by_cases hid : id ∈ users.documents.map Prod.fst
  · obtain ⟨⟨id, data⟩, hdata, rfl⟩ := List.mem_map.mp hid
    refine .inl ⟨data, hdata, ?_⟩
    rw [lookup_absorb_of_mem users.distinct hdata, Option.some_or]
  · refine .inr ⟨fun data hdata => hid (List.mem_map.mpr ⟨_, hdata, rfl⟩), ?_⟩
    rw [lookup_absorb_of_not_mem hid]
    rfl

/-- Whatever the order of the deliveries, a user's marker carries the user's
name exactly when the users result happens to have a document whose own id is
"user_" and the uid, and whose name and email read the same. -/
theorem namesOwner_iff (es : List ListenerEvent) (m : LocationListeners)
    (users locations : QuerySnapshot) (hrun : run step launch es = some m)
    (husers : .deviceOwners (.ok users) ∈ es) (hlast : LastSnapshot es locations)
    (currentLocation : Option CLLocationCoordinate2D) (u : Uid) (profile position : Document)
    (_hprofile : (u.val, profile) ∈ users.documents)
    (hposition : (locationId u, position) ∈ locations.documents)
    (hcasts : HasCasts position) :
    NamesOwner (m.published currentLocation) u profile ↔
      ∃ data text, (locationId u, data) ∈ users.documents ∧ OwnerText data text ∧
        OwnerText profile text := by
  obtain ⟨location, hlocation⟩ := hcasts
  have hmarker : (m.published currentLocation).markerOf (locationId u) =
      some ⟨location, deviceTitle m.deviceOwners (locationId u)⟩ := by
    simp [Published.markerOf, published,
      lookup_of_lastSnapshot hrun hlast hposition (coordinate?_eq_some.mpr hlocation)]
  have hattached : ∀ v : MapView, ⟨location, deviceTitle m.deviceOwners (locationId u)⟩ ∈
      (v.updateUIView (m.published currentLocation)).mapView.markers := by
    intro v
    rw [MapView.updateUIView_markers]
    exact List.mem_append_right _ (Published.markerOf_mem hmarker)
  obtain ⟨data, hdata, howner⟩ | ⟨hmissing, howner⟩ :=
    lookup_deviceOwners hrun husers (locationId u)
  · have htitle : deviceTitle m.deviceOwners (locationId u) =
        ownerTitle (locationId u) (ownerInfo data) := by simp [deviceTitle, howner]
    constructor
    · rintro ⟨marker, text, hmark, -, hprofile, hnamed⟩
      obtain rfl := Option.some.inj (hmarker.symm.trans hmark)
      exact ⟨data, text, hdata, ownerTitle_eq_iff.mp (htitle.symm.trans hnamed), hprofile⟩
    · rintro ⟨data', text, hdata', htext, hprofile⟩
      obtain rfl := eq_of_mem_listing users.distinct hdata' hdata
      exact ⟨_, text, hmarker, hattached, hprofile, htitle.trans (ownerTitle_eq_iff.mpr htext)⟩
  · have htitle : deviceTitle m.deviceOwners (locationId u) =
        "Dispositivo: " ++ locationId u := by simp [deviceTitle, howner]
    constructor
    · rintro ⟨marker, text, hmark, -, -, hnamed⟩
      obtain rfl := Option.some.inj (hmarker.symm.trans hmark)
      exact absurd (htitle.symm.trans hnamed) (title_ne_bare _ _)
    · rintro ⟨data, text, hdata, -⟩
      exact absurd hdata (hmissing data)

section Examples

/-- A user's profile, and beside it one with the same name and email whose uid
is the id of the first user's location document. -/
def twinUsers : QuerySnapshot :=
  let profile := dictionary [("name", .string "Name"), ("email", .string "a@example.com")]
  ⟨[("a", profile), ("user_a", profile)], by decide⟩

theorem namesOwner_twinUsers :
    ∃ m, run step launch
        [.deviceLocations (.ok onePosition), .deviceOwners (.ok twinUsers)] = some m ∧
      (m.published none).markerOf (locationId Session.userA.uid) =
        some ⟨⟨1, 2⟩, "Dispositivo: user_a\nPropietario: Name (a@example.com)"⟩ ∧
      NamesOwner (m.published none) Session.userA.uid
        (dictionary [("name", .string "Name"), ("email", .string "a@example.com")]) := by
  refine ⟨_, rfl, rfl, (namesOwner_iff _ _ twinUsers onePosition rfl (by simp)
    ⟨[], [.deviceOwners (.ok twinUsers)], rfl, by simp [ListenerEvent.IsSnapshot]⟩
    none Session.userA.uid _ _ List.mem_cons_self List.mem_cons_self ⟨⟨1, 2⟩, rfl, rfl⟩).mpr ?_⟩
  have htext : OwnerText
      (dictionary [("name", .string "Name"), ("email", .string "a@example.com")])
      "Name (a@example.com)" := ⟨"Name", "a@example.com", .inl rfl, .inl rfl, by decide⟩
  exact ⟨_, _, List.mem_cons_of_mem _ List.mem_cons_self, htext, htext⟩

/-- A signed-in client saves a position. -/
def savedRun : List (Event Unit) := [.app () (.didUpdateLocations [⟨1, 2⟩] 5), .acceptWrite ()]

def deliveries (server : Server) : List ListenerEvent :=
  [.deviceOwners (.ok (getDocuments server usersCollection)),
    .deviceLocations (.ok (getDocuments server locationsCollection))]

/-- The client's own profile and position are delivered, and its marker has no
owner. -/
theorem saved_position_unnamed :
    ∃ t m profile,
      run System.step (System.single System.storedProfile (some Session.userA)) savedRun = some t ∧
      run step launch (deliveries t.server) = some m ∧
      (Session.userA.uid.val, profile) ∈ (getDocuments t.server usersCollection).documents ∧
      (m.published none).markerOf (locationId Session.userA.uid) =
        some ⟨⟨1, 2⟩, "Dispositivo: user_a"⟩ ∧
      ¬ NamesOwner (m.published none) Session.userA.uid profile := by
  refine ⟨_, _, _, rfl, rfl, List.mem_singleton_self _, rfl, ?_⟩
  rintro ⟨marker, text, hmarker, -, -, htitle⟩
  obtain rfl : (⟨⟨1, 2⟩, "Dispositivo: " ++ locationId Session.userA.uid⟩ : GMSMarker) = marker :=
    Option.some.inj hmarker
  exact title_ne_bare _ _ htitle

end Examples

end FirebaseLogin
