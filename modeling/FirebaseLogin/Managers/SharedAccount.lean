import FirebaseLogin.Managers.DeviceLocations
import FirebaseLogin.Managers.LocationTrack

/-!
The positions of any number of devices. Each account has one location document,
and readers take its id for a device. The position a device saved last stays in
the store as long as no other device's save reaches the same document.

Which position each device saved last, and where, is a history variable of the
run: it is recorded when a write takes effect.
-/

namespace FirebaseLogin

open DocumentStore Execution KeyedMap

/-- A saved position and the document it went to. -/
abbrev SavedPosition := DocumentReference × CLLocationCoordinate2D

/-- The latitude and longitude among the data of a save, and the document they go to. -/
def Write.position? (w : Write) : Option SavedPosition :=
  match w.completion, w.operation with
  | .saveLocation, .merge data =>
      match data.lookup "latitude", data.lookup "longitude" with
      | some (.double latitude), some (.double longitude) =>
          some (w.target, ⟨latitude, longitude⟩)
      | _, _ => none
  | _, _ => none

def HoldsPosition (document : Option Document) (location : CLLocationCoordinate2D) : Prop :=
  field document "latitude" = some (.double location.latitude) ∧
    field document "longitude" = some (.double location.longitude)

/-- The write saves `location` in the location document of `u`. -/
structure SavesPosition (w : Write) (u : Uid) (location : CLLocationCoordinate2D) : Prop where
  target : w.target = locationDoc u
  position : w.position? = some (w.target, location)
  stores : ∀ before, Stores before (some location) (w.operation.apply before)

def PositionShape (w : Write) : Prop :=
  (∃ u location, SavesPosition w u location) ∨
    (w.completion ≠ .saveLocation ∧ ∀ u, w.target ≠ locationDoc u)

theorem positionShape_of_issuedBy {c : Client} {event : AppEvent} {w : Write}
    (h : c.IssuedBy event w) : PositionShape w := by
  cases h with
  | createUser _ _ | updateUserInfo _ _ =>
      exact .inr ⟨by simp, fun u => (locationDoc_ne_userDoc u _).symm⟩
  | updateDeviceName _ _ =>
      exact .inr ⟨by simp, devices_document_ne_locationDoc (document_segment _ _)⟩
  | registerDevice _ hdoc | deleteDevice _ _ hdoc =>
      exact .inr ⟨by simp, devices_document_ne_locationDoc hdoc⟩
  | @saveLocation locations location now userId _ huser =>
      refine .inl ⟨userId, location, rfl, ?_, fun before => ?_⟩
      · simp [Write.position?]
      · exact stores_of_saveLocation (show c.saveLocationToFirestore location now = [_] by
          simp [Client.saveLocationToFirestore, huser]) before

theorem HoldsPosition.unique {document : Option Document} {location location' :
    CLLocationCoordinate2D} (h : HoldsPosition document location)
    (h' : HoldsPosition document location') : location = location' := by
  have hlatitude := h.1.symm.trans h'.1
  have hlongitude := h.2.symm.trans h'.2
  cases location
  cases location'
  simp_all

theorem HoldsPosition.coordinate? {document : Option Document} {location : CLLocationCoordinate2D}
    (h : HoldsPosition document location) :
    ∃ data, document = some data ∧ FirebaseLogin.coordinate? data = some location := by
  obtain ⟨hlatitude, hlongitude⟩ := h
  cases document with
  | none => cases hlatitude
  | some data =>
      rw [field_some] at hlatitude hlongitude
      refine ⟨data, rfl, coordinate?_eq_some.mpr ?_⟩
      rw [CastsAs, hlatitude, hlongitude]
      exact ⟨rfl, rfl⟩

variable {ι : Type}

abbrev Recorded (ι : Type) := System ι × (ι → Option SavedPosition)

/-- A save does not take effect on the document another device's last position
went to, unless it saves the same coordinate. -/
def SavesApart (s : Recorded ι) (e : Event ι) : Prop :=
  ∀ i w saved, e = .acceptWrite i → s.1.accepted e = some w → w.position? = some saved →
    ∀ j ≠ i, ∀ position, s.2 j = some position → position.1 = saved.1 → position.2 = saved.2

structure PositionsKept (s : Recorded ι) : Prop where
  shape : ∀ i, ∀ w ∈ (s.1.clients i).writes, PositionShape w
  account : ∀ j position, s.2 j = some position → ∃ u, position.1 = locationDoc u
  stored : ∀ j position, s.2 j = some position →
    HoldsPosition (s.1.server.lookup position.1) position.2

/-- Once the snapshot of the store has been delivered, a listening client has an
entry with the position each device saved last. -/
def PositionsListed (s : Recorded ι) : Prop :=
  ∀ (m : LocationListeners) (j : ι) (position : SavedPosition), s.2 j = some position →
    ∃ id, (m.listenForDeviceLocations
      (.ok (getDocuments s.1.server locationsCollection))).deviceLocations.lookup id =
        some position.2

/-- The position each device saved last reaches every listening client, and no
update has overwritten it where it went. -/
def PositionsSurvive (s : Recorded ι) : Prop :=
  PositionsListed s ∧ ∀ j position, s.2 j = some position →
    HoldsPosition (s.1.server.lookup position.1) position.2

theorem PositionsKept.listed {s : Recorded ι} (h : PositionsKept s) : PositionsListed s := by
  intro m j position hj
  obtain ⟨u, hu⟩ := h.account j position hj
  obtain ⟨data, hdata, hlocation⟩ := (h.stored j position hj).coordinate?
  have hmem : (locationId u, data) ∈ (getDocuments s.1.server locationsCollection).documents :=
    (mem_getDocuments_of_path (childId_eq_some.mp (childId_locationDoc u))).mpr (hu ▸ hdata)
  refine ⟨locationId u, ?_⟩
  rw [LocationListeners.listenForDeviceLocations,
    lookup_absorb_of_mem (QuerySnapshot.distinct _) hmem, hlocation, Option.some_or]

theorem kept_launch (server : Server) (devices : ι → UIDevice) (users : ι → Option User) :
    PositionsKept (System.launch server devices users, fun _ => none) := by
  refine ⟨fun i w hw => ?_, fun j position hj => ?_, fun j position hj => ?_⟩
  · cases hw
  · cases hj
  · cases hj

variable [DecidableEq ι]

/-- The position each device saved last, as of the writes that took effect. -/
def recordSave (s : System ι) (e : Event ι) (saved : ι → Option SavedPosition) :
    ι → Option SavedPosition :=
  match e, (s.accepted e).bind Write.position? with
  | .acceptWrite i, some position => Function.update saved i (some position)
  | _, _ => saved

section Steps

variable {s s' : Recorded ι} {e : Event ι}

theorem position?_eq_none {w : Write} (h : w.completion ≠ .saveLocation) : w.position? = none := by
  unfold Write.position?
  split
  · next hsave _ => exact absurd hsave h
  · rfl

theorem shape_of_step (h : s.1.step e = some s'.1) (hs : PositionsKept s) (j : ι) :
    ∀ w ∈ (s'.1.clients j).writes, PositionShape w := by
  intro w hw
  obtain hold | ⟨event, -, hissued⟩ := System.mem_writes_of_step h hw
  · exact hs.shape j w hold
  · exact positionShape_of_issuedBy hissued

theorem recordSave_of_none {saved : ι → Option SavedPosition}
    (h : (s.1.accepted e).bind Write.position? = none) : recordSave s.1 e saved = saved := by
  unfold recordSave
  split
  · next hsome => rw [h] at hsome; cases hsome
  · rfl

/-- A step saves one device's position, or it saves none and reaches no location
document. -/
theorem recorded_cases (h : recording System.step recordSave s e = some s')
    (hs : PositionsKept s) :
    (s'.2 = s.2 ∧ ∀ w, s.1.accepted e = some w →
      w.position? = none ∧ ∀ u, w.target ≠ locationDoc u) ∨
    ∃ i w u location, e = .acceptWrite i ∧ s.1.accepted e = some w ∧
      SavesPosition w u location ∧ s'.2 = Function.update s.2 i (some (w.target, location)) := by
  obtain ⟨-, hsaved⟩ := recording_eq_some.mp h
  cases haccepted : s.1.accepted e with
  | none =>
      rw [recordSave_of_none (by simp [haccepted])] at hsaved
      exact .inl ⟨hsaved, by simp⟩
  | some w =>
      obtain ⟨i, rfl, hhead⟩ := System.accepted_eq_some.mp haccepted
      obtain ⟨u, location, hsaves⟩ | ⟨hno, hother⟩ := hs.shape i w (List.mem_of_mem_head? hhead)
      · refine .inr ⟨i, w, u, location, rfl, rfl, hsaves, ?_⟩
        simpa [recordSave, haccepted, hsaves.position] using hsaved
      · have hnone := position?_eq_none hno
        rw [recordSave_of_none (by simp [haccepted, hnone])] at hsaved
        refine .inl ⟨hsaved, fun w' hw' => ?_⟩
        obtain rfl := Option.some.inj hw'
        exact ⟨hnone, hother⟩

/-- A document that no accepted write targets keeps its position. -/
theorem stored_of_not_target (hs : PositionsKept s) (h : s.1.step e = some s'.1) {j : ι}
    {position : SavedPosition} (hj : s.2 j = some position)
    (htarget : ∀ w, s.1.accepted e = some w → w.target ≠ position.1) :
    HoldsPosition (s'.1.server.lookup position.1) position.2 := by
  obtain hsame | ⟨w, hw, hw', -⟩ := System.lookup_of_step h position.1
  · rw [hsame]
    exact hs.stored j position hj
  · exact absurd hw' (htarget w hw)

theorem stored_of_save {w : Write} {u : Uid} {location : CLLocationCoordinate2D}
    (h : s.1.step e = some s'.1) (hw : s.1.accepted e = some w)
    (hsaves : SavesPosition w u location) :
    HoldsPosition (s'.1.server.lookup w.target) location := by
  rw [System.lookup_of_accepted h hw]
  have hstores := hsaves.stores (s.1.server.lookup w.target)
  exact ⟨hstores.1, hstores.2.1⟩

theorem kept_of_step (h : recording System.step recordSave s e = some s')
    (hapart : SavesApart s e) (hs : PositionsKept s) : PositionsKept s' := by
  have hstep := (recording_eq_some.mp h).1
  obtain ⟨hsaved, hother⟩ | ⟨i, w, u, location, rfl, hw, hsaves, hsaved⟩ := recorded_cases h hs
  · refine ⟨shape_of_step hstep hs, hsaved ▸ hs.account, fun j position hj => ?_⟩
    rw [hsaved] at hj
    refine stored_of_not_target hs hstep hj fun w hw htarget => ?_
    obtain ⟨u, hu⟩ := hs.account j position hj
    exact (hother w hw).2 u (htarget.trans hu)
  · -- a device either has just this position, or one in another document
    have hcases : ∀ j position, s'.2 j = some position →
        position = (w.target, location) ∨ (s.2 j = some position ∧ position.1 ≠ w.target) := by
      intro j position hj
      rw [hsaved] at hj
      by_cases hji : j = i
      · subst hji
        exact .inl (by simpa using hj.symm)
      · rw [Function.update_of_ne hji] at hj
        by_cases hsame : position.1 = w.target
        · exact .inl (Prod.ext hsame
            (hapart i w _ rfl hw hsaves.position j hji position hj hsame))
        · exact .inr ⟨hj, hsame⟩
    refine ⟨shape_of_step hstep hs, fun j position hj => ?_, fun j position hj => ?_⟩
    · obtain rfl | ⟨hold, -⟩ := hcases j position hj
      · exact ⟨u, hsaves.target⟩
      · exact hs.account j position hold
    · obtain rfl | ⟨hold, hne⟩ := hcases j position hj
      · exact stored_of_save hstep hw hsaves
      · refine stored_of_not_target hs hstep hold fun w' hw' => ?_
        obtain rfl := Option.some.inj (hw.symm.trans hw')
        exact hne.symm

/-- A save on another device's document with another coordinate is a loss. -/
theorem savesApart_of_survive (h : recording System.step recordSave s e = some s')
    (hs : PositionsKept s) (hsurvive : PositionsSurvive s') : SavesApart s e := by
  have hstep := (recording_eq_some.mp h).1
  rintro i w saved rfl hw hposition j hji position hj hsame
  obtain ⟨-, hother⟩ | ⟨i', w', u, location, he, hw', hsaves, hsaved⟩ := recorded_cases h hs
  · rw [(hother w hw).1] at hposition
    cases hposition
  · cases he
    obtain rfl := Option.some.inj (hw.symm.trans hw')
    obtain rfl := Option.some.inj (hsaves.position.symm.trans hposition)
    have hj' : s'.2 j = some position := by rw [hsaved, Function.update_of_ne hji, hj]
    have hstored := hsurvive.2 j position hj'
    rw [hsame] at hstored
    exact hstored.unique (stored_of_save hstep hw hsaves)

end Steps

/-- Every device's position survives the others' exactly along the runs in which
no save reaches the document another device's last position went to with another
coordinate. The document is the account's, so two devices of one account collide
there. -/
theorem positionsSurvive_iff (server : Server) (devices : ι → UIDevice)
    (users : ι → Option User) (es : List (Event ι)) :
    Along (recording System.step recordSave) (fun _ _ s => PositionsSurvive s)
        (System.launch server devices users, fun _ => none) es ↔
      Along (recording System.step recordSave) (fun s e _ => SavesApart s e)
        (System.launch server devices users, fun _ => none) es := by
  apply along_congr (I := PositionsKept)
  · intro s e s' h hapart hs
    exact kept_of_step h hapart hs
  · intro s e s' h hs
    constructor
    · exact savesApart_of_survive h hs
    · intro hapart
      have hkept := kept_of_step h hapart hs
      exact ⟨hkept.listed, hkept.stored⟩
  · exact kept_launch server devices users

section Examples

/-- Two devices, each of which saves one position. -/
def twoDevicesRun : List (Event Bool) :=
  [.app false (.didUpdateLocations [⟨1, 2⟩] 5), .acceptWrite false,
    .app true (.didUpdateLocations [⟨3, 4⟩] 6), .acceptWrite true]

def twoDevices (users : Bool → User) : Recorded Bool :=
  (System.launch ∅ (fun _ => System.phone) fun i => some (users i), fun _ => none)

/-- Both devices are signed in to one account: the first one's position is gone
from what a listening client learns. -/
theorem shared_account_loses_position :
    ∃ t saved, run (recording System.step recordSave) (twoDevices fun _ => Session.userA)
        twoDevicesRun = some (t, saved) ∧
      (∀ i, (t.clients i).writes = []) ∧
      saved false = some (locationDoc Session.userA.uid, ⟨1, 2⟩) ∧
      (∀ id, (LocationListeners.launch.listenForDeviceLocations
        (.ok (getDocuments t.server locationsCollection))).deviceLocations.lookup id ≠
          some ⟨1, 2⟩) ∧
      ¬ PositionsListed (t, saved) := by
  have hlost : ∀ id, (((∅ : Map String CLLocationCoordinate2D).insert "user_a" ⟨3, 4⟩).lookup id) ≠
      some ⟨1, 2⟩ := by
    intro id
    by_cases hid : id = "user_a"
    · subst hid
      decide
    · rw [AList.lookup_insert_ne hid]
      simp
  refine ⟨_, _, rfl, by decide, rfl, hlost, fun hlisted => ?_⟩
  obtain ⟨id, hid⟩ := hlisted LocationListeners.launch false _ rfl
  exact hlost id hid

end Examples

end FirebaseLogin
