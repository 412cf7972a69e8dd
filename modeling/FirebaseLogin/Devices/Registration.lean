import FirebaseLogin.Devices.StoredList
import FirebaseLogin.System

/-!
registerDevice on the text of any QR code. The text goes to Firestore as a
document path: it may throw, be cut at its slashes into a document deeper down,
or name the device's own document. And the list shows a device only under a
user whose profile exists.
-/

namespace FirebaseLogin

open DocumentStore Execution

/-- A write that registers `text` for `u`: it goes to the document with that id,
an error is reported and writes nothing, a success is reported and the refresh it
starts lists the device. -/
structure Registers (server : Server) (u : Uid) (text : String) (w : Write) : Prop where
  target : w.target.path = (devicesCollection u).path ++ [text]
  refused : ∀ (c : Client) (now : Timestamp) (error : String),
    (c.runCompletion now w.completion (some error)).2 = [] ∧
      (c.runCompletion now w.completion (some error)).1.deviceView.showingAlert = true
  reported : ∀ (c : Client) (now : Timestamp), c.runCompletion now w.completion none =
    (c.refreshDevices "Dispositivo registrado exitosamente.", [])
  listed : ∀ pre es v, Refreshed (applyAt server w.target w.operation) pre es v →
    ∃ row ∈ v.devices, row.deviceId = text

/-- registerDevice does not throw, and it alerts and writes nothing, or registers
exactly the scanned text. -/
def RegistersExactly (c : Client) (server : Server) (u : Uid) (text : String) (now : Timestamp) :
    Prop :=
  ∃ c' ws, c.registerDevice text now = .ok (c', ws) ∧
    ((ws = [] ∧ c'.deviceView.showingAlert = true) ∨ ∃ w, ws = [w] ∧ Registers server u text w)

/-- The store lists the device for someone once `u` has it: `u` has a profile,
or another user with a profile has the device already. -/
def ListedOnceStored (server : Server) (u : Uid) (id : String) : Prop :=
  server.lookup (userDoc u) ≠ none ∨
    ∃ uid, uid ≠ u.val ∧ server.lookup (profileRef uid) ≠ none ∧
      server.lookup (deviceRef uid id) ≠ none

theorem exists_shows_iff {server : Server} {uid id : String} :
    (∃ row : DeviceRow, row.deviceId = id ∧ Shows server uid row) ↔
      server.lookup (profileRef uid) ≠ none ∧ server.lookup (deviceRef uid id) ≠ none := by
  constructor
  · rintro ⟨row, rfl, profile, hprofile, hdevice, -⟩
    exact ⟨by simp [hprofile], hdevice⟩
  · rintro ⟨hprofile, hdevice⟩
    obtain ⟨profile, hprofile⟩ := Option.ne_none_iff_exists'.mp hprofile
    exact ⟨⟨id, ownerName profile, ownerEmail profile⟩, rfl, profile, hprofile, hdevice,
      reads_asString _ _, reads_asString _ _⟩

variable {server : Server} {u : Uid} {s : Segment} {data : Document}

/-- Which rows the store has for a device once `u` has stored it. -/
theorem exists_shows_set :
    (∃ uid, ∃ row : DeviceRow, row.deviceId = s.val ∧
      Shows (applyAt server ((devicesCollection u).child s) (.set data)) uid row) ↔
      ListedOnceStored server u s.val := by
  have hother : ∀ d, d ≠ deviceRef u.val s.val →
      (applyAt server ((devicesCollection u).child s) (.set data)).lookup d = server.lookup d :=
    fun d hd => lookup_applyAt_of_ne server _ hd
  have hself : (applyAt server ((devicesCollection u).child s) (.set data)).lookup
      (deviceRef u.val s.val) = some data := lookup_applyAt_self server _ _
  have hprofile := hother (profileRef u.val) (by simp [profileRef, deviceRef])
  simp only [exists_shows_iff]
  constructor
  · rintro ⟨uid, huid, hdevice⟩
    by_cases hu : uid = u.val
    · subst hu
      exact .inl (hprofile ▸ huid)
    · rw [hother _ (by simp [profileRef, deviceRef])] at huid
      rw [hother _ (by simp [deviceRef, hu])] at hdevice
      exact .inr ⟨uid, hu, huid, hdevice⟩
  · rintro (hu | ⟨uid, hu, huid, hdevice⟩)
    · exact ⟨u.val, hprofile ▸ hu, by simp [hself]⟩
    · refine ⟨uid, ?_, ?_⟩
      · rwa [hother _ (by simp [profileRef, deviceRef])]
      · rwa [hother _ (by simp [deviceRef, hu])]

/-- The write registerDevice issues for the document the text names. -/
def registration (c : Client) (deviceDoc : DocumentReference) (now : Timestamp) : Write :=
  ⟨deviceDoc,
    .set (dictionary [("deviceName", .string c.device.name), ("registeredAt", .timestamp now)]),
    .registerDevice⟩

section SignedIn

variable {c : Client} {text : String} {now : Timestamp}

theorem registerDevice_ok (huser : c.session.currentUid = some u) {deviceDoc : DocumentReference}
    (hdoc : (devicesCollection u).document text = .ok deviceDoc) :
    c.registerDevice text now = .ok (c, [registration c deviceDoc now]) := by
  simp [Client.registerDevice, Client.writeDevice, huser, hdoc, registration]

theorem registerDevice_error (huser : c.session.currentUid = some u) {message : String}
    (hdoc : (devicesCollection u).document text = .error message) :
    c.registerDevice text now = .error message := by
  simp [Client.registerDevice, Client.writeDevice, huser, hdoc]

end SignedIn

/-- The registration of a single segment lists the device exactly when the store
lists it once it is stored. -/
theorem registers_iff (c : Client) (now : Timestamp) :
    Registers server u s.val (registration c ((devicesCollection u).child s) now) ↔
      ListedOnceStored server u s.val := by
  rw [← exists_shows_set]
  constructor
  · intro h
    obtain ⟨v, hv⟩ := exists_refreshed (applyAt server
      (registration c ((devicesCollection u).child s) now).target
      (registration c ((devicesCollection u).child s) now).operation) completed_nil
    obtain ⟨row, hrow, hid⟩ := h.listed _ _ v hv
    obtain ⟨uid, hshows⟩ := hv.mem_devices_iff.mp hrow
    exact ⟨uid, row, hid, hshows⟩
  · rintro ⟨uid, row, hid, hshows⟩
    refine ⟨rfl, fun _ _ _ => ⟨rfl, rfl⟩, fun _ _ => rfl, fun pre es v hv => ?_⟩
    exact ⟨row, hv.mem_devices_iff.mpr ⟨uid, hshows⟩, hid⟩

/-- Registering a scanned text stores and lists exactly that device when the text
is a single path segment and somebody with a profile will have the device; on any
other text it throws, or writes elsewhere, or the device is not listed. -/
theorem registersExactly_iff (c : Client) (server : Server) (u : Uid) (text : String)
    (now : Timestamp) (huser : c.session.currentUid = some u) :
    RegistersExactly c server u text now ↔
      text ≠ "" ∧ '/' ∉ text.toList ∧ ListedOnceStored server u text := by
  constructor
  · rintro ⟨c', ws, hok, hcase⟩
    cases hdoc : (devicesCollection u).document text with
    | error message =>
        rw [registerDevice_error huser hdoc] at hok
        cases hok
    | ok deviceDoc =>
        rw [registerDevice_ok huser hdoc] at hok
        cases hok
        obtain ⟨hnil, -⟩ | ⟨w, hw, hregisters⟩ := hcase
        · cases hnil
        · cases hw
          obtain ⟨hne, hslash⟩ := segment_of_document hdoc hregisters.target
          rw [document_segment (devicesCollection u) ⟨text, hne, hslash⟩] at hdoc
          cases hdoc
          exact ⟨hne, hslash, (registers_iff (s := ⟨text, hne, hslash⟩) c now).mp hregisters⟩
  · rintro ⟨hne, hslash, hlisted⟩
    have hdoc := document_segment (devicesCollection u) ⟨text, hne, hslash⟩
    refine ⟨c, _, registerDevice_ok huser hdoc, .inr ⟨_, rfl, ?_⟩⟩
    exact (registers_iff (s := ⟨text, hne, hslash⟩) c now).mpr hlisted

section Examples

theorem registersExactly_tablet :
    RegistersExactly System.signedInPhone System.storedProfile Session.userA.uid "tablet" 1 :=
  (registersExactly_iff System.signedInPhone System.storedProfile Session.userA.uid "tablet" 1
    rfl).mpr ⟨by decide, by decide, .inl (by decide)⟩

/-- A code with a web address ends the process, and one with three segments
writes below another document. -/
theorem scanned_address_throws :
    (System.signedInPhone.registerDevice "https://example.com" 1 =
        .error "Invalid path (https://example.com). Paths must not contain // in them.") ∧
      (∃ w, System.signedInPhone.registerDevice "a/b/c" 1 = .ok (System.signedInPhone, [w]) ∧
        w.target.path = ["users", "a", "devices", "a", "b", "c"]) ∧
      ¬ RegistersExactly System.signedInPhone System.storedProfile Session.userA.uid
        "https://example.com" 1 := by
  have hthrows : System.signedInPhone.registerDevice "https://example.com" 1 =
      .error "Invalid path (https://example.com). Paths must not contain // in them." := by
    rfl
  refine ⟨hthrows, ⟨_, rfl, by decide⟩, ?_⟩
  rintro ⟨c', ws, hok, -⟩
  rw [hthrows] at hok
  cases hok

end Examples

end FirebaseLogin
