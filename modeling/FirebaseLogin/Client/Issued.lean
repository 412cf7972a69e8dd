import FirebaseLogin.Client.Handlers

/-!
The writes of the app, said once. `IssuedBy` lists every write an event can
issue with the guard it is issued under; later modules argue from it and do not
open the handlers again.
-/

namespace FirebaseLogin

open DocumentStore

namespace Client

/-- Every write of the app. Creation and the device name take the uid their
closure captured; the other four look the user up as they write. -/
inductive IssuedBy (c : Client) : AppEvent → Write → Prop where
  | createUser {index : Nat} {now : Timestamp} {reference : DocumentReference} {user : User}
      {answer : ReadAnswer}
      (hread : c.reads[index]? = some ⟨reference, .createOrUpdateUser user, some answer⟩)
      (hmissing : ∀ d, answer.result ≠ .ok (some d)) :
      IssuedBy c (.readCallback index now)
        ⟨userDoc user.uid, .set (userData user now), .createUser⟩
  | updateUserInfo {screen : Nat} {v : UpdateUserView} {userId : Uid}
      (hform : c.form? screen = some v) (huser : c.session.currentUid = some userId) :
      IssuedBy c (.updateUserInfo screen)
        ⟨userDoc userId, .merge (dictionary [("name", .string v.name)]),
          .updateUserInfo screen userId v.history⟩
  | updateDeviceName {index : Nat} {now : Timestamp} {screen : Nat} {userId : Uid}
      {history : NameHistory} {v : UpdateUserView}
      (hack : c.acknowledgements[index]? = some (.updateUserInfo screen userId history, none))
      (hscreen : c.screens[screen]? = some v) :
      IssuedBy c (.writeCallback index now)
        ⟨c.deviceNameDoc userId,
          .merge (dictionary [("deviceName", .string v.deviceName),
            ("lastUpdated", .timestamp now), ("deviceUUID", .string v.deviceUUID)]),
          .updateDeviceName screen⟩
  | registerDevice {uuid : String} {now : Timestamp} {userId : Uid}
      {deviceDoc : DocumentReference} (huser : c.session.currentUid = some userId)
      (hdoc : (devicesCollection userId).document uuid = .ok deviceDoc) :
      IssuedBy c (.registerDevice uuid now)
        ⟨deviceDoc,
          .set (dictionary [("deviceName", .string c.device.name), ("registeredAt", .timestamp now)]),
          .registerDevice⟩
  | deleteDevice {row : DeviceRow} {userId : Uid} {deviceDoc : DocumentReference}
      (hrow : row ∈ c.deviceView.devices) (huser : c.session.currentUid = some userId)
      (hdoc : (devicesCollection userId).document row.deviceId = .ok deviceDoc) :
      IssuedBy c (.deleteDevice row) ⟨deviceDoc, .delete, .deleteDevice⟩
  | saveLocation {locations : List CLLocationCoordinate2D} {location : CLLocationCoordinate2D}
      {now : Timestamp} {userId : Uid} (hlast : locations.getLast? = some location)
      (huser : c.session.currentUid = some userId) :
      IssuedBy c (.didUpdateLocations locations now)
        ⟨locationDoc userId,
          .merge (dictionary [("latitude", .double location.latitude),
            ("longitude", .double location.longitude), ("timestamp", .timestamp now),
            ("deviceName", .string c.locationManager.deviceName)]),
          .saveLocation⟩

variable {c c' : Client} {e : AppEvent} {ws : List Write} {w : Write}
  {index : Nat} {now : Timestamp}

/-- A read callback answers a createOrUpdateUser read or a fetchUserInfo read. -/
theorem readCallback_cases (h : c.readCallback index now = some (c', ws)) :
    (∃ reference user answer,
      c.reads[index]? = some ⟨reference, .createOrUpdateUser user, some answer⟩ ∧
      c' = { c with reads := c.reads.eraseIdx index } ∧
      ws = createOrUpdateCallback user now answer.result) ∨
    (∃ reference screen answer,
      c.reads[index]? = some ⟨reference, .fetchUserInfo screen, some answer⟩ ∧
      c' = updateScreen { c with reads := c.reads.eraseIdx index } screen
        (·.fetchUserInfoCallback c.session.currentUser answer) ∧
      ws = []) := by
  unfold readCallback at h
  split at h
  · next reference user answer hread =>
      cases h
      exact .inl ⟨reference, user, answer, hread, rfl, rfl⟩
  · next reference screen answer hread =>
      cases h
      exact .inr ⟨reference, screen, answer, hread, rfl, rfl⟩
  · cases h

theorem createOrUpdateCallback_cases (user : User) (now : Timestamp)
    (result : Except String (Option Document)) :
    (∃ d, result = .ok (some d) ∧ createOrUpdateCallback user now result = []) ∨
    ((∀ d, result ≠ .ok (some d)) ∧ createOrUpdateCallback user now result =
      [⟨userDoc user.uid, .set (userData user now), .createUser⟩]) := by
  match result with
  | .ok (some d) => exact .inl ⟨d, rfl, rfl⟩
  | .ok none => exact .inr ⟨nofun, rfl⟩
  | .error _ => exact .inr ⟨nofun, rfl⟩

theorem writeCallback_cases (h : c.writeCallback index now = some (c', ws)) :
    ∃ completion error, c.acknowledgements[index]? = some (completion, error) ∧
      runCompletion { c with acknowledgements := c.acknowledgements.eraseIdx index } now
        completion error = (c', ws) := by
  unfold writeCallback at h
  split at h
  · cases h
  · next completion error hack => exact ⟨completion, error, hack, by simpa using h⟩

/-- Of the completion handlers only the one of a successful updateUserInfo
writes. -/
theorem runCompletion_writes {completion : Completion} {error : Option String}
    (h : c.runCompletion now completion error = (c', ws)) (hw : w ∈ ws) :
    ∃ screen userId history, completion = .updateUserInfo screen userId history ∧ error = none ∧
      w ∈ c.updateDeviceName screen userId now := by
  cases completion with
  | updateUserInfo screen userId history =>
      cases error with
      | none =>
          cases h
          exact ⟨screen, userId, history, rfl, rfl, hw⟩
      | some error => cases h; cases hw
  | createUser | saveLocation => cases h; cases hw
  | updateDeviceName screen | registerDevice | deleteDevice =>
      cases error <;> (cases h; cases hw)

theorem mem_updateDeviceName {screen : Nat} {userId : Uid}
    (hw : w ∈ c.updateDeviceName screen userId now) :
    ∃ v, c.screens[screen]? = some v ∧
      w = ⟨c.deviceNameDoc userId,
        .merge (dictionary [("deviceName", .string v.deviceName), ("lastUpdated", .timestamp now),
          ("deviceUUID", .string v.deviceUUID)]),
        .updateDeviceName screen⟩ := by
  unfold updateDeviceName at hw
  split at hw
  · cases hw
  · next v hv => exact ⟨v, hv, List.mem_singleton.mp hw⟩

theorem writeDevice_cases {text : String} {operation : Mutation} {completion : Completion}
    (h : (c.writeDevice text operation completion).toOption = some (c', ws)) :
    (c' = c.alertDevices noUserMessage ∧ ws = []) ∨
    ∃ userId deviceDoc, c.session.currentUid = some userId ∧
      (devicesCollection userId).document text = .ok deviceDoc ∧ c' = c ∧
      ws = [⟨deviceDoc, operation, completion⟩] := by
  unfold writeDevice at h
  split at h
  · cases h
    exact .inl ⟨rfl, rfl⟩
  · next userId hu =>
      split at h
      · cases h
      · next deviceDoc hdoc =>
          cases h
          exact .inr ⟨userId, deviceDoc, hu, hdoc, rfl, rfl⟩

theorem issuedBy_of_handle (h : c.handle e = some (c', ws)) (hw : w ∈ ws) : IssuedBy c e w := by
  cases e with
  | auth event =>
      simp only [handle, Option.map_eq_some_iff, Prod.mk.injEq] at h
      obtain ⟨_, _, _, rfl⟩ := h
      cases hw
  | readCallback index now =>
      obtain ⟨reference, user, answer, hread, -, rfl⟩ | ⟨_, _, _, _, -, rfl⟩ := readCallback_cases h
      · obtain ⟨d, -, hnone⟩ | ⟨hmissing, hset⟩ :=
          createOrUpdateCallback_cases user now answer.result
        · simp [hnone] at hw
        · obtain rfl : w = _ := by simpa [hset] using hw
          exact .createUser hread hmissing
      · cases hw
  | writeCallback index now =>
      obtain ⟨completion, error, hack, hrun⟩ := writeCallback_cases h
      obtain ⟨screen, userId, history, rfl, rfl, hmem⟩ := runCompletion_writes hrun hw
      obtain ⟨v, hv, rfl⟩ := mem_updateDeviceName hmem
      exact .updateDeviceName hack hv
  | openProfile | scanFailed error => cases h; cases hw
  | profileAppeared screen | editName screen name | editDeviceName screen name
  | deviceList event =>
      simp only [handle, Option.map_eq_some_iff, Prod.mk.injEq] at h
      obtain ⟨_, _, _, rfl⟩ := h
      cases hw
  | updateUserInfo screen =>
      obtain ⟨v, hform, hv⟩ := Option.map_eq_some_iff.mp h
      unfold updateUserInfo at hv
      split at hv
      · cases hv; cases hw
      · next userId huser =>
          cases hv
          obtain rfl := List.mem_singleton.mp hw
          exact .updateUserInfo hform huser
  | registerDevice uuid now =>
      obtain ⟨-, rfl⟩ | ⟨userId, deviceDoc, huser, hdoc, -, rfl⟩ :=
        writeDevice_cases h
      · cases hw
      · obtain rfl := List.mem_singleton.mp hw
        exact .registerDevice huser hdoc
  | deleteDevice row =>
      simp only [handle, Option.ite_none_right_eq_some] at h
      obtain ⟨hrow, h⟩ := h
      obtain ⟨-, rfl⟩ | ⟨userId, deviceDoc, huser, hdoc, -, rfl⟩ :=
        writeDevice_cases h
      · cases hw
      · obtain rfl := List.mem_singleton.mp hw
        exact .deleteDevice hrow huser hdoc
  | didUpdateLocations locations now =>
      obtain hlocations : c.didUpdateLocations locations now = (c', ws) := by simpa [handle] using h
      unfold didUpdateLocations at hlocations
      split at hlocations
      · cases hlocations; cases hw
      · next location hlast =>
          cases hlocations
          unfold saveLocationToFirestore at hw
          split at hw
          · cases hw
          · next userId huser =>
              obtain rfl := List.mem_singleton.mp hw
              exact .saveLocation hlast huser

end Client

end FirebaseLogin
