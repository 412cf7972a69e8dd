import FirebaseLogin.Client.State

/-!
The app's functions as steps of a client. Each takes the client before the call
and gives the client after it together with the writes it issues, in order. A
Firestore reference that throws ends the process, so the step has no result.
-/

namespace FirebaseLogin

open DocumentStore

namespace UpdateUserView

def alert (v : UpdateUserView) (message : String) : UpdateUserView :=
  { v with alertMessage := message, showingAlert := true }

def opened (device : UIDevice) : UpdateUserView where
  name := ""
  email := ""
  deviceName := device.name
  showingAlert := false
  alertMessage := ""
  isLoading := true
  deviceUUID := device.deviceUUID
  history := ⟨false, none⟩

def loaded (v : UpdateUserView) : UpdateUserView := { v with isLoading := false }

/-- The callback of fetchUserInfo. Every way it ends opens the form. -/
def fetchUserInfoCallback (v : UpdateUserView) (currentUser : Option User) (answer : ReadAnswer) :
    UpdateUserView :=
  match answer.result with
  | .error error => (v.alert s!"Error obteniendo la información del usuario: {error}").loaded
  | .ok none => (v.alert "No se encontraron datos del usuario.").loaded
  | .ok (some data) =>
      { v.loaded with
        name := (asString (data.lookup "name")).getD ""
        email := ((asString (data.lookup "email")).or (currentUser.bind User.email)).getD ""
        history :=
          { v.history with
            revision := if (asString (data.lookup "name")).isSome then answer.revision else none } }

end UpdateUserView

def userData (user : User) (now : Timestamp) : Document :=
  dictionary [("uid", .string user.uid.val), ("name", .string (user.displayName.getD "")),
    ("email", .string (user.email.getD "")), ("createdAt", .timestamp now)]

def noUserMessage : String := "Error: No se encontró un usuario autenticado."

namespace Client

def updateScreen (c : Client) (screen : Nat) (f : UpdateUserView → UpdateUserView) : Client :=
  { c with screens := c.screens.modify screen f }

def alertDevices (c : Client) (message : String) : Client :=
  { c with deviceView := c.deviceView.alert message }

def createOrUpdateUserInFirestore (c : Client) (user : User) : Client :=
  { c with reads := c.reads ++ [⟨userDoc user.uid, .createOrUpdateUser user, none⟩] }

/-- The callback looks at the document only. A missing document and an error
take the same branch. -/
def createOrUpdateCallback (user : User) (now : Timestamp) :
    Except String (Option Document) → List Write
  | .ok (some _) => []
  | .ok none | .error _ => [⟨userDoc user.uid, .set (userData user now), .createUser⟩]

def fetchUserInfo (c : Client) (screen : Nat) : Client :=
  match c.session.currentUid with
  | none => c.updateScreen screen fun v => (v.alert noUserMessage).loaded
  | some userId => { c with reads := c.reads ++ [⟨userDoc userId, .fetchUserInfo screen, none⟩] }

def updateUserInfo (c : Client) (screen : Nat) (v : UpdateUserView) : Client × List Write :=
  match c.session.currentUid with
  | none => (c.updateScreen screen (·.alert noUserMessage), [])
  | some userId =>
      (c, [⟨userDoc userId, .merge (dictionary [("name", .string v.name)]),
        .updateUserInfo screen userId v.history⟩])

def deviceNameDoc (c : Client) (userId : Uid) : DocumentReference :=
  (devicesCollection userId).child c.device.deviceDocId

def updateDeviceName (c : Client) (screen : Nat) (userId : Uid) (now : Timestamp) : List Write :=
  match c.screens[screen]? with
  | none => []
  | some v =>
      [⟨c.deviceNameDoc userId,
        .merge (dictionary [("deviceName", .string v.deviceName), ("lastUpdated", .timestamp now),
          ("deviceUUID", .string v.deviceUUID)]),
        .updateDeviceName screen⟩]

/-- The common body of registerDevice and deleteDevice: the user is looked up,
then the text names a document of the user's devices. -/
def writeDevice (c : Client) (text : String) (operation : Mutation) (completion : Completion) :
    Except String (Client × List Write) :=
  match c.session.currentUid with
  | none => .ok (c.alertDevices noUserMessage, [])
  | some userId =>
      match (devicesCollection userId).document text with
      | .error message => .error message
      | .ok deviceDoc => .ok (c, [⟨deviceDoc, operation, completion⟩])

def registerDevice (c : Client) (uuid : String) (now : Timestamp) :
    Except String (Client × List Write) :=
  c.writeDevice uuid
    (.set (dictionary [("deviceName", .string c.device.name), ("registeredAt", .timestamp now)]))
    .registerDevice

def deleteDevice (c : Client) (deviceId : String) : Except String (Client × List Write) :=
  c.writeDevice deviceId .delete .deleteDevice

def saveLocationToFirestore (c : Client) (location : CLLocationCoordinate2D) (now : Timestamp) :
    List Write :=
  match c.session.currentUid with
  | none => []
  | some userId =>
      [⟨locationDoc userId,
        .merge (dictionary [("latitude", .double location.latitude),
          ("longitude", .double location.longitude), ("timestamp", .timestamp now),
          ("deviceName", .string c.locationManager.deviceName)]),
        .saveLocation⟩]

def didUpdateLocations (c : Client) (locations : List CLLocationCoordinate2D) (now : Timestamp) :
    Client × List Write :=
  match locations.getLast? with
  | none => (c, [])
  | some location =>
      ({ c with locationManager := { c.locationManager with currentLocation := some location } },
        c.saveLocationToFirestore location now)

def readCallback (c : Client) (index : Nat) (now : Timestamp) : Option (Client × List Write) :=
  match c.reads[index]? with
  | some ⟨_, .createOrUpdateUser user, some answer⟩ =>
      some ({ c with reads := c.reads.eraseIdx index },
        createOrUpdateCallback user now answer.result)
  | some ⟨_, .fetchUserInfo screen, some answer⟩ =>
      some (updateScreen { c with reads := c.reads.eraseIdx index } screen
        (·.fetchUserInfoCallback c.session.currentUser answer), [])
  | _ => none

def refreshDevices (c : Client) (message : String) : Client :=
  { c with deviceView := (c.deviceView.alert message).fetchDevices }

/-- The completion handler of a write, with the server's error if it has one. -/
def runCompletion (c : Client) (now : Timestamp) :
    Completion → Option String → Client × List Write
  | .createUser, _ | .saveLocation, _ | .updateDeviceName _, none => (c, [])
  | .updateUserInfo screen _ _, some error =>
      (c.updateScreen screen
        (·.alert s!"Error actualizando la información del usuario: {error}"), [])
  | .updateUserInfo screen userId _, none =>
      (c.updateScreen screen (·.alert "Información actualizada exitosamente."),
        c.updateDeviceName screen userId now)
  | .updateDeviceName screen, some error =>
      (c.updateScreen screen
        (·.alert s!"Error actualizando el nombre del dispositivo: {error}"), [])
  | .registerDevice, some error => (c.alertDevices s!"Error al registrar dispositivo: {error}", [])
  | .registerDevice, none => (c.refreshDevices "Dispositivo registrado exitosamente.", [])
  | .deleteDevice, some error => (c.alertDevices s!"Error eliminando el dispositivo: {error}", [])
  | .deleteDevice, none => (c.refreshDevices "Dispositivo eliminado exitosamente.", [])

def writeCallback (c : Client) (index : Nat) (now : Timestamp) : Option (Client × List Write) :=
  match c.acknowledgements[index]? with
  | none => none
  | some (completion, error) =>
      some (runCompletion { c with acknowledgements := c.acknowledgements.eraseIdx index } now
        completion error)

/-- The form of a screen, shown once the initial load has ended. -/
def form? (c : Client) (screen : Nat) : Option UpdateUserView :=
  c.screens[screen]?.filter fun v => !v.isLoading

def handle (c : Client) : AppEvent → Option (Client × List Write)
  | .auth event =>
      (c.session.step event).map fun (session, users) =>
        (users.foldl createOrUpdateUserInFirestore { c with session := session }, [])
  | .readCallback index now => c.readCallback index now
  | .writeCallback index now => c.writeCallback index now
  | .openProfile => some ({ c with screens := c.screens ++ [.opened c.device] }, [])
  | .profileAppeared screen =>
      (c.screens[screen]?.filter (·.isLoading)).map fun _ => (c.fetchUserInfo screen, [])
  | .editName screen name =>
      (c.form? screen).map fun _ =>
        (c.updateScreen screen fun v =>
          { v with name := name, history := { v.history with edited := true } }, [])
  | .editDeviceName screen name =>
      (c.form? screen).map fun _ =>
        (c.updateScreen screen fun v => { v with deviceName := name }, [])
  | .updateUserInfo screen => (c.form? screen).map (c.updateUserInfo screen)
  | .deviceList event =>
      (c.deviceView.step event).map fun view => ({ c with deviceView := view }, [])
  | .scanFailed error => some (c.alertDevices s!"Error escaneando QR: {error}", [])
  | .registerDevice uuid now => (c.registerDevice uuid now).toOption
  | .deleteDevice row =>
      if row ∈ c.deviceView.devices then (c.deleteDevice row.deviceId).toOption else none
  | .didUpdateLocations locations now => some (c.didUpdateLocations locations now)

end Client

end FirebaseLogin
