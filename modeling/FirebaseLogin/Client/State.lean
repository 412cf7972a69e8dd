import FirebaseLogin.Auth.Session
import FirebaseLogin.Views.DeviceSelection

/-!
One running copy of the app: its session, its outstanding Firestore reads, its
queue of pending writes and the views that issue them.

A closure handed to Firestore is a value of `ReadContinuation` or `Completion`
with the variables it captured. Each opening of the profile screen is an entry
of `screens`; the closures it hands out keep its index, as the Swift closures
keep its @State storage.

`NameHistory` and `ReadAnswer.revision` are history variables. They record which
document's name, in which of its revisions, the name field of a form goes back
to, and nothing the app does depends on them.
-/

namespace FirebaseLogin

open DocumentStore

/-- The uuidString of identifierForVendor. -/
structure VendorIdentifier where
  uuidString : String
  length_eq : uuidString.length = 36
  hex : ∀ c ∈ uuidString.toList, c.isDigit ∨ c ∈ ['A', 'B', 'C', 'D', 'E', 'F', '-']
  deriving DecidableEq

def VendorIdentifier.segment (x : VendorIdentifier) : Segment where
  val := x.uuidString
  nonempty h := by
    have := x.length_eq
    simp [h] at this
  noSlash h := absurd (x.hex '/' h) (by decide)

structure UIDevice where
  name : String
  identifierForVendor : Option VendorIdentifier
  deriving DecidableEq

/-- UpdateUserView's deviceUUID, the text its QR code shows. -/
def UIDevice.deviceUUID (d : UIDevice) : String :=
  (d.identifierForVendor.map VendorIdentifier.uuidString).getD "Unknown UUID"

/-- The document id updateDeviceName builds from a device id. -/
def deviceDocId (deviceId : Segment) : Segment := deviceId.prepend "device_" (by decide)

def UIDevice.deviceDocId (d : UIDevice) : Segment :=
  FirebaseLogin.deviceDocId
    ((d.identifierForVendor.map VendorIdentifier.segment).getD
      ⟨"unknown_device", by decide, by decide⟩)

structure CLLocationCoordinate2D where
  latitude : BitVec 64
  longitude : BitVec 64
  deriving DecidableEq

structure NameHistory where
  edited : Bool
  revision : Option (DocumentReference × Nat)
  deriving DecidableEq

structure UpdateUserView where
  name : String
  email : String
  deviceName : String
  showingAlert : Bool
  alertMessage : String
  isLoading : Bool
  deviceUUID : String
  history : NameHistory
  deriving DecidableEq

structure LocationManager where
  currentLocation : Option CLLocationCoordinate2D
  deviceName : String
  deriving DecidableEq

inductive ReadContinuation where
  | createOrUpdateUser (user : User)
  | fetchUserInfo (screen : Nat)
  deriving DecidableEq

/-- How a getDocument ends: an error, or a snapshot of a document that may be
missing. The revision is that of the name the server then held, if the snapshot
shows the same name. -/
structure ReadAnswer where
  result : Except String (Option Document)
  revision : Option (DocumentReference × Nat)

structure PendingRead where
  reference : DocumentReference
  continuation : ReadContinuation
  answer : Option ReadAnswer

inductive Completion where
  | createUser
  | updateUserInfo (screen : Nat) (userId : Uid) (history : NameHistory)
  | updateDeviceName (screen : Nat)
  | registerDevice
  | deleteDevice
  | saveLocation
  deriving DecidableEq

structure Write where
  target : DocumentReference
  operation : Mutation
  completion : Completion
  deriving DecidableEq

structure Client where
  device : UIDevice
  session : Session
  reads : List PendingRead
  writes : List Write
  acknowledgements : List (Completion × Option String)
  screens : List UpdateUserView
  deviceView : DeviceSelectionView
  locationManager : LocationManager

inductive AppEvent where
  | auth (event : AuthEvent)
  | readCallback (index : Nat) (now : Timestamp)
  | writeCallback (index : Nat) (now : Timestamp)
  | openProfile
  | profileAppeared (screen : Nat)
  | editName (screen : Nat) (name : String)
  | editDeviceName (screen : Nat) (name : String)
  | updateUserInfo (screen : Nat)
  | deviceList (event : DeviceListEvent)
  | scanFailed (error : String)
  | registerDevice (uuid : String) (now : Timestamp)
  | deleteDevice (row : DeviceRow)
  | didUpdateLocations (locations : List CLLocationCoordinate2D) (now : Timestamp)

def Client.launch (device : UIDevice) (currentUser : Option User) : Client where
  device := device
  session := .launch currentUser
  reads := []
  writes := []
  acknowledgements := []
  screens := []
  deviceView := .launch
  locationManager := ⟨none, "MyDeviceName"⟩

end FirebaseLogin
