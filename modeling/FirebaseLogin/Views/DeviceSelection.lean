import FirebaseLogin.Firestore.Document
import FirebaseLogin.Library.Execution

/-!
DeviceSelectionView.fetchDevices and its two levels of callbacks. The users
callback empties the list and issues one devices query per user; each devices
callback appends. The callbacks of several calls share the list, and nothing in
them says which call is the latest. The number of the call a query belongs to is
kept with it only to tell the pending closures apart.
-/

namespace FirebaseLogin

open Execution

structure DeviceRow where
  deviceId : String
  ownerName : String
  ownerEmail : String
  deriving DecidableEq

/-- A pending inner getDocuments with the variables its closure captured. -/
structure DevicesQuery where
  fetch : Nat
  userId : String
  ownerName : String
  ownerEmail : String
  deriving DecidableEq

def DevicesQuery.row (q : DevicesQuery) (deviceId : String) : DeviceRow :=
  ⟨deviceId, q.ownerName, q.ownerEmail⟩

structure DeviceSelectionView where
  devices : List DeviceRow
  showingAlert : Bool
  alertMessage : String
  fetches : Nat
  usersQueries : List Nat
  devicesQueries : List DevicesQuery
  deriving DecidableEq

inductive DeviceListEvent where
  | fetchDevices
  | usersCallback (fetch : Nat) (answer : Except String QuerySnapshot)
  | devicesCallback (query : DevicesQuery) (answer : Except String QuerySnapshot)

def ownerName (userData : Document) : String :=
  (asString (userData.lookup "name")).getD "Desconocido"

def ownerEmail (userData : Document) : String :=
  (asString (userData.lookup "email")).getD "Desconocido"

def devicesQuery (fetch : Nat) (document : String × Document) : DevicesQuery :=
  ⟨fetch, document.1, ownerName document.2, ownerEmail document.2⟩

def QuerySnapshot.ids (s : QuerySnapshot) : List String := s.documents.map Prod.fst

theorem mem_ids_of_path {store : Server} {c : CollectionReference} {id : String}
    {d : DocumentReference} (hd : d.path = c.path ++ [id]) :
    id ∈ (getDocuments store c).ids ↔ store.lookup d ≠ none := by
  rw [← Option.isSome_iff_ne_none, Option.isSome_iff_exists]
  simp only [QuerySnapshot.ids, List.mem_map]
  constructor
  · rintro ⟨⟨id, document⟩, hmem, rfl⟩
    exact ⟨document, (mem_getDocuments_of_path hd).mp hmem⟩
  · rintro ⟨document, hlookup⟩
    exact ⟨(id, document), (mem_getDocuments_of_path hd).mpr hlookup, rfl⟩

namespace DeviceSelectionView

def launch : DeviceSelectionView := ⟨[], false, "", 0, [], []⟩

def alert (v : DeviceSelectionView) (message : String) : DeviceSelectionView :=
  { v with alertMessage := message, showingAlert := true }

def fetchDevices (v : DeviceSelectionView) : DeviceSelectionView :=
  { v with fetches := v.fetches + 1, usersQueries := v.usersQueries ++ [v.fetches] }

def usersCallback (v : DeviceSelectionView) (fetch : Nat) :
    Except String QuerySnapshot → DeviceSelectionView
  | .error error => v.alert s!"Error obteniendo dispositivos: {error}"
  | .ok snapshot =>
      { v with
        devices := []
        devicesQueries := v.devicesQueries ++ snapshot.documents.map (devicesQuery fetch) }

def devicesCallback (v : DeviceSelectionView) (query : DevicesQuery) :
    Except String QuerySnapshot → DeviceSelectionView
  | .error _ => v
  | .ok snapshot => { v with devices := v.devices ++ snapshot.ids.map query.row }

def step (v : DeviceSelectionView) : DeviceListEvent → Option DeviceSelectionView
  | .fetchDevices => some v.fetchDevices
  | .usersCallback fetch answer =>
      if fetch ∈ v.usersQueries then
        some ({ v with usersQueries := v.usersQueries.erase fetch }.usersCallback fetch answer)
      else none
  | .devicesCallback query answer =>
      if query ∈ v.devicesQueries then
        some ({ v with devicesQueries := v.devicesQueries.erase query }.devicesCallback query answer)
      else none

/-- Every callback has been delivered. -/
def Settled (v : DeviceSelectionView) : Prop := v.usersQueries = [] ∧ v.devicesQueries = []

instance (v : DeviceSelectionView) : Decidable v.Settled := inferInstanceAs (Decidable (_ ∧ _))

end DeviceSelectionView

/-- One row as appended: the query whose callback appended it, and the device. -/
structure Contribution where
  query : DevicesQuery
  deviceId : String
  deriving DecidableEq

namespace Contribution

def row (c : Contribution) : DeviceRow := c.query.row c.deviceId

end Contribution

namespace DeviceListEvent

/-- The event is a users callback that carries a snapshot: it empties the list. -/
def Clears : DeviceListEvent → Prop
  | .usersCallback _ (.ok _) => True
  | _ => False

instance : (e : DeviceListEvent) → Decidable e.Clears
  | .usersCallback _ (.ok _) => isTrue trivial
  | .usersCallback _ (.error _) | .devicesCallback _ _ | .fetchDevices => isFalse id

def appends : DeviceListEvent → List Contribution
  | .devicesCallback query (.ok snapshot) => snapshot.ids.map (⟨query, ·⟩)
  | _ => []

def issues : DeviceListEvent → List DevicesQuery
  | .usersCallback fetch (.ok snapshot) => snapshot.documents.map (devicesQuery fetch)
  | _ => []

def delivers : DeviceListEvent → List DevicesQuery
  | .devicesCallback query _ => [query]
  | _ => []

end DeviceListEvent

/-- What the history has appended since the list was last emptied. -/
def contributions (es : List DeviceListEvent) : List Contribution :=
  es.foldl (fun acc e => if e.Clears then [] else acc ++ e.appends) []

end FirebaseLogin
