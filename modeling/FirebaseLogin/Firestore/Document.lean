import FirebaseLogin.Library.DocumentStore
import FirebaseLogin.Firestore.Reference

/-!
Documents, the server's store and collection queries. A coordinate is carried
by the bit pattern of its double: the app stores and copies it, it never
computes with it. A query snapshot lists each document id once.
-/

namespace FirebaseLogin

open DocumentStore

abbrev Timestamp := Nat

inductive Value where
  | null
  | boolean (b : Bool)
  | integer (i : Int)
  | double (bits : BitVec 64)
  | timestamp (t : Timestamp)
  | string (s : String)
  | bytes (bytes : List UInt8)
  | reference (name : String)
  | geoPoint (latitude longitude : BitVec 64)
  deriving DecidableEq

/-- The cast `as? String` of a field that may be absent. -/
def asString : Option Value → Option String
  | some (.string s) => some s
  | _ => none

theorem asString_isSome {x : Option Value} (h : (asString x).isSome) :
    x = some (.string ((asString x).getD "")) := by
  match x, h with
  | some (.string s), _ => rfl

/-- The text of a string field, or the fallback where the field is absent or of
another type. -/
def Reads (field : Option Value) (fallback text : String) : Prop :=
  field = some (.string text) ∨ (∀ s, field ≠ some (.string s)) ∧ text = fallback

theorem reads_iff {field : Option Value} {fallback text : String} :
    Reads field fallback text ↔ (asString field).getD fallback = text := by
  unfold Reads
  match field with
  | some (.string s) => simp [asString]
  | none | some .null | some (.boolean _) | some (.integer _) | some (.double _)
  | some (.timestamp _) | some (.bytes _) | some (.reference _) | some (.geoPoint _ _) =>
      simp [asString, eq_comm]

instance (field : Option Value) (fallback text : String) :
    Decidable (Reads field fallback text) := decidable_of_iff _ reads_iff.symm

theorem reads_asString (field : Option Value) (fallback : String) :
    Reads field fallback ((asString field).getD fallback) :=
  reads_iff.mpr rfl

abbrev Document := Fields String Value

abbrev Server := Store DocumentReference String Value

abbrev Mutation := Operation String Value

/-- A dictionary literal with distinct keys. -/
def dictionary (entries : List (String × Value)) : Document :=
  entries.foldr (fun e d => d.insert e.1 e.2) ∅

@[simp] theorem lookup_dictionary_nil (name : String) : (dictionary []).lookup name = none := rfl

@[simp] theorem lookup_dictionary_cons (entry : String × Value) (entries : List (String × Value))
    (name : String) :
    (dictionary (entry :: entries)).lookup name =
      if name = entry.1 then some entry.2 else (dictionary entries).lookup name := by
  by_cases h : name = entry.1
  · subst h
    simp [dictionary]
  · rw [if_neg h]
    exact AList.lookup_insert_ne h

structure QuerySnapshot where
  documents : List (String × Document)
  distinct : (documents.map Prod.fst).Nodup

def childId (c : CollectionReference) (d : DocumentReference) : Option String :=
  if d.path.dropLast = c.path then d.path.getLast? else none

theorem childId_eq_some {c : CollectionReference} {d : DocumentReference} {id : String} :
    childId c d = some id ↔ d.path = c.path ++ [id] := by
  unfold childId
  constructor
  · intro h
    split at h
    · next hc => rw [← hc, List.dropLast_append_getLast? id h]
    · cases h
  · intro h
    simp [h]

private theorem childId_injective (c : CollectionReference) (d e : DocumentReference) (id : String)
    (hd : childId c d = some id) (he : childId c e = some id) : d = e :=
  DocumentReference.ext ((childId_eq_some.mp hd).trans (childId_eq_some.mp he).symm)

/-- The documents directly inside a collection. -/
def getDocuments (store : Server) (c : CollectionReference) : QuerySnapshot where
  documents := store.entries.filterMap fun e => (childId c e.1).map fun id => (id, e.2)
  distinct := by
    have hkeys : (store.entries.filterMap fun e =>
        (childId c e.1).map fun id => (id, e.2)).map Prod.fst =
          store.keys.filterMap (childId c) := by
      simp only [AList.keys, List.keys, List.filterMap_map, List.map_filterMap]
      congr 1
      funext e
      cases h : childId c e.1 <;> simp [h]
    rw [hkeys]
    exact store.keys_nodup.filterMap (childId_injective c)

theorem mem_getDocuments {store : Server} {c : CollectionReference} {id : String}
    {document : Document} :
    (id, document) ∈ (getDocuments store c).documents ↔
      ∃ d : DocumentReference, d.path = c.path ++ [id] ∧ store.lookup d = some document := by
  simp only [getDocuments, List.mem_filterMap, Option.map_eq_some_iff, Prod.mk.injEq]
  constructor
  · rintro ⟨⟨d, document'⟩, hmem, id', hid, rfl, rfl⟩
    exact ⟨d, childId_eq_some.mp hid, AList.mem_lookup_iff.mpr hmem⟩
  · rintro ⟨d, hd, hlookup⟩
    exact ⟨⟨d, document⟩, AList.mem_lookup_iff.mp hlookup, id, childId_eq_some.mpr hd, rfl, rfl⟩

theorem mem_getDocuments_of_path {store : Server} {c : CollectionReference} {id : String}
    {d : DocumentReference} (hd : d.path = c.path ++ [id]) {document : Document} :
    (id, document) ∈ (getDocuments store c).documents ↔ store.lookup d = some document := by
  rw [mem_getDocuments]
  constructor
  · intro ⟨d', hd', hlookup⟩
    rwa [DocumentReference.ext (hd'.trans hd.symm)] at hlookup
  · intro hlookup
    exact ⟨d, hd, hlookup⟩

/-- The id of a user's location document, as a query of the positions gives it. -/
def locationId (u : Uid) : String := "user_" ++ u.val

theorem childId_locationDoc (u : Uid) :
    childId locationsCollection (locationDoc u) = some (locationId u) :=
  childId_eq_some.mpr rfl

end FirebaseLogin
