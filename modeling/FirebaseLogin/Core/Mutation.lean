import FirebaseLogin.Core.SetAll

/-!
Documents and mutations of the client library: mutable_document.cc,
precondition.cc and the set, patch and delete mutations, without field transforms.
A mutation is applied to a document either for the local view, before the server
has seen it, or for the remote document, after the server has acknowledged it. An
optional field mask is carried along; it is absent once the whole document has
been written.
-/

namespace FirebaseLogin.Core

open SortedEntries

/-- SnapshotVersion::None() is zero. -/
abbrev SnapshotVersion := Nat

inductive DocumentType where
  | invalid
  | foundDocument
  | noDocument
  | unknownDocument
  deriving DecidableEq

inductive DocumentState where
  | hasLocalMutations
  | hasCommittedMutations
  | synced
  deriving DecidableEq

structure MutableDocument where
  key : DocumentReference
  documentType : DocumentType
  version : SnapshotVersion
  value : ObjectValue
  documentState : DocumentState

namespace MutableDocument

def invalidDocument (key : DocumentReference) : MutableDocument :=
  { key, documentType := .invalid, version := 0, value := .empty, documentState := .synced }

def convertToFoundDocument (doc : MutableDocument) (version : SnapshotVersion)
    (value : ObjectValue) : MutableDocument :=
  { doc with version, documentType := .foundDocument, value, documentState := .synced }

def convertToNoDocument (doc : MutableDocument) (version : SnapshotVersion) : MutableDocument :=
  { doc with version, documentType := .noDocument, value := .empty, documentState := .synced }

def convertToUnknownDocument (doc : MutableDocument) (version : SnapshotVersion) :
    MutableDocument :=
  { doc with version, documentType := .unknownDocument, value := .empty,
             documentState := .hasCommittedMutations }

def setHasCommittedMutations (doc : MutableDocument) : MutableDocument :=
  { doc with documentState := .hasCommittedMutations }

def setHasLocalMutations (doc : MutableDocument) : MutableDocument :=
  { doc with documentState := .hasLocalMutations, version := 0 }

def hasLocalMutations (doc : MutableDocument) : Bool := doc.documentState == .hasLocalMutations

def hasCommittedMutations (doc : MutableDocument) : Bool :=
  doc.documentState == .hasCommittedMutations

def hasPendingWrites (doc : MutableDocument) : Bool :=
  doc.hasLocalMutations || doc.hasCommittedMutations

def isValidDocument (doc : MutableDocument) : Bool := doc.documentType != .invalid

def isFoundDocument (doc : MutableDocument) : Bool := doc.documentType == .foundDocument

def isNoDocument (doc : MutableDocument) : Bool := doc.documentType == .noDocument

end MutableDocument

inductive Precondition where
  | none
  | exists_ (exists_ : Bool)
  | updateTime (version : SnapshotVersion)
  deriving DecidableEq

def Precondition.isValidFor (precondition : Precondition) (doc : MutableDocument) : Bool :=
  match precondition with
  | .updateTime version => doc.isFoundDocument && doc.version == version
  | .exists_ b => b == doc.isFoundDocument
  | .none => true

inductive Mutation where
  | set (key : DocumentReference) (value : ObjectValue) (precondition : Precondition)
  | patch (key : DocumentReference) (value : ObjectValue) (mask : FieldMask)
      (precondition : Precondition)
  | delete (key : DocumentReference) (precondition : Precondition)

def Mutation.key : Mutation → DocumentReference
  | .set key _ _ | .patch key _ _ _ | .delete key _ => key

def Mutation.fieldMask : Mutation → Option FieldMask
  | .patch _ _ mask _ => some mask
  | .set _ _ _ | .delete _ _ => none

def Mutation.isPatch : Mutation → Bool
  | .patch _ _ _ _ => true
  | .set _ _ _ | .delete _ _ => false

/-- VerifyKeyMatches, which a mutation asserts before it is applied. -/
def Mutation.verifyKeyMatches (mutation : Mutation) (doc : MutableDocument) : Bool :=
  doc.key = mutation.key

theorem sorted_get {v w : FieldValue} (hv : v.Sorted) {path : FieldPath}
    (h : v.get path = some w) : w.Sorted := by
  induction path generalizing v with
  | nil =>
      obtain rfl : v = w := by cases v <;> exact Option.some.inj h
      exact hv
  | cons segment path ih =>
      cases v with
      | scalar _ | array _ => cases h
      | map fields =>
          obtain ⟨u, hu, hw⟩ := Option.bind_eq_some_iff.mp h
          exact ih (sorted_of_find hv hu) hw

theorem ObjectValue.sorted_of_get (o : ObjectValue) {path : FieldPath} {v : FieldValue}
    (h : o.get path = some v) : v.Sorted :=
  sorted_get o.sorted h

def ObjectValue.setAll (o : ObjectValue) (data : TransformMap) (h : SortedData data) :
    ObjectValue :=
  ⟨Core.setAll data o.fields, sorted_setAll h o.sorted⟩

theorem sortedData_getPatch (mask : FieldMask) (value : ObjectValue) :
    SortedData (getPatch mask value.fields) := by
  intro e he v hv
  obtain ⟨p, -, rfl⟩ := List.mem_map.mp he
  exact value.sorted_of_get hv

section LocalView

def insertAllPaths (paths : List FieldPath) (mask : FieldMask) : FieldMask :=
  paths.foldl (fun acc p => insertPath p acc) mask

@[simp] theorem mem_insertAllPaths {paths : List FieldPath} {mask : FieldMask}
    {path : FieldPath} : path ∈ insertAllPaths paths mask ↔ path ∈ paths ∨ path ∈ mask := by
  induction paths generalizing mask with
  | nil => simp [insertAllPaths]
  | cons p paths ih =>
      have hrec : path ∈ insertAllPaths paths (insertPath p mask) ↔
          path ∈ paths ∨ path ∈ insertPath p mask := ih
      rw [insertAllPaths, List.foldl_cons]
      exact hrec.trans (by simp [or_assoc, or_left_comm])

/-- ApplyToLocalView of the three kinds of mutation, after the assertion. The write
time is for the transforms. -/
def Mutation.applyLocally (mutation : Mutation) (doc : MutableDocument)
    (previousMask : Option FieldMask) (_localWriteTime : Timestamp) :
    MutableDocument × Option FieldMask :=
  match mutation with
  | .set _ value precondition =>
      if precondition.isValidFor doc then
        ((doc.convertToFoundDocument doc.version value).setHasLocalMutations, none)
      else (doc, previousMask)
  | .patch _ value mask precondition =>
      if precondition.isValidFor doc then
        let data := doc.value.setAll _ (sortedData_getPatch mask value)
        ((doc.convertToFoundDocument doc.version data).setHasLocalMutations,
          previousMask.map (insertAllPaths mask))
      else (doc, previousMask)
  | .delete _ precondition =>
      if precondition.isValidFor doc then
        ((doc.convertToNoDocument 0).setHasLocalMutations, none)
      else (doc, previousMask)

def Mutation.applyToLocalView (mutation : Mutation) (doc : MutableDocument)
    (previousMask : Option FieldMask) (localWriteTime : Timestamp) :
    Option (MutableDocument × Option FieldMask) :=
  if mutation.verifyKeyMatches doc then
    some (mutation.applyLocally doc previousMask localWriteTime)
  else none

theorem Mutation.applyToLocalView_of_key {mutation : Mutation} {doc : MutableDocument}
    (h : doc.key = mutation.key) (mask : Option FieldMask) (t : Timestamp) :
    mutation.applyToLocalView doc mask t = some (mutation.applyLocally doc mask t) :=
  if_pos (by simpa [Mutation.verifyKeyMatches] using h)

end LocalView

section RemoteDocument

structure MutationResult where
  version : SnapshotVersion
  transformResults : List FieldValue

/-- ApplyToRemoteDocument. There have to be as many transform results as transforms,
that is none; a patch whose precondition fails leaves a document of which only the
version is known. -/
def Mutation.applyToRemoteDocument (mutation : Mutation) (doc : MutableDocument)
    (result : MutationResult) : Option MutableDocument :=
  if mutation.verifyKeyMatches doc then
    match mutation with
    | .set _ value _ =>
        if result.transformResults = [] then
          some (doc.convertToFoundDocument result.version value).setHasCommittedMutations
        else none
    | .patch _ value mask precondition =>
        if precondition.isValidFor doc then
          if result.transformResults = [] then
            let data := doc.value.setAll _ (sortedData_getPatch mask value)
            some (doc.convertToFoundDocument result.version data).setHasCommittedMutations
          else none
        else some (doc.convertToUnknownDocument result.version)
    | .delete _ _ =>
        if result.transformResults = [] then
          some (doc.convertToNoDocument result.version).setHasCommittedMutations
        else none
  else none

end RemoteDocument

section Overlay

/-- One path of the mask. A nested field that is gone is represented by its
parent. -/
def overlayStep (data : ObjectValue) (st : MapValue × FieldMask) (path : FieldPath) :
    MapValue × FieldMask :=
  if path ∈ st.2 then st
  else
    let path := if (data.get path).isNone ∧ 1 < path.length then path.dropLast else path
    match data.get path with
    | some value => (setPath path value st.1, insertPath path st.2)
    | none => (deletePath path st.1, insertPath path st.2)

def overlayPatch (data : ObjectValue) (mask : FieldMask) : MapValue × FieldMask :=
  mask.foldl (overlayStep data) ([], [])

theorem sorted_replaceValue {fields : MapValue} (hf : (FieldValue.map fields).Sorted)
    (key : String) {value : FieldValue} (hv : value.Sorted) :
    (FieldValue.map (replaceValue key value fields)).Sorted := by
  refine ⟨ascending_replaceValue hf.1 key value, sortedValues_iff.mpr fun e he => ?_⟩
  obtain ⟨e', he', rfl⟩ := List.mem_map.mp he
  split
  · exact hv
  · exact sortedValues_iff.mp hf.2 e' he'

theorem sorted_deletePath {fields : MapValue} (hf : (FieldValue.map fields).Sorted)
    (path : FieldPath) : (FieldValue.map (deletePath path fields)).Sorted := by
  induction path generalizing fields with
  | nil => exact hf
  | cons segment path ih =>
      cases path with
      | nil => exact sorted_applyChanges hf List.Pairwise.nil trivial [segment]
      | cons next path =>
          rw [deletePath]
          split
          · next nested h => exact sorted_replaceValue hf segment (ih (sorted_of_find hf h))
          · exact hf

theorem sorted_overlayPatch (data : ObjectValue) (mask : FieldMask) :
    (FieldValue.map (overlayPatch data mask).1).Sorted := by
  have hfold : ∀ st : MapValue × FieldMask, (FieldValue.map st.1).Sorted →
      (FieldValue.map (mask.foldl (overlayStep data) st).1).Sorted := by
    induction mask with
    | nil => exact fun _ h => h
    | cons path mask ih =>
        intro st h
        refine ih _ ?_
        unfold overlayStep
        split
        · exact h
        · generalize (if (data.get path).isNone ∧ 1 < path.length then path.dropLast
            else path) = path'
          cases hv : data.get path' with
          | some value =>
              simp only [hv]
              exact sorted_setPath h path' (data.sorted_of_get hv)
          | none =>
              simp only [hv]
              exact sorted_deletePath h path'
  exact hfold ([], []) ⟨List.Pairwise.nil, trivial⟩

/-- Mutation::CalculateOverlayMutation: one mutation that takes the place of all
those that led to the document. -/
def calculateOverlayMutation (doc : MutableDocument) (mask : Option FieldMask) :
    Option Mutation :=
  if doc.hasLocalMutations then
    match mask with
    | none =>
        if doc.isNoDocument then some (.delete doc.key .none)
        else some (.set doc.key doc.value .none)
    | some mask =>
        some (.patch doc.key ⟨(overlayPatch doc.value mask).1, sorted_overlayPatch doc.value mask⟩
          (overlayPatch doc.value mask).2 .none)
  else none

end Overlay

end FirebaseLogin.Core
