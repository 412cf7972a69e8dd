import Mathlib.Data.List.Basic

/-!
Firestore paths as the client library builds them: ResourcePath::FromString,
the checks of CollectionReference and DocumentReference, and the references the
app asks for. A thrown invalid-argument exception is its message.
-/

namespace FirebaseLogin

/-- One path segment: a document or collection id. Auth uids and the vendor
identifier's uuidString are of this kind. -/
structure Segment where
  val : String
  nonempty : val ≠ ""
  noSlash : '/' ∉ val.toList
  deriving DecidableEq

abbrev Uid := Segment

def Segment.prepend (text : String) (h : '/' ∉ text.toList) (s : Segment) : Segment where
  val := text ++ s.val
  nonempty := by simp [s.nonempty]
  noSlash := by simp [h, s.noSlash]

abbrev ResourcePath := List String

def containsDoubleSlash : List Char → Bool
  | '/' :: '/' :: _ => true
  | _ :: cs => containsDoubleSlash cs
  | [] => false

def ResourcePath.fromString (path : String) : Except String ResourcePath :=
  if containsDoubleSlash path.toList then
    .error s!"Invalid path ({path}). Paths must not contain // in them."
  else
    .ok (((path.toList.splitOn '/').filter (· ≠ [])).map String.ofList)

structure CollectionReference where
  path : ResourcePath
  odd : path.length % 2 = 1
  deriving DecidableEq

structure DocumentReference where
  path : ResourcePath
  even : path.length % 2 = 0
  deriving DecidableEq

def DocumentReference.ofPath (path : ResourcePath) : Except String DocumentReference :=
  if h : path.length % 2 = 0 then .ok ⟨path, h⟩
  else
    let canonical := String.intercalate "/" path
    let size := path.length
    .error s!"Invalid document reference. Document references must have an even number of segments, but {canonical} has {size}"

/-- FIRCollectionReference documentWithPath, on any text. -/
def CollectionReference.document (c : CollectionReference) (documentPath : String) :
    Except String DocumentReference :=
  if documentPath = "" then .error "Document path cannot be empty."
  else
    match ResourcePath.fromString documentPath with
    | .error message => .error message
    | .ok subPath => DocumentReference.ofPath (c.path ++ subPath)

def CollectionReference.child (c : CollectionReference) (s : Segment) : DocumentReference where
  path := c.path ++ [s.val]
  even := by simp [Nat.add_mod, c.odd]

def DocumentReference.collection (d : DocumentReference) (s : Segment) : CollectionReference where
  path := d.path ++ [s.val]
  odd := by simp [Nat.add_mod, d.even]

def CollectionReference.root (s : Segment) : CollectionReference := ⟨[s.val], rfl⟩

theorem DocumentReference.ext {d e : DocumentReference} (h : d.path = e.path) : d = e := by
  cases d; cases e; cases h; rfl

theorem Segment.ext {s t : Segment} (h : s.val = t.val) : s = t := by
  cases s; cases t; cases h; rfl

theorem Segment.toList_ne_nil (s : Segment) : s.val.toList ≠ [] := by
  simpa using s.nonempty

private theorem containsDoubleSlash_of_not_mem {cs : List Char} (h : '/' ∉ cs) :
    containsDoubleSlash cs = false := by
  induction cs with
  | nil => rfl
  | cons c cs ih =>
      have hc : c ≠ '/' := fun hc => h (by simp [hc])
      have hcs : '/' ∉ cs := fun hm => h (List.mem_cons_of_mem c hm)
      unfold containsDoubleSlash
      split
      · next hx => exact absurd (List.cons.inj hx).1 hc
      · next hx => rw [← (List.cons.inj hx).2]; exact ih hcs
      · next hx => cases hx

theorem fromString_segment (s : Segment) : ResourcePath.fromString s.val = .ok [s.val] := by
  have hsplit : s.val.toList.splitOn '/' = [s.val.toList] := by
    apply List.splitOnP_eq_singleton
    intro c hc
    simpa using fun h : c = '/' => s.noSlash (h ▸ hc)
  simp [ResourcePath.fromString, containsDoubleSlash_of_not_mem s.noSlash, hsplit,
    s.toList_ne_nil]

/-- A single segment never throws and names the child itself. -/
@[simp] theorem document_segment (c : CollectionReference) (s : Segment) :
    c.document s.val = .ok (c.child s) := by
  have he : (c.path ++ [s.val]).length % 2 = 0 := (c.child s).even
  simp only [CollectionReference.document, if_neg s.nonempty, fromString_segment,
    DocumentReference.ofPath, dif_pos he]
  rfl

/-- A text that does not throw is not empty, and its segments follow the
collection's. -/
theorem document_cases {c : CollectionReference} {text : String} {d : DocumentReference}
    (h : c.document text = .ok d) :
    text ≠ "" ∧ ∃ subPath, ResourcePath.fromString text = .ok subPath ∧
      d.path = c.path ++ subPath := by
  unfold CollectionReference.document at h
  split at h
  · cases h
  · next hne =>
      split at h
      · cases h
      · next subPath hsub =>
          unfold DocumentReference.ofPath at h
          split at h
          · cases h
            exact ⟨hne, subPath, hsub, rfl⟩
          · cases h

/-- Whatever the text, the document lies strictly below the collection. -/
theorem document_below {c : CollectionReference} {text : String} {d : DocumentReference}
    (h : c.document text = .ok d) : ∃ rest, rest ≠ [] ∧ d.path = c.path ++ rest := by
  obtain ⟨-, subPath, -, hpath⟩ := document_cases h
  refine ⟨subPath, ?_, hpath⟩
  rintro rfl
  have hodd := c.odd
  have heven := d.even
  rw [hpath, List.append_nil] at heven
  omega

private theorem not_mem_of_mem_splitOnP {cs segment : List Char}
    (h : segment ∈ cs.splitOnP (· == '/')) : '/' ∉ segment := by
  induction cs generalizing segment with
  | nil =>
      obtain rfl : segment = [] := by simpa using h
      simp
  | cons c cs ih =>
      rw [List.splitOnP_cons_eq_if_modifyHead] at h
      split at h
      · obtain rfl | h := List.mem_cons.mp h
        · simp
        · exact ih h
      · next hc =>
          obtain ⟨first, rest, hsplit⟩ :=
            List.exists_cons_of_ne_nil (List.splitOnP_ne_nil (· == '/') cs)
          rw [hsplit] at h ih
          obtain rfl | h := List.mem_cons.mp h
          · have hfirst := ih List.mem_cons_self
            have hne : c ≠ '/' := by simpa using hc
            simpa [hfirst] using hne.symm
          · exact ih (List.mem_cons_of_mem first h)

/-- Only a single segment names the child with that very id. -/
theorem segment_of_document {c : CollectionReference} {text : String} {d : DocumentReference}
    (h : c.document text = .ok d) (hpath : d.path = c.path ++ [text]) :
    text ≠ "" ∧ '/' ∉ text.toList := by
  obtain ⟨hne, subPath, hsub, hpath'⟩ := document_cases h
  obtain rfl : subPath = [text] := List.append_cancel_left (hpath'.symm.trans hpath)
  refine ⟨hne, ?_⟩
  unfold ResourcePath.fromString at hsub
  split at hsub
  · cases hsub
  · have hmem : text ∈ ((text.toList.splitOn '/').filter (· ≠ [])).map String.ofList := by
      rw [Except.ok.inj hsub]
      exact List.mem_singleton_self text
    obtain ⟨segment, hsegment, heq⟩ := List.mem_map.mp hmem
    rw [← heq, String.toList_ofList]
    exact not_mem_of_mem_splitOnP (List.mem_filter.mp hsegment).1

section References

def usersCollection : CollectionReference :=
  .root ⟨"users", by decide, by decide⟩

def locationsCollection : CollectionReference :=
  .root ⟨"locations", by decide, by decide⟩

def userDoc (uid : Uid) : DocumentReference := usersCollection.child uid

/-- The profile under any id, an account's or not. -/
def profileRef (uid : String) : DocumentReference := ⟨["users", uid], by simp⟩

def devicesCollection (uid : Uid) : CollectionReference :=
  (userDoc uid).collection ⟨"devices", by decide, by decide⟩

def locationDoc (uid : Uid) : DocumentReference :=
  locationsCollection.child (uid.prepend "user_" (by decide))

@[simp] theorem userDoc_path (u : Uid) : (userDoc u).path = ["users", u.val] := rfl

@[simp] theorem devicesCollection_path (u : Uid) :
    (devicesCollection u).path = ["users", u.val, "devices"] := rfl

@[simp] theorem locationDoc_path (u : Uid) :
    (locationDoc u).path = ["locations", "user_" ++ u.val] := rfl

@[simp] theorem userDoc_inj {u v : Uid} : userDoc u = userDoc v ↔ u = v := by
  constructor
  · intro h
    have hp := congrArg DocumentReference.path h
    simp only [userDoc_path, List.cons.injEq, and_true, true_and] at hp
    exact Segment.ext hp
  · rintro rfl; rfl

@[simp] theorem locationDoc_ne_userDoc (u v : Uid) : locationDoc u ≠ userDoc v := by
  intro h
  have hp := congrArg DocumentReference.path h
  simp at hp

@[simp] theorem locationDoc_inj {u v : Uid} : locationDoc u = locationDoc v ↔ u = v := by
  constructor
  · intro h
    have hp := congrArg DocumentReference.path h
    simp only [locationDoc_path, List.cons.injEq, and_true, true_and] at hp
    exact Segment.ext ((String.append_right_inj _).mp hp)
  · rintro rfl; rfl

/-- No document at or below a devices subcollection holds a position. -/
theorem devices_document_ne_locationDoc {u : Uid} {text : String} {d : DocumentReference}
    (h : (devicesCollection u).document text = .ok d) (v : Uid) : d ≠ locationDoc v := by
  obtain ⟨rest, hrest, hpath⟩ := document_below h
  rintro rfl
  simp at hpath

/-- No document at or below a devices subcollection is a profile. -/
theorem devices_document_ne_userDoc {u : Uid} {text : String} {d : DocumentReference}
    (h : (devicesCollection u).document text = .ok d) (v : Uid) : d ≠ userDoc v := by
  obtain ⟨rest, hrest, hpath⟩ := document_below h
  rintro rfl
  simp at hpath

end References

end FirebaseLogin
