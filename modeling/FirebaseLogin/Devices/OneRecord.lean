import FirebaseLogin.System

/-!
The records of one physical device under one user. registerDevice files a scanned
code under the code itself and updateDeviceName files the device under the same
identifier with "device_" in front, so the device has two document ids. It keeps
a single record, which a delete removes, exactly when every write to one of the
two ids takes effect while the other is free.
-/

namespace FirebaseLogin

open DocumentStore Execution

variable {u : Uid} {x : VendorIdentifier} {server : Server}

/-- Where a registration of the device's QR code goes. -/
def registeredDoc (u : Uid) (x : VendorIdentifier) : DocumentReference :=
  (devicesCollection u).child x.segment

/-- Where a profile update made on the device goes. -/
def namedDoc (u : Uid) (x : VendorIdentifier) : DocumentReference :=
  (devicesCollection u).child (deviceDocId x.segment)

theorem document_deviceUUID {device : UIDevice} (h : device.identifierForVendor = some x) (u : Uid) :
    (devicesCollection u).document device.deviceUUID = .ok (registeredDoc u x) := by
  simp only [UIDevice.deviceUUID, h, Option.map_some, Option.getD_some]
  exact document_segment (devicesCollection u) x.segment

theorem deviceNameDoc_eq {c : Client} (h : c.device.identifierForVendor = some x) (u : Uid) :
    c.deviceNameDoc u = namedDoc u x := by
  simp [Client.deviceNameDoc, namedDoc, UIDevice.deviceDocId, h]

/-- The ids of the listed documents that stand for the device. -/
def records (u : Uid) (x : VendorIdentifier) (server : Server) : List String :=
  ((getDocuments server (devicesCollection u)).documents.map Prod.fst).filter fun id =>
    id ∈ [x.uuidString, "device_" ++ x.uuidString]

theorem deviceIds_ne (x : VendorIdentifier) : x.uuidString ≠ "device_" ++ x.uuidString := by
  intro h
  have := congrArg String.length h
  simp at this

theorem registeredDoc_ne_namedDoc (u : Uid) (x : VendorIdentifier) :
    registeredDoc u x ≠ namedDoc u x := by
  intro h
  have hpath := congrArg DocumentReference.path h
  exact deviceIds_ne x (List.cons.inj (List.append_cancel_left hpath)).1

theorem mem_ids_child (s : Segment) :
    s.val ∈ (getDocuments server (devicesCollection u)).ids ↔
      server.lookup ((devicesCollection u).child s) ≠ none :=
  mem_ids_of_path rfl

theorem registered_mem_records : x.uuidString ∈ records u x server ↔
    server.lookup (registeredDoc u x) ≠ none := by
  rw [records, List.mem_filter]
  simp only [List.mem_cons, true_or, decide_true, and_true]
  exact mem_ids_child x.segment

theorem named_mem_records : "device_" ++ x.uuidString ∈ records u x server ↔
    server.lookup (namedDoc u x) ≠ none := by
  rw [records, List.mem_filter]
  simp only [List.mem_cons, true_or, or_true, decide_true, and_true]
  exact mem_ids_child (deviceDocId x.segment)

theorem records_subset : records u x server ⊆ [x.uuidString, "device_" ++ x.uuidString] :=
  fun _ hid => by simpa using (List.mem_filter.mp hid).2

theorem records_nodup (u : Uid) (x : VendorIdentifier) (server : Server) :
    (records u x server).Nodup :=
  (getDocuments server (devicesCollection u)).distinct.filter _

private theorem length_le_one_iff {l : List String} {a b : String} (hab : a ≠ b)
    (hnodup : l.Nodup) (hsubset : l ⊆ [a, b]) : l.length ≤ 1 ↔ a ∉ l ∨ b ∉ l := by
  constructor
  · intro hlength
    by_contra hboth
    simp only [not_or, not_not] at hboth
    have hpair : [a, b].Nodup := by simp [hab]
    have htwo : [a, b] ⊆ l := by simpa using hboth
    have := hpair.length_le_of_subset htwo
    simp only [List.length_cons, List.length_nil] at this
    omega
  · rintro (hout | hout)
    · have hone : l ⊆ [b] := fun id hid =>
        (List.mem_cons.mp (hsubset hid)).resolve_left fun h => hout (h ▸ hid)
      exact hnodup.length_le_of_subset hone
    · have hone : l ⊆ [a] := fun id hid => by
        obtain rfl | h := List.mem_cons.mp (hsubset hid)
        · exact List.mem_singleton_self id
        · exact absurd (List.mem_singleton.mp h ▸ hid) hout
      exact hnodup.length_le_of_subset hone

theorem records_length_le_one : (records u x server).length ≤ 1 ↔
    server.lookup (registeredDoc u x) = none ∨ server.lookup (namedDoc u x) = none := by
  rw [length_le_one_iff (deviceIds_ne x) (records_nodup u x server) records_subset,
    registered_mem_records, named_mem_records, not_not, not_not]

theorem records_eq_nil : records u x server = [] ↔
    server.lookup (registeredDoc u x) = none ∧ server.lookup (namedDoc u x) = none := by
  rw [List.eq_nil_iff_forall_not_mem]
  constructor
  · intro h
    exact ⟨not_not.mp fun hr => h _ (registered_mem_records.mpr hr),
      not_not.mp fun hn => h _ (named_mem_records.mpr hn)⟩
  · rintro ⟨hregistered, hnamed⟩ id hid
    obtain rfl | rfl : id = x.uuidString ∨ id = "device_" ++ x.uuidString := by
      simpa using records_subset hid
    · exact registered_mem_records.mp hid hregistered
    · exact named_mem_records.mp hid hnamed

def Completion.recordsDevice : Completion → Bool
  | .registerDevice | .updateDeviceName _ => true
  | _ => false

/-- A write to a device document is a registration, a device name or a delete. -/
def DeviceShape (w : Write) : Prop :=
  ∀ u s, w.target = (devicesCollection u).child s →
    (w.completion = .deleteDevice ∧ w.operation = .delete) ∨
    (w.completion.recordsDevice ∧ w.operation ≠ .delete)

theorem child_ne_userDoc (u v : Uid) (s : Segment) : userDoc v ≠ (devicesCollection u).child s :=
  (devices_document_ne_userDoc (document_segment (devicesCollection u) s) v).symm

theorem child_ne_locationDoc (u v : Uid) (s : Segment) :
    locationDoc v ≠ (devicesCollection u).child s :=
  (devices_document_ne_locationDoc (document_segment (devicesCollection u) s) v).symm

theorem deviceShape_of_issuedBy {c : Client} {event : AppEvent} {w : Write}
    (h : c.IssuedBy event w) : DeviceShape w := by
  intro u s htarget
  cases h with
  | createUser _ _ | updateUserInfo _ _ => exact absurd htarget (child_ne_userDoc u _ s)
  | updateDeviceName _ _ | registerDevice _ _ => exact .inr ⟨rfl, nofun⟩
  | deleteDevice _ _ _ => exact .inl ⟨rfl, rfl⟩
  | saveLocation _ _ => exact absurd htarget (child_ne_locationDoc u _ s)

namespace System

variable {ι : Type} {s s' : System ι} {e : Event ι} {w : Write}

/-- One step keeps at most one record of the device, leaves none when it applies
a delete of one, and brings the first one back only by a registration or a
profile update. -/
structure RecordKept (u : Uid) (x : VendorIdentifier) (s : System ι) (e : Event ι)
    (s' : System ι) : Prop where
  single : (records u x s'.server).length ≤ 1
  deleted : ∀ w ∈ s.accepted e, w.completion = .deleteDevice →
    w.target ∈ [registeredDoc u x, namedDoc u x] → records u x s'.server = []
  absent : records u x s.server = [] → records u x s'.server ≠ [] →
    (s.accepted e).any (·.completion.recordsDevice)

/-- A write to one of the two ids takes effect while the other is free. -/
def OtherIdFree (u : Uid) (x : VendorIdentifier) (s : System ι) (e : Event ι) (_ : System ι) :
    Prop :=
  ∀ w ∈ s.accepted e,
    (w.target = registeredDoc u x → s.server.lookup (namedDoc u x) = none) ∧
    (w.target = namedDoc u x → s.server.lookup (registeredDoc u x) = none)

structure RecordInvariant (u : Uid) (x : VendorIdentifier) (s : System ι) : Prop where
  shaped : ∀ j, ∀ w ∈ (s.clients j).writes, DeviceShape w
  single : (records u x s.server).length ≤ 1

theorem RecordInvariant.accepted (h : s.RecordInvariant u x) (hw : s.accepted e = some w) :
    DeviceShape w := by
  obtain ⟨i, hmem⟩ := mem_writes_of_accepted hw
  exact h.shaped i w hmem

variable [DecidableEq ι]

theorem lookup_of_untouched (hstep : s.step e = some s') {d : DocumentReference}
    (h : ∀ w ∈ s.accepted e, w.target ≠ d) : s'.server.lookup d = s.server.lookup d := by
  obtain hsame | ⟨w, hw, htarget, -⟩ := lookup_of_step hstep d
  · exact hsame
  · exact absurd htarget (h w hw)

/-- A write to one of two device documents leaves at most one of them, and none
after a delete, exactly when the other one is free. -/
theorem pairKept_iff (hstep : s.step e = some s') (hw : s.accepted e = some w)
    (hshape : DeviceShape w) {segment : Segment} {other : DocumentReference}
    (htarget : w.target = (devicesCollection u).child segment) (hother : w.target ≠ other) :
    ((s'.server.lookup w.target = none ∨ s'.server.lookup other = none) ∧
      (w.completion = .deleteDevice →
        s'.server.lookup w.target = none ∧ s'.server.lookup other = none)) ↔
      s.server.lookup other = none := by
  have hsame : s'.server.lookup other = s.server.lookup other := by
    apply lookup_of_untouched hstep
    intro w' hw'
    obtain rfl : w = w' := by simpa [hw] using hw'
    exact hother
  rw [hsame, lookup_of_accepted hstep hw, apply_eq_none_iff]
  obtain ⟨hdelete, hoperation⟩ | ⟨hrecords, hoperation⟩ := hshape u segment htarget
  · simp [hdelete, hoperation]
  · have hcompletion : w.completion ≠ .deleteDevice := by
      intro h
      simp [h, Completion.recordsDevice] at hrecords
    simp [hcompletion, hoperation]

/-- At most one record, and none once a delete of one has been applied. -/
def PairKept (u : Uid) (x : VendorIdentifier) (w : Write) (server : Server) : Prop :=
  (server.lookup (registeredDoc u x) = none ∨ server.lookup (namedDoc u x) = none) ∧
    (w.completion = .deleteDevice →
      server.lookup (registeredDoc u x) = none ∧ server.lookup (namedDoc u x) = none)

theorem pairKept_registered (hstep : s.step e = some s') (hw : s.accepted e = some w)
    (hshape : DeviceShape w) (htarget : w.target = registeredDoc u x) :
    PairKept u x w s'.server ↔ s.server.lookup (namedDoc u x) = none := by
  have hpair := pairKept_iff hstep hw hshape htarget (htarget ▸ registeredDoc_ne_namedDoc u x)
  rwa [htarget] at hpair

theorem pairKept_named (hstep : s.step e = some s') (hw : s.accepted e = some w)
    (hshape : DeviceShape w) (htarget : w.target = namedDoc u x) :
    PairKept u x w s'.server ↔ s.server.lookup (registeredDoc u x) = none := by
  have hpair := pairKept_iff hstep hw hshape htarget
    (htarget ▸ (registeredDoc_ne_namedDoc u x).symm)
  rw [htarget] at hpair
  rw [← hpair, PairKept, or_comm, and_comm (a := s'.server.lookup (registeredDoc u x) = none)]

theorem recordsDevice_of_new (hstep : s.step e = some s') (h : s.RecordInvariant u x)
    {segment : Segment} (hbefore : s.server.lookup ((devicesCollection u).child segment) = none)
    (hafter : s'.server.lookup ((devicesCollection u).child segment) ≠ none) :
    (s.accepted e).any (·.completion.recordsDevice) := by
  obtain hsame | ⟨w, hw, htarget, hlookup⟩ :=
    lookup_of_step hstep ((devicesCollection u).child segment)
  · exact absurd (hsame.trans hbefore) hafter
  · obtain ⟨-, hdelete⟩ | ⟨hrecords, -⟩ := h.accepted hw u segment htarget
    · rw [hdelete, apply_delete] at hlookup
      exact absurd hlookup hafter
    · simpa [hw] using hrecords

/-- The first record does not come by a delete. -/
theorem recordsDevice_of_absent (hstep : s.step e = some s') (h : s.RecordInvariant u x)
    (hbefore : records u x s.server = []) (hafter : records u x s'.server ≠ []) :
    (s.accepted e).any (·.completion.recordsDevice) := by
  rw [records_eq_nil] at hbefore
  rw [ne_eq, records_eq_nil, not_and_or] at hafter
  obtain hregistered | hnamed := hafter
  · exact recordsDevice_of_new hstep h hbefore.1 hregistered
  · exact recordsDevice_of_new hstep h hbefore.2 hnamed

theorem single_of_otherIdFree (hstep : s.step e = some s') (h : s.RecordInvariant u x)
    (hfree : s.OtherIdFree u x e s') : (records u x s'.server).length ≤ 1 := by
  rw [records_length_le_one]
  by_cases hregistered : ∃ w ∈ s.accepted e, w.target = registeredDoc u x
  · obtain ⟨w, hw, htarget⟩ := hregistered
    exact ((pairKept_registered hstep hw (h.accepted hw) htarget).mpr ((hfree w hw).1 htarget)).1
  by_cases hnamed : ∃ w ∈ s.accepted e, w.target = namedDoc u x
  · obtain ⟨w, hw, htarget⟩ := hnamed
    exact ((pairKept_named hstep hw (h.accepted hw) htarget).mpr ((hfree w hw).2 htarget)).1
  · rw [lookup_of_untouched hstep fun w hw htarget => hregistered ⟨w, hw, htarget⟩,
      lookup_of_untouched hstep fun w hw htarget => hnamed ⟨w, hw, htarget⟩]
    exact records_length_le_one.mp h.single

theorem recordKept_iff_step (hstep : s.step e = some s') (h : s.RecordInvariant u x) :
    s.RecordKept u x e s' ↔ s.OtherIdFree u x e s' := by
  constructor
  · rintro ⟨hsingle, hdeleted, -⟩ w hw
    have hpair : w.target ∈ [registeredDoc u x, namedDoc u x] → PairKept u x w s'.server :=
      fun hmem => ⟨records_length_le_one.mp hsingle,
        fun hcompletion => records_eq_nil.mp (hdeleted w hw hcompletion hmem)⟩
    exact ⟨fun htarget =>
        (pairKept_registered hstep hw (h.accepted hw) htarget).mp (hpair (by simp [htarget])),
      fun htarget =>
        (pairKept_named hstep hw (h.accepted hw) htarget).mp (hpair (by simp [htarget]))⟩
  · intro hfree
    refine ⟨single_of_otherIdFree hstep h hfree, fun w hw hcompletion hmem => ?_,
      recordsDevice_of_absent hstep h⟩
    rw [records_eq_nil]
    obtain htarget | htarget : w.target = registeredDoc u x ∨ w.target = namedDoc u x := by
      simpa using hmem
    · exact ((pairKept_registered hstep hw (h.accepted hw) htarget).mpr
        ((hfree w hw).1 htarget)).2 hcompletion
    · exact ((pairKept_named hstep hw (h.accepted hw) htarget).mpr
        ((hfree w hw).2 htarget)).2 hcompletion

theorem recordInvariant_step (hstep : s.step e = some s') (h : s.RecordInvariant u x)
    (hfree : s.OtherIdFree u x e s') : s'.RecordInvariant u x := by
  refine ⟨fun j w hw => ?_, ((recordKept_iff_step hstep h).mpr hfree).single⟩
  obtain hw | ⟨event, -, hissued⟩ := mem_writes_of_step hstep hw
  · exact h.shaped j w hw
  · exact deviceShape_of_issuedBy hissued

/-- From an empty store, over every run: the device has at most one record under
the user in every state and none after a delete of it, exactly when every write
to one of its two document ids takes effect while the other is free. -/
theorem recordKept_iff (devices : ι → UIDevice) (users : ι → Option User) (u : Uid)
    (x : VendorIdentifier) (es : List (Event ι)) :
    Along step (RecordKept u x) (launch ∅ devices users) es ↔
      Along step (OtherIdFree u x) (launch ∅ devices users) es := by
  apply along_congr (I := RecordInvariant u x)
  · intro s e s' hstep hfree h
    exact recordInvariant_step hstep h hfree
  · intro s e s' hstep h
    exact recordKept_iff_step hstep h
  · exact ⟨nofun, Nat.zero_le 1⟩

section Examples

/-- A user scans the code of the phone in use and then saves the profile form on
that phone. -/
def scannedAndSavedRun : List (Event Unit) :=
  [.app () (.registerDevice phone.deviceUUID 1), .acceptWrite (), .app () .openProfile,
    .app () (.profileAppeared 0), .answerRead () 0, .app () (.readCallback 0 2),
    .app () (.updateUserInfo 0), .acceptWrite (), .app () (.writeCallback 1 3), .acceptWrite ()]

/-- The phone is listed twice. -/
theorem phone_listed_twice :
    (¬ Along step (RecordKept Session.userA.uid phoneId) (single ∅ (some Session.userA))
      scannedAndSavedRun) ∧
    ∃ t, run step (single ∅ (some Session.userA)) scannedAndSavedRun = some t ∧
      (getDocuments t.server (devicesCollection Session.userA.uid)).ids =
        ["device_E621E1F8-C36C-495A-93FC-0C247A3E6E5F", "E621E1F8-C36C-495A-93FC-0C247A3E6E5F"] := by
  refine ⟨fun h => ?_, _, rfl, by decide⟩
  have hfinal := run_invariant
    (I := fun s : System Unit => (records Session.userA.uid phoneId s.server).length ≤ 1)
    (fun _ _ _ _ hc _ => hc.single) (by decide) h rfl
  exact absurd hfinal (by decide)

end Examples

end System

end FirebaseLogin
