import FirebaseLogin.Devices.StoredList
import FirebaseLogin.System

/-!
deleteDevice on a row of the list. The rows come from the devices of all users,
and the delete rebuilds the document's path from the caller's uid and the bare
device id. The rows are told apart by their owner's uid, which the list itself
does not keep: it is that of the query whose callback appended the row.
-/

namespace FirebaseLogin

open DocumentStore Execution

/-- Of the list after `before`, the list after `after` lacks the row of `owner`
for the device, and has every other row. -/
structure DeletesRow (before after : List DeviceListEvent) (owner id : String) : Prop where
  gone : ∀ c ∈ contributions after, ¬ (c.query.userId = owner ∧ c.deviceId = id)
  kept : ∀ c ∈ contributions before, ¬ (c.query.userId = owner ∧ c.deviceId = id) →
    ∃ c' ∈ contributions after, c'.query.userId = c.query.userId ∧ c'.row = c.row

section Deletion

variable {server : Server} {u : Uid} {x : Segment} {pre es es' : List DeviceListEvent}
  {v v' : DeviceSelectionView}

theorem deleteDevice_ok {c : Client} (huser : c.session.currentUid = some u) (x : Segment) :
    c.deleteDevice x.val =
      .ok (c, [⟨(devicesCollection u).child x, .delete, .deleteDevice⟩]) := by
  simp [Client.deleteDevice, Client.writeDevice, huser]

/-- The store after the caller's delete. -/
def afterDelete (server : Server) (u : Uid) (x : Segment) : Server :=
  applyAt server ((devicesCollection u).child x) .delete

theorem shows_afterDelete {uid : String} {row : DeviceRow} :
    Shows (afterDelete server u x) uid row ↔
      Shows server uid row ∧ ¬ (uid = u.val ∧ row.deviceId = x.val) := by
  have hother : ∀ d, d ≠ deviceRef u.val x.val →
      (afterDelete server u x).lookup d = server.lookup d :=
    fun d hd => lookup_applyAt_of_ne server _ hd
  have hself : (afterDelete server u x).lookup (deviceRef u.val x.val) = none :=
    lookup_applyAt_self server _ _
  by_cases hdeleted : uid = u.val ∧ row.deviceId = x.val
  · obtain ⟨rfl, hid⟩ := hdeleted
    refine ⟨?_, fun h => absurd ⟨rfl, hid⟩ h.2⟩
    rintro ⟨profile, -, hdevice, -⟩
    rw [hid] at hdevice
    exact absurd hself hdevice
  · rw [shows_congr hother hdeleted]
    exact ⟨fun h => ⟨h, hdeleted⟩, fun h => h.1⟩

/-- The refresh after the delete shows every row but the caller's own. -/
theorem deletesRow_iff_owner (hshown : Refreshed server pre es v)
    (hrefresh : Refreshed (afterDelete server u x) (pre ++ .fetchDevices :: es) es' v')
    {shown : Contribution} (hmem : shown ∈ contributions (pre ++ .fetchDevices :: es))
    (hx : shown.deviceId = x.val) :
    DeletesRow (pre ++ .fetchDevices :: es) (pre ++ .fetchDevices :: es ++ .fetchDevices :: es')
        shown.query.userId x.val ↔ shown.query.userId = u.val := by
  constructor
  · intro h
    by_contra howner
    have hstore := hshown.mem_contributions_iff.mp ⟨shown, hmem, rfl, rfl⟩
    obtain ⟨c, hc, huid, hrow⟩ := hrefresh.mem_contributions_iff.mpr
      (shows_afterDelete.mpr ⟨hstore, fun hown => howner hown.1⟩)
    refine h.gone c hc ⟨huid, ?_⟩
    exact (congrArg DeviceRow.deviceId hrow).trans hx
  · intro howner
    refine ⟨fun c hc hdeleted => ?_, fun c hc hother => ?_⟩
    · have hstore := hrefresh.mem_contributions_iff.mp ⟨c, hc, rfl, rfl⟩
      exact (shows_afterDelete.mp hstore).2 ⟨hdeleted.1.trans howner, hdeleted.2⟩
    · have hstore := hshown.mem_contributions_iff.mp ⟨c, hc, rfl, rfl⟩
      apply hrefresh.mem_contributions_iff.mpr
      refine shows_afterDelete.mpr ⟨hstore, fun hown => hother ⟨hown.1.trans howner.symm, hown.2⟩⟩

end Deletion

/-- A reported deletion deletes the row exactly when the row is the caller's own.
The ids of stored documents are single segments. -/
theorem deletesRow_iff (c c' : Client) (u : Uid) (huser : c.session.currentUid = some u)
    (server : Server) (pre es : List DeviceListEvent) (v : DeviceSelectionView)
    (hshown : Refreshed server pre es v) (shown : Contribution)
    (hmem : shown ∈ contributions (pre ++ .fetchDevices :: es)) (x : Segment)
    (hx : shown.deviceId = x.val) (w : Write)
    (hdelete : c.deleteDevice shown.deviceId = .ok (c', [w])) (es' : List DeviceListEvent)
    (v' : DeviceSelectionView)
    (hrefresh : Refreshed (applyAt server w.target w.operation) (pre ++ .fetchDevices :: es)
      es' v') :
    DeletesRow (pre ++ .fetchDevices :: es) (pre ++ .fetchDevices :: es ++ .fetchDevices :: es')
        shown.query.userId shown.deviceId ↔ shown.query.userId = u.val := by
  rw [hx, deleteDevice_ok huser] at hdelete
  cases hdelete
  rw [hx]
  exact deletesRow_iff_owner hshown hrefresh hmem hx

section Examples

/-- Two users, each with a profile and a device of the same id. -/
def twoOwners : Server :=
  ((System.storedProfile.insert (userDoc Session.userB.uid)
    (dictionary [("name", .string "Name"), ("email", .string "b@example.com")])).insert
      (deviceRef "a" "tablet") ∅).insert (deviceRef "b" "tablet") ∅

def tablet : Segment := ⟨"tablet", by decide, by decide⟩

theorem shows_twoOwners :
    Shows twoOwners "a" ⟨"tablet", "Name", "a@example.com"⟩ ∧
      Shows twoOwners "b" ⟨"tablet", "Name", "b@example.com"⟩ :=
  ⟨⟨_, rfl, by decide, by decide⟩, ⟨_, rfl, by decide, by decide⟩⟩

/-- A list of both rows, and its refresh once the phone's user has deleted the
device. -/
theorem twoOwners_refreshes :
    ∃ v v', Refreshed twoOwners [] (refreshEvents twoOwners 0) v ∧
      Refreshed (afterDelete twoOwners Session.userA.uid tablet)
        ([] ++ .fetchDevices :: refreshEvents twoOwners 0)
        (refreshEvents (afterDelete twoOwners Session.userA.uid tablet) v.fetches) v' := by
  obtain ⟨v, hv⟩ := exists_refreshed twoOwners completed_nil
  obtain ⟨v', hv'⟩ := exists_refreshed (afterDelete twoOwners Session.userA.uid tablet) hv.completed
  exact ⟨v, v', hv, hv'⟩

/-- The user's own row goes. -/
theorem deletesRow_own :
    ∃ es es' shown, shown ∈ contributions ([] ++ .fetchDevices :: es) ∧
      shown.query.userId = "a" ∧ shown.row = ⟨"tablet", "Name", "a@example.com"⟩ ∧
      DeletesRow ([] ++ .fetchDevices :: es) ([] ++ .fetchDevices :: es ++ .fetchDevices :: es')
        shown.query.userId shown.deviceId := by
  obtain ⟨v, v', hv, hv'⟩ := twoOwners_refreshes
  obtain ⟨shown, hmem, howner, hrow⟩ := hv.mem_contributions_iff.mpr shows_twoOwners.1
  have hid : shown.deviceId = tablet.val := congrArg DeviceRow.deviceId hrow
  have hdelete : System.signedInPhone.deleteDevice shown.deviceId = .ok (System.signedInPhone,
      [⟨(devicesCollection Session.userA.uid).child tablet, .delete, .deleteDevice⟩]) :=
    hid ▸ deleteDevice_ok rfl tablet
  exact ⟨_, _, shown, hmem, howner, hrow,
    (deletesRow_iff _ _ Session.userA.uid rfl twoOwners [] _ v hv shown hmem tablet hid _ hdelete
      _ v' hv').mpr howner⟩

/-- The other user's row of the same id stays, though the delete succeeds, and
the user's own row goes instead. -/
theorem other_owner_row_stays :
    ∃ es es' v v' shown w,
      System.signedInPhone.deleteDevice "tablet" = .ok (System.signedInPhone, [w]) ∧
      Refreshed twoOwners [] es v ∧ shown ∈ contributions ([] ++ .fetchDevices :: es) ∧
      shown.query.userId = "b" ∧ shown.row = ⟨"tablet", "Name", "b@example.com"⟩ ∧
      Refreshed (applyAt twoOwners w.target w.operation) ([] ++ .fetchDevices :: es) es' v' ∧
      ¬ DeletesRow ([] ++ .fetchDevices :: es) ([] ++ .fetchDevices :: es ++ .fetchDevices :: es')
        shown.query.userId shown.deviceId := by
  obtain ⟨v, v', hv, hv'⟩ := twoOwners_refreshes
  obtain ⟨shown, hmem, howner, hrow⟩ := hv.mem_contributions_iff.mpr shows_twoOwners.2
  have hid : shown.deviceId = tablet.val := congrArg DeviceRow.deviceId hrow
  refine ⟨_, _, v, v', shown, _, deleteDevice_ok rfl tablet, hv, hmem, howner, hrow, hv', ?_⟩
  rw [hid, deletesRow_iff_owner hv hv' hmem hid, howner]
  decide

end Examples

end FirebaseLogin
