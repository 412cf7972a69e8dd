import FirebaseLogin.Views.DeviceAttribution

/-!
Overlapping refreshes over a store that does not change, with every query
succeeding. The last users callback empties the list, and then both its own
devices callbacks and the ones earlier calls still have outstanding append.
-/

namespace FirebaseLogin

open Execution DeviceListEvent DeviceSelectionView

section Refresh

variable (users : QuerySnapshot) (devices : String → QuerySnapshot)

/-- The answers are those of one fixed content of the collections. -/
def DeviceListEvent.AnswersFrom : DeviceListEvent → Prop
  | .fetchDevices => True
  | .usersCallback _ answer => answer = .ok users
  | .devicesCallback query answer => answer = .ok (devices query.userId)

/-- One call run alone, its devices callbacks in the order of the users. -/
def fetchAlone : List DeviceListEvent :=
  .fetchDevices :: .usersCallback 0 (.ok users) :: users.documents.map fun document =>
    .devicesCallback (devicesQuery 0 document) (.ok (devices document.1))

def contributionsOf (query : DevicesQuery) : List Contribution :=
  (devices query.userId).ids.map (⟨query, ·⟩)

/-- The list is a permutation of what one call alone shows, and no device
document of a user contributes two rows. -/
def RefreshAgrees (es : List DeviceListEvent) (v : DeviceSelectionView) : Prop :=
  (∃ alone, Completed (fetchAlone users devices) alone ∧ v.devices.Perm alone.devices) ∧
    ((contributions es).map fun c => (c.query.userId, c.deviceId)).Nodup

theorem run_deliveries (fetch : Nat) (documents : List (String × Document))
    (v : DeviceSelectionView) (hv : v.devicesQueries = documents.map (devicesQuery fetch)) :
    ∃ w, run step v (documents.map fun document =>
        .devicesCallback (devicesQuery fetch document) (.ok (devices document.1))) = some w ∧
      w.devicesQueries = [] ∧ w.usersQueries = v.usersQueries := by
  induction documents generalizing v with
  | nil => exact ⟨v, rfl, by simpa using hv, rfl⟩
  | cons document documents ih =>
      obtain ⟨w, hw, hdone, husers⟩ := ih
        { v with
          devices := v.devices ++ (devices document.1).ids.map (devicesQuery fetch document).row
          devicesQueries := documents.map (devicesQuery fetch) } rfl
      refine ⟨w, ?_, hdone, husers⟩
      rw [List.map_cons, run_cons]
      exact ⟨_, by simp [step, hv, DeviceSelectionView.devicesCallback], hw⟩

theorem fetchAlone_completes : ∃ alone, Completed (fetchAlone users devices) alone := by
  obtain ⟨w, hw, hdone, husers⟩ := run_deliveries devices 0 users.documents
    ⟨[], false, "", 1, [], users.documents.map (devicesQuery 0)⟩ rfl
  refine ⟨w, ?_, husers, hdone⟩
  rw [fetchAlone, run_cons]
  refine ⟨_, rfl, ?_⟩
  rw [run_cons]
  exact ⟨_, by simp [step, launch, DeviceSelectionView.fetchDevices,
    DeviceSelectionView.usersCallback], hw⟩

variable {users devices}

/-- The callbacks after the last clear deliver what was outstanding then, and
the queries of the last call. -/
theorem contributions_perm {pre post : List DeviceListEvent} {fetch : Nat}
    {v₀ v : DeviceSelectionView}
    (hdone : Completed (pre ++ .usersCallback fetch (.ok users) :: post) v)
    (hanswers : ∀ e ∈ post, e.AnswersFrom users devices) (hpost : ∀ e ∈ post, ¬ e.Clears)
    (hpre : run step launch pre = some v₀) :
    (contributions (pre ++ .usersCallback fetch (.ok users) :: post)).Perm
      (v₀.devicesQueries.flatMap (contributionsOf devices) ++
        (users.documents.map (devicesQuery fetch)).flatMap (contributionsOf devices)) := by
  obtain ⟨m, hm, hrest⟩ := run_append.mp hdone.1
  obtain rfl : v₀ = m := Option.some.inj (hpre.symm.trans hm)
  have hissues : post.flatMap issues = [] := by
    refine List.flatMap_eq_nil_iff.mpr fun e he => List.eq_nil_iff_forall_not_mem.mpr ?_
    intro q hq
    obtain ⟨snapshot, rfl, -⟩ := mem_issues.mp hq
    exact hpost _ he trivial
  have hpending := run_devicesQueries hrest
  rw [hdone.2.2, List.flatMap_cons, hissues] at hpending
  have hdelivers : (v₀.devicesQueries ++ users.documents.map (devicesQuery fetch)).Perm
      (post.flatMap delivers) := by
    simpa [issues, delivers] using hpending
  have happends : post.flatMap appends =
      (post.flatMap delivers).flatMap (contributionsOf devices) := by
    rw [List.flatMap_assoc]
    refine List.flatMap_congr fun e he => ?_
    have ha := hanswers e he
    cases e with
    | fetchDevices | usersCallback _ _ => rfl
    | devicesCallback query answer =>
        obtain rfl : answer = .ok (devices query.userId) := ha
        simp [appends, delivers, contributionsOf]
  rw [contributions_after_clear _ (by trivial) hpost, happends, ← List.flatMap_append]
  exact hdelivers.symm.flatMap_right _

theorem row_contributionsOf (fetch : Nat) :
    ((users.documents.map (devicesQuery fetch)).flatMap (contributionsOf devices)).map
        Contribution.row =
      users.documents.flatMap fun document => (devices document.1).ids.map fun id =>
        ⟨id, ownerName document.2, ownerEmail document.2⟩ := by
  simp [List.flatMap_map, List.map_flatMap, contributionsOf, Contribution.row,
    DevicesQuery.row, devicesQuery, Function.comp_def]

theorem fetchAlone_devices {alone : DeviceSelectionView}
    (h : Completed (fetchAlone users devices) alone) :
    alone.devices = users.documents.flatMap fun document => (devices document.1).ids.map fun id =>
      ⟨id, ownerName document.2, ownerEmail document.2⟩ := by
  have hpost : ∀ e ∈ users.documents.map fun document =>
      DeviceListEvent.devicesCallback (devicesQuery 0 document) (.ok (devices document.1)),
        ¬ e.Clears := by
    intro e he
    obtain ⟨document, -, rfl⟩ := List.mem_map.mp he
    exact id
  have hclear := contributions_after_clear [.fetchDevices]
    (e := .usersCallback 0 (.ok users)) (by trivial) hpost
  rw [run_devices h.1]
  change (contributions ([.fetchDevices] ++ _ :: _)).map _ = _
  rw [hclear, ← row_contributionsOf 0]
  simp [List.flatMap_map, appends, contributionsOf, devicesQuery]

/-- Distinct users and distinct device ids make distinct pairs. -/
theorem contributionsOf_keys_nodup (fetch : Nat) :
    (((users.documents.map (devicesQuery fetch)).flatMap (contributionsOf devices)).map
      fun c => (c.query.userId, c.deviceId)).Nodup := by
  have hkeys : ((users.documents.map (devicesQuery fetch)).flatMap (contributionsOf devices)).map
      (fun c => (c.query.userId, c.deviceId)) =
        (users.documents.map Prod.fst).flatMap fun uid =>
          (devices uid).ids.map fun id => (uid, id) := by
    simp [List.flatMap_map, List.map_flatMap, contributionsOf, devicesQuery, Function.comp_def]
  rw [hkeys, List.nodup_flatMap]
  constructor
  · intro uid _
    exact (devices uid).distinct.map fun a b h => (Prod.mk.inj h).2
  · refine users.distinct.imp ?_
    intro a b hab key ha hb
    obtain ⟨_, -, rfl⟩ := List.mem_map.mp ha
    obtain ⟨_, -, hkey⟩ := List.mem_map.mp hb
    exact hab (Prod.mk.inj hkey).1.symm

end Refresh

/-- Overlapping refreshes show what one refresh shows exactly when the last
users callback finds no devices query outstanding that has a document to bring. -/
theorem refreshAgrees_iff (users : QuerySnapshot) (devices : String → QuerySnapshot)
    (pre post : List DeviceListEvent) (fetch : Nat) (v₀ v : DeviceSelectionView)
    (hdone : Completed (pre ++ .usersCallback fetch (.ok users) :: post) v)
    (hanswers : ∀ e ∈ pre ++ .usersCallback fetch (.ok users) :: post,
      e.AnswersFrom users devices)
    (hlast : ∀ e ∈ post, ¬ e.Clears) (hpre : run step launch pre = some v₀) :
    RefreshAgrees users devices (pre ++ .usersCallback fetch (.ok users) :: post) v ↔
      ∀ query ∈ v₀.devicesQueries, (devices query.userId).documents = [] := by
  have hperm := contributions_perm hdone (fun e he => hanswers e (by simp [he])) hlast hpre
  have hrows := hperm.map Contribution.row
  rw [← run_devices hdone.1, List.map_append, row_contributionsOf fetch] at hrows
  have hempty : (v₀.devicesQueries.flatMap (contributionsOf devices) = []) ↔
      ∀ query ∈ v₀.devicesQueries, (devices query.userId).documents = [] := by
    simp [List.flatMap_eq_nil_iff, contributionsOf, QuerySnapshot.ids]
  rw [← hempty]
  constructor
  · rintro ⟨⟨alone, halone, hsame⟩, -⟩
    have hlength := (hrows.symm.trans hsame).length_eq
    rw [fetchAlone_devices halone, List.length_append, List.length_map] at hlength
    exact List.eq_nil_of_length_eq_zero (by omega)
  · intro hnil
    rw [hnil] at hrows hperm
    obtain ⟨alone, halone⟩ := fetchAlone_completes users devices
    refine ⟨⟨alone, halone, ?_⟩, ?_⟩
    · rw [fetchAlone_devices halone]
      simpa using hrows
    · exact ((hperm.map _).nodup_iff).mpr (by simpa using contributionsOf_keys_nodup fetch)

section Examples

/-- One user with one registered device. -/
def oneUser : QuerySnapshot :=
  ⟨[("a", dictionary [("name", .string "Name"), ("email", .string "a@example.com")])],
    by decide⟩

def oneDevice (_ : String) : QuerySnapshot := ⟨[("tablet", ∅)], by decide⟩

def oneUserQuery (fetch : Nat) : DevicesQuery := ⟨fetch, "a", "Name", "a@example.com"⟩

/-- The second call's users callback comes after the first call is complete. -/
theorem refreshAgrees_in_turn :
    ∃ v, Completed
        ([.fetchDevices, .fetchDevices, .usersCallback 0 (.ok oneUser),
            .devicesCallback (oneUserQuery 0) (.ok (oneDevice "a"))] ++
          .usersCallback 1 (.ok oneUser) ::
            [.devicesCallback (oneUserQuery 1) (.ok (oneDevice "a"))]) v ∧
      RefreshAgrees oneUser oneDevice
        ([.fetchDevices, .fetchDevices, .usersCallback 0 (.ok oneUser),
            .devicesCallback (oneUserQuery 0) (.ok (oneDevice "a"))] ++
          .usersCallback 1 (.ok oneUser) ::
            [.devicesCallback (oneUserQuery 1) (.ok (oneDevice "a"))]) v := by
  refine ⟨_, ⟨rfl, by decide⟩, ?_⟩
  refine (refreshAgrees_iff oneUser oneDevice _ _ 1 _ _ ⟨rfl, by decide⟩ ?_ ?_ rfl).mpr ?_
  · simp [AnswersFrom, oneUserQuery]
  · decide
  · decide

/-- Both users callbacks before either devices callback. -/
def overlappingRun : List DeviceListEvent :=
  [.fetchDevices, .fetchDevices, .usersCallback 0 (.ok oneUser), .usersCallback 1 (.ok oneUser),
    .devicesCallback (oneUserQuery 0) (.ok (oneDevice "a")),
    .devicesCallback (oneUserQuery 1) (.ok (oneDevice "a"))]

/-- The device is listed twice. -/
theorem overlapping_refresh_duplicates :
    (∀ e ∈ overlappingRun, e.AnswersFrom oneUser oneDevice) ∧
      ∃ v alone, Completed overlappingRun v ∧ Completed (fetchAlone oneUser oneDevice) alone ∧
        ¬ v.devices.Perm alone.devices ∧
        v.devices = [⟨"tablet", "Name", "a@example.com"⟩, ⟨"tablet", "Name", "a@example.com"⟩] := by
  refine ⟨by simp [overlappingRun, AnswersFrom, oneUserQuery], _, _, ⟨rfl, by decide⟩,
    ⟨rfl, by decide⟩, by decide, by decide⟩

end Examples

end FirebaseLogin
